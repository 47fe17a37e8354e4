import RomeSdk.Indexer.EngineApiBlockProducer
import RomeSdk.Indexer.InMemory
import RomeSdk.Lib.NestedMaps

/-!
# Restoring what was produced

Blocks are built in op-geth, and their parameters put together from its answers;
when the indexer was stopped in between, the parameters are put together again
from the headers op-geth reports. Both ways give the same parameters for the same
pending blocks, since a block hash stands for one header.

They part on the first block of all. Producing on top of no block takes the
genesis block for the parent and writes its hash into the parameters; restoring
compares that hash with the parent hash it was given, which is none.
-/

namespace RomeSdk

open ItemId (Before)

/-! ## What op-geth promises -/

structure Header where
  parentHash : H256
  number : Nat
  timestamp : U256
  deriving DecidableEq, Repr

/-- What the engine API says of the answers of op-geth. A hash stands for a header, and
the id of a payload for the parameters it was started with. -/
structure EngineChain {σ : Type} (P : EngineAPIBlockProducer σ) where
  header : H256 → Option Header
  started : PayloadId → Option (H256 × ForkchoiceUpdateParams)
  /-- A block that is not pending is reported with its hash and the fields of its header. -/
  reported : ∀ {id s block hash t}, P.gethApi.getBlock id s = .ok (some block) t →
    block.hash = some hash →
    ∃ number, block.number = some number ∧
      header hash = some ⟨block.parentHash, number, block.timestamp⟩
  reportedByHash : ∀ {hash s block t}, P.gethApi.getBlock (.hash hash) s = .ok (some block) t →
    block.hash = some hash
  starts : ∀ {state params s payloadId t},
    P.gethEngine.forkchoiceUpdatedV2 state (some params) s = .ok (some payloadId) t →
    started payloadId = some (state.headBlockHash, params)
  /-- The payload is a block on top of the head, with the timestamp that was asked for. -/
  builds : ∀ {payloadId s payload t parentHash params parent},
    P.gethEngine.getPayloadV2 payloadId s = .ok (some payload) t →
    started payloadId = some (parentHash, params) → header parentHash = some parent →
    payload.blockNumber = parent.number + 1 ∧
      header payload.blockHash = some ⟨parentHash, parent.number + 1, params.timestamp⟩

variable {σ : Type} {P : EngineAPIBlockProducer σ}

/-- Parameters of blocks on top of each other, the first on top of the block
`parentHash`, which has the number `number`. -/
def OnTop (E : EngineChain P) : H256 → Nat → List BlockParams → Prop
  | _, _, [] => True
  | parentHash, number, params :: rest =>
      params.parentHash = some parentHash ∧ params.number = number + 1 ∧
        E.header params.hash = some ⟨parentHash, number + 1, params.timestamp⟩ ∧
        OnTop E params.hash (number + 1) rest

/-! ## Producing -/

namespace EngineAPIBlockProducer

theorem attempt_ok {α : Type} {x : Eff σ α} {a : α} {s t : σ} (h : x.attempt s = .ok (.ok a) t) :
    x s = .ok a t := by
  rw [Eff.attempt] at h
  cases hx : x s with
  | ok b u =>
      rw [hx] at h
      cases h
      rfl
  | error e u =>
      rw [hx] at h
      cases e <;> cases h

theorem advanceRollupState_ok (E : EngineChain P) {finalizedBlockhash parentHash blockHash : H256}
    {timestamp : U256} {txs : List StateAdvanceTx} {gasRecipient : Option Address}
    {finalizeNewBlock : Bool} {blockNumber : Nat} {parent : Header} {s t : σ}
    (hparent : E.header parentHash = some parent)
    (h : P.gethEngine.advanceRollupState finalizedBlockhash parentHash timestamp txs gasRecipient
      finalizeNewBlock s = .ok (blockNumber, blockHash) t) :
    blockNumber = parent.number + 1 ∧
      E.header blockHash = some ⟨parentHash, parent.number + 1, timestamp⟩ := by
  obtain ⟨payloadId, u, hstart, h⟩ := EStateM.bind_ok h
  cases payloadId with
  | none => cases h
  | some payloadId =>
      obtain ⟨payload, v, hpayload, h⟩ := EStateM.bind_ok h
      cases payload with
      | none => cases h
      | some payload =>
          obtain ⟨newBlockhash, w, _, h⟩ := EStateM.bind_ok h
          obtain ⟨_, x, _, h⟩ := EStateM.bind_ok h
          cases h
          exact E.builds hpayload (E.starts hstart) hparent

/-- Blocks built one after the other, each on top of the one before. -/
def Advanced (P : EngineAPIBlockProducer σ) : σ → H256 → List BlockParams → σ → Prop
  | s, _, [], t => t = s
  | s, parentHash, params :: rest, t => params.parentHash = some parentHash ∧
      ∃ finalizedBlockhash txs gasRecipient finalizeNewBlock u,
        P.gethEngine.advanceRollupState finalizedBlockhash parentHash params.timestamp txs
          gasRecipient finalizeNewBlock s = .ok (params.number, params.hash) u ∧
        Advanced P u params.hash rest t

theorem Advanced.onTop (E : EngineChain P) {blocks : List BlockParams} :
    ∀ {s t : σ} {parentHash : H256} {parent : Header}, E.header parentHash = some parent →
      Advanced P s parentHash blocks t → OnTop E parentHash parent.number blocks := by
  induction blocks with
  | nil => exact fun _ _ => trivial
  | cons params rest ih =>
      intro s t parentHash parent hheader h
      obtain ⟨hparent, _, _, _, _, _, hadvance, hrest⟩ := h
      obtain ⟨hnumber, hheader⟩ := advanceRollupState_ok E hheader hadvance
      exact ⟨hparent, hnumber, hheader, ih hheader hrest⟩

/-- A loop that ends well has converted the first block and advanced op-geth by it, and
ends there or goes on with the rest. -/
theorem produceLoop_cons_ok {nextFinalized : Option EthBlockId} {limit : Option Nat}
    {slotNumber : Slot} {pendingL1Block : PendingL1Block} {blockIdx : Nat}
    {pendingL2Block : PendingL2Block}
    {rest : List (Slot × PendingL1Block × Nat × PendingL2Block)} {currentFinalized parentHash : H256}
    {producedBlocks : ProducedBlocks} {result : ProductionResult} {s t : σ}
    (h : P.produceLoop nextFinalized limit ((slotNumber, pendingL1Block, blockIdx, pendingL2Block)
      :: rest) currentFinalized parentHash producedBlocks s = .ok result t) :
    ∃ txs blockNumber blockHash u finalized,
      P.stateAdvanceTxs (pendingL2Block.transactions.toList.map Prod.snd) = .ok txs ∧
      P.gethEngine.advanceRollupState currentFinalized parentHash pendingL1Block.timestamp txs
        pendingL2Block.gasRecipient (finalizes nextFinalized slotNumber blockIdx) s
          = .ok (blockNumber, blockHash) u ∧
      let producedBlocks' := producedBlocks.insert slotNumber blockIdx
        ⟨blockHash, some parentHash, blockNumber, pendingL1Block.timestamp⟩
      (reached limit producedBlocks' = true ∧ result = ⟨producedBlocks', finalized⟩ ∧ t = u) ∨
        P.produceLoop nextFinalized limit rest finalized blockHash producedBlocks' u
          = .ok result t := by
  rw [produceLoop] at h
  cases htxs : P.stateAdvanceTxs (pendingL2Block.transactions.toList.map Prod.snd) with
  | error e =>
      simp only [htxs] at h
      cases h
  | ok txs =>
      simp only [htxs] at h
      obtain ⟨answer, u, hadvance, h⟩ := EStateM.bind_ok h
      cases answer with
      | error e => cases h
      | ok block =>
          obtain ⟨blockNumber, blockHash⟩ := block
          refine ⟨txs, blockNumber, blockHash, u,
            if finalizes nextFinalized slotNumber blockIdx then blockHash else currentFinalized,
            rfl, attempt_ok hadvance, ?_⟩
          simp only at h
          split at h
          · next hreached =>
            cases h
            exact Or.inl ⟨hreached, rfl, rfl⟩
          · exact Or.inr h

theorem produceLoop_ok {nextFinalized : Option EthBlockId} {limit : Option Nat}
    (items : List (Slot × PendingL1Block × Nat × PendingL2Block)) :
    ∀ {currentFinalized parentHash : H256} {producedBlocks : ProducedBlocks}
      {result : ProductionResult} {s t : σ},
    (items.map fun e => (e.1, e.2.2.1)).Pairwise Before →
    NestedMap.Below producedBlocks (items.map fun e => (e.1, e.2.2.1)) →
    NestedMap.Full producedBlocks →
    P.produceLoop nextFinalized limit items currentFinalized parentHash producedBlocks s
      = .ok result t →
    NestedMap.Full result.producedBlocks ∧
      ∃ produced, NestedMap.entries result.producedBlocks
          = NestedMap.entries producedBlocks ++ produced ∧
        produced.map Prod.fst <+: items.map (fun e => (e.1, e.2.2.1)) ∧
        Advanced P s parentHash (produced.map Prod.snd) t := by
  induction items with
  | nil =>
      intro currentFinalized parentHash producedBlocks result s t _ _ hfull h
      cases h
      exact ⟨hfull, [], (List.append_nil _).symm, List.nil_prefix, rfl⟩
  | cons item rest ih =>
      intro currentFinalized parentHash producedBlocks result s t hitems hbelow hfull h
      obtain ⟨slotNumber, pendingL1Block, blockIdx, pendingL2Block⟩ := item
      obtain ⟨txs, blockNumber, blockHash, u, finalized, _, hadvance, h⟩ := produceLoop_cons_ok h
      let params : BlockParams :=
        ⟨blockHash, some parentHash, blockNumber, pendingL1Block.timestamp⟩
      have hset : NestedMap.entries (producedBlocks.insert slotNumber blockIdx params)
          = NestedMap.entries producedBlocks ++ [((slotNumber, blockIdx), params)] :=
        NestedMap.Below.entries_set hbelow params
      have hfull' : NestedMap.Full (producedBlocks.insert slotNumber blockIdx params) :=
        hfull.set (slotNumber, blockIdx) params
      rcases h with ⟨_, rfl, rfl⟩ | h
      · exact ⟨hfull', _, hset, ⟨_, rfl⟩, rfl, _, _, _, _, _, hadvance, rfl⟩
      · have hbelow' : NestedMap.Below (producedBlocks.insert slotNumber blockIdx params)
            (rest.map fun e => (e.1, e.2.2.1)) := NestedMap.Below.set hbelow hitems params
        obtain ⟨hfull, produced, hentries, hkeys, hrest⟩ := ih hitems.of_cons hbelow' hfull' h
        refine ⟨hfull, ((slotNumber, blockIdx), params) :: produced, ?_, ?_, rfl, _, _, _, _, _,
          hadvance, hrest⟩
        · rw [hentries, hset, List.append_assoc, List.singleton_append]
        · exact List.cons_prefix_cons.mpr ⟨rfl, hkeys⟩

theorem getParentBlock_ok (E : EngineChain P) {parentHash : Option H256} {block : GethBlock}
    {hash : H256} {s t : σ} (h : P.getParentBlock parentHash s = .ok block t)
    (hhash : block.hash = some hash) : (∀ expected, parentHash = some expected → expected = hash) ∧
      ∃ parent, E.header hash = some parent := by
  have hreported : ∀ {id s t}, P.gethApi.getBlock id s = .ok (some block) t →
      ∃ parent, E.header hash = some parent := by
    intro id s t hget
    obtain ⟨number, _, hheader⟩ := E.reported hget hhash
    exact ⟨_, hheader⟩
  cases parentHash with
  | some parentHash =>
      obtain ⟨answer, u, hget, h⟩ := EStateM.bind_ok h
      match answer with
      | .ok (some b) =>
          cases h
          have hget := attempt_ok hget
          refine ⟨fun expected heq => ?_, hreported hget⟩
          cases heq
          exact Option.some.inj ((E.reportedByHash hget).symm.trans hhash)
      | .ok none => cases h
      | .error e => cases h
  | none =>
      refine ⟨fun expected heq => (by cases heq), ?_⟩
      obtain ⟨answer, u, hget, h⟩ := EStateM.bind_ok h
      match answer with
      | .ok (some b) =>
          cases hnumber : b.number with
          | none =>
              simp only [hnumber] at h
              cases h
          | some blockNumber =>
              simp only [hnumber] at h
              split at h
              · cases h
              · cases h
                exact hreported (attempt_ok hget)
      | .ok none => cases h
      | .error e => cases h

theorem preserves_getParentBlock {γ : Type} {f : σ → γ}
    (hget : ∀ id, EStateM.Preserves f (P.gethApi.getBlock id)) (parentHash : Option H256) :
    EStateM.Preserves f (P.getParentBlock parentHash) := by
  cases parentHash with
  | some parentHash =>
      refine .bind (RollupIndexer.preserves_attempt (hget _)) fun answer => ?_
      split
      · exact .pure _
      · exact .throw _
      · exact .throw _
  | none =>
      refine .bind (RollupIndexer.preserves_attempt (hget _)) fun answer => ?_
      split
      · split
        · split
          · exact .throw _
          · exact .pure _
        · exact .throw _
      · exact .throw _

theorem preserves_getFinalizedBlockhash {γ : Type} {f : σ → γ}
    (hget : ∀ id, EStateM.Preserves f (P.gethApi.getBlock id)) (parentHash : Option H256) :
    EStateM.Preserves f (P.getFinalizedBlockhash parentHash) := by
  rw [getFinalizedBlockhash]
  split
  · refine .bind (RollupIndexer.preserves_attempt (hget _)) fun answer => ?_
    split
    · split
      · exact .pure _
      · exact .throw _
    · exact .throw _
  · refine .bind (RollupIndexer.preserves_attempt (hget _)) fun answer => ?_
    split
    · split
      · exact .pure _
      · exact .throw _
    · exact .throw _

theorem preserves_firstFinalized {γ : Type} {f : σ → γ}
    (hget : ∀ id, EStateM.Preserves f (P.gethApi.getBlock id)) (parentBlock : GethBlock)
    (parentHash : Option H256) :
    EStateM.Preserves f (P.firstFinalized parentBlock parentHash) := by
  rw [firstFinalized]
  split
  · exact .throw _
  · split
    · exact preserves_getFinalizedBlockhash hget parentHash
    · split
      · exact .pure _
      · exact .throw _

theorem iter_keys (pending : PendingBlocks) :
    pending.iter.map (fun e => (e.1, e.2.2.1)) = pending.keys := by
  rw [PendingBlocks.iter, PendingBlocks.keys, List.map_flatMap]
  simp only [List.map_map, Function.comp_def]

theorem keys_ascending (pending : PendingBlocks) : pending.keys.Pairwise Before := by
  rw [PendingBlocks.keys, List.pairwise_flatMap]
  constructor
  · intro e _
    rw [List.pairwise_map]
    exact (BTreeMap.toList_ascending e.2.l2Blocks).imp fun h => Or.inr ⟨rfl, h⟩
  · refine (BTreeMap.toList_ascending pending).imp ?_
    intro e e' hlt a ha b hb
    obtain ⟨_, _, rfl⟩ := List.mem_map.mp ha
    obtain ⟨_, _, rfl⟩ := List.mem_map.mp hb
    exact Or.inl hlt

/-- What is produced are blocks for the first pending blocks, built on top of the parent
block. -/
theorem produceBlocks_ok {params : ProducerParams} {limit : Option Nat}
    {result : ProductionResult} {s t : σ} (h : P.produceBlocks params limit s = .ok result t) :
    NestedMap.Full result.producedBlocks ∧
      (NestedMap.entries result.producedBlocks).map Prod.fst <+: params.pendingBlocks.keys ∧
      ∃ parentBlock u finalizedBlockhash v parentHash,
        P.getParentBlock params.parentHash s = .ok parentBlock u ∧
        P.firstFinalized parentBlock params.parentHash u = .ok finalizedBlockhash v ∧
        parentBlock.hash = some parentHash ∧
        Advanced P v parentHash ((NestedMap.entries result.producedBlocks).map Prod.snd) t := by
  obtain ⟨parentBlock, u, hparent, h⟩ := EStateM.bind_ok h
  obtain ⟨finalizedBlockhash, v, hfinalized, h⟩ := EStateM.bind_ok h
  cases hhash : parentBlock.hash with
  | none =>
      simp only [hhash] at h
      cases h
  | some hash =>
      simp only [hhash] at h
      have hitems : (params.pendingBlocks.iter.map fun e => (e.1, e.2.2.1)).Pairwise Before := by
        rw [iter_keys]
        exact keys_ascending params.pendingBlocks
      obtain ⟨hfull, produced, hentries, hkeys, hadvanced⟩ := produceLoop_ok _ hitems
        (NestedMap.below_empty _) NestedMap.full_empty h
      rw [NestedMap.entries_empty, List.nil_append] at hentries
      rw [iter_keys] at hkeys
      rw [hentries]
      exact ⟨hfull, hkeys, parentBlock, u, finalizedBlockhash, v, hash, hparent, hfinalized, hhash,
        hadvanced⟩

end EngineAPIBlockProducer

/-! ## Restoring -/

/-- op-geth reports the block with these parameters under its number. -/
def Reports (P : EngineAPIBlockProducer σ) (s : σ) (params : BlockParams) : Prop :=
  ∃ block, P.gethApi.getBlock (.number params.number) s = .ok (some block) s ∧
    block.hash = some params.hash

/-- Restoring registers these parameters for the first pending blocks, in their order,
and does nothing else, whatever the storage answers. -/
def Restores (I : RollupIndexer σ) (fromBlock toBlock : Nat) (producerParams : ProducerParams)
    (s : σ) (expected : List BlockParams) : Prop :=
  ∃ producedBlocks : ProducedBlocks,
    (NestedMap.entries producedBlocks).map Prod.fst
      = producerParams.pendingBlocks.keys.take expected.length ∧
    (NestedMap.entries producedBlocks).map Prod.snd = expected ∧
    ∀ storage : EthereumBlockStorage σ,
      ({ I with ethereumBlockStorage := storage }).restoreBlocks fromBlock toBlock producerParams
        numRetries s = storage.blocksProduced producerParams producedBlocks s

namespace OnTop

variable {E : EngineChain P} {parentHash : H256} {number : Nat} {blocks : List BlockParams}

theorem numbers : ∀ {parentHash number}, OnTop E parentHash number blocks →
    blocks.map BlockParams.number = List.range' (number + 1) blocks.length := by
  induction blocks with
  | nil => intro parentHash number _; rfl
  | cons params rest ih =>
      intro parentHash number h
      obtain ⟨_, hnumber, _, hrest⟩ := h
      rw [List.map_cons, List.length_cons, List.range'_succ, hnumber, ih hrest]

theorem number_at (h : OnTop E parentHash number blocks) {k : Nat} {params : BlockParams}
    (hparams : blocks[k]? = some params) : params.number = number + 1 + k := by
  have hnumber : (blocks.map BlockParams.number)[k]? = some params.number := by
    rw [List.getElem?_map, hparams, Option.map_some]
  rw [h.numbers, List.getElem?_eq_some_iff] at hnumber
  obtain ⟨hk, hnumber⟩ := hnumber
  rw [List.getElem_range', Nat.one_mul] at hnumber
  exact hnumber.symm

theorem header_eq : ∀ {parentHash number}, OnTop E parentHash number blocks →
    ∀ params ∈ blocks, ∃ hash, params.parentHash = some hash ∧
      E.header params.hash = some ⟨hash, params.number, params.timestamp⟩ := by
  induction blocks with
  | nil => intro parentHash number _ params hparams; cases hparams
  | cons first rest ih =>
      intro parentHash number h params hparams
      obtain ⟨hparent, hnumber, hheader, hrest⟩ := h
      rcases List.mem_cons.mp hparams with rfl | hparams
      · exact ⟨parentHash, hparent, by rw [hnumber, hheader]⟩
      · exact ih hrest params hparams

theorem take : ∀ {parentHash number} (k : Nat), OnTop E parentHash number blocks →
    OnTop E parentHash number (blocks.take k) := by
  induction blocks with
  | nil => intro parentHash number k _; rw [List.take_nil]; trivial
  | cons first rest ih =>
      intro parentHash number k h
      cases k with
      | zero => trivial
      | succ k =>
          obtain ⟨hparent, hnumber, hheader, hrest⟩ := h
          exact ⟨hparent, hnumber, hheader, ih k hrest⟩

end OnTop

/-- A reported header gives back the parameters it was made with. -/
theorem getBlockParams_reported {E : EngineChain P} {s : σ} {params : BlockParams} {hash : H256}
    (hparent : params.parentHash = some hash)
    (hheader : E.header params.hash = some ⟨hash, params.number, params.timestamp⟩)
    (hreported : Reports P s params) : P.getBlockParams params.number s = .ok params s := by
  obtain ⟨block, hget, hhash⟩ := hreported
  obtain ⟨number, hnumber, hheader'⟩ := E.reported hget hhash
  obtain ⟨h₁, h₂, h₃⟩ := Header.mk.injEq .. ▸ Option.some.inj (hheader.symm.trans hheader')
  simp only [EngineAPIBlockProducer.getBlockParams, bind, EStateM.bind, hget, hhash, hnumber,
    pure, EStateM.pure]
  rw [← h₁, ← h₂, ← h₃, ← hparent]

namespace RollupIndexer

theorem collectParams_onTop {E : EngineChain P} (blocks : List BlockParams) :
    ∀ (given : BTreeMap Nat BlockParams) {parentHash : H256} {number : Nat},
    OnTop E parentHash number blocks → (∀ k v, given[k]? = some v → k ≤ number) →
    ∃ results, collectParams (blocks.map .ok) given = .ok results ∧
      results.toList = given.toList ++ blocks.map fun params => (params.number, params) := by
  induction blocks with
  | nil =>
      intro given parentHash number _ _
      exact ⟨given, rfl, (List.append_nil _).symm⟩
  | cons params rest ih =>
      intro given parentHash number h hbelow
      obtain ⟨_, hnumber, _, hrest⟩ := h
      have hbelow' : ∀ k v, (given.insert params.number params)[k]? = some v → k ≤ number + 1 := by
        intro k v hget
        rw [BTreeMap.get?_insert] at hget
        split at hget
        · next heq => omega
        · exact Nat.le_succ_of_le (hbelow k v hget)
      obtain ⟨results, hresults, hlist⟩ := ih _ hrest hbelow'
      refine ⟨results, hresults, ?_⟩
      rw [hlist, BTreeMap.toList_insert_above fun k v hget => ?_, List.append_assoc,
        List.singleton_append, List.map_cons]
      have := hbelow k v hget
      omega

theorem alignBlocks_onTop {E : EngineChain P} (keys : List EthBlockId) :
    ∀ (producedBlocks : ProducedBlocks) {parentHash : H256} {number : Nat}
      {blocks : List BlockParams}, OnTop E parentHash number blocks →
    keys.Pairwise Before → NestedMap.Below producedBlocks keys →
    ∃ aligned, alignBlocks keys (blocks.map fun params => (params.number, params))
        (some parentHash) producedBlocks = .ok aligned ∧
      NestedMap.entries aligned = NestedMap.entries producedBlocks ++ keys.zip blocks := by
  induction keys with
  | nil =>
      intro producedBlocks parentHash number blocks _ _ _
      exact ⟨producedBlocks, rfl, (List.append_nil _).symm⟩
  | cons key rest ih =>
      intro producedBlocks parentHash number blocks h hkeys hbelow
      cases blocks with
      | nil => exact ⟨producedBlocks, rfl, (List.append_nil _).symm⟩
      | cons params blocks =>
          obtain ⟨hparent, _, _, hrest⟩ := h
          have hset : NestedMap.entries (producedBlocks.insert key.1 key.2 params)
              = NestedMap.entries producedBlocks ++ [(key, params)] :=
            NestedMap.Below.entries_set hbelow params
          have hbelow' : NestedMap.Below (producedBlocks.insert key.1 key.2 params) rest :=
            NestedMap.Below.set hbelow hkeys params
          obtain ⟨aligned, haligned, hentries⟩ := ih _ hrest hkeys.of_cons hbelow'
          refine ⟨aligned, ?_, ?_⟩
          · rw [List.map_cons, alignBlocks, if_neg (by rw [hparent]; exact fun hne => hne rfl)]
            exact haligned
          · rw [hentries, hset, List.append_assoc, List.singleton_append, List.zip_cons_cons]

theorem joinAll_answers {α : Type} {f : Nat → Eff σ α} {s : σ} {number : α → Nat}
    (l : List α) (h : ∀ a ∈ l, f (number a) s = .ok a s) :
    joinAll f (l.map number) s = .ok (l.map .ok) s := by
  induction l with
  | nil => rfl
  | cons a l ih =>
      have ha := h a (List.mem_cons_self ..)
      have ih := ih fun b hb => h b (List.mem_cons_of_mem _ hb)
      simp only [List.map_cons, joinAll, bind, EStateM.bind, Eff.attempt, ha, ih, pure,
        EStateM.pure]

/-- With every block reported, restoring is aligning and registering. -/
theorem restoreBlocks_reported {E : EngineChain P} {I : RollupIndexer σ}
    (hI : I.blockProducer = some P.blockProducer) {parentHash : H256} {number : Nat}
    {blocks : List BlockParams} (htop : OnTop E parentHash number blocks) {s : σ}
    (hreported : ∀ params ∈ blocks, Reports P s params) (producerParams : ProducerParams) :
    I.restoreBlocks (number + 1) (number + blocks.length) producerParams numRetries s =
      match alignBlocks producerParams.pendingBlocks.keys
        (blocks.map fun params => (params.number, params)) producerParams.parentHash ∅ with
      | .ok producedBlocks => I.ethereumBlockStorage.blocksProduced producerParams producedBlocks s
      | .error e => .error (.err e) s := by
  have hget : ∀ params ∈ blocks, I.getBlockParams params.number numRetries s = .ok params s := by
    intro params hparams
    obtain ⟨hash, hparent, hheader⟩ := htop.header_eq params hparams
    have hone := getBlockParams_reported hparent hheader (hreported params hparams)
    simp only [getBlockParams, hI, numRetries, getBlockParamsLoop, bind, EStateM.bind, Eff.attempt,
      EngineAPIBlockProducer.blockProducer, hone, pure, EStateM.pure]
  have hslots : List.range' (number + 1) (number + blocks.length + 1 - (number + 1))
      = blocks.map BlockParams.number := by
    rw [htop.numbers]
    congr 1
    omega
  obtain ⟨results, hresults, hlist⟩ := collectParams_onTop blocks ∅ htop
    fun k v hget => (by cases hget)
  have hjoin := joinAll_answers (f := fun n => I.getBlockParams n numRetries) blocks hget
  have hlist : results.toList = blocks.map fun params => (params.number, params) := by
    rw [hlist, show (∅ : BTreeMap Nat BlockParams).toList = [] from rfl, List.nil_append]
  simp only [restoreBlocks, getBlocksParams, hslots, bind, EStateM.bind, hjoin, hresults,
    Eff.ofResult, pure, EStateM.pure, hlist]
  cases alignBlocks producerParams.pendingBlocks.keys
    (blocks.map fun params => (params.number, params)) producerParams.parentHash ∅ <;> rfl

theorem restores_onTop {E : EngineChain P} {I : RollupIndexer σ}
    (hI : I.blockProducer = some P.blockProducer) {parentHash : H256} {number : Nat}
    {blocks : List BlockParams} (htop : OnTop E parentHash number blocks) {s : σ}
    (hreported : ∀ params ∈ blocks, Reports P s params) {producerParams : ProducerParams}
    (hparent : producerParams.parentHash = some parentHash)
    (hlength : blocks.length ≤ producerParams.pendingBlocks.keys.length) :
    Restores I (number + 1) (number + blocks.length) producerParams s blocks := by
  obtain ⟨aligned, haligned, hentries⟩ := alignBlocks_onTop producerParams.pendingBlocks.keys
    ∅ htop (EngineAPIBlockProducer.keys_ascending _) (NestedMap.below_empty _)
  rw [NestedMap.entries_empty, List.nil_append] at hentries
  refine ⟨aligned, ?_, ?_, fun storage => ?_⟩
  · rw [hentries, List.zip_eq_zip_take_min, Nat.min_eq_right hlength, List.take_length,
      List.map_fst_zip (by rw [List.length_take]; exact Nat.min_le_left ..)]
  · rw [hentries, List.map_snd_zip hlength]
  · rw [restoreBlocks_reported (I := { I with ethereumBlockStorage := storage }) hI htop hreported,
      hparent, haligned]

/-- Without a parent hash the first block never fits. -/
theorem not_restores_onTop {E : EngineChain P} {I : RollupIndexer σ}
    (hI : I.blockProducer = some P.blockProducer) {parentHash : H256} {number : Nat}
    {blocks : List BlockParams} (htop : OnTop E parentHash number blocks) {s : σ}
    (hreported : ∀ params ∈ blocks, Reports P s params) {producerParams : ProducerParams}
    (hparent : producerParams.parentHash = none) (hblocks : blocks ≠ [])
    (hkeys : producerParams.pendingBlocks.keys ≠ []) :
    ¬ Restores I (number + 1) (number + blocks.length) producerParams s blocks := by
  rintro ⟨producedBlocks, _, _, hrestores⟩
  obtain ⟨params, rest, rfl⟩ := List.exists_cons_of_ne_nil hblocks
  obtain ⟨key, keys, hkeys⟩ := List.exists_cons_of_ne_nil hkeys
  obtain ⟨storage, haccepts⟩ : ∃ storage : EthereumBlockStorage σ,
      ∀ params blocks, storage.blocksProduced params blocks = pure () :=
    ⟨{ I.ethereumBlockStorage with blocksProduced := fun _ _ => pure () }, fun _ _ => rfl⟩
  have hsame := hrestores storage
  rw [restoreBlocks_reported (I := { I with ethereumBlockStorage := storage }) hI htop hreported,
    hparent, hkeys, List.map_cons, alignBlocks, if_pos (by rw [htop.1]; exact nofun),
    haccepts] at hsame
  cases hsame

end RollupIndexer

/-! ## Both ways agree -/

/-- The parameters `produce_blocks` returned, in the order of the pending blocks. -/
def ProductionResult.params (result : ProductionResult) : List BlockParams :=
  (NestedMap.entries result.producedBlocks).map Prod.snd

/-- Restoring the first blocks that were produced gives the parameters they were produced
with, for the same pending blocks, exactly when there was a parent hash. -/
theorem restore_blocks_matches_iff (E : EngineChain P) {I : RollupIndexer σ}
    (hI : I.blockProducer = some P.blockProducer) {producerParams : ProducerParams}
    {limit : Option Nat} {result : ProductionResult} {s t : σ}
    (hproduce : P.produceBlocks producerParams limit s = .ok result t)
    {k : Nat} {first last : BlockParams} (hfirst : result.params[0]? = some first)
    (hlast : result.params[k]? = some last) {u : σ}
    (hreported : ∀ params ∈ result.params.take (k + 1), Reports P u params) :
    Restores I first.number last.number producerParams u (result.params.take (k + 1)) ↔
      producerParams.parentHash.isSome := by
  obtain ⟨_, hkeys, parentBlock, _, _, _, parentHash, hparentBlock, _, hhash, hadvanced⟩ :=
    EngineAPIBlockProducer.produceBlocks_ok hproduce
  obtain ⟨hexpected, parent, hheader⟩ :=
    EngineAPIBlockProducer.getParentBlock_ok E hparentBlock hhash
  have htop := hadvanced.onTop E hheader
  rw [← ProductionResult.params] at htop
  have hk : k < result.params.length := (List.getElem?_eq_some_iff.mp hlast).1
  have hlength : (result.params.take (k + 1)).length = k + 1 := by
    rw [List.length_take]
    exact Nat.min_eq_left hk
  have hfirst : first.number = parent.number + 1 := htop.number_at hfirst
  have hlast : last.number = parent.number + (result.params.take (k + 1)).length := by
    rw [hlength, htop.number_at hlast]
    omega
  have htop := htop.take (k + 1)
  have hkeys : (result.params.take (k + 1)).length ≤ producerParams.pendingBlocks.keys.length := by
    have hle := hkeys.length_le
    rw [List.length_map] at hle
    rw [ProductionResult.params, List.length_map] at hk
    rw [hlength]
    exact Nat.le_trans hk hle
  rw [hfirst, hlast]
  cases hparent : producerParams.parentHash with
  | some expected =>
      rw [hexpected expected hparent] at hparent
      exact iff_of_true (RollupIndexer.restores_onTop hI htop hreported hparent hkeys) rfl
  | none =>
      refine iff_of_false ?_ (by decide)
      refine RollupIndexer.not_restores_onTop hI htop hreported hparent ?_ ?_
      · exact List.ne_nil_of_length_pos (by rw [hlength]; exact Nat.succ_pos k)
      · exact List.ne_nil_of_length_pos (by omega)

/-! An op-geth with room for two blocks without transactions on top of the genesis block,
whose hashes are 1, 2 and 3. -/

namespace SmallGeth

def block (number : Nat) : GethBlock where
  hash := some (BitVec.ofNat 256 (number + 1))
  parentHash := BitVec.ofNat 256 number
  number := some number
  timestamp := 0

/-- The world is the number of the latest block. -/
def gethApi : GethApi Nat where
  getBlock
    | .hash hash => fun latest =>
        if hash.toNat = 0 ∨ latest < hash.toNat - 1 ∨ 3 < hash.toNat then .ok none latest
        else .ok (some (block (hash.toNat - 1))) latest
    | .latest => fun latest => .ok (if latest ≤ 2 then some (block latest) else none) latest
    | .finalized => fun latest => .ok (some (block 0)) latest
    | .number number => fun latest =>
        .ok (if number ≤ latest ∧ number ≤ 2 then some (block number) else none) latest
  getBlockNumber := fun latest => .ok latest latest

def emptyParams : ForkchoiceUpdateParams where
  transactions := []
  gasPrices := []
  gasUsed := []
  timestamp := 0
  prevRandao := prevRandao
  suggestedFeeRecipient := 0
  withdrawals := []
  noTxPool := true

def started (payloadId : PayloadId) : Option (H256 × ForkchoiceUpdateParams) :=
  if payloadId = "first" then some (1, emptyParams)
  else if payloadId = "second" then some (2, emptyParams)
  else none

def header (hash : H256) : Option Header :=
  if hash = 1 then some ⟨0, 0, 0⟩
  else if hash = 2 then some ⟨1, 1, 0⟩
  else if hash = 3 then some ⟨2, 2, 0⟩
  else none

def gethEngine : GethEngine Nat where
  forkchoiceUpdatedV2 state params := fun latest =>
    match params with
    | none => .ok none (state.headBlockHash.toNat - 1)
    | some params =>
        if params = emptyParams ∧ state.headBlockHash = 1 then .ok (some "first") 0
        else if params = emptyParams ∧ state.headBlockHash = 2 then .ok (some "second") 1
        else .error (.err (.custom "Invalid payload attributes")) latest
  getPayloadV2 payloadId := fun latest =>
    .ok (if payloadId = "first" then some ⟨1, 2, none, []⟩
      else if payloadId = "second" then some ⟨2, 3, none, []⟩
      else none) latest
  newPayloadV2 payload := fun latest => .ok payload.blockHash latest

def producer : EngineAPIBlockProducer Nat := ⟨gethEngine, gethApi, fun _ => []⟩

theorem reported_small {number : Nat} (h : number ≤ 2) {hash : H256}
    (hhash : (block number).hash = some hash) :
    ∃ n, (block number).number = some n ∧
      header hash = some ⟨(block number).parentHash, n, (block number).timestamp⟩ := by
  cases hhash
  match number, h with
  | 0, _ => exact ⟨0, rfl, rfl⟩
  | 1, _ => exact ⟨1, rfl, rfl⟩
  | 2, _ => exact ⟨2, rfl, rfl⟩

theorem getBlock_small {id : BlockId} {s t : Nat} {b : GethBlock}
    (h : producer.gethApi.getBlock id s = .ok (some b) t) : ∃ number ≤ 2, b = block number := by
  cases id with
  | hash hash =>
      simp only [producer, gethApi] at h
      split at h
      · cases h
      · next hknown =>
        cases h
        exact ⟨_, by omega, rfl⟩
  | latest =>
      simp only [producer, gethApi] at h
      split at h
      · next hle =>
        cases h
        exact ⟨_, hle, rfl⟩
      · cases h
  | finalized =>
      cases h
      exact ⟨0, Nat.zero_le _, rfl⟩
  | number number =>
      simp only [producer, gethApi] at h
      split at h
      · next hle =>
        cases h
        exact ⟨_, hle.2, rfl⟩
      · cases h

def engineChain : EngineChain producer where
  header := header
  started := started
  reported := by
    intro id s b hash t hget hhash
    obtain ⟨number, hle, rfl⟩ := getBlock_small hget
    exact reported_small hle hhash
  reportedByHash := by
    intro hash s b t hget
    simp only [producer, gethApi] at hget
    split at hget
    · cases hget
    · next hknown =>
      cases hget
      simp only [not_or, Nat.not_lt] at hknown
      simp only [block, Option.some.injEq]
      rw [Nat.sub_add_cancel (Nat.pos_of_ne_zero hknown.1), BitVec.ofNat_toNat, BitVec.setWidth_eq]
  starts := by
    intro state params s payloadId t h
    simp only [producer, gethEngine] at h
    split at h
    · next hfirst =>
      cases h
      rw [hfirst.1, hfirst.2]
      rfl
    · split at h
      · next hsecond =>
        cases h
        rw [hsecond.1, hsecond.2]
        rfl
      · cases h
  builds := by
    intro payloadId s payload t parentHash params parent hget hstarted hparent
    simp only [producer, gethEngine] at hget
    rw [started] at hstarted
    split at hstarted
    · next hfirst =>
      cases hstarted
      cases hparent
      rw [if_pos hfirst] at hget
      cases hget
      exact ⟨rfl, rfl⟩
    · next hfirst =>
      split at hstarted
      · next hsecond =>
        cases hstarted
        cases hparent
        rw [if_neg hfirst, if_pos hsecond] at hget
        cases hget
        exact ⟨rfl, rfl⟩
      · cases hstarted

def emptyL1Block : PendingL1Block := ⟨0, 0, (∅ : BTreeMap Nat PendingL2Block).insert 0 ⟨∅, none⟩⟩

/-- An empty block in slot 5 and one in slot 6. -/
def producerParams (parentHash : Option H256) : ProducerParams where
  parentHash := parentHash
  finalizedBlock := none
  pendingBlocks := ((∅ : PendingBlocks).insert 5 emptyL1Block).insert 6 emptyL1Block

def firstParams : BlockParams := ⟨2, some 1, 1, 0⟩

def secondParams : BlockParams := ⟨3, some 2, 2, 0⟩

theorem produced (parentHash : Option H256) (h : parentHash = none ∨ parentHash = some 1) :
    ∃ result, producer.produceBlocks (producerParams parentHash) none 0 = .ok result 2 ∧
      result.params = [firstParams, secondParams] := by
  rcases h with rfl | rfl
  · exact ⟨_, rfl, rfl⟩
  · exact ⟨_, rfl, rfl⟩

theorem reports : ∀ params ∈ [firstParams, secondParams], Reports producer 2 params := by
  intro params hparams
  simp only [List.mem_cons, List.not_mem_nil, or_false] at hparams
  rcases hparams with rfl | rfl
  · exact ⟨block 1, rfl, rfl⟩
  · exact ⟨block 2, rfl, rfl⟩

def indexer : RollupIndexer Nat where
  parse _ _ := pure none
  retainParsed _ := pure ()
  solanaBlockStorage := ⟨pure none, fun _ => pure (), fun _ _ => False⟩
  ethereumBlockStorage := InMemory.ethereumBlockStorage
  blockProducer := some producer.blockProducer
  maxSlotHistory := none

/-- On an empty storage the blocks are produced, reported, and not restored. -/
theorem produced_not_restored :
    ∃ result, producer.produceBlocks (producerParams none) none 0 = .ok result 2 ∧
      result.params = [firstParams, secondParams] ∧
      (∀ params ∈ result.params, Reports producer 2 params) ∧
      ¬ Restores indexer 1 2 (producerParams none) 2 result.params := by
  obtain ⟨result, hproduce, hparams⟩ := produced none (Or.inl rfl)
  refine ⟨result, hproduce, hparams, ?_, ?_⟩
  · rw [hparams]
    exact reports
  · rw [hparams]
    have htop : OnTop engineChain 1 0 [firstParams, secondParams] :=
      ⟨rfl, rfl, rfl, rfl, rfl, rfl, trivial⟩
    exact RollupIndexer.not_restores_onTop rfl htop reports rfl nofun (by decide)

/-- On the genesis block, by its hash, both blocks are restored as they were produced. -/
theorem produced_restored :
    Restores indexer 1 2 (producerParams (some 1)) 2 [firstParams, secondParams] := by
  obtain ⟨result, hproduce, hparams⟩ := produced (some 1) (Or.inr rfl)
  have hfirst : result.params[0]? = some firstParams := by rw [hparams]; rfl
  have hlast : result.params[1]? = some secondParams := by rw [hparams]; rfl
  have hall : result.params.take 2 = [firstParams, secondParams] := by rw [hparams]; rfl
  have hmatches := restore_blocks_matches_iff engineChain (I := indexer) rfl hproduce hfirst hlast
    (u := 2) (by rw [hall]; exact reports)
  rw [hall] at hmatches
  exact hmatches.mpr rfl

end SmallGeth

end RomeSdk
