import RomeSdk.Proofs.EngineBatches
import RomeSdk.Proofs.EthBlocks

/-!
# Gas values on their way to op-geth

A gas value or a gas price is a word of 32 bytes in the log. On the way of a block its
gas values are summed three times as 256-bit numbers, and each value and price is
converted to 64 bits for the engine. The conversion is the narrow place: values that
pass it cannot be so many that a sum of them overflows. Nothing before it looks at their
size.
-/

namespace RomeSdk

/-- The gas value and price of the result fit into 64 bits. -/
def TxResult.FitsU64 (txResult : TxResult) : Prop :=
  txResult.gasReport.gasValue.toNat < 2 ^ 64 ∧ txResult.gasReport.gasPrice.toNat < 2 ^ 64

instance (txResult : TxResult) : Decidable txResult.FitsU64 :=
  inferInstanceAs (Decidable (_ ∧ _))

/-- op-geth as it should be: while it runs every call is answered, the parent block is
there, and it is the genesis block where none is given. -/
structure NormalEngine {σ : Type} (P : EngineAPIBlockProducer σ) (parentHash : Option H256) where
  running : σ → Prop
  parent : ∀ s, running s → ∃ block number hash t, running t ∧
    P.gethApi.getBlock ((parentHash.map BlockId.hash).getD .latest) s = .ok (some block) t ∧
    block.number = some number ∧ block.hash = some hash ∧ (parentHash = none → number = 0)
  finalized : ∀ s, running s → ∃ block hash t, running t ∧
    P.gethApi.getBlock .finalized s = .ok (some block) t ∧ block.hash = some hash
  starts : ∀ state params s, running s → ∃ payloadId t, running t ∧
    P.gethEngine.forkchoiceUpdatedV2 state (some params) s = .ok (some payloadId) t
  follows : ∀ state s, running s → ∃ answer t, running t ∧
    P.gethEngine.forkchoiceUpdatedV2 state none s = .ok answer t
  builds : ∀ payloadId s, running s → ∃ payload t, running t ∧
    P.gethEngine.getPayloadV2 payloadId s = .ok (some payload) t
  accepts : ∀ payload s, running s → ∃ hash t, running t ∧
    P.gethEngine.newPayloadV2 payload s = .ok hash t

namespace EngineAPIBlockProducer

variable {σ : Type} {P : EngineAPIBlockProducer σ} {parentHash : Option H256}

/-- The results of some pending blocks, block by block. -/
def resultsOf (items : List (Slot × PendingL1Block × Nat × PendingL2Block)) : List TxResult :=
  items.flatMap fun e => e.2.2.2.transactions.toList.map fun t => t.2.2

theorem stateAdvanceTxs_item_iff (item : Slot × PendingL1Block × Nat × PendingL2Block) :
    (∃ out, P.stateAdvanceTxs (item.2.2.2.transactions.toList.map Prod.snd) = .ok out) ↔
      ∀ r ∈ resultsOf [item], r.FitsU64 := by
  rw [stateAdvanceTxs_ok_iff, resultsOf, List.flatMap_singleton]
  simp only [List.forall_mem_map]
  exact forall₂_congr fun _ _ => and_comm

theorem resultsOf_cons (item : Slot × PendingL1Block × Nat × PendingL2Block)
    (rest : List (Slot × PendingL1Block × Nat × PendingL2Block)) :
    resultsOf (item :: rest) = resultsOf [item] ++ resultsOf rest := by
  rw [resultsOf, List.flatMap_cons, resultsOf, List.flatMap_singleton]
  rfl

/-- A loop that takes all blocks has converted all of their values. -/
theorem produceLoop_fits {nextFinalized : Option EthBlockId}
    (items : List (Slot × PendingL1Block × Nat × PendingL2Block)) :
    ∀ {currentFinalized parentHash : H256} {producedBlocks : ProducedBlocks}
      {result : ProductionResult} {s t : σ},
    P.produceLoop nextFinalized none items currentFinalized parentHash producedBlocks s
      = .ok result t → ∀ r ∈ resultsOf items, r.FitsU64 := by
  induction items with
  | nil => exact fun _ r hr => absurd hr List.not_mem_nil
  | cons item rest ih =>
      intro currentFinalized parentHash producedBlocks result s t h
      have hitem := (stateAdvanceTxs_item_iff (P := P) item).mp
      obtain ⟨slotNumber, pendingL1Block, blockIdx, pendingL2Block⟩ := item
      obtain ⟨txs, _, _, u, finalized, htxs, _, h⟩ := produceLoop_cons_ok h
      rw [resultsOf_cons, List.forall_mem_append]
      rcases h with ⟨hreached, _⟩ | h
      · cases hreached
      · exact ⟨hitem ⟨txs, htxs⟩, ih h⟩

variable (E : NormalEngine P parentHash)

theorem advanceRollupState_runs (finalizedBlockhash parent : H256) (timestamp : U256)
    (txs : List StateAdvanceTx) (gasRecipient : Option Address) (finalizeNewBlock : Bool) {s : σ}
    (hs : E.running s) : ∃ block t, E.running t ∧
      P.gethEngine.advanceRollupState finalizedBlockhash parent timestamp txs gasRecipient
        finalizeNewBlock s = .ok block t := by
  obtain ⟨payloadId, t, ht, hstart⟩ := E.starts ⟨parent, parent, finalizedBlockhash⟩
    (payloadAttributes timestamp txs gasRecipient) s hs
  obtain ⟨payload, u, hu, hget⟩ := E.builds payloadId t ht
  obtain ⟨hash, v, hv, hnew⟩ :=
    E.accepts { payload with romeGasUsed := some (txs.map StateAdvanceTx.gasUsed) } u hu
  obtain ⟨answer, w, hw, hfollow⟩ := E.follows
    ⟨hash, hash, if finalizeNewBlock then hash else finalizedBlockhash⟩ v hv
  refine ⟨(payload.blockNumber, payload.blockHash), w, hw, ?_⟩
  simp only [payloadAttributes] at hstart
  simp only [GethEngine.advanceRollupState, bind, EStateM.bind, hstart, hget, hnew, hfollow]
  rfl

theorem produceLoop_returns (nextFinalized : Option EthBlockId) (limit : Option Nat)
    (items : List (Slot × PendingL1Block × Nat × PendingL2Block)) :
    ∀ (currentFinalized parent : H256) (producedBlocks : ProducedBlocks) {s : σ},
    (∀ r ∈ resultsOf items, r.FitsU64) → E.running s → ∃ result t,
      P.produceLoop nextFinalized limit items currentFinalized parent producedBlocks s
        = .ok result t := by
  induction items with
  | nil => exact fun _ _ _ s _ _ => ⟨_, s, rfl⟩
  | cons item rest ih =>
      intro currentFinalized parent producedBlocks s hfits hs
      rw [resultsOf_cons, List.forall_mem_append] at hfits
      obtain ⟨txs, htxs⟩ := (stateAdvanceTxs_item_iff item).mpr hfits.1
      obtain ⟨slotNumber, pendingL1Block, blockIdx, pendingL2Block⟩ := item
      obtain ⟨⟨blockNumber, blockHash⟩, t, ht, hadvance⟩ := advanceRollupState_runs E
        currentFinalized parent pendingL1Block.timestamp txs pendingL2Block.gasRecipient
        (finalizes nextFinalized slotNumber blockIdx) hs
      have htxs : P.stateAdvanceTxs (pendingL2Block.transactions.toList.map Prod.snd)
          = .ok txs := htxs
      simp only [produceLoop, htxs, bind, EStateM.bind, attempt_of_ok hadvance]
      split
      · exact ⟨_, t, rfl⟩
      · exact ih _ _ _ hfits.2 ht

theorem getParentBlock_returns {s : σ} (hs : E.running s) : ∃ block number hash t, E.running t ∧
    P.getParentBlock parentHash s = .ok block t ∧ block.number = some number ∧
      block.hash = some hash ∧ (parentHash = none → number = 0) := by
  obtain ⟨block, number, hash, t, ht, hget, hnumber, hhash, hgenesis⟩ := E.parent s hs
  refine ⟨block, number, hash, t, ht, ?_, hnumber, hhash, hgenesis⟩
  cases parentHash with
  | some parentHash =>
      rw [Option.map_some, Option.getD_some] at hget
      simp only [getParentBlock, bind, EStateM.bind, attempt_of_ok hget]
      rfl
  | none =>
      rw [Option.map_none, Option.getD_none] at hget
      rw [hgenesis rfl] at hnumber
      simp only [getParentBlock, bind, EStateM.bind, attempt_of_ok hget, hnumber, ne_eq,
        not_true_eq_false, if_false]
      rfl

theorem firstFinalized_returns {block : GethBlock} {number : Nat} {hash : H256} {s : σ}
    (hnumber : block.number = some number) (hhash : block.hash = some hash)
    (hgenesis : parentHash = none → number = 0) (hs : E.running s) :
    ∃ finalizedBlockhash t, E.running t ∧
      P.firstFinalized block parentHash s = .ok finalizedBlockhash t := by
  simp only [firstFinalized, hnumber, hhash]
  by_cases hzero : number = 0
  · rw [if_neg (not_not.mpr hzero)]
    exact ⟨hash, s, hs, rfl⟩
  · have hsome : parentHash.isSome = true := by
      cases parentHash with
      | none => exact absurd (hgenesis rfl) hzero
      | some parentHash => rfl
    obtain ⟨finalized, finalizedHash, t, ht, hget, hfinalized⟩ := E.finalized s hs
    refine ⟨finalizedHash, t, ht, ?_⟩
    rw [if_pos hzero]
    simp only [getFinalizedBlockhash, hsome, if_true, bind, EStateM.bind, attempt_of_ok hget,
      hfinalized]
    rfl

/-- `produce_blocks` returns, however many blocks it is limited to, if the values fit. -/
theorem produceBlocks_returns {params : ProducerParams} (hparent : params.parentHash = parentHash)
    (limit : Option Nat) (hfits : ∀ r ∈ resultsOf params.pendingBlocks.iter, r.FitsU64) {s : σ}
    (hs : E.running s) : ∃ result t, P.produceBlocks params limit s = .ok result t := by
  subst hparent
  obtain ⟨block, number, hash, t, ht, hparentBlock, hnumber, hhash, hgenesis⟩ :=
    getParentBlock_returns E hs
  obtain ⟨finalizedBlockhash, u, hu, hfinalized⟩ :=
    firstFinalized_returns E hnumber hhash hgenesis ht
  simp only [produceBlocks, bind, EStateM.bind, hparentBlock, hfinalized, hhash]
  exact produceLoop_returns E _ limit _ _ _ _ hfits hu

/-- Without a limit it returns only if they do. -/
theorem produceBlocks_fits {params : ProducerParams} {result : ProductionResult} {s t : σ}
    (h : P.produceBlocks params none s = .ok result t) :
    ∀ r ∈ resultsOf params.pendingBlocks.iter, r.FitsU64 := by
  obtain ⟨parentBlock, u, _, h⟩ := EStateM.bind_ok h
  obtain ⟨finalizedBlockhash, v, _, h⟩ := EStateM.bind_ok h
  cases hhash : parentBlock.hash with
  | none =>
      simp only [hhash] at h
      cases h
  | some hash =>
      simp only [hhash] at h
      exact produceLoop_fits _ h

end EngineAPIBlockProducer

/-! ## The sums -/

theorem gasSum_lt {transactions : List (Transaction × TxResult)} (hfits : FitsVec transactions)
    (h : ∀ e ∈ transactions, e.2.FitsU64) : gasSum transactions < 2 ^ 256 := by
  have hle : ∀ n ∈ transactions.map fun e => e.2.gasReport.gasValue.toNat, n ≤ 2 ^ 64 := by
    intro n hn
    obtain ⟨e, he, rfl⟩ := List.mem_map.mp hn
    exact Nat.le_of_lt (h e he).1
  have hsum : gasSum transactions ≤ transactions.length * 2 ^ 64 := by
    have hcard := List.sum_le_card_nsmul _ _ hle
    rwa [List.length_map, Nat.nsmul_eq_mul] at hcard
  have hmul : transactions.length * 2 ^ 64 ≤ isizeMax * 2 ^ 64 :=
    Nat.mul_le_mul_right _ hfits.length
  have hmax : isizeMax * 2 ^ 64 < 2 ^ 256 := by decide
  omega

namespace TransactionStorage

variable {X : StorageCrates} {blockParams : BlockParams}

theorem newReceipt_returns {tx : Transaction} {txResult : TxResult} {receiptParams : ReceiptParams}
    (hgas : receiptParams.blockGasUsed.toNat + txResult.gasReport.gasValue.toNat < 2 ^ 256)
    (hlogs : receiptParams.firstLogIndex.toNat + 2 * txResult.logs.length < 2 ^ 256) :
    ∃ receipt, newReceipt X tx txResult receiptParams = .ok receipt :=
  newReceipt_iff.mpr ⟨hgas, fun _ => by omega⟩

/-- Sums that cannot overflow are summed, and once more in each receipt. -/
theorem blockReceipts_returns (transactions : List (Nat × Transaction × TxResult)) :
    ∀ (gasUsed logIndex : U256),
      (∀ e ∈ transactions, e.2.2.logs.length ≤ isizeMax) →
      gasUsed.toNat + gasSum (transactions.map Prod.snd) < 2 ^ 256 →
      logIndex.toNat + 2 * logSum (transactions.map Prod.snd) < 2 ^ 256 →
      ∃ written, blockReceipts blockParams transactions gasUsed logIndex = .ok written ∧
        ∀ w ∈ written, ∀ tx, ∃ receipt, newReceipt X tx w.2.1 w.2.2 = .ok receipt := by
  induction transactions with
  | nil => exact fun _ _ _ _ _ => ⟨[], rfl, fun w hw => absurd hw List.not_mem_nil⟩
  | cons e transactions ih =>
      intro gasUsed logIndex hlength hgas hlogs
      obtain ⟨txIndex, tx, txResult⟩ := e
      rw [List.map_cons, gasSum_cons] at hgas
      rw [List.map_cons, logSum_cons] at hlogs
      simp only at hgas hlogs
      have hcount := logs_toNat (hlength _ (List.mem_cons_self ..))
      simp only at hcount
      obtain ⟨gasUsed', hsum, hsumNat⟩ := U256.checkedAdd_exists
        (a := gasUsed) (b := txResult.gasReport.gasValue) (by omega)
      obtain ⟨logIndex', hnext, hnextNat⟩ := U256.checkedAdd_exists
        (a := logIndex) (b := BitVec.ofNat 256 txResult.logs.length) (by omega)
      obtain ⟨rest, hrest, hreceipts⟩ := ih gasUsed' logIndex'
        (fun e he => hlength e (List.mem_cons_of_mem _ he)) (by omega) (by omega)
      refine ⟨_, by rw [blockReceipts, hsum, hnext]; simp only [bind, Except.bind, hrest]; rfl, ?_⟩
      refine List.forall_mem_cons.mpr ⟨fun tx => newReceipt_returns ?_ ?_, hreceipts⟩
      · show gasUsed.toNat + txResult.gasReport.gasValue.toNat < 2 ^ 256
        omega
      · show logIndex.toNat + 2 * txResult.logs.length < 2 ^ 256
        omega

theorem blocksProduced_returns {block : Type} {pendingBlocks : PendingBlocks}
    (h : ∀ (id : EthBlockId) l2Block, pendingBlocks.get id.1 id.2 = some l2Block → ∀ blockParams,
      ∃ written, blockReceipts blockParams l2Block.transactions.toList 0 0 = .ok written)
    (producedBlocks : ProducedBlocks) (db : Db block) :
    ∃ db', blocksProduced pendingBlocks producedBlocks db = .ok ((), db') := by
  rw [blocksProduced]
  rcases forTry_split (blockProduced pendingBlocks) producedBlocks.iter db with
    ⟨db', hrun⟩ | ⟨done, e, rest, db₁, db', err, _, _, hstop, _⟩
  · exact ⟨db', by rw [hrun]⟩
  · rw [blockProduced] at hstop
    split at hstop
    · cases hstop
    · next l2Block hget =>
        obtain ⟨written, hwritten⟩ := h (e.1, e.2.1) l2Block hget e.2.2
        rw [hwritten] at hstop
        cases hstop

end TransactionStorage

/-! ## The way of a block -/

open EngineAPIBlockProducer (resultsOf)

theorem mem_iter_of_get {pending : PendingBlocks} {id : EthBlockId} {l2Block : PendingL2Block}
    (h : pending.get id.1 id.2 = some l2Block) :
    ∃ item ∈ pending.iter, item.2.2.2 = l2Block := by
  rw [PendingBlocks.get, Option.bind_eq_some_iff] at h
  obtain ⟨l1Block, hslot, hblock⟩ := h
  refine ⟨(id.1, l1Block, id.2, l2Block), ?_, rfl⟩
  rw [PendingBlocks.iter, List.mem_flatMap]
  refine ⟨(id.1, l1Block), (BTreeMap.mem_toList _ _ _).mpr hslot, ?_⟩
  exact List.mem_map.mpr ⟨(id.2, l2Block), (BTreeMap.mem_toList _ _ _).mpr hblock, rfl⟩

/-- A block that is pending with its results has no more of them than there are. -/
theorem FitsVec.of_pending {transactions : List (Transaction × TxResult)} {pending : PendingBlocks}
    (hfits : FitsVec transactions) (hpending : resultsOf pending.iter = transactions.map Prod.snd)
    {id : EthBlockId} {l2Block : PendingL2Block} (h : pending.get id.1 id.2 = some l2Block) :
    FitsVec (l2Block.transactions.toList.map Prod.snd) ∧
      ∀ e ∈ l2Block.transactions.toList.map Prod.snd, e.2 ∈ transactions.map Prod.snd := by
  obtain ⟨item, hitem, rfl⟩ := mem_iter_of_get h
  obtain ⟨before, after, hsplit⟩ := List.append_of_mem hitem
  have hresults : resultsOf pending.iter = resultsOf before
      ++ ((item.2.2.2.transactions.toList.map fun t => t.2.2) ++ resultsOf after) := by
    rw [hsplit, resultsOf, List.flatMap_append, List.flatMap_cons]
    rfl
  have hmem : ∀ e ∈ item.2.2.2.transactions.toList.map Prod.snd,
      e.2 ∈ transactions.map Prod.snd := by
    intro e he
    obtain ⟨t, ht, rfl⟩ := List.mem_map.mp he
    rw [← hpending, hresults]
    exact List.mem_append_right _ (List.mem_append_left _ (List.mem_map.mpr ⟨t, ht, rfl⟩))
  refine ⟨⟨?_, fun e he => ?_⟩, hmem⟩
  · have hlength := congrArg List.length (hresults.symm.trans hpending)
    simp only [List.length_append, List.length_map] at hlength
    have := hfits.length
    rw [List.length_map]
    omega
  · obtain ⟨e', he', heq⟩ := List.mem_map.mp (hmem e he)
    rw [← heq]
    exact hfits.logs e' he'

/-- The block is cut into eth blocks, these are produced and recorded, and there is a
receipt for each of their transactions. -/
structure GoesThrough {σ : Type} (X : StorageCrates) {P : EngineAPIBlockProducer σ}
    (params : ProducerParams) (E : NormalEngine P params.parentHash) (blockhash : H256)
    (timestamp : Option Int) (mode : BlockParseMode) (transactions : List (Transaction × TxResult)) :
    Prop where
  created : ∃ blocks updated,
    createEthBlocks X.toCrates blockhash timestamp transactions mode = .ok (blocks, updated)
  produced : ∀ limit s, E.running s → ∃ result t, P.produceBlocks params limit s = .ok result t
  recorded : ∀ (producedBlocks : ProducedBlocks) {block : Type} (db : Db block), ∃ db',
    TransactionStorage.blocksProduced params.pendingBlocks producedBlocks db = .ok ((), db')
  receipts : ∀ (id : EthBlockId) l2Block, params.pendingBlocks.get id.1 id.2 = some l2Block →
    ∀ blockParams, ∃ written,
      TransactionStorage.blockReceipts blockParams l2Block.transactions.toList 0 0 = .ok written ∧
      ∀ w ∈ written, ∀ tx, ∃ receipt, TransactionStorage.newReceipt X tx w.2.1 w.2.2 = .ok receipt

/-- A block goes through exactly if its gas values and prices fit into 64 bits. -/
theorem goes_through_iff {σ : Type} (X : StorageCrates) {P : EngineAPIBlockProducer σ}
    {params : ProducerParams} (E : NormalEngine P params.parentHash) (blockhash : H256)
    (timestamp : Option Int) (mode : BlockParseMode) {transactions : List (Transaction × TxResult)}
    (hfits : FitsVec transactions)
    (hpending : resultsOf params.pendingBlocks.iter = transactions.map Prod.snd)
    {s : σ} (hs : E.running s) :
    GoesThrough X params E blockhash timestamp mode transactions ↔ ∀ e ∈ transactions, e.2.FitsU64 := by
  constructor
  · intro h e he
    obtain ⟨result, t, hproduce⟩ := h.produced none s hs
    refine EngineAPIBlockProducer.produceBlocks_fits hproduce e.2 ?_
    rw [hpending]
    exact List.mem_map_of_mem he
  · intro h
    have hreceipts : ∀ (id : EthBlockId) l2Block,
        params.pendingBlocks.get id.1 id.2 = some l2Block → ∀ blockParams, ∃ written,
          TransactionStorage.blockReceipts blockParams l2Block.transactions.toList 0 0
              = .ok written ∧
            ∀ w ∈ written, ∀ tx, ∃ receipt,
              TransactionStorage.newReceipt X tx w.2.1 w.2.2 = .ok receipt := by
      intro id l2Block hget blockParams
      obtain ⟨hfits', hmem⟩ := hfits.of_pending hpending hget
      have hgas : gasSum (l2Block.transactions.toList.map Prod.snd) < 2 ^ 256 := by
        refine gasSum_lt hfits' fun e he => ?_
        obtain ⟨e', he', heq⟩ := List.mem_map.mp (hmem e he)
        rw [← heq]
        exact h e' he'
      have hlogs := hfits'.logSum_le
      have hmax : 2 * (isizeMax * isizeMax) < 2 ^ 256 := by decide
      have hzero : (0 : U256).toNat = 0 := rfl
      exact TransactionStorage.blockReceipts_returns _ 0 0
        (fun e he => hfits'.logs _ (List.mem_map_of_mem he)) (by omega) (by omega)
    refine ⟨createEthBlocks_returns _ blockhash timestamp mode hfits (gasSum_lt hfits h), ?_, ?_,
      hreceipts⟩
    · intro limit s hs
      refine EngineAPIBlockProducer.produceBlocks_returns E rfl limit ?_ hs
      rw [hpending, List.forall_mem_map]
      exact h
    · intro producedBlocks block db
      refine TransactionStorage.blocksProduced_returns (fun id l2Block hget blockParams => ?_)
        producedBlocks db
      obtain ⟨written, hwritten, _⟩ := hreceipts id l2Block hget blockParams
      exact ⟨written, hwritten⟩

/-! A transaction whose log has a gas value of 2^64, or one of 21000. -/

def gasLine (word : String) : List String :=
  ["Program data: RVhJVF9SRUFTT04= AA== AAAAAAAAAAA= b2s=", "Program data: R0FTX1ZBTFVF " ++ word]

def gasResult (gasValue : U256) : TxResult := ⟨⟨0, "ok", []⟩, [], ⟨gasValue, 0, none⟩⟩

def gasPending (gasValue : U256) : ProducerParams where
  parentHash := some 1
  finalizedBlock := none
  pendingBlocks := (∅ : PendingBlocks).insert 5 ⟨50, 8, (∅ : BTreeMap Nat PendingL2Block).insert 0
    ⟨(∅ : BTreeMap Nat (Transaction × TxResult)).insert 0 (bareTx 9, gasResult gasValue), none⟩⟩

/-- The small op-geth, as long as it has the block with hash 1. -/
def gasEngine : NormalEngine BatchRun.producer (some 1) where
  running w := 1 ∈ w.known
  parent w h := ⟨BatchRun.block 1, 0, 1, w, h, congrArg (EStateM.Result.ok · w) (if_pos h), rfl, rfl,
    fun hnone => (by cases hnone)⟩
  finalized w h := ⟨BatchRun.block 1, 1, w, h, rfl, rfl⟩
  starts state _ w h := ⟨"payload", { w with head := state.headBlockHash }, h, rfl⟩
  follows _ w h := ⟨none, w, h, rfl⟩
  builds _ w h := ⟨_, w, h, rfl⟩
  accepts _ w h := ⟨_, _, List.mem_cons_of_mem _ h, rfl⟩

/-- The least value that does not fit. -/
def largeGas : U256 := BitVec.ofNat 256 18446744073709551616

theorem large_gas_panics :
    parseTransactionMeta standIns
        ⟨none, some (gasLine "AAAAAAAAAAAAAAAAAAAAAAAAAAAAAAABAAAAAAAAAAA=")⟩
      = .ok (some (gasResult largeGas)) ∧
    gasEngine.running ⟨[1], 0, []⟩ ∧
    FitsVec [(bareTx 9, gasResult largeGas)] ∧
    resultsOf (gasPending largeGas).pendingBlocks.iter = [gasResult largeGas] ∧
    (∃ t, BatchRun.producer.produceBlocks (gasPending largeGas) none ⟨[1], 0, []⟩
      = .error (.panic "Integer overflow when casting to u64") t) ∧
    ¬ GoesThrough TransactionStorage.storageStandIns (gasPending largeGas) gasEngine 0 none
      .engineApi [(bareTx 9, gasResult largeGas)] := by
  have hpanic : ∃ t, BatchRun.producer.produceBlocks (gasPending largeGas) none ⟨[1], 0, []⟩
      = .error (.panic "Integer overflow when casting to u64") t := ⟨_, rfl⟩
  refine ⟨by decide +kernel, List.mem_singleton_self _, ⟨by decide, by decide⟩, rfl, hpanic,
    fun h => ?_⟩
  obtain ⟨result, t, hrun⟩ := h.produced none ⟨[1], 0, []⟩ (List.mem_singleton_self _)
  obtain ⟨t', hpanic⟩ := hpanic
  rw [hpanic] at hrun
  cases hrun

theorem small_gas_goes_through :
    GoesThrough TransactionStorage.storageStandIns (gasPending 21000) gasEngine 0 none
      .engineApi [(bareTx 9, gasResult 21000)] := by
  have hfits : FitsVec [(bareTx 9, gasResult 21000)] := ⟨by decide, by decide⟩
  have hrunning : gasEngine.running ⟨[1], 0, []⟩ := List.mem_singleton_self _
  have hpending : resultsOf (gasPending 21000).pendingBlocks.iter
      = [(bareTx 9, gasResult 21000)].map Prod.snd := rfl
  exact (goes_through_iff _ gasEngine 0 none .engineApi hfits hpending hrunning).mpr (by decide)

end RomeSdk
