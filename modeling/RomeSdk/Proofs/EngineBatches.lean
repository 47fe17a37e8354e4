import RomeSdk.Proofs.Batches

/-!
# Batches built in op-geth

Here op-geth builds a block by a rule: its number and hash, or the failure to build
it, are a function of the parent and of what the payload was asked to hold. Such an
op-geth finds what it has built, so the next batch finds its parent, and the batches
are what one call makes of all pending blocks.
-/

namespace RomeSdk

open ItemId (Before)

/-- op-geth as the batches need it. A query, the start of a payload and the choice of a
head change neither what has been built nor the batches that were recorded; a payload
that was handed out is a valid block, and built once it is handed back. -/
structure AnsweringEngine {σ : Type} (P : EngineAPIBlockProducer σ)
    (batches : σ → List ProducedBlocks) where
  answer : H256 → ForkchoiceUpdateParams → Outcome (Nat × H256)
  built : σ → H256 → Prop
  getBlock : ∀ id, EStateM.Preserves (fun s => (batches s, built s)) (P.gethApi.getBlock id)
  forkchoiceUpdatedV2 : ∀ state params, EStateM.Preserves (fun s => (batches s, built s))
    (P.gethEngine.forkchoiceUpdatedV2 state params)
  getPayloadV2 : ∀ payloadId, EStateM.Preserves (fun s => (batches s, built s))
    (P.gethEngine.getPayloadV2 payloadId)
  builds : ∀ (state : ForkchoiceState) (params : ForkchoiceUpdateParams) (s : σ)
    (number : Nat) (hash : H256), answer state.headBlockHash params = .ok (number, hash) →
    ∃ payloadId t payload u,
      P.gethEngine.forkchoiceUpdatedV2 state (some params) s = .ok (some payloadId) t ∧
      P.gethEngine.getPayloadV2 payloadId t = .ok (some payload) u ∧
      payload.blockNumber = number ∧ payload.blockHash = hash
  refuses : ∀ (state : ForkchoiceState) (params : ForkchoiceUpdateParams) (s : σ) (e : Failure),
    answer state.headBlockHash params = .error e →
    ∃ t, P.gethEngine.forkchoiceUpdatedV2 state (some params) s = .error e t
  accepts : ∀ {payloadId : PayloadId} {s t : σ} {payload : ExecutionPayload}
    (gasUsed : Option (List Nat)), P.gethEngine.getPayloadV2 payloadId s = .ok (some payload) t →
    ∃ u, P.gethEngine.newPayloadV2 { payload with romeGasUsed := gasUsed } t
        = .ok payload.blockHash u ∧
      batches u = batches t ∧ built u payload.blockHash ∧ ∀ hash, built t hash → built u hash
  follows : ∀ (state : ForkchoiceState) (s : σ), built s state.headBlockHash →
    ∃ payloadId t, P.gethEngine.forkchoiceUpdatedV2 state none s = .ok payloadId t
  reportedByHash : ∀ {hash : H256} {s t : σ} {block : GethBlock},
    P.gethApi.getBlock (.hash hash) s = .ok (some block) t → block.hash = some hash
  finds : ∀ {hash : H256} {s : σ}, built s hash → ∃ block number t,
    P.gethApi.getBlock (.hash hash) s = .ok (some block) t ∧ block.number = some number
  finalizes : ∀ {hash : H256} {s : σ}, built s hash → ∃ block finalized t,
    P.gethApi.getBlock .finalized s = .ok (some block) t ∧ block.hash = some finalized

namespace AnsweringEngine

variable {σ : Type} {P : EngineAPIBlockProducer σ} {batches : σ → List ProducedBlocks}
  (E : AnsweringEngine P batches)

/-- What goes on while blocks are built: nothing that was built is lost. -/
def Kept (s t : σ) : Prop := batches t = batches s ∧ ∀ hash, E.built s hash → E.built t hash

variable {E}

theorem Kept.refl (s : σ) : E.Kept s s := ⟨rfl, fun _ h => h⟩

theorem Kept.trans {s t u : σ} (h : E.Kept s t) (h' : E.Kept t u) : E.Kept s u :=
  ⟨h'.1.trans h.1, fun hash hbuilt => h'.2 hash (h.2 hash hbuilt)⟩

theorem Kept.of_preserves {α : Type} {x : Eff σ α} {a : α} {s t : σ}
    (hx : EStateM.Preserves (fun s => (batches s, E.built s)) x) (h : x s = .ok a t) :
    E.Kept s t := by
  have hs := hx s
  rw [EStateM.after, h, Prod.mk.injEq] at hs
  exact ⟨hs.1, fun hash hbuilt => hs.2 ▸ hbuilt⟩

end AnsweringEngine

namespace EngineAPIBlockProducer

variable {σ : Type} {P : EngineAPIBlockProducer σ} {batches : σ → List ProducedBlocks}

/-- What `advance_rollup_state` asks a payload to hold. -/
def payloadAttributes (timestamp : U256) (txs : List StateAdvanceTx)
    (gasRecipient : Option Address) : ForkchoiceUpdateParams where
  transactions := txs.map StateAdvanceTx.rlp
  timestamp := timestamp
  prevRandao := prevRandao
  suggestedFeeRecipient := gasRecipient.getD 0
  withdrawals := []
  noTxPool := true
  gasPrices := txs.map StateAdvanceTx.gasPrice
  gasUsed := txs.map StateAdvanceTx.gasUsed

/-- The error of a block that was not built, as `produce_blocks` reports it. -/
def notBuilt (id : EthBlockId) : Failure → Failure
  | .err e => .err (.custom ("Failed to produce block in op-geth. ("
      ++ toString id.1 ++ ", " ++ toString id.2 ++ "): " ++ e.debug
      ++ "\nTake a look at op-geth logs for details."))
  | .panic message => .panic message

/-- What becomes of a pending block on top of a parent, which is `genesis` where none is
given. -/
def make (E : AnsweringEngine P batches) (genesis : H256) (parentHash : Option H256)
    (task : PendingTask) : Outcome (EthBlockId × BlockParams) :=
  match P.stateAdvanceTxs (task.l2Block.transactions.toList.map Prod.snd) with
  | .error e => .error e
  | .ok txs =>
      match E.answer (parentHash.getD genesis)
          (payloadAttributes task.timestamp txs task.l2Block.gasRecipient) with
      | .error e => .error (notBuilt task.id e)
      | .ok (number, hash) =>
          .ok (task.id, ⟨hash, some (parentHash.getD genesis), number, task.timestamp⟩)

variable {E : AnsweringEngine P batches} {genesis : H256}

theorem keepsIds_make : KeepsIds (make E genesis) := by
  intro parentHash task produced h
  rw [make] at h
  split at h
  · cases h
  · split at h
    · cases h
    · cases h
      rfl

section

variable {parentHash : H256} {timestamp : U256} {txs : List StateAdvanceTx}
  {gasRecipient : Option Address} {s : σ}

theorem advanceRollupState_answer (finalizedBlockhash : H256) (finalizeNewBlock : Bool) (s : σ)
    {number : Nat} {hash : H256}
    (h : E.answer parentHash (payloadAttributes timestamp txs gasRecipient) = .ok (number, hash)) :
    ∃ t, P.gethEngine.advanceRollupState finalizedBlockhash parentHash timestamp txs gasRecipient
        finalizeNewBlock s = .ok (number, hash) t ∧ E.Kept s t ∧ E.built t hash := by
  let state : ForkchoiceState := ⟨parentHash, parentHash, finalizedBlockhash⟩
  obtain ⟨payloadId, t, payload, u, hstart, hget, rfl, rfl⟩ := E.builds state _ s _ _ h
  obtain ⟨v, hnew, hbatches, hbuilt, hstill⟩ :=
    E.accepts (some (txs.map StateAdvanceTx.gasUsed)) hget
  obtain ⟨answer, w, hfollow⟩ := E.follows ⟨payload.blockHash, payload.blockHash,
    if finalizeNewBlock then payload.blockHash else finalizedBlockhash⟩ v hbuilt
  have hkept : E.Kept s v :=
    ((AnsweringEngine.Kept.of_preserves (E.forkchoiceUpdatedV2 _ _) hstart).trans
      (AnsweringEngine.Kept.of_preserves (E.getPayloadV2 _) hget)).trans ⟨hbatches, hstill⟩
  have hkept' := AnsweringEngine.Kept.of_preserves (E.forkchoiceUpdatedV2 _ _) hfollow
  refine ⟨w, ?_, hkept.trans hkept', hkept'.2 _ hbuilt⟩
  simp only [payloadAttributes, state] at hstart
  simp only [GethEngine.advanceRollupState, bind, EStateM.bind, hstart, hget, hnew, hfollow]
  rfl

theorem advanceRollupState_refused (finalizedBlockhash : H256) (finalizeNewBlock : Bool) (s : σ)
    {e : Failure}
    (h : E.answer parentHash (payloadAttributes timestamp txs gasRecipient) = .error e) :
    ∃ t, P.gethEngine.advanceRollupState finalizedBlockhash parentHash timestamp txs gasRecipient
      finalizeNewBlock s = .error e t := by
  obtain ⟨t, hstart⟩ :=
    E.refuses ⟨parentHash, parentHash, finalizedBlockhash⟩ _ s e h
  refine ⟨t, ?_⟩
  simp only [payloadAttributes] at hstart
  simp only [GethEngine.advanceRollupState, bind, EStateM.bind, hstart]

theorem attempt_err {α : Type} {x : Eff σ α} {e : RomeEvmError} {t : σ}
    (h : x s = .error (.err e) t) : x.attempt s = .ok (.error e) t := by
  rw [Eff.attempt, h]

theorem attempt_panic {α : Type} {x : Eff σ α} {message : String} {t : σ}
    (h : x s = .error (.panic message) t) : x.attempt s = .error (.panic message) t := by
  rw [Eff.attempt, h]

theorem attempt_of_ok {α : Type} {x : Eff σ α} {a : α} {t : σ} (h : x s = .ok a t) :
    x.attempt s = .ok (.ok a) t := by
  rw [Eff.attempt, h]

end

/-- What the loop of `produce_blocks` does with some tasks: it builds them all after what it
was given, or fails. -/
inductive Worked (E : AnsweringEngine P batches) (genesis : H256) (parentHash : Option H256)
    (tasks : List PendingTask) (given : ProducedBlocks) (s : σ) :
    EStateM.Result Failure σ ProductionResult → Prop
  | made {result : ProductionResult} {t : σ} (made : List (EthBlockId × BlockParams))
      (all : produceAll (make E genesis) parentHash tasks = .ok made)
      (full : NestedMap.Full result.producedBlocks)
      (entries : NestedMap.entries result.producedBlocks = NestedMap.entries given ++ made)
      (kept : E.Kept s t) (built : ∀ e, made.getLast? = some e → E.built t e.2.hash) :
      Worked E genesis parentHash tasks given s (.ok result t)
  | failed {e : Failure} {t : σ}
      (all : produceAll (make E genesis) parentHash tasks = .error e) :
      Worked E genesis parentHash tasks given s (.error e t)

/-- A block that was made comes before those of the rest of the loop. -/
theorem Worked.cons {E : AnsweringEngine P batches} {genesis : H256} {parentHash : Option H256}
    {task : PendingTask} {tasks : List PendingTask} {given given' : ProducedBlocks} {s t : σ}
    {produced : EthBlockId × BlockParams} {answer : EStateM.Result Failure σ ProductionResult}
    (h : Worked E genesis (handedOver produced) tasks given' t answer)
    (hmake : make E genesis parentHash task = .ok produced)
    (hset : NestedMap.entries given' = NestedMap.entries given ++ [produced]) (hkept : E.Kept s t)
    (hbuilt : E.built t produced.2.hash) :
    Worked E genesis parentHash (task :: tasks) given s answer := by
  cases h with
  | failed hfailed => exact .failed (Handover.work_cons_error_after hmake hfailed)
  | made made hmade hfull hentries hkept' hlast =>
      refine .made _ (Handover.work_cons hmake hmade) hfull ?_ (hkept.trans hkept') ?_
      · rw [hentries, hset, List.append_assoc, List.singleton_append]
      · intro e he
        rw [List.getLast?_cons] at he
        cases hend : made.getLast? with
        | none =>
            rw [hend] at he
            cases he
            exact hkept'.2 _ hbuilt
        | some e' =>
            rw [hend] at he
            cases he
            exact hlast e' hend

section

variable {item : Slot × PendingL1Block × Nat × PendingL2Block}
  {rest : List (Slot × PendingL1Block × Nat × PendingL2Block)} {parentHash : Option H256}

/-- A block that cannot be made ends the loop. -/
theorem produceLoop_refused {e : Failure}
    (hmake : make E genesis parentHash (PendingTask.ofItem item) = .error e)
    (nextFinalized : Option EthBlockId) (limit : Option Nat) (currentFinalized : H256)
    (producedBlocks : ProducedBlocks) (s : σ) :
    ∃ t, P.produceLoop nextFinalized limit (item :: rest) currentFinalized
      (parentHash.getD genesis) producedBlocks s = .error e t := by
  obtain ⟨slotNumber, pendingL1Block, blockIdx, pendingL2Block⟩ := item
  rw [produceLoop]
  cases htxs : P.stateAdvanceTxs (pendingL2Block.transactions.toList.map Prod.snd) with
  | error e' =>
      simp only [make, PendingTask.ofItem, htxs] at hmake
      cases hmake
      exact ⟨s, rfl⟩
  | ok txs =>
      simp only [bind, EStateM.bind]
      cases hanswer : E.answer (parentHash.getD genesis)
          (payloadAttributes pendingL1Block.timestamp txs pendingL2Block.gasRecipient) with
      | ok block =>
          simp only [make, PendingTask.ofItem, htxs, hanswer] at hmake
          cases hmake
      | error e' =>
          simp only [make, PendingTask.ofItem, htxs, hanswer] at hmake
          cases hmake
          obtain ⟨t, hadvance⟩ := advanceRollupState_refused currentFinalized
            (finalizes nextFinalized slotNumber blockIdx) s hanswer
          refine ⟨t, ?_⟩
          cases e' with
          | err e' =>
              rw [attempt_err hadvance]
              rfl
          | panic message =>
              rw [attempt_panic hadvance]
              rfl

/-- A block that is made is put behind the others, and the loop goes on with it as the
parent unless the limit is reached. -/
theorem produceLoop_made {produced : EthBlockId × BlockParams}
    (hmake : make E genesis parentHash (PendingTask.ofItem item) = .ok produced)
    (nextFinalized : Option EthBlockId) (limit : Option Nat) (currentFinalized : H256)
    (producedBlocks : ProducedBlocks) (s : σ) :
    produced.1 = (item.1, item.2.2.1) ∧ ∃ t finalized, E.Kept s t ∧ E.built t produced.2.hash ∧
      P.produceLoop nextFinalized limit (item :: rest) currentFinalized
          (parentHash.getD genesis) producedBlocks s
        = (if reached limit (producedBlocks.insert item.1 item.2.2.1 produced.2) then
            pure ⟨producedBlocks.insert item.1 item.2.2.1 produced.2, finalized⟩
          else P.produceLoop nextFinalized limit rest finalized produced.2.hash
            (producedBlocks.insert item.1 item.2.2.1 produced.2)) t := by
  obtain ⟨slotNumber, pendingL1Block, blockIdx, pendingL2Block⟩ := item
  rw [produceLoop]
  cases htxs : P.stateAdvanceTxs (pendingL2Block.transactions.toList.map Prod.snd) with
  | error e =>
      simp only [make, PendingTask.ofItem, htxs] at hmake
      cases hmake
  | ok txs =>
      cases hanswer : E.answer (parentHash.getD genesis)
          (payloadAttributes pendingL1Block.timestamp txs pendingL2Block.gasRecipient) with
      | error e =>
          simp only [make, PendingTask.ofItem, htxs, hanswer] at hmake
          cases hmake
      | ok block =>
          simp only [make, PendingTask.ofItem, htxs, hanswer] at hmake
          cases hmake
          obtain ⟨t, hadvance, hkept, hbuilt⟩ := advanceRollupState_answer currentFinalized
            (finalizes nextFinalized slotNumber blockIdx) s hanswer
          refine ⟨rfl, t, if finalizes nextFinalized slotNumber blockIdx then block.2
            else currentFinalized, hkept, hbuilt, ?_⟩
          simp only [bind, EStateM.bind]
          rw [attempt_of_ok hadvance]

end

theorem produceLoop_worked (E : AnsweringEngine P batches) (genesis : H256)
    (nextFinalized : Option EthBlockId) (limit : Option Nat)
    (items : List (Slot × PendingL1Block × Nat × PendingL2Block)) :
    ∀ (parentHash : Option H256) (currentFinalized : H256) {producedBlocks : ProducedBlocks}
      (s : σ), (items.map fun e => (e.1, e.2.2.1)).Pairwise Before →
    NestedMap.Below producedBlocks (items.map fun e => (e.1, e.2.2.1)) →
    NestedMap.Full producedBlocks →
    ∃ n, (items ≠ [] → 0 < n) ∧ (limit = none → items.length ≤ n) ∧
      Worked E genesis parentHash ((items.map PendingTask.ofItem).take n) producedBlocks s
        (P.produceLoop nextFinalized limit items currentFinalized (parentHash.getD genesis)
          producedBlocks s) := by
  induction items with
  | nil =>
      intro parentHash currentFinalized producedBlocks s _ _ hfull
      refine ⟨0, fun hne => absurd rfl hne, fun _ => Nat.le_refl 0, ?_⟩
      refine .made [] rfl hfull (List.append_nil _).symm (.refl s) fun e he => ?_
      cases he
  | cons item rest ih =>
      intro parentHash currentFinalized producedBlocks s hitems hbelow hfull
      cases hmake : make E genesis parentHash (PendingTask.ofItem item) with
      | error e =>
          obtain ⟨t, hloop⟩ := produceLoop_refused hmake nextFinalized limit
            currentFinalized producedBlocks s
          rw [hloop]
          exact ⟨rest.length + 1, fun _ => Nat.succ_pos _, fun _ => Nat.le_refl _,
            .failed (Handover.work_cons_error _ hmake)⟩
      | ok produced =>
          obtain ⟨hid, t, finalized, hkept, hbuilt, hloop⟩ := produceLoop_made hmake
            nextFinalized limit currentFinalized producedBlocks s
          have hset : NestedMap.entries (producedBlocks.insert item.1 item.2.2.1 produced.2)
              = NestedMap.entries producedBlocks ++ [produced] := by
            rw [← Prod.eta produced, hid]
            exact NestedMap.Below.entries_set hbelow produced.2
          have hfull' : NestedMap.Full (producedBlocks.insert item.1 item.2.2.1 produced.2) :=
            hfull.set (item.1, item.2.2.1) produced.2
          rw [hloop]
          split
          · next hreached =>
            refine ⟨1, fun _ => Nat.one_pos, fun hnone => ?_,
              .made _ (Handover.work_cons hmake rfl) hfull' hset hkept fun e he => ?_⟩
            · rw [hnone] at hreached
              cases hreached
            · cases he
              exact hbuilt
          · have hbelow' : NestedMap.Below (producedBlocks.insert item.1 item.2.2.1 produced.2)
                (rest.map fun e => (e.1, e.2.2.1)) := NestedMap.Below.set hbelow hitems produced.2
            obtain ⟨n, _, hall, hrest⟩ :=
              ih (some produced.2.hash) finalized t hitems.of_cons hbelow' hfull'
            exact ⟨n + 1, fun _ => Nat.succ_pos n, fun hnone => Nat.succ_le_succ (hall hnone),
              hrest.cons hmake hset hkept hbuilt⟩

/-! ### A call of `produce_blocks` -/

/-- `produce_blocks` finds the block it goes on top of. -/
def CanGoOn (P : EngineAPIBlockProducer σ) (genesis : H256) (parentHash : Option H256)
    (s : σ) : Prop :=
  ∃ parentBlock u finalizedBlockhash v,
    P.getParentBlock parentHash s = .ok parentBlock u ∧
    P.firstFinalized parentBlock parentHash u = .ok finalizedBlockhash v ∧
    parentBlock.hash = some (parentHash.getD genesis)

theorem canGoOn_of_built {hash : H256} {s : σ} (h : E.built s hash) :
    CanGoOn P genesis (some hash) s := by
  obtain ⟨block, number, t, hget, hnumber⟩ := E.finds h
  have hhash := E.reportedByHash hget
  have hbuilt := (AnsweringEngine.Kept.of_preserves (E.getBlock _) hget).2 hash h
  have hparent : P.getParentBlock (some hash) s = .ok block t := by
    simp only [getParentBlock, bind, EStateM.bind, attempt_of_ok hget]
    rfl
  by_cases hgenesis : number ≠ 0
  · obtain ⟨finalizedBlock, finalized, u, hfinalized, hfinal⟩ := E.finalizes hbuilt
    refine ⟨block, t, finalized, u, hparent, ?_, hhash⟩
    simp only [firstFinalized, hnumber, if_pos hgenesis, getFinalizedBlockhash, Option.isSome_some,
      if_true, bind, EStateM.bind, attempt_of_ok hfinalized, hfinal]
    rfl
  · refine ⟨block, t, hash, t, hparent, ?_, hhash⟩
    simp only [firstFinalized, hnumber, if_neg hgenesis, hhash]
    rfl

/-- Where it finds no such block, the call fails, whatever its limit. -/
theorem produceBlocks_start (producerParams : ProducerParams) (s : σ)
    (hreported : ∀ {hash : H256} {s t : σ} {block : GethBlock},
      P.gethApi.getBlock (.hash hash) s = .ok (some block) t → block.hash = some hash) :
    (∃ genesis, CanGoOn P genesis producerParams.parentHash s) ∨
      ∃ e t, ∀ limit, P.produceBlocks producerParams limit s = .error e t := by
  cases hparent : P.getParentBlock producerParams.parentHash s with
  | error e t =>
      refine Or.inr ⟨e, t, fun limit => ?_⟩
      simp only [produceBlocks, bind, EStateM.bind, hparent]
  | ok parentBlock u =>
      cases hfinalized : P.firstFinalized parentBlock producerParams.parentHash u with
      | error e t =>
          refine Or.inr ⟨e, t, fun limit => ?_⟩
          simp only [produceBlocks, bind, EStateM.bind, hparent, hfinalized]
      | ok finalizedBlockhash v =>
          cases hhash : parentBlock.hash with
          | none =>
              refine Or.inr ⟨.err (.custom "Unable to read parent block "), v, fun limit => ?_⟩
              simp only [produceBlocks, bind, EStateM.bind, hparent, hfinalized, hhash]
              rfl
          | some hash =>
              refine Or.inl ⟨hash, parentBlock, u, finalizedBlockhash, v, hparent, hfinalized, ?_⟩
              rw [hhash]
              cases hgiven : producerParams.parentHash with
              | none => rfl
              | some given =>
                  rw [hgiven] at hparent
                  obtain ⟨answer, w, hget, hparent⟩ := EStateM.bind_ok hparent
                  rcases answer with e | _ | b
                  · cases hparent
                  · cases hparent
                  · cases hparent
                    rw [← hreported (attempt_ok hget), hhash]
                    rfl

theorem worksOff :
    WorksOff P.blockProducer (make E genesis) (CanGoOn P genesis) E.built batches := by
  refine ⟨fun producerParams limit s hready => ?_, canGoOn_of_built⟩
  obtain ⟨parentBlock, u, finalizedBlockhash, v, hparent, hfinalized, hhash⟩ := hready
  have hitems : (producerParams.pendingBlocks.iter.map fun e => (e.1, e.2.2.1)).Pairwise
      Before := by
    rw [iter_keys]
    exact keys_ascending _
  have hstart : ∃ currentFinalized nextFinalized,
      P.blockProducer.produceBlocks producerParams limit s
        = P.produceLoop nextFinalized limit producerParams.pendingBlocks.iter currentFinalized
            (producerParams.parentHash.getD genesis) ∅ v := by
    simp only [blockProducer, produceBlocks, bind, EStateM.bind, hparent, hfinalized, hhash]
    exact ⟨_, _, rfl⟩
  obtain ⟨currentFinalized, nextFinalized, hstart⟩ := hstart
  obtain ⟨n, hpos, hall, hworked⟩ := produceLoop_worked E genesis
    nextFinalized limit _ producerParams.parentHash currentFinalized v hitems
    (NestedMap.below_empty _) NestedMap.full_empty
  refine ⟨n, ?_, ?_, ?_⟩
  · intro hne
    exact hpos fun hnil => hne (by rw [PendingBlocks.tasks, hnil, List.map_nil])
  · intro hnone
    rw [PendingBlocks.tasks, List.length_map]
    exact hall hnone
  · rw [hstart]
    have hkept : E.Kept s v := (AnsweringEngine.Kept.of_preserves
      (preserves_getParentBlock E.getBlock _) hparent).trans
      (AnsweringEngine.Kept.of_preserves (preserves_firstFinalized E.getBlock _ _) hfinalized)
    generalize P.produceLoop nextFinalized limit _ currentFinalized _ ∅ v = answer at hworked ⊢
    cases hworked with
    | failed hfailed => exact .failed hfailed
    | made made hmade hfull hentries hkept' hbuilt =>
        rw [NestedMap.entries_empty, List.nil_append] at hentries
        rw [← hentries] at hmade hbuilt
        exact .made hmade hfull (hkept.trans hkept').1 hbuilt

theorem batchedAsOneShot (E : AnsweringEngine P batches) {I : RollupIndexer σ}
    (hI : AcceptsBatches I.ethereumBlockStorage E.built batches) (batchSize : Nat)
    (producerParams : ProducerParams) (s : σ) :
    BatchedAsOneShot I P.blockProducer batches batchSize producerParams s := by
  rcases produceBlocks_start (P := P) producerParams s E.reportedByHash with
    ⟨genesis, hready⟩ | ⟨e, t, hfails⟩
  · exact (worksOff (E := E)).batchedAsOneShot hI keepsIds_make hready
  · have hall : P.blockProducer.produceBlocks producerParams none s = .error e t := hfails none
    have hbatch : P.blockProducer.produceBlocks producerParams (some batchSize) s = .error e t :=
      hfails (some batchSize)
    rw [BatchedAsOneShot, hall]
    refine ⟨t, ?_⟩
    rw [RollupIndexer.produceLoop]
    simp only [bind, EStateM.bind, hbatch]

end EngineAPIBlockProducer

namespace BatchRun

/-- A small op-geth beside the batches that were recorded: the blocks it has, and the
head the payload was started on. -/
structure World where
  known : List H256
  head : H256
  recorded : List ProducedBlocks

/-- The block with hash `n + 1` is block number `n`, on top of the one before it. -/
def block (hash : H256) : GethBlock := ⟨some hash, hash - 1, some (hash.toNat - 1), 0⟩

def gethApi : GethApi World where
  getBlock id := fun w => match id with
    | .hash hash => .ok (if hash ∈ w.known then some (block hash) else none) w
    | .latest => .ok (w.known.head?.map block) w
    | .finalized => .ok (some (block 1)) w
    | .number number => .ok (w.known.find? (fun hash => hash.toNat - 1 = number) |>.map block) w
  getBlockNumber := fun w => .ok ((w.known.head?.getD 1).toNat - 1) w

def gethEngine : GethEngine World where
  forkchoiceUpdatedV2 state params := fun w => match params with
    | some _ => .ok (some "payload") { w with head := state.headBlockHash }
    | none => .ok none w
  getPayloadV2 _ := fun w => .ok (some ⟨w.head.toNat, w.head + 1, none, []⟩) w
  newPayloadV2 payload := fun w =>
    .ok payload.blockHash { w with known := payload.blockHash :: w.known }

def producer : EngineAPIBlockProducer World := ⟨gethEngine, gethApi, fun _ => []⟩

def engine : AnsweringEngine producer World.recorded where
  answer head _ := .ok (head.toNat, head + 1)
  built w hash := hash ∈ w.known
  getBlock id := by
    intro w
    cases id <;> rfl
  forkchoiceUpdatedV2 state params := by
    intro w
    cases params <;> rfl
  getPayloadV2 payloadId := fun w => rfl
  builds state params w number hash h := by
    cases h
    exact ⟨_, _, _, _, rfl, rfl, rfl, rfl⟩
  refuses state params w e h := by cases h
  accepts gasUsed h := ⟨_, rfl, rfl, List.mem_cons_self .., fun _ => List.mem_cons_of_mem _⟩
  follows state w _ := ⟨_, _, rfl⟩
  reportedByHash h := by
    injection h with h _
    split at h
    · cases h
      rfl
    · cases h
  finds {hash w} h := ⟨block hash, _, w, congrArg (EStateM.Result.ok · w) (if_pos h), rfl⟩
  finalizes {hash w} _ := ⟨block 1, 1, w, rfl, rfl⟩

def indexer : RollupIndexer World where
  parse _ _ := pure none
  retainParsed _ := pure ()
  solanaBlockStorage := ⟨pure none, fun _ => pure (), fun _ _ => False⟩
  ethereumBlockStorage := { InMemory.ethereumBlockStorage with
    blocksProduced := fun _ producedBlocks => fun w =>
      .ok () { w with recorded := w.recorded ++ [producedBlocks] } }
  blockProducer := some producer.blockProducer
  maxSlotHistory := none

/-- One block in slot 3, and two in slot 5. -/
def producerParams : ProducerParams where
  parentHash := none
  finalizedBlock := none
  pendingBlocks := (∅ : PendingBlocks)
    |>.insert 3 ⟨30, 7, (∅ : BTreeMap Nat PendingL2Block).insert 0 ⟨∅, none⟩⟩
    |>.insert 5 ⟨50, 8, ((∅ : BTreeMap Nat PendingL2Block).insert 0 ⟨∅, none⟩).insert 1 ⟨∅, none⟩⟩

end BatchRun

end RomeSdk
