import RomeSdk.Indexer.ProductionRun
import RomeSdk.Proofs.PendingRows
import RomeSdk.Proofs.RecordedTogether
import RomeSdk.Proofs.Reproduction

/-!
# The parameters the tables hold

What each call of the storage does to the parameters of the stored blocks: only
`blocks_produced` writes any, and it writes those it was given for blocks that have
none. A block that `get_pending_blocks` hands over is stored without parameters.
-/

namespace RomeSdk

namespace PgStorage

variable {block : Type} {db : Db block}

theorem paramsOf_eq_some {id : EthBlockId} {params : BlockParams} :
    paramsOf db id = some params ↔
      ∃ header, db.ethBlock.lookup id = some header ∧ header.params = some params := by
  rw [paramsOf, Option.bind_eq_some_iff]

theorem isProduced_eq (db : Db block) (id : EthBlockId) :
    db.isProduced id = (paramsOf db id).isSome := by
  rw [Db.isProduced, paramsOf]
  cases db.ethBlock.lookup id <;> rfl

/-! ## The latest number -/

theorem mem_numbers {n : Nat} :
    n ∈ db.ethBlock.entries.filterMap (fun e => e.2.params.map BlockParams.number) ↔
      ∃ id params, paramsOf db id = some params ∧ params.number = n := by
  rw [List.mem_filterMap]
  constructor
  · intro h
    obtain ⟨e, he, hnumber⟩ := h
    obtain ⟨params, hparams, hnumber⟩ := Option.map_eq_some_iff.mp hnumber
    exact ⟨e.1, params, paramsOf_eq_some.mpr ⟨e.2, (HashMap.mem_entries _ _ _).mp he, hparams⟩,
      hnumber⟩
  · intro h
    obtain ⟨id, params, hparams, hnumber⟩ := h
    obtain ⟨header, hlookup, hparams⟩ := paramsOf_eq_some.mp hparams
    exact ⟨⟨id, header⟩, (HashMap.mem_entries _ _ _).mpr hlookup, by rw [hparams, ← hnumber]; rfl⟩

theorem latestEthBlock_eq_some {n : Nat} : latestEthBlock db = some n ↔
    (∃ id params, paramsOf db id = some params ∧ params.number = n) ∧
      ∀ id params, paramsOf db id = some params → params.number ≤ n := by
  rw [latestEthBlock, Db.maxOf, List.max?_eq_some_iff, mem_numbers]
  refine and_congr_right fun _ => ?_
  constructor
  · intro h id params hparams
    exact h _ (mem_numbers.mpr ⟨id, params, hparams, rfl⟩)
  · intro h n hn
    obtain ⟨id, params, hparams, rfl⟩ := mem_numbers.mp hn
    exact h id params hparams

theorem height_le {n : Nat} (h : ∀ id params, paramsOf db id = some params → params.number ≤ n) :
    height db ≤ n := by
  rw [height]
  cases hlatest : latestEthBlock db with
  | none => exact Nat.zero_le n
  | some latest =>
      obtain ⟨⟨id, params, hparams, rfl⟩, _⟩ := latestEthBlock_eq_some.mp hlatest
      exact h id params hparams

theorem height_eq {id : EthBlockId} {params : BlockParams} (hparams : paramsOf db id = some params)
    (h : ∀ id' params', paramsOf db id' = some params' → params'.number ≤ params.number) :
    height db = params.number := by
  rw [height, latestEthBlock_eq_some.mpr ⟨⟨id, params, hparams, rfl⟩, h⟩]
  rfl

/-! ## Recording -/

variable {pendingBlocks : PendingBlocks}

theorem paramsOf_setParams (id id' : EthBlockId) (blockParams : BlockParams) :
    paramsOf (setParams id blockParams db) id' =
      if id' = id ∧ (db.ethBlock.lookup id').isSome ∧ paramsOf db id' = none then some blockParams
      else paramsOf db id' := by
  rw [paramsOf, paramsOf, setParams, HashMap.lookup_filterMap]
  cases db.ethBlock.lookup id' with
  | none => simp
  | some header =>
      by_cases hid : id' = id
      · cases hparams : header.params with
        | none => simp [hid, hparams]
        | some params => simp [hid, hparams]
      · simp [hid]

/-- What is recorded stays, and what is new was given. -/
theorem paramsOf_recordParams (pendingBlocks : PendingBlocks) (db : Db block)
    (e : Slot × Nat × BlockParams) (id : EthBlockId) :
    (∀ params, paramsOf db id = some params →
      paramsOf (recordParams pendingBlocks db e) id = some params) ∧
    ∀ params, paramsOf (recordParams pendingBlocks db e) id = some params →
      paramsOf db id = some params ∨ e = (id.1, id.2, params) := by
  rw [recordParams]
  split
  · rw [paramsOf_setParams]
    split
    · next hnew =>
      refine ⟨fun params h => ?_, fun params h => ?_⟩
      · rw [hnew.2.2] at h
        cases h
      · cases h
        rw [hnew.1]
        exact Or.inr rfl
    · exact ⟨fun params h => h, fun params h => Or.inl h⟩
  · exact ⟨fun params h => h, fun params h => Or.inl h⟩

theorem paramsOf_foldl_recordParams (l : List (Slot × Nat × BlockParams)) (id : EthBlockId) :
    ∀ db : Db block,
    (∀ params, paramsOf db id = some params →
      paramsOf (l.foldl (recordParams pendingBlocks) db) id = some params) ∧
    ∀ params, paramsOf (l.foldl (recordParams pendingBlocks) db) id = some params →
      paramsOf db id = some params ∨ (id.1, id.2, params) ∈ l := by
  induction l with
  | nil => exact fun db => ⟨fun params h => h, fun params h => Or.inl h⟩
  | cons e l ih =>
      intro db
      obtain ⟨hkeep, hnew⟩ := paramsOf_recordParams pendingBlocks db e id
      obtain ⟨hkeep', hnew'⟩ := ih (recordParams pendingBlocks db e)
      refine ⟨fun params h => hkeep' params (hkeep params h), fun params h => ?_⟩
      rcases hnew' params h with h | h
      · rcases hnew params h with h | h
        · exact Or.inl h
        · exact Or.inr (List.mem_cons.mpr (Or.inl h.symm))
      · exact Or.inr (List.mem_cons_of_mem _ h)

variable {producedBlocks : ProducedBlocks}

theorem paramsOf_recordAllParams_keep {id : EthBlockId} {params : BlockParams}
    (h : paramsOf db id = some params) :
    paramsOf (recordAllParams pendingBlocks producedBlocks db) id = some params :=
  (paramsOf_foldl_recordParams _ id db).1 params h

theorem paramsOf_recordAllParams_new {id : EthBlockId} {params : BlockParams}
    (h : paramsOf (recordAllParams pendingBlocks producedBlocks db) id = some params) :
    paramsOf db id = some params ∨ NestedMap.get producedBlocks id = some params := by
  rcases (paramsOf_foldl_recordParams _ id db).2 params h with h | h
  · exact Or.inl h
  · exact Or.inr (mem_iter.mp h)

/-- A stored block without parameters gets those it was produced with. -/
theorem paramsOf_recordAllParams {id : EthBlockId} {params : BlockParams}
    (hid : id ∈ db.ethBlock) (hnone : paramsOf db id = none)
    (hpending : pendingBlocks.contains id.1 id.2 = true)
    (hproduced : NestedMap.get producedBlocks id = some params) :
    paramsOf (recordAllParams pendingBlocks producedBlocks db) id = some params := by
  have hsome := ((recordAllParams_spec pendingBlocks producedBlocks db).2 id).mpr
    (Or.inr ⟨hid, hpending, params, mem_iter.mpr hproduced⟩)
  rw [isProduced_eq] at hsome
  obtain ⟨params', hparams'⟩ := Option.isSome_iff_exists.mp hsome
  rcases paramsOf_recordAllParams_new hparams' with h | h
  · rw [hnone] at h
    cases h
  · rw [hproduced] at h
    cases h
    exact hparams'

/-- A block that is not among the produced ones is as it was. -/
theorem paramsOf_recordAllParams_other (pendingBlocks : PendingBlocks) (db : Db block)
    {id : EthBlockId} (h : NestedMap.get producedBlocks id = none) :
    paramsOf (recordAllParams pendingBlocks producedBlocks db) id = paramsOf db id := by
  cases hbefore : paramsOf db id with
  | some params => exact paramsOf_recordAllParams_keep hbefore
  | none =>
      cases hafter : paramsOf (recordAllParams pendingBlocks producedBlocks db) id with
      | none => rfl
      | some params =>
          rcases paramsOf_recordAllParams_new hafter with h' | h'
          · rw [hbefore] at h'
            cases h'
          · rw [h] at h'
            cases h'

/-! ## The pending blocks -/

variable {X : StorageCrates}

theorem contains_insert (pending : PendingBlocks) (slot : Slot) (l1Block : PendingL1Block)
    (id : EthBlockId) : PendingBlocks.contains (pending.insert slot l1Block) id.1 id.2 =
      if slot = id.1 then l1Block.l2Blocks.contains id.2 else pending.contains id.1 id.2 := by
  rw [PendingBlocks.contains, BTreeMap.get?_insert]
  by_cases hslot : slot = id.1
  · rw [if_pos hslot, if_pos hslot]
  · rw [if_neg hslot, if_neg hslot]
    rfl

/-- A block that is there after a transaction was filed was there, or is that of the
transaction. -/
theorem contains_fileTx {gasRecipient : Option Address} {occupied : String} {slot : Slot}
    {i k : Nat} {rlp : Bytes} {txResult : TxResult} {pending pending' : PendingBlocks}
    {l1Block : PendingL1Block}
    (h : fileTx X gasRecipient occupied slot i k rlp txResult pending l1Block = .ok pending')
    {id : EthBlockId} (hid : pending'.contains id.1 id.2 = true) :
    id = (slot, i) ∨ (slot = id.1 ∧ l1Block.l2Blocks.contains id.2 = true) ∨
      pending.contains id.1 id.2 = true := by
  rw [fileTx] at h
  split at h
  · cases h
  · split at h
    · cases h
    · cases h
      rw [contains_insert] at hid
      split at hid
      · next hslot =>
          rw [Std.ExtTreeMap.contains_insert, Bool.or_eq_true] at hid
          rcases hid with hi | hold
          · rw [beq_iff_eq, Std.LawfulEqCmp.compare_eq_iff_eq] at hi
            exact Or.inl (Prod.ext hslot.symm hi.symm)
          · exact Or.inr (Or.inl ⟨hslot, hold⟩)
      · exact Or.inr (Or.inr hid)

theorem newFromPendingTx_empty {tx : PendingTx} {l1Block : PendingL1Block}
    (h : newFromPendingTx X tx = .ok l1Block) : l1Block.l2Blocks = ∅ := by
  rw [newFromPendingTx] at h
  obtain ⟨blockhash, _, h⟩ := Except.ok_of_bind h
  obtain ⟨timestamp, _, h⟩ := Except.ok_of_bind h
  cases h
  rfl

theorem contains_appendPendingTx {tx : PendingTx} {pending pending' : PendingBlocks}
    (h : appendPendingTx X pending tx = .ok pending') {id : EthBlockId}
    (hid : pending'.contains id.1 id.2 = true) :
    id = tx.id ∨ pending.contains id.1 id.2 = true := by
  rw [appendPendingTx, appendTx] at h
  cases hslot : pending[tx.slotNumber]? with
  | some l1Block =>
      simp only [hslot] at h
      rcases contains_fileTx h hid with heq | ⟨hsame, hold⟩ | hold
      · exact Or.inl heq
      · right
        rw [PendingBlocks.contains, ← hsame, hslot]
        exact hold
      · exact Or.inr hold
  | none =>
      simp only [hslot] at h
      obtain ⟨l1Block, hnew, h⟩ := Except.ok_of_bind h
      rcases contains_fileTx h hid with heq | ⟨_, hold⟩ | hold
      · exact Or.inl heq
      · rw [newFromPendingTx_empty hnew, Std.ExtTreeMap.contains_empty] at hold
        cases hold
      · exact Or.inr hold

theorem add_pendingBlocks {st st' : PendingState} {tx : PendingTx} (h : st.add X tx = .ok st') :
    st'.pendingBlocks = st.pendingBlocks ∨ tx.ethBlockhash = none ∧
      appendPendingTx X st.pendingBlocks tx = .ok st'.pendingBlocks := by
  rw [PendingState.add] at h
  generalize hst₁ : (if tx.slotStatus = .finalized then
    { st with finalizedBlocks :=
        st.finalizedBlocks.insertIfNew (tx.slotNumber, tx.slotBlockIdx) tx.ethBlockhash }
    else st : PendingState) = st₁ at h
  have hpending : st₁.pendingBlocks = st.pendingBlocks := by
    rw [← hst₁]
    split <;> rfl
  cases hhash : tx.ethBlockhash with
  | some hash =>
      simp only [hhash] at h
      cases h
      exact Or.inl hpending
  | none =>
      simp only [hhash] at h
      obtain ⟨pending, happend, h⟩ := Except.ok_of_bind h
      cases h
      rw [hpending] at happend
      exact Or.inr ⟨rfl, happend⟩

/-- A block that is pending after the loop was so before or is in one of the rows. -/
theorem contains_pendingState (txs : List PendingTx) : ∀ {st st' : PendingState},
    txs.foldlM (PendingState.add X) st = .ok st' → ∀ {id : EthBlockId},
      st'.pendingBlocks.contains id.1 id.2 = true →
      (∃ tx ∈ txs, tx.id = id ∧ tx.ethBlockhash = none) ∨
        st.pendingBlocks.contains id.1 id.2 = true := by
  induction txs with
  | nil =>
      intro st st' h id hid
      cases h
      exact Or.inr hid
  | cons tx txs ih =>
      intro st st' h id hid
      rw [List.foldlM_cons] at h
      obtain ⟨st₁, hadd, h⟩ := Except.ok_of_bind h
      rcases ih h hid with ⟨tx', htx', hfound⟩ | hid
      · exact Or.inl ⟨tx', List.mem_cons_of_mem _ htx', hfound⟩
      · rcases add_pendingBlocks hadd with hsame | ⟨hnone, happend⟩
        · rw [hsame] at hid
          exact Or.inr hid
        · rcases contains_appendPendingTx happend hid with rfl | hold
          · exact Or.inl ⟨tx, List.mem_cons_self .., rfl, hnone⟩
          · exact Or.inr hold

/-- A row of the second view is about a block as it is stored. -/
theorem pendingTransactions_stored {txs : List PendingTx}
    (h : pendingTransactionsWithSlotStatuses2 db = .ok txs) {tx : PendingTx} (htx : tx ∈ txs) :
    ∃ header, db.ethBlock.lookup tx.id = some header ∧
      tx.ethBlockhash = header.params.map BlockParams.hash := by
  obtain ⟨_, hmem, rfl⟩ := (Except.mem_of_mapM h tx).mp htx
  obtain ⟨row, hrow, hmem⟩ := List.mem_flatMap.mp hmem
  cases hidx : row.slotBlockIdx with
  | none =>
      simp only [hidx] at hmem
      cases hmem
  | some i =>
      simp only [hidx] at hmem
      obtain ⟨_, s, header, _, hheader, hblock⟩ := viewRow_block (mem_view.mp hrow) hidx
      rw [pendingTxsOf, List.mem_filterMap] at hmem
      obtain ⟨e, _, hsome⟩ := hmem
      obtain ⟨rlp, _, hsome⟩ := Option.bind_eq_some_iff.mp hsome
      obtain ⟨result, _, hsome⟩ := Option.bind_eq_some_iff.mp hsome
      split at hsome
      · cases hsome
      · cases hsome
        exact ⟨header, hheader, by rw [hblock]; rfl⟩

/-- A block that is handed over is stored and has no parameters. -/
theorem getPendingBlocks_pending {producerParams : ProducerParams}
    (h : getPendingBlocks X db = .ok (some producerParams)) {id : EthBlockId}
    (hid : producerParams.pendingBlocks.contains id.1 id.2 = true) :
    id ∈ db.ethBlock ∧ paramsOf db id = none := by
  obtain ⟨txs, htxs, h⟩ := Except.ok_of_bind h
  obtain ⟨st, hst, h⟩ := Except.ok_of_bind h
  split at h
  · cases h
  · cases h
    rcases contains_pendingState txs hst hid with ⟨tx, htx, rfl, hnone⟩ | hempty
    · obtain ⟨header, hheader, hhash⟩ := pendingTransactions_stored htxs htx
      rw [hnone, eq_comm, Option.map_eq_none_iff] at hhash
      refine ⟨?_, ?_⟩
      · exact HashMap.mem_of_lookup hheader
      · rw [paramsOf, hheader]
        exact hhash
    · rw [PendingBlocks.contains, Std.ExtTreeMap.getElem?_empty] at hempty
      cases hempty

/-! ## Registering -/

theorem storeRollupHeader_paramsOf (slotNumber : Slot) (blockIdx : Nat) (ethBlock : EthBlock)
    (db : Db block) :
    paramsOf (storeRollupHeader slotNumber blockIdx ethBlock db).1 = paramsOf db := by
  rw [storeRollupHeader]
  split
  · rfl
  · next hnew =>
    split
    · funext id
      rw [paramsOf, paramsOf, HashMap.lookup_insertIfNew, AList.lookup_eq_none.mpr hnew]
      by_cases hid : (slotNumber, blockIdx) = id
      · rw [if_pos hid, ← hid, AList.lookup_eq_none.mpr hnew]
        rfl
      · rw [if_neg hid]
    · rfl

theorem storeTx_ethBlock (id : EthBlockId) (db : Db block) (e : TxHash × Nat) :
    (storeTx id db e).1.ethBlock = db.ethBlock := by
  rw [storeTx]
  split
  · rfl
  · split <;> rfl

theorem storeEthBlock_paramsOf (db : Db block) (e : EthBlockId × EthBlock) :
    paramsOf (storeEthBlock db e).1 = paramsOf db := by
  have hheader := storeRollupHeader_paramsOf e.1.1 e.1.2 e.2 db
  rw [storeEthBlock]
  split
  · next db₁ hstored =>
    rw [hstored] at hheader
    refine forTry_invariant (P := fun db₂ => paramsOf db₂ = paramsOf db) ?_ hheader
    intro db₂ tx _ h
    rw [← h]
    funext id
    rw [paramsOf, storeTx_ethBlock, paramsOf]
  · next db₁ err hstored =>
    rw [hstored] at hheader
    exact hheader

theorem registerTransaction_ethBlock (slotNumber : Slot) (db : Db block)
    (e : Transaction × TxResult) :
    (TransactionStorage.registerTransaction X slotNumber db e).1.ethBlock = db.ethBlock := by
  simp only [TransactionStorage.registerTransaction]
  split
  · rfl
  · split <;> rfl

/-- Neither transaction of `register_parse_results` changes parameters. -/
theorem registerParseResults_paramsOf {parseResults : BTreeMap Slot BlockParseResult}
    {db db' : Db block} (h : TransactionStorage.registerParseResults X parseResults db = .ok ((), db')
      ∨ storeEthBlocks parseResults db = .ok ((), db')) : paramsOf db' = paramsOf db := by
  rcases h with h | h
  · have hsame : db'.ethBlock = db.ethBlock := by
      refine forTry_kept (P := fun db₁ : Db block => db₁.ethBlock = db.ethBlock)
        (TransactionStorage.registerParseResults_loop h) ?_ rfl
      intro db₁ e _ h
      rw [registerTransaction_ethBlock, h]
    funext id
    rw [paramsOf, paramsOf, hsame]
  · refine forTry_kept (P := fun db₁ : Db block => paramsOf db₁ = paramsOf db)
      (storeEthBlocks_loop h) ?_ rfl
    intro db₁ e _ h
    rw [storeEthBlock_paramsOf, h]

/-! ## Calls in a run -/

open ProductionState (leave)

variable {γ α : Type}

theorem transaction_run (f : Db block → Outcome (α × Db block)) (w : ProductionWorld block γ) :
    match Server.pool.beside.beside.transaction f w with
    | .ok a t => f w.1.1.db = .ok (a, t.1.1.db) ∧ t.1.2 = w.1.2 ∧ t.2 = w.2
    | .error _ t => leave t = leave w := by
  rw [Pool.transaction_beside, Pool.transaction_beside]
  cases hrun : Server.pool.transaction f w.1.1 with
  | ok a u => exact ⟨Server.transaction_ok hrun, rfl, rfl⟩
  | error e u =>
      show ProductionState.mk u.db w.1.2 w.2 = leave w
      rw [Server.transaction_err hrun]
      rfl

theorem query_run (f : Db block → Outcome α) (w : ProductionWorld block γ) :
    match Server.pool.beside.beside.query f w with
    | .ok a t => f w.1.1.db = .ok a ∧ leave t = leave w
    | .error _ t => leave t = leave w := by
  have hrun := transaction_run (fun db => (f db).map fun a => (a, db)) w
  rw [Pool.query]
  split at hrun
  · next a t h =>
    obtain ⟨hf, hgeth, hcalls⟩ := hrun
    cases hanswer : f w.1.1.db with
    | error e =>
        rw [hanswer] at hf
        cases hf
    | ok b =>
        rw [hanswer] at hf
        injection hf with hf
        injection hf with hb hdb
        rw [leave, leave, hgeth, hcalls, ← hdb, hb]
        exact ⟨rfl, rfl⟩
  · exact hrun

theorem preserves_query (f : Db block → Outcome α) :
    EStateM.Preserves (leave : ProductionWorld block γ → _) (Server.pool.beside.beside.query f) := by
  intro w
  have hrun := query_run f w
  rw [EStateM.after]
  cases hquery : Server.pool.beside.beside.query f w with
  | ok a t =>
      rw [hquery] at hrun
      exact hrun.2
  | error e t =>
      rw [hquery] at hrun
      exact hrun

/-- Registering gives no block parameters. -/
theorem preserves_registerParseResults (parseResults : BTreeMap Slot BlockParseResult) :
    EStateM.Preserves (fun w : ProductionWorld block γ => (paramsOf w.1.1.db, w.1.2, w.2))
      (registerParseResults X Server.pool.beside.beside parseResults) := by
  have htransaction : ∀ f : Db block → Outcome (Unit × Db block),
      (∀ db db', f db = .ok ((), db') → paramsOf db' = paramsOf db) →
      EStateM.Preserves (fun w : ProductionWorld block γ => (paramsOf w.1.1.db, w.1.2, w.2))
        (Server.pool.beside.beside.transaction f) := by
    intro f hf w
    have hrun := transaction_run f w
    rw [EStateM.after]
    split at hrun
    · next a t h =>
      rw [h]
      obtain ⟨hdb, hgeth, hcalls⟩ := hrun
      simp only [hf _ _ hdb, hgeth, hcalls]
    · next e t h =>
      rw [h]
      injection hrun with hdb hgeth hcalls
      simp only [hdb, hgeth, hcalls]
  rw [registerParseResults]
  split
  · exact .pure _
  · refine .bind (htransaction _ fun db db' h => ?_) fun _ => htransaction _ fun db db' h => ?_
    · exact registerParseResults_paramsOf (Or.inl h)
    · exact registerParseResults_paramsOf (X := X) (Or.inr h)

/-- The second transaction of `blocks_produced` leaves the blocks as they are. -/
theorem blocksProduced_ethBlock {db' : Db block}
    (h : TransactionStorage.blocksProduced pendingBlocks producedBlocks db = .ok ((), db')) :
    db'.ethBlock = db.ethBlock :=
  (blockProduced_loop _ (TransactionStorage.blocksProduced_loop h)).1.ethBlock

/-- `blocks_produced` records the parameters, unless it fails before it did anything. -/
theorem blocksProduced_run (producerParams : ProducerParams) (producedBlocks : ProducedBlocks)
    (w : ProductionWorld block γ) :
    let recorded := recordAllParams producerParams.pendingBlocks producedBlocks w.1.1.db
    match blocksProduced Server.pool.beside.beside producerParams producedBlocks w with
    | .ok _ t => t.1.1.db.ethBlock = recorded.ethBlock ∧ t.1.2 = w.1.2 ∧ t.2 = w.2
    | .error _ t => leave t = leave w ∨
        t.1.1.db.ethBlock = recorded.ethBlock ∧ t.1.2 = w.1.2 ∧ t.2 = w.2 := by
  intro recorded
  have hfirst := transaction_run (fun db => .ok ((),
    recordAllParams producerParams.pendingBlocks producedBlocks db)) w
  rw [blocksProduced]
  simp only [bind, EStateM.bind]
  split at hfirst
  · next a u h =>
    obtain ⟨hf, hgeth, hcalls⟩ := hfirst
    injection hf with hf
    injection hf with _ hdb
    have hsecond := transaction_run (TransactionStorage.blocksProduced
      producerParams.pendingBlocks producedBlocks) u
    rw [hgeth, hcalls] at hsecond
    simp only [h]
    split at hsecond
    · next b t h' =>
      rw [h']
      refine ⟨?_, hsecond.2⟩
      show t.1.1.db.ethBlock = _
      rw [blocksProduced_ethBlock hsecond.1, ← hdb]
    · next e t h' =>
      rw [h']
      have hdb' : t.1.1.db = u.1.1.db := congrArg ProductionState.db hsecond
      refine Or.inr ⟨?_, (congrArg ProductionState.geth hsecond).trans hgeth,
        (congrArg ProductionState.calls hsecond).trans hcalls⟩
      rw [hdb', ← hdb]
  · next e u h =>
    simp only [h]
    exact Or.inl hfirst

end PgStorage

end RomeSdk
