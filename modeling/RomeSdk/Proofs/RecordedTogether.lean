import RomeSdk.Lib.Effect
import RomeSdk.PgStorage.EthereumBlockStorage
import RomeSdk.Proofs.LogIndices

/-!
# Blocks and receipts that are recorded one after the other

`blocks_produced` sets the parameters of eth blocks in one database transaction
and the parameters of their receipts in a second one. A database is *recorded
together* when the blocks with parameters are those whose transactions all have
them as well. The first transaction alone breaks this for every block it
touches, and nothing repairs it: a block with parameters is not pending any
more. So what the call leaves behind depends on whether the second transaction
is reached and ends, and if it is, on whether the pending blocks handed over
list the transactions that are stored.
-/

namespace RomeSdk

namespace Db

variable {block : Type}

/-- The block is stored and has parameters. -/
def isProduced (db : Db block) (id : EthBlockId) : Bool :=
  (db.ethBlock.lookup id).any fun header => header.params.isSome

/-- The transaction has receipt parameters in the slot. -/
def hasReceipt (db : Db block) (slotNumber : Slot) (hash : TxHash) : Bool :=
  (db.evmTxResult.lookup (slotNumber, hash)).any fun row => row.receiptParams.isSome

/-- A block has parameters if and only if all its transactions do. -/
def RecordedTogether (db : Db block) : Prop :=
  ∀ id ∈ db.ethBlock, db.isProduced id = true ↔
    ∀ hash, (id, hash) ∈ db.ethBlockTxs → db.hasReceipt id.1 hash = true

end Db

namespace PgStorage

variable {block : Type} {pendingBlocks : PendingBlocks}

/-! ## The first transaction -/

/-- A produced block that was pending. -/
def HandedOver (pendingBlocks : PendingBlocks) (producedBlocks : ProducedBlocks)
    (id : EthBlockId) : Prop :=
  pendingBlocks.contains id.1 id.2 = true ∧
    ∃ blockParams, (id.1, id.2, blockParams) ∈ producedBlocks.iter

theorem mem_setParams {db : Db block} {id id' : EthBlockId} {blockParams : BlockParams} :
    id' ∈ (setParams id blockParams db).ethBlock ↔ id' ∈ db.ethBlock := by
  rw [← AList.lookup_isSome, ← AList.lookup_isSome, setParams, HashMap.lookup_filterMap]
  cases db.ethBlock.lookup id' with
  | none => rfl
  | some header =>
      show (ite _ _ _ : Option EthBlockHeader).isSome = true ↔ _
      split <;> simp

theorem isProduced_setParams {db : Db block} {id id' : EthBlockId} {blockParams : BlockParams} :
    (setParams id blockParams db).isProduced id' = true ↔
      db.isProduced id' = true ∨ (id' = id ∧ id' ∈ db.ethBlock) := by
  rw [← AList.lookup_isSome, Db.isProduced, Db.isProduced, setParams, HashMap.lookup_filterMap]
  cases db.ethBlock.lookup id' with
  | none => simp
  | some header =>
      by_cases hid : id' = id
      · cases hparams : header.params with
        | none => simp [hid, hparams]
        | some params => simp [hid, hparams]
      · simp [hid]

theorem mem_recordParams {db : Db block} {e : Slot × Nat × BlockParams} {id : EthBlockId} :
    id ∈ (recordParams pendingBlocks db e).ethBlock ↔ id ∈ db.ethBlock := by
  rw [recordParams]
  split
  · exact mem_setParams
  · rfl

theorem isProduced_recordParams {db : Db block} {e : Slot × Nat × BlockParams} {id : EthBlockId} :
    (recordParams pendingBlocks db e).isProduced id = true ↔
      db.isProduced id = true ∨
        (pendingBlocks.contains e.1 e.2.1 = true ∧ id = (e.1, e.2.1) ∧ id ∈ db.ethBlock) := by
  rw [recordParams]
  split
  · next hpending => rw [isProduced_setParams, hpending]; simp
  · next hpending => simp [hpending]

/-- The first transaction gives parameters to the stored blocks that are handed over. -/
theorem recordParams_foldl (l : List (Slot × Nat × BlockParams)) : ∀ db : Db block,
    (∀ id, id ∈ (l.foldl (recordParams pendingBlocks) db).ethBlock ↔ id ∈ db.ethBlock) ∧
    ∀ id, (l.foldl (recordParams pendingBlocks) db).isProduced id = true ↔
      db.isProduced id = true ∨ (id ∈ db.ethBlock ∧
        pendingBlocks.contains id.1 id.2 = true ∧ ∃ blockParams, (id.1, id.2, blockParams) ∈ l) := by
  induction l with
  | nil => intro db; simp
  | cons e l ih =>
      intro db
      obtain ⟨hmem, hproduced⟩ := ih (recordParams pendingBlocks db e)
      refine ⟨fun id => ?_, fun id => ?_⟩
      · rw [List.foldl_cons, hmem, mem_recordParams]
      · rw [List.foldl_cons, hproduced, isProduced_recordParams, mem_recordParams]
        obtain ⟨slotNumber, blockIdx, params⟩ := e
        obtain ⟨s, i⟩ := id
        simp only [List.mem_cons, Prod.mk.injEq]
        grind

theorem recordAllParams_spec (pendingBlocks : PendingBlocks) (producedBlocks : ProducedBlocks)
    (db : Db block) :
    (∀ id, id ∈ (recordAllParams pendingBlocks producedBlocks db).ethBlock ↔ id ∈ db.ethBlock) ∧
    ∀ id, (recordAllParams pendingBlocks producedBlocks db).isProduced id = true ↔
      db.isProduced id = true ∨
        (id ∈ db.ethBlock ∧ HandedOver pendingBlocks producedBlocks id) :=
  recordParams_foldl producedBlocks.iter db

/-- It leaves the other tables alone. -/
theorem recordAllParams_rest (pendingBlocks : PendingBlocks) (producedBlocks : ProducedBlocks)
    (db : Db block) :
    (recordAllParams pendingBlocks producedBlocks db).evmTxResult = db.evmTxResult ∧
      (recordAllParams pendingBlocks producedBlocks db).ethBlockTxs = db.ethBlockTxs := by
  rw [recordAllParams]
  generalize producedBlocks.iter = l
  induction l generalizing db with
  | nil => exact ⟨rfl, rfl⟩
  | cons e l ih =>
      have hrest : (recordParams pendingBlocks db e).evmTxResult = db.evmTxResult ∧
          (recordParams pendingBlocks db e).ethBlockTxs = db.ethBlockTxs := by
        rw [recordParams]
        split <;> exact ⟨rfl, rfl⟩
      rw [List.foldl_cons, (ih _).1, (ih _).2, hrest.1, hrest.2]
      exact ⟨rfl, rfl⟩

/-! ## The second transaction -/

/-- A handed-over block of the slot lists the transaction. -/
def Listed (pendingBlocks : PendingBlocks) (producedBlocks : ProducedBlocks) (slotNumber : Slot)
    (hash : TxHash) : Prop :=
  ∃ blockIdx blockParams pendingBlock,
    (slotNumber, blockIdx, blockParams) ∈ producedBlocks.iter ∧
      pendingBlocks.get slotNumber blockIdx = some pendingBlock ∧
      ∃ e ∈ pendingBlock.transactions.toList, e.2.1.hash = hash

/-- The gas or the logs of a handed-over block do not fit a word. -/
def Overflows (pendingBlocks : PendingBlocks) (producedBlocks : ProducedBlocks) : Prop :=
  ∃ slotNumber blockIdx blockParams pendingBlock,
    (slotNumber, blockIdx, blockParams) ∈ producedBlocks.iter ∧
      pendingBlocks.get slotNumber blockIdx = some pendingBlock ∧
      ∃ e, TransactionStorage.blockReceipts blockParams pendingBlock.transactions.toList 0 0
        = .error e

theorem hasReceipt_setReceiptParams {db : Db block} {slotNumber slot : Slot} {hash hash' : TxHash}
    {receiptParams : ReceiptParams} :
    (TransactionStorage.setReceiptParams slotNumber hash receiptParams db).hasReceipt slot hash'
        = true ↔
      db.hasReceipt slot hash' = true ∨
        ((slot, hash') = (slotNumber, hash) ∧ (slot, hash') ∈ db.evmTxResult) := by
  rw [← AList.lookup_isSome, Db.hasReceipt, Db.hasReceipt, TransactionStorage.setReceiptParams,
    HashMap.lookup_filterMap]
  cases db.evmTxResult.lookup (slot, hash') with
  | none => simp
  | some row =>
      by_cases hkey : (slot, hash') = (slotNumber, hash)
      · simp [hkey]
      · simp [hkey]

theorem mem_setReceiptParams {db : Db block} {slotNumber : Slot} {hash : TxHash}
    {receiptParams : ReceiptParams} {key : Slot × TxHash} :
    key ∈ (TransactionStorage.setReceiptParams slotNumber hash receiptParams db).evmTxResult ↔
      key ∈ db.evmTxResult := by
  rw [← AList.lookup_isSome, ← AList.lookup_isSome, TransactionStorage.setReceiptParams,
    HashMap.lookup_filterMap]
  cases db.evmTxResult.lookup key with
  | none => rfl
  | some row =>
      show (ite _ _ _ : Option EvmTxResult).isSome = true ↔ _
      split <;> simp

/-- What is written for a block is written for each of its transactions. -/
theorem blockReceipts_hashes {blockParams : BlockParams}
    {transactions : List (Nat × Transaction × TxResult)} : ∀ {gasUsed logIndex : U256}
      {written : List (Transaction × TxResult × ReceiptParams)},
      TransactionStorage.blockReceipts blockParams transactions gasUsed logIndex = .ok written →
      written.map Prod.fst = transactions.map fun e => e.2.1 := by
  induction transactions with
  | nil =>
      intro gasUsed logIndex written h
      cases h
      rfl
  | cons e transactions ih =>
      intro gasUsed logIndex written h
      obtain ⟨first, rest, _, _, rfl, _, _, _, hrest⟩ := TransactionStorage.blockReceipts_cons h
      rw [List.map_cons, List.map_cons, ih hrest]

/-- The tables the second transaction does not touch. -/
structure SameBlocks (db db' : Db block) : Prop where
  ethBlock : db'.ethBlock = db.ethBlock
  ethBlockTxs : db'.ethBlockTxs = db.ethBlockTxs
  results : ∀ key, key ∈ db'.evmTxResult ↔ key ∈ db.evmTxResult

theorem SameBlocks.refl (db : Db block) : SameBlocks db db := ⟨rfl, rfl, fun _ => Iff.rfl⟩

theorem SameBlocks.trans {db₁ db₂ db₃ : Db block} (h : SameBlocks db₁ db₂)
    (h' : SameBlocks db₂ db₃) : SameBlocks db₁ db₃ :=
  ⟨h'.ethBlock.trans h.ethBlock, h'.ethBlockTxs.trans h.ethBlockTxs,
    fun key => (h'.results key).trans (h.results key)⟩

/-- The writes of one block. -/
theorem setReceiptParams_foldl (slotNumber : Slot)
    (written : List (Transaction × TxResult × ReceiptParams)) : ∀ db : Db block,
    let db' := written.foldl (fun db r =>
      TransactionStorage.setReceiptParams slotNumber r.1.hash r.2.2 db) db
    SameBlocks db db' ∧ ∀ slot hash, db'.hasReceipt slot hash = true ↔
      db.hasReceipt slot hash = true ∨ (slot = slotNumber ∧ (slot, hash) ∈ db.evmTxResult ∧
        ∃ tx ∈ written.map Prod.fst, tx.hash = hash) := by
  induction written with
  | nil => intro db; exact ⟨SameBlocks.refl db, by simp⟩
  | cons r written ih =>
      intro db
      obtain ⟨hsame, hreceipt⟩ :=
        ih (TransactionStorage.setReceiptParams slotNumber r.1.hash r.2.2 db)
      have hfirst : SameBlocks db (TransactionStorage.setReceiptParams slotNumber r.1.hash r.2.2 db) :=
        ⟨rfl, rfl, fun _ => mem_setReceiptParams⟩
      refine ⟨hfirst.trans hsame, fun slot hash => ?_⟩
      rw [List.foldl_cons, hreceipt, hasReceipt_setReceiptParams, mem_setReceiptParams]
      simp only [Prod.mk.injEq, List.map_cons, List.mem_cons]
      grind

theorem blockProduced_spec {db db' : Db block} {e : Slot × Nat × BlockParams}
    (h : TransactionStorage.blockProduced pendingBlocks db e = (db', .ok ())) :
    SameBlocks db db' ∧ ∀ slot hash, db'.hasReceipt slot hash = true ↔
      db.hasReceipt slot hash = true ∨ (slot = e.1 ∧ (slot, hash) ∈ db.evmTxResult ∧
        ∃ pendingBlock, pendingBlocks.get e.1 e.2.1 = some pendingBlock ∧
          ∃ t ∈ pendingBlock.transactions.toList, t.2.1.hash = hash) := by
  rw [TransactionStorage.blockProduced] at h
  split at h
  · next hnone =>
      cases h
      exact ⟨SameBlocks.refl db, by simp [hnone]⟩
  · next pendingBlock hsome =>
      split at h
      · cases h
      · next written hwritten =>
          cases h
          obtain ⟨hsame, hreceipt⟩ := setReceiptParams_foldl e.1 written db
          refine ⟨hsame, fun slot hash => ?_⟩
          rw [hreceipt, blockReceipts_hashes hwritten, hsome]
          simp only [List.mem_map, Option.some.injEq, exists_eq_left', exists_exists_and_eq_and]

theorem blockProduced_loop (l : List (Slot × Nat × BlockParams)) : ∀ {db db' : Db block},
    forTry (TransactionStorage.blockProduced pendingBlocks) l db = (db', .ok ()) →
    SameBlocks db db' ∧ ∀ slot hash, db'.hasReceipt slot hash = true ↔
      db.hasReceipt slot hash = true ∨ ((slot, hash) ∈ db.evmTxResult ∧
        ∃ blockIdx blockParams pendingBlock, (slot, blockIdx, blockParams) ∈ l ∧
          pendingBlocks.get slot blockIdx = some pendingBlock ∧
          ∃ t ∈ pendingBlock.transactions.toList, t.2.1.hash = hash) := by
  induction l with
  | nil =>
      intro db db' h
      cases h
      exact ⟨SameBlocks.refl db, by simp⟩
  | cons e l ih =>
      intro db db' h
      obtain ⟨db₁, hfirst, hrest⟩ := forTry_cons_inv h
      obtain ⟨hsame, hreceipt⟩ := blockProduced_spec hfirst
      obtain ⟨hsame', hreceipt'⟩ := ih hrest
      refine ⟨hsame.trans hsame', fun slot hash => ?_⟩
      rw [hreceipt', hreceipt, hsame.results]
      obtain ⟨slotNumber, blockIdx, params⟩ := e
      simp only [List.mem_cons, Prod.mk.injEq]
      constructor
      · rintro ((h | ⟨rfl, hrow, b, hget, ht⟩) | ⟨hrow, i, p, b, hl, hget, ht⟩)
        · exact Or.inl h
        · exact Or.inr ⟨hrow, _, params, b, Or.inl ⟨rfl, rfl, rfl⟩, hget, ht⟩
        · exact Or.inr ⟨hrow, i, p, b, Or.inr hl, hget, ht⟩
      · rintro (h | ⟨hrow, i, p, b, (⟨rfl, rfl, rfl⟩ | hl), hget, ht⟩)
        · exact Or.inl (Or.inl h)
        · exact Or.inl (Or.inr ⟨rfl, hrow, b, hget, ht⟩)
        · exact Or.inr ⟨hrow, i, p, b, hl, hget, ht⟩

/-- The second transaction ends if nothing overflows. -/
theorem blocksProduced_ends {producedBlocks : ProducedBlocks} (db : Db block)
    (h : ¬ Overflows pendingBlocks producedBlocks) :
    ∃ db', TransactionStorage.blocksProduced pendingBlocks producedBlocks db = .ok ((), db') := by
  rcases forTry_split (TransactionStorage.blockProduced pendingBlocks) producedBlocks.iter db with
    ⟨db', hrun⟩ | ⟨done, e, rest, db₁, db₂, err, hl, _, hstop, _⟩
  · refine ⟨db', ?_⟩
    rw [TransactionStorage.blocksProduced, hrun]
  · exfalso
    refine h ⟨e.1, e.2.1, e.2.2, ?_⟩
    have hmem : (e.1, e.2.1, e.2.2) ∈ producedBlocks.iter := by
      rw [hl]
      exact List.mem_append_right _ (List.mem_cons_self ..)
    rw [TransactionStorage.blockProduced] at hstop
    split at hstop
    · cases hstop
    · next pendingBlock hsome =>
        split at hstop
        · next err' hwritten => exact ⟨pendingBlock, hmem, hsome, err', hwritten⟩
        · cases hstop

theorem blocksProduced_fails {producedBlocks : ProducedBlocks} (db : Db block)
    (h : Overflows pendingBlocks producedBlocks) :
    ∃ e, TransactionStorage.blocksProduced pendingBlocks producedBlocks db = .error e := by
  obtain ⟨slotNumber, blockIdx, blockParams, pendingBlock, hmem, hget, e, hwritten⟩ := h
  rw [TransactionStorage.blocksProduced]
  split
  · next db' hrun =>
      obtain ⟨db₁, db₂, hbody⟩ := forTry_body_ok hrun _ hmem
      rw [TransactionStorage.blockProduced] at hbody
      simp only [hget, hwritten] at hbody
      cases hbody
  · next err hrun => exact ⟨err, rfl⟩

/-! ## Both -/

/-- A stored block without parameters is handed over. -/
def NewlyProduced (pendingBlocks : PendingBlocks) (producedBlocks : ProducedBlocks)
    (db : Db block) : Prop :=
  ∃ id ∈ db.ethBlock, db.isProduced id = false ∧ HandedOver pendingBlocks producedBlocks id

/-- The pending blocks handed over are those that are stored: of the stored blocks
without parameters, those handed over are those whose transactions are listed or
have their receipts. -/
def HandsOverStored (pendingBlocks : PendingBlocks) (producedBlocks : ProducedBlocks)
    (db : Db block) : Prop :=
  ∀ id ∈ db.ethBlock, db.isProduced id = false →
    (HandedOver pendingBlocks producedBlocks id ↔ ∀ hash, (id, hash) ∈ db.ethBlockTxs →
      db.hasReceipt id.1 hash = true ∨
        ((id.1, hash) ∈ db.evmTxResult ∧ Listed pendingBlocks producedBlocks id.1 hash))

/-- When `blocks_produced` keeps blocks and receipts together: it is stopped before
it did anything, or it hands over no new block, or it is not stopped and hands over
what is stored. -/
def KeepsTogether (producerParams : ProducerParams) (producedBlocks : ProducedBlocks)
    (w : Server block) : Prop :=
  let pendingBlocks := producerParams.pendingBlocks
  w.fault 0 ≠ none ∨
    ((w.fault 1 ≠ none ∨ Overflows pendingBlocks producedBlocks) ∧
      ¬ NewlyProduced pendingBlocks producedBlocks w.db) ∨
    (w.fault 1 = none ∧ ¬ Overflows pendingBlocks producedBlocks ∧
      HandsOverStored pendingBlocks producedBlocks w.db)

/-- The call keeps blocks and receipts together, and one that fails produces no block. -/
def Together (producerParams : ProducerParams) (producedBlocks : ProducedBlocks)
    (w : Server block) : Prop :=
  let db' := (EStateM.after (blocksProduced Server.pool producerParams producedBlocks) w).db
  db'.RecordedTogether ∧
    ((∃ e w', blocksProduced Server.pool producerParams producedBlocks w = .error e w') →
      ∀ id, db'.isProduced id = w.db.isProduced id)

section

variable {producedBlocks : ProducedBlocks} {db : Db block}

theorem isProduced_recordAllParams (hnew : ¬ NewlyProduced pendingBlocks producedBlocks db)
    (id : EthBlockId) :
    (recordAllParams pendingBlocks producedBlocks db).isProduced id = db.isProduced id := by
  have hspec := (recordAllParams_spec pendingBlocks producedBlocks db).2 id
  cases hdb : db.isProduced id with
  | true => exact hspec.mpr (Or.inl hdb)
  | false =>
      rw [Bool.eq_false_iff]
      intro hafter
      rcases hspec.mp hafter with h | ⟨hmem, hover⟩
      · rw [hdb] at h
        cases h
      · exact hnew ⟨id, hmem, hdb, hover⟩

/-- After the first transaction alone. -/
theorem recordedTogether_first (h : db.RecordedTogether) :
    (recordAllParams pendingBlocks producedBlocks db).RecordedTogether ↔
      ¬ NewlyProduced pendingBlocks producedBlocks db := by
  obtain ⟨hmem, hproduced⟩ := recordAllParams_spec pendingBlocks producedBlocks db
  obtain ⟨hresults, htxs⟩ := recordAllParams_rest pendingBlocks producedBlocks db
  have hreceipts : ∀ slot hash,
      (recordAllParams pendingBlocks producedBlocks db).hasReceipt slot hash
        = db.hasReceipt slot hash := by
    intro slot hash
    rw [Db.hasReceipt, hresults, Db.hasReceipt]
  constructor
  · intro hafter hnew
    obtain ⟨id, hid, hnot, hover⟩ := hnew
    have hall := (hafter id ((hmem id).mpr hid)).mp ((hproduced id).mpr (Or.inr ⟨hid, hover⟩))
    have hbefore : db.isProduced id = true := by
      refine (h id hid).mpr fun hash htx => ?_
      rw [← hreceipts]
      exact hall hash (htxs ▸ htx)
    rw [hnot] at hbefore
    cases hbefore
  · intro hnew id hid
    rw [isProduced_recordAllParams hnew, htxs]
    simp only [hreceipts]
    exact h id ((hmem id).mp hid)

/-- After both. -/
theorem recordedTogether_second (h : db.RecordedTogether) {db' : Db block}
    (hrun : TransactionStorage.blocksProduced pendingBlocks producedBlocks
      (recordAllParams pendingBlocks producedBlocks db) = .ok ((), db')) :
    db'.RecordedTogether ↔ HandsOverStored pendingBlocks producedBlocks db := by
  obtain ⟨hmem, hproduced⟩ := recordAllParams_spec pendingBlocks producedBlocks db
  obtain ⟨hresults, htxs⟩ := recordAllParams_rest pendingBlocks producedBlocks db
  obtain ⟨hsame, hreceipts⟩ := blockProduced_loop _ (TransactionStorage.blocksProduced_loop hrun)
  have hmem' : ∀ id, id ∈ db'.ethBlock ↔ id ∈ db.ethBlock := by
    intro id
    rw [hsame.ethBlock, hmem]
  have hproduced' : ∀ id, db'.isProduced id = true ↔ db.isProduced id = true ∨
      (id ∈ db.ethBlock ∧ HandedOver pendingBlocks producedBlocks id) := by
    intro id
    rw [Db.isProduced, hsame.ethBlock]
    exact hproduced id
  have hreceipts' : ∀ slot hash, db'.hasReceipt slot hash = true ↔
      db.hasReceipt slot hash = true ∨
        ((slot, hash) ∈ db.evmTxResult ∧ Listed pendingBlocks producedBlocks slot hash) := by
    intro slot hash
    rw [hreceipts, hresults, Db.hasReceipt, hresults]
    rfl
  constructor
  · intro hafter id hid hnot
    have hat := hafter id ((hmem' id).mpr hid)
    rw [hproduced', hnot, hsame.ethBlockTxs, htxs] at hat
    simp only [hreceipts', hid, true_and, Bool.false_eq_true, false_or] at hat
    exact hat
  · intro hover id hid
    have hid := (hmem' id).mp hid
    rw [hproduced', hsame.ethBlockTxs, htxs]
    simp only [hreceipts']
    cases hdb : db.isProduced id with
    | true =>
        have hall := (h id hid).mp hdb
        exact ⟨fun _ hash htx => Or.inl (hall hash htx), fun _ => Or.inl rfl⟩
    | false =>
        rw [← hover id hid hdb]
        simp [hid]

end

/-- Blocks and their receipts stay together through `blocks_produced` exactly in
these cases. -/
theorem blocks_produced_together_iff (producerParams : ProducerParams)
    (producedBlocks : ProducedBlocks) (w : Server block) (h : w.db.RecordedTogether) :
    Together producerParams producedBlocks w ↔
      KeepsTogether producerParams producedBlocks w := by
  rw [Together, KeepsTogether]
  simp only [EStateM.after]
  rcases hfirst : w.fault 0 with _ | e
  · have hrun₁ := Server.transaction_go hfirst fun db : Db block =>
      .ok ((), recordAllParams producerParams.pendingBlocks producedBlocks db)
    generalize hw : (⟨recordAllParams producerParams.pendingBlocks producedBlocks w.db,
      w.faults.tail⟩ : Server block) = w₁ at hrun₁
    have hsecond : w₁.fault 0 = w.fault 1 := by
      rw [← hw]
      exact Server.fault_tail _ w 0
    have hdb : w₁.db = recordAllParams producerParams.pendingBlocks producedBlocks w.db := by
      rw [← hw]
    have hrun : blocksProduced Server.pool producerParams producedBlocks w
        = Server.pool.transaction (TransactionStorage.blocksProduced producerParams.pendingBlocks
            producedBlocks) w₁ := by
      rw [blocksProduced]
      simp only [bind, EStateM.bind, hrun₁]
      rw [hw]
    rw [hrun]
    rcases hfault : w.fault 1 with _ | e
    · rw [hfault] at hsecond
      rw [Server.transaction_go hsecond, hdb]
      by_cases hover : Overflows producerParams.pendingBlocks producedBlocks
      · obtain ⟨e, herr⟩ := blocksProduced_fails
          (recordAllParams producerParams.pendingBlocks producedBlocks w.db) hover
        rw [herr]
        simp only [recordedTogether_first h, hover, ne_eq, not_true_eq_false, false_or, true_and,
          false_and, or_false]
        exact ⟨fun hboth => hboth.1, fun hnew => ⟨hnew, fun _ => isProduced_recordAllParams hnew⟩⟩
      · obtain ⟨db', hok⟩ := blocksProduced_ends
          (recordAllParams producerParams.pendingBlocks producedBlocks w.db) hover
        rw [hok]
        simp only [recordedTogether_second h hok, hover, ne_eq, not_true_eq_false, false_or,
          false_and, not_false_eq_true, true_and, reduceCtorEq, exists_false, false_implies,
          and_true]
    · rw [hfault] at hsecond
      rw [Server.transaction_fault hsecond, hdb]
      simp only [recordedTogether_first h, ne_eq, not_true_eq_false, false_or, reduceCtorEq,
        not_false_eq_true, true_or, true_and, false_and, or_false]
      exact ⟨fun hboth => hboth.1, fun hnew => ⟨hnew, fun _ => isProduced_recordAllParams hnew⟩⟩
  · have hrun : blocksProduced Server.pool producerParams producedBlocks w
        = .error e { w with faults := w.faults.tail } := by
      rw [blocksProduced]
      simp only [bind, EStateM.bind, Server.transaction_fault hfirst]
    rw [hrun]
    simp [h]

/-! ## A block whose receipts are never written -/

/-- One stored block, which is pending, with its transaction. -/
def pendingDb : Db Unit :=
  { (Db.empty : Db Unit) with
    ethBlock := (∅ : HashMap EthBlockId EthBlockHeader).insert (7, 0) ⟨0, none, some 0, none⟩
    ethBlockTxs := (∅ : HashMap (EthBlockId × TxHash) Nat).insert ((7, 0), 1) 0
    evmTxResult := (∅ : HashMap (Slot × TxHash) EvmTxResult).insert (7, 1) ⟨.default, none⟩ }

def pendingParams : ProducerParams :=
  ⟨none, none, TransactionStorage.pendingAt (TransactionStorage.pendingWith [])⟩

theorem pendingDb_together : pendingDb.RecordedTogether := by
  intro id hid
  have hkey : id = (7, 0) := by
    have hkeys : id ∈ pendingDb.ethBlock.entries.map Sigma.fst := hid
    exact List.mem_singleton.mp hkeys
  subst hkey
  constructor
  · intro hproduced
    exact absurd hproduced (by decide)
  · intro hall
    exact absurd (hall 1 (by decide)) (by decide)

/-- The connection is lost between the two transactions. -/
theorem produced_without_receipts :
    pendingDb.RecordedTogether ∧
    ¬ Together pendingParams TransactionStorage.producedAt
      ⟨pendingDb, [none, some (.err (.custom "connection lost"))]⟩ := by
  refine ⟨pendingDb_together, fun htogether => ?_⟩
  have hreceipt := (htogether.1 (7, 0) (by decide)).mp (by decide) 1 (by decide)
  exact absurd hreceipt (by decide)

theorem blocks_produced_together_stopped :
    Together pendingParams TransactionStorage.producedAt
        ⟨pendingDb, [some (.panic "stopped")]⟩ ↔
      KeepsTogether pendingParams TransactionStorage.producedAt
        ⟨pendingDb, [some (.panic "stopped")]⟩ :=
  blocks_produced_together_iff pendingParams TransactionStorage.producedAt
    ⟨pendingDb, [some (.panic "stopped")]⟩ pendingDb_together

end PgStorage

end RomeSdk
