import RomeSdk.Proofs.IndexedBatches
import RomeSdk.Proofs.RowOrder
import RomeSdk.Proofs.StoredBlocks

/-!
# What was sent is served

The database transactions of the storage come in any order: results are registered, blocks are
produced and recorded, a reorg cleans the slots from one on, the loader writes its own tables. A
transaction has a row for each slot it was registered in and that has not been cleaned since,
and `get_transaction` answers with the transaction, at some place, while there is such a slot.
With results that are made of what ran in the slots of a chain, this is the transaction that
was sent.
-/

namespace RomeSdk

/-- The result has a transaction of this hash. -/
def BlockParseResult.Shows (result : BlockParseResult) (hash : TxHash) : Prop :=
  ∃ e ∈ result.transactions, e.1.hash = hash

namespace PgStorage

open TransactionStorage

variable {block : Type} {X : StorageCrates} {db db' : Db block} {slot : Slot} {hash : TxHash}
  {tx : Transaction} {tr : List (Db block × StorageAction)} {a : StorageAction}

/-! ## Rows -/

/-- Some results register the hash in the slot. -/
def Registers (parseResults : BTreeMap Slot BlockParseResult) (slot : Slot) (hash : TxHash) :
    Prop :=
  ∃ e ∈ parseResults.toList, e.2.slotNumber = slot ∧ e.2.Shows hash

/-- Such results were registered, and the slot has not been cleaned since. -/
def Stands (registers : BTreeMap Slot BlockParseResult → Prop) (slot : Slot)
    (tr : List (Db block × StorageAction)) : Prop :=
  ∃ before s parseResults after, tr = before ++ (s, .registerTransactions parseResults) :: after ∧
    registers parseResults ∧
    ∀ e ∈ after, ∀ fromSlot : Slot, e.2 = .cleanFromSlot fromSlot → slot < fromSlot

variable {registers registers' : BTreeMap Slot BlockParseResult → Prop}

theorem Stands.mono (h : Stands registers slot tr)
    (himp : ∀ s parseResults, (s, .registerTransactions parseResults) ∈ tr →
      registers parseResults → registers' parseResults) : Stands registers' slot tr := by
  obtain ⟨before, s, parseResults, after, rfl, hregisters, hafter⟩ := h
  exact ⟨before, s, parseResults, after, rfl, himp s parseResults (by simp) hregisters, hafter⟩

theorem stands_append {s : Db block} : Stands registers slot (tr ++ [(s, a)]) ↔
    (Stands registers slot tr ∧ ∀ fromSlot : Slot, a = .cleanFromSlot fromSlot → slot < fromSlot) ∨
      ∃ parseResults, a = .registerTransactions parseResults ∧ registers parseResults := by
  constructor
  · intro h
    obtain ⟨before, s', parseResults, after, htr, hregisters, hafter⟩ := h
    rcases List.eq_nil_or_concat after with rfl | ⟨after, last, rfl⟩
    · obtain ⟨_, hlast⟩ := List.append_inj' htr rfl
      cases hlast
      exact .inr ⟨parseResults, rfl, hregisters⟩
    · rw [List.concat_eq_append, ← List.cons_append, ← List.append_assoc] at htr
      obtain ⟨rfl, hlast⟩ := List.append_inj' htr rfl
      cases hlast
      refine .inl ⟨⟨before, s', parseResults, after, rfl, hregisters, fun e he => ?_⟩, ?_⟩
      · exact hafter e (by simp [he])
      · exact hafter (s, a) (by simp)
  · intro h
    rcases h with ⟨hstands, hkept⟩ | ⟨parseResults, rfl, hregisters⟩
    · obtain ⟨before, s', parseResults, after, rfl, hregisters, hafter⟩ := hstands
      refine ⟨before, s', parseResults, after ++ [(s, a)], by simp, hregisters, fun e he => ?_⟩
      rcases List.mem_append.mp he with he | he
      · exact hafter e he
      · rw [List.mem_singleton.mp he]
        exact hkept
    · refine ⟨tr, s, parseResults, [], rfl, hregisters, fun e he => ?_⟩
      cases he

theorem mem_registerTransaction {slotNumber : Slot} {e : Transaction × TxResult}
    (h : registerTransaction X slotNumber db e = (db', .ok ())) :
    (slot, hash) ∈ db'.evmTxResult ↔
      (slot, hash) ∈ db.evmTxResult ∨ slotNumber = slot ∧ e.1.hash = hash := by
  simp only [registerTransaction] at h
  split at h
  · next hold =>
      cases h
      refine ⟨.inl, fun hmem => ?_⟩
      rcases hmem with hmem | ⟨rfl, rfl⟩
      · exact hmem
      · exact hold
  · split at h
    · cases h
      rw [← AList.lookup_isSome, ← AList.lookup_isSome, HashMap.lookup_insertIfNew]
      split
      · next heq =>
          cases heq
          simp
      · next hne =>
          refine ⟨.inl, fun hmem => ?_⟩
          rcases hmem with hmem | ⟨rfl, rfl⟩
          · exact hmem
          · exact absurd rfl hne
    · cases h

theorem mem_registerParseResults {parseResults : BTreeMap Slot BlockParseResult}
    (h : TransactionStorage.registerParseResults X parseResults db = .ok ((), db')) :
    (slot, hash) ∈ db'.evmTxResult ↔
      (slot, hash) ∈ db.evmTxResult ∨ Registers parseResults slot hash := by
  have hloop := registerParseResults_loop h
  have hrounds : ∀ (l : List (Slot × Transaction × TxResult)) {db db' : Db block},
      forTry (fun db (e : Slot × Transaction × TxResult) => registerTransaction X e.1 db e.2) l db
        = (db', .ok ()) →
      ((slot, hash) ∈ db'.evmTxResult ↔
        (slot, hash) ∈ db.evmTxResult ∨ ∃ e ∈ l, e.1 = slot ∧ e.2.1.hash = hash) := by
    intro l
    induction l with
    | nil =>
        intro db db' hend
        cases hend
        simp
    | cons e l ih =>
        intro db db' hend
        obtain ⟨db₁, hfirst, hrest⟩ := forTry_cons_inv hend
        rw [ih hrest, mem_registerTransaction hfirst, List.exists_mem_cons_iff, or_assoc]
  rw [hrounds _ hloop]
  refine or_congr_right ⟨?_, ?_⟩
  · intro hentry
    obtain ⟨e, he, hslot, hhash⟩ := hentry
    obtain ⟨r, hr, he⟩ := List.mem_flatMap.mp he
    obtain ⟨t, ht, rfl⟩ := List.mem_map.mp he
    exact ⟨r, hr, hslot, t, ht, hhash⟩
  · intro hregisters
    obtain ⟨r, hr, hslot, t, ht, hhash⟩ := hregisters
    exact ⟨_, List.mem_flatMap.mpr ⟨r, hr, List.mem_map.mpr ⟨t, ht, rfl⟩⟩, hslot, hhash⟩

/-- A step adds the rows that are registered and takes those of the slots that are cleaned. -/
theorem mem_storageStep (hstep : storageStep X db a db') :
    (slot, hash) ∈ db'.evmTxResult ↔
      ((slot, hash) ∈ db.evmTxResult ∧
        ∀ fromSlot : Slot, a = .cleanFromSlot fromSlot → slot < fromSlot) ∨
      ∃ parseResults, a = .registerTransactions parseResults ∧
        Registers parseResults slot hash := by
  cases a with
  | registerTransactions parseResults =>
      rw [mem_registerParseResults hstep]
      simp
  | storeEthBlocks parseResults =>
      rw [show db'.evmTxResult = db.evmTxResult from
        congrArg Prod.snd (storeEthBlocks_txRows hstep)]
      simp
  | recordParams pendingBlocks producedBlocks =>
      cases hstep
      rw [(recordAllParams_rest pendingBlocks producedBlocks db).1]
      simp
  | recordReceipts pendingBlocks producedBlocks =>
      rw [(blockProduced_loop _ (blocksProduced_loop hstep)).1.results]
      simp
  | cleanFromSlot fromSlot =>
      cases hstep
      rw [cleanFromSlot, ← AList.lookup_isSome, ← AList.lookup_isSome, HashMap.lookup_filterMap]
      cases db.evmTxResult.lookup (slot, hash) with
      | none => simp
      | some row =>
          by_cases hle : fromSlot ≤ slot
          · simp [hle]
          · simp [hle, Nat.lt_of_not_le hle]
  | solana =>
      obtain ⟨solSlot, solBlock, rfl⟩ := hstep
      simp

/-- The rows of a hash are the slots it stands in. -/
theorem run_rows (hrun : Machine.Run (storageMachine X) tr db) :
    ∀ slot hash, (slot, hash) ∈ db.evmTxResult ↔ Stands (Registers · slot hash) slot tr := by
  induction hrun with
  | start hinit =>
      intro slot hash
      cases hinit
      refine ⟨fun hmem => by simp [Db.empty] at hmem, fun hstands => ?_⟩
      obtain ⟨_, _, _, _, hnil, _⟩ := hstands
      simp at hnil
  | next _ hstep ih =>
      intro slot hash
      rw [mem_storageStep hstep, ih, stands_append]

/-! ## The rlp of a transaction -/

/-- What is registered under the hash of the transaction is the transaction. -/
def RegistersOnly (tx : Transaction) (_ : Db block) : StorageAction → Prop
  | .registerTransactions parseResults =>
      ∀ e ∈ parseResults.toList, ∀ t ∈ e.2.transactions, t.1.hash = tx.hash → t.1 = tx
  | _ => True

/-- What is stored under the hash is the rlp of the transaction, and it is where there is a row. -/
structure StoredAs (X : StorageCrates) (tx : Transaction) (db : Db block) : Prop where
  rlp : ∀ rlp, db.evmTx.lookup tx.hash = some rlp → rlp = X.rlp tx
  stored : ∀ slot : Slot, (slot, tx.hash) ∈ db.evmTxResult → tx.hash ∈ db.evmTx

theorem StoredAs.lookup (h : StoredAs X tx db) (hrow : (slot, tx.hash) ∈ db.evmTxResult) :
    db.evmTx.lookup tx.hash = some (X.rlp tx) := by
  obtain ⟨rlp, hrlp⟩ := HashMap.lookup_of_mem (h.stored slot hrow)
  have hlookup : db.evmTx.lookup tx.hash = some rlp := hrlp
  rw [hlookup, h.rlp rlp hlookup]

theorem registerTransaction_evmTx (slotNumber : Slot) (e : Transaction × TxResult) :
    (registerTransaction X slotNumber db e).1.evmTx =
      db.evmTx.insertIfNew e.1.hash (X.rlp e.1) := by
  simp only [registerTransaction]
  split
  · rfl
  · split <;> rfl

theorem StoredAs.register (h : StoredAs X tx db) (slotNumber : Slot)
    {e : Transaction × TxResult} (he : e.1.hash = tx.hash → e.1 = tx) :
    StoredAs X tx (registerTransaction X slotNumber db e).1 := by
  constructor
  · intro rlp hlookup
    rw [registerTransaction_evmTx, HashMap.lookup_insertIfNew] at hlookup
    split at hlookup
    · next hhash =>
        cases hold : db.evmTx.lookup e.1.hash with
        | none =>
            rw [hold] at hlookup
            cases hlookup
            rw [Option.getD_none, he hhash]
        | some old =>
            rw [hold] at hlookup
            cases hlookup
            exact h.rlp old (hhash ▸ hold)
    · exact h.rlp rlp hlookup
  · intro slot hmem
    rw [mem_evmTx_registerTransaction]
    by_cases hhash : tx.hash = e.1.hash
    · exact .inl hhash
    · refine .inr (h.stored slot ?_)
      have hne : (slotNumber, e.1.hash) ≠ (slot, tx.hash) := fun heq =>
        hhash (congrArg Prod.snd heq).symm
      have hsame := congrArg Option.isSome (registerTransaction_other (X := X) hne db)
      simp only [storedResult, Option.isSome_map] at hsame
      rw [← AList.lookup_isSome] at hmem ⊢
      exact hsame ▸ hmem

theorem StoredAs.of_rows (h : StoredAs X tx db) (htx : db'.evmTx = db.evmTx)
    (hrows : ∀ slot : Slot, (slot, tx.hash) ∈ db'.evmTxResult → (slot, tx.hash) ∈ db.evmTxResult) :
    StoredAs X tx db' := by
  constructor
  · rw [htx]
    exact h.rlp
  · intro slot hmem
    rw [htx]
    exact h.stored slot (hrows slot hmem)

theorem StoredAs.step (h : StoredAs X tx db) (ha : RegistersOnly tx db a)
    (hstep : storageStep X db a db') : StoredAs X tx db' := by
  have hkept (hne : ∀ parseResults, a ≠ .registerTransactions parseResults) (slot : Slot)
      (hmem : (slot, tx.hash) ∈ db'.evmTxResult) : (slot, tx.hash) ∈ db.evmTxResult := by
    rcases (mem_storageStep hstep).mp hmem with ⟨hrow, _⟩ | ⟨parseResults, hregister, _⟩
    · exact hrow
    · exact absurd hregister (hne parseResults)
  cases a with
  | registerTransactions parseResults =>
      refine forTry_kept (P := StoredAs X tx) (registerParseResults_loop hstep) ?_ h
      intro db₁ e he h₁
      obtain ⟨r, hr, he⟩ := List.mem_flatMap.mp he
      obtain ⟨t, ht, rfl⟩ := List.mem_map.mp he
      exact h₁.register _ (ha r hr t ht)
  | storeEthBlocks parseResults =>
      exact h.of_rows (congrArg Prod.fst (storeEthBlocks_txRows hstep)) (hkept (by simp))
  | recordParams pendingBlocks producedBlocks =>
      refine h.of_rows ?_ (hkept (by simp))
      cases hstep
      exact recordAllParams_evmTx _ _ db
  | recordReceipts pendingBlocks producedBlocks =>
      refine h.of_rows ?_ (hkept (by simp))
      refine forTry_kept (P := fun db₁ : Db block => db₁.evmTx = db.evmTx)
        (blocksProduced_loop hstep) (fun db₁ e _ h₁ => ?_) rfl
      rw [blockProduced_evmTx, h₁]
  | cleanFromSlot fromSlot =>
      refine h.of_rows ?_ (hkept (by simp))
      cases hstep
      rfl
  | solana =>
      refine h.of_rows ?_ (hkept (by simp))
      obtain ⟨solSlot, solBlock, rfl⟩ := hstep
      rfl

theorem run_storedAs (hrun : Machine.Run (storageMachine X) tr db)
    (hmeets : Machine.Meets (RegistersOnly tx) tr) : StoredAs X tx db := by
  refine hrun.invariant (I := StoredAs X tx) ?_ (fun s a t h ha hstep => h.step ha hstep) hmeets
  intro s hs
  cases hs
  exact ⟨fun rlp hlookup => by simp [Db.empty] at hlookup, fun slot hmem => by
    simp [Db.empty] at hmem⟩

/-! ## The answer -/

/-- A signed transaction that is accepted is read back from its rlp as it is. -/
theorem senderRecovered_rlpOf (hX : ReadsBack X) (htx : Accepted X tx)
    (hsigned : tx.transactionType ≠ some 0x7E) {row : TransactionRow} (hrow : row.rlp = X.rlp tx) :
    senderRecovered X tx.hash none row = .ok tx := by
  obtain ⟨decoded, hdecode, _, _, _, heq⟩ := htx.decoded hX tx.hash
  have hrecover : X.ethers.recoverFrom decoded = .ok tx.from_ := by
    rw [← htx.recovered hX hsigned, ← heq]
    exact (hX.signed_part decoded tx.from_ decoded.blockHash decoded.blockNumber
      decoded.transactionIndex).symm
  rw [senderRecovered, hrow, hdecode]
  simp only [bind, Except.bind, Option.getD_none, hrecover]
  exact congrArg Except.ok heq

/-- The place that is left in the transaction is the one of a row. -/
theorem placeAfter_eq_some {rows : List TransactionRow} {receiptParams : ReceiptParams} :
    ∀ {place : Option ReceiptParams}, placeAfter place rows = some receiptParams →
      place = some receiptParams ∨ ∃ row ∈ rows, row.receiptParams = some receiptParams := by
  induction rows with
  | nil => exact fun h => .inl h
  | cons row rows ih =>
      intro place h
      rw [placeAfter, List.foldl_cons] at h
      rcases ih h with hplace | ⟨later, hlater, hparams⟩
      · rcases Option.or_eq_some_iff.mp hplace with hrow | ⟨_, hplace⟩
        · exact .inr ⟨row, List.mem_cons_self, hrow⟩
        · exact .inl hplace
      · exact .inr ⟨later, List.mem_cons_of_mem _ hlater, hparams⟩

/-- The lookup answers with the transaction while there is a row, at the place of a row if it
has one, and with nothing else. -/
theorem StoredAs.getTransaction (hX : ReadsBack X) (hplain : DecodesPlain X) (htx : Accepted X tx)
    (hsigned : tx.transactionType ≠ some 0x7E) (h : StoredAs X tx db) :
    ((∃ slot : Slot, (slot, tx.hash) ∈ db.evmTxResult) →
      ∃ place, TransactionStorage.getTransaction X tx.hash db = .ok (some (placed tx place)) ∧
        ∀ receiptParams, place = some receiptParams → ∃ slot row,
          db.evmTxResult.lookup (slot, tx.hash) = some row ∧
          row.receiptParams = some receiptParams) ∧
    ((∀ slot : Slot, (slot, tx.hash) ∉ db.evmTxResult) →
      TransactionStorage.getTransaction X tx.hash db = .ok none) := by
  constructor
  · intro hrow
    obtain ⟨slot, hmem⟩ := hrow
    obtain ⟨result, hresult⟩ := HashMap.lookup_of_mem hmem
    have hstored := h.lookup hmem
    obtain ⟨_, hrows⟩ := rowsOf_getTransactionInternal tx.hash db
    have hin : ⟨slot, X.rlp tx, result.txResult, result.receiptParams⟩ ∈
        getTransactionInternal tx.hash db := mem_getTransactionInternal.mpr ⟨hstored, hresult⟩
    obtain ⟨row, hhigh⟩ := exists_highest (List.ne_nil_of_mem hin)
    have hread : ∀ row' ∈ getTransactionInternal tx.hash db,
        senderRecovered X tx.hash none row' = .ok tx := fun row' hrow' =>
      senderRecovered_rlpOf hX htx hsigned (rlp_of_row hstored hrow')
    have hof : ∀ row' ∈ getTransactionInternal tx.hash db, ∀ receiptParams,
        row'.receiptParams = some receiptParams → ∃ slot row,
          db.evmTxResult.lookup (slot, tx.hash) = some row ∧
          row.receiptParams = some receiptParams := fun row' hrow' _ hparams =>
      ⟨_, _, (mem_getTransactionInternal.mp hrow').2, hparams⟩
    obtain ⟨before, after, hsplit⟩ := List.append_of_mem hhigh.1
    rw [hsplit] at hrows hread hhigh hof
    refine ⟨row.receiptParams.or (placeAfter none before), ?_, fun receiptParams hplace => ?_⟩
    · rw [getTransaction_rows, hsplit]
      exact transactionOf_highest hplain hrows hread hhigh
    · rcases Option.or_eq_some_iff.mp hplace with hrow | ⟨_, hbefore⟩
      · exact hof row (by simp) receiptParams hrow
      · rcases placeAfter_eq_some hbefore with hnone | ⟨row', hrow', hparams⟩
        · cases hnone
        · exact hof row' (by simp [hrow']) receiptParams hparams
  · intro hnone
    have hempty : getTransactionInternal tx.hash db = [] := by
      refine List.eq_nil_iff_forall_not_mem.mpr fun row hrow => hnone row.slotNumber ?_
      exact HashMap.mem_of_lookup (mem_getTransactionInternal.mp hrow).2
    rw [getTransaction_rows, hempty]
    rfl

end PgStorage

/-! ## What a chain is registered as -/

section

variable {X : StorageCrates} {senders : TxHash → Option Sender} {bp : BlockParser}
  {blocks : BTreeMap Slot UiConfirmedBlock} {slot : Slot} {block : UiConfirmedBlock}
  {result : BlockParseResult}

/-- What is encoded as a deposit is decoded as one. -/
def DecodesDeposits (X : Crates) : Prop :=
  ∀ d tx, X.ethers.decode (X.ethers.depositRlp d) = .ok tx → tx.transactionType = some 0x7E

/-- Each transaction is updated, and it is in its place. -/
theorem createEthBlocks_updated {blockhash : H256} {timestamp : Option Int}
    {mode : BlockParseMode} {l updated : List (Transaction × TxResult)} {ethBlocks : List EthBlock}
    (h : createEthBlocks X.toCrates blockhash timestamp l mode = .ok (ethBlocks, updated)) :
    (∀ e ∈ updated, ∃ t ∈ l, ∃ index,
      e.1 = updateIfUserDepositedTx X.toCrates t.1 blockhash index) ∧
    ∀ t ∈ l, ∃ e ∈ updated, ∃ index,
      e.1 = updateIfUserDepositedTx X.toCrates t.1 blockhash index := by
  obtain ⟨st, hst, h⟩ := Except.ok_of_bind h
  cases h
  refine foldlM_invariant (P := fun done st =>
    (∀ e ∈ st.transactions, ∃ t ∈ done, ∃ index,
      e.1 = updateIfUserDepositedTx X.toCrates t.1 blockhash index) ∧
    ∀ t ∈ done, ∃ e ∈ st.transactions, ∃ index,
      e.1 = updateIfUserDepositedTx X.toCrates t.1 blockhash index) ?_ ?_ hst
  · intro done t st₁ st₂ hdone hadd
    obtain ⟨index, _, hadds⟩ := EthBlocksState.add_ok hadd
    rw [hadds.transactions]
    refine ⟨fun e he => ?_, fun t' ht' => ?_⟩
    · rcases List.mem_append.mp he with he | he
      · obtain ⟨t', ht', hupdate⟩ := hdone.1 e he
        exact ⟨t', List.mem_append_left _ ht', hupdate⟩
      · rw [List.mem_singleton.mp he]
        exact ⟨t, by simp, _, rfl⟩
    · rcases List.mem_append.mp ht' with ht' | ht'
      · obtain ⟨e, he, hupdate⟩ := hdone.2 t' ht'
        exact ⟨e, List.mem_append_left _ he, hupdate⟩
      · rw [List.mem_singleton.mp ht']
        exact ⟨_, List.mem_append_right _ (List.mem_singleton_self _), _, rfl⟩
  · exact ⟨fun e he => by simp [EthBlocksState.start] at he, fun t ht => by cases ht⟩

/-- What is not a deposit is the same in the result, and no deposit becomes anything else. -/
theorem blockParseResult_transactions
    (hdeposit : DecodesDeposits X.toCrates)
    {q : DefaultTxParser} {mode : BlockParseMode} {enable : Option Slot}
    {txs : List (Transaction × TxResult)}
    (h : BlockParseResult.new X.toCrates slot block q mode enable = .ok result)
    (htxs : q.finalizeSlot X.toCrates slot = .ok txs) (tx : Transaction)
    (hsigned : tx.transactionType ≠ some 0x7E) :
    (∃ e ∈ result.transactions, e.1 = tx) ↔ ∃ t ∈ txs, t.1 = tx := by
  obtain ⟨time, l, blocks, _, hl, hcreate⟩ := blockParseResult_new h
  obtain ⟨out, hout, hfront⟩ := parseTransactions_eq hl
  cases htxs.symm.trans hout
  obtain ⟨hof, hto⟩ := createEthBlocks_updated hcreate
  have hupdated : ∀ t : Transaction, ∀ index,
      updateIfUserDepositedTx X.toCrates t result.solanaBlockhash index = tx → t = tx := by
    intro t index hupdate
    rw [updateIfUserDepositedTx] at hupdate
    split at hupdate
    · exact hupdate
    · next hdeposit =>
        rw [not_or, not_not] at hdeposit
        rw [← hupdate] at hsigned
        exact absurd hdeposit.1 hsigned
  constructor
  · intro hshown
    obtain ⟨e, he, rfl⟩ := hshown
    obtain ⟨t, ht, index, hupdate⟩ := hof e he
    have heq := hupdated t.1 index hupdate.symm
    rcases hfront with rfl | ⟨attributes, rfl, hattributes⟩
    · exact ⟨t, ht, heq⟩
    · rcases List.mem_cons.mp ht with rfl | ht
      · rw [createL1AttributesTx] at hattributes
        split at hattributes
        · next hdecode =>
            cases hattributes
            rw [← heq] at hsigned
            exact absurd (hdeposit _ _ hdecode) hsigned
        · cases hattributes
      · exact ⟨t, ht, heq⟩
  · intro hran
    obtain ⟨t, ht, rfl⟩ := hran
    have hin : t ∈ l := by
      rcases hfront with rfl | ⟨attributes, rfl, _⟩
      · exact ht
      · exact List.mem_cons_of_mem _ ht
    obtain ⟨e, he, index, hupdate⟩ := hto t hin
    refine ⟨e, he, ?_⟩
    rw [hupdate, updateIfUserDepositedTx, if_pos (.inl hsigned)]

theorem blockParseResult_slotNumber {X : Crates} {q : DefaultTxParser} {mode : BlockParseMode}
    {enable : Option Slot} (h : BlockParseResult.new X slot block q mode enable = .ok result) :
    result.slotNumber = slot := by
  obtain ⟨_, _, h⟩ := Except.ok_of_bind h
  obtain ⟨_, _, h⟩ := Except.ok_of_bind h
  cases hblock : block.blockTime with
  | none =>
      rw [hblock] at h
      cases h
  | some t =>
      rw [hblock] at h
      obtain ⟨_, _, h⟩ := Except.ok_of_bind h
      obtain ⟨_, _, h⟩ := Except.ok_of_bind h
      obtain ⟨_, _, h⟩ := Except.ok_of_bind h
      cases h
      rfl

/-- The result is made of what ran in a slot of a chain whose instructions come from the
senders. -/
structure OfTraffic (X : Crates) (senders : TxHash → Option Sender) (bp : BlockParser)
    (slot : Slot) (block : UiConfirmedBlock) (result : BlockParseResult) : Prop where
  traffic : ∃ blocks, Traffic X bp.programId bp.chainId senders blocks ∧
    blocks[slot]? = some block
  indexes : Indexes X bp senders slot block (.ok result)

theorem OfTraffic.slotNumber {X : Crates} (h : OfTraffic X senders bp slot block result) :
    result.slotNumber = slot := by
  obtain ⟨q, _, hnew, _⟩ := h.indexes
  exact blockParseResult_slotNumber hnew

/-- The transaction a sender means has its hash. -/
theorem Visit.Ran.transaction_hash {X : Crates} {programId : Pubkey} {chainId : Nat} {v : Visit}
    {hash : TxHash} {r : TxResult} (hran : v.Ran X programId chainId senders hash r)
    (h : Traffic X programId chainId senders blocks) {s : Sender} (hs : senders hash = some s) :
    s.transaction.hash = hash := by
  obtain ⟨s', cargo, hs', hof, _⟩ := hran
  cases hs.symm.trans hs'
  rw [← h.hashes hash s hs]
  cases hof.writes with
  | client hhonest _ => exact hhonest.hash
  | deposit _ => rfl

variable {c : Client}

/-- Some of the instructions that ran a transaction is the first. -/
theorem exists_firstRan {X : Crates} {programId : Pubkey} {chainId : Nat} {v : Visit}
    {hash : TxHash} {r : TxResult} {s : Sender} (hs : senders hash = some s)
    (hv : v ∈ block.visits) (hran : v.Ran X programId chainId senders hash r) :
    ∃ e, FirstRan X programId chainId senders block e ∧ e.hash = hash ∧
      e.transaction = s.transaction := by
  classical
  have hsome : ∃ i, ∃ v ∈ block.visits, v.txIdx = i ∧
      ∃ r, v.Ran X programId chainId senders hash r := ⟨v.txIdx, v, hv, rfl, r, hran⟩
  obtain ⟨v', hv', hidx, r', hran'⟩ := Nat.find_spec hsome
  refine ⟨⟨hash, Nat.find hsome, s.transaction, r'⟩, ⟨⟨v', hv', hidx, hran'⟩, ?_, s, hs, rfl⟩, rfl,
    rfl⟩
  intro v'' hv'' r'' hran''
  exact Nat.find_min' hsome ⟨v'', hv'', rfl, r'', hran''⟩

/-- The transaction of a client is in the result if it ran in the slot. -/
theorem OfTraffic.shows_iff
    (hdeposit : DecodesDeposits X.toCrates)
    (hc : senders c.hash = some (.client c)) (hhash : c.transaction.hash = c.hash)
    (hsigned : c.transaction.transactionType ≠ some 0x7E)
    (h : OfTraffic X.toCrates senders bp slot block result) :
    (∃ e ∈ result.transactions, e.1 = c.transaction) ↔
      ∃ v ∈ block.visits, ∃ r, v.Ran X.toCrates bp.programId bp.chainId senders c.hash r := by
  obtain ⟨blocks, htraffic, _⟩ := h.traffic
  obtain ⟨q, txs, hnew, hfinal, entries, _, _, hmem, rfl⟩ := h.indexes
  rw [blockParseResult_transactions hdeposit hnew hfinal c.transaction hsigned]
  constructor
  · intro hshown
    obtain ⟨t, ht, htx⟩ := hshown
    obtain ⟨e, he, rfl⟩ := List.mem_map.mp ht
    have hfirst := (hmem e).mp he
    obtain ⟨v, hv, _, hran⟩ := hfirst.ran
    obtain ⟨s, hs, hsame⟩ := hfirst.transaction
    have hhash' : e.hash = c.hash := by
      rw [← hran.transaction_hash htraffic hs, ← hsame, ← hhash]
      exact congrArg Transaction.hash htx
    exact ⟨v, hv, _, hhash' ▸ hran⟩
  · intro hran
    obtain ⟨v, hv, r, hran⟩ := hran
    obtain ⟨e, hfirst, _, htx⟩ := exists_firstRan hc hv hran
    exact ⟨_, List.mem_map.mpr ⟨e, (hmem e).mpr hfirst, rfl⟩, htx⟩

/-- What is shown under the hash of a client, unless it is a deposit, is its transaction. -/
theorem OfTraffic.only
    (hdeposit : DecodesDeposits X.toCrates)
    (hc : senders c.hash = some (.client c)) (h : OfTraffic X.toCrates senders bp slot block result)
    {e : Transaction × TxResult} (he : e ∈ result.transactions) (hhash : e.1.hash = c.hash)
    (hsigned : e.1.transactionType ≠ some 0x7E) : e.1 = c.transaction := by
  obtain ⟨blocks, htraffic, _⟩ := h.traffic
  obtain ⟨q, txs, hnew, hfinal, entries, _, _, hmem, rfl⟩ := h.indexes
  obtain ⟨t, ht, htx⟩ :=
    (blockParseResult_transactions hdeposit hnew hfinal e.1 hsigned).mp ⟨e, he, rfl⟩
  obtain ⟨en, hen, rfl⟩ := List.mem_map.mp ht
  have hfirst := (hmem en).mp hen
  obtain ⟨v, _, _, hran⟩ := hfirst.ran
  obtain ⟨s, hs, hsame⟩ := hfirst.transaction
  have hhash' : en.hash = c.hash := by
    rw [← hran.transaction_hash htraffic hs, ← hsame, ← hhash]
    exact congrArg Transaction.hash htx
  rw [hhash', hc] at hs
  cases hs
  rw [← htx]
  exact hsame

end

/-! ## Over a run -/

/-- The transaction of this hash ran in the slot of some result. -/
def RegistersRan (X : Crates) (senders : TxHash → Option Sender) (bp : BlockParser)
    (slot : Slot) (hash : TxHash) (parseResults : BTreeMap Slot BlockParseResult) : Prop :=
  ∃ result block, parseResults[slot]? = some result ∧
    OfTraffic X senders bp slot block result ∧
    ∃ v ∈ block.visits, ∃ r, v.Ran X bp.programId bp.chainId senders hash r

/-- The results that are registered are made of what ran in the slots of a chain, which may be
another one each time, and no deposit takes the hash. -/
def RegistersTraffic (X : Crates) (senders : TxHash → Option Sender) (bp : BlockParser)
    (hash : TxHash) {stored : Type} (_ : Db stored) : PgStorage.StorageAction → Prop
  | .registerTransactions parseResults =>
      ∀ (slot : Slot) result, parseResults[slot]? = some result →
        (∃ block, OfTraffic X senders bp slot block result) ∧
        ∀ e ∈ result.transactions, e.1.transactionType = some 0x7E → e.1.hash ≠ hash
  | _ => True

section

open PgStorage TransactionStorage

variable {stored : Type} {X : StorageCrates} {senders : TxHash → Option Sender} {bp : BlockParser}
  {c : Client} {db : Db stored} {tr : List (Db stored × StorageAction)}
  {parseResults : BTreeMap Slot BlockParseResult}

theorem registersOnly_of_traffic
    (hdeposit : DecodesDeposits X.toCrates)
    (hc : senders c.hash = some (.client c)) (hhash : c.transaction.hash = c.hash)
    {a : StorageAction} (h : RegistersTraffic X.toCrates senders bp c.hash db a) :
    RegistersOnly c.transaction db a := by
  cases a with
  | registerTransactions parseResults =>
      intro e he t ht hthash
      obtain ⟨⟨block, hof⟩, hfresh⟩ := h e.1 e.2 ((BTreeMap.mem_toList _ _ _).mp he)
      rw [hhash] at hthash
      exact hof.only hdeposit hc ht hthash fun htype => hfresh t ht htype hthash
  | _ => trivial

/-- The hash is registered in a slot if its transaction ran there. -/
theorem registers_iff_ran
    (hdeposit : DecodesDeposits X.toCrates)
    (hc : senders c.hash = some (.client c)) (hhash : c.transaction.hash = c.hash)
    (hsigned : c.transaction.transactionType ≠ some 0x7E)
    (h : RegistersTraffic X.toCrates senders bp c.hash db (.registerTransactions parseResults))
    (slot : Slot) : Registers parseResults slot c.hash ↔
      RegistersRan X.toCrates senders bp slot c.hash parseResults := by
  constructor
  · intro hregisters
    obtain ⟨⟨slot', result⟩, he, hslot, t, ht, hthash⟩ := hregisters
    have hresult := (BTreeMap.mem_toList _ _ _).mp he
    obtain ⟨⟨block, hof⟩, hfresh⟩ := h slot' result hresult
    have hsame : slot' = slot := hof.slotNumber.symm.trans hslot
    subst hsame
    have htx := hof.only hdeposit hc ht hthash fun htype => hfresh t ht htype hthash
    exact ⟨result, block, hresult, hof, (hof.shows_iff hdeposit hc hhash hsigned).mp ⟨t, ht, htx⟩⟩
  · intro hran
    obtain ⟨result, block, hresult, hof, hran⟩ := hran
    obtain ⟨t, ht, htx⟩ := (hof.shows_iff hdeposit hc hhash hsigned).mpr hran
    refine ⟨(slot, result), (BTreeMap.mem_toList _ _ _).mpr hresult, hof.slotNumber, t, ht, ?_⟩
    rw [htx, hhash]

/-- The type and the hash make an rlp that `readTx` reads back. -/
def servingStandIns : StorageCrates := { readingStandIns with
  rlp := fun tx =>
    (if tx.transactionType = some 0x7E then 0x7E else 0) :: beBytes 32 tx.hash.toNat
  hashSenderNonce := fun _ _ => 0 }

/-- The transactions that `readTx` can answer with. -/
theorem readTx_ok {rlp : Bytes} {tx : Transaction} (h : readTx rlp = .ok tx) :
    tx = { bareTx tx.hash with transactionType := some 0x7E, isSystemTx := true } ∨
      tx = { bareTx tx.hash with chainId := some 1001 } := by
  unfold readTx at h
  split at h
  · cases h
  · split at h
    · cases h
      exact .inl rfl
    · cases h
      exact .inr rfl

theorem readTx_rlp (h : TxHash) :
    readTx (0x7E :: beBytes 32 h.toNat) =
      .ok { bareTx h with transactionType := some 0x7E, isSystemTx := true } ∧
    readTx (0 :: beBytes 32 h.toNat) = .ok { bareTx h with chainId := some 1001 } := by
  have hdeposit := digest_append [0x7E] h
  have hsigned := digest_append [0] h
  rw [List.singleton_append] at hdeposit hsigned
  simp [readTx, hdeposit, hsigned]

/-- No sender but zero is recovered, and no deposit is a user's. -/
theorem accepted_servingStandIns {tx : Transaction} (h : Accepted servingStandIns tx) :
    tx = { bareTx tx.hash with transactionType := some 0x7E, isSystemTx := true } ∨
      tx = { bareTx tx.hash with chainId := some 1001 } := by
  obtain ⟨rlp, decoded, hdecode, hupdate⟩ := h
  have hforms : decoded =
      { bareTx decoded.hash with transactionType := some 0x7E, isSystemTx := true } ∨
        decoded = { bareTx decoded.hash with chainId := some 1001 } := by
    rw [decodeTransactionFromRlp] at hdecode
    split at hdecode
    · cases hdecode
    · next raw hraw =>
        rcases readTx_ok hraw with hform | hform
        · rw [hform] at hdecode
          cases hdecode
          exact .inl rfl
        · rw [hform] at hdecode
          cases hdecode
          exact .inr rfl
  rcases hupdate with rfl | ⟨blockhash, logIndex, rfl⟩
  · exact hforms
  · have hsame : updateIfUserDepositedTx servingStandIns.toCrates decoded blockhash logIndex =
        decoded := by
      rw [updateIfUserDepositedTx, if_pos]
      rcases hforms with hform | hform
      · exact .inr (by rw [hform])
      · exact .inl (by rw [hform]; simp [bareTx])
    rw [hsame]
    exact hforms

theorem servingStandIns_readsBack : ReadsBack servingStandIns where
  decode_rlp tx h := by
    obtain ⟨hdeposit, hsigned⟩ := readTx_rlp tx.hash
    rcases accepted_servingStandIns h with hform | hform
    · rw [hform]
      exact ⟨_, hdeposit, rfl⟩
    · rw [hform]
      exact ⟨_, hsigned, rfl⟩
  unrecovered rlp tx h hsigned := by
    rcases readTx_ok h with hform | hform
    · rw [hform] at hsigned
      exact absurd rfl hsigned
    · rw [hform]
      rfl
  unsigned tx h := ⟨_, if_pos h⟩
  signed_part tx sender blockHash blockNumber transactionIndex := rfl

theorem servingStandIns_decodesPlain : DecodesPlain servingStandIns where
  unplaced rlp tx h := by
    rcases readTx_ok h with hform | hform
    · rw [hform]
      exact ⟨rfl, rfl, rfl⟩
    · rw [hform]
      exact ⟨rfl, rfl, rfl⟩
  signed_part tx sender blockHash blockNumber transactionIndex := rfl

theorem servingStandIns_decodesDeposits : DecodesDeposits servingStandIns.toCrates := by
  intro d tx h
  have hread : readTx (0x7E :: d.data) = .ok tx := h
  cases hread
  rfl

/-- The indexer of the batch. -/
def servedIndexer : RollupIndexer InMemory.World :=
  InMemory.rollupIndexer readingStandIns 7 1001 .engineApi none none

/-- The results of the slots 5 to 7. -/
def servedResults : BTreeMap Slot BlockParseResult :=
  match servedIndexer.parseSlots [5, 6, 7] ∅ ⟨sentChain, .new⟩ with
  | .ok results _ => results
  | .error _ _ => ∅

/-- The loader has been at the two slots. -/
def loadedSlots : Db Unit :=
  { (Db.empty : Db Unit) with
    solSlot := ((∅ : HashMap Slot SolSlot).insert 5 ⟨4, .confirmed, some "5", some 8⟩).insert 7
      ⟨5, .confirmed, some "7", some 9⟩ }

theorem servedResults_indexed :
    (∀ slot : Nat, 5 ≤ slot → slot < 8 → IndexedAt readingStandIns
      (tableParser sentChain 7 1001 .engineApi none) someSenders sentChain slot
      servedResults[slot]?) ∧
    ∀ slot : Nat, ¬ (5 ≤ slot ∧ slot < 8) → servedResults[slot]? = none := by
  have hstart : DefaultTxParser.Walk (slotSteps readingStandIns 7 1001 sentChain) [] .new :=
    ⟨.start rfl, fun _ hin => by cases hin⟩
  have hcarried : CarriedIn readingStandIns 7 1001 someSenders sentChain
      (DefaultTxParser.Registered []) 5 8 :=
    fun slot block hfrom _ _ => sentChain_chunksSeen (.inr ⟨Nat.le_refl 5, hfrom⟩)
  have hparse : servedIndexer.parseSlots [5, 6, 7] ∅ ⟨sentChain, .new⟩ =
      servedIndexer.parseSlots (List.range' 5 3) ∅ ⟨sentChain, .new⟩ := rfl
  rcases Traffic.parseSlots (w := ⟨sentChain, .new⟩) sentChain_traffic readingStandIns_readsTxData
    (parsesWith_table readingStandIns sentChain 7 1001 .engineApi none none) 3 ∅ rfl hstart
    (fun _ _ _ => trivial) hcarried (fun _ _ => Std.ExtTreeMap.getElem?_empty) with hok | herror
  · obtain ⟨q, _, results, hresults, _, _, _, hindexed, hkept⟩ := hok
    have hserved : servedResults = results := by
      rw [servedResults, hparse, servedIndexer, hresults]
    rw [hserved]
    exact ⟨hindexed, fun slot hnot => (hkept slot hnot).trans Std.ExtTreeMap.getElem?_empty⟩
  · obtain ⟨e, q, _, herror, _⟩ := herror
    have hends : endsWell (servedIndexer.parseSlots [5, 6, 7] ∅ ⟨sentChain, .new⟩) = true := by
      decide +kernel
    rw [hparse, servedIndexer, herror] at hends
    cases hends

theorem servedResults_ofTraffic {slot : Slot} {result : BlockParseResult}
    (h : servedResults[slot]? = some result) : ∃ block, sentChain[slot]? = some block ∧
      OfTraffic readingStandIns someSenders (tableParser sentChain 7 1001 .engineApi none) slot
        block result := by
  have hrange : 5 ≤ (slot : Nat) ∧ (slot : Nat) < 8 := by
    by_contra hnot
    rw [servedResults_indexed.2 slot hnot] at h
    cases h
  have hindexed := servedResults_indexed.1 slot hrange.1 hrange.2
  rw [h] at hindexed
  cases hindexed with
  | indexed hblock hindexes => exact ⟨_, hblock, ⟨sentChain, sentChain_traffic, hblock⟩, hindexes⟩

/-- The client 43 ran in slot 7. -/
theorem servedResults_ran : RegistersRan readingStandIns someSenders
    (tableParser sentChain 7 1001 .engineApi none) 7 43 servedResults := by
  have hblock : sentChain[(7 : Nat)]? = some (sentBlock 5 [heldCall, directCall]) := rfl
  have hindexed := servedResults_indexed.1 7 (by decide) (by decide)
  cases hresult : servedResults[(7 : Nat)]? with
  | none =>
      rw [hresult] at hindexed
      cases hindexed with
      | missing hnone => cases hblock.symm.trans hnone
  | some result =>
      obtain ⟨block, hblock', hof⟩ := servedResults_ofTraffic hresult
      cases hblock.symm.trans hblock'
      refine ⟨result, _, hresult, hof, sentVisit directCall 1,
        mem_visits_sentBlock.mpr ⟨directCall, 1, rfl, rfl⟩, _, _, _, rfl,
        sentVisit_of (someClient_honest (by decide) false) directCall_writes,
        reportedResult_okMeta⟩

end

end RomeSdk
