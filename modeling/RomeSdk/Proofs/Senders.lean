import RomeSdk.PgStorage.ReadMethods
import RomeSdk.Proofs.AcceptedTransactions
import RomeSdk.Proofs.PendingRows
import RomeSdk.Proofs.RecordedParams

/-!
# The sender a transaction is read back with

When a block is parsed, the sender of a signed transaction is recovered and that of a
deposit is taken from the rlp. The rlp of a signed transaction has no sender, so what is
decoded from the storage has to be completed once more, and the read methods do so in
three ways. The lookups of a transaction and of its receipt recover the sender of every
transaction, which fails for a deposit. The lookup of a block recovers none, so it shows
its signed transactions with the zero address.
-/

namespace RomeSdk

variable {X : StorageCrates} {tx : Transaction}

/-! ## Decoding what is stored -/

/-- The transaction in some block. -/
def Located (tx t : Transaction) : Prop :=
  ∃ blockHash blockNumber transactionIndex, t = { tx with
    blockHash := blockHash
    blockNumber := blockNumber
    transactionIndex := transactionIndex }

theorem Located.locate {t : Transaction} (h : Located tx t) (receiptParams : Option ReceiptParams) :
    Located tx ((receiptParams.map t.locate).getD t) := by
  obtain ⟨blockHash, blockNumber, transactionIndex, rfl⟩ := h
  cases receiptParams with
  | none => exact ⟨_, _, _, rfl⟩
  | some receiptParams => exact ⟨_, _, _, rfl⟩

theorem Located.from_eq {t : Transaction} (h : Located tx t) : t.from_ = tx.from_ := by
  obtain ⟨blockHash, blockNumber, transactionIndex, rfl⟩ := h
  rfl

theorem locate_from (t : Transaction) (receiptParams : Option ReceiptParams) :
    ((receiptParams.map t.locate).getD t).from_ = t.from_ ∧
      ((receiptParams.map t.locate).getD t).hash = t.hash := by
  cases receiptParams <;> exact ⟨rfl, rfl⟩

/-- What is decoded of it has everything but the sender. -/
theorem Accepted.decoded (hX : ReadsBack X) (h : Accepted X tx) (hash : TxHash) :
    ∃ decoded, decodeStored X hash (X.rlp tx) = .ok decoded ∧ decoded.hash = tx.hash ∧
      decoded.transactionType = tx.transactionType ∧
      (tx.transactionType ≠ some 0x7E → decoded.from_ = 0) ∧
      { decoded with from_ := tx.from_ } = tx := by
  obtain ⟨decoded, hdecode, heq⟩ := hX.decode_rlp tx h
  have htype : decoded.transactionType = tx.transactionType := by rw [← heq]
  refine ⟨decoded, ?_, by rw [← heq], htype, fun hsigned => ?_, heq⟩
  · rw [decodeStored, hdecode]
  · exact hX.unrecovered _ _ hdecode (by rwa [htype])

/-! ## Rows of one transaction -/

namespace TransactionStorage

variable {block : Type} {db : Db block} {txHash : TxHash}

theorem mem_getTransactionInternal {row : TransactionRow} :
    row ∈ getTransactionInternal txHash db ↔ db.evmTx.lookup txHash = some row.rlp ∧
      db.evmTxResult.lookup (row.slotNumber, txHash) = some ⟨row.txResult, row.receiptParams⟩ := by
  rw [getTransactionInternal]
  cases hrlp : db.evmTx.lookup txHash with
  | none => simp
  | some rlp =>
      rw [← HashMap.mem_entries, List.mem_filterMap]
      constructor
      · rintro ⟨⟨⟨slot, hash⟩, result⟩, he, hsome⟩
        split at hsome
        · next hhash =>
            cases hhash
            cases hsome
            exact ⟨rfl, he⟩
        · cases hsome
      · rintro ⟨hsame, he⟩
        refine ⟨_, he, ?_⟩
        rw [if_pos rfl, Option.some.inj hsame]

variable {α : Type} {sender : α → Address}

/-- What the loops know of their variables: nothing has the wrong sender. -/
structure Found.Reports (sender : α → Address) (tx : Transaction) (found : Found α) : Prop where
  known : ∀ t, found.tx = some t → Located tx t
  results : ∀ (slot : Slot) v, found.results[slot]? = some v → sender v = tx.from_

theorem Found.Reports.start (sender : α → Address) (tx : Transaction) :
    (⟨none, ∅⟩ : Found α).Reports sender tx where
  known _ h := by cases h
  results slot v h := by simp at h

theorem Found.Reports.insert {found : Found α} (h : found.Reports sender tx) {t : Transaction}
    (ht : Located tx t) (slot : Slot) {v : α} (hv : sender v = tx.from_) :
    Found.Reports sender tx ⟨some t, found.results.insert slot v⟩ where
  known u hu := by
    cases hu
    exact ht
  results slot' w hw := by
    rw [BTreeMap.get?_insert] at hw
    split at hw
    · cases hw
      exact hv
    · exact h.results slot' w hw

/-- A result that is there is the last one or below it. -/
theorem Found.Reports.last {found : Found α} (h : found.Reports sender tx) {slot : Slot}
    (hslot : slot ∈ found.results) : ∃ v, found.last = some v ∧ sender v = tx.from_ := by
  obtain ⟨w, hw⟩ := Option.isSome_iff_exists.mp
    (Std.ExtTreeMap.mem_iff_isSome_getElem?.mp hslot)
  have hne : found.results.toList ≠ [] := List.ne_nil_of_mem ((BTreeMap.mem_toList _ _ _).mpr hw)
  refine ⟨(found.results.toList.getLast hne).2, ?_, ?_⟩
  · rw [Found.last, List.getLast?_eq_some_getLast hne]
    rfl
  · exact h.results _ _ ((BTreeMap.mem_toList _ _ _).mp (List.getLast_mem hne))

/-- Signed: the sender is recovered, from whatever row the transaction is. -/
theorem senderRecovered_signed (hX : ReadsBack X) (htx : Accepted X tx)
    (hsigned : tx.transactionType ≠ some 0x7E) {found : Found α} (h : found.Reports sender tx)
    {row : TransactionRow} (hrow : row.rlp = X.rlp tx) :
    ∃ t, senderRecovered X txHash found.tx row = .ok t ∧ Located tx t := by
  obtain ⟨decoded, hdecode, _, _, _, heq⟩ := htx.decoded hX txHash
  have hbase : ∃ u, found.tx.getD decoded = u ∧ X.ethers.recoverFrom u = .ok tx.from_ ∧
      Located tx { u with from_ := tx.from_ } := by
    have hrecover := htx.recovered hX hsigned
    cases hfound : found.tx with
    | none =>
        refine ⟨decoded, rfl, ?_, _, _, _, heq⟩
        rw [← heq] at hrecover
        rw [← hrecover]
        exact (hX.signed_part decoded tx.from_ decoded.blockHash decoded.blockNumber
          decoded.transactionIndex).symm
    | some t =>
        obtain ⟨blockHash, blockNumber, transactionIndex, rfl⟩ := h.known t hfound
        refine ⟨_, rfl, ?_, _, _, _, rfl⟩
        rw [← hrecover]
        exact hX.signed_part tx tx.from_ blockHash blockNumber transactionIndex
  obtain ⟨u, hu, hrecover, hlocated⟩ := hbase
  refine ⟨{ u with from_ := tx.from_ }, ?_, hlocated⟩
  rw [senderRecovered, hrow, hdecode]
  simp only [bind, Except.bind, hu, hrecover]
  rfl

/-- A deposit: there is nothing to recover. -/
theorem senderRecovered_deposit (hX : ReadsBack X) (htx : Accepted X tx)
    (hdeposit : tx.transactionType = some 0x7E) {row : TransactionRow}
    (hrow : row.rlp = X.rlp tx) : ∃ e, senderRecovered X txHash none row = .error e := by
  obtain ⟨decoded, hdecode, _, htype, _⟩ := htx.decoded hX txHash
  obtain ⟨e, he⟩ := hX.unsigned decoded (htype.trans hdeposit)
  refine ⟨.err (.signatureError e), ?_⟩
  rw [senderRecovered, hrow, hdecode]
  simp only [bind, Except.bind, Option.getD_none, he]

/-- A round at the row returns and keeps what is reported. If the row counts it has a
result then. -/
def RoundReports (sender : α → Address) (tx : Transaction)
    (body : Found α → TransactionRow → Outcome (Found α)) (row : TransactionRow) (counts : Bool) :
    Prop :=
  ∀ found : Found α, found.Reports sender tx → ∃ found', body found row = .ok found' ∧
    found'.Reports sender tx ∧ (∀ slot ∈ found.results, slot ∈ found'.results) ∧
    (counts = true → row.slotNumber ∈ found'.results)

theorem RoundReports.loop {body : Found α → TransactionRow → Outcome (Found α)}
    {counts : TransactionRow → Bool} {rows : List TransactionRow}
    (hbody : ∀ row ∈ rows, RoundReports sender tx body row (counts row)) :
    ∀ {found : Found α}, found.Reports sender tx → ∃ found', rows.foldlM body found = .ok found' ∧
      found'.Reports sender tx ∧ (∀ slot ∈ found.results, slot ∈ found'.results) ∧
        ∀ row ∈ rows, counts row = true → row.slotNumber ∈ found'.results := by
  induction rows with
  | nil => exact fun h => ⟨_, rfl, h, fun _ hslot => hslot, by simp⟩
  | cons row rows ih =>
      intro found h
      obtain ⟨found₁, hrun₁, h₁, hkeep₁, hcount₁⟩ := hbody row (List.mem_cons_self ..) found h
      obtain ⟨found', hrun, h', hkeep, hcount⟩ :=
        ih (fun row' hrow' => hbody row' (List.mem_cons_of_mem row hrow')) h₁
      refine ⟨found', ?_, h', fun slot hslot => hkeep slot (hkeep₁ slot hslot), ?_⟩
      · rw [List.foldlM_cons, hrun₁]
        exact hrun
      · rw [List.forall_mem_cons]
        exact ⟨fun hrow => hkeep _ (hcount₁ hrow), hcount⟩

/-- From the start to the answer, if some row counts. -/
theorem RoundReports.answer {body : Found α → TransactionRow → Outcome (Found α)}
    {counts : TransactionRow → Bool} {rows : List TransactionRow}
    (hbody : ∀ row ∈ rows, RoundReports sender tx body row (counts row)) {row : TransactionRow}
    (hrow : row ∈ rows) (hcounts : counts row = true) :
    ∃ found v, rows.foldlM body ⟨none, ∅⟩ = .ok found ∧ found.last = some v ∧
      sender v = tx.from_ := by
  obtain ⟨found, hrun, hreports, _, hcount⟩ := RoundReports.loop hbody (.start sender tx)
  obtain ⟨v, hlast, hfrom⟩ := hreports.last (hcount row hrow hcounts)
  exact ⟨found, v, hrun, hlast, hfrom⟩

/-- A loop that returns has made a receipt for each row with parameters. -/
theorem addReceipt_fits {rows : List TransactionRow} {start found : Found TransactionReceipt}
    (h : rows.foldlM (addReceipt X txHash) start = .ok found) :
    ∀ row ∈ rows, ∀ receiptParams, row.receiptParams = some receiptParams →
      ReceiptFits row.txResult receiptParams := by
  refine foldlM_invariant (P := fun done _ => ∀ row ∈ done, ∀ receiptParams,
    row.receiptParams = some receiptParams → ReceiptFits row.txResult receiptParams) ?_ (by simp) h
  intro done row found₁ found₂ hdone hbody
  rw [List.forall_mem_append, List.forall_mem_singleton]
  refine ⟨hdone, fun receiptParams hparams => ?_⟩
  rw [addReceipt] at hbody
  obtain ⟨t, _, hbody⟩ := Except.ok_of_bind hbody
  simp only [hparams] at hbody
  obtain ⟨receipt, hreceipt, _⟩ := Except.ok_of_bind hbody
  exact newReceipt_iff.mp ⟨receipt, hreceipt⟩

theorem rlp_of_row (hstored : db.evmTx.lookup tx.hash = some (X.rlp tx)) {row : TransactionRow}
    (hrow : row ∈ getTransactionInternal tx.hash db) :
    row.rlp = X.rlp tx := by
  have hrlp := (mem_getTransactionInternal.mp hrow).1
  rw [hstored] at hrlp
  exact (Option.some.inj hrlp).symm

section

variable (hX : ReadsBack X) (htx : Accepted X tx)

include hX htx

theorem addTransaction_round (hsigned : tx.transactionType ≠ some 0x7E) {row : TransactionRow}
    (hrow : row.rlp = X.rlp tx) :
    RoundReports Transaction.from_ tx (addTransaction X txHash) row true := by
  intro found hfound
  obtain ⟨t, hrecovered, ht⟩ := senderRecovered_signed hX htx hsigned hfound hrow
  refine ⟨_, by rw [addTransaction, hrecovered]; rfl, hfound.insert (ht.locate _) _
    (ht.locate _).from_eq, ?_, ?_⟩
  · intro slot hslot
    simp [hslot]
  · simp

/-- A row without parameters is passed over. -/
theorem addReceipt_round (hsigned : tx.transactionType ≠ some 0x7E) {row : TransactionRow}
    (hrow : row.rlp = X.rlp tx)
    (hfits : ∀ receiptParams, row.receiptParams = some receiptParams →
      ReceiptFits row.txResult receiptParams) :
    RoundReports TransactionReceipt.from_ tx (addReceipt X txHash) row row.receiptParams.isSome := by
  intro found hfound
  obtain ⟨t, hrecovered, ht⟩ := senderRecovered_signed hX htx hsigned hfound hrow
  cases hparams : row.receiptParams with
  | none =>
      refine ⟨{ found with tx := some t }, ?_, ⟨?_, hfound.results⟩, fun _ hslot => hslot, by simp⟩
      · rw [addReceipt, hrecovered]
        simp only [bind, Except.bind, hparams]
        rfl
      · intro u hu
        cases hu
        exact ht
  | some receiptParams =>
      obtain ⟨receipt, hreceipt⟩ : ∃ receipt,
          newReceipt X t row.txResult receiptParams = .ok receipt :=
        newReceipt_iff.mpr (hfits receiptParams hparams)
      have hfrom := (newReceipt_inv hreceipt).2.2
      refine ⟨_, ?_, hfound.insert ht row.slotNumber (hfrom.trans ht.from_eq), ?_, by simp⟩
      · rw [addReceipt, hrecovered]
        simp only [bind, Except.bind, hparams, hreceipt]
        rfl
      · intro slot hslot
        simp [hslot]

variable (hstored : db.evmTx.lookup tx.hash = some (X.rlp tx))

include hstored

theorem getTransaction_signed (hsigned : tx.transactionType ≠ some 0x7E) {slot : Slot}
    {result : EvmTxResult} (hresult : db.evmTxResult.lookup (slot, tx.hash) = some result) :
    ∃ t, getTransaction X tx.hash db = .ok (some t) ∧ t.from_ = tx.from_ := by
  have hrow : ⟨slot, X.rlp tx, result.txResult, result.receiptParams⟩
      ∈ getTransactionInternal tx.hash db := mem_getTransactionInternal.mpr ⟨hstored, hresult⟩
  obtain ⟨found, t, hrun, hlast, hfrom⟩ := RoundReports.answer
    (fun row hrow => addTransaction_round hX htx hsigned (rlp_of_row hstored hrow)) hrow rfl
  refine ⟨t, ?_, hfrom⟩
  rw [getTransaction, hrun]
  exact congrArg Except.ok hlast

/-- The receipt of a signed transaction can be made if all of its receipts can. -/
theorem getTransactionReceipt_signed (hsigned : tx.transactionType ≠ some 0x7E) {slot : Slot}
    {result : EvmTxResult} (hresult : db.evmTxResult.lookup (slot, tx.hash) = some result)
    (hparams : result.receiptParams.isSome = true) :
    (∃ r, getTransactionReceipt X tx.hash db = .ok (some r) ∧ r.from_ = tx.from_) ↔
      ∀ slot row receiptParams, db.evmTxResult.lookup (slot, tx.hash) = some row →
        row.receiptParams = some receiptParams → ReceiptFits row.txResult receiptParams := by
  constructor
  · intro h
    obtain ⟨receipt, h, _⟩ := h
    obtain ⟨found, hrun, _⟩ := Except.ok_of_bind h
    intro slot row receiptParams hrow hparams
    exact addReceipt_fits hrun ⟨slot, X.rlp tx, row.txResult, row.receiptParams⟩
      (mem_getTransactionInternal.mpr ⟨hstored, hrow⟩) receiptParams hparams
  · intro hfits
    have hrow : ⟨slot, X.rlp tx, result.txResult, result.receiptParams⟩
        ∈ getTransactionInternal tx.hash db := mem_getTransactionInternal.mpr ⟨hstored, hresult⟩
    have hround : ∀ row ∈ getTransactionInternal tx.hash db, RoundReports TransactionReceipt.from_
        tx (addReceipt X tx.hash) row row.receiptParams.isSome := by
      intro row hrow
      exact addReceipt_round hX htx hsigned (rlp_of_row hstored hrow) fun receiptParams =>
        hfits _ _ receiptParams (mem_getTransactionInternal.mp hrow).2
    obtain ⟨found, r, hrun, hlast, hfrom⟩ := RoundReports.answer hround hrow hparams
    refine ⟨r, ?_, hfrom⟩
    rw [getTransactionReceipt, hrun]
    exact congrArg Except.ok hlast

/-- The lookup of a stored deposit fails at its first row. -/
theorem getTransaction_deposit (hdeposit : tx.transactionType = some 0x7E) {slot : Slot}
    {result : EvmTxResult} (hresult : db.evmTxResult.lookup (slot, tx.hash) = some result) :
    ∃ e, getTransaction X tx.hash db = .error e := by
  have hrow : ⟨slot, X.rlp tx, result.txResult, result.receiptParams⟩
      ∈ getTransactionInternal tx.hash db := mem_getTransactionInternal.mpr ⟨hstored, hresult⟩
  have hrlp : ∀ row ∈ getTransactionInternal tx.hash db, row.rlp = X.rlp tx :=
    fun row hrow => rlp_of_row hstored hrow
  rw [getTransaction]
  cases hrows : getTransactionInternal tx.hash db with
  | nil => simp [hrows] at hrow
  | cons first rest =>
      obtain ⟨e, he⟩ : ∃ e, senderRecovered X tx.hash none first = .error e :=
        senderRecovered_deposit hX htx hdeposit (hrlp first (by simp [hrows]))
      refine ⟨e, ?_⟩
      rw [List.foldlM_cons, addTransaction, he]
      rfl

end

end TransactionStorage

/-! ## Blocks of one number -/

namespace PgStorage

variable {block : Type} {db : Db block} {number : Nat}

theorem mem_numbered {id : EthBlockId} {header : EthBlockHeader} {params : BlockParams} :
    (id, header, params) ∈ numbered number db ↔
      db.ethBlock.lookup id = some header ∧ header.params = some params ∧ params.number = number := by
  rw [numbered, List.mem_filterMap, ← HashMap.mem_entries]
  constructor
  · rintro ⟨e, he, hsome⟩
    obtain ⟨params', hparams, hsome⟩ := Option.bind_eq_some_iff.mp hsome
    split at hsome
    · next hnumber =>
        cases hsome
        exact ⟨he, hparams, hnumber⟩
    · cases hsome
  · rintro ⟨he, hparams, hnumber⟩
    exact ⟨_, he, by simp [hparams, hnumber]⟩

theorem numbered_nodup (number : Nat) (db : Db block) : (numbered number db).Nodup := by
  rw [numbered]
  refine List.Nodup.filterMap ?_ (List.nodupKeys_iff_pairwise.mp db.ethBlock.nodupKeys |>.imp ?_)
  · intro e e' b hb hb'
    have hkeep : ∀ e : Sigma fun _ : EthBlockId => EthBlockHeader,
        b ∈ (e.2.params.bind fun params =>
          if params.number = number then some (e.1, e.2, params) else none) →
        e.1 = b.1 ∧ e.2 = b.2.1 := by
      intro e h
      obtain ⟨params, _, hsome⟩ := Option.bind_eq_some_iff.mp h
      split at hsome
      · cases hsome
        exact ⟨rfl, rfl⟩
      · cases hsome
    obtain ⟨hid, hheader⟩ := hkeep e hb
    obtain ⟨hid', hheader'⟩ := hkeep e' hb'
    exact Sigma.ext (hid.trans hid'.symm) (heq_of_eq (hheader.trans hheader'.symm))
  · intro a b hne heq
    exact hne (congrArg Sigma.fst heq)

/-- One block has the number exactly if no other block has it. -/
theorem numbered_singleton_iff {id : EthBlockId} {header : EthBlockHeader} {params : BlockParams}
    (hheader : db.ethBlock.lookup id = some header) (hparams : header.params = some params) :
    numbered params.number db = [(id, header, params)] ↔
      ∀ id' params', paramsOf db id' = some params' → params'.number = params.number → id' = id := by
  have hmem : (id, header, params) ∈ numbered params.number db :=
    mem_numbered.mpr ⟨hheader, hparams, rfl⟩
  constructor
  · intro h id' params' hparams' hnumber
    obtain ⟨header', hheader', hparams'⟩ := paramsOf_eq_some.mp hparams'
    have hmem' : (id', header', params') ∈ numbered params.number db :=
      mem_numbered.mpr ⟨hheader', hparams', hnumber⟩
    rw [h, List.mem_singleton] at hmem'
    exact congrArg Prod.fst hmem'
  · intro h
    have hperm : (numbered params.number db).Perm [(id, header, params)] := by
      rw [List.perm_ext_iff_of_nodup (numbered_nodup _ db) (List.nodup_singleton _)]
      intro ⟨id', header', params'⟩
      rw [List.mem_singleton]
      constructor
      · intro hmem'
        obtain ⟨hheader', hparams', hnumber⟩ := mem_numbered.mp hmem'
        have hid := h id' params' (paramsOf_eq_some.mpr ⟨header', hheader', hparams'⟩) hnumber
        subst hid
        rw [hheader] at hheader'
        cases hheader'
        rw [hparams] at hparams'
        cases hparams'
        rfl
      · intro heq
        rwa [heq]
    exact List.perm_singleton.mp hperm

theorem mem_byTxIdx {α : Type} {rows : List (Nat × α)} {a : α} :
    a ∈ byTxIdx rows ↔ ∃ i, (i, a) ∈ rows := by
  simp [byTxIdx, List.mem_insertionSort]

theorem mem_getBlockTransactions {row : BlockTransactionRow} :
    row ∈ getBlockTransactions number db ↔ ∃ id params, paramsOf db id = some params ∧
      params.number = number ∧ (id, row.txHash) ∈ db.ethBlockTxs ∧
      db.evmTx.lookup row.txHash = some row.rlp ∧
      ∃ result, db.evmTxResult.lookup (id.1, row.txHash) = some result ∧
        row.receiptParams = result.receiptParams := by
  rw [getBlockTransactions, mem_byTxIdx]
  simp only [List.mem_flatMap, List.mem_filterMap]
  constructor
  · rintro ⟨i, ⟨id, header, params⟩, hnumbered, ⟨i', hash⟩, htx, hsome⟩
    obtain ⟨hheader, hparams, hnumber⟩ := mem_numbered.mp hnumbered
    obtain ⟨result, hresult, hsome⟩ := Option.bind_eq_some_iff.mp hsome
    obtain ⟨rlp, hrlp, hsome⟩ := Option.bind_eq_some_iff.mp hsome
    cases hsome
    exact ⟨id, params, paramsOf_eq_some.mpr ⟨header, hheader, hparams⟩, hnumber,
      HashMap.mem_of_lookup (mem_blockTxs.mp htx), hrlp, result, hresult, rfl⟩
  · rintro ⟨id, params, hparams, hnumber, htx, hrlp, result, hresult, hreceipt⟩
    obtain ⟨header, hheader, hparams⟩ := paramsOf_eq_some.mp hparams
    obtain ⟨i, hi⟩ := HashMap.lookup_of_mem htx
    refine ⟨i, (id, header, params), mem_numbered.mpr ⟨hheader, hparams, hnumber⟩, (i, row.txHash),
      mem_blockTxs.mpr hi, ?_⟩
    obtain ⟨hash, rlp, receiptParams⟩ := row
    simp only at hrlp hresult hreceipt ⊢
    rw [hresult, hrlp, hreceipt]
    rfl

/-- A header can be read if the parent hash and the timestamp were there. -/
theorem fromBlockHeaderRow_iff {row : BlockHeaderRow} :
    (∃ ethBlock, fromBlockHeaderRow row = .ok ethBlock) ↔
      row.parentHash ≠ none ∧ ∃ t, row.slotTimestamp = some t ∧ 0 ≤ t := by
  rw [fromBlockHeaderRow]
  cases hparent : row.parentHash with
  | none => simp [bind, Except.bind]
  | some parentHash =>
      cases htimestamp : row.slotTimestamp with
      | none => simp [bind, Except.bind, expectTimestamp, pure, Except.pure]
      | some t =>
          by_cases ht : 0 ≤ t
          · simp [bind, Except.bind, expectTimestamp, U256.fromTimestamp, pure, Except.pure, ht]
          · simp [bind, Except.bind, expectTimestamp, U256.fromTimestamp, pure, Except.pure, ht]

/-! ## Reading a block -/

/-- The transactions of a block that is read are those its rows are decoded to. -/
theorem getBlockByNumber_inv {b : Block Transaction}
    (h : getBlockByNumber X number true db = .ok (some (.blockWithTransactions b))) :
    ∃ e, numbered number db = [e] ∧ e.2.2.parentHash ≠ none ∧
      (∃ t, e.2.1.slotTimestamp = some t ∧ 0 ≤ t) ∧
      ∀ t, t ∈ b.transactions ↔ ∃ row ∈ getBlockTransactions number db,
        blockTransaction X row = .ok t := by
  rw [getBlockByNumber, getBlockHeader2] at h
  cases hnumbered : numbered number db with
  | nil => simp [hnumbered] at h
  | cons e rest =>
      cases rest with
      | cons e' rest => simp [hnumbered] at h
      | nil =>
          simp only [hnumbered, List.map_cons, List.map_nil, if_true] at h
          obtain ⟨ethBlock, hheader, h⟩ := Except.ok_of_bind h
          obtain ⟨txs, htxs, h⟩ := Except.ok_of_bind h
          cases h
          obtain ⟨hparent, htimestamp⟩ := fromBlockHeaderRow_iff.mp ⟨ethBlock, hheader⟩
          exact ⟨e, rfl, hparent, htimestamp, Except.mem_of_mapM htxs⟩

theorem getBlockByNumber_returns {id : EthBlockId} {header : EthBlockHeader} {params : BlockParams}
    (hnumbered : numbered number db = [(id, header, params)]) (hparent : params.parentHash ≠ none)
    (htimestamp : ∃ t, header.slotTimestamp = some t ∧ 0 ≤ t)
    (hrows : ∀ row ∈ getBlockTransactions number db, ∃ t, blockTransaction X row = .ok t) :
    ∃ b, getBlockByNumber X number true db = .ok (some (.blockWithTransactions b)) := by
  rw [getBlockByNumber, getBlockHeader2, hnumbered]
  simp only [List.map_cons, List.map_nil, if_true]
  obtain ⟨ethBlock, hheader⟩ : ∃ ethBlock, fromBlockHeaderRow {
      blockGasUsed := header.blockGasUsed
      gasRecipient := header.gasRecipient
      slotTimestamp := header.slotTimestamp
      blockhash := params.hash
      parentHash := params.parentHash
      number := params.number } = .ok ethBlock :=
    fromBlockHeaderRow_iff.mpr ⟨hparent, htimestamp⟩
  obtain ⟨txs, htxs⟩ := Except.mapM_returns hrows
  rw [hheader]
  simp only [bind, Except.bind, htxs]
  exact ⟨_, rfl⟩

/-- A row of an accepted transaction is shown as it is decoded. -/
theorem blockTransaction_accepted (hX : ReadsBack X) (htx : Accepted X tx)
    {row : BlockTransactionRow} (hrow : row.rlp = X.rlp tx) :
    ∃ t, blockTransaction X row = .ok t ∧ t.hash = tx.hash ∧
      (tx.transactionType ≠ some 0x7E → t.from_ = 0) := by
  obtain ⟨decoded, hdecode, hhash, _, hzero, _⟩ := htx.decoded hX row.txHash
  obtain ⟨hfrom, hsame⟩ := locate_from decoded row.receiptParams
  refine ⟨_, ?_, hsame.trans hhash, fun hsigned => hfrom.trans (hzero hsigned)⟩
  rw [blockTransaction, hrow, hdecode]
  rfl

/-! ## The three of them -/

/-- The transaction is stored and listed in a block, and the production of the block is
recorded. -/
structure ProducedWith (X : StorageCrates) (db : Db block) (tx : Transaction) (id : EthBlockId)
    (params : BlockParams) : Prop where
  rlp : db.evmTx.lookup tx.hash = some (X.rlp tx)
  listed : (id, tx.hash) ∈ db.ethBlockTxs
  params : paramsOf db id = some params
  receipt : db.hasReceipt id.1 tx.hash = true

/-- Each read method shows the transaction with its sender. -/
structure SendersAgree (X : StorageCrates) (db : Db block) (tx : Transaction) (number : Nat) :
    Prop where
  transaction : ∃ t, TransactionStorage.getTransaction X tx.hash db = .ok (some t) ∧
    t.from_ = tx.from_
  receipt : ∃ r, TransactionStorage.getTransactionReceipt X tx.hash db = .ok (some r) ∧
    r.from_ = tx.from_
  block : ∃ b, getBlockByNumber X number true db = .ok (some (.blockWithTransactions b)) ∧
    ∃ t ∈ b.transactions, t.hash = tx.hash ∧ t.from_ = tx.from_

/-- The transaction is signed, by the zero address; its block can be read, and all of its
receipts can be made. -/
structure ShownAlike (db : Db block) (tx : Transaction) (id : EthBlockId) (params : BlockParams) :
    Prop where
  signed : tx.transactionType ≠ some 0x7E
  zero : tx.from_ = 0
  alone : ∀ id' params', paramsOf db id' = some params' → params'.number = params.number → id' = id
  parent : params.parentHash ≠ none
  timestamp : ∀ header, db.ethBlock.lookup id = some header →
    ∃ t, header.slotTimestamp = some t ∧ 0 ≤ t
  receipts : ∀ slot row receiptParams, db.evmTxResult.lookup (slot, tx.hash) = some row →
    row.receiptParams = some receiptParams →
    TransactionStorage.ReceiptFits row.txResult receiptParams

/-- A signed transaction is shown with the zero address in its block. -/
theorem blockTransaction_zero (hX : ReadsBack X) (hstored : RlpStored X db) (htx : Accepted X tx)
    (hrlp : db.evmTx.lookup tx.hash = some (X.rlp tx)) (hsigned : tx.transactionType ≠ some 0x7E)
    {number : Nat} {row : BlockTransactionRow} {t : Transaction}
    (hrow : row ∈ getBlockTransactions number db) (hrun : blockTransaction X row = .ok t)
    (hhash : t.hash = tx.hash) : t.from_ = 0 := by
  obtain ⟨_, _, _, _, _, hrowRlp, _⟩ := mem_getBlockTransactions.mp hrow
  obtain ⟨tx', htx', hkey, hrlp'⟩ := hstored _ _ hrowRlp
  obtain ⟨t', hrun', hhash', _⟩ := blockTransaction_accepted hX htx' hrlp'
  rw [hrun] at hrun'
  cases hrun'
  have hrowHash : row.txHash = tx.hash := by rw [← hkey, ← hhash', hhash]
  rw [hrowHash, hrlp] at hrowRlp
  obtain ⟨t'', hrun'', _, hzero⟩ := blockTransaction_accepted hX htx (Option.some.inj hrowRlp).symm
  rw [hrun] at hrun''
  cases hrun''
  exact hzero hsigned

theorem blockTransactions_readable (hX : ReadsBack X) (hstored : RlpStored X db) (number : Nat) :
    ∀ row ∈ getBlockTransactions number db, ∃ t, blockTransaction X row = .ok t := by
  intro row hrow
  obtain ⟨_, _, _, _, _, hrlp, _⟩ := mem_getBlockTransactions.mp hrow
  obtain ⟨tx', htx', _, hrlp'⟩ := hstored _ _ hrlp
  obtain ⟨t, ht, _⟩ := blockTransaction_accepted hX htx' hrlp'
  exact ⟨t, ht⟩

/-- In every state of the storage the read methods agree on a signed transaction of the
zero address, and on no other. -/
theorem senders_agree_iff (hX : ReadsBack X) {tr : List (Db block × StorageAction)}
    (hrun : Machine.Run (storageMachine X) tr db)
    (hmeets : Machine.Meets (RegistersAccepted X) tr) (htx : Accepted X tx) {id : EthBlockId}
    {params : BlockParams} (h : ProducedWith X db tx id params) :
    SendersAgree X db tx params.number ↔ ShownAlike db tx id params := by
  have hstored := run_rlpStored hrun hmeets
  obtain ⟨header, hheader, hparams⟩ := paramsOf_eq_some.mp h.params
  obtain ⟨result, hresult, hreceipt⟩ : ∃ result,
      db.evmTxResult.lookup (id.1, tx.hash) = some result ∧ result.receiptParams.isSome = true := by
    have hreceipt := h.receipt
    rw [Db.hasReceipt, Option.any_eq_true] at hreceipt
    exact hreceipt
  constructor
  · intro hagree
    have hsigned : tx.transactionType ≠ some 0x7E := by
      intro hdeposit
      obtain ⟨e, he⟩ := TransactionStorage.getTransaction_deposit hX htx h.rlp hdeposit hresult
      obtain ⟨t, ht, _⟩ := hagree.transaction
      rw [he] at ht
      cases ht
    obtain ⟨b, hb, t, ht, hhash, hfrom⟩ := hagree.block
    obtain ⟨e, hnumbered, hparent, htimestamp, htransactions⟩ := getBlockByNumber_inv hb
    have he : e = (id, header, params) := by
      have hmem : (id, header, params) ∈ numbered params.number db :=
        mem_numbered.mpr ⟨hheader, hparams, rfl⟩
      rw [hnumbered, List.mem_singleton] at hmem
      exact hmem.symm
    subst he
    refine ⟨hsigned, ?_, (numbered_singleton_iff hheader hparams).mp hnumbered, hparent, ?_,
      (TransactionStorage.getTransactionReceipt_signed hX htx h.rlp hsigned hresult hreceipt).mp
        hagree.receipt⟩
    · obtain ⟨row, hrow, hrun⟩ := (htransactions t).mp ht
      rw [← hfrom, blockTransaction_zero hX hstored htx h.rlp hsigned hrow hrun hhash]
    · intro header' hheader'
      rw [hheader] at hheader'
      cases hheader'
      exact htimestamp
  · intro halike
    refine ⟨TransactionStorage.getTransaction_signed hX htx h.rlp halike.signed hresult,
      (TransactionStorage.getTransactionReceipt_signed hX htx h.rlp halike.signed hresult
        hreceipt).mpr halike.receipts, ?_⟩
    obtain ⟨b, hb⟩ := getBlockByNumber_returns
      ((numbered_singleton_iff hheader hparams).mpr halike.alone) halike.parent
      (halike.timestamp header hheader) (blockTransactions_readable hX hstored params.number)
    obtain ⟨_, _, _, _, htransactions⟩ := getBlockByNumber_inv hb
    have hrow : ⟨tx.hash, X.rlp tx, result.receiptParams⟩
        ∈ getBlockTransactions params.number db :=
      mem_getBlockTransactions.mpr ⟨id, params, h.params, rfl, h.listed, h.rlp, result, hresult, rfl⟩
    obtain ⟨t, ht, hhash, hzero⟩ : ∃ t,
        blockTransaction X ⟨tx.hash, X.rlp tx, result.receiptParams⟩ = .ok t ∧ t.hash = tx.hash ∧
          (tx.transactionType ≠ some 0x7E → t.from_ = 0) :=
      blockTransaction_accepted hX htx rfl
    exact ⟨b, hb, t, (htransactions t).mpr ⟨_, hrow, ht⟩, hhash,
      (hzero halike.signed).trans halike.zero.symm⟩

/-! One block with a transaction signed by the zero address, a deposit, and a transaction
signed by another address. -/

namespace SenderRun

def deposit : Transaction :=
  { bareTx 2 with from_ := 7, transactionType := some 0x7E, isSystemTx := true }

def signed : Transaction := { bareTx 3 with from_ := 5 }

def decode : Bytes → Except String Transaction
  | [1] => .ok (bareTx 1)
  | [2] => .ok deposit
  | [3] => .ok (bareTx 3)
  | _ => .error "RlpIncorrectListLen"

def crates : StorageCrates where
  toCrates := { standIns with ethers := { standIns.ethers with
    decode := decode
    recoverFrom := fun tx =>
      if tx.transactionType = some 0x7E then .error "signature error"
      else .ok (if tx.hash = 3 then 5 else 0) } }
  rlp tx := [UInt8.ofNat tx.hash.toNat]
  hashSenderNonce _ _ := 0

def txs : List (Transaction × TxResult) :=
  [(bareTx 1, .default), (deposit, .default), (signed, .default)]

def parsed : BTreeMap Slot BlockParseResult :=
  (∅ : BTreeMap Slot BlockParseResult).insert 5
    ⟨5, 50, 40, some 8, txs, [⟨0, [1, 2, 3], none, some 8, none⟩]⟩

def pending : PendingBlocks :=
  (∅ : PendingBlocks).insert 5 ⟨50, 8, (∅ : BTreeMap Nat PendingL2Block).insert 0
    ⟨BTreeMap.insertAll ∅ (txs.zipIdx.map fun e => (e.2, e.1)), none⟩⟩

def params : BlockParams := ⟨3, some 2, 9, 8⟩

def produced : ProducedBlocks := (∅ : ProducedBlocks).insert 5 0 params

/-- The database after a transaction that commits. -/
def after (f : Db Unit → Outcome (Unit × Db Unit)) (db : Db Unit) : Db Unit :=
  match f db with
  | .ok (_, db') => db'
  | .error _ => db

def loaded : Db Unit :=
  { (Db.empty : Db Unit) with
    solSlot := (∅ : HashMap Slot SolSlot).insert 5 ⟨4, .confirmed, some "5", some 8⟩ }

def registered : Db Unit := after (TransactionStorage.registerParseResults crates parsed) loaded

def stored : Db Unit := after (storeEthBlocks parsed) registered

def recorded : Db Unit := recordAllParams pending produced stored

def final : Db Unit := after (TransactionStorage.blocksProduced pending produced) recorded

theorem decode_ok {rlp : Bytes} {tx : Transaction} (h : decode rlp = .ok tx) :
    tx = bareTx 1 ∨ tx = deposit ∨ tx = bareTx 3 := by
  unfold decode at h
  split at h <;> cases h <;> simp

/-- The transactions that are accepted are these three. -/
theorem accepted_iff {tx : Transaction} :
    Accepted crates tx ↔ tx = bareTx 1 ∨ tx = deposit ∨ tx = signed := by
  constructor
  · rintro ⟨rlp, decoded, hdecode, hupdate⟩
    have hdecoded : decoded = bareTx 1 ∨ decoded = deposit ∨ decoded = signed := by
      rw [decodeTransactionFromRlp] at hdecode
      split at hdecode
      · cases hdecode
      · next raw hraw =>
          rcases decode_ok hraw with rfl | rfl | rfl <;> cases hdecode
          · exact Or.inl rfl
          · exact Or.inr (Or.inl rfl)
          · exact Or.inr (Or.inr rfl)
    have hsame : tx = decoded := by
      rcases hupdate with h | ⟨blockhash, logIndex, h⟩
      · exact h
      · rw [h, updateIfUserDepositedTx, if_pos]
        rcases hdecoded with rfl | rfl | rfl <;> decide
    rw [hsame]
    exact hdecoded
  · rintro (rfl | rfl | rfl)
    · exact ⟨[1], _, rfl, Or.inl rfl⟩
    · exact ⟨[2], _, rfl, Or.inl rfl⟩
    · exact ⟨[3], _, rfl, Or.inl rfl⟩

theorem readsBack : ReadsBack crates where
  decode_rlp tx h := by
    rcases accepted_iff.mp h with rfl | rfl | rfl
    · exact ⟨bareTx 1, rfl, rfl⟩
    · exact ⟨deposit, rfl, rfl⟩
    · exact ⟨bareTx 3, rfl, rfl⟩
  unrecovered rlp tx h hsigned := by
    rcases decode_ok h with rfl | rfl | rfl
    · rfl
    · exact absurd rfl hsigned
    · rfl
  unsigned tx h := ⟨_, if_pos h⟩
  signed_part tx sender blockHash blockNumber transactionIndex := rfl

theorem run : ∃ tr, Machine.Run (storageMachine crates) tr final ∧
    Machine.Meets (RegistersAccepted crates) tr := by
  have hload : (storageMachine crates).step (Db.empty : Db Unit) .solana loaded :=
    ⟨loaded.solSlot, ∅, rfl⟩
  have hregister : (storageMachine crates).step loaded (.registerTransactions parsed) registered := rfl
  have hstore : (storageMachine crates).step registered (.storeEthBlocks parsed) stored := rfl
  have hrecord : (storageMachine crates).step stored (.recordParams pending produced) recorded := rfl
  have hreceipts : (storageMachine crates).step recorded (.recordReceipts pending produced) final := rfl
  have hrun : Machine.Run (storageMachine crates) _ final :=
    .next (.next (.next (.next (.next (.start rfl) hload) hregister) hstore) hrecord) hreceipts
  refine ⟨_, hrun, ?_⟩
  intro e he
  simp only [List.nil_append, List.cons_append, List.mem_cons, List.not_mem_nil, or_false] at he
  rcases he with rfl | rfl | rfl | rfl | rfl
  · trivial
  · intro r hr t ht
    have hparsed : parsed.toList = [(5, ⟨5, 50, 40, some 8, txs,
      [⟨0, [1, 2, 3], none, some 8, none⟩]⟩)] := rfl
    rw [hparsed, List.mem_singleton] at hr
    subst hr
    simp only [txs, List.mem_cons, List.not_mem_nil, or_false] at ht
    rw [accepted_iff]
    rcases ht with rfl | rfl | rfl <;> simp
  · trivial
  · trivial
  · trivial

theorem producedWith {tx : Transaction} (h : tx = bareTx 1 ∨ tx = deposit ∨ tx = signed) :
    ProducedWith crates final tx (5, 0) params := by
  rcases h with rfl | rfl | rfl <;> exact ⟨rfl, by decide, rfl, rfl⟩

end SenderRun

open SenderRun in
/-- The lookup of the deposit fails, and the block shows the signed transaction as one of
the zero address. -/
theorem senders_disagree :
    ReadsBack crates ∧
    (∃ tr, Machine.Run (storageMachine crates) tr final ∧
      Machine.Meets (RegistersAccepted crates) tr) ∧
    (Accepted crates deposit ∧ ProducedWith crates final deposit (5, 0) params ∧
      TransactionStorage.getTransaction crates deposit.hash final
        = .error (.err (.signatureError "signature error")) ∧
      ¬ SendersAgree crates final deposit params.number) ∧
    (Accepted crates signed ∧ ProducedWith crates final signed (5, 0) params ∧
      signed.from_ = 5 ∧
      ¬ SendersAgree crates final signed params.number) := by
  have hlookup : TransactionStorage.getTransaction crates deposit.hash final
      = .error (.err (.signatureError "signature error")) := rfl
  refine ⟨readsBack, run, ⟨accepted_iff.mpr (Or.inr (Or.inl rfl)),
    producedWith (Or.inr (Or.inl rfl)), hlookup, fun h => ?_⟩, accepted_iff.mpr (Or.inr (Or.inr rfl)),
    producedWith (Or.inr (Or.inr rfl)), rfl, fun h => ?_⟩
  · obtain ⟨t, ht, _⟩ := h.transaction
    rw [hlookup] at ht
    cases ht
  · obtain ⟨b, hb, t, ht, hhash, hfrom⟩ := h.block
    have hread : getBlockByNumber crates params.number true final = .ok (some
        (.blockWithTransactions ⟨some 3, 2, some 9, EMPTY_ROOT, 0, 8,
          [(bareTx 1).locate ⟨3, 9, 0, 0, 0⟩, deposit.locate ⟨3, 9, 1, 0, 0⟩,
            (bareTx 3).locate ⟨3, 9, 2, 0, 0⟩]⟩)) := rfl
    rw [hread] at hb
    cases hb
    have hzero : ∀ t ∈ [(bareTx 1).locate ⟨3, 9, 0, 0, 0⟩, deposit.locate ⟨3, 9, 1, 0, 0⟩,
        (bareTx 3).locate ⟨3, 9, 2, 0, 0⟩], t.hash = signed.hash → t.from_ ≠ signed.from_ := by
      decide
    exact hzero t ht hhash hfrom

open SenderRun in
theorem zero_sender_agrees : SendersAgree crates final (bareTx 1) params.number := by
  obtain ⟨tr, hrun, hmeets⟩ := run
  refine (senders_agree_iff readsBack hrun hmeets (accepted_iff.mpr (Or.inl rfl))
    (producedWith (Or.inl rfl))).mpr ?_
  refine ⟨by decide, rfl, ?_, by decide, ?_, ?_⟩
  · intro id' params' hparams' _
    obtain ⟨header', hheader', _⟩ := paramsOf_eq_some.mp hparams'
    have hall : ∀ e ∈ final.ethBlock.entries, e.1 = (5, 0) := by decide
    exact hall ⟨id', header'⟩ ((HashMap.mem_entries _ _ _).mpr hheader')
  · intro header hheader
    have hfinal : final.ethBlock.lookup (5, 0) = some ⟨0, none, some 8, some params⟩ := rfl
    rw [hfinal] at hheader
    cases hheader
    exact ⟨8, rfl, by decide⟩
  · intro slot row receiptParams hrow hparams
    have hall : ∀ e ∈ final.evmTxResult.entries, e.2.txResult = .default ∧
        e.2.receiptParams.all (fun receiptParams => receiptParams.blockGasUsed = 0) = true := by
      decide
    obtain ⟨hresult, hgas⟩ := hall ⟨(slot, 1), row⟩ ((HashMap.mem_entries _ _ _).mpr hrow)
    simp only [hparams, Option.all_some, decide_eq_true_eq] at hgas
    simp only at hresult
    rw [hresult]
    exact ⟨by rw [hgas]; decide, fun h => absurd h (by decide)⟩

end PgStorage

end RomeSdk
