import RomeSdk.Proofs.LogIndices
import RomeSdk.Proofs.Senders

/-!
# The order of the rows of a transaction

A transaction that is in several slots has a row for each, and the database returns them in
any order. The lookup of a receipt makes each receipt from its own row, so the order does not
show. The lookup of the transaction writes the place of a row into the one transaction it
keeps, and a row without a place takes over what is written there by then. So the answer is
that of the highest slot, whatever the order, exactly when the row of this slot has a place,
or no row has.
-/

namespace RomeSdk

namespace TransactionStorage

variable {block : Type} {X : StorageCrates} {txHash : TxHash}

/-! ## The lookups, from the rows they get -/

def transactionOf (X : StorageCrates) (txHash : TxHash) (rows : List TransactionRow) :
    Outcome (Option Transaction) := do
  let found ← rows.foldlM (addTransaction X txHash) ⟨none, ∅⟩
  pure found.last

def receiptOf (X : StorageCrates) (txHash : TxHash) (rows : List TransactionRow) :
    Outcome (Option TransactionReceipt) := do
  let found ← rows.foldlM (addReceipt X txHash) ⟨none, ∅⟩
  pure found.last

theorem getTransaction_rows (X : StorageCrates) (txHash : TxHash) (db : Db block) :
    getTransaction X txHash db = transactionOf X txHash (getTransactionInternal txHash db) := rfl

theorem getTransactionReceipt_rows (X : StorageCrates) (txHash : TxHash) (db : Db block) :
    getTransactionReceipt X txHash db = receiptOf X txHash (getTransactionInternal txHash db) := rfl

/-- The rows of one transaction: they have its rlp, and one slot each. -/
structure RowsOf (rlp : Bytes) (rows : List TransactionRow) : Prop where
  rlp : ∀ row ∈ rows, row.rlp = rlp
  slots : (rows.map TransactionRow.slotNumber).Nodup

theorem RowsOf.perm {rlp : Bytes} {rows rows' : List TransactionRow} (h : RowsOf rlp rows)
    (hperm : rows'.Perm rows) : RowsOf rlp rows' where
  rlp row hrow := h.rlp row (hperm.mem_iff.mp hrow)
  slots := (hperm.map _).nodup_iff.mpr h.slots

theorem rowsOf_getTransactionInternal (txHash : TxHash) (db : Db block) :
    ∃ rlp, RowsOf rlp (getTransactionInternal txHash db) := by
  rw [getTransactionInternal]
  cases db.evmTx.lookup txHash with
  | none => exact ⟨[], ⟨fun row hrow => (by cases hrow), List.nodup_nil⟩⟩
  | some rlp =>
      refine ⟨rlp, ⟨?_, ?_⟩⟩
      · intro row hrow
        obtain ⟨e, _, he⟩ := List.mem_filterMap.mp hrow
        split at he
        · cases he
          rfl
        · cases he
      · have hkeys := List.nodupKeys_iff_pairwise.mp db.evmTxResult.nodupKeys
        rw [List.nodup_iff_pairwise_ne, List.pairwise_map, List.pairwise_filterMap]
        refine hkeys.imp ?_
        intro e e' hne row hrow row' hrow' hslot
        split at hrow
        · next hhash =>
            split at hrow'
            · next hhash' =>
                cases hrow
                cases hrow'
                exact hne (Prod.ext hslot (hhash.trans hhash'.symm))
            · cases hrow'
        · cases hrow

/-! ## The sender of each row -/

/-- What is relied on of `ethers`: the rlp has no place in a block, and what is signed is
neither the sender nor the place. -/
structure DecodesPlain (X : StorageCrates) : Prop where
  unplaced : ∀ rlp tx, X.ethers.decode rlp = .ok tx →
    tx.blockHash = none ∧ tx.blockNumber = none ∧ tx.transactionIndex = none
  signed_part : ∀ tx sender blockHash blockNumber transactionIndex,
    X.ethers.recoverFrom { tx with
      from_ := sender
      blockHash := blockHash
      blockNumber := blockNumber
      transactionIndex := transactionIndex } = X.ethers.recoverFrom tx

/-- The transaction at the place of a row, if it has one. -/
def placed (tx : Transaction) (receiptParams : Option ReceiptParams) : Transaction :=
  (receiptParams.map tx.locate).getD tx

/-- A later place replaces the one before. -/
theorem placed_placed (tx : Transaction) (before row : Option ReceiptParams) :
    placed (placed tx before) row = placed tx (row.or before) := by
  cases before <;> cases row <;> rfl

/-- The first row decides whether there is a sender. -/
theorem senderRecovered_rlp {row row' : TransactionRow} (h : row.rlp = row'.rlp) :
    senderRecovered X txHash none row = senderRecovered X txHash none row' := by
  rw [senderRecovered, senderRecovered, h]

theorem senderRecovered_ok {row : TransactionRow} {tx : Transaction}
    (h : senderRecovered X txHash none row = .ok tx) :
    ∃ decoded sender, X.ethers.decode row.rlp = .ok decoded ∧
      X.ethers.recoverFrom decoded = .ok sender ∧ tx = { decoded with from_ := sender } := by
  rw [senderRecovered] at h
  obtain ⟨decoded, hdecoded, h⟩ := Except.ok_of_bind h
  rw [decodeStored] at hdecoded
  dsimp only [Option.getD_none] at h
  split at hdecoded
  · next hdecode =>
      cases hdecoded
      split at h
      · next sender hsender =>
          cases h
          exact ⟨_, sender, hdecode, hsender, rfl⟩
      · cases h
  · cases hdecoded

/-- Recovering the sender once more, at a later row, changes nothing. -/
theorem senderRecovered_again (hX : DecodesPlain X) {row : TransactionRow} {tx : Transaction}
    (h : senderRecovered X txHash none row = .ok tx) (place : Option ReceiptParams) :
    senderRecovered X txHash (some (placed tx place)) row = .ok (placed tx place) := by
  obtain ⟨decoded, sender, hdecode, hrecover, rfl⟩ := senderRecovered_ok h
  have hagain : X.ethers.recoverFrom (placed { decoded with from_ := sender } place) =
      .ok sender := by
    cases place with
    | none => exact (hX.signed_part decoded sender _ _ _).trans hrecover
    | some place => exact (hX.signed_part decoded sender _ _ _).trans hrecover
  rw [senderRecovered, decodeStored, hdecode]
  simp only [bind, Except.bind, Option.getD_some, hagain]
  cases place <;> rfl

theorem senderRecovered_found (hX : DecodesPlain X) {row : TransactionRow} {tx : Transaction}
    (h : senderRecovered X txHash none row = .ok tx) {found : Option Transaction}
    {place : Option ReceiptParams}
    (hfound : (found = none ∧ place = none) ∨ found = some (placed tx place)) :
    senderRecovered X txHash found row = .ok (placed tx place) := by
  rcases hfound with ⟨rfl, rfl⟩ | rfl
  · exact h
  · exact senderRecovered_again hX h place

theorem senderRecovered_unplaced (hX : DecodesPlain X) {row : TransactionRow} {tx : Transaction}
    (h : senderRecovered X txHash none row = .ok tx) {found : Option Transaction}
    (hfound : found = none ∨ found = some tx) : senderRecovered X txHash found row = .ok tx := by
  show senderRecovered X txHash found row = .ok (placed tx none)
  exact senderRecovered_found hX h (hfound.imp (fun h => ⟨h, rfl⟩) id)

/-! ## The row of the highest slot -/

/-- The row whose slot is reported. -/
def Highest (rows : List TransactionRow) (row : TransactionRow) : Prop :=
  row ∈ rows ∧ ∀ row' ∈ rows, row'.slotNumber ≤ row.slotNumber

theorem Highest.perm {rows rows' : List TransactionRow} {row : TransactionRow}
    (h : Highest rows row) (hperm : rows'.Perm rows) : Highest rows' row :=
  ⟨hperm.mem_iff.mpr h.1, fun row' hrow' => h.2 row' (hperm.mem_iff.mp hrow')⟩

theorem exists_highest : ∀ {rows : List TransactionRow}, rows ≠ [] → ∃ row, Highest rows row
  | [], h => absurd rfl h
  | [row], _ => ⟨row, List.mem_singleton_self _, fun row' hrow' => by
      rw [List.mem_singleton.mp hrow']⟩
  | row :: next :: rows, _ => by
      obtain ⟨high, hmem, hmax⟩ := exists_highest (List.cons_ne_nil next rows)
      rcases Nat.le_total high.slotNumber row.slotNumber with hle | hle
      · refine ⟨row, List.mem_cons_self, fun row' hrow' => ?_⟩
        rcases List.mem_cons.mp hrow' with rfl | hrow'
        · exact Nat.le_refl _
        · exact Nat.le_trans (hmax row' hrow') hle
      · refine ⟨high, List.mem_cons_of_mem _ hmem, fun row' hrow' => ?_⟩
        rcases List.mem_cons.mp hrow' with rfl | hrow'
        · exact hle
        · exact hmax row' hrow'

theorem Highest.unique {rlp : Bytes} {rows : List TransactionRow} {row row' : TransactionRow}
    (hrows : RowsOf rlp rows) (h : Highest rows row) (h' : Highest rows row') : row = row' :=
  List.inj_on_of_nodup_map hrows.slots h.1 h'.1 (Nat.le_antisymm (h'.2 row h.1) (h.2 row' h'.1))

/-- The result of the highest slot is the last one. -/
theorem Found.last_eq {α : Type} {found : Found α} (slot : Slot) {v : α}
    (hv : found.results[slot]? = some v) (hmax : ∀ k ∈ found.results, k ≤ slot) :
    found.last = some v := by
  have hmem : (slot, v) ∈ found.results.toList := (BTreeMap.mem_toList _ _ _).mpr hv
  obtain ⟨before, after, hlist⟩ := List.append_of_mem hmem
  have hascending := BTreeMap.toList_ascending found.results
  have hnil : after = [] := by
    rw [List.eq_nil_iff_forall_not_mem]
    intro e he
    rw [hlist, List.pairwise_append, List.pairwise_cons] at hascending
    have hlt := hascending.2.1.1 e he
    have hin : (e.1, e.2) ∈ found.results.toList := by
      rw [hlist]
      exact List.mem_append_right _ (List.mem_cons_of_mem _ he)
    have hkey := (BTreeMap.mem_toList _ _ _).mp hin
    have hle := hmax e.1 (Std.ExtTreeMap.mem_iff_isSome_getElem?.mpr (by rw [hkey]; rfl))
    exact Nat.not_le.mpr hlt hle
  rw [Found.last, hlist, hnil, List.getLast?_concat]
  rfl

/-! ## Looking up the transaction -/

/-- The place that is written in the transaction after some rows. -/
def placeAfter (place : Option ReceiptParams) (rows : List TransactionRow) :
    Option ReceiptParams :=
  rows.foldl (fun place row => row.receiptParams.or place) place

theorem placeAfter_none {rows : List TransactionRow}
    (h : ∀ row ∈ rows, row.receiptParams = none) : placeAfter none rows = none := by
  induction rows with
  | nil => rfl
  | cons row rows ih =>
      rw [List.forall_mem_cons] at h
      rw [placeAfter, List.foldl_cons, h.1]
      exact ih h.2

theorem placeAfter_isSome {rows : List TransactionRow} : ∀ {place : Option ReceiptParams},
    (place.isSome ∨ ∃ row ∈ rows, row.receiptParams.isSome) → (placeAfter place rows).isSome := by
  induction rows with
  | nil => simp [placeAfter]
  | cons row rows ih =>
      intro place h
      rw [placeAfter, List.foldl_cons]
      refine ih ?_
      rw [Option.isSome_or]
      simp only [List.exists_mem_cons_iff] at h
      rcases h with h | h | h
      · simp [h]
      · simp [h]
      · exact Or.inr h

/-- What the rounds store by their slots. -/
def snapshots (tx : Transaction) :
    Option ReceiptParams → List TransactionRow → List (Slot × Transaction)
  | _, [] => []
  | place, row :: rows =>
      (row.slotNumber, placed tx (row.receiptParams.or place)) ::
        snapshots tx (row.receiptParams.or place) rows

theorem snapshots_keys (tx : Transaction) (rows : List TransactionRow) :
    ∀ place, (snapshots tx place rows).map Prod.fst = rows.map TransactionRow.slotNumber := by
  induction rows with
  | nil => exact fun _ => rfl
  | cons row rows ih =>
      intro place
      rw [snapshots, List.map_cons, List.map_cons, ih]

theorem snapshots_append (tx : Transaction) (rows later : List TransactionRow) :
    ∀ place, snapshots tx place (rows ++ later) =
      snapshots tx place rows ++ snapshots tx (placeAfter place rows) later := by
  induction rows with
  | nil => exact fun _ => rfl
  | cons row rows ih =>
      intro place
      rw [List.cons_append, snapshots, snapshots, ih, List.cons_append]
      rfl

theorem transactionLoop (hX : DecodesPlain X) {tx : Transaction} {rows : List TransactionRow}
    (hread : ∀ row ∈ rows, senderRecovered X txHash none row = .ok tx) :
    ∀ (place : Option ReceiptParams) (found : Found Transaction),
      ((found.tx = none ∧ place = none) ∨ found.tx = some (placed tx place)) →
        ∃ found', rows.foldlM (addTransaction X txHash) found = .ok found' ∧
          found'.results = found.results.insertAll (snapshots tx place rows) := by
  induction rows with
  | nil => exact fun _ _ _ => ⟨_, rfl, rfl⟩
  | cons row rows ih =>
      intro place found hfound
      rw [List.forall_mem_cons] at hread
      have hround : addTransaction X txHash found row =
          .ok ⟨some (placed tx (row.receiptParams.or place)),
            found.results.insert row.slotNumber (placed tx (row.receiptParams.or place))⟩ := by
        rw [addTransaction, senderRecovered_found hX hread.1 hfound, ← placed_placed]
        rfl
      obtain ⟨found', hrun, hresults⟩ := ih hread.2
        (row.receiptParams.or place) ⟨some _, _⟩ (.inr rfl)
      refine ⟨found', ?_, hresults⟩
      rw [List.foldlM_cons, hround]
      exact hrun

/-- The answer is the transaction with the place that is written in it when the row of the
highest slot is done. -/
theorem transactionOf_highest (hX : DecodesPlain X) {tx : Transaction} {rlp : Bytes}
    {before after : List TransactionRow} {row : TransactionRow}
    (hrows : RowsOf rlp (before ++ row :: after))
    (hread : ∀ row' ∈ before ++ row :: after, senderRecovered X txHash none row' = .ok tx)
    (hhigh : Highest (before ++ row :: after) row) :
    transactionOf X txHash (before ++ row :: after) =
      .ok (some (placed tx (row.receiptParams.or (placeAfter none before)))) := by
  obtain ⟨found, hrun, hresults⟩ := transactionLoop hX hread none ⟨none, ∅⟩
    (.inl ⟨rfl, rfl⟩)
  have hkeys := snapshots_keys tx (before ++ row :: after) none
  have hlast : found.last = some (placed tx (row.receiptParams.or (placeAfter none before))) := by
    refine Found.last_eq row.slotNumber ?_ ?_
    · rw [hresults, BTreeMap.get?_insertAll _ (hkeys ▸ hrows.slots), snapshots_append]
      exact .inl (List.mem_append_right _ List.mem_cons_self)
    · intro k hk
      rw [hresults, BTreeMap.mem_keys_insertAll, hkeys] at hk
      rcases hk with hk | hk
      · obtain ⟨row', hrow', rfl⟩ := List.mem_map.mp hk
        exact hhigh.2 row' hrow'
      · exact absurd hk Std.ExtTreeMap.not_mem_empty
  rw [transactionOf, hrun]
  exact congrArg Except.ok hlast

/-! ## Looking up the receipt -/

theorem checkedAdd_panics {a b : U256} {e : Failure} (h : U256.checkedAdd a b = .error e) :
    ∃ message, e = .panic message := by
  rw [U256.checkedAdd] at h
  split at h
  · cases h
  · cases h
    exact ⟨_, rfl⟩

theorem receiptLogs_panics {tx : Transaction} {receiptParams : ReceiptParams} (logs : List Log) :
    ∀ {logIndex : Nat} {transactionLogIndex : U256} {e : Failure},
      receiptLogs tx receiptParams logs logIndex transactionLogIndex = .error e →
        ∃ message, e = .panic message := by
  induction logs with
  | nil => exact fun h => by cases h
  | cons log logs ih =>
      intro logIndex transactionLogIndex e h
      rw [receiptLogs] at h
      cases hsum : U256.checkedAdd (BitVec.ofNat 256 logIndex) transactionLogIndex with
      | error f =>
          rw [hsum] at h
          cases h
          exact ⟨_, rfl⟩
      | ok index =>
          rw [hsum] at h
          cases hnext : U256.checkedAdd transactionLogIndex 1 with
          | error f =>
              rw [hnext] at h
              cases h
              exact checkedAdd_panics hnext
          | ok next =>
              rw [hnext] at h
              cases hrest : receiptLogs tx receiptParams logs (logIndex + 1) next with
              | error f =>
                  simp only [Except.mapError, bind, Except.bind, hrest] at h
                  cases h
                  exact ih hrest
              | ok rest =>
                  simp only [Except.mapError, bind, Except.bind, hrest] at h
                  cases h

/-- A receipt that cannot be made ends the process. -/
theorem newReceipt_panics {tx : Transaction} {txResult : TxResult} {receiptParams : ReceiptParams}
    {e : Failure} (h : newReceipt X tx txResult receiptParams = .error e) :
    ∃ message, e = .panic message := by
  rw [newReceipt] at h
  cases hgas : U256.checkedAdd receiptParams.blockGasUsed txResult.gasReport.gasValue with
  | error f =>
      rw [hgas] at h
      cases h
      exact ⟨_, rfl⟩
  | ok gas =>
      rw [hgas] at h
      cases hlogs : receiptLogs tx receiptParams txResult.logs 0 receiptParams.firstLogIndex with
      | error f =>
          simp only [Except.mapError, bind, Except.bind, hlogs] at h
          cases h
          exact receiptLogs_panics _ hlogs
      | ok logs =>
          simp only [Except.mapError, bind, Except.bind, hlogs] at h
          cases h

/-- The receipts that can be made, by the slots of their rows. -/
def receiptEntries (X : StorageCrates) (tx : Transaction) (rows : List TransactionRow) :
    List (Slot × TransactionReceipt) :=
  rows.filterMap fun row => row.receiptParams.bind fun receiptParams =>
    (newReceipt X tx row.txResult receiptParams).toOption.map fun receipt =>
      (row.slotNumber, receipt)

/-- The receipt of the row can be made, if it has one. -/
def Fits (row : TransactionRow) : Prop :=
  ∀ receiptParams, row.receiptParams = some receiptParams → ReceiptFits row.txResult receiptParams

/-- A round at a row whose receipt can be made. -/
theorem addReceipt_fitting {row : TransactionRow} {tx : Transaction}
    {found : Found TransactionReceipt} (hsender : senderRecovered X txHash found.tx row = .ok tx)
    (hfits : Fits row) :
    addReceipt X txHash found row =
      .ok ⟨some tx, found.results.insertAll (receiptEntries X tx [row])⟩ := by
  rw [addReceipt, hsender, receiptEntries, List.filterMap_cons, List.filterMap_nil]
  cases hparams : row.receiptParams with
  | none => rfl
  | some receiptParams =>
      obtain ⟨receipt, hreceipt⟩ : ∃ receipt,
          newReceipt X tx row.txResult receiptParams = .ok receipt :=
        newReceipt_iff.mpr (hfits receiptParams hparams)
      rw [Option.bind_some, hreceipt]
      simp only [bind, Except.bind, hreceipt]
      rfl

theorem receiptLoop_ok (hX : DecodesPlain X) {tx : Transaction} {rows : List TransactionRow}
    (hread : ∀ row ∈ rows, senderRecovered X txHash none row = .ok tx)
    (hfits : ∀ row ∈ rows, Fits row) :
    ∀ found : Found TransactionReceipt, (found.tx = none ∨ found.tx = some tx) →
      ∃ found', rows.foldlM (addReceipt X txHash) found = .ok found' ∧
        found'.results = found.results.insertAll (receiptEntries X tx rows) := by
  induction rows with
  | nil => exact fun found _ => ⟨found, rfl, rfl⟩
  | cons row rows ih =>
      intro found hfound
      rw [List.forall_mem_cons] at hread hfits
      have hsender := senderRecovered_unplaced hX hread.1 hfound
      obtain ⟨found', hrun, hresults⟩ := ih hread.2 hfits.2 ⟨some tx, _⟩ (.inr rfl)
      refine ⟨found', ?_, ?_⟩
      · rw [List.foldlM_cons, addReceipt_fitting hsender hfits.1]
        exact hrun
      · have hsplit : receiptEntries X tx (row :: rows) =
            receiptEntries X tx [row] ++ receiptEntries X tx rows :=
          List.filterMap_append (l := [row])
        rw [hresults, hsplit, BTreeMap.insertAll_append]

theorem receiptLoop_panics (hX : DecodesPlain X) {tx : Transaction} {rows : List TransactionRow}
    (hread : ∀ row ∈ rows, senderRecovered X txHash none row = .ok tx)
    (hfits : ∃ row ∈ rows, ¬ Fits row) :
    ∀ found : Found TransactionReceipt, (found.tx = none ∨ found.tx = some tx) →
      ∃ message, rows.foldlM (addReceipt X txHash) found = .error (.panic message) := by
  induction rows with
  | nil =>
      obtain ⟨row, hrow, _⟩ := hfits
      cases hrow
  | cons row rows ih =>
      intro found hfound
      rw [List.forall_mem_cons] at hread
      rw [List.exists_mem_cons_iff] at hfits
      have hsender := senderRecovered_unplaced hX hread.1 hfound
      by_cases hrow : Fits row
      · obtain ⟨message, hpanic⟩ :=
          ih hread.2 (hfits.resolve_left (not_not_intro hrow)) ⟨some tx, _⟩ (.inr rfl)
        refine ⟨message, ?_⟩
        rw [List.foldlM_cons, addReceipt_fitting hsender hrow]
        exact hpanic
      · simp only [Fits, not_forall] at hrow
        obtain ⟨receiptParams, hparams, hnot⟩ := hrow
        have hnone : ¬ ∃ receipt, newReceipt X tx row.txResult receiptParams = .ok receipt :=
          mt newReceipt_iff.mp hnot
        cases hreceipt : newReceipt X tx row.txResult receiptParams with
        | ok receipt => exact absurd ⟨receipt, hreceipt⟩ hnone
        | error e =>
            obtain ⟨message, rfl⟩ := newReceipt_panics hreceipt
            refine ⟨message, ?_⟩
            rw [List.foldlM_cons, addReceipt, hsender]
            simp only [bind, Except.bind, hparams, hreceipt]

/-- The slots of the receipts are those of some rows. -/
theorem receiptEntries_keys (X : StorageCrates) (tx : Transaction) {rows : List TransactionRow}
    (h : (rows.map TransactionRow.slotNumber).Nodup) :
    ((receiptEntries X tx rows).map Prod.fst).Nodup := by
  rw [List.nodup_iff_pairwise_ne, List.pairwise_map] at h
  rw [List.nodup_iff_pairwise_ne, List.pairwise_map, receiptEntries, List.pairwise_filterMap]
  refine h.imp ?_
  intro row row' hne e he e' he' heq
  simp only [Option.bind_eq_some_iff, Option.map_eq_some_iff] at he he'
  obtain ⟨_, _, _, _, rfl⟩ := he
  obtain ⟨_, _, _, _, rfl⟩ := he'
  exact hne heq

/-! ## Any order -/

/-- What a call returns. One that panics returns nothing. -/
def returned {α : Type} : Outcome α → Option (ProgramResult α)
  | .ok a => some (.ok a)
  | .error (.err e) => some (.error e)
  | .error (.panic _) => none

theorem receiptOf_perm (hX : DecodesPlain X) {tx : Transaction} {rlp : Bytes}
    {rows rows' : List TransactionRow} (hrows : RowsOf rlp rows) (hperm : rows'.Perm rows)
    (hread : ∀ row ∈ rows, senderRecovered X txHash none row = .ok tx) :
    returned (receiptOf X txHash rows') = returned (receiptOf X txHash rows) := by
  have hread' : ∀ row ∈ rows', senderRecovered X txHash none row = .ok tx :=
    fun row hrow => hread row (hperm.mem_iff.mp hrow)
  by_cases hfits : ∀ row ∈ rows, Fits row
  · obtain ⟨found, hrun, hresults⟩ := receiptLoop_ok hX hread hfits ⟨none, ∅⟩ (.inl rfl)
    obtain ⟨found', hrun', hresults'⟩ := receiptLoop_ok hX hread'
      (fun row hrow => hfits row (hperm.mem_iff.mp hrow)) ⟨none, ∅⟩ (.inl rfl)
    have hsame : found'.results = found.results := by
      rw [hresults, hresults']
      exact BTreeMap.insertAll_perm (receiptEntries_keys X tx hrows.slots) (hperm.filterMap _) _
    have hlast : found'.last = found.last := by rw [Found.last, Found.last, hsame]
    rw [receiptOf, receiptOf, hrun, hrun']
    show returned (.ok found'.last) = returned (.ok found.last)
    rw [hlast]
  · simp only [not_forall] at hfits
    obtain ⟨row, hrow, hnot⟩ := hfits
    obtain ⟨message, hrun⟩ := receiptLoop_panics hX hread ⟨row, hrow, hnot⟩ ⟨none, ∅⟩ (.inl rfl)
    obtain ⟨message', hrun'⟩ := receiptLoop_panics hX hread'
      ⟨row, hperm.mem_iff.mpr hrow, hnot⟩ ⟨none, ∅⟩ (.inl rfl)
    rw [receiptOf, receiptOf, hrun, hrun']
    rfl

/-- With no sender for its first row a lookup fails. -/
theorem lookup_unread {e : Failure} {rows : List TransactionRow} (hne : rows ≠ [])
    (hread : ∀ row ∈ rows, senderRecovered X txHash none row = .error e) :
    transactionOf X txHash rows = .error e ∧ receiptOf X txHash rows = .error e := by
  cases rows with
  | nil => exact absurd rfl hne
  | cons row rows =>
      have hrow := hread row List.mem_cons_self
      rw [transactionOf, receiptOf, List.foldlM_cons, List.foldlM_cons, addTransaction, addReceipt,
        hrow]
      exact ⟨rfl, rfl⟩

/-- The lookups do not depend on the order of the rows, and the place of a transaction is that
of the row whose slot is reported. -/
structure OrderFree (X : StorageCrates) (txHash : TxHash) (rows : List TransactionRow) :
    Prop where
  transaction : ∀ rows', rows'.Perm rows →
    returned (transactionOf X txHash rows') = returned (transactionOf X txHash rows)
  receipt : ∀ rows', rows'.Perm rows →
    returned (receiptOf X txHash rows') = returned (receiptOf X txHash rows)
  place : ∀ rows', rows'.Perm rows → ∀ tx hash number,
    transactionOf X txHash rows' = .ok (some tx) → tx.blockHash = some hash →
      tx.blockNumber = some number → ∃ row receiptParams, Highest rows row ∧
        row.receiptParams = some receiptParams ∧ receiptParams.blockhash = hash ∧
          receiptParams.blockNumber = number

/-- Any order gives the transaction at the place of the highest row, if this one place is
all there is to find. -/
theorem transactionOf_place (hX : DecodesPlain X) {tx : Transaction} {rlp : Bytes}
    {rows : List TransactionRow} {row : TransactionRow} (hrows : RowsOf rlp rows)
    (hread : ∀ row ∈ rows, senderRecovered X txHash none row = .ok tx) (hhigh : Highest rows row)
    (hplace : row.receiptParams.isSome ∨ ∀ row ∈ rows, row.receiptParams = none) :
    transactionOf X txHash rows = .ok (some (placed tx row.receiptParams)) := by
  obtain ⟨before, after, rfl⟩ := List.append_of_mem hhigh.1
  rw [transactionOf_highest hX hrows hread hhigh]
  rcases hplace with hsome | hnone
  · obtain ⟨receiptParams, hparams⟩ := Option.isSome_iff_exists.mp hsome
    rw [hparams]
    rfl
  · rw [placeAfter_none fun row' hrow' => hnone row' (List.mem_append_left _ hrow'), Option.or_none]

/-- The highest row has no place: it shows the one that is left in the transaction if it
comes after a row that has one, and none if it comes first. -/
theorem not_orderFree (hX : DecodesPlain X) {tx : Transaction} {rlp : Bytes}
    {rows : List TransactionRow} {row other : TransactionRow} (hrows : RowsOf rlp rows)
    (hread : ∀ row ∈ rows, senderRecovered X txHash none row = .ok tx) (hhigh : Highest rows row)
    (hrow : row.receiptParams = none) (hother : other ∈ rows)
    (hplace : other.receiptParams.isSome) : ¬ OrderFree X txHash rows := by
  intro hfree
  have hin : other ∈ rows.erase row := by
    rw [List.mem_erase_of_ne]
    · exact hother
    · intro heq
      rw [heq, hrow] at hplace
      cases hplace
  have hfirst : ([] ++ row :: rows.erase row).Perm rows :=
    (List.perm_cons_erase hhigh.1).symm
  have hlast : (rows.erase row ++ row :: []).Perm rows :=
    (List.perm_append_singleton _ _).trans hfirst
  have hone := transactionOf_highest hX (hrows.perm hfirst)
    (fun row hrow => hread row (hfirst.mem_iff.mp hrow)) (hhigh.perm hfirst)
  have htwo := transactionOf_highest hX (hrows.perm hlast)
    (fun row hrow => hread row (hlast.mem_iff.mp hrow)) (hhigh.perm hlast)
  have hsame := (hfree.transaction _ hfirst).trans (hfree.transaction _ hlast).symm
  rw [hone, htwo, hrow] at hsame
  obtain ⟨left, hleft⟩ := Option.isSome_iff_exists.mp
    (placeAfter_isSome (.inr ⟨other, hin, hplace⟩) : (placeAfter none (rows.erase row)).isSome)
  rw [hleft] at hsame
  have hhash : tx.blockHash = some left.blockhash := by
    simp only [returned, Option.some.injEq, Except.ok.injEq] at hsame
    exact congrArg Transaction.blockHash hsame
  obtain ⟨decoded, sender, hdecode, _, rfl⟩ := senderRecovered_ok (hread row hhigh.1)
  rw [show ({ decoded with from_ := sender } : Transaction).blockHash = decoded.blockHash from rfl,
    (hX.unplaced _ _ hdecode).1] at hhash
  cases hhash

theorem orderFree_nil (X : StorageCrates) (txHash : TxHash) : OrderFree X txHash [] := by
  refine ⟨?_, ?_, ?_⟩
  · intro rows' hperm
    rw [hperm.eq_nil]
  · intro rows' hperm
    rw [hperm.eq_nil]
  · intro rows' hperm tx hash number htx
    rw [hperm.eq_nil] at htx
    cases htx

/-- Rows that are not read give the same error in any order. -/
theorem orderFree_unread {rows : List TransactionRow} {e : Failure} (hne : rows ≠ [])
    (hread : ∀ row ∈ rows, senderRecovered X txHash none row = .error e) :
    OrderFree X txHash rows := by
  have hlookup : ∀ rows' : List TransactionRow, rows'.Perm rows →
      transactionOf X txHash rows' = .error e ∧ receiptOf X txHash rows' = .error e :=
    fun rows' hperm => lookup_unread (fun hnil => hne (hnil ▸ hperm).symm.eq_nil)
      fun row hrow => hread row (hperm.mem_iff.mp hrow)
  refine ⟨?_, ?_, ?_⟩
  · intro rows' hperm
    rw [(hlookup rows' hperm).1, (hlookup rows (List.Perm.refl _)).1]
  · intro rows' hperm
    rw [(hlookup rows' hperm).2, (hlookup rows (List.Perm.refl _)).2]
  · intro rows' hperm tx hash number htx
    rw [(hlookup rows' hperm).1] at htx
    cases htx

/-- One place is all there is to find, and it is that of the highest row. -/
theorem orderFree_placed (hX : DecodesPlain X) {tx : Transaction} {rlp : Bytes}
    {rows : List TransactionRow} {high : TransactionRow} (hrows : RowsOf rlp rows)
    (hread : ∀ row ∈ rows, senderRecovered X txHash none row = .ok tx) (hhigh : Highest rows high)
    (hplace : high.receiptParams.isSome ∨ ∀ row ∈ rows, row.receiptParams = none) :
    OrderFree X txHash rows := by
  have hanswer : ∀ rows' : List TransactionRow, rows'.Perm rows →
      transactionOf X txHash rows' = .ok (some (placed tx high.receiptParams)) :=
    fun rows' hperm => transactionOf_place hX (hrows.perm hperm)
      (fun row hrow => hread row (hperm.mem_iff.mp hrow)) (hhigh.perm hperm)
      (hplace.imp id fun hnone row hrow => hnone row (hperm.mem_iff.mp hrow))
  refine ⟨?_, ?_, ?_⟩
  · intro rows' hperm
    rw [hanswer rows' hperm, hanswer rows (List.Perm.refl _)]
  · intro rows' hperm
    exact receiptOf_perm hX hrows hperm hread
  · intro rows' hperm t hash number ht hhash hnumber
    rw [hanswer rows' hperm] at ht
    cases ht
    cases hparams : high.receiptParams with
    | none =>
        obtain ⟨decoded, sender, hdecode, _, rfl⟩ := senderRecovered_ok (hread high hhigh.1)
        rw [hparams] at hhash
        have hnone := (hX.unplaced _ _ hdecode).1
        exact absurd (hnone.symm.trans hhash) (by simp)
    | some receiptParams =>
        rw [hparams] at hhash hnumber
        exact ⟨high, receiptParams, hhigh, hparams, Option.some.inj hhash, Option.some.inj hnumber⟩

/-- The lookups of a transaction do not depend on the order of its rows exactly when nothing
is read, the row of the highest slot has a place, or no row has. -/
theorem lookup_order_free_iff (hX : DecodesPlain X) (txHash : TxHash) (db : Db block) :
    OrderFree X txHash (getTransactionInternal txHash db) ↔
      (∃ row ∈ getTransactionInternal txHash db, ∃ e,
        senderRecovered X txHash none row = .error e) ∨
      (∀ row ∈ getTransactionInternal txHash db, row.receiptParams = none) ∨
      ∃ row, Highest (getTransactionInternal txHash db) row ∧ row.receiptParams.isSome := by
  obtain ⟨rlp, hrows⟩ := rowsOf_getTransactionInternal txHash db
  generalize getTransactionInternal txHash db = rows at hrows
  by_cases hne : rows = []
  · subst hne
    exact iff_of_true (orderFree_nil X txHash) (.inr (.inl fun row hrow => by cases hrow))
  obtain ⟨high, hhigh⟩ := exists_highest hne
  have hsame : ∀ row ∈ rows, senderRecovered X txHash none row =
      senderRecovered X txHash none high := fun row hrow =>
    senderRecovered_rlp ((hrows.rlp row hrow).trans (hrows.rlp high hhigh.1).symm)
  cases hsender : senderRecovered X txHash none high with
  | error e =>
      have hread : ∀ row ∈ rows, senderRecovered X txHash none row = .error e :=
        fun row hrow => (hsame row hrow).trans hsender
      exact iff_of_true (orderFree_unread hne hread) (.inl ⟨high, hhigh.1, e, hsender⟩)
  | ok tx =>
      have hread : ∀ row ∈ rows, senderRecovered X txHash none row = .ok tx :=
        fun row hrow => (hsame row hrow).trans hsender
      refine ⟨fun hfree => ?_, fun hcase => orderFree_placed hX hrows hread hhigh ?_⟩
      · by_cases hplace : high.receiptParams.isSome
        · exact .inr (.inr ⟨high, hhigh, hplace⟩)
        · refine .inr (.inl fun row hrow => ?_)
          by_contra hsome
          exact not_orderFree hX hrows hread hhigh (Option.not_isSome_iff_eq_none.mp hplace) hrow
            (Option.isSome_iff_ne_none.mpr hsome) hfree
      · rcases hcase with ⟨row, hrow, e, he⟩ | hnone | ⟨row, hrow, hsome⟩
        · rw [hread row hrow] at he
          cases he
        · exact .inr hnone
        · exact .inl (hrow.unique hrows hhigh ▸ hsome)

/-! ## A transaction in two slots -/

def place : ReceiptParams := ⟨8, 3, 0, 0, 0⟩

/-- The transaction was produced in slot 5, and is in slot 7 since a fork. -/
def twoSlots : Db Unit :=
  { (Db.empty : Db Unit) with
    evmTx := (∅ : HashMap TxHash Bytes).insert 1 [1]
    evmTxResult := ((∅ : HashMap (Slot × TxHash) EvmTxResult).insert (7, 1) ⟨.default, none⟩).insert
      (5, 1) ⟨.default, some place⟩ }

theorem decodesPlain_senderRun : DecodesPlain PgStorage.SenderRun.crates where
  unplaced rlp tx h := by
    rcases PgStorage.SenderRun.decode_ok h with rfl | rfl | rfl <;> exact ⟨rfl, rfl, rfl⟩
  signed_part _ _ _ _ _ := rfl

/-- The transaction of slot 7 is shown in the block of slot 5, or in none. -/
theorem place_leaks : ¬ OrderFree PgStorage.SenderRun.crates 1 (getTransactionInternal 1 twoSlots) := by
  have hrows : getTransactionInternal 1 twoSlots =
      [⟨5, [1], .default, some place⟩, ⟨7, [1], .default, none⟩] := by decide
  rw [hrows]
  intro hfree
  have hswap := hfree.transaction _ (List.Perm.swap _ _ [])
  have hplace := congrArg (fun answer => answer.bind fun r => r.toOption.join.bind
    Transaction.blockHash) hswap
  revert hplace
  decide

/-- In slot 7 as well, it would be shown in the block of this slot. -/
def bothProduced : Db Unit :=
  { twoSlots with
    evmTxResult := twoSlots.evmTxResult.insert (7, 1) ⟨.default, some ⟨9, 4, 0, 0, 0⟩⟩ }

theorem lookup_order_free_produced :
    OrderFree PgStorage.SenderRun.crates 1 (getTransactionInternal 1 bothProduced) ↔
      (∃ row ∈ getTransactionInternal 1 bothProduced, ∃ e,
        senderRecovered PgStorage.SenderRun.crates 1 none row = .error e) ∨
      (∀ row ∈ getTransactionInternal 1 bothProduced, row.receiptParams = none) ∨
      ∃ row, Highest (getTransactionInternal 1 bothProduced) row ∧ row.receiptParams.isSome :=
  lookup_order_free_iff decodesPlain_senderRun 1 bothProduced

end TransactionStorage

end RomeSdk
