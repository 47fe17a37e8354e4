import RomeSdk.Proofs.EthBlocks
import RomeSdk.Proofs.LogIndices
import RomeSdk.Proofs.RecordedTogether

/-!
# The receipts that are written

`blocks_produced` counts the gas and the logs of the transactions of a block as it goes, and
writes what it has counted before a transaction to the row of the transaction's hash in its
slot (`blockReceipts_at`). A row that is written twice holds what was written last, and its
result stays (`blockProduced_rows`).
-/

namespace RomeSdk

namespace TransactionStorage

/-! ## The receipts that are built -/

theorem newReceipt_gas {X : StorageCrates} {tx : Transaction} {txResult : TxResult}
    {receiptParams : ReceiptParams} {receipt : TransactionReceipt}
    (h : newReceipt X tx txResult receiptParams = .ok receipt) :
    receipt.transactionIndex = receiptParams.txIndex ∧
      receipt.gasUsed = some txResult.gasReport.gasValue ∧
      receipt.cumulativeGasUsed.toNat
        = receiptParams.blockGasUsed.toNat + txResult.gasReport.gasValue.toNat := by
  rw [newReceipt] at h
  obtain ⟨gas, hgas, h⟩ := Except.ok_of_bind h
  obtain ⟨logs, _, h⟩ := Except.ok_of_bind h
  cases h
  refine ⟨rfl, rfl, ?_⟩
  cases hsum : U256.checkedAdd receiptParams.blockGasUsed txResult.gasReport.gasValue with
  | error e =>
      rw [hsum] at hgas
      cases hgas
  | ok sum =>
      rw [hsum] at hgas
      cases hgas
      exact (U256.checkedAdd_ok hsum).2

/-- What is written for a transaction, by the transactions before it. -/
structure WrittenAt (transactions : List (Nat × Transaction × TxResult)) (gasUsed logIndex : Nat)
    (j : Nat) (e : Nat × Transaction × TxResult) (w : Transaction × TxResult × ReceiptParams) :
    Prop where
  tx : w.1 = e.2.1
  txIndex : w.2.2.txIndex = e.1
  gas : w.2.2.blockGasUsed.toNat = gasUsed + gasSum ((transactions.take j).map Prod.snd)
  logs : w.2.2.firstLogIndex.toNat = logIndex + logSum ((transactions.take j).map Prod.snd)

theorem blockReceipts_at {blockParams : BlockParams}
    (transactions : List (Nat × Transaction × TxResult)) : ∀ {gasUsed logIndex : U256}
      {written : List (Transaction × TxResult × ReceiptParams)},
    (∀ e ∈ transactions, e.2.2.logs.length ≤ isizeMax) →
    blockReceipts blockParams transactions gasUsed logIndex = .ok written →
    written.length = transactions.length ∧ ∀ j e w, transactions[j]? = some e →
      written[j]? = some w → WrittenAt transactions gasUsed.toNat logIndex.toNat j e w := by
  induction transactions with
  | nil =>
      intro gasUsed logIndex written _ h
      cases h
      exact ⟨rfl, fun j e w he => by cases he⟩
  | cons e transactions ih =>
      intro gasUsed logIndex written hlogs h
      obtain ⟨txIndex, tx, txResult⟩ := e
      rw [blockReceipts] at h
      obtain ⟨gasUsed', hgas, h⟩ := Except.ok_of_bind h
      obtain ⟨logIndex', hlog, h⟩ := Except.ok_of_bind h
      obtain ⟨rest, hrest, h⟩ := Except.ok_of_bind h
      cases h
      obtain ⟨hlength, hat⟩ := ih (fun e he => hlogs e (List.mem_cons_of_mem _ he)) hrest
      refine ⟨by rw [List.length_cons, List.length_cons, hlength], fun j e w he hw => ?_⟩
      cases j with
      | zero =>
          cases he
          cases hw
          exact ⟨rfl, rfl, rfl, rfl⟩
      | succ j =>
          obtain ⟨htx, hindex, hgas', hlogs'⟩ := hat j e w he hw
          have hcount := logs_toNat (hlogs _ (List.mem_cons_self ..))
          refine ⟨htx, hindex, ?_, ?_⟩
          · rw [hgas', (U256.checkedAdd_ok hgas).2, List.take_succ_cons, List.map_cons, gasSum_cons,
              Nat.add_assoc]
          · rw [hlogs', (U256.checkedAdd_ok hlog).2, hcount, List.take_succ_cons, List.map_cons,
              logSum_cons, Nat.add_assoc]

end TransactionStorage

namespace PgStorage

variable {block : Type} {pendingBlocks : PendingBlocks}

/-! ## The rows that are written -/

/-- A round of `blocks_produced` writes these parameters to a row. -/
def Writes (pendingBlocks : PendingBlocks) (e : Slot × Nat × BlockParams) (key : Slot × TxHash)
    (receiptParams : ReceiptParams) : Prop :=
  ∃ b written w, pendingBlocks.get e.1 e.2.1 = some b ∧
    TransactionStorage.blockReceipts e.2.2 b.transactions.toList 0 0 = .ok written ∧
    w ∈ written ∧ (e.1, w.1.hash) = key ∧ w.2.2 = receiptParams

/-- A row after some of it was written: the last parameters that were written, if any. -/
def Rewritten (written : ReceiptParams → Prop) (row row' : EvmTxResult) : Prop :=
  row'.txResult = row.txResult ∧
    ((row' = row ∧ ∀ receiptParams, ¬ written receiptParams) ∨
      ∃ receiptParams, written receiptParams ∧ row'.receiptParams = some receiptParams)

theorem Rewritten.then {first rest both : ReceiptParams → Prop} {row row₁ row' : EvmTxResult}
    (h : Rewritten first row row₁) (h' : Rewritten rest row₁ row')
    (hboth : ∀ p, both p ↔ first p ∨ rest p) : Rewritten both row row' := by
  obtain ⟨hsame, h⟩ := h
  obtain ⟨hsame', h'⟩ := h'
  refine ⟨hsame'.trans hsame, ?_⟩
  rcases h' with ⟨rfl, hnot'⟩ | ⟨p, hp, hrow⟩
  · rcases h with ⟨rfl, hnot⟩ | ⟨p, hp, hrow⟩
    · exact Or.inl ⟨rfl, fun p hp => ((hboth p).mp hp).elim (hnot p) (hnot' p)⟩
    · exact Or.inr ⟨p, (hboth p).mpr (Or.inl hp), hrow⟩
  · exact Or.inr ⟨p, (hboth p).mpr (Or.inr hp), hrow⟩

theorem setReceiptParams_row (slot : Slot) (hash : TxHash) (receiptParams : ReceiptParams)
    {db : Db block} {key : Slot × TxHash} {row : EvmTxResult}
    (hrow : db.evmTxResult.lookup key = some row) :
    ∃ row', (TransactionStorage.setReceiptParams slot hash receiptParams db).evmTxResult.lookup key
        = some row' ∧ Rewritten (fun p => (slot, hash) = key ∧ receiptParams = p) row row' := by
  rw [TransactionStorage.setReceiptParams, HashMap.lookup_filterMap, hrow, Option.bind_some]
  by_cases hkey : key = (slot, hash)
  · rw [if_pos hkey]
    exact ⟨_, rfl, rfl, Or.inr ⟨receiptParams, ⟨hkey.symm, rfl⟩, rfl⟩⟩
  · rw [if_neg hkey]
    exact ⟨row, rfl, rfl, Or.inl ⟨rfl, fun p hp => hkey hp.1.symm⟩⟩

theorem setReceiptParams_rows (slot : Slot)
    (written : List (Transaction × TxResult × ReceiptParams)) : ∀ {db : Db block}
      {key : Slot × TxHash} {row : EvmTxResult}, db.evmTxResult.lookup key = some row →
      ∃ row', (written.foldl (fun db r =>
          TransactionStorage.setReceiptParams slot r.1.hash r.2.2 db) db).evmTxResult.lookup key
            = some row' ∧
        Rewritten (fun p => ∃ w ∈ written, (slot, w.1.hash) = key ∧ w.2.2 = p) row row' := by
  induction written with
  | nil => exact fun hrow => ⟨_, hrow, rfl, Or.inl ⟨rfl, fun p hp => by simp at hp⟩⟩
  | cons w written ih =>
      intro db key row hrow
      obtain ⟨row₁, hrow₁, hfirst⟩ := setReceiptParams_row slot w.1.hash w.2.2 hrow
      obtain ⟨row', hrow', hrest⟩ := ih hrow₁
      exact ⟨row', hrow', hfirst.then hrest fun p => List.exists_mem_cons_iff ..⟩

theorem blockProduced_row {e : Slot × Nat × BlockParams} {db db' : Db block}
    (h : TransactionStorage.blockProduced pendingBlocks db e = (db', .ok ()))
    {key : Slot × TxHash} {row : EvmTxResult} (hrow : db.evmTxResult.lookup key = some row) :
    ∃ row', db'.evmTxResult.lookup key = some row' ∧
      Rewritten (Writes pendingBlocks e key) row row' := by
  rw [TransactionStorage.blockProduced] at h
  split at h
  · next hnone =>
    cases h
    refine ⟨row, hrow, rfl, Or.inl ⟨rfl, fun p hp => ?_⟩⟩
    obtain ⟨b, _, _, hb, _⟩ := hp
    rw [hnone] at hb
    cases hb
  · next b hb =>
    split at h
    · cases h
    · next written hwritten =>
      cases h
      obtain ⟨row', hrow', hsame, hor⟩ := setReceiptParams_rows e.1 written hrow
      refine ⟨row', hrow', hsame, ?_⟩
      rcases hor with ⟨hunchanged, hnot⟩ | ⟨p, ⟨w, hw, hkey, hp⟩, hset⟩
      · refine Or.inl ⟨hunchanged, fun p hp => ?_⟩
        obtain ⟨b', written', w, hb', hwritten', hw, hkey, hp⟩ := hp
        rw [hb] at hb'
        cases hb'
        rw [hwritten] at hwritten'
        cases hwritten'
        exact hnot p ⟨w, hw, hkey, hp⟩
      · exact Or.inr ⟨p, ⟨b, written, w, hb, hwritten, hw, hkey, hp⟩, hset⟩

theorem blockProduced_rows (l : List (Slot × Nat × BlockParams)) : ∀ {db db' : Db block},
    forTry (TransactionStorage.blockProduced pendingBlocks) l db = (db', .ok ()) →
    ∀ {key : Slot × TxHash} {row : EvmTxResult}, db.evmTxResult.lookup key = some row →
      ∃ row', db'.evmTxResult.lookup key = some row' ∧
        Rewritten (fun p => ∃ e ∈ l, Writes pendingBlocks e key p) row row' := by
  induction l with
  | nil =>
      intro db db' h key row hrow
      cases h
      exact ⟨row, hrow, rfl, Or.inl ⟨rfl, fun p hp => by simp at hp⟩⟩
  | cons e l ih =>
      intro db db' h key row hrow
      obtain ⟨db₁, hfirst, hrest⟩ := forTry_cons_inv h
      obtain ⟨row₁, hrow₁, hwrites⟩ := blockProduced_row hfirst hrow
      obtain ⟨row', hrow', hwrites'⟩ := ih hrest hrow₁
      exact ⟨row', hrow', hwrites.then hwrites' fun p => List.exists_mem_cons_iff ..⟩

end PgStorage

end RomeSdk
