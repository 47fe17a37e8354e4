import RomeSdk.PgStorage.TransactionStorage
import RomeSdk.Proofs.StandIns

/-!
# Log indices of the receipts of a block

The index of a log is put together from two counters. `blocks_produced` stores
with a transaction how many logs the transactions before it have, and
`new_receipt` numbers the logs of a transaction from there, but it adds the
position of a log to a variable that has been incremented once for each log
before it: the `j`-th log of a transaction gets the index `first + 2 * j`.
Indices are contiguous exactly in the blocks in which no transaction has a
second log.
-/

namespace RomeSdk

theorem U256.checkedAdd_ok {a b c : U256} (h : U256.checkedAdd a b = .ok c) :
    c = a + b ∧ c.toNat = a.toNat + b.toNat := by
  unfold U256.checkedAdd at h
  split at h
  · next hlt =>
      cases h
      exact ⟨rfl, by rw [BitVec.toNat_add, Nat.mod_eq_of_lt hlt]⟩
  · cases h

theorem U256.checkedAdd_of_lt {a b : U256} (h : a.toNat + b.toNat < 2 ^ 256) :
    U256.checkedAdd a b = .ok (a + b) := if_pos h

theorem U256.checkedAdd_exists {a b : U256} (h : a.toNat + b.toNat < 2 ^ 256) :
    ∃ c, U256.checkedAdd a b = .ok c ∧ c.toNat = a.toNat + b.toNat :=
  ⟨a + b, U256.checkedAdd_of_lt h, (U256.checkedAdd_ok (U256.checkedAdd_of_lt h)).2⟩

namespace TransactionStorage

variable {X : StorageCrates} {tx : Transaction} {receiptParams : ReceiptParams}
  {blockParams : BlockParams}

/-- The `U256` of a number, as a receipt shows it. -/
def shown (n : Nat) : Option U256 := some (BitVec.ofNat 256 n)

def logIndices (receipts : List TransactionReceipt) : List (Option U256) :=
  (receipts.flatMap TransactionReceipt.logs).map ReceiptLog.logIndex

/-- The logs of the transactions of a block. -/
def logCount (transactions : List (Nat × Transaction × TxResult)) : Nat :=
  (transactions.map fun e => e.2.2.logs.length).sum

/-- The receipts made of what was written for a block. -/
def receipts (X : StorageCrates) (written : List (Transaction × TxResult × ReceiptParams)) :
    Outcome (List TransactionReceipt) :=
  written.mapM fun w => newReceipt X w.1 w.2.1 w.2.2

/-! ## One receipt -/

theorem receiptLogs_cons {log : Log} {logs : List Log} {i : Nat} {t : U256}
    {out : List ReceiptLog} (h : receiptLogs tx receiptParams (log :: logs) i t = .ok out) :
    ∃ first rest, out = first :: rest ∧ first.logIndex = some (BitVec.ofNat 256 i + t) ∧
      receiptLogs tx receiptParams logs (i + 1) (t + 1) = .ok rest := by
  rw [receiptLogs] at h
  cases hindex : U256.checkedAdd (BitVec.ofNat 256 i) t with
  | error e =>
      rw [hindex] at h
      cases h
  | ok index =>
      rw [hindex] at h
      cases hnext : U256.checkedAdd t 1 with
      | error e =>
          rw [hnext] at h
          cases h
      | ok next =>
          rw [hnext] at h
          obtain ⟨rfl, _⟩ := U256.checkedAdd_ok hindex
          obtain ⟨rfl, _⟩ := U256.checkedAdd_ok hnext
          cases hrest : receiptLogs tx receiptParams logs (i + 1) (t + 1) with
          | error e =>
              simp only [Except.mapError, bind, Except.bind, hrest] at h
              cases h
          | ok rest =>
              simp only [Except.mapError, bind, Except.bind, hrest] at h
              cases h
              exact ⟨_, rest, rfl, rfl, rfl⟩

theorem receiptLogs_length {logs : List Log} : ∀ {i : Nat} {t : U256} {out : List ReceiptLog},
    receiptLogs tx receiptParams logs i t = .ok out → out.length = logs.length := by
  induction logs with
  | nil =>
      intro i t out h
      cases h
      rfl
  | cons log logs ih =>
      intro i t out h
      obtain ⟨_, rest, rfl, _, hrest⟩ := receiptLogs_cons h
      rw [List.length_cons, List.length_cons, ih hrest]

/-- The second log is two above the first. -/
theorem receiptLogs_two {log log' : Log} {logs : List Log} {t : U256} {out : List ReceiptLog}
    (h : receiptLogs tx receiptParams (log :: log' :: logs) 0 t = .ok out) :
    (out.map ReceiptLog.logIndex)[1]? = some (some (t + 2)) := by
  obtain ⟨_, rest, rfl, _, hrest⟩ := receiptLogs_cons h
  obtain ⟨second, rest', rfl, hsecond, _⟩ := receiptLogs_cons hrest
  have htwo : BitVec.ofNat 256 (0 + 1) + (t + 1) = t + 2 := by
    show 1#256 + (t + 1#256) = t + 2#256
    rw [BitVec.add_comm, BitVec.add_assoc]
    rfl
  simp only [List.map_cons, List.getElem?_cons_succ, List.getElem?_cons_zero, hsecond, htwo]

/-- The index of a single log is the number it starts from. -/
theorem receiptLogs_single {log : Log} {t : U256} (ht : t.toNat + 1 < 2 ^ 256) :
    ∃ out, receiptLogs tx receiptParams [log] 0 t = .ok [out] ∧ out.logIndex = some t := by
  have hindex : U256.checkedAdd (BitVec.ofNat 256 0) t = .ok t := by
    rw [U256.checkedAdd_of_lt (by simpa using t.isLt)]
    simp
  have hnext : U256.checkedAdd t 1 = .ok (t + 1) := U256.checkedAdd_of_lt ht
  rw [receiptLogs, hindex, hnext]
  exact ⟨_, rfl, rfl⟩

/-! ## The receipts of a block -/

theorem blockReceipts_cons {e : Nat × Transaction × TxResult}
    {transactions : List (Nat × Transaction × TxResult)} {gasUsed logIndex : U256}
    {written : List (Transaction × TxResult × ReceiptParams)}
    (h : blockReceipts blockParams (e :: transactions) gasUsed logIndex = .ok written) :
    ∃ first rest gasUsed' logIndex', written = (e.2.1, e.2.2, first) :: rest ∧
      first.firstLogIndex = logIndex ∧
      U256.checkedAdd first.blockGasUsed e.2.2.gasReport.gasValue = .ok gasUsed' ∧
      logIndex'.toNat = logIndex.toNat + (BitVec.ofNat 256 e.2.2.logs.length : U256).toNat ∧
      blockReceipts blockParams transactions gasUsed' logIndex' = .ok rest := by
  obtain ⟨txIndex, tx, txResult⟩ := e
  rw [blockReceipts] at h
  cases hgas : U256.checkedAdd gasUsed txResult.gasReport.gasValue with
  | error err =>
      rw [hgas] at h
      cases h
  | ok gasUsed' =>
      rw [hgas] at h
      cases hlog : U256.checkedAdd logIndex (BitVec.ofNat 256 txResult.logs.length) with
      | error err =>
          simp only [bind, Except.bind, hlog] at h
          cases h
      | ok logIndex' =>
          cases hrest : blockReceipts blockParams transactions gasUsed' logIndex' with
          | error err =>
              simp only [bind, Except.bind, hlog, hrest] at h
              cases h
          | ok rest =>
              simp only [bind, Except.bind, hlog, hrest] at h
              cases h
              exact ⟨_, rest, gasUsed', logIndex', rfl, rfl, hgas, (U256.checkedAdd_ok hlog).2,
                hrest⟩

theorem newReceipt_inv {txResult : TxResult} {receipt : TransactionReceipt}
    (h : newReceipt X tx txResult receiptParams = .ok receipt) :
    (∃ gas, U256.checkedAdd receiptParams.blockGasUsed txResult.gasReport.gasValue = .ok gas) ∧
      receiptLogs tx receiptParams txResult.logs 0 receiptParams.firstLogIndex = .ok receipt.logs ∧
      receipt.from_ = tx.from_ := by
  rw [newReceipt] at h
  obtain ⟨gas, hgas, h⟩ := Except.ok_of_bind h
  obtain ⟨logs, hlogs, h⟩ := Except.ok_of_bind h
  cases h
  refine ⟨?_, hlogs, rfl⟩
  cases hsum : U256.checkedAdd receiptParams.blockGasUsed txResult.gasReport.gasValue with
  | ok gas => exact ⟨gas, rfl⟩
  | error e =>
      rw [hsum] at hgas
      cases hgas

theorem newReceipt_ok {w : Transaction × TxResult × ReceiptParams} {gas : U256}
    {logs : List ReceiptLog}
    (hgas : U256.checkedAdd w.2.2.blockGasUsed w.2.1.gasReport.gasValue = .ok gas)
    (hlogs : receiptLogs w.1 w.2.2 w.2.1.logs 0 w.2.2.firstLogIndex = .ok logs) :
    ∃ receipt, newReceipt X w.1 w.2.1 w.2.2 = .ok receipt ∧ receipt.logs = logs := by
  rw [newReceipt, hgas]
  simp only [Except.mapError, bind, Except.bind, hlogs]
  exact ⟨_, rfl, rfl⟩

/-- The logs of a receipt are numbered without an overflow. A log is counted twice: by its
position, and by the counter that is added to it. -/
def LogsFit (logIndex : Nat) (transactionLogIndex : U256) (logs : List Log) : Prop :=
  0 < logs.length →
    logIndex + transactionLogIndex.toNat + 2 * (logs.length - 1) < 2 ^ 256 ∧
      transactionLogIndex.toNat + logs.length < 2 ^ 256

theorem receiptLogs_iff (logs : List Log) : ∀ (logIndex : Nat) (transactionLogIndex : U256),
    logIndex ≤ transactionLogIndex.toNat →
    ((∃ out, receiptLogs tx receiptParams logs logIndex transactionLogIndex = .ok out) ↔
      LogsFit logIndex transactionLogIndex logs) := by
  induction logs with
  | nil => exact fun _ _ _ => ⟨fun _ h => absurd h (Nat.lt_irrefl 0), fun _ => ⟨[], rfl⟩⟩
  | cons log logs ih =>
      intro logIndex transactionLogIndex hle
      have hlt := transactionLogIndex.isLt
      have hindex : (BitVec.ofNat 256 logIndex : U256).toNat = logIndex := by
        rw [BitVec.toNat_ofNat, Nat.mod_eq_of_lt (by omega)]
      have hone : (1 : U256).toNat = 1 := rfl
      rw [LogsFit, List.length_cons]
      constructor
      · intro h
        obtain ⟨out, h⟩ := h
        rw [receiptLogs] at h
        obtain ⟨index, hsum, h⟩ := Except.ok_of_bind h
        obtain ⟨next, hnext, h⟩ := Except.ok_of_bind h
        obtain ⟨rest, hrest, _⟩ := Except.ok_of_bind h
        have hsumLt : logIndex + transactionLogIndex.toNat < 2 ^ 256 := by
          by_contra hge
          rw [U256.checkedAdd, hindex, if_neg hge] at hsum
          cases hsum
        have hnextNat := (U256.checkedAdd_ok hnext).2
        rw [hone] at hnextNat
        have hnextLt := next.isLt
        have hfits := (ih (logIndex + 1) next (by omega)).mp ⟨rest, hrest⟩
        rw [LogsFit, hnextNat] at hfits
        omega
      · intro h
        obtain ⟨hlast, hcount⟩ := h (Nat.succ_pos _)
        obtain ⟨index, hsum, _⟩ := U256.checkedAdd_exists
          (a := BitVec.ofNat 256 logIndex) (b := transactionLogIndex) (by rw [hindex]; omega)
        obtain ⟨next, hnext, hnextNat⟩ := U256.checkedAdd_exists (a := transactionLogIndex) (b := 1)
          (by rw [hone]; omega)
        rw [hone] at hnextNat
        obtain ⟨rest, hrest⟩ := (ih (logIndex + 1) next (by omega)).mpr fun hpos => by omega
        rw [receiptLogs, hsum, hnext]
        simp only [Except.mapError, bind, Except.bind, hrest]
        exact ⟨_, rfl⟩

/-- The sums a receipt is made with stay below 2^256. -/
structure ReceiptFits (txResult : TxResult) (receiptParams : ReceiptParams) : Prop where
  gas : receiptParams.blockGasUsed.toNat + txResult.gasReport.gasValue.toNat < 2 ^ 256
  logs : LogsFit 0 receiptParams.firstLogIndex txResult.logs

theorem newReceipt_iff {txResult : TxResult} :
    (∃ receipt, newReceipt X tx txResult receiptParams = .ok receipt) ↔
      ReceiptFits txResult receiptParams := by
  constructor
  · intro h
    obtain ⟨receipt, h⟩ := h
    obtain ⟨⟨gas, hgas⟩, hlogs, _⟩ := newReceipt_inv h
    refine ⟨?_, (receiptLogs_iff _ 0 _ (Nat.zero_le _)).mp ⟨_, hlogs⟩⟩
    have := gas.isLt
    have := (U256.checkedAdd_ok hgas).2
    omega
  · intro h
    obtain ⟨gas, hgas, _⟩ := U256.checkedAdd_exists h.gas
    obtain ⟨logs, hlogs⟩ : ∃ logs, receiptLogs tx receiptParams txResult.logs 0
        receiptParams.firstLogIndex = .ok logs :=
      (receiptLogs_iff _ 0 _ (Nat.zero_le _)).mpr h.logs
    obtain ⟨receipt, hreceipt, _⟩ := newReceipt_ok (w := (tx, txResult, receiptParams)) hgas hlogs
    exact ⟨receipt, hreceipt⟩

theorem receipts_cons {w : Transaction × TxResult × ReceiptParams}
    {written : List (Transaction × TxResult × ReceiptParams)} {all : List TransactionReceipt}
    (h : receipts X (w :: written) = .ok all) :
    ∃ first rest, all = first :: rest ∧
      receiptLogs w.1 w.2.2 w.2.1.logs 0 w.2.2.firstLogIndex = .ok first.logs ∧
      receipts X written = .ok rest := by
  rw [receipts, List.mapM_cons] at h
  obtain ⟨first, hfirst, h⟩ := Except.ok_of_bind h
  obtain ⟨rest, hrest, h⟩ := Except.ok_of_bind h
  cases h
  exact ⟨first, rest, rfl, (newReceipt_inv hfirst).2.1, hrest⟩

theorem receipts_cons_ok {w : Transaction × TxResult × ReceiptParams} {first : TransactionReceipt}
    {written : List (Transaction × TxResult × ReceiptParams)} {rest : List TransactionReceipt}
    (hfirst : newReceipt X w.1 w.2.1 w.2.2 = .ok first) (hrest : receipts X written = .ok rest) :
    receipts X (w :: written) = .ok (first :: rest) := by
  rw [receipts] at hrest ⊢
  rw [List.mapM_cons, hfirst]
  simp only [bind, Except.bind, hrest]
  rfl

theorem logIndices_cons (first : TransactionReceipt) (rest : List TransactionReceipt) :
    logIndices (first :: rest) = first.logs.map ReceiptLog.logIndex ++ logIndices rest := by
  rw [logIndices, List.flatMap_cons, List.map_append]
  rfl

theorem logCount_cons (e : Nat × Transaction × TxResult)
    (transactions : List (Nat × Transaction × TxResult)) :
    logCount (e :: transactions) = e.2.2.logs.length + logCount transactions := by
  rw [logCount, List.map_cons, List.sum_cons]
  rfl

/-- With at most one log in each transaction the indices are contiguous. -/
theorem logIndices_of_single {transactions : List (Nat × Transaction × TxResult)}
    (hone : ∀ e ∈ transactions, e.2.2.logs.length ≤ 1) : ∀ {gasUsed logIndex : U256}
      {written : List (Transaction × TxResult × ReceiptParams)},
      blockReceipts blockParams transactions gasUsed logIndex = .ok written →
      ∃ all, receipts X written = .ok all ∧
        logIndices all = (List.range' logIndex.toNat (logCount transactions)).map shown := by
  induction transactions with
  | nil =>
      intro gasUsed logIndex written h
      cases h
      exact ⟨[], rfl, rfl⟩
  | cons e transactions ih =>
      intro gasUsed logIndex written h
      obtain ⟨first, rest, gasUsed', logIndex', rfl, hfirst, hgas, hlog, hrest⟩ := blockReceipts_cons h
      obtain ⟨all, hall, hindices⟩ := ih (fun e he => hone e (List.mem_cons_of_mem _ he)) hrest
      have hlen := hone e (List.mem_cons_self ..)
      obtain ⟨logs, hlogs, hmap⟩ : ∃ logs,
          receiptLogs e.2.1 first e.2.2.logs 0 first.firstLogIndex = .ok logs ∧
          logs.map ReceiptLog.logIndex
            = (List.range' logIndex.toNat e.2.2.logs.length).map shown := by
        rcases hl : e.2.2.logs with _ | ⟨log, _ | ⟨log', logs⟩⟩
        · exact ⟨[], rfl, rfl⟩
        · rw [hl] at hlog
          have hbound := logIndex'.isLt
          have hone' : (BitVec.ofNat 256 [log].length : U256).toNat = 1 := rfl
          rw [hone'] at hlog
          have hlt : logIndex.toNat + 1 < 2 ^ 256 := by omega
          obtain ⟨out, hout, hindex⟩ : ∃ out, receiptLogs e.2.1 first [log] 0 logIndex = .ok [out]
              ∧ out.logIndex = some logIndex := receiptLogs_single hlt
          refine ⟨[out], by rw [hfirst]; exact hout, ?_⟩
          rw [List.map_singleton, hindex]
          show [some logIndex] = [some (BitVec.ofNat 256 logIndex.toNat)]
          rw [BitVec.ofNat_toNat, BitVec.setWidth_eq]
        · rw [hl] at hlen
          simp only [List.length_cons] at hlen
          omega
      obtain ⟨receipt, hreceipt, hreceiptLogs⟩ : ∃ receipt,
          newReceipt X e.2.1 e.2.2 first = .ok receipt ∧ receipt.logs = logs :=
        newReceipt_ok (w := (e.2.1, e.2.2, first)) hgas hlogs
      refine ⟨receipt :: all, receipts_cons_ok hreceipt hall, ?_⟩
      have hnext : logIndex'.toNat = logIndex.toNat + e.2.2.logs.length := by
        rw [hlog, BitVec.toNat_ofNat, Nat.mod_eq_of_lt (by omega)]
      rw [logIndices_cons, hreceiptLogs, hmap, hindices, logCount_cons, hnext, ← List.map_append,
        List.range'_append_1]

/-- With contiguous indices no transaction has a second log. -/
theorem single_of_logIndices {transactions : List (Nat × Transaction × TxResult)} :
    ∀ {gasUsed logIndex : U256} {written : List (Transaction × TxResult × ReceiptParams)}
      {all : List TransactionReceipt},
      blockReceipts blockParams transactions gasUsed logIndex = .ok written →
      receipts X written = .ok all →
      logIndices all = (List.range' logIndex.toNat (logCount transactions)).map shown →
      ∀ e ∈ transactions, e.2.2.logs.length ≤ 1 := by
  induction transactions with
  | nil =>
      intro _ _ _ _ _ _ _ e he
      cases he
  | cons e transactions ih =>
      intro gasUsed logIndex written all h hall hindices
      obtain ⟨first, rest, gasUsed', logIndex', rfl, hfirst, hgas, hlog, hrest⟩ := blockReceipts_cons h
      obtain ⟨receipt, receipts', rfl, hlogs, hrest'⟩ := receipts_cons hall
      have hlength := receiptLogs_length hlogs
      rw [logIndices_cons, logCount_cons, ← List.range'_append_1, List.map_append] at hindices
      obtain ⟨hhead, htail⟩ := List.append_inj hindices (by
        rw [List.length_map, hlength, List.length_map, List.length_range'])
      have hone : e.2.2.logs.length ≤ 1 := by
        rcases hl : e.2.2.logs with _ | ⟨log, _ | ⟨log', logs⟩⟩
        · exact Nat.zero_le _
        · exact Nat.le_refl _
        · -- the second log is at `first + 2`, and `first + 1` was expected
          exfalso
          have hlogs' : receiptLogs e.2.1 first (log :: log' :: logs) 0 logIndex
              = .ok receipt.logs := by
            rw [← hl, ← hfirst]
            exact hlogs
          have hsecond := receiptLogs_two hlogs'
          rw [hhead, hl, List.length_cons, List.length_cons] at hsecond
          simp only [List.range'_succ, List.map_cons, List.getElem?_cons_succ,
            List.getElem?_cons_zero, shown, Option.some.injEq] at hsecond
          have htoNat := congrArg BitVec.toNat hsecond
          rw [BitVec.toNat_ofNat, BitVec.toNat_add] at htoNat
          have htwo : (2 : U256).toNat = 2 := rfl
          rw [htwo] at htoNat
          have hlt := logIndex.isLt
          omega
      have hnext : logIndex'.toNat = logIndex.toNat + e.2.2.logs.length := by
        rw [hlog, BitVec.toNat_ofNat, Nat.mod_eq_of_lt (by omega)]
      rw [← hnext] at htail
      intro e' he'
      rcases List.mem_cons.mp he' with rfl | he'
      · exact hone
      · exact ih hrest hrest' htail e' he'

theorem contiguous_iff {transactions : List (Nat × Transaction × TxResult)}
    {written : List (Transaction × TxResult × ReceiptParams)}
    (h : blockReceipts blockParams transactions 0 0 = .ok written) :
    (∃ all, receipts X written = .ok all ∧
        logIndices all = (List.range (logCount transactions)).map shown) ↔
      ∀ e ∈ transactions, e.2.2.logs.length ≤ 1 := by
  rw [List.range_eq_range']
  constructor
  · intro hcontiguous
    obtain ⟨all, hall, hindices⟩ := hcontiguous
    exact single_of_logIndices h hall hindices
  · intro hone
    exact logIndices_of_single hone h

/-- What `blocks_produced` has written for a block that was pending. -/
theorem blockReceipts_of_blocksProduced {block : Type} {pendingBlocks : PendingBlocks}
    {producedBlocks : ProducedBlocks} {db db' : Db block}
    (hrun : blocksProduced pendingBlocks producedBlocks db = .ok ((), db')) {slot : Slot}
    {blockIdx : Nat} (hmem : (slot, blockIdx, blockParams) ∈ producedBlocks.iter)
    {pendingBlock : PendingL2Block} (hpending : pendingBlocks.get slot blockIdx = some pendingBlock) :
    ∃ written, blockReceipts blockParams pendingBlock.transactions.toList 0 0 = .ok written := by
  rw [blocksProduced] at hrun
  split at hrun
  · next db'' hloop =>
      obtain ⟨db₁, db₂, hbody⟩ := forTry_body_ok hloop _ hmem
      rw [blockProduced] at hbody
      simp only [hpending] at hbody
      cases hwritten : blockReceipts blockParams pendingBlock.transactions.toList 0 0 with
      | ok written => exact ⟨written, rfl⟩
      | error e =>
          rw [hwritten] at hbody
          cases hbody
  · cases hrun

/-- The log indices of a block that was recorded as produced are 0, 1, 2, ...
exactly if no transaction of the block has two logs. -/
theorem log_indices_contiguous_iff {block : Type} {X : StorageCrates}
    {pendingBlocks : PendingBlocks} {producedBlocks : ProducedBlocks} {db db' : Db block}
    (hrun : blocksProduced pendingBlocks producedBlocks db = .ok ((), db')) {slot : Slot}
    {blockIdx : Nat} {blockParams : BlockParams}
    (hmem : (slot, blockIdx, blockParams) ∈ producedBlocks.iter) {pendingBlock : PendingL2Block}
    (hpending : pendingBlocks.get slot blockIdx = some pendingBlock) :
    ∃ written, blockReceipts blockParams pendingBlock.transactions.toList 0 0 = .ok written ∧
      ((∃ all, receipts X written = .ok all ∧
          logIndices all
            = (List.range (logCount pendingBlock.transactions.toList)).map shown) ↔
        ∀ e ∈ pendingBlock.transactions.toList, e.2.2.logs.length ≤ 1) := by
  obtain ⟨written, hwritten⟩ := blockReceipts_of_blocksProduced hrun hmem hpending
  exact ⟨written, hwritten, contiguous_iff hwritten⟩

/-! ## One block -/

/-- A pending block with one transaction that has these logs. -/
def pendingWith (logs : List Log) : PendingL2Block where
  transactions := (∅ : BTreeMap Nat (Transaction × TxResult)).insert 0
    (bareTx 1, { TxResult.default with logs := logs })
  gasRecipient := none

def pendingAt (pendingBlock : PendingL2Block) : PendingBlocks :=
  (∅ : BTreeMap Slot PendingL1Block).insert 7
    ⟨0, 0, (∅ : BTreeMap Nat PendingL2Block).insert 0 pendingBlock⟩

def producedAt : ProducedBlocks := ProducedBlocks.insert ∅ 7 0 ⟨3, some 2, 1, 0⟩

def storageStandIns : StorageCrates where
  toCrates := standIns
  rlp tx := beBytes 32 tx.hash.toNat
  hashSenderNonce _ _ := 0

def twoLogs : PendingL2Block := pendingWith [⟨0, [], []⟩, ⟨0, [], []⟩]

/-- Two logs of one transaction get the indices 0 and 2. -/
theorem log_index_skipped :
    (blocksProduced (pendingAt twoLogs) producedAt (Db.empty : Db Unit)).toOption.isSome ∧
    ((7 : Slot), 0, (⟨3, some 2, 1, 0⟩ : BlockParams)) ∈ producedAt.iter ∧
    (∃ written all, blockReceipts ⟨3, some 2, 1, 0⟩ twoLogs.transactions.toList 0 0 = .ok written ∧
      receipts storageStandIns written = .ok all ∧ logIndices all = [shown 0, shown 2]) ∧
    [shown 0, shown 2] ≠ (List.range (logCount twoLogs.transactions.toList)).map shown :=
  ⟨by decide, by decide, ⟨_, _, rfl, rfl, by decide⟩, by decide⟩

theorem log_indices_contiguous_single :
    ∃ written, blockReceipts ⟨3, some 2, 1, 0⟩
        (pendingWith [⟨0, [], []⟩]).transactions.toList 0 0 = .ok written ∧
      ((∃ all, receipts storageStandIns written = .ok all ∧
          logIndices all
            = (List.range (logCount (pendingWith [⟨0, [], []⟩]).transactions.toList)).map shown) ↔
        ∀ e ∈ (pendingWith [⟨0, [], []⟩]).transactions.toList, e.2.2.logs.length ≤ 1) := by
  have hrun : blocksProduced (pendingAt (pendingWith [⟨0, [], []⟩])) producedAt (Db.empty : Db Unit)
      = .ok ((), (Db.empty : Db Unit)) := rfl
  have hmem : ((7 : Slot), 0, (⟨3, some 2, 1, 0⟩ : BlockParams)) ∈ producedAt.iter := by decide
  exact log_indices_contiguous_iff hrun hmem rfl

end TransactionStorage

end RomeSdk
