import RomeSdk.PgStorage.Tables
import RomeSdk.Lib.Loop

/-!
# The transaction storage

`transaction_storage.rs`: the transactions of parsed blocks with their results,
the parameters of their receipts once a block is produced, and the receipt that
is made of a transaction, its result and these parameters.
-/

namespace RomeSdk

/-- `ethers`' `Log`, as a receipt shows it. -/
structure ReceiptLog where
  log : Log
  blockHash : Option H256
  blockNumber : Option Nat
  transactionHash : Option TxHash
  transactionIndex : Option Nat
  logIndex : Option U256
  transactionLogIndex : Option U256
  removed : Option Bool
  deriving DecidableEq, Repr

/-- `ethers`' `TransactionReceipt`; the fields that are left out are the same in
every receipt. -/
structure TransactionReceipt where
  transactionHash : TxHash
  transactionIndex : Nat
  transactionType : Option Nat
  blockHash : Option H256
  blockNumber : Option Nat
  from_ : Address
  to_ : Option Address
  gasUsed : Option U256
  cumulativeGasUsed : U256
  contractAddress : Option Address
  logs : List ReceiptLog
  status : Option Nat
  effectiveGasPrice : Option U256
  deriving DecidableEq, Repr

def calcContractAddress (X : StorageCrates) (from_ : Address) (to_ : Option Address)
    (nonce : U256) : Option Address :=
  match to_ with
  | some _ => none
  | none => some ((X.hashSenderNonce from_ nonce).setWidth 160)

namespace TransactionStorage

/-- The closure `new_receipt` maps over the logs: the logs to come with the
position of the first, and the variable the closure increments. -/
def receiptLogs (tx : Transaction) (receiptParams : ReceiptParams) :
    List Log → Nat → U256 → Outcome (List ReceiptLog)
  | [], _, _ => .ok []
  | log :: logs, logIndex, transactionLogIndex => do
      let index ← (U256.checkedAdd (BitVec.ofNat 256 logIndex) transactionLogIndex).mapError
        fun _ => .panic "Unable to increment log index"
      let next ← U256.checkedAdd transactionLogIndex 1
      let rest ← receiptLogs tx receiptParams logs (logIndex + 1) next
      pure ({
        log := log
        blockHash := some receiptParams.blockhash
        blockNumber := some receiptParams.blockNumber
        transactionHash := some tx.hash
        transactionIndex := some receiptParams.txIndex
        logIndex := some index
        transactionLogIndex := some transactionLogIndex
        removed := some false } :: rest)

def newReceipt (X : StorageCrates) (tx : Transaction) (txResult : TxResult)
    (receiptParams : ReceiptParams) : Outcome TransactionReceipt := do
  let cumulativeGasUsed ←
    (U256.checkedAdd receiptParams.blockGasUsed txResult.gasReport.gasValue).mapError
      fun _ => .panic "This must never happen - block gas overflow!"
  let logs ← receiptLogs tx receiptParams txResult.logs 0 receiptParams.firstLogIndex
  pure {
    transactionHash := tx.hash
    transactionIndex := receiptParams.txIndex
    transactionType := tx.transactionType
    blockHash := some receiptParams.blockhash
    blockNumber := some receiptParams.blockNumber
    from_ := tx.from_
    to_ := tx.to_
    gasUsed := some txResult.gasReport.gasValue
    cumulativeGasUsed := cumulativeGasUsed
    contractAddress := calcContractAddress X tx.from_ tx.to_ tx.nonce
    logs := logs
    status := some (if txResult.exitReason.code = 0 then 1 else 0)
    effectiveGasPrice := some txResult.gasReport.gasPrice }

variable {block : Type}

/-- The body of the loops of `register_parse_results`: a transaction of a slot and
its result. The slot of a new result must be stored. -/
def registerTransaction (X : StorageCrates) (slotNumber : Slot) (db : Db block)
    (e : Transaction × TxResult) : Db block × Outcome Unit :=
  let db := { db with evmTx := db.evmTx.insertIfNew e.1.hash (X.rlp e.1) }
  if (slotNumber, e.1.hash) ∈ db.evmTxResult then (db, .ok ())
  else if slotNumber ∈ db.solSlot then
    ({ db with evmTxResult :=
        db.evmTxResult.insertIfNew (slotNumber, e.1.hash) ⟨e.2, none⟩ }, .ok ())
  else (db, .error (.err (.dieselError
    "insert or update on table \"evm_tx_result\" violates foreign key constraint \"fk_slot_number\"")))

/-- The transaction of `register_parse_results`. -/
def registerParseResults (X : StorageCrates) (parseResults : BTreeMap Slot BlockParseResult)
    (db : Db block) : Outcome (Unit × Db block) :=
  let entries := parseResults.toList.flatMap fun e =>
    e.2.transactions.map fun t => (e.2.slotNumber, t)
  match forTry (fun db e => registerTransaction X e.1 db e.2) entries db with
  | (db, .ok ()) => .ok ((), db)
  | (_, .error e) => .error e

/-- The transaction commits what its loop ends with. -/
theorem registerParseResults_loop {X : StorageCrates}
    {parseResults : BTreeMap Slot BlockParseResult} {db db' : Db block}
    (h : registerParseResults X parseResults db = .ok ((), db')) :
    forTry (fun db (e : Slot × Transaction × TxResult) => registerTransaction X e.1 db e.2)
      (parseResults.toList.flatMap fun e => e.2.transactions.map fun t => (e.2.slotNumber, t)) db
        = (db', .ok ()) := by
  rw [registerParseResults] at h
  split at h
  · next hloop =>
    cases h
    exact hloop
  · cases h

/-- What the loop over the transactions of a produced block writes: a transaction
with its result, and the parameters of its receipt. The counters are those of
the transactions before. -/
def blockReceipts (blockParams : BlockParams) :
    List (Nat × Transaction × TxResult) → U256 → U256 →
      Outcome (List (Transaction × TxResult × ReceiptParams))
  | [], _, _ => .ok []
  | (txIndex, tx, txResult) :: transactions, blockGasUsed, logIndex => do
      let receiptParams : ReceiptParams := {
        blockhash := blockParams.hash
        blockNumber := blockParams.number
        txIndex := txIndex
        blockGasUsed := blockGasUsed
        firstLogIndex := logIndex }
      let blockGasUsed ← U256.checkedAdd blockGasUsed txResult.gasReport.gasValue
      let logIndex ← U256.checkedAdd logIndex (BitVec.ofNat 256 txResult.logs.length)
      let rest ← blockReceipts blockParams transactions blockGasUsed logIndex
      pure ((tx, txResult, receiptParams) :: rest)

/-- `UPDATE evm_tx_result SET receipt_params` -/
def setReceiptParams (slotNumber : Slot) (hash : TxHash) (receiptParams : ReceiptParams)
    (db : Db block) : Db block :=
  let update (key : Slot × TxHash) (row : EvmTxResult) : Option EvmTxResult :=
    if key = (slotNumber, hash) then some { row with receiptParams := some receiptParams }
    else some row
  { db with evmTxResult := HashMap.filterMap db.evmTxResult update }

/-- The body of the loop of `blocks_produced`. A block that is not pending is only
warned about. -/
def blockProduced (pendingBlocks : PendingBlocks) (db : Db block)
    (e : Slot × Nat × BlockParams) : Db block × Outcome Unit :=
  match pendingBlocks.get e.1 e.2.1 with
  | none => (db, .ok ())
  | some pendingBlock =>
      match blockReceipts e.2.2 pendingBlock.transactions.toList 0 0 with
      | .error err => (db, .error err)
      | .ok receipts =>
          (receipts.foldl (fun db r => setReceiptParams e.1 r.1.hash r.2.2 db) db, .ok ())

/-- The transaction of `blocks_produced`. -/
def blocksProduced (pendingBlocks : PendingBlocks) (producedBlocks : ProducedBlocks)
    (db : Db block) : Outcome (Unit × Db block) :=
  match forTry (blockProduced pendingBlocks) producedBlocks.iter db with
  | (db, .ok ()) => .ok ((), db)
  | (_, .error e) => .error e

theorem blocksProduced_loop {pendingBlocks : PendingBlocks} {producedBlocks : ProducedBlocks}
    {db db' : Db block} (h : blocksProduced pendingBlocks producedBlocks db = .ok ((), db')) :
    forTry (blockProduced pendingBlocks) producedBlocks.iter db = (db', .ok ()) := by
  rw [blocksProduced] at h
  split at h
  · next hloop =>
    cases h
    exact hloop
  · cases h

end TransactionStorage

end RomeSdk
