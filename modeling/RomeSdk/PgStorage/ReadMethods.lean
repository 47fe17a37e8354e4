import Mathlib.Data.List.Sort
import RomeSdk.Indexer.RollupIndexer
import RomeSdk.PgStorage.EthereumBlockStorage

/-!
# The read methods

What the API reads back: a transaction, its receipt, and a block by its number. All
three decode the stored rlp. The first two recover the sender of what they decoded and
keep one transaction for all rows, the one of the first row; a block is shown with its
transactions as they are decoded.

A transaction has one row for each slot it has a result in, and the highest of them
answers.
-/

namespace RomeSdk

/-- `ethers`' `Block`; the fields that are left out are the same in every block. -/
structure Block (T : Type) where
  hash : Option H256
  parentHash : H256
  number : Option Nat
  transactionsRoot : H256
  gasUsed : U256
  timestamp : U256
  transactions : List T
  deriving DecidableEq, Repr

inductive BlockType where
  | blockWithTransactions (block : Block Transaction)
  | blockWithHashes (block : Block TxHash)
  deriving DecidableEq, Repr

def EMPTY_ROOT : H256 := 0x56e81f171bcc55a6ff8345e692c0f86e5b48e01b996cadc001622fb5e363b421

def EthBlock.getBlockBase {T : Type} (block : EthBlock) : Block T where
  hash := block.blockParams.map BlockParams.hash
  parentHash := (block.blockParams.bind BlockParams.parentHash).getD 0
  number := block.blockParams.map BlockParams.number
  transactionsRoot := if block.transactions.isEmpty then EMPTY_ROOT else 1
  gasUsed := block.blockGasUsed
  timestamp := (block.blockParams.map BlockParams.timestamp).getD 0
  transactions := []

/-- Where a transaction is shown to be, from the parameters of its receipt. -/
def Transaction.locate (tx : Transaction) (receiptParams : ReceiptParams) : Transaction :=
  { tx with
    blockHash := some receiptParams.blockhash
    blockNumber := some receiptParams.blockNumber
    transactionIndex := some receiptParams.txIndex }

/-- `Transaction::decode`, with the error of the read methods. -/
def decodeStored (X : StorageCrates) (hash : TxHash) (rlp : Bytes) : Outcome Transaction :=
  match X.ethers.decode rlp with
  | .ok tx => .ok tx
  | .error _ => .error (.err (.custom ("Failed to decode transaction " ++ hash.debug ++ " from rlp")))

variable {block : Type}

namespace TransactionStorage

/-- `get_transaction` -/
structure TransactionRow where
  slotNumber : Slot
  rlp : Bytes
  txResult : TxResult
  receiptParams : Option ReceiptParams
  deriving DecidableEq, Repr

/-- `get_transaction_internal` -/
def getTransactionInternal (txHash : TxHash) (db : Db block) : List TransactionRow :=
  match db.evmTx.lookup txHash with
  | none => []
  | some rlp => db.evmTxResult.entries.filterMap fun e =>
      if e.1.2 = txHash then some ⟨e.1.1, rlp, e.2.txResult, e.2.receiptParams⟩ else none

/-- The variables of the loops: the transaction of the first row, as it is by now, and
the results by slot. -/
structure Found (α : Type) where
  tx : Option Transaction
  results : BTreeMap Slot α

/-- `last_key_value` -/
def Found.last {α : Type} (found : Found α) : Option α :=
  found.results.toList.getLast?.map Prod.snd

/-- How both loops begin: every row is decoded, the first one stays, and its sender is
recovered again at each row. -/
def senderRecovered (X : StorageCrates) (txHash : TxHash) (tx : Option Transaction)
    (row : TransactionRow) : Outcome Transaction := do
  let decoded ← decodeStored X txHash row.rlp
  let tx := tx.getD decoded
  match X.ethers.recoverFrom tx with
  | .ok sender => pure { tx with from_ := sender }
  | .error e => .error (.err (.signatureError e))

/-- The body of the loop of `get_transaction_receipt`. -/
def addReceipt (X : StorageCrates) (txHash : TxHash) (found : Found TransactionReceipt)
    (row : TransactionRow) : Outcome (Found TransactionReceipt) := do
  let tx ← senderRecovered X txHash found.tx row
  match row.receiptParams with
  | none => pure { found with tx := some tx }
  | some receiptParams =>
      let receipt ← newReceipt X tx row.txResult receiptParams
      pure ⟨some tx, found.results.insert row.slotNumber receipt⟩

def getTransactionReceipt (X : StorageCrates) (txHash : TxHash) (db : Db block) :
    Outcome (Option TransactionReceipt) := do
  let found ← (getTransactionInternal txHash db).foldlM (addReceipt X txHash) ⟨none, ∅⟩
  pure found.last

/-- The body of the loop of `get_transaction`. -/
def addTransaction (X : StorageCrates) (txHash : TxHash) (found : Found Transaction)
    (row : TransactionRow) : Outcome (Found Transaction) := do
  let tx ← senderRecovered X txHash found.tx row
  let tx := (row.receiptParams.map tx.locate).getD tx
  pure ⟨some tx, found.results.insert row.slotNumber tx⟩

def getTransaction (X : StorageCrates) (txHash : TxHash) (db : Db block) :
    Outcome (Option Transaction) := do
  let found ← (getTransactionInternal txHash db).foldlM (addTransaction X txHash) ⟨none, ∅⟩
  pure found.last

end TransactionStorage

namespace PgStorage

/-- `get_block_header2` -/
structure BlockHeaderRow where
  blockGasUsed : U256
  gasRecipient : Option Address
  slotTimestamp : Option Int
  blockhash : H256
  /-- A parent hash that was not there is the text `NULL`. -/
  parentHash : Option H256
  number : Nat
  deriving DecidableEq, Repr

/-- `get_block_transactions` -/
structure BlockTransactionRow where
  txHash : TxHash
  rlp : Bytes
  receiptParams : Option ReceiptParams
  deriving DecidableEq, Repr

/-- The produced blocks of a number. -/
def numbered (number : Nat) (db : Db block) : List (EthBlockId × EthBlockHeader × BlockParams) :=
  db.ethBlock.entries.filterMap fun e => e.2.params.bind fun params =>
    if params.number = number then some (e.1, e.2, params) else none

def getBlockHeader2 (number : Nat) (db : Db block) : List BlockHeaderRow :=
  (numbered number db).map fun (_, header, params) => {
    blockGasUsed := header.blockGasUsed
    gasRecipient := header.gasRecipient
    slotTimestamp := header.slotTimestamp
    blockhash := params.hash
    parentHash := params.parentHash
    number := params.number }

/-- `ORDER BY tx_idx` -/
def byTxIdx {α : Type} (rows : List (Nat × α)) : List α :=
  (rows.insertionSort fun a b => a.1 ≤ b.1).map Prod.snd

def getBlockTransactions (number : Nat) (db : Db block) : List BlockTransactionRow :=
  byTxIdx <| (numbered number db).flatMap fun (id, _) =>
    (db.blockTxs id).filterMap fun (txIdx, txHash) => do
      let evmTxResult ← db.evmTxResult.lookup (id.1, txHash)
      let rlp ← db.evmTx.lookup txHash
      some (txIdx, ⟨txHash, rlp, evmTxResult.receiptParams⟩)

def getBlockTransactionHashes (number : Nat) (db : Db block) : List TxHash :=
  byTxIdx <| (numbered number db).flatMap fun (id, _) => db.blockTxs id

/-- `from_block_header_row`. In the text of a composite value only an empty item is a
null: what was written as `NULL` comes back as these four letters, which are no hash. -/
def fromBlockHeaderRow (row : BlockHeaderRow) : Outcome EthBlock := do
  let parentHash ← match row.parentHash with
    | some parentHash => pure parentHash
    | none => .error (.panic "DB data corrupted: Failed to parse parent_hash")
  let timestamp ← expectTimestamp row.slotTimestamp
    ("DB data corrupted: slot timestamp is not set for block " ++ toString row.number)
  pure {
    blockGasUsed := row.blockGasUsed
    transactions := []
    gasRecipient := row.gasRecipient
    slotTimestamp := row.slotTimestamp
    blockParams := some ⟨row.blockhash, some parentHash, row.number, timestamp⟩ }

/-- The body of the loop of `get_block_by_number`. -/
def blockTransaction (X : StorageCrates) (row : BlockTransactionRow) : Outcome Transaction := do
  let tx ← decodeStored X row.txHash row.rlp
  pure ((row.receiptParams.map tx.locate).getD tx)

def getBlockByNumber (X : StorageCrates) (number : Nat) (fullTransactions : Bool)
    (db : Db block) : Outcome (Option BlockType) :=
  match getBlockHeader2 number db with
  | [] => .ok none
  | _ :: _ :: _ =>
      .error (.err (.custom ("More than one block with number " ++ toString number)))
  | [row] => do
      let blockHeader ← fromBlockHeaderRow row
      if fullTransactions then
        let txs ← (getBlockTransactions number db).mapM (blockTransaction X)
        let base : Block Transaction := blockHeader.getBlockBase
        pure (some (.blockWithTransactions { base with transactions := txs }))
      else
        let base : Block TxHash := blockHeader.getBlockBase
        let txs := getBlockTransactionHashes number db
        pure (some (.blockWithHashes { base with transactions := txs }))

end PgStorage

end RomeSdk
