import RomeSdk.PgStorage.TransactionStorage

/-!
# The Ethereum block storage

`pg_storage/ethereum_block_storage.rs` and the SQL it calls: the eth blocks of
the parsed slots, which of them are still to be produced and on which parent,
and the parameters of those that are produced.

The columns of a produced block are its `params`; a block is pending as long as
it has none. The two views that list pending blocks walk from the highest slot
with eth blocks along the stored parents of Solana slots.
-/

namespace RomeSdk

/-- A map keyed by block ids in their lexicographic order. -/
abbrev ByBlockId (V : Type) := BTreeMap Slot (BTreeMap Nat V)

namespace ByBlockId

variable {V : Type}

/-- `entry(id).or_insert(value)` -/
def insertIfNew (m : ByBlockId V) (id : EthBlockId) (value : V) : ByBlockId V :=
  BTreeMap.upsert m id.1 fun slotBlocks => (slotBlocks.getD ∅).insertIfNew id.2 value

/-- `last_entry` -/
def lastEntry (m : ByBlockId V) : Option (EthBlockId × V) := do
  let (slotNumber, slotBlocks) ← m.toList.getLast?
  let (blockIdx, value) ← slotBlocks.toList.getLast?
  pure ((slotNumber, blockIdx), value)

end ByBlockId

namespace PgStorage

variable {block : Type}

/-! ## Rows of the queries -/

/-- `pending_blocks_with_slot_statuses2` -/
structure PendingBlockRow where
  slotNumber : Slot
  parentSlot : Slot
  slotStatus : SlotStatus
  slotBlockhash : Option String
  slotTimestamp : Option Int
  slotBlockIdx : Option Nat
  gasRecipient : Option Address
  params : Option BlockParams
  deriving DecidableEq, Repr

/-- `pending_transactions_with_slot_statuses2` -/
structure PendingTx where
  slotNumber : Slot
  slotStatus : SlotStatus
  slotBlockhash : String
  slotTimestamp : Option Int
  slotBlockIdx : Nat
  gasRecipient : Option Address
  ethBlockhash : Option H256
  txIdx : Nat
  rlp : Bytes
  txResult : TxResult

/-- `reproduce_blocks2` -/
structure ReproducedBlockRow where
  slotNumber : Slot
  slotTimestamp : Option Int
  slotBlockIdx : Nat
  gasRecipient : Option Address
  blockhash : H256
  parentHash : Option H256
  blockNumber : Nat
  txIdx : Nat
  rlp : Bytes
  txResult : TxResult

/-! ## The pending blocks -/

/-- A slot of `sol_slot` that is joined with no eth block. -/
def slotRow (slotNumber : Slot) (s : SolSlot) : PendingBlockRow where
  slotNumber := slotNumber
  parentSlot := s.parentSlot
  slotStatus := s.status
  slotBlockhash := s.blockhash
  slotTimestamp := s.timestamp
  slotBlockIdx := none
  gasRecipient := none
  params := none

/-- A slot of `sol_slot` with one of its eth blocks. -/
def blockRow (slotNumber : Slot) (s : SolSlot) (b : Nat × EthBlockHeader) : PendingBlockRow :=
  { slotRow slotNumber s with
    slotBlockIdx := some b.1
    gasRecipient := b.2.gasRecipient
    params := b.2.params }

/-- `sol_slot LEFT JOIN eth_block`, for one slot. -/
def leftJoin (slotNumber : Slot) (s : SolSlot) (blocks : List (Nat × EthBlockHeader)) :
    List PendingBlockRow :=
  if blocks.isEmpty then [slotRow slotNumber s] else blocks.map (blockRow slotNumber s)

def hasProduced (db : Db block) (slotNumber : Slot) : Bool :=
  (db.slotBlocks slotNumber).any fun b => b.2.params.isSome

/-- The first part of the view: the highest slot with eth blocks, and those of its
blocks that are not produced. -/
def pendingFirst (db : Db block) : List PendingBlockRow :=
  match Db.maxOf db.ethBlockSlots with
  | none => []
  | some slotNumber =>
      match db.solSlot.lookup slotNumber with
      | none => []
      | some s =>
          leftJoin slotNumber s ((db.slotBlocks slotNumber).filter fun b => b.2.params.isNone)

/-- The second part: the parent slot of a row, with all its eth blocks. -/
def pendingNext (db : Db block) (p : PendingBlockRow) : List PendingBlockRow :=
  match db.solSlot.lookup p.parentSlot with
  | none => []
  | some parent =>
      if 0 < p.parentSlot ∧ (p.slotStatus ≠ .finalized ∨ ¬ hasProduced db p.slotNumber) then
        leftJoin p.parentSlot parent (db.slotBlocks p.parentSlot)
      else []

/-- Every row the view can have. -/
def allBlockRows (db : Db block) : List PendingBlockRow :=
  db.solSlot.entries.flatMap fun e =>
    slotRow e.1 e.2 :: (db.slotBlocks e.1).map (blockRow e.1 e.2)

def pendingBlocksWithSlotStatuses2 (db : Db block) : List PendingBlockRow :=
  recursiveUnion (pendingNext db) ((allBlockRows db).length + 1) (pendingFirst db)

/-- The rows of a block with its transactions; `slot_blockhash` must not be null. -/
def pendingTxsOf (db : Db block) (row : PendingBlockRow) (blockIdx : Nat) :
    List (Outcome PendingTx) :=
  (db.blockTxs (row.slotNumber, blockIdx)).filterMap fun (txIdx, txHash) => do
    let rlp ← db.evmTx.lookup txHash
    let evmTxResult ← db.evmTxResult.lookup (row.slotNumber, txHash)
    match row.slotBlockhash with
    | none => some (.error (.err (.dieselError "Unexpected null for non-null column")))
    | some slotBlockhash =>
        some (.ok {
          slotNumber := row.slotNumber
          slotStatus := row.slotStatus
          slotBlockhash := slotBlockhash
          slotTimestamp := row.slotTimestamp
          slotBlockIdx := blockIdx
          gasRecipient := row.gasRecipient
          ethBlockhash := row.params.map BlockParams.hash
          txIdx := txIdx
          rlp := rlp
          txResult := evmTxResult.txResult })

def pendingTransactionsWithSlotStatuses2 (db : Db block) : Outcome (List PendingTx) :=
  ((pendingBlocksWithSlotStatuses2 db).flatMap fun row =>
    match row.slotBlockIdx with
    | none => []
    | some blockIdx => pendingTxsOf db row blockIdx).mapM id

/-- `H256::from_slice` of a base58 text that must decode. -/
def expectBlockhash (X : StorageCrates) (text message : String) : Outcome H256 :=
  match X.bs58Decode text with
  | none => .error (.panic message)
  | some bytes =>
      if bytes.length = 32 then .ok (H256.fromSlice bytes)
      else .error (.panic "assertion failed")

def expectTimestamp (timestamp : Option Int) (message : String) : Outcome U256 :=
  match timestamp with
  | none => .error (.panic message)
  | some t => U256.fromTimestamp t

def newFromPendingTx (X : StorageCrates) (tx : PendingTx) : Outcome PendingL1Block := do
  let blockhash ← expectBlockhash X tx.slotBlockhash
    ("Failed to decode L1 blockhash for slot " ++ toString tx.slotNumber)
  let timestamp ← expectTimestamp tx.slotTimestamp
    ("Slot timestamp is not set for slot " ++ toString tx.slotNumber)
  pure ⟨blockhash, timestamp, ∅⟩

def newFromReproducedBlockRow (row : ReproducedBlockRow) : Outcome PendingL1Block := do
  let timestamp ← expectTimestamp row.slotTimestamp
    ("Slot timestamp is not set for slot " ++ toString row.slotNumber)
  pure ⟨row.blockhash, timestamp, ∅⟩

/-- Puts a transaction into a block of a slot. A block that is not there yet is made. -/
def fileTx (X : StorageCrates) (gasRecipient : Option Address) (occupied : String)
    (slotNumber : Slot) (blockIdx txIdx : Nat) (rlp : Bytes) (txResult : TxResult)
    (pending : PendingBlocks) (l1Block : PendingL1Block) : Outcome PendingBlocks :=
  let l2Block := l1Block.l2Blocks[blockIdx]?.getD ⟨∅, gasRecipient⟩
  match l2Block.transactions[txIdx]? with
  | some _ => .error (.panic occupied)
  | none =>
      match X.ethers.decode rlp with
      | .error e => .error (.err (.txDecodeError e))
      | .ok tx =>
          .ok (pending.insert slotNumber { l1Block with
            l2Blocks := l1Block.l2Blocks.insert blockIdx { l2Block with
              transactions := l2Block.transactions.insert txIdx (tx, txResult) } })

/-- The same with a slot that is made if it is not there yet. -/
def appendTx (X : StorageCrates) (newL1Block : Outcome PendingL1Block)
    (gasRecipient : Option Address) (occupied : String) (slotNumber : Slot) (blockIdx txIdx : Nat)
    (rlp : Bytes) (txResult : TxResult) (pending : PendingBlocks) : Outcome PendingBlocks :=
  match pending[slotNumber]? with
  | some l1Block =>
      fileTx X gasRecipient occupied slotNumber blockIdx txIdx rlp txResult pending l1Block
  | none => newL1Block.bind
      (fileTx X gasRecipient occupied slotNumber blockIdx txIdx rlp txResult pending)

def appendPendingTx (X : StorageCrates) (pending : PendingBlocks) (tx : PendingTx) :
    Outcome PendingBlocks :=
  appendTx X (newFromPendingTx X tx) tx.gasRecipient "PendingBlock tx already occupied"
    tx.slotNumber tx.slotBlockIdx tx.txIdx tx.rlp tx.txResult pending

def appendReproducedBlockRow (X : StorageCrates) (pending : PendingBlocks)
    (row : ReproducedBlockRow) : Outcome PendingBlocks :=
  appendTx X (newFromReproducedBlockRow row) row.gasRecipient
    "DB data corrupted: Reproduce block already occupied" row.slotNumber row.slotBlockIdx row.txIdx
    row.rlp row.txResult pending

/-- The variables of `get_pending_blocks`. -/
structure PendingState where
  finalizedBlocks : ByBlockId (Option H256)
  producedBlocks : ByBlockId H256
  pendingBlocks : PendingBlocks

/-- The body of its loop. -/
def PendingState.add (X : StorageCrates) (st : PendingState) (tx : PendingTx) :
    Outcome PendingState := do
  let blockId : EthBlockId := (tx.slotNumber, tx.slotBlockIdx)
  let st :=
    if tx.slotStatus = .finalized then
      { st with finalizedBlocks := st.finalizedBlocks.insertIfNew blockId tx.ethBlockhash }
    else st
  match tx.ethBlockhash with
  | some blockhash =>
      pure { st with producedBlocks := st.producedBlocks.insertIfNew blockId blockhash }
  | none =>
      let pendingBlocks ← appendPendingTx X st.pendingBlocks tx
      pure { st with pendingBlocks := pendingBlocks }

def finalizedBlock : EthBlockId × Option H256 → FinalizedBlock
  | (_, some blockhash) => .produced blockhash
  | (id, none) => .pending id

def getPendingBlocks (X : StorageCrates) (db : Db block) : Outcome (Option ProducerParams) := do
  let txs ← pendingTransactionsWithSlotStatuses2 db
  let st ← txs.foldlM (PendingState.add X) ⟨∅, ∅, ∅⟩
  if st.pendingBlocks.isEmpty then pure none
  else pure (some {
    parentHash := st.producedBlocks.lastEntry.map Prod.snd
    finalizedBlock := st.finalizedBlocks.lastEntry.map finalizedBlock
    pendingBlocks := st.pendingBlocks })

/-! ## Reproducing blocks -/

/-- `reproduce_blocks2`: the produced blocks of a range of slots. -/
def reproduceBlocks2 (fromSlot toSlot : Slot) (db : Db block) : List ReproducedBlockRow :=
  db.ethBlock.entries.flatMap fun e =>
    match e.2.params, db.solSlot.lookup e.1.1 with
    | some params, some s =>
        if fromSlot ≤ e.1.1 ∧ e.1.1 < toSlot then
          (db.blockTxs e.1).filterMap fun (txIdx, txHash) => do
            let evmTxResult ← db.evmTxResult.lookup (e.1.1, txHash)
            let rlp ← db.evmTx.lookup txHash
            some {
              slotNumber := e.1.1
              slotTimestamp := s.timestamp
              slotBlockIdx := e.1.2
              gasRecipient := e.2.gasRecipient
              blockhash := params.hash
              parentHash := params.parentHash
              blockNumber := params.number
              txIdx := txIdx
              rlp := rlp
              txResult := evmTxResult.txResult }
        else []
    | _, _ => []

def blockParamsOfRow (row : ReproducedBlockRow) : Outcome BlockParams := do
  let timestamp ← expectTimestamp row.slotTimestamp
    "DB data corrupted: slot timestamp is not set for slot"
  pure ⟨row.blockhash, row.parentHash, row.blockNumber, timestamp⟩

/-- `append_from_reproduced_block_row`, which files the row under its block number. -/
def appendFromReproducedBlockRow (expected : ProducedBlocks) (row : ReproducedBlockRow) :
    Outcome ProducedBlocks :=
  let slotBlocks := expected[row.slotNumber]?.getD ∅
  match slotBlocks[row.blockNumber]? with
  | some _ => pure expected
  | none => do
      let blockParams ← blockParamsOfRow row
      pure (expected.insert row.slotNumber row.blockNumber blockParams)

/-- The body of the loop of `reproduce_blocks`. -/
def addReproduced (X : StorageCrates) (st : PendingBlocks × ProducedBlocks)
    (row : ReproducedBlockRow) : Outcome (PendingBlocks × ProducedBlocks) := do
  let pendingBlocks ← appendReproducedBlockRow X st.1 row
  let expectedResults ← appendFromReproducedBlockRow st.2 row
  pure (pendingBlocks, expectedResults)

def reproduceBlocks (X : StorageCrates) (fromSlot toSlot : Slot) (db : Db block) :
    Outcome (Option ReproduceParams) := do
  let (pendingBlocks, expectedResults) ←
    (reproduceBlocks2 fromSlot toSlot db).foldlM (addReproduced X) (∅, ∅)
  if pendingBlocks.isEmpty then pure none
  else pure (some {
    producerParams := {
      parentHash := expectedResults.first.bind BlockParams.parentHash
      finalizedBlock := none
      pendingBlocks := pendingBlocks }
    expectedResults := expectedResults })

/-! ## Registering parse results -/

def storeRollupHeader (slotNumber : Slot) (blockIdx : Nat) (ethBlock : EthBlock) (db : Db block) :
    Db block × Outcome Unit :=
  if (slotNumber, blockIdx) ∈ db.ethBlock then (db, .ok ())
  else if slotNumber ∈ db.solSlot then
    let header : EthBlockHeader :=
      ⟨ethBlock.blockGasUsed, ethBlock.gasRecipient, ethBlock.slotTimestamp, none⟩
    ({ db with ethBlock := db.ethBlock.insertIfNew (slotNumber, blockIdx) header }, .ok ())
  else (db, .error (.err (.dieselError
    "insert or update on table \"eth_block\" violates foreign key constraint \"fk_slot_number\"")))

/-- The body of the loop of `store_txs_into_db`. The block is stored already. -/
def storeTx (id : EthBlockId) (db : Db block) (e : TxHash × Nat) : Db block × Outcome Unit :=
  if (id, e.1) ∈ db.ethBlockTxs then (db, .ok ())
  else if (id.1, e.1) ∈ db.evmTxResult then
    ({ db with ethBlockTxs := db.ethBlockTxs.insertIfNew (id, e.1) e.2 }, .ok ())
  else (db, .error (.err (.dieselError ("insert or update on table \"eth_block_txs\" violates "
    ++ "foreign key constraint \"fk_slot_number_tx_hash\""))))

/-- A block of a slot: its header, then its transactions. -/
def storeEthBlock (db : Db block) (e : EthBlockId × EthBlock) : Db block × Outcome Unit :=
  match storeRollupHeader e.1.1 e.1.2 e.2 db with
  | (db, .ok ()) => forTry (storeTx e.1) e.2.transactions.zipIdx db
  | (db, .error err) => (db, .error err)

/-- The blocks of the parse results, in the order the two loops reach them. -/
def ethBlocksOf (parseResults : BTreeMap Slot BlockParseResult) : List (EthBlockId × EthBlock) :=
  parseResults.toList.flatMap fun e => e.2.ethBlocks.zipIdx.map fun b => ((e.1, b.2), b.1)

/-- The second transaction of `register_parse_results`. -/
def storeEthBlocks (parseResults : BTreeMap Slot BlockParseResult) (db : Db block) :
    Outcome (Unit × Db block) :=
  match forTry storeEthBlock (ethBlocksOf parseResults) db with
  | (db, .ok ()) => .ok ((), db)
  | (_, .error e) => .error e

/-- The transaction commits what its loop ends with. -/
theorem storeEthBlocks_loop {parseResults : BTreeMap Slot BlockParseResult} {db db' : Db block}
    (h : storeEthBlocks parseResults db = .ok ((), db')) :
    forTry storeEthBlock (ethBlocksOf parseResults) db = (db', .ok ()) := by
  rw [storeEthBlocks] at h
  split at h
  · next hloop =>
    cases h
    exact hloop
  · cases h

/-! ## Recording produced blocks -/

/-- `block_produced`: sets the parameters of a block that has none. -/
def setParams (id : EthBlockId) (blockParams : BlockParams) (db : Db block) : Db block :=
  let update (key : EthBlockId) (row : EthBlockHeader) : Option EthBlockHeader :=
    if key = id ∧ row.params = none then some { row with params := some blockParams }
    else some row
  { db with ethBlock := HashMap.filterMap db.ethBlock update }

/-- The body of the loop of `blocks_produced`. -/
def recordParams (pendingBlocks : PendingBlocks) (db : Db block) (e : Slot × Nat × BlockParams) :
    Db block :=
  if pendingBlocks.contains e.1 e.2.1 then setParams (e.1, e.2.1) e.2.2 db else db

/-- The first transaction of `blocks_produced`. -/
def recordAllParams (pendingBlocks : PendingBlocks) (producedBlocks : ProducedBlocks)
    (db : Db block) : Db block :=
  producedBlocks.iter.foldl (recordParams pendingBlocks) db

/-! ## The other queries -/

def latestEthBlock (db : Db block) : Option Nat :=
  Db.maxOf (db.ethBlock.entries.filterMap fun e => e.2.params.map BlockParams.number)

def getMaxSlotProduced (db : Db block) : Option Slot :=
  Db.maxOf (db.ethBlock.entries.filterMap fun e => if e.2.params.isSome then some e.1.1 else none)

/-- The slot of the first row that happens to be returned. -/
def getSlotForEthBlock (blockNumber : Nat) (db : Db block) : Option Slot :=
  (db.ethBlock.entries.find? fun e => e.2.params.map BlockParams.number == some blockNumber).map
    fun e => e.1.1

def cleanFromSlot (fromSlot : Slot) (db : Db block) : Db block :=
  { db with
    ethBlockTxs := HashMap.filterMap db.ethBlockTxs
      fun key txIdx => if fromSlot ≤ key.1.1 then none else some txIdx
    ethBlock := HashMap.filterMap db.ethBlock
      fun key row => if fromSlot ≤ key.1 then none else some row
    evmTxResult := HashMap.filterMap db.evmTxResult
      fun key row => if fromSlot ≤ key.1 then none else some row }

/-! ## The storage -/

variable {σ : Type}

def registerParseResults (X : StorageCrates) (pool : Pool σ block)
    (parseResults : BTreeMap Slot BlockParseResult) : Eff σ Unit :=
  if parseResults.isEmpty then pure ()
  else do
    pool.transaction (TransactionStorage.registerParseResults X parseResults)
    pool.transaction (storeEthBlocks parseResults)

def blocksProduced (pool : Pool σ block) (producerParams : ProducerParams)
    (producedBlocks : ProducedBlocks) : Eff σ Unit := do
  pool.transaction fun db =>
    .ok ((), recordAllParams producerParams.pendingBlocks producedBlocks db)
  pool.transaction
    (TransactionStorage.blocksProduced producerParams.pendingBlocks producedBlocks)

def ethereumBlockStorage (X : StorageCrates) (pool : Pool σ block) : EthereumBlockStorage σ where
  getPendingBlocks := pool.query (getPendingBlocks X)
  reproduceBlocks fromSlot toSlot := pool.query (reproduceBlocks X fromSlot toSlot)
  registerParseResults := registerParseResults X pool
  latestBlock := pool.query fun db => .ok (latestEthBlock db)
  blocksProduced := blocksProduced pool
  getMaxSlotProduced := pool.query fun db => .ok (getMaxSlotProduced db)
  retainFromSlot _ := pure ()
  getSlotForEthBlock blockNumber := pool.query fun db => .ok (getSlotForEthBlock blockNumber db)
  cleanFromSlot fromSlot := pool.transaction fun db => .ok ((), cleanFromSlot fromSlot db)

end PgStorage

end RomeSdk
