import RomeSdk.Lib.Machine
import RomeSdk.PgStorage.EthereumBlockStorage

/-!
# Runs of the storage

The database transactions that write eth blocks and what belongs to them, in any order
and any number; one that fails leaves no trace. `register_parse_results` and
`blocks_produced` are two transactions each, and others may come between these. What
the loader writes into the tables of Solana slots is left open.
-/

namespace RomeSdk

namespace PgStorage

variable {block : Type}

inductive StorageAction where
  /-- The first transaction of `register_parse_results`. -/
  | registerTransactions (parseResults : BTreeMap Slot BlockParseResult)
  /-- Its second one. -/
  | storeEthBlocks (parseResults : BTreeMap Slot BlockParseResult)
  /-- The first transaction of `blocks_produced`. -/
  | recordParams (pendingBlocks : PendingBlocks) (producedBlocks : ProducedBlocks)
  /-- Its second one. -/
  | recordReceipts (pendingBlocks : PendingBlocks) (producedBlocks : ProducedBlocks)
  | cleanFromSlot (fromSlot : Slot)
  /-- The loader writes. -/
  | solana

def storageStep (X : StorageCrates) (db : Db block) : StorageAction → Db block → Prop
  | .registerTransactions parseResults, db' =>
      TransactionStorage.registerParseResults X parseResults db = .ok ((), db')
  | .storeEthBlocks parseResults, db' => storeEthBlocks parseResults db = .ok ((), db')
  | .recordParams pendingBlocks producedBlocks, db' =>
      db' = recordAllParams pendingBlocks producedBlocks db
  | .recordReceipts pendingBlocks producedBlocks, db' =>
      TransactionStorage.blocksProduced pendingBlocks producedBlocks db = .ok ((), db')
  | .cleanFromSlot fromSlot, db' => db' = cleanFromSlot fromSlot db
  | .solana, db' =>
      ∃ solSlot solBlock, db' = { db with solSlot := solSlot, solBlock := solBlock }

def storageMachine (X : StorageCrates) : Machine (Db block) StorageAction where
  init db := db = Db.empty
  step := storageStep X

end PgStorage

end RomeSdk
