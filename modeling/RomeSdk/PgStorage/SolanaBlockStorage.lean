import RomeSdk.PgStorage.Tables
import RomeSdk.Indexer.SolanaBlockLoader

/-!
# The Solana block storage

`pg_storage/solana_block_storage.rs` and the SQL it calls. A block is stored
once, with the status its slot has by then, and an attempt to store it again
changes nothing. `set_finalized_slot` walks from a slot along the stored parents
as long as it finds slots that are not finalized, and finalizes these.
-/

namespace RomeSdk

namespace PgStorage

/-! ## Storing blocks -/

/-- `set_block_with_status2`; on a conflict it does nothing. -/
def setBlockWithStatus2 (slotNumber : Slot) (b : UiConfirmedBlock) (status : SlotStatus)
    (blockTime : Int) (db : Db UiConfirmedBlock) : Db UiConfirmedBlock :=
  let row : SolSlot := ⟨b.parentSlot, status, some b.blockhash, some blockTime⟩
  { db with
    solSlot := db.solSlot.insertIfNew slotNumber row
    solBlock := db.solBlock.insertIfNew slotNumber b }

def slotStatus (finalizedSlot slotNumber : Slot) : SlotStatus :=
  if slotNumber ≤ finalizedSlot then .finalized else .confirmed

/-- The body of the loop of `store_blocks`. -/
def storeBlock (finalizedSlot : Slot) (db : Db UiConfirmedBlock) (e : Slot × UiConfirmedBlock) :
    Outcome (Db UiConfirmedBlock) :=
  match e.2.blockTime with
  | none => .error (.panic "assertion failed: block.block_time.is_some()")
  | some blockTime =>
      .ok (setBlockWithStatus2 e.1 e.2 (slotStatus finalizedSlot e.1) blockTime db)

def storeBlocks (blocks : BTreeMap Slot UiConfirmedBlock) (finalizedSlot : Slot)
    (db : Db UiConfirmedBlock) : Outcome (Unit × Db UiConfirmedBlock) :=
  (blocks.toList.foldlM (storeBlock finalizedSlot) db).map fun db => ((), db)

/-- The body of the loop of `update_finalized_blocks`. The fifth parameter of the
procedure is the timestamp, a `BIGINT`; the call binds `previous_blockhash` there, a
text, and no procedure of the name takes these types. The one there is would not
run either: its `ON CONFLICT DO UPDATE` has no target. -/
def updateFinalizedBlock (_ : Db UiConfirmedBlock) (_ : Slot × UiConfirmedBlock) :
    Outcome (Db UiConfirmedBlock) :=
  .error (.err (.dieselError
    "procedure update_finalized_block2(bigint, bigint, bytea, text, text) does not exist"))

def updateFinalizedBlocks (blocks : BTreeMap Slot UiConfirmedBlock) (db : Db UiConfirmedBlock) :
    Outcome (Unit × Db UiConfirmedBlock) :=
  (blocks.toList.foldlM updateFinalizedBlock db).map fun db => ((), db)

/-! ## Finalizing slots -/

variable {block : Type}

/-- The slot and the parent of a row that is not finalized. -/
def forkRow (db : Db block) (slot : Slot) : List (Slot × Slot) :=
  match db.solSlot.lookup slot with
  | none => []
  | some row => if row.status ≠ .finalized then [(slot, row.parentSlot)] else []

/-- `WITH RECURSIVE fork` -/
def fork (db : Db block) (slot : Slot) : List (Slot × Slot) :=
  recursiveUnion (fun f => forkRow db f.2) (db.solSlot.entries.length + 1) (forkRow db slot)

/-- The slots of the fork that have a block, with their blocks. -/
def finalizedSlotRows (db : Db block) (slot : Slot) : List (Slot × block) :=
  (fork db slot).filterMap fun f => (db.solBlock.lookup f.1).map fun b => (f.1, b)

def setFinalized (slots : List Slot) (db : Db block) : Db block :=
  let update (slot : Slot) (row : SolSlot) : Option SolSlot :=
    if slot ∈ slots then some { row with status := .finalized } else some row
  { db with solSlot := HashMap.filterMap db.solSlot update }

def setFinalizedSlot (slot : Slot) (db : Db block) : BTreeMap Slot block × Db block :=
  let rows := finalizedSlotRows db slot
  (BTreeMap.insertAll ∅ rows, setFinalized (rows.map Prod.fst) db)

/-! ## The storage -/

def getLastSlot (db : Db block) : Option Slot := Db.maxOf (db.solBlock.entries.map fun e => e.1)

variable {σ : Type}

def solanaBlockStorage (pool : Pool σ UiConfirmedBlock) : LoadingStorage σ where
  getLastSlot := pool.query fun db => .ok (getLastSlot db)
  retainFromSlot _ := pure ()
  stored s slot := slot ∈ (pool.read s).solBlock
  storeBlocks blocks finalizedSlot := pool.transaction (storeBlocks blocks finalizedSlot)
  updateFinalizedBlocks blocks := pool.transaction (updateFinalizedBlocks blocks)
  getBlock slotNumber := pool.query fun db => .ok (db.solBlock.lookup slotNumber)
  setFinalizedSlot slot := pool.transaction fun db => .ok (setFinalizedSlot slot db)

end PgStorage

end RomeSdk
