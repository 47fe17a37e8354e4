import RomeSdk.Proofs.FinalizedFork

/-!
# The two writers of a block

`store_blocks` makes the rows of a new block, and `update_finalized_blocks` is there to put
the same rows in the place of those of a block that was replaced. The second never does:
the procedure it calls does not take what it binds, so every call with a block ends with an
error and the transaction is rolled back. What it leaves is what was there before, and this
is right only where the rows were those of the block already.
-/

namespace RomeSdk

namespace PgStorage

variable {blocks : BTreeMap Slot UiConfirmedBlock} {slot : Slot} {b : UiConfirmedBlock}

/-- A call with a block fails, whatever is stored. -/
theorem updateFinalizedBlocks_error (hb : blocks[slot]? = some b) (db : Db UiConfirmedBlock) :
    ∃ e, updateFinalizedBlocks blocks db = .error e := by
  have hmem : (slot, b) ∈ blocks.toList := (BTreeMap.mem_toList _ _ _).mpr hb
  rw [updateFinalizedBlocks]
  cases hlist : blocks.toList with
  | nil =>
      rw [hlist] at hmem
      cases hmem
  | cons e l =>
      rw [List.foldlM_cons, updateFinalizedBlock]
      exact ⟨_, rfl⟩

/-- What `update_finalized_blocks` leaves. -/
def leftBy (blocks : BTreeMap Slot UiConfirmedBlock) (w : Server UiConfirmedBlock) :
    Db UiConfirmedBlock :=
  (((solanaBlockStorage Server.pool).updateFinalizedBlocks blocks).after w).db

theorem leftBy_eq (hb : blocks[slot]? = some b) (w : Server UiConfirmedBlock) :
    leftBy blocks w = w.db := by
  rw [leftBy, EStateM.after]
  cases hcall : (solanaBlockStorage Server.pool).updateFinalizedBlocks blocks w with
  | error e t => exact Server.transaction_err hcall
  | ok a t =>
      obtain ⟨e, he⟩ := updateFinalizedBlocks_error hb w.db
      have hcommit := Server.transaction_ok hcall
      rw [he] at hcommit
      cases hcommit

/-- What `store_blocks` makes of the block of a finalized slot where nothing is stored. -/
def created (slot : Slot) (b : UiConfirmedBlock) : Outcome (Unit × Db UiConfirmedBlock) :=
  storeBlocks ((∅ : BTreeMap Slot UiConfirmedBlock).insert slot b) slot Db.empty

/-- The columns of `sol_slot` that come from the block. -/
structure SameColumns (row made : SolSlot) : Prop where
  parentSlot : row.parentSlot = made.parentSlot
  blockhash : row.blockhash = made.blockhash
  timestamp : row.timestamp = made.timestamp

/-- `update_finalized_blocks` leaves the rows of a slot as `store_blocks` creates them, and
the next call of `get_block` returns the block. -/
structure LeavesAsCreated (blocks : BTreeMap Slot UiConfirmedBlock) (slot : Slot)
    (b : UiConfirmedBlock) (w : Server UiConfirmedBlock) : Prop where
  rows : ∃ db row made, created slot b = .ok ((), db) ∧
    (leftBy blocks w).solSlot.lookup slot = some row ∧ db.solSlot.lookup slot = some made ∧
    SameColumns row made ∧ (leftBy blocks w).solBlock.lookup slot = db.solBlock.lookup slot
  readBack : ∀ t : Server UiConfirmedBlock, t.db = leftBy blocks w → t.fault 0 = none →
    ∃ t', (solanaBlockStorage Server.pool).getBlock slot t = .ok (some b) t'

/-- The rows of a slot are those of a block. -/
structure HoldsRows (db : Db UiConfirmedBlock) (slot : Slot) (b : UiConfirmedBlock) : Prop where
  solSlot : ∃ row, db.solSlot.lookup slot = some row ∧ row.parentSlot = b.parentSlot ∧
    row.blockhash = some b.blockhash ∧ row.timestamp = b.blockTime
  solBlock : db.solBlock.lookup slot = some b

theorem created_ok (slot : Slot) {blockTime : Int} (htime : b.blockTime = some blockTime) :
    ∃ db, created slot b = .ok ((), db) ∧
      db.solSlot.lookup slot = some (slotRowOf slot slot b) ∧
      db.solBlock.lookup slot = some b := by
  have hlist : ((∅ : BTreeMap Slot UiConfirmedBlock).insert slot b).toList = [(slot, b)] :=
    BTreeMap.toList_insert_above fun k v h => by simp at h
  have hok : created slot b =
      .ok ((), setBlockWithStatus2 slot b (slotStatus slot slot) blockTime Db.empty) := by
    rw [created, storeBlocks, hlist, List.foldlM_cons, storeBlock, htime]
    rfl
  refine ⟨_, hok, ?_⟩
  obtain ⟨hslot, hblock⟩ := storeBlocks_ok hok slot
  rw [hslot, hblock, BTreeMap.get?_insert, if_pos rfl]
  exact ⟨rfl, rfl⟩

theorem getBlock_server (slot : Slot) {w : Server UiConfirmedBlock} (h : w.fault 0 = none) :
    (solanaBlockStorage Server.pool).getBlock slot w =
      .ok (w.db.solBlock.lookup slot) ⟨w.db, w.faults.tail⟩ := by
  show Server.pool.query (fun db => .ok (db.solBlock.lookup slot)) w = _
  rw [Pool.query, Server.transaction_go h]
  rfl

/-- The rows are right after the call if and only if they were before. -/
theorem update_leaves_created_iff {blockTime : Int} (hb : blocks[slot]? = some b)
    (htime : b.blockTime = some blockTime) (w : Server UiConfirmedBlock) :
    LeavesAsCreated blocks slot b w ↔ HoldsRows w.db slot b := by
  obtain ⟨db, hdb, hmade, hmadeBlock⟩ := created_ok slot htime
  constructor
  · intro h
    obtain ⟨db', row, made, hdb', hrow, hmade', hsame, hblock⟩ := h.rows
    rw [hdb] at hdb'
    cases hdb'
    rw [hmade] at hmade'
    cases hmade'
    rw [leftBy_eq hb] at hrow hblock
    rw [hmadeBlock] at hblock
    exact ⟨⟨row, hrow, hsame.parentSlot, hsame.blockhash, hsame.timestamp⟩, hblock⟩
  · intro h
    obtain ⟨row, hrow, hparent, hhash, htimestamp⟩ := h.solSlot
    refine ⟨⟨db, row, _, hdb, ?_, hmade, ⟨hparent, hhash, htimestamp⟩, ?_⟩, ?_⟩
    · rw [leftBy_eq hb]
      exact hrow
    · rw [leftBy_eq hb, hmadeBlock]
      exact h.solBlock
    · intro t ht hfault
      rw [leftBy_eq hb] at ht
      exact ⟨_, by rw [getBlock_server slot hfault, ht, h.solBlock]⟩

/-! ## A replaced block -/

/-- Slot 7, as it was stored when it was confirmed, and as it became finalized. -/
def staleBlock : UiConfirmedBlock := ⟨"parent", "stale", 6, none, some 100⟩

def newBlock : UiConfirmedBlock := ⟨"parent", "finalized", 6, none, some 101⟩

def staleServer : Server UiConfirmedBlock :=
  ⟨setBlockWithStatus2 7 staleBlock .finalized 100 Db.empty, []⟩

def replacement : BTreeMap Slot UiConfirmedBlock := (∅ : BTreeMap Slot _).insert 7 newBlock

/-- The call fails, and the stale block stays. -/
theorem stale_block_stays :
    (∃ e t, (solanaBlockStorage Server.pool).updateFinalizedBlocks replacement staleServer =
      .error e t) ∧ ¬ LeavesAsCreated replacement 7 newBlock staleServer := by
  have hb : replacement[(7 : Slot)]? = some newBlock := by decide
  refine ⟨⟨_, _, rfl⟩, ?_⟩
  intro h
  obtain ⟨db, row, made, hdb, hrow, hmade, hsame, hblock⟩ := h.rows
  obtain ⟨db', hdb', _, hmadeBlock⟩ := @created_ok newBlock 7 _ rfl
  rw [hdb] at hdb'
  cases hdb'
  rw [leftBy_eq hb, hmadeBlock] at hblock
  revert hblock
  decide

theorem update_leaves_created_stale :
    LeavesAsCreated replacement 7 newBlock staleServer ↔
      HoldsRows staleServer.db 7 newBlock :=
  update_leaves_created_iff (by decide) rfl staleServer

end PgStorage

end RomeSdk
