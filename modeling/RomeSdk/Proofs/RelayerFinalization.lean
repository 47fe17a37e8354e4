import RomeSdk.Indexer.RelayerSolanaBlockStorage
import RomeSdk.Proofs.FinalizedFork

/-!
# Finalizing slots behind the relayer

`set_finalized_slot` finalizes the slots of the fork that have a block in `sol_block`,
and behind the relayer nothing is ever put there. So a slot keeps the status it was
stored with (`Kept`), and of the slots that were stored as confirmed no successful call
finalizes one (`set_finalized_slot_finalizes_nothing`).
-/

namespace RomeSdk

namespace RelayerSolanaBlockStorage

open PgStorage (OnFork Finalized)

variable {D : Decoders}

/-! ## What every call keeps -/

/-- If no block is stored before, none is stored after, and every row is as before. -/
def KeptRows (db db' : Db UiConfirmedBlock) : Prop :=
  db.solBlock = ∅ → db'.solBlock = ∅ ∧
    ∀ slot row, db.solSlot.lookup slot = some row → db'.solSlot.lookup slot = some row

def Kept (w w' : World) : Prop := KeptRows w.1.db w'.1.db

instance : IsPreorder World Kept where
  refl _ := fun hempty => ⟨hempty, fun _ _ hrow => hrow⟩
  trans _ _ _ h₁ h₂ := fun hempty =>
    ⟨(h₂ (h₁ hempty).1).1, fun slot row hrow =>
      (h₂ (h₁ hempty).1).2 slot row ((h₁ hempty).2 slot row hrow)⟩

theorem moves_transaction {α : Type} {f : Db UiConfirmedBlock → Outcome (α × Db UiConfirmedBlock)}
    (h : ∀ db a db', f db = .ok (a, db') → KeptRows db db') :
    EStateM.Moves Kept (pool.transaction f) := by
  intro w
  rw [EStateM.after, pool, Pool.transaction_beside]
  cases hrun : Server.pool.transaction f w.1 with
  | ok a u => exact h _ _ _ (Server.transaction_ok hrun)
  | error e u =>
      show KeptRows w.1.db u.db
      rw [Server.transaction_err hrun]
      exact fun hempty => ⟨hempty, fun _ _ hrow => hrow⟩

theorem keptRows_insertSlot (slot : Slot) (block : UiConfirmedBlock) (isFinalized : Bool)
    (blockTime : Int) (db : Db UiConfirmedBlock) :
    KeptRows db (insertSlot slot block isFinalized blockTime db) := by
  intro hempty
  refine ⟨hempty, fun s row hrow => ?_⟩
  rw [insertSlot, HashMap.lookup_insertIfNew]
  by_cases hs : slot = s
  · subst hs
    rw [if_pos rfl, hrow, Option.getD_some]
  · rw [if_neg hs, hrow]

theorem setFinalizedSlot_returns_none {db : Db UiConfirmedBlock} (hempty : db.solBlock = ∅)
    (slot s : Slot) : s ∉ (PgStorage.setFinalizedSlot slot db).1 := by
  intro hmem
  obtain ⟨b, hb⟩ := Option.isSome_iff_exists.mp (Std.ExtTreeMap.mem_iff_isSome_getElem?.mp hmem)
  have hstored := (PgStorage.get?_setFinalizedSlot.mp hb).2
  rw [hempty, AList.lookup_empty] at hstored
  cases hstored

/-- Where no block is stored no row changes. -/
theorem lookup_setFinalizedSlot_empty {db : Db UiConfirmedBlock} (hempty : db.solBlock = ∅)
    (slot s : Slot) :
    (PgStorage.setFinalizedSlot slot db).2.solSlot.lookup s = db.solSlot.lookup s := by
  rw [PgStorage.lookup_setFinalizedSlot]
  simp only [setFinalizedSlot_returns_none hempty, if_false, Option.map_id']

theorem keptRows_setFinalizedSlot (slot : Slot) (db : Db UiConfirmedBlock) :
    KeptRows db (PgStorage.setFinalizedSlot slot db).2 := by
  intro hempty
  refine ⟨hempty, fun s row hrow => ?_⟩
  rw [lookup_setFinalizedSlot_empty hempty, hrow]

/-! ## One lemma for each call -/

theorem moves_side {α : Type} {x : Eff World α} (h : ∀ w, (x.after w).1 = w.1) :
    EStateM.Moves Kept x := by
  intro w
  rw [Kept, h]
  exact fun hempty => ⟨hempty, fun _ _ hrow => hrow⟩

theorem moves_setFinalizedSlot (slot : Slot) : EStateM.Moves Kept (setFinalizedSlot slot) := by
  refine moves_transaction fun db a db' h => ?_
  cases h
  exact keptRows_setFinalizedSlot slot db

theorem moves_storeSlot (slot : Slot) (block : UiConfirmedBlock) (isFinalized : Bool) :
    EStateM.Moves Kept (storeSlot slot block isFinalized) := by
  rw [storeSlot]
  split
  · exact .throw _
  · refine moves_transaction fun db a db' h => ?_
    cases h
    exact keptRows_insertSlot slot block isFinalized _ db

theorem moves_keepBlock (slot : Slot) (b : UiConfirmedBlock × Bool) :
    EStateM.Moves Kept (keepBlock slot b) := by
  obtain ⟨block, isFinalized⟩ := b
  rw [keepBlock]
  refine .bind (moves_storeSlot slot block isFinalized) fun _ => ?_
  refine .bind (moves_side fun w => rfl) fun _ => ?_
  exact .bind (moves_side fun w => rfl) fun _ => .pure _

theorem moves_getBlock (D : Decoders) (slot : Slot) : EStateM.Moves Kept (getBlock D slot) := by
  rw [getBlock]
  split
  · exact .throw _
  · refine .bind (moves_side fun w => rfl) fun cached => ?_
    cases cached with
    | some block => exact .pure _
    | none =>
        dsimp only
        rw [askRelayer]
        refine .bind (moves_side fun w => rfl) fun answer => ?_
        cases answer with
        | ok block => exact .bind (moves_keepBlock slot _) fun _ => .pure _
        | error status =>
            dsimp only
            split
            · exact .pure _
            · exact .throw _

theorem moves_attempt {α : Type} {x : Eff World α} (h : EStateM.Moves Kept x) :
    EStateM.Moves Kept x.attempt := by
  intro w
  have hx := h w
  rw [EStateM.after] at hx
  rw [EStateM.after, Eff.attempt]
  rcases hrun : x w with ⟨a, u⟩ | ⟨e | message, u⟩ <;> rw [hrun] at hx <;> exact hx

theorem moves_recheck (D : Decoders) (slot : Slot) : EStateM.Moves Kept (recheck D slot) := by
  rw [recheck]
  refine .bind (moves_side fun w => rfl) fun answer => ?_
  cases answer with
  | ok block =>
      dsimp only
      split
      · refine .bind (moves_attempt (moves_setFinalizedSlot slot)) fun _ => ?_
        exact moves_side fun w => rfl
      · exact .pure _
  | error status => exact .pure _

theorem kept_step {w w' : World} {a : Action} (h : (machine D).step w a w') : Kept w w' := by
  cases a with
  | getBlock slot =>
      cases h
      exact moves_getBlock D slot w
  | setFinalizedSlot slot =>
      cases h
      exact moves_setFinalizedSlot slot w
  | recheck slot =>
      obtain ⟨_, rfl⟩ := h
      exact moves_recheck D slot w
  | forget slot =>
      cases h
      exact refl_of Kept w

/-! ## Any run -/

theorem no_block_stored {tr : List (World × Action)} {w : World} (h : Machine.Run (machine D) tr w) :
    w.1.db.solBlock = ∅ := by
  induction h with
  | start hinit => exact hinit.2.1
  | next _ hstep ih => exact (kept_step hstep ih).1

/-- A call of `get_block` in the run put the slot into `sol_slot`, as confirmed. -/
def InsertedConfirmed (D : Decoders) (tr : List (World × Action)) (slot : Slot) : Prop :=
  ∃ w, (w, .getBlock slot) ∈ tr ∧ w.1.db.solSlot.lookup slot = none ∧
    ∃ row, ((getBlock D slot).after w).1.db.solSlot.lookup slot = some row ∧
      row.status = .confirmed

/-- Between the two states the slot and all its stored ancestors that were not finalized,
as far as they are linked, have been finalized. -/
def FinalizesFork (db db' : Db UiConfirmedBlock) (slot : Slot) : Prop :=
  Finalized db' slot ∧ ∀ s row, OnFork db slot s row → Finalized db' s

theorem inserted_stays {tr : List (World × Action)} {w : World}
    (h : Machine.Run (machine D) tr w) {slot : Slot} (hslot : InsertedConfirmed D tr slot) :
    ∃ row, w.1.db.solSlot.lookup slot = some row ∧ row.status = .confirmed := by
  induction h with
  | start _ =>
      obtain ⟨u, hu, _⟩ := hslot
      cases hu
  | @next tr w w' a hrun hstep ih =>
      obtain ⟨u, hu, hnone, row, hrow, hstatus⟩ := hslot
      rcases List.mem_append.mp hu with hu | hu
      · obtain ⟨row', hrow', hstatus'⟩ := ih ⟨u, hu, hnone, row, hrow, hstatus⟩
        exact ⟨row', (kept_step hstep (no_block_stored hrun)).2 slot row' hrow', hstatus'⟩
      · cases List.mem_singleton.mp hu
        cases hstep
        exact ⟨row, hrow, hstatus⟩

/-- No successful `set_finalized_slot` of a slot that was stored as confirmed finalizes it. -/
theorem set_finalized_slot_finalizes_nothing {D : Decoders} {tr : List (World × Action)}
    {w w' : World} (h : Machine.Run (machine D) tr w) {slot : Slot}
    (hslot : InsertedConfirmed D tr slot) {blocks : BTreeMap Slot UiConfirmedBlock}
    (hcall : setFinalizedSlot slot w = .ok blocks w') :
    ¬ FinalizesFork w.1.db w'.1.db slot := by
  rintro ⟨⟨row', hrow', hstatus'⟩, _⟩
  obtain ⟨row, hrow, hstatus⟩ := inserted_stays h hslot
  have hkept := moves_setFinalizedSlot slot w
  rw [EStateM.after, hcall] at hkept
  rw [(hkept (no_block_stored h)).2 slot row hrow] at hrow'
  cases hrow'
  rw [hstatus] at hstatus'
  cases hstatus'

/-! ## A run -/

def plainDecoders : Decoders where
  decode _ _ := none
  deserialize _ := .error "unexpected end of file"

/-- The relayer has a block at slot 7 that is not finalized yet. -/
def relayerWorld : World :=
  (⟨Db.empty, []⟩, ⟨[.ok ⟨"hash", 6, "parent", 0, [], false⟩], [], ∅, []⟩)

def loadedWorld : World := (getBlock plainDecoders 7).after relayerWorld

theorem loadedWorld_run :
    Machine.Run (machine plainDecoders) [(relayerWorld, .getBlock 7)] loadedWorld := by
  show Machine.Run _ ([] ++ [(relayerWorld, Action.getBlock 7)]) _
  exact .next (M := machine plainDecoders) (.start ⟨rfl, rfl, rfl, rfl⟩) rfl

theorem loadedWorld_inserted :
    InsertedConfirmed plainDecoders [(relayerWorld, .getBlock 7)] 7 :=
  ⟨relayerWorld, List.mem_singleton.mpr rfl, rfl, ⟨6, .confirmed, some "hash", some 0⟩, rfl, rfl⟩

theorem loadedWorld_call : setFinalizedSlot 7 loadedWorld = .ok ∅ loadedWorld := rfl

theorem set_finalized_slot_finalizes_nothing_seven :
    ¬ FinalizesFork loadedWorld.1.db loadedWorld.1.db 7 :=
  set_finalized_slot_finalizes_nothing loadedWorld_run loadedWorld_inserted loadedWorld_call

/-- Slot 7 comes as confirmed, `set_finalized_slot` of it succeeds, and it is confirmed
still. -/
theorem confirmed_slot_stays :
    ¬ ∀ (D : Decoders) (tr : List (World × Action)) (w w' : World) (slot : Slot)
      (blocks : BTreeMap Slot UiConfirmedBlock), Machine.Run (machine D) tr w →
      InsertedConfirmed D tr slot → setFinalizedSlot slot w = .ok blocks w' →
      FinalizesFork w.1.db w'.1.db slot := by
  intro hall
  obtain ⟨⟨row, hrow, hstatus⟩, _⟩ :=
    hall _ _ _ _ _ _ loadedWorld_run loadedWorld_inserted loadedWorld_call
  cases hrow
  cases hstatus

end RelayerSolanaBlockStorage

end RomeSdk
