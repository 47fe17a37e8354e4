import RomeSdk.PgStorage.SolanaBlockStorage

/-!
# What finalizing a slot changes

`OnFork db slot s`: the walk of `set_finalized_slot` from `slot` comes to `s`. It
starts at the slot if that is stored and not finalized, and goes on to the parent
of a slot under the same condition; a slot that is finalized ends it, whatever is
below. The call returns the slots it comes to with their blocks, and afterwards
these are finalized and all other rows are as before (`finalizes_branch`).

What is finalized stays so (`Later`), hence no later call returns it.
-/

namespace RomeSdk

namespace PgStorage

variable {block : Type} {db : Db block}

/-- A stored slot that is not finalized. -/
def Unfinalized (db : Db block) (slot : Slot) (row : SolSlot) : Prop :=
  db.solSlot.lookup slot = some row ∧ row.status ≠ .finalized

inductive OnFork (db : Db block) (slot : Slot) : Slot → SolSlot → Prop
  | first {row : SolSlot} : Unfinalized db slot row → OnFork db slot slot row
  | parent {s : Slot} {row parentRow : SolSlot} : OnFork db slot s row →
      Unfinalized db row.parentSlot parentRow → OnFork db slot row.parentSlot parentRow

theorem OnFork.unfinalized {slot s : Slot} {row : SolSlot} (h : OnFork db slot s row) :
    Unfinalized db s row := by
  cases h with
  | first h => exact h
  | parent _ h => exact h

/-! ## The query -/

theorem mem_forkRow {slot : Slot} {f : Slot × Slot} :
    f ∈ forkRow db slot ↔ ∃ row, Unfinalized db slot row ∧ f = (slot, row.parentSlot) := by
  rw [forkRow]
  cases hrow : db.solSlot.lookup slot with
  | none => simp [Unfinalized, hrow]
  | some row =>
      by_cases hfinal : row.status = .finalized
      · simp [Unfinalized, hrow, hfinal]
      · simp [Unfinalized, hrow, hfinal]

theorem derived_fork {slot : Slot} {f : Slot × Slot} :
    Derived (fun f => forkRow db f.2) (forkRow db slot) f ↔
      ∃ row, OnFork db slot f.1 row ∧ f.2 = row.parentSlot := by
  constructor
  · intro h
    induction h with
    | first hf =>
        obtain ⟨row, hrow, rfl⟩ := mem_forkRow.mp hf
        exact ⟨row, .first hrow, rfl⟩
    | next _ hy ih =>
        obtain ⟨row, hrow, hparent⟩ := ih
        obtain ⟨parentRow, hparentRow, rfl⟩ := mem_forkRow.mp hy
        rw [hparent] at hparentRow ⊢
        exact ⟨parentRow, .parent hrow hparentRow, rfl⟩
  · rintro ⟨row, hrow, hparent⟩
    obtain ⟨s, p⟩ := f
    dsimp only at hrow hparent
    subst hparent
    induction hrow with
    | first hrow => exact .first (mem_forkRow.mpr ⟨_, hrow, rfl⟩)
    | parent _ hparentRow ih => exact .next ih (mem_forkRow.mpr ⟨_, hparentRow, rfl⟩)

/-- The rows of the fork are stored ones. -/
theorem stored_of_derived {slot : Slot} {f : Slot × Slot}
    (h : Derived (fun f => forkRow db f.2) (forkRow db slot) f) :
    f ∈ db.solSlot.entries.map fun e => (e.1, e.2.parentSlot) := by
  obtain ⟨row, hrow, hparent⟩ := derived_fork.mp h
  refine List.mem_map.mpr ⟨⟨f.1, row⟩, (HashMap.mem_entries _ _ _).mpr hrow.unfinalized.1, ?_⟩
  exact Prod.ext rfl hparent.symm

/-- The query ends by itself, also where the parents go round in a circle. -/
theorem fork_ends (db : Db block) (slot : Slot) :
    Ends (fun f => forkRow db f.2) (forkRow db slot).dedup (forkRow db slot).dedup
      (fork db slot) := by
  refine recursiveUnion_ends _ (fun f => stored_of_derived) ?_
  rw [List.length_map]
  exact Nat.lt_succ_self _

theorem mem_fork {slot : Slot} {f : Slot × Slot} :
    f ∈ fork db slot ↔ ∃ row, OnFork db slot f.1 row ∧ f.2 = row.parentSlot := by
  rw [← derived_fork]
  exact (fork_ends db slot).mem turning_first

theorem mem_finalizedSlotRows {slot s : Slot} {b : block} :
    (s, b) ∈ finalizedSlotRows db slot ↔
      (∃ row, OnFork db slot s row) ∧ db.solBlock.lookup s = some b := by
  simp only [finalizedSlotRows, List.mem_filterMap, Option.map_eq_some_iff]
  constructor
  · rintro ⟨f, hf, b', hb, heq⟩
    cases heq
    obtain ⟨row, hrow, _⟩ := mem_fork.mp hf
    exact ⟨⟨row, hrow⟩, hb⟩
  · rintro ⟨⟨row, hrow⟩, hb⟩
    exact ⟨(s, row.parentSlot), mem_fork.mpr ⟨row, hrow, rfl⟩, b, hb, rfl⟩

/-- A slot of the fork is there once: its row says what its parent is. -/
theorem finalizedSlotRows_keys (db : Db block) (slot : Slot) :
    ((finalizedSlotRows db slot).map Prod.fst).Nodup := by
  have hnodup : (fork db slot).Pairwise fun f g => f.1 ≠ g.1 := by
    refine List.Pairwise.imp_of_mem ?_ (nodup_recursiveUnion _)
    intro f g hf hg hne heq
    obtain ⟨row, hrow, hparent⟩ := mem_fork.mp hf
    obtain ⟨row', hrow', hparent'⟩ := mem_fork.mp hg
    have hsame : row = row' := by
      have h := hrow.unfinalized.1
      rw [heq, hrow'.unfinalized.1] at h
      exact (Option.some.inj h).symm
    exact hne (Prod.ext heq (by rw [hparent, hparent', hsame]))
  rw [List.nodup_iff_pairwise_ne, List.pairwise_map, finalizedSlotRows, List.pairwise_filterMap]
  refine hnodup.imp ?_
  intro f g hne x hx y hy
  simp only [Option.map_eq_some_iff] at hx hy
  obtain ⟨b, _, rfl⟩ := hx
  obtain ⟨b', _, rfl⟩ := hy
  exact hne

/-- What the call returns. -/
theorem get?_setFinalizedSlot {slot s : Slot} {b : block} :
    (setFinalizedSlot slot db).1[s]? = some b ↔
      (∃ row, OnFork db slot s row) ∧ db.solBlock.lookup s = some b := by
  rw [setFinalizedSlot]
  rw [BTreeMap.get?_insertAll _ (finalizedSlotRows_keys db slot), mem_finalizedSlotRows,
    Std.ExtTreeMap.getElem?_empty]
  simp

/-- What it changes: the rows of the slots it returns are finalized. -/
theorem lookup_setFinalizedSlot (db : Db block) (slot s : Slot) :
    (setFinalizedSlot slot db).2.solSlot.lookup s =
      (db.solSlot.lookup s).map fun row =>
        if s ∈ (setFinalizedSlot slot db).1 then { row with status := .finalized } else row := by
  have hmem : s ∈ (setFinalizedSlot slot db).1 ↔ s ∈ (finalizedSlotRows db slot).map Prod.fst := by
    rw [setFinalizedSlot, BTreeMap.mem_keys_insertAll]
    simp
  show (HashMap.filterMap db.solSlot _).lookup s = _
  rw [HashMap.lookup_filterMap]
  cases db.solSlot.lookup s with
  | none => rfl
  | some row =>
      rw [Option.bind_some, Option.map_some]
      by_cases hs : s ∈ (finalizedSlotRows db slot).map Prod.fst
      · rw [if_pos hs, if_pos (hmem.mpr hs)]
      · rw [if_neg hs, if_neg (mt hmem.mp hs)]

/-! ## One branch -/

/-- What a call for a slot does to a database in which slots have blocks. -/
structure FinalizesBranch (db : Db block) (slot : Slot) : Prop where
  /-- the query ends -/
  ends : Ends (fun f => forkRow db f.2) (forkRow db slot).dedup (forkRow db slot).dedup
    (fork db slot)
  /-- the rows it returns, each slot once, are those of the branch with their blocks -/
  once : ((finalizedSlotRows db slot).map Prod.fst).Nodup
  rows : ∀ s b, (s, b) ∈ finalizedSlotRows db slot ↔
    (∃ row, OnFork db slot s row) ∧ db.solBlock.lookup s = some b
  /-- the caller gets these -/
  returned : ∀ s b, (setFinalizedSlot slot db).1[s]? = some b ↔
    (∃ row, OnFork db slot s row) ∧ db.solBlock.lookup s = some b
  complete : ∀ s, s ∈ (setFinalizedSlot slot db).1 ↔ ∃ row, OnFork db slot s row
  finalized : ∀ s row, OnFork db slot s row →
    (setFinalizedSlot slot db).2.solSlot.lookup s = some { row with status := .finalized }
  others : ∀ s, (¬ ∃ row, OnFork db slot s row) →
    (setFinalizedSlot slot db).2.solSlot.lookup s = db.solSlot.lookup s
  tables : (setFinalizedSlot slot db).2 =
    { db with solSlot := (setFinalizedSlot slot db).2.solSlot }

theorem mem_setFinalizedSlot (hblocks : ∀ s ∈ db.solSlot, s ∈ db.solBlock) {slot s : Slot} :
    s ∈ (setFinalizedSlot slot db).1 ↔ ∃ row, OnFork db slot s row := by
  rw [Std.ExtTreeMap.mem_iff_isSome_getElem?, Option.isSome_iff_exists]
  constructor
  · intro ⟨b, hb⟩
    exact (get?_setFinalizedSlot.mp hb).1
  · intro ⟨row, hrow⟩
    have hstored := HashMap.mem_of_lookup hrow.unfinalized.1
    obtain ⟨b, hb⟩ := HashMap.lookup_of_mem (hblocks s hstored)
    exact ⟨b, get?_setFinalizedSlot.mpr ⟨⟨row, hrow⟩, hb⟩⟩

/-- A call finalizes the branch below its slot, and nothing else. -/
theorem finalizes_branch (hblocks : ∀ s ∈ db.solSlot, s ∈ db.solBlock) (slot : Slot) :
    FinalizesBranch db slot where
  ends := fork_ends db slot
  once := finalizedSlotRows_keys db slot
  rows _ _ := mem_finalizedSlotRows
  returned _ _ := get?_setFinalizedSlot
  complete _ := mem_setFinalizedSlot hblocks
  finalized s row hrow := by
    have hs := (mem_setFinalizedSlot hblocks).mpr ⟨row, hrow⟩
    rw [lookup_setFinalizedSlot, hrow.unfinalized.1, Option.map_some, if_pos hs]
  others s hs := by
    have hs' := mt (mem_setFinalizedSlot hblocks).mp hs
    rw [lookup_setFinalizedSlot]
    simp only [if_neg hs', Option.map_id']
  tables := rfl

/-- The parents of the slots 4 and 5 go round in a circle, which 6 and 7 both come to. -/
def circle : Db Unit :=
  { (Db.empty : Db Unit) with
    solSlot := ((((∅ : HashMap Slot SolSlot).insert 4 ⟨5, .confirmed, none, none⟩).insert
      5 ⟨4, .confirmed, none, none⟩).insert 6 ⟨5, .confirmed, none, none⟩).insert
      7 ⟨5, .confirmed, none, none⟩
    solBlock := ((((∅ : HashMap Slot Unit).insert 4 ()).insert 5 ()).insert 6 ()).insert 7 () }

theorem finalizes_branch_circle : FinalizesBranch circle 6 ∧
    (finalizedSlotRows circle 6).map Prod.fst = [6, 5, 4] := by
  have hall : ∀ s ∈ circle.solSlot.keys, s ∈ circle.solBlock := by decide
  exact ⟨finalizes_branch (fun s hs => hall s (AList.mem_keys.mp hs)) 6, by decide⟩

/-! ## What is finalized -/

/-- The slot is stored as finalized. -/
def Finalized (db : Db block) (slot : Slot) : Prop :=
  ∃ row, db.solSlot.lookup slot = some row ∧ row.status = .finalized

theorem Finalized.not_onFork {slot s : Slot} {row : SolSlot} (h : Finalized db s) :
    ¬ OnFork db slot s row := by
  intro hfork
  obtain ⟨row', hrow', hstatus⟩ := h
  obtain ⟨hrow, hne⟩ := hfork.unfinalized
  rw [hrow] at hrow'
  cases hrow'
  exact hne hstatus

/-- A slot that was returned is finalized. -/
theorem finalized_of_mem {slot s : Slot} (h : s ∈ (setFinalizedSlot slot db).1) :
    Finalized (setFinalizedSlot slot db).2 s := by
  obtain ⟨b, hb⟩ := Option.isSome_iff_exists.mp (Std.ExtTreeMap.mem_iff_isSome_getElem?.mp h)
  obtain ⟨⟨row, hrow⟩, _⟩ := get?_setFinalizedSlot.mp hb
  refine ⟨{ row with status := .finalized }, ?_, rfl⟩
  rw [lookup_setFinalizedSlot, hrow.unfinalized.1, Option.map_some, if_pos h]

/-- Nothing else becomes finalized. -/
theorem mem_of_finalized {slot s : Slot} (hbefore : ¬ Finalized db s)
    (hafter : Finalized (setFinalizedSlot slot db).2 s) : s ∈ (setFinalizedSlot slot db).1 := by
  by_contra hnot
  obtain ⟨row, hrow, hstatus⟩ := hafter
  rw [lookup_setFinalizedSlot, Option.map_eq_some_iff] at hrow
  obtain ⟨row', hrow', heq⟩ := hrow
  rw [if_neg hnot] at heq
  exact hbefore ⟨row', hrow', heq ▸ hstatus⟩

theorem Finalized.not_returned {slot s : Slot} (h : Finalized db s) :
    s ∉ (setFinalizedSlot slot db).1 := by
  intro hmem
  obtain ⟨b, hb⟩ := Option.isSome_iff_exists.mp (Std.ExtTreeMap.mem_iff_isSome_getElem?.mp hmem)
  obtain ⟨⟨row, hrow⟩, _⟩ := get?_setFinalizedSlot.mp hb
  exact h.not_onFork hrow

theorem Finalized.setFinalizedSlot {slot s : Slot} (h : Finalized db s) :
    Finalized (setFinalizedSlot slot db).2 s := by
  obtain ⟨row, hrow, hstatus⟩ := h
  refine ⟨row, ?_, hstatus⟩
  have hnot : s ∉ (PgStorage.setFinalizedSlot slot db).1 :=
    Finalized.not_returned ⟨row, hrow, hstatus⟩
  rw [lookup_setFinalizedSlot, hrow, Option.map_some, if_neg hnot]

/-! ## Storing blocks -/

variable {sdb : Db UiConfirmedBlock}

/-- The row `set_block_with_status2` makes of a block. -/
def slotRowOf (finalizedSlot slot : Slot) (b : UiConfirmedBlock) : SolSlot :=
  ⟨b.parentSlot, slotStatus finalizedSlot slot, some b.blockhash, b.blockTime⟩

/-- A block of the loop goes where there is none. -/
theorem storeLoop_ok {finalizedSlot : Slot} (l : List (Slot × UiConfirmedBlock)) :
    ∀ {db db' : Db UiConfirmedBlock}, (l.map Prod.fst).Nodup →
      l.foldlM (storeBlock finalizedSlot) db = .ok db' → ∀ slot,
      (∀ b, (slot, b) ∈ l →
        db'.solSlot.lookup slot =
          some ((db.solSlot.lookup slot).getD (slotRowOf finalizedSlot slot b)) ∧
        db'.solBlock.lookup slot = some ((db.solBlock.lookup slot).getD b)) ∧
      (slot ∉ l.map Prod.fst →
        db'.solSlot.lookup slot = db.solSlot.lookup slot ∧
        db'.solBlock.lookup slot = db.solBlock.lookup slot) := by
  induction l with
  | nil =>
      intro db db' _ hl slot
      cases hl
      exact ⟨fun b hb => (by cases hb), fun _ => ⟨rfl, rfl⟩⟩
  | cons e l ih =>
      intro db db' hnodup hl slot
      rw [List.map_cons, List.nodup_cons] at hnodup
      rw [List.foldlM_cons, storeBlock] at hl
      cases htime : e.2.blockTime with
      | none =>
          rw [htime] at hl
          cases hl
      | some blockTime =>
          rw [htime] at hl
          obtain ⟨hin, hout⟩ := ih hnodup.2 hl slot
          let db₁ := setBlockWithStatus2 e.1 e.2 (slotStatus finalizedSlot e.1) blockTime db
          have hslot : ∀ a, db₁.solSlot.lookup a = if e.1 = a then
              some ((db.solSlot.lookup e.1).getD (slotRowOf finalizedSlot e.1 e.2))
              else db.solSlot.lookup a := by
            intro a
            rw [slotRowOf, htime]
            exact HashMap.lookup_insertIfNew _ _ _ _
          have hblock : ∀ a, db₁.solBlock.lookup a = if e.1 = a then
              some ((db.solBlock.lookup e.1).getD e.2) else db.solBlock.lookup a :=
            fun a => HashMap.lookup_insertIfNew _ _ _ _
          constructor
          · intro b hb
            rcases List.mem_cons.mp hb with rfl | hb
            · obtain ⟨h₁, h₂⟩ := hout hnodup.1
              rw [h₁, h₂, hslot, hblock, if_pos rfl, if_pos rfl]
              exact ⟨rfl, rfl⟩
            · have hne : e.1 ≠ slot := by
                intro heq
                subst heq
                exact hnodup.1 (List.mem_map.mpr ⟨_, hb, rfl⟩)
              obtain ⟨h₁, h₂⟩ := hin b hb
              rw [hslot, if_neg hne] at h₁
              rw [hblock, if_neg hne] at h₂
              exact ⟨h₁, h₂⟩
          · intro hnot
            rw [List.map_cons, List.mem_cons, not_or] at hnot
            obtain ⟨h₁, h₂⟩ := hout hnot.2
            rw [h₁, h₂, hslot, hblock, if_neg (Ne.symm hnot.1), if_neg (Ne.symm hnot.1)]
            exact ⟨rfl, rfl⟩

/-- Blocks go where there is none. -/
theorem storeBlocks_ok {blocks : BTreeMap Slot UiConfirmedBlock} {finalizedSlot : Slot}
    {db' : Db UiConfirmedBlock} (h : storeBlocks blocks finalizedSlot sdb = .ok ((), db'))
    (slot : Slot) :
    db'.solSlot.lookup slot =
      (sdb.solSlot.lookup slot <|> blocks[slot]?.map (slotRowOf finalizedSlot slot)) ∧
    db'.solBlock.lookup slot = (sdb.solBlock.lookup slot <|> blocks[slot]?) := by
  rw [storeBlocks] at h
  cases hfold : blocks.toList.foldlM (storeBlock finalizedSlot) sdb with
  | error e =>
      rw [hfold] at h
      cases h
  | ok db'' =>
      rw [hfold] at h
      cases h
      obtain ⟨hin, hout⟩ := storeLoop_ok _ (BTreeMap.keys_nodup blocks) hfold slot
      cases hb : blocks[slot]? with
      | none =>
          have hnot : slot ∉ blocks.toList.map Prod.fst := by
            rw [Std.ExtTreeMap.map_fst_toList_eq_keys, Std.ExtTreeMap.mem_keys,
              Std.ExtTreeMap.mem_iff_isSome_getElem?, hb]
            simp
          obtain ⟨h₁, h₂⟩ := hout hnot
          rw [h₁, h₂]
          simp
      | some b =>
          obtain ⟨h₁, h₂⟩ := hin b ((BTreeMap.mem_toList _ _ _).mpr hb)
          rw [h₁, h₂]
          cases sdb.solSlot.lookup slot <;> cases sdb.solBlock.lookup slot <;> simp

theorem Finalized.storeBlocks {blocks : BTreeMap Slot UiConfirmedBlock} {finalizedSlot slot : Slot}
    {db' : Db UiConfirmedBlock} (h : Finalized sdb slot)
    (hstore : PgStorage.storeBlocks blocks finalizedSlot sdb = .ok ((), db')) :
    Finalized db' slot := by
  obtain ⟨row, hrow, hstatus⟩ := h
  refine ⟨row, ?_, hstatus⟩
  rw [(storeBlocks_ok hstore slot).1, hrow]
  rfl

/-! ## Later states -/

/-- What the loader's calls make of a database over time. -/
inductive Later : Db UiConfirmedBlock → Db UiConfirmedBlock → Prop
  | refl (db : Db UiConfirmedBlock) : Later db db
  | stored {db db₁ db' : Db UiConfirmedBlock} {blocks : BTreeMap Slot UiConfirmedBlock}
      {finalizedSlot : Slot} : storeBlocks blocks finalizedSlot db = .ok ((), db₁) →
      Later db₁ db' → Later db db'
  | finalized {db db' : Db UiConfirmedBlock} {slot : Slot} :
      Later (setFinalizedSlot slot db).2 db' → Later db db'

theorem Later.finalized_stays {db db' : Db UiConfirmedBlock} (h : Later db db') {slot : Slot}
    (hslot : Finalized db slot) : Finalized db' slot := by
  induction h with
  | refl => exact hslot
  | stored hstore _ ih => exact ih (hslot.storeBlocks hstore)
  | finalized _ ih => exact ih hslot.setFinalizedSlot

end PgStorage

end RomeSdk
