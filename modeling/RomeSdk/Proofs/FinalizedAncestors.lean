import RomeSdk.Indexer.LoaderRun
import RomeSdk.Proofs.FailedRecheck

/-!
# The ancestors of a finalized slot

A slot gets its status from two writers. `store_blocks` compares it with the
finalized slot and stores a slot that is not above it as finalized; the walk of
`set_finalized_slot` begins and goes on only at slots that are not. Both keep
`ClosedDown`: the stored parent of a finalized slot is finalized. The one
exception is a loader that lags behind by more than the finality lag: it stores a
new slot as finalized on top of slots it had stored as confirmed, and no walk
comes to these any more.

So the condition of the run is on the pace of the loader (`KeepsUp`): no new slot
is stored as finalized while a stored slot is confirmed, and the process does not
end between the walk and the last of the rechecks of what it returned.
-/

namespace RomeSdk

namespace SolanaBlockLoader

variable {X : Crates} {L : SolanaBlockLoader LoaderWorld} {chain : Slot → Option UiConfirmedBlock}

/-- A node without errors, all of whose blocks are those of `chain`. -/
structure Honest (X : Crates) (L : SolanaBlockLoader LoaderWorld)
    (chain : Slot → Option UiConfirmedBlock) : Prop where
  latest : ∀ s, L.getLatestSlots s = .ok (s.2.confirmedSlot, s.2.finalizedSlot) s
  load : ∀ slot s, L.loadBlock X L.commitment slot s = .ok (chain slot) s
  header : ∀ slot c s, chain slot = some c → ∃ b : RpcBlock, b.blockhash = c.blockhash ∧
    L.client.getBlockWithConfig slot ⟨none, .finalized⟩ L.blockRetries s =
      match s.2.ask slot with
      | some node => .ok (some b) (s.1, node)
      | none => .error (.panic "stopped") s
  parent : ∀ slot c, chain slot = some c → c.parentSlot ≤ slot

/-! ## A batch -/

theorem loadBlocks_honest (hH : Honest X L chain) (slots : List Slot) (s : LoaderWorld) :
    L.loadBlocks X slots s =
      .ok (loadedBlocks (slots.map fun slot => (slot, .ok (chain slot)))) s := by
  have hjoin := joinAll_eq (f := L.loadBlock X L.commitment) (g := fun slot => .ok (chain slot))
    (fun slot s => hH.load slot s) slots s
  have hnone : failedSlots (slots.map fun slot => (slot, .ok (chain slot))) = [] := by
    rw [failedSlots, List.filterMap_map]
    exact List.filterMap_eq_nil_iff.mpr fun slot _ => rfl
  have hzip : slots.zip (slots.map fun slot => (.ok (chain slot) : ProgramResult _)) =
      slots.map fun slot => (slot, .ok (chain slot)) := by
    have hmap := List.zip_map' (f := fun slot : Slot => slot)
      (g := fun slot => (.ok (chain slot) : ProgramResult (Option UiConfirmedBlock))) (l := slots)
    simpa using hmap
  rw [joinOutcomes_answers] at hjoin
  simp only [loadBlocks, bind, EStateM.bind, hjoin, liftOutcome, pure, EStateM.pure, hzip, hnone,
    List.isEmpty_nil, if_true]

theorem batch_le {currentSlot maxSlot batchSize : Nat} (h : currentSlot ≤ maxSlot) :
    currentSlot + min (maxSlot - currentSlot) batchSize ≤ maxSlot := by
  omega

/-- A batch is stored whole or not at all. -/
theorem preloadBlocks_cases (hH : Honest X L chain)
    (hL : L.solanaBlockStorage = PgStorage.solanaBlockStorage Server.pool.beside)
    (fromSlot maxSlot finalizedSlot : Slot) (s : LoaderWorld) :
    (∃ e t, L.preloadBlocks X fromSlot maxSlot finalizedSlot s = .error e t ∧
      t.1.db = s.1.db ∧ t.2 = s.2) ∨
    ∃ (t : LoaderWorld) (blocks : BTreeMap Slot UiConfirmedBlock),
      L.preloadBlocks X fromSlot maxSlot finalizedSlot s =
        .ok (fromSlot + min (maxSlot - fromSlot) L.batchSize) t ∧ t.2 = s.2 ∧
      PgStorage.storeBlocks blocks finalizedSlot s.1.db = .ok ((), t.1.db) ∧
      ∀ slot : Slot, blocks[slot]? =
        if fromSlot ≤ slot ∧ slot < fromSlot + min (maxSlot - fromSlot) L.batchSize then chain slot
        else none := by
  let slots := List.range' fromSlot (fromSlot + min (maxSlot - fromSlot) L.batchSize - fromSlot)
  let blocks := loadedBlocks (slots.map fun slot => (slot, .ok (chain slot)))
  have hblocks : ∀ slot : Slot, blocks[slot]? =
      if fromSlot ≤ slot ∧ slot < fromSlot + min (maxSlot - fromSlot) L.batchSize then chain slot
      else none := by
    intro slot
    have hmem : slot ∈ slots ↔
        fromSlot ≤ slot ∧ slot < fromSlot + min (maxSlot - fromSlot) L.batchSize := by
      rw [List.mem_range'_1, Nat.add_sub_cancel_left]
    rw [get?_loadedBlocks]
    simp only [hmem]
  have hrun : L.preloadBlocks X fromSlot maxSlot finalizedSlot s =
      match Server.pool.transaction (PgStorage.storeBlocks blocks finalizedSlot) s.1 with
      | .ok _ u => .ok (fromSlot + min (maxSlot - fromSlot) L.batchSize) (u, s.2)
      | .error e u => .error e (u, s.2) := by
    simp only [preloadBlocks, bind, EStateM.bind, loadBlocks_honest hH, hL,
      PgStorage.solanaBlockStorage, Pool.transaction_beside]
    cases Server.pool.transaction (PgStorage.storeBlocks blocks finalizedSlot) s.1 <;> rfl
  rw [hrun]
  cases htransaction : Server.pool.transaction (PgStorage.storeBlocks blocks finalizedSlot) s.1 with
  | error e u => exact Or.inl ⟨e, (u, s.2), rfl, Server.transaction_err htransaction, rfl⟩
  | ok a u =>
      refine Or.inr ⟨(u, s.2), blocks, rfl, rfl, ?_, hblocks⟩
      exact Server.transaction_ok htransaction

/-! ## What the tables hold -/

/-- The blocks of the chain from `lo` up to `hi` are stored, and a parent of a
finalized slot is finalized. -/
structure Covered (chain : Slot → Option UiConfirmedBlock) (lo hi : Slot)
    (db : Db UiConfirmedBlock) : Prop where
  row : ∀ slot row, db.solSlot.lookup slot = some row → ∃ c, chain slot = some c ∧
    row.parentSlot = c.parentSlot ∧ db.solBlock.lookup slot = some c ∧ row.status ≠ .processed
  block : ∀ slot c, db.solBlock.lookup slot = some c → slot ∈ db.solSlot
  range : ∀ slot : Slot, slot ∈ db.solSlot ↔ lo ≤ slot ∧ slot < hi ∧ chain slot ≠ none
  closed : ∀ slot row parent, db.solSlot.lookup slot = some row → row.status = .finalized →
    db.solSlot.lookup row.parentSlot = some parent → parent.status = .finalized

/-- A slot that is stored now was so before or has the status of a new one. -/
structure Extends (finalizedSlot : Slot) (db db' : Db UiConfirmedBlock) : Prop where
  kept : ∀ slot row, db.solSlot.lookup slot = some row → db'.solSlot.lookup slot = some row
  fresh : ∀ slot row, db'.solSlot.lookup slot = some row →
    db.solSlot.lookup slot = some row ∨ row.status = PgStorage.slotStatus finalizedSlot slot

theorem Extends.refl (finalizedSlot : Slot) (db : Db UiConfirmedBlock) :
    Extends finalizedSlot db db :=
  ⟨fun _ _ h => h, fun _ _ h => Or.inl h⟩

theorem Extends.trans {finalizedSlot : Slot} {db db' db'' : Db UiConfirmedBlock}
    (h : Extends finalizedSlot db db') (h' : Extends finalizedSlot db' db'') :
    Extends finalizedSlot db db'' := by
  refine ⟨fun slot row hrow => h'.kept slot row (h.kept slot row hrow), ?_⟩
  intro slot row hrow
  rcases h'.fresh slot row hrow with hrow | hstatus
  · exact h.fresh slot row hrow
  · exact Or.inr hstatus

/-- No new slot from `hi` on is finalized, or all that are stored are. -/
def MayLoad (chain : Slot → Option UiConfirmedBlock) (db : Db UiConfirmedBlock)
    (hi toSlot finalizedSlot : Slot) : Prop :=
  (∀ slot, hi ≤ slot → slot < toSlot → chain slot ≠ none → finalizedSlot < slot) ∨
    ∀ slot row, db.solSlot.lookup slot = some row → row.status = .finalized

theorem mem_iff_lookup {db : Db UiConfirmedBlock} {slot : Slot} :
    slot ∈ db.solSlot ↔ ∃ row, db.solSlot.lookup slot = some row := by
  rw [← AList.lookup_isSome, Option.isSome_iff_exists]

section

variable {lo hi currentSlot toSlot maxSlot finalizedSlot : Slot} {db db' : Db UiConfirmedBlock}
  {blocks : BTreeMap Slot UiConfirmedBlock}

/-- Where a row of the tables after a batch comes from. -/
theorem stored_cases (hblocks : ∀ slot : Slot, blocks[slot]? =
      if currentSlot ≤ slot ∧ slot < toSlot then chain slot else none)
    (hstore : PgStorage.storeBlocks blocks finalizedSlot db = .ok ((), db')) {slot : Slot}
    {row : SolSlot} (h : db'.solSlot.lookup slot = some row) :
    db.solSlot.lookup slot = some row ∨
      (db.solSlot.lookup slot = none ∧ currentSlot ≤ slot ∧ slot < toSlot ∧
        ∃ c, chain slot = some c ∧ blocks[slot]? = some c ∧
          row = PgStorage.slotRowOf finalizedSlot slot c) := by
  rw [(PgStorage.storeBlocks_ok hstore slot).1] at h
  cases hold : db.solSlot.lookup slot with
  | some old =>
      rw [hold] at h
      exact Or.inl h
  | none =>
      rw [hold] at h
      have hnew : blocks[slot]?.map (PgStorage.slotRowOf finalizedSlot slot) = some row := h
      obtain ⟨c, hc, hrow⟩ := Option.map_eq_some_iff.mp hnew
      have hchain := hblocks slot
      rw [hc] at hchain
      split at hchain
      · next hrange => exact Or.inr ⟨rfl, hrange.1, hrange.2, c, hchain.symm, hc, hrow.symm⟩
      · cases hchain

theorem extends_store (hblocks : ∀ slot : Slot, blocks[slot]? =
      if currentSlot ≤ slot ∧ slot < toSlot then chain slot else none)
    (hstore : PgStorage.storeBlocks blocks finalizedSlot db = .ok ((), db')) :
    Extends finalizedSlot db db' := by
  constructor
  · intro slot row hrow
    rw [(PgStorage.storeBlocks_ok hstore slot).1, hrow]
    rfl
  · intro slot row hrow
    rcases stored_cases hblocks hstore hrow with hold | ⟨_, _, _, c, _, _, rfl⟩
    · exact Or.inl hold
    · exact Or.inr rfl

theorem slotStatus_finalized {slot : Slot}
    (h : PgStorage.slotStatus finalizedSlot slot = .finalized) : slot ≤ finalizedSlot := by
  rw [PgStorage.slotStatus] at h
  split at h
  · next hle => exact hle
  · cases h

theorem mem_stored (hC : Covered chain lo hi db) (hlo : lo ≤ currentSlot) (hhi : currentSlot ≤ hi)
    (hblocks : ∀ slot : Slot, blocks[slot]? =
      if currentSlot ≤ slot ∧ slot < toSlot then chain slot else none)
    (hstore : PgStorage.storeBlocks blocks finalizedSlot db = .ok ((), db')) (slot : Slot) :
    slot ∈ db'.solSlot ↔ lo ≤ slot ∧ slot < max hi toSlot ∧ chain slot ≠ none := by
  have hmem : slot ∈ db'.solSlot ↔ slot ∈ db.solSlot ∨ blocks[slot]? ≠ none := by
    rw [← AList.lookup_isSome, ← AList.lookup_isSome, (PgStorage.storeBlocks_ok hstore slot).1]
    cases db.solSlot.lookup slot <;> cases blocks[slot]? <;> simp
  have hnew : blocks[slot]? ≠ none ↔ currentSlot ≤ slot ∧ slot < toSlot ∧ chain slot ≠ none := by
    rw [hblocks slot]
    split
    · next h => simp [h.1, h.2]
    · next h => simp only [ne_eq, not_true_eq_false, false_iff]; exact fun h' => h ⟨h'.1, h'.2.1⟩
  rw [hmem, hC.range, hnew]
  constructor
  · rintro (⟨h₁, h₂, h₃⟩ | ⟨h₁, h₂, h₃⟩)
    · exact ⟨h₁, Nat.lt_of_lt_of_le h₂ (Nat.le_max_left ..), h₃⟩
    · exact ⟨Nat.le_trans hlo h₁, Nat.lt_of_lt_of_le h₂ (Nat.le_max_right ..), h₃⟩
  · intro ⟨h₁, h₂, h₃⟩
    by_cases hslot : slot < hi
    · exact Or.inl ⟨h₁, hslot, h₃⟩
    · have hge : hi ≤ slot := Nat.le_of_not_lt hslot
      have hlt : slot < toSlot := by
        by_contra hge'
        exact absurd h₂ (Nat.not_lt_of_le (Nat.max_le.mpr ⟨hge, Nat.le_of_not_lt hge'⟩))
      exact Or.inr ⟨Nat.le_trans hhi hge, hlt, h₃⟩

/-- No slot of the chain that was to be stored before is missing. -/
theorem Covered.not_missing (hC : Covered chain lo hi db) {slot : Slot} {c : UiConfirmedBlock}
    (hlo : lo ≤ slot) (hhi : slot < hi) (hc : chain slot = some c) :
    db.solSlot.lookup slot ≠ none := by
  intro hnone
  have hmem := (hC.range slot).mpr ⟨hlo, hhi, by rw [hc]; exact Option.some_ne_none c⟩
  obtain ⟨row, hrow⟩ := mem_iff_lookup.mp hmem
  rw [hnone] at hrow
  cases hrow

theorem Covered.row_stored (hC : Covered chain lo hi db)
    (hblocks : ∀ slot : Slot, blocks[slot]? =
      if currentSlot ≤ slot ∧ slot < toSlot then chain slot else none)
    (hstore : PgStorage.storeBlocks blocks finalizedSlot db = .ok ((), db')) {slot : Slot}
    {row : SolSlot} (hrow : db'.solSlot.lookup slot = some row) : ∃ c, chain slot = some c ∧
      row.parentSlot = c.parentSlot ∧ db'.solBlock.lookup slot = some c ∧
        row.status ≠ .processed := by
  rcases stored_cases hblocks hstore hrow with hold | ⟨hnone, _, _, c, hc, hnew, rfl⟩
  · obtain ⟨c, hc, hparent, hblock, hstatus⟩ := hC.row slot row hold
    refine ⟨c, hc, hparent, ?_, hstatus⟩
    rw [(PgStorage.storeBlocks_ok hstore slot).2, hblock]
    rfl
  · have hfree : db.solBlock.lookup slot = none := by
      cases hb : db.solBlock.lookup slot with
      | none => rfl
      | some b =>
          have hmem := AList.lookup_isSome.mpr (hC.block slot b hb)
          rw [hnone] at hmem
          cases hmem
    refine ⟨c, hc, rfl, ?_, ?_⟩
    · rw [(PgStorage.storeBlocks_ok hstore slot).2, hfree, hnew]
      rfl
    · show PgStorage.slotStatus finalizedSlot slot ≠ .processed
      rw [PgStorage.slotStatus]
      split <;> exact fun h => by cases h

theorem Covered.block_stored (hC : Covered chain lo hi db)
    (hstore : PgStorage.storeBlocks blocks finalizedSlot db = .ok ((), db')) {slot : Slot}
    {c : UiConfirmedBlock} (hblock : db'.solBlock.lookup slot = some c) : slot ∈ db'.solSlot := by
  rw [(PgStorage.storeBlocks_ok hstore slot).2] at hblock
  rw [← AList.lookup_isSome, (PgStorage.storeBlocks_ok hstore slot).1]
  cases hb : db.solBlock.lookup slot with
  | some b =>
      have hmem := AList.lookup_isSome.mpr (hC.block slot b hb)
      obtain ⟨row, hrow⟩ := Option.isSome_iff_exists.mp hmem
      rw [hrow]
      rfl
  | none =>
      rw [hb] at hblock
      have hnew : blocks[slot]? = some c := hblock
      rw [hnew]
      cases db.solSlot.lookup slot <;> rfl

theorem Covered.closed_stored (hH : Honest X L chain) (hC : Covered chain lo hi db)
    (hlo : lo ≤ currentSlot) (hmax : toSlot ≤ maxSlot)
    (hload : MayLoad chain db hi maxSlot finalizedSlot)
    (hblocks : ∀ slot : Slot, blocks[slot]? =
      if currentSlot ≤ slot ∧ slot < toSlot then chain slot else none)
    (hstore : PgStorage.storeBlocks blocks finalizedSlot db = .ok ((), db')) {slot : Slot}
    {row parent : SolSlot} (hrow : db'.solSlot.lookup slot = some row)
    (hstatus : row.status = .finalized) (hparent : db'.solSlot.lookup row.parentSlot = some parent) :
    parent.status = .finalized := by
  obtain ⟨c, hc, hlink, _⟩ := hC.row_stored hblocks hstore hrow
  have hle : row.parentSlot ≤ slot := by
    rw [hlink]
    exact hH.parent slot c hc
  rcases stored_cases hblocks hstore hrow with hold | ⟨hnone, hge, hlt, _, _, _, rfl⟩
  · -- an old slot: its parent is an old one
    have hslot := (hC.range slot).mp (mem_iff_lookup.mpr ⟨row, hold⟩)
    rcases stored_cases hblocks hstore hparent with hpold | ⟨hpnone, hpge, _, pc, hpc, _⟩
    · exact hC.closed slot row parent hold hstatus hpold
    · exact absurd hpnone (hC.not_missing (Nat.le_trans hlo hpge)
        (Nat.lt_of_le_of_lt hle hslot.2.1) hpc)
  · -- a new one that is finalized: so are all old slots, and the new ones below it
    have hfinal := slotStatus_finalized hstatus
    have hnew : hi ≤ slot := by
      by_contra hlt'
      exact hC.not_missing (Nat.le_trans hlo hge) (Nat.lt_of_not_le hlt') hc hnone
    rcases hload with hnone' | hall
    · have habove := hnone' slot hnew (Nat.lt_of_lt_of_le hlt hmax) (by
        rw [hc]
        exact Option.some_ne_none c)
      exact absurd hfinal (Nat.not_le_of_lt habove)
    · rcases stored_cases hblocks hstore hparent with hpold | ⟨_, _, _, _, _, _, rfl⟩
      · exact hall _ parent hpold
      · show PgStorage.slotStatus finalizedSlot _ = .finalized
        rw [PgStorage.slotStatus, if_pos (Nat.le_trans hle hfinal)]

theorem Covered.store (hH : Honest X L chain) (hC : Covered chain lo hi db)
    (hlo : lo ≤ currentSlot) (hhi : currentSlot ≤ hi) (hmax : toSlot ≤ maxSlot)
    (hload : MayLoad chain db hi maxSlot finalizedSlot)
    (hblocks : ∀ slot : Slot, blocks[slot]? =
      if currentSlot ≤ slot ∧ slot < toSlot then chain slot else none)
    (hstore : PgStorage.storeBlocks blocks finalizedSlot db = .ok ((), db')) :
    Covered chain lo (max hi toSlot) db' where
  row _ _ hrow := hC.row_stored hblocks hstore hrow
  block _ _ hblock := hC.block_stored hstore hblock
  range := mem_stored hC hlo hhi hblocks hstore
  closed _ _ _ hrow hstatus hparent :=
    hC.closed_stored hH hlo hmax hload hblocks hstore hrow hstatus hparent

theorem MayLoad.store (hload : MayLoad chain db hi maxSlot finalizedSlot)
    (hblocks : ∀ slot : Slot, blocks[slot]? =
      if currentSlot ≤ slot ∧ slot < toSlot then chain slot else none)
    (hstore : PgStorage.storeBlocks blocks finalizedSlot db = .ok ((), db')) :
    MayLoad chain db' (max hi toSlot) maxSlot finalizedSlot := by
  by_cases hnone : ∀ slot, max hi toSlot ≤ slot → slot < maxSlot → chain slot ≠ none →
      finalizedSlot < slot
  · exact Or.inl hnone
  · right
    simp only [not_forall, Nat.not_lt] at hnone
    obtain ⟨n, hge, hlt, hchain, hle⟩ := hnone
    have hall : ∀ slot row, db.solSlot.lookup slot = some row → row.status = .finalized := by
      rcases hload with hnew | hall
      · have habove := hnew n (Nat.le_trans (Nat.le_max_left ..) hge) hlt hchain
        exact absurd hle (Nat.not_le_of_lt habove)
      · exact hall
    intro slot row hrow
    rcases stored_cases hblocks hstore hrow with hold | ⟨_, _, hslot, c, _, _, rfl⟩
    · exact hall slot row hold
    · have hslot' : slot ≤ finalizedSlot := Nat.le_trans (Nat.le_of_lt
        (Nat.lt_of_lt_of_le hslot (Nat.le_trans (Nat.le_max_right ..) hge))) hle
      show PgStorage.slotStatus finalizedSlot slot = .finalized
      rw [PgStorage.slotStatus, if_pos hslot']

end

/-! ## The batches of a turn -/

section

variable {lo finalizedSlot : Slot}

/-- What a call has loaded when it came from `s` to `t`. -/
structure Loaded (chain : Slot → Option UiConfirmedBlock) (lo hi finalizedSlot : Slot)
    (s t : LoaderWorld) : Prop where
  covered : Covered chain lo hi t.1.db
  extending : Extends finalizedSlot s.1.db t.1.db
  node : t.2 = s.2

theorem preloadLoop_spec (hH : Honest X L chain)
    (hL : L.solanaBlockStorage = PgStorage.solanaBlockStorage Server.pool.beside)
    (maxSlot : Slot) (rounds : Nat) : ∀ {currentSlot hi : Slot} {s : LoaderWorld},
      Covered chain lo hi s.1.db → lo ≤ currentSlot → currentSlot ≤ hi →
      MayLoad chain s.1.db hi maxSlot finalizedSlot →
      ∃ hi', hi ≤ hi' ∧
        Loaded chain lo hi' finalizedSlot s
          ((L.preloadLoop X maxSlot finalizedSlot rounds currentSlot).after s) ∧
        ∀ t, L.preloadLoop X maxSlot finalizedSlot rounds currentSlot s = .ok () t → maxSlot ≤ hi' := by
  induction rounds with
  | zero =>
      intro currentSlot hi s hC hlo hhi hload
      refine ⟨hi, Nat.le_refl _, ?_, ?_⟩
      · rw [preloadLoop]
        split
        · exact ⟨hC, Extends.refl _ _, rfl⟩
        · exact ⟨hC, Extends.refl _ _, rfl⟩
      · intro t ht
        rw [preloadLoop] at ht
        split at ht
        · cases ht
        · next hdone => exact Nat.le_trans (Nat.le_of_not_lt hdone) hhi
  | succ rounds ih =>
      intro currentSlot hi s hC hlo hhi hload
      rw [preloadLoop]
      split
      · next hlt =>
          rcases preloadBlocks_cases hH hL currentSlot maxSlot finalizedSlot s with
            ⟨e, t, herr, hdb, hnode⟩ | ⟨t, blocks, hok, hnode, hstore, hblocks⟩
          · refine ⟨hi, Nat.le_refl _, ?_, ?_⟩
            · simp only [EStateM.after, bind, EStateM.bind, herr]
              exact ⟨by rw [hdb]; exact hC, by rw [hdb]; exact Extends.refl _ _, hnode⟩
            · intro u hu
              simp only [bind, EStateM.bind, herr] at hu
              cases hu
          · have hmax : currentSlot + min (maxSlot - currentSlot) L.batchSize ≤ maxSlot :=
              batch_le (Nat.le_of_lt hlt)
            obtain ⟨hi', hle, hloaded, hdone⟩ := ih
              (hC.store hH hlo hhi hmax hload hblocks hstore)
              (Nat.le_trans hlo (Nat.le_add_right ..)) (Nat.le_max_right ..)
              (hload.store hblocks hstore)
            refine ⟨hi', Nat.le_trans (Nat.le_max_left ..) hle, ?_, ?_⟩
            · have hafter : (do
                  let newCurrentSlot ← L.preloadBlocks X currentSlot maxSlot finalizedSlot
                  L.preloadLoop X maxSlot finalizedSlot rounds newCurrentSlot).after s =
                  (L.preloadLoop X maxSlot finalizedSlot rounds
                    (currentSlot + min (maxSlot - currentSlot) L.batchSize)).after t := by
                simp only [EStateM.after, bind, EStateM.bind, hok]
              rw [hafter]
              exact ⟨hloaded.covered, (extends_store hblocks hstore).trans hloaded.extending,
                hloaded.node.trans hnode⟩
            · intro u hu
              simp only [bind, EStateM.bind, hok] at hu
              exact hdone u hu
      · next hdone =>
          refine ⟨hi, Nat.le_refl _, ⟨hC, Extends.refl _ _, rfl⟩, ?_⟩
          intro t _
          exact Nat.le_trans (Nat.le_of_not_lt hdone) hhi

end

/-! ## The walk -/

section

variable {lo hi finalizedSlot : Slot} {db db' : Db UiConfirmedBlock}

theorem Covered.returned (hC : Covered chain lo hi db) {slot : Slot} {row : SolSlot}
    (h : PgStorage.OnFork db finalizedSlot slot row) :
    slot ∈ (PgStorage.setFinalizedSlot finalizedSlot db).1 := by
  obtain ⟨c, _, _, hblock, _⟩ := hC.row slot row h.unfinalized.1
  rw [Std.ExtTreeMap.mem_iff_isSome_getElem?, Option.isSome_iff_exists]
  exact ⟨c, PgStorage.get?_setFinalizedSlot.mpr ⟨⟨row, h⟩, hblock⟩⟩

theorem onFork_of_returned {slot : Slot}
    (h : slot ∈ (PgStorage.setFinalizedSlot finalizedSlot db).1) :
    ∃ row, PgStorage.OnFork db finalizedSlot slot row := by
  rw [Std.ExtTreeMap.mem_iff_isSome_getElem?, Option.isSome_iff_exists] at h
  obtain ⟨b, hb⟩ := h
  exact (PgStorage.get?_setFinalizedSlot.mp hb).1

/-- A row after the walk: one of the walk, now finalized, or one that was there. -/
theorem walked_cases {slot : Slot} {row : SolSlot}
    (h : (PgStorage.setFinalizedSlot finalizedSlot db).2.solSlot.lookup slot = some row) :
    ∃ old, db.solSlot.lookup slot = some old ∧ row.parentSlot = old.parentSlot ∧
      (slot ∈ (PgStorage.setFinalizedSlot finalizedSlot db).1 ∧ row.status = .finalized ∨
        slot ∉ (PgStorage.setFinalizedSlot finalizedSlot db).1 ∧ row = old) := by
  rw [PgStorage.lookup_setFinalizedSlot, Option.map_eq_some_iff] at h
  obtain ⟨old, hold, heq⟩ := h
  refine ⟨old, hold, ?_⟩
  split at heq
  · next hin =>
      subst heq
      exact ⟨rfl, Or.inl ⟨hin, rfl⟩⟩
  · next hnot =>
      subst heq
      exact ⟨rfl, Or.inr ⟨hnot, rfl⟩⟩

theorem Covered.walk (hC : Covered chain lo hi db) (finalizedSlot : Slot) :
    Covered chain lo hi (PgStorage.setFinalizedSlot finalizedSlot db).2 := by
  have hmem : ∀ slot, slot ∈ (PgStorage.setFinalizedSlot finalizedSlot db).2.solSlot ↔
      slot ∈ db.solSlot := by
    intro slot
    rw [← AList.lookup_isSome, ← AList.lookup_isSome, PgStorage.lookup_setFinalizedSlot,
      Option.isSome_map]
  refine ⟨?_, ?_, ?_, ?_⟩
  · intro slot row hrow
    obtain ⟨old, hold, hparent, hcase⟩ := walked_cases hrow
    obtain ⟨c, hc, hlink, hblock, hstatus⟩ := hC.row slot old hold
    refine ⟨c, hc, hparent.trans hlink, hblock, ?_⟩
    rcases hcase with ⟨_, hfinal⟩ | ⟨_, rfl⟩
    · rw [hfinal]
      exact fun h => by cases h
    · exact hstatus
  · intro slot c hblock
    exact (hmem slot).mpr (hC.block slot c hblock)
  · intro slot
    rw [hmem]
    exact hC.range slot
  · intro slot row parent hrow hstatus hparent
    obtain ⟨old, hold, hlink, hcase⟩ := walked_cases hrow
    rw [hlink] at hparent
    obtain ⟨oldParent, holdParent, _, hparentCase⟩ := walked_cases hparent
    rcases hparentCase with ⟨_, hfinal⟩ | ⟨hnot, rfl⟩
    · exact hfinal
    · by_contra hunfinal
      rcases hcase with ⟨hin, _⟩ | ⟨_, rfl⟩
      · -- the walk would have gone on to the parent
        obtain ⟨row', hfork⟩ := onFork_of_returned hin
        have hrow' := hfork.unfinalized.1
        rw [hold] at hrow'
        cases hrow'
        exact hnot (hC.returned (.parent hfork ⟨holdParent, hunfinal⟩))
      · exact hunfinal (hC.closed slot row parent hold hstatus holdParent)

/-- By stored parents the slot is reached from `finalizedSlot`. -/
inductive OnParentChain (db : Db UiConfirmedBlock) (finalizedSlot : Slot) : Slot → Prop
  | self : OnParentChain db finalizedSlot finalizedSlot
  | parent {slot : Slot} {row : SolSlot} : OnParentChain db finalizedSlot slot →
      db.solSlot.lookup slot = some row → OnParentChain db finalizedSlot row.parentSlot

/-- Each slot of the parent chain is finalized before the walk, or the walk comes to it. -/
theorem finalized_or_onFork (hC : Covered chain lo hi db) {slot : Slot}
    (h : OnParentChain db finalizedSlot slot) {row : SolSlot}
    (hrow : db.solSlot.lookup slot = some row) :
    row.status = .finalized ∨ PgStorage.OnFork db finalizedSlot slot row := by
  induction h generalizing row with
  | self =>
      by_cases hfinal : row.status = .finalized
      · exact Or.inl hfinal
      · exact Or.inr (.first ⟨hrow, hfinal⟩)
  | parent hchild hchildRow ih =>
      rcases ih hchildRow with hfinal | hfork
      · exact Or.inl (hC.closed _ _ row hchildRow hfinal hrow)
      · by_cases hfinal : row.status = .finalized
        · exact Or.inl hfinal
        · exact Or.inr (.parent hfork ⟨hrow, hfinal⟩)

theorem OnParentChain.before {slot : Slot}
    (h : OnParentChain (PgStorage.setFinalizedSlot finalizedSlot db).2 finalizedSlot slot) :
    OnParentChain db finalizedSlot slot := by
  induction h with
  | self => exact .self
  | parent _ hrow ih =>
      obtain ⟨old, hold, hparent, _⟩ := walked_cases hrow
      rw [hparent]
      exact .parent ih hold

/-- After the walk the whole parent chain is finalized. -/
theorem finalized_after (hC : Covered chain lo hi db) {slot : Slot}
    (h : OnParentChain (PgStorage.setFinalizedSlot finalizedSlot db).2 finalizedSlot slot)
    {row : SolSlot}
    (hrow : (PgStorage.setFinalizedSlot finalizedSlot db).2.solSlot.lookup slot = some row) :
    row.status = .finalized := by
  obtain ⟨old, hold, _, hcase⟩ := walked_cases hrow
  rcases hcase with ⟨_, hfinal⟩ | ⟨hnot, rfl⟩
  · exact hfinal
  · rcases finalized_or_onFork hC h.before hold with hfinal | hfork
    · exact hfinal
    · exact absurd (hC.returned hfork) hnot

/-- A batch adds nothing to what the walk returns. -/
theorem returned_before (hH : Honest X L chain) (hC : Covered chain lo hi db)
    {lo' hi' : Slot} (hC' : Covered chain lo' hi' db') (hE : Extends finalizedSlot db db')
    {slot : Slot} (h : slot ∈ (PgStorage.setFinalizedSlot finalizedSlot db').1) :
    slot ∈ (PgStorage.setFinalizedSlot finalizedSlot db).1 := by
  have hold : ∀ s row, s ≤ finalizedSlot → PgStorage.Unfinalized db' s row →
      PgStorage.Unfinalized db s row := by
    intro s row hle hrow
    rcases hE.fresh s row hrow.1 with hrow' | hstatus
    · exact ⟨hrow', hrow.2⟩
    · rw [PgStorage.slotStatus, if_pos hle] at hstatus
      exact absurd hstatus hrow.2
  have hfork : ∀ s row, PgStorage.OnFork db' finalizedSlot s row →
      s ≤ finalizedSlot ∧ PgStorage.OnFork db finalizedSlot s row := by
    intro s row hfork
    induction hfork with
    | first hrow => exact ⟨Nat.le_refl _, .first (hold _ _ (Nat.le_refl _) hrow)⟩
    | @parent s row parentRow hchild hparent ih =>
        obtain ⟨c, hc, hlink, _⟩ := hC'.row s row hchild.unfinalized.1
        have hle : row.parentSlot ≤ finalizedSlot := by
          rw [hlink]
          exact Nat.le_trans (hH.parent s c hc) ih.1
        exact ⟨hle, .parent ih.2 (hold _ _ hle hparent)⟩
  obtain ⟨row, hrow⟩ := onFork_of_returned h
  exact hC.returned (hfork slot row hrow).2

theorem size_returned_le (hH : Honest X L chain) (hC : Covered chain lo hi db)
    {lo' hi' : Slot} (hC' : Covered chain lo' hi' db') (hE : Extends finalizedSlot db db') :
    (PgStorage.setFinalizedSlot finalizedSlot db').1.size ≤
      (PgStorage.setFinalizedSlot finalizedSlot db).1.size := by
  rw [← Std.ExtTreeMap.length_keys, ← Std.ExtTreeMap.length_keys]
  refine (List.subperm_of_subset ?_ fun slot hslot => ?_).length_le
  · rw [← Std.ExtTreeMap.map_fst_toList_eq_keys]
    exact BTreeMap.keys_nodup _
  · rw [Std.ExtTreeMap.mem_keys] at hslot ⊢
    exact returned_before hH hC hC' hE hslot

end

/-! ## The rechecks -/

/-- The process survives this many header queries. -/
def NodeWorld.Survives (node : NodeWorld) (queries : Nat) : Prop :=
  ∀ n, node.stopAt = some n → queries ≤ n

theorem NodeWorld.Survives.ask {node : NodeWorld} {queries : Nat}
    (h : NodeWorld.Survives node (queries + 1)) (slot : Slot) :
    ∃ node', node.ask slot = some node' ∧ node'.rechecked = node.rechecked ++ [slot] ∧
      NodeWorld.Survives node' queries := by
  rw [NodeWorld.ask]
  cases hstop : node.stopAt with
  | none => exact ⟨_, rfl, rfl, fun n hn => by cases hn⟩
  | some n =>
      have hle := h n hstop
      cases n with
      | zero => exact absurd hle (Nat.not_succ_le_zero _)
      | succ n =>
          refine ⟨_, rfl, rfl, fun m hm => ?_⟩
          cases hm
          exact Nat.le_of_succ_le_succ hle

theorem recheckFinalizedBlock_honest (hH : Honest X L chain) {slot : Slot} {c : UiConfirmedBlock}
    (hc : chain slot = some c) {s : LoaderWorld} {node : NodeWorld}
    (hask : s.2.ask slot = some node) :
    L.recheckFinalizedBlock X slot c s = .ok none (s.1, node) := by
  obtain ⟨b, hb, hquery⟩ := hH.header slot c s hc
  rw [hask] at hquery
  simp only [recheckFinalizedBlock, bind, EStateM.bind, Eff.attempt, hquery, hb, ne_eq,
    not_true_eq_false, if_false]
  rfl

theorem joinAll_rechecks (hH : Honest X L chain) (l : List (Slot × UiConfirmedBlock)) :
    ∀ {s : LoaderWorld}, (∀ e ∈ l, chain e.1 = some e.2) → NodeWorld.Survives s.2 l.length →
      ∃ node, node.rechecked = s.2.rechecked ++ l.map Prod.fst ∧
        RollupIndexer.joinAll (fun e => L.recheckFinalizedBlock X e.1 e.2) l s =
          .ok (l.map fun _ => .ok none) (s.1, node) := by
  induction l with
  | nil =>
      intro s _ _
      exact ⟨s.2, (List.append_nil _).symm, rfl⟩
  | cons e l ih =>
      intro s hl hsurvives
      obtain ⟨node, hask, hrecord, hnode⟩ := NodeWorld.Survives.ask hsurvives e.1
      obtain ⟨node', hrecord', hrest⟩ := ih (s := (s.1, node))
        (fun e' he' => hl e' (List.mem_cons_of_mem _ he')) hnode
      have hfirst := recheckFinalizedBlock_honest hH (hl e (List.mem_cons_self ..)) hask
      refine ⟨node', ?_, ?_⟩
      · rw [hrecord', List.map_cons]
        show node.rechecked ++ _ = _
        rw [hrecord, List.append_assoc]
        rfl
      · simp only [RollupIndexer.joinAll, bind, EStateM.bind, Eff.attempt, hfirst, hrest]
        rfl

theorem updatedBlocks_unchanged (l : List (Slot × UiConfirmedBlock))
    (updated : BTreeMap Slot UiConfirmedBlock) :
    updatedBlocks ((l.map Prod.fst).zip (l.map fun _ => .ok none)) updated = .ok updated := by
  induction l with
  | nil => rfl
  | cons e l ih => exact ih

/-- The rechecks find nothing to change, so all that may fail is the empty update. -/
theorem recheckFinalizedBlocks_honest (hH : Honest X L chain)
    (hL : L.solanaBlockStorage = PgStorage.solanaBlockStorage Server.pool.beside)
    (reorgEventTx : ReorgSender LoaderWorld) {blocks : BTreeMap Slot UiConfirmedBlock}
    {s : LoaderWorld} (hblocks : ∀ (slot : Slot) (c : UiConfirmedBlock), blocks[slot]? = some c →
      chain slot = some c) (hsurvives : NodeWorld.Survives s.2 blocks.size) :
    ((L.recheckFinalizedBlocks X blocks reorgEventTx).after s).1.db = s.1.db ∧
    ((L.recheckFinalizedBlocks X blocks reorgEventTx).after s).2.rechecked =
      s.2.rechecked ++ blocks.keys := by
  rw [← Std.ExtTreeMap.length_toList] at hsurvives
  obtain ⟨node, hrecord, hjoin⟩ := joinAll_rechecks hH blocks.toList
    (fun e he => hblocks e.1 e.2 ((BTreeMap.mem_toList _ _ _).mp he)) hsurvives
  rw [Std.ExtTreeMap.map_fst_toList_eq_keys] at hrecord
  have hempty : ∀ db, PgStorage.updateFinalizedBlocks ∅ db = .ok ((), db) := fun _ => rfl
  have hfirst : firstSlot (∅ : BTreeMap Slot UiConfirmedBlock) = none := rfl
  simp only [EStateM.after, recheckFinalizedBlocks, bind, EStateM.bind, hjoin,
    updatedBlocks_unchanged, Eff.ofResult, pure, EStateM.pure, hL, PgStorage.solanaBlockStorage,
    Pool.transaction_beside, hfirst, sendReorg]
  cases hfault : s.1.fault 0 with
  | some e =>
      simp only [Server.transaction_fault hfault]
      exact ⟨trivial, hrecord⟩
  | none =>
      simp only [Server.transaction_go hfault, hempty]
      exact ⟨trivial, hrecord⟩

/-! ## A turn -/

section

variable {lo hi finalizedSlot : Slot} {s : LoaderWorld} (reorgEventTx : ReorgSender LoaderWorld)

/-- The walk of a turn came from `s` to `t`, and all it returned was rechecked. -/
structure Walked (finalizedSlot : Slot) (s t : LoaderWorld) : Prop where
  db : t.1.db = (PgStorage.setFinalizedSlot finalizedSlot s.1.db).2
  rechecked : t.2.rechecked =
    s.2.rechecked ++ (PgStorage.setFinalizedSlot finalizedSlot s.1.db).1.keys

/-- Either nothing happens, or the walk and all rechecks. -/
theorem updateFinalizedSlot_cases (hH : Honest X L chain)
    (hL : L.solanaBlockStorage = PgStorage.solanaBlockStorage Server.pool.beside)
    (hC : Covered chain lo hi s.1.db)
    (hsurvives : NodeWorld.Survives s.2 (PgStorage.setFinalizedSlot finalizedSlot s.1.db).1.size) :
    (∃ e t, L.updateFinalizedSlot X finalizedSlot reorgEventTx s = .error e t ∧
      t.1.db = s.1.db ∧ t.2 = s.2) ∨
    Walked finalizedSlot s ((L.updateFinalizedSlot X finalizedSlot reorgEventTx).after s) := by
  cases hfault : s.1.fault 0 with
  | some e =>
      refine Or.inl ⟨e, (⟨s.1.db, s.1.faults.tail⟩, s.2), ?_, rfl, rfl⟩
      simp only [updateFinalizedSlot, hL, PgStorage.solanaBlockStorage, bind, EStateM.bind,
        Pool.transaction_beside, Server.transaction_fault hfault]
  | none =>
      right
      have hafter : (L.updateFinalizedSlot X finalizedSlot reorgEventTx).after s =
          (L.recheckFinalizedBlocks X (PgStorage.setFinalizedSlot finalizedSlot s.1.db).1
            reorgEventTx).after
            (⟨(PgStorage.setFinalizedSlot finalizedSlot s.1.db).2, s.1.faults.tail⟩, s.2) := by
        simp only [EStateM.after, updateFinalizedSlot, hL, PgStorage.solanaBlockStorage, bind,
          EStateM.bind, Pool.transaction_beside, Server.transaction_go hfault]
      have hblocks : ∀ (slot : Slot) (c : UiConfirmedBlock),
          (PgStorage.setFinalizedSlot finalizedSlot s.1.db).1[slot]? = some c →
          chain slot = some c := by
        intro slot c hc
        obtain ⟨⟨row, hrow⟩, hblock⟩ := PgStorage.get?_setFinalizedSlot.mp hc
        obtain ⟨c', hc', _, hblock', _⟩ := hC.row slot row hrow.unfinalized.1
        rw [hblock] at hblock'
        cases hblock'
        exact hc'
      obtain ⟨hdb, hrecord⟩ := recheckFinalizedBlocks_honest hH hL reorgEventTx
        (s := (⟨(PgStorage.setFinalizedSlot finalizedSlot s.1.db).2, s.1.faults.tail⟩, s.2))
        hblocks hsurvives
      rw [hafter]
      exact ⟨hdb, hrecord⟩

/-- What a turn has done when it came from `s` to `t`: it loaded batches, up to the
world `u`, and then it may have walked. -/
structure Turned (chain : Slot → Option UiConfirmedBlock) (lo hi finalizedSlot : Slot)
    (s u t : LoaderWorld) : Prop where
  loaded : Loaded chain lo hi finalizedSlot s u
  walked : (t.1.db = u.1.db ∧ t.2 = u.2) ∨ Walked finalizedSlot u t

/-- The pace of a turn. -/
structure KeepsUp (chain : Slot → Option UiConfirmedBlock) (db : Db UiConfirmedBlock)
    (fromSlot : Slot) (e : Surroundings) : Prop where
  load : (∀ slot, fromSlot ≤ slot → slot < e.confirmedSlot → chain slot ≠ none →
      slot ∉ db.solSlot → e.finalizedSlot < slot) ∨
    ∀ slot row, db.solSlot.lookup slot = some row → row.status = .finalized
  rechecks : ∀ n, e.stopAt = some n →
    (PgStorage.setFinalizedSlot e.finalizedSlot db).1.size ≤ n

theorem KeepsUp.mayLoad {db : Db UiConfirmedBlock} {fromSlot : Slot} {e : Surroundings}
    (h : KeepsUp chain db fromSlot e) (hC : Covered chain lo hi db) (hhi : fromSlot ≤ hi) :
    MayLoad chain db hi e.confirmedSlot e.finalizedSlot := by
  rcases h.load with hnew | hall
  · left
    intro slot hge hlt hchain
    refine hnew slot (Nat.le_trans hhi hge) hlt hchain fun hmem => ?_
    exact absurd ((hC.range slot).mp hmem).2.1 (Nat.not_lt_of_le hge)
  · exact Or.inr hall

/-- The last part of a turn. -/
theorem walk_spec (hH : Honest X L chain)
    (hL : L.solanaBlockStorage = PgStorage.solanaBlockStorage Server.pool.beside)
    (hC : Covered chain lo hi s.1.db)
    (hsurvives : NodeWorld.Survives s.2 (PgStorage.setFinalizedSlot finalizedSlot s.1.db).1.size)
    (turn : Turn) {x : Eff LoaderWorld Turn}
    (hx : x = do L.updateFinalizedSlot X finalizedSlot reorgEventTx; pure turn) :
    (((x.after s).1.db = s.1.db ∧ (x.after s).2 = s.2) ∨ Walked finalizedSlot s (x.after s)) ∧
    ∀ r t, x s = .ok r t → r = turn ∧ Walked finalizedSlot s t := by
  subst hx
  simp only [EStateM.after, bind, EStateM.bind]
  rcases updateFinalizedSlot_cases reorgEventTx hH hL hC hsurvives with
    ⟨e, t, herr, hdb, hnode⟩ | hwalked
  · simp only [herr]
    exact ⟨Or.inl ⟨hdb, hnode⟩, fun r t h => by cases h⟩
  · rw [EStateM.after] at hwalked
    cases hrun : L.updateFinalizedSlot X finalizedSlot reorgEventTx s with
    | error e t =>
        rw [hrun] at hwalked
        exact ⟨Or.inr hwalked, fun r t h => by cases h⟩
    | ok a t =>
        rw [hrun] at hwalked
        refine ⟨Or.inr hwalked, fun r t' h => ?_⟩
        cases h
        exact ⟨rfl, hwalked⟩

theorem syncTurn_spec (hH : Honest X L chain)
    (hL : L.solanaBlockStorage = PgStorage.solanaBlockStorage Server.pool.beside) {fromSlot : Slot}
    (hC : Covered chain lo hi s.1.db) (hlo : lo ≤ fromSlot) (hhi : fromSlot ≤ hi)
    (hload : MayLoad chain s.1.db hi s.2.confirmedSlot s.2.finalizedSlot)
    (hsurvives : NodeWorld.Survives s.2
      (PgStorage.setFinalizedSlot s.2.finalizedSlot s.1.db).1.size) :
    ∃ hi' u, hi ≤ hi' ∧
      Turned chain lo hi' s.2.finalizedSlot s u ((L.syncTurn X fromSlot reorgEventTx).after s) ∧
      ∀ turn t, L.syncTurn X fromSlot reorgEventTx s = .ok turn t →
        Walked s.2.finalizedSlot u t ∧ lo ≤ turn.slot ∧ turn.slot ≤ hi' := by
  have hrun : L.syncTurn X fromSlot reorgEventTx s =
      L.syncTo X fromSlot reorgEventTx (.ok (s.2.confirmedSlot, s.2.finalizedSlot)) s := by
    simp only [syncTurn, bind, EStateM.bind, Eff.attempt, hH.latest]
  have hafter : (L.syncTurn X fromSlot reorgEventTx).after s =
      (L.syncTo X fromSlot reorgEventTx (.ok (s.2.confirmedSlot, s.2.finalizedSlot))).after s := by
    rw [EStateM.after, hrun]
    rfl
  rw [hafter, hrun, syncTo]
  split
  · next hlt =>
      obtain ⟨hi', hle, hloaded, hdone⟩ := preloadLoop_spec hH hL s.2.confirmedSlot
        (s.2.confirmedSlot - fromSlot) hC hlo hhi hload
      simp only [EStateM.after, bind, EStateM.bind] at hloaded ⊢
      cases hloop : L.preloadLoop X s.2.confirmedSlot s.2.finalizedSlot
          (s.2.confirmedSlot - fromSlot) fromSlot s with
      | error e u =>
          rw [hloop] at hloaded
          exact ⟨hi', u, hle, ⟨hloaded, Or.inl ⟨rfl, rfl⟩⟩, fun turn t h => by cases h⟩
      | ok a u =>
          rw [hloop] at hloaded
          have hnode : u.2 = s.2 := hloaded.node
          have hsurvives' : NodeWorld.Survives u.2
              (PgStorage.setFinalizedSlot s.2.finalizedSlot u.1.db).1.size := by
            intro n hn
            rw [hnode] at hn
            exact Nat.le_trans (size_returned_le hH hC hloaded.covered hloaded.extending)
              (hsurvives n hn)
          obtain ⟨hwalked, hok⟩ := walk_spec reorgEventTx hH hL hloaded.covered
            hsurvives' (.goOn s.2.confirmedSlot) rfl
          refine ⟨hi', u, hle, ⟨hloaded, hwalked⟩, ?_⟩
          intro turn t ht
          obtain ⟨rfl, hw⟩ := hok turn t ht
          exact ⟨hw, Nat.le_trans hlo (Nat.le_of_lt hlt), hdone u hloop⟩
  · obtain ⟨hwalked, hok⟩ := walk_spec reorgEventTx hH hL hC hsurvives
      (.inSync fromSlot) rfl
    refine ⟨hi, s, Nat.le_refl _, ⟨⟨hC, Extends.refl _ _, rfl⟩, hwalked⟩, ?_⟩
    intro turn t ht
    obtain ⟨rfl, hw⟩ := hok turn t ht
    exact ⟨hw, hlo, hhi⟩

end

/-! ## The run -/

/-- No slot of the parent chain of `finalizedSlot` is left as a confirmed one, and
those that were confirmed once have been rechecked. -/
structure AncestorsDone (s : LoaderState) (finalizedSlot : Slot) : Prop where
  status : ∀ slot row, OnParentChain s.db finalizedSlot slot →
    s.db.solSlot.lookup slot = some row → row.status ≠ .confirmed
  rechecked : ∀ slot, OnParentChain s.db finalizedSlot slot → slot ∈ s.seenConfirmed →
    slot ∈ s.world.2.rechecked

/-- A slot that is confirmed, or finalized with its recheck made. -/
def Accounted (w : LoaderWorld) (slot : Slot) : Prop :=
  ∃ row, w.1.db.solSlot.lookup slot = some row ∧
    (row.status = .confirmed ∨ slot ∈ w.2.rechecked)

theorem Turned.accounted {lo hi finalizedSlot : Slot} {s u t : LoaderWorld}
    (h : Turned chain lo hi finalizedSlot s u t) {slot : Slot} (hslot : Accounted s slot) :
    Accounted t slot := by
  obtain ⟨row, hrow, hcase⟩ := hslot
  have hrow' := h.loaded.extending.kept slot row hrow
  have hnode := h.loaded.node
  rcases h.walked with ⟨hdb, hsame⟩ | hwalked
  · refine ⟨row, by rw [hdb]; exact hrow', ?_⟩
    rw [hsame, hnode]
    exact hcase
  · by_cases hin : slot ∈ (PgStorage.setFinalizedSlot finalizedSlot u.1.db).1
    · refine ⟨{ row with status := .finalized }, ?_, Or.inr ?_⟩
      · rw [hwalked.db, PgStorage.lookup_setFinalizedSlot, hrow', Option.map_some, if_pos hin]
      · rw [hwalked.rechecked]
        exact List.mem_append_right _ (Std.ExtTreeMap.mem_keys.mpr hin)
    · refine ⟨row, ?_, hcase.imp_right fun hmem => ?_⟩
      · rw [hwalked.db, PgStorage.lookup_setFinalizedSlot, hrow', Option.map_some, if_neg hin]
      · rw [hwalked.rechecked, hnode]
        exact List.mem_append_left _ hmem

theorem Turned.covered {lo hi finalizedSlot : Slot} {s u t : LoaderWorld}
    (h : Turned chain lo hi finalizedSlot s u t) : Covered chain lo hi t.1.db := by
  rcases h.walked with ⟨hdb, _⟩ | hwalked
  · rw [hdb]
    exact h.loaded.covered
  · rw [hwalked.db]
    exact h.loaded.covered.walk finalizedSlot

theorem mem_confirmedSlots {db : Db UiConfirmedBlock} {slot : Slot} :
    slot ∈ confirmedSlots db ↔
      ∃ row, db.solSlot.lookup slot = some row ∧ row.status = .confirmed := by
  rw [confirmedSlots, List.mem_filterMap]
  constructor
  · intro ⟨e, he, h⟩
    split at h
    · next hstatus =>
        cases h
        exact ⟨e.2, (HashMap.mem_entries _ _ _).mp he, hstatus⟩
    · cases h
  · intro ⟨row, hrow, hstatus⟩
    exact ⟨⟨slot, row⟩, (HashMap.mem_entries _ _ _).mpr hrow, if_pos hstatus⟩

/-- What holds of every state of a run. -/
structure LoaderInv (chain : Slot → Option UiConfirmedBlock) (lo : Slot) (s : LoaderState) :
    Prop where
  covered : ∃ hi, lo ≤ hi ∧ Covered chain lo hi s.db ∧ (s.running = true →
    (lo ≤ s.fromSlot ∧ s.fromSlot ≤ hi) ∧ lo ≤ s.callFrom ∧ s.callFrom ≤ hi)
  seen : ∀ slot ∈ s.seenConfirmed, Accounted s.world slot
  done : ∀ finalizedSlot, s.completed = some finalizedSlot → AncestorsDone s finalizedSlot

section

variable {lo hi finalizedSlot : Slot} {startSlot : Option Slot}
  {reorgEventTx : ReorgSender LoaderWorld} {s : LoaderState} {u w : LoaderWorld}
  {e : Surroundings}

/-- What was seen before a turn and what is confirmed after it is accounted for. -/
theorem leave_seen (hseen : ∀ slot ∈ s.seenConfirmed, Accounted s.world slot)
    (hT : Turned chain lo hi finalizedSlot (enter s e) u w) :
    ∀ slot ∈ (leave s w).seenConfirmed, Accounted w slot := by
  intro slot hslot
  rcases List.mem_append.mp hslot with hold | hnew
  · obtain ⟨row, hrow, hcase⟩ := hseen slot hold
    exact hT.accounted ⟨row, hrow, hcase⟩
  · obtain ⟨row, hrow, hstatus⟩ := mem_confirmedSlots.mp hnew
    exact ⟨row, hrow, Or.inl hstatus⟩

/-- A turn that ends well has done the ancestors of its finalized slot. -/
theorem done_of_walked {t : LoaderState} (hC : Covered chain lo hi u.1.db)
    (hW : Walked finalizedSlot u t.world)
    (hseen : ∀ slot ∈ t.seenConfirmed, Accounted t.world slot) : AncestorsDone t finalizedSlot := by
  have hdb : t.db = (PgStorage.setFinalizedSlot finalizedSlot u.1.db).2 := hW.db
  have hfinal : ∀ slot row, OnParentChain t.db finalizedSlot slot →
      t.db.solSlot.lookup slot = some row → row.status = .finalized := by
    intro slot row hchain hrow
    rw [hdb] at hchain hrow
    exact finalized_after hC hchain hrow
  constructor
  · intro slot row hchain hrow hstatus
    rw [hfinal slot row hchain hrow] at hstatus
    cases hstatus
  · intro slot hchain hslot
    obtain ⟨row, hrow, hcase⟩ := hseen slot hslot
    rcases hcase with hstatus | hmem
    · rw [hfinal slot row hchain hrow] at hstatus
      cases hstatus
    · exact hmem

theorem LoaderInv.turn (hH : Honest X L chain)
    (hL : L.solanaBlockStorage = PgStorage.solanaBlockStorage Server.pool.beside)
    (hI : LoaderInv chain lo s) (hrunning : s.running = true)
    (hpace : KeepsUp chain s.db s.fromSlot e) :
    LoaderInv chain lo (L.afterTurn X reorgEventTx s e) := by
  obtain ⟨hi, hlo, hC, hbounds⟩ := hI.covered
  obtain ⟨⟨hfromLo, hfromHi⟩, hcallLo, hcallHi⟩ := hbounds hrunning
  obtain ⟨hi', u, hle, hT, hok⟩ := syncTurn_spec reorgEventTx hH hL
    (s := enter s e) hC hfromLo hfromHi (hpace.mayLoad hC hfromHi) hpace.rechecks
  have hcall : s.callFrom ≤ hi' := Nat.le_trans hcallHi hle
  have hlo' : lo ≤ hi' := Nat.le_trans hlo hle
  rw [EStateM.after] at hT
  rw [afterTurn]
  cases hrun : L.syncTurn X s.fromSlot reorgEventTx (enter s e) with
  | error f w =>
      rw [hrun] at hT
      have hseen := leave_seen hI.seen hT
      have hcovered : Covered chain lo hi' w.1.db := hT.covered
      cases f with
      | err f =>
          exact ⟨⟨hi', hlo', hcovered, fun _ => ⟨⟨hcallLo, hcall⟩, hcallLo, hcall⟩⟩, hseen,
            fun _ h => by cases h⟩
      | panic message =>
          exact ⟨⟨hi', hlo', hcovered, fun h => by cases h⟩, hseen, fun _ h => by cases h⟩
  | ok turn w =>
      rw [hrun] at hT
      have hseen := leave_seen hI.seen hT
      have hcovered : Covered chain lo hi' w.1.db := hT.covered
      obtain ⟨hW, hturnLo, hturnHi⟩ := hok turn w hrun
      cases turn with
      | goOn fromSlot =>
          refine ⟨⟨hi', hlo', hcovered, fun _ => ⟨⟨hturnLo, hturnHi⟩, hcallLo, hcall⟩⟩, hseen, ?_⟩
          intro f hf
          cases hf
          exact done_of_walked hT.loaded.covered hW hseen
      | inSync fromSlot =>
          refine ⟨⟨hi', hlo', hcovered, fun _ => ⟨⟨hturnLo, hturnHi⟩, hturnLo, hturnHi⟩⟩, hseen, ?_⟩
          intro f hf
          cases hf
          exact done_of_walked hT.loaded.covered hW hseen

/-- The loader begins with the last stored slot, or with the configured one. -/
theorem startFrom_spec (startSlot : Option Slot)
    (hL : L.solanaBlockStorage = PgStorage.solanaBlockStorage Server.pool.beside)
    (w : LoaderWorld) : ((L.startFrom startSlot).after w).1.db = w.1.db ∧
      ((L.startFrom startSlot).after w).2 = w.2 ∧
      ∀ fromSlot t, L.startFrom startSlot w = .ok fromSlot t →
        fromSlot ∈ w.1.db.solBlock ∨ startSlot = some fromSlot := by
  simp only [EStateM.after, startFrom, hL, PgStorage.solanaBlockStorage, Pool.query,
    Except.map, bind, EStateM.bind, Pool.transaction_beside]
  cases hfault : w.1.fault 0 with
  | some e =>
      simp only [Server.transaction_fault hfault]
      exact ⟨trivial, trivial, fun _ _ h => by cases h⟩
  | none =>
      simp only [Server.transaction_go hfault]
      cases hlast : PgStorage.getLastSlot w.1.db with
      | some last =>
          refine ⟨rfl, rfl, fun fromSlot t h => Or.inl ?_⟩
          cases h
          exact List.max?_mem hlast
      | none =>
          cases startSlot with
          | none => exact ⟨rfl, rfl, fun _ _ h => by cases h⟩
          | some slot =>
              refine ⟨rfl, rfl, fun fromSlot t h => Or.inr ?_⟩
              cases h
              rfl

theorem LoaderInv.start
    (hL : L.solanaBlockStorage = PgStorage.solanaBlockStorage Server.pool.beside)
    (hI : LoaderInv chain (startSlot.getD 0) s) (faults : List (Option Failure)) :
    LoaderInv chain (startSlot.getD 0) (L.afterStart startSlot faults s) := by
  obtain ⟨hi, hlo, hC, _⟩ := hI.covered
  obtain ⟨hdb, hnode, hfrom⟩ := startFrom_spec startSlot hL (⟨s.db, faults⟩, s.world.2)
  have hseen : ∀ w : LoaderWorld, w.1.db = s.db → w.2 = s.world.2 →
      ∀ slot ∈ (leave s w).seenConfirmed, Accounted w slot := by
    intro w hwdb hwnode slot hslot
    rcases List.mem_append.mp hslot with hold | hnew
    · obtain ⟨row, hrow, hcase⟩ := hI.seen slot hold
      exact ⟨row, by rw [hwdb]; exact hrow, by rw [hwnode]; exact hcase⟩
    · obtain ⟨row, hrow, hstatus⟩ := mem_confirmedSlots.mp hnew
      exact ⟨row, hrow, Or.inl hstatus⟩
  rw [EStateM.after] at hdb hnode
  rw [afterStart]
  cases hrun : L.startFrom startSlot (⟨s.db, faults⟩, s.world.2) with
  | error f w =>
      rw [hrun] at hdb hnode
      refine ⟨⟨hi, hlo, ?_, fun h => by cases h⟩, hseen w hdb hnode, fun _ h => by cases h⟩
      show Covered chain _ hi w.1.db
      rw [hdb]
      exact hC
  | ok fromSlot w =>
      rw [hrun] at hdb hnode
      have hbounds : startSlot.getD 0 ≤ fromSlot ∧ fromSlot ≤ hi := by
        rcases hfrom fromSlot w hrun with hmem | hstart
        · obtain ⟨c, hc⟩ := HashMap.lookup_of_mem hmem
          have hrange := (hC.range fromSlot).mp (hC.block fromSlot c hc)
          exact ⟨hrange.1, Nat.le_of_lt hrange.2.1⟩
        · rw [hstart] at hlo ⊢
          exact ⟨Nat.le_refl _, hlo⟩
      refine ⟨⟨hi, hlo, ?_, fun _ => ⟨hbounds, hbounds⟩⟩, hseen w hdb hnode, fun _ h => by cases h⟩
      show Covered chain _ hi w.1.db
      rw [hdb]
      exact hC

/-- The condition on the steps of a run: each turn keeps up. -/
def PaceKept (chain : Slot → Option UiConfirmedBlock) (s : LoaderState) : LoaderAction → Prop
  | .turn e => KeepsUp chain s.db s.fromSlot e
  | .start _ => True

theorem loaderInv_initial (hlo : lo = startSlot.getD 0) : LoaderInv chain lo initialLoader := by
  subst hlo
  refine ⟨⟨startSlot.getD 0, Nat.le_refl _, ⟨?_, ?_, ?_, ?_⟩, fun h => by cases h⟩, ?_, ?_⟩
  · intro slot row h
    cases h
  · intro slot c h
    cases h
  · intro slot
    constructor
    · intro h
      exact absurd h (AList.notMem_empty slot)
    · intro h
      exact absurd h.2.1 (Nat.not_lt_of_le h.1)
  · intro slot row parent h
    cases h
  · intro slot h
    cases h
  · intro f h
    cases h

theorem loaderInv_step (hH : Honest X L chain)
    (hL : L.solanaBlockStorage = PgStorage.solanaBlockStorage Server.pool.beside)
    (hI : LoaderInv chain (startSlot.getD 0) s) {a : LoaderAction} (hpace : PaceKept chain s a)
    {t : LoaderState} (h : L.loaderStep X reorgEventTx startSlot s a t) :
    LoaderInv chain (startSlot.getD 0) t := by
  cases a with
  | turn e =>
      obtain ⟨hrunning, _, _, _, rfl⟩ := h
      exact hI.turn hH hL hrunning hpace
  | start faults =>
      have ht : t = L.afterStart startSlot faults s := h
      subst ht
      exact hI.start hL faults

/-- In a run in which every turn keeps up, a turn that has ended well has done all
ancestors of its finalized slot. -/
theorem ancestors_of_finalized_done (hH : Honest X L chain)
    (hL : L.solanaBlockStorage = PgStorage.solanaBlockStorage Server.pool.beside)
    {tr : List (LoaderState × LoaderAction)}
    (hrun : Machine.Run (L.loaderMachine X reorgEventTx startSlot) tr s)
    (hpace : Machine.Meets (PaceKept chain) tr) :
    ∀ t ∈ Machine.visited tr s, ∀ finalizedSlot, t.completed = some finalizedSlot →
      AncestorsDone t finalizedSlot := by
  intro t ht
  have hI : LoaderInv chain (startSlot.getD 0) t := by
    refine Machine.Run.invariant_always ?_ ?_ hrun hpace t ht
    · intro s hs
      rw [show s = initialLoader from hs]
      exact loaderInv_initial rfl
    · intro s a t hI hpace hstep
      exact loaderInv_step hH hL hI hpace hstep
  exact hI.done

end

/-! ## A loader that lags behind -/

/-- A node that has the blocks of a chain, none of them with signatures. -/
def chainClient (chain : Slot → Option UiConfirmedBlock) : SolanaClient LoaderWorld where
  getTransactionWithConfig _ _ _ := pure none
  getSignaturesForAddressWithConfig _ _ := pure []
  getBlockWithConfig slot config _ := fun s =>
    match chain slot with
    | none => .ok none s
    | some c =>
        if config.transactionDetails = none then
          match s.2.ask slot with
          | some node => .ok (some ⟨c, none⟩) (s.1, node)
          | none => .error (.panic "stopped") s
        else .ok (some ⟨c, none⟩) s
  getSlotWithCommitment level := fun s =>
    .ok (if level = .confirmed then s.2.confirmedSlot else s.2.finalizedSlot) s

def chainLoader (chain : Slot → Option UiConfirmedBlock) : SolanaBlockLoader LoaderWorld :=
  ⟨PgStorage.solanaBlockStorage Server.pool.beside, chainClient chain, .confirmed, 9, 10, 3, 3⟩

theorem chainLoader_honest {chain : Slot → Option UiConfirmedBlock}
    (h : ∀ slot c, chain slot = some c → c.parentSlot ≤ slot) :
    Honest standIns (chainLoader chain) chain where
  latest _ := rfl
  load slot s := by
    simp only [loadBlock, chainLoader, chainClient, bind, EStateM.bind, reduceCtorEq, if_false]
    cases chain slot <;> rfl
  header slot c s hc := by
    refine ⟨⟨c, none⟩, rfl, ?_⟩
    simp only [chainLoader, chainClient, hc, if_true]
  parent := h

/-- Blocks at the slots 10 and 12. -/
def twoBlocks (slot : Slot) : Option UiConfirmedBlock :=
  if slot = 10 then some ⟨"hash 9", "hash 10", 9, none, some 0⟩
  else if slot = 12 then some ⟨"hash 10", "hash 12", 10, none, some 0⟩
  else none

theorem twoBlocks_honest : Honest standIns (chainLoader twoBlocks) twoBlocks := by
  refine chainLoader_honest fun slot c hc => ?_
  rw [twoBlocks] at hc
  split at hc
  · next h =>
      cases hc
      rw [h]
      decide
  · split at hc
    · next h =>
        cases hc
        rw [h]
        decide
    · cases hc

def afterFirstStart : LoaderState := (chainLoader twoBlocks).afterStart (some 10) [] initialLoader

/-- Slot 10 is stored while it is confirmed. -/
def firstTurn : Surroundings := ⟨11, 9, [], none⟩

def afterFirstTurn : LoaderState :=
  (chainLoader twoBlocks).afterTurn standIns noReceiver afterFirstStart firstTurn

/-- By the time of the next turn slot 12 is finalized. -/
def lateTurn : Surroundings := ⟨13, 12, [], none⟩

def afterLateTurn : LoaderState :=
  (chainLoader twoBlocks).afterTurn standIns noReceiver afterFirstTurn lateTurn

/-- At the time of the next turn slot 10 is finalized. -/
def timelyTurn : Surroundings := ⟨13, 10, [], none⟩

def afterTimelyTurn : LoaderState :=
  (chainLoader twoBlocks).afterTurn standIns noReceiver afterFirstTurn timelyTurn

def firstTrace : List (LoaderState × LoaderAction) :=
  [(initialLoader, .start [])] ++ [(afterFirstStart, .turn firstTurn)]

theorem firstTrace_run : Machine.Run
    ((chainLoader twoBlocks).loaderMachine standIns noReceiver (some 10)) firstTrace
    afterFirstTurn := by
  have hstart : Machine.Run ((chainLoader twoBlocks).loaderMachine standIns noReceiver (some 10))
      ([] ++ [(initialLoader, .start [])]) afterFirstStart := .next (.start rfl) rfl
  exact .next hstart ⟨rfl, by decide, by decide, by decide, rfl⟩

/-- Slot 12 is stored as finalized, and slot 10, its parent, stays confirmed. -/
theorem lagging_loader_leaves_confirmed :
    (∃ tr, Machine.Run ((chainLoader twoBlocks).loaderMachine standIns noReceiver (some 10)) tr
      afterLateTurn) ∧
    afterLateTurn.completed = some 12 ∧ ¬ AncestorsDone afterLateTurn 12 := by
  refine ⟨⟨firstTrace ++ [(afterFirstTurn, .turn lateTurn)], ?_⟩, rfl, ?_⟩
  · exact .next firstTrace_run ⟨rfl, by decide, by decide, by decide, rfl⟩
  intro hdone
  have hchain : OnParentChain afterLateTurn.db 12 10 :=
    have hrow : afterLateTurn.db.solSlot.lookup 12 =
        some ⟨10, .finalized, some "hash 12", some 0⟩ := rfl
    .parent .self hrow
  exact hdone.status 10 ⟨9, .confirmed, some "hash 10", some 0⟩ hchain rfl rfl

theorem ancestors_of_finalized_timely : AncestorsDone afterTimelyTurn 10 := by
  have hrun : Machine.Run ((chainLoader twoBlocks).loaderMachine standIns noReceiver (some 10))
      (firstTrace ++ [(afterFirstTurn, .turn timelyTurn)]) afterTimelyTurn :=
    .next firstTrace_run ⟨rfl, by decide, by decide, by decide, rfl⟩
  refine ancestors_of_finalized_done twoBlocks_honest rfl hrun ?_ afterTimelyTurn
    (List.mem_append_right _ (List.mem_singleton_self _)) 10 rfl
  refine Machine.meets_append.mpr ⟨Machine.meets_append.mpr ⟨?_, ?_⟩, ?_⟩
  · intro e he
    rw [List.mem_singleton.mp he]
    exact trivial
  · refine ⟨Or.inl fun slot hge _ _ _ => ?_, fun n hn => by cases hn⟩
    exact Nat.lt_of_lt_of_le (by decide) hge
  · refine ⟨Or.inl fun slot hge _ _ _ => ?_, fun n hn => by cases hn⟩
    exact Nat.lt_of_lt_of_le (by decide) hge

end SolanaBlockLoader

end RomeSdk
