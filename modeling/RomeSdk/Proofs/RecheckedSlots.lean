import RomeSdk.Proofs.FailedRecheck

/-!
# What a recheck leaves in the storage

A recheck that ends well leaves a slot alone or stores the block the node has at
it now. It leaves a slot alone in two cases that are told apart nowhere: the
block is the one that was handed over, or the node answers that there is none.
So a block that was dropped from the chain stays in the storage as a finalized
one, and no reorg event is sent for it.

The chain is the finalized one, `chain`; of the node it is assumed that a block it
shows is a block of this chain. The storage is any one in which a successful
update stores what it is given and nothing else (`UpdatesFinalized`).
-/

namespace RomeSdk

namespace SolanaBlockLoader

/-! ## What the loop over the results collects -/

/-- The slot and its new block. -/
def changed (r : Slot × ProgramResult (Option UiConfirmedBlock)) : Option (Slot × UiConfirmedBlock) :=
  match r.2 with
  | .ok (some block) => some (r.1, block)
  | _ => none

theorem updatedBlocks_ok (results : List (Slot × ProgramResult (Option UiConfirmedBlock))) :
    ∀ {updated blocks : BTreeMap Slot UiConfirmedBlock}, updatedBlocks results updated = .ok blocks →
      blocks = updated.insertAll (results.filterMap changed) ∧
        ∀ r ∈ results, ∃ a, r.2 = .ok a := by
  induction results with
  | nil =>
      intro updated blocks h
      cases h
      exact ⟨rfl, fun r hr => (by cases hr)⟩
  | cons r results ih =>
      intro updated blocks h
      obtain ⟨slot, r⟩ := r
      match r with
      | .error e => cases h
      | .ok none =>
          obtain ⟨hblocks, hok⟩ := ih h
          refine ⟨hblocks, ?_⟩
          intro r hr
          rcases List.mem_cons.mp hr with rfl | hr
          · exact ⟨none, rfl⟩
          · exact hok r hr
      | .ok (some block) =>
          obtain ⟨hblocks, hok⟩ := ih h
          refine ⟨hblocks, ?_⟩
          intro r hr
          rcases List.mem_cons.mp hr with rfl | hr
          · exact ⟨some block, rfl⟩
          · exact hok r hr

theorem rechecks_keys {A : NodeAnswers} {blocks : BTreeMap Slot UiConfirmedBlock}
    {results : List (Slot × ProgramResult (Option UiConfirmedBlock))}
    (h : rechecks A blocks = .ok results) : results.map Prod.fst = blocks.toList.map Prod.fst := by
  have hall := congrArg (List.map Prod.fst) (rechecks_ok h)
  rw [List.map_map, List.map_map] at hall
  exact hall

theorem changed_eq_some {r : Slot × ProgramResult (Option UiConfirmedBlock)}
    {p : Slot × UiConfirmedBlock} (h : changed r = some p) :
    p.1 = r.1 ∧ r.2 = .ok (some p.2) := by
  rw [changed] at h
  split at h
  · next block hblock =>
      cases h
      exact ⟨rfl, hblock⟩
  · cases h

section

variable {results : List (Slot × ProgramResult (Option UiConfirmedBlock))}
  {blocks updated : BTreeMap Slot UiConfirmedBlock}

/-- Where each slot is checked once, its new block is the one of its result. -/
theorem updatedBlocks_get? (h : updatedBlocks results ∅ = .ok updated)
    (hkeys : (results.map Prod.fst).Nodup) (slot : Slot) (block : UiConfirmedBlock) :
    updated[slot]? = some block ↔ (slot, .ok (some block)) ∈ results := by
  have hnodup : ((results.filterMap changed).map Prod.fst).Nodup := by
    rw [List.nodup_iff_pairwise_ne, List.pairwise_map, List.pairwise_filterMap]
    refine (List.pairwise_map.mp (List.nodup_iff_pairwise_ne.mp hkeys)).imp ?_
    intro r r' hne p hp p' hp' heq
    rw [(changed_eq_some hp).1, (changed_eq_some hp').1] at heq
    exact hne heq
  rw [(updatedBlocks_ok results h).1, BTreeMap.get?_insertAll _ hnodup,
    Std.ExtTreeMap.getElem?_empty]
  simp only [List.mem_filterMap, reduceCtorEq, and_false, or_false]
  constructor
  · intro ⟨r, hr, hrp⟩
    obtain ⟨hslot, hblock⟩ := changed_eq_some hrp
    have heq : r = (slot, .ok (some block)) := Prod.ext hslot.symm hblock
    rwa [← heq]
  · intro hmem
    exact ⟨_, hmem, rfl⟩

theorem mem_updatedBlocks (h : updatedBlocks results ∅ = .ok updated) {slot : Slot}
    (hslot : slot ∈ updated) : slot ∈ results.map Prod.fst := by
  rw [(updatedBlocks_ok results h).1, BTreeMap.mem_keys_insertAll] at hslot
  obtain ⟨p, hp, rfl⟩ := List.mem_map.mp (hslot.resolve_right Std.ExtTreeMap.not_mem_empty)
  obtain ⟨r, hr, hrp⟩ := List.mem_filterMap.mp hp
  exact List.mem_map.mpr ⟨r, hr, (changed_eq_some hrp).1.symm⟩

/-- A call that ends well has an answer for every recheck, and the new blocks are
those of the slots whose answer is a block. -/
theorem updated_spec {A : NodeAnswers} (hresults : rechecks A blocks = .ok results)
    (h : updatedBlocks results ∅ = .ok updated) :
    (∀ (slot : Slot) (block : UiConfirmedBlock), blocks[slot]? = some block →
      A.recheck slot block = .ok updated[slot]?) ∧
    ∀ slot ∈ updated, slot ∈ blocks := by
  have hkeys : (results.map Prod.fst).Nodup := by
    rw [rechecks_keys hresults]
    exact BTreeMap.keys_nodup blocks
  have hget := updatedBlocks_get? h hkeys
  constructor
  · intro slot block hblock
    have hmem : (slot, A.recheck slot block) ∈
        results.map (Prod.map id ProgramResult.toOutcome) := by
      rw [rechecks_ok hresults]
      exact List.mem_map.mpr ⟨_, (BTreeMap.mem_toList _ _ _).mpr hblock, rfl⟩
    obtain ⟨r, hr, heq⟩ := List.mem_map.mp hmem
    obtain ⟨a, ha⟩ := (updatedBlocks_ok results h).2 r hr
    have hanswer : A.recheck slot block = .ok a := by
      have hsnd := congrArg Prod.snd heq
      rw [Prod.map_snd, ha] at hsnd
      exact hsnd.symm
    have hslot : r.1 = slot := congrArg Prod.fst heq
    have hresult : (slot, .ok a) ∈ results := by
      have heq' : r = (slot, .ok a) := Prod.ext hslot ha
      rwa [← heq']
    rw [hanswer]
    cases hupd : updated[slot]? with
    | some new =>
        -- the slot is there once
        have hsame := List.inj_on_of_nodup_map hkeys ((hget slot new).mp hupd) hresult rfl
        rw [Prod.mk.injEq] at hsame
        exact congrArg Except.ok (Except.ok.inj hsame.2).symm
    | none =>
        cases a with
        | none => rfl
        | some new =>
            rw [(hget slot new).mpr hresult] at hupd
            cases hupd
  · intro slot hslot
    have hkey := mem_updatedBlocks h hslot
    rw [rechecks_keys hresults, Std.ExtTreeMap.map_fst_toList_eq_keys,
      Std.ExtTreeMap.mem_keys] at hkey
    exact hkey

end

theorem firstSlot_eq_some {blocks : BTreeMap Slot UiConfirmedBlock} {slot : Slot}
    (h : firstSlot blocks = some slot) : slot ∈ blocks ∧ ∀ s ∈ blocks, slot ≤ s := by
  have hasc := BTreeMap.toList_ascending blocks
  have hmem : ∀ s, s ∈ blocks ↔ s ∈ blocks.toList.map Prod.fst := by
    intro s
    rw [Std.ExtTreeMap.map_fst_toList_eq_keys, Std.ExtTreeMap.mem_keys]
  simp only [hmem]
  rw [firstSlot] at h
  cases hl : blocks.toList with
  | nil =>
      rw [hl] at h
      cases h
  | cons e l =>
      rw [hl] at h hasc
      cases h
      refine ⟨List.mem_map.mpr ⟨e, List.mem_cons_self .., rfl⟩, ?_⟩
      intro s hs
      obtain ⟨e', he', rfl⟩ := List.mem_map.mp hs
      rcases List.mem_cons.mp he' with rfl | he'
      · exact Nat.le_refl _
      · exact Nat.le_of_lt (List.rel_of_pairwise_cons hasc he')

theorem firstSlot_eq_none {blocks : BTreeMap Slot UiConfirmedBlock}
    (h : firstSlot blocks = none) (slot : Slot) : slot ∉ blocks := by
  rw [firstSlot, Option.map_eq_none_iff, List.head?_eq_none_iff] at h
  rw [← Std.ExtTreeMap.mem_keys, ← Std.ExtTreeMap.map_fst_toList_eq_keys, h]
  exact List.not_mem_nil

/-! ## The storage and the chain -/

section

variable {σ : Type} {X : Crates} {L : SolanaBlockLoader σ} {A : NodeAnswers}
  {chain : Slot → Option UiConfirmedBlock} {read : σ → Db UiConfirmedBlock} {sent : σ → List Slot}

/-- The slot is stored with this block, as a finalized one. -/
def FinalizedAs (db : Db UiConfirmedBlock) (slot : Slot) (block : UiConfirmedBlock) : Prop :=
  (∃ row, db.solSlot.lookup slot = some row ∧ row.status = .finalized ∧
    row.parentSlot = block.parentSlot ∧ row.blockhash = some block.blockhash) ∧
  db.solBlock.lookup slot = some block

/-- The slot is stored with this blockhash. -/
def StoredWith (db : Db UiConfirmedBlock) (slot : Slot) (blockhash : String) : Prop :=
  (∃ row, db.solSlot.lookup slot = some row ∧ row.blockhash = some blockhash) ∧
  ∃ block, db.solBlock.lookup slot = some block ∧ block.blockhash = blockhash

theorem FinalizedAs.storedWith {db : Db UiConfirmedBlock} {slot : Slot} {block : UiConfirmedBlock}
    (h : FinalizedAs db slot block) : StoredWith db slot block.blockhash := by
  obtain ⟨⟨row, hrow, _, _, hhash⟩, hblock⟩ := h
  exact ⟨⟨row, hrow, hhash⟩, block, hblock, rfl⟩

/-- An update that ends well stores what it is given and nothing else. -/
def UpdatesFinalized (S : LoadingStorage σ) (read : σ → Db UiConfirmedBlock)
    (sent : σ → List Slot) : Prop :=
  ∀ blocks s t, S.updateFinalizedBlocks blocks s = .ok () t → sent t = sent s ∧
    (∀ (slot : Slot) (block : UiConfirmedBlock), blocks[slot]? = some block →
      FinalizedAs (read t) slot block) ∧
    (∀ slot : Slot, slot ∉ blocks →
      (read t).solSlot.lookup slot = (read s).solSlot.lookup slot ∧
      (read t).solBlock.lookup slot = (read s).solBlock.lookup slot)

/-- A reorg event is counted as sent also when nobody is there to receive it. -/
def Sends (reorgEventTx : ReorgSender σ) (read : σ → Db UiConfirmedBlock) (sent : σ → List Slot) :
    Prop :=
  ∀ slot s, ∃ r t, (reorgEventTx slot).attempt s = .ok r t ∧ read t = read s ∧
    sent t = sent s ++ [slot]

/-- A block the node shows is one of the finalized chain. -/
structure Truthful (A : NodeAnswers) (chain : Slot → Option UiConfirmedBlock) : Prop where
  header : ∀ slot b, A.header slot = .ok (some b) →
    ∃ c, chain slot = some c ∧ c.blockhash = b.blockhash
  reload : ∀ slot b, A.reload slot = .ok (some b) →
    ∃ c, chain slot = some c ∧ c.blockhash = b.blockhash

/-- A block that is handed over is the one that is stored, if there is one. -/
def HandsStored (db : Db UiConfirmedBlock) (blocks : BTreeMap Slot UiConfirmedBlock) : Prop :=
  ∀ (slot : Slot) (block stored : UiConfirmedBlock), blocks[slot]? = some block →
    db.solBlock.lookup slot = some stored → stored = block

/-- The slot is stored as the chain has it; off the chain, not as a finalized one. -/
def Right (chain : Slot → Option UiConfirmedBlock) (db : Db UiConfirmedBlock) (slot : Slot) : Prop :=
  match chain slot with
  | some c => StoredWith db slot c.blockhash
  | none => ¬ PgStorage.Finalized db slot

/-- What is asked of the call: every examined slot is right afterwards, and if one
was not so before, the event for the lowest of these was sent. -/
structure MatchesChain (chain : Slot → Option UiConfirmedBlock)
    (blocks : BTreeMap Slot UiConfirmedBlock) (read : σ → Db UiConfirmedBlock)
    (sent : σ → List Slot) (s t : σ) : Prop where
  onChain : ∀ slot ∈ blocks, ∀ c, chain slot = some c → StoredWith (read t) slot c.blockhash
  offChain : ∀ slot ∈ blocks, chain slot = none → ¬ PgStorage.Finalized (read t) slot
  event : ∀ slot ∈ blocks, ¬ Right chain (read s) slot →
    (∀ slot' ∈ blocks, ¬ Right chain (read s) slot' → slot ≤ slot') →
    ∃ later, sent t = sent s ++ later ∧ slot ∈ later

/-- The node answers that there is no block, or shows the one that was handed over. -/
def LeavesAlone (A : NodeAnswers) (slot : Slot) (block : UiConfirmedBlock) : Prop :=
  A.header slot = .ok none ∨ ∃ b, A.header slot = .ok (some b) ∧
    (b.blockhash = block.blockhash ∨ A.reload slot = .ok none)

theorem recheck_none_iff {slot : Slot} {block : UiConfirmedBlock} :
    A.recheck slot block = .ok none ↔ LeavesAlone A slot block := by
  rw [NodeAnswers.recheck, LeavesAlone]
  cases A.header slot with
  | error e => cases e <;> simp
  | ok header =>
      cases header with
      | none => simp
      | some b =>
          by_cases hsame : b.blockhash = block.blockhash
          · simp [hsame]
          · simp [hsame]

/-- A slot that is reloaded was not stored as the chain has it. -/
theorem not_right_of_reloaded (htrue : Truthful A chain) {db : Db UiConfirmedBlock}
    {blocks : BTreeMap Slot UiConfirmedBlock} (hhanded : HandsStored db blocks) {slot : Slot}
    {block new : UiConfirmedBlock} (hblock : blocks[slot]? = some block)
    (h : A.recheck slot block = .ok (some new)) :
    ¬ Right chain db slot ∧ ∃ c, chain slot = some c ∧ c.blockhash = new.blockhash := by
  rw [NodeAnswers.recheck] at h
  split at h
  · next b hheader =>
      split at h
      · next hne =>
          obtain ⟨c, hc, hhash⟩ := htrue.header slot b hheader
          obtain ⟨c', hc', hhash'⟩ := htrue.reload slot new h
          refine ⟨?_, c', hc', hhash'⟩
          rw [Right, hc]
          intro hstored
          obtain ⟨_, stored, hlookup, hstoredHash⟩ := hstored
          rw [hhanded slot block stored hblock hlookup, hhash] at hstoredHash
          exact hne hstoredHash.symm
      · cases h
  · cases h
  · cases h
  · cases h

/-- How a call that ends well went. -/
theorem recheckFinalizedBlocks_ok (hA : Answering X L A)
    (hS : UpdatesFinalized L.solanaBlockStorage read sent) {reorgEventTx : ReorgSender σ}
    (htx : Sends reorgEventTx read sent) {blocks : BTreeMap Slot UiConfirmedBlock} {s t : σ}
    (h : L.recheckFinalizedBlocks X blocks reorgEventTx s = .ok () t) :
    ∃ updated : BTreeMap Slot UiConfirmedBlock,
      (∀ (slot : Slot) (block : UiConfirmedBlock), blocks[slot]? = some block →
        A.recheck slot block = .ok updated[slot]?) ∧
      (∀ slot ∈ updated, slot ∈ blocks) ∧
      sent t = sent s ++ (firstSlot updated).toList ∧
      (∀ (slot : Slot) (block : UiConfirmedBlock), updated[slot]? = some block →
        FinalizedAs (read t) slot block) ∧
      (∀ slot : Slot, slot ∉ updated →
        (read t).solSlot.lookup slot = (read s).solSlot.lookup slot ∧
        (read t).solBlock.lookup slot = (read s).solBlock.lookup slot) := by
  rw [recheckFinalizedBlocks_eq hA] at h
  obtain ⟨results, u₁, hresults, hrest⟩ := EStateM.bind_ok h
  obtain ⟨updated, u₂, hupdated, hrest⟩ := EStateM.bind_ok hrest
  obtain ⟨_, u₃, hupdate, hlast⟩ := EStateM.bind_ok hrest
  have hrechecks : rechecks A blocks = .ok results ∧ u₁ = s := by
    cases hr : rechecks A blocks with
    | error e =>
        rw [hr] at hresults
        cases hresults
    | ok rs =>
        rw [hr] at hresults
        cases hresults
        exact ⟨rfl, rfl⟩
  have hcollected : updatedBlocks results ∅ = .ok updated ∧ u₂ = u₁ := by
    cases hr : updatedBlocks results ∅ with
    | error e =>
        rw [hr] at hupdated
        cases hupdated
    | ok rs =>
        rw [hr] at hupdated
        cases hupdated
        exact ⟨rfl, rfl⟩
  obtain ⟨hrechecks, rfl⟩ := hrechecks
  obtain ⟨hcollected, rfl⟩ := hcollected
  obtain ⟨hanswers, hsub⟩ := updated_spec hrechecks hcollected
  obtain ⟨hsent, hin, hout⟩ := hS updated u₂ u₃ hupdate
  have hsend : sent t = sent u₃ ++ (firstSlot updated).toList ∧ read t = read u₃ := by
    cases hfirst : firstSlot updated with
    | none =>
        rw [hfirst] at hlast
        cases hlast
        exact ⟨(List.append_nil _).symm, rfl⟩
    | some slot =>
        rw [hfirst] at hlast
        obtain ⟨r, t', hattempt, hread, hsent'⟩ := htx slot u₃
        simp only [sendReorg, bind, EStateM.bind, hattempt] at hlast
        cases hlast
        exact ⟨hsent', hread⟩
  rw [hsent] at hsend
  rw [hsend.2]
  exact ⟨updated, hanswers, hsub, hsend.1, hin, hout⟩

theorem right_congr {db db' : Db UiConfirmedBlock} {slot : Slot}
    (hslot : db'.solSlot.lookup slot = db.solSlot.lookup slot)
    (hblock : db'.solBlock.lookup slot = db.solBlock.lookup slot) :
    Right chain db' slot ↔ Right chain db slot := by
  simp only [Right, StoredWith, PgStorage.Finalized, hslot, hblock]

theorem right_iff {db : Db UiConfirmedBlock} {slot : Slot} : Right chain db slot ↔
    (∀ c, chain slot = some c → StoredWith db slot c.blockhash) ∧
    (chain slot = none → ¬ PgStorage.Finalized db slot) := by
  rw [Right]
  cases chain slot <;> simp

/-- The call does what is asked of it exactly when every examined slot it leaves
alone is right already. -/
theorem recheck_finalized_blocks_matches_iff (hA : Answering X L A) (htrue : Truthful A chain)
    (hS : UpdatesFinalized L.solanaBlockStorage read sent) {reorgEventTx : ReorgSender σ}
    (htx : Sends reorgEventTx read sent) {blocks : BTreeMap Slot UiConfirmedBlock} {s t : σ}
    (hhanded : HandsStored (read s) blocks)
    (h : L.recheckFinalizedBlocks X blocks reorgEventTx s = .ok () t) :
    MatchesChain chain blocks read sent s t ↔
      ∀ (slot : Slot) (block : UiConfirmedBlock), blocks[slot]? = some block →
        LeavesAlone A slot block → Right chain (read s) slot := by
  obtain ⟨updated, hanswers, hsub, hsent, hin, hout⟩ := recheckFinalizedBlocks_ok hA hS htx h
  have hblockOf : ∀ slot ∈ blocks, ∃ block, blocks[slot]? = some block := fun slot hslot =>
    Option.isSome_iff_exists.mp (Std.ExtTreeMap.mem_iff_isSome_getElem?.mp hslot)
  have hmem : ∀ slot, slot ∈ updated ↔ ∃ new, updated[slot]? = some new := fun slot => by
    rw [Std.ExtTreeMap.mem_iff_isSome_getElem?, Option.isSome_iff_exists]
  -- what is reloaded was wrong before and is right now
  have hreloaded : ∀ slot ∈ updated, ¬ Right chain (read s) slot ∧ Right chain (read t) slot := by
    intro slot hslot
    obtain ⟨new, hnew⟩ := (hmem slot).mp hslot
    obtain ⟨block, hblock⟩ := hblockOf slot (hsub slot hslot)
    have hrecheck := hanswers slot block hblock
    rw [hnew] at hrecheck
    obtain ⟨hwrong, c, hc, hhash⟩ := not_right_of_reloaded htrue hhanded hblock hrecheck
    refine ⟨hwrong, ?_⟩
    rw [Right, hc]
    show StoredWith (read t) slot c.blockhash
    rw [hhash]
    exact (hin slot new hnew).storedWith
  have hkept : ∀ slot, slot ∉ updated → (Right chain (read t) slot ↔ Right chain (read s) slot) :=
    fun slot hslot => right_congr (hout slot hslot).1 (hout slot hslot).2
  constructor
  · intro hmatches slot block hblock halone
    have hslot : slot ∈ blocks := by
      rw [Std.ExtTreeMap.mem_iff_isSome_getElem?, hblock]
      rfl
    have hnot : slot ∉ updated := by
      intro hupd
      obtain ⟨new, hnew⟩ := (hmem slot).mp hupd
      have hrecheck := hanswers slot block hblock
      rw [hnew, recheck_none_iff.mpr halone] at hrecheck
      cases hrecheck
    rw [← hkept slot hnot]
    exact right_iff.mpr ⟨hmatches.onChain slot hslot, hmatches.offChain slot hslot⟩
  · intro hright
    have hafter : ∀ slot ∈ blocks, Right chain (read t) slot := by
      intro slot hslot
      by_cases hupd : slot ∈ updated
      · exact (hreloaded slot hupd).2
      · obtain ⟨block, hblock⟩ := hblockOf slot hslot
        have hnone : updated[slot]? = none := Std.ExtTreeMap.getElem?_eq_none hupd
        have hrecheck := hanswers slot block hblock
        rw [hnone] at hrecheck
        exact (hkept slot hupd).mpr (hright slot block hblock (recheck_none_iff.mp hrecheck))
    -- so the slots that were wrong are those that were reloaded
    have hwrong : ∀ slot ∈ blocks, ¬ Right chain (read s) slot → slot ∈ updated := by
      intro slot hslot hnot
      by_contra hupd
      exact hnot ((hkept slot hupd).mp (hafter slot hslot))
    refine ⟨fun slot hslot => (right_iff.mp (hafter slot hslot)).1,
      fun slot hslot => (right_iff.mp (hafter slot hslot)).2, ?_⟩
    intro slot hslot hnot hleast
    have hupd := hwrong slot hslot hnot
    cases hfirst : firstSlot updated with
    | none => exact absurd hupd (firstSlot_eq_none hfirst slot)
    | some first =>
        obtain ⟨hfirstMem, hfirstLeast⟩ := firstSlot_eq_some hfirst
        have hle := hleast first (hsub first hfirstMem) (hreloaded first hfirstMem).1
        have hge := hfirstLeast slot hupd
        have heq : slot = first := Nat.le_antisymm hle hge
        rw [heq]
        rw [hfirst] at hsent
        exact ⟨[first], hsent, List.mem_singleton_self _⟩

end

/-! ## A block that was dropped -/

/-- A database with the channel of reorg events beside it. -/
abbrev Channel := Server UiConfirmedBlock × List Slot

def queueEvent {σ : Type} : ReorgSender (σ × List Slot) :=
  fun slot s => .ok () (s.1, s.2 ++ [slot])

/-- The storage updates nothing at all. -/
theorem updatesFinalized_pg : UpdatesFinalized
    (PgStorage.solanaBlockStorage (σ := Channel) Server.pool.beside) (fun s => s.1.db) Prod.snd := by
  intro blocks s t h
  simp only [PgStorage.solanaBlockStorage, Pool.transaction, Pool.beside, Server.pool, bind,
    EStateM.bind] at h
  cases hfault : s.1.fault 0 with
  | some e =>
      simp only [Server.get, hfault] at h
      cases h
  | none =>
      simp only [Server.get, hfault, EStateM.get_apply, PgStorage.updateFinalizedBlocks] at h
      cases hl : blocks.toList with
      | cons e l =>
          rw [hl] at h
          cases h
      | nil =>
          rw [hl] at h
          cases h
          refine ⟨rfl, ?_, fun slot _ => ⟨rfl, rfl⟩⟩
          intro slot block hblock
          rw [← BTreeMap.mem_toList, hl] at hblock
          cases hblock

theorem sends_queueEvent : Sends (queueEvent (σ := Server UiConfirmedBlock)) (fun s => s.1.db)
    Prod.snd :=
  fun slot s => ⟨.ok (), (s.1, s.2 ++ [slot]), rfl, rfl, rfl⟩

/-- The answer for a slot without a block. -/
def skippedSlot : Outcome (Option RpcBlock) :=
  processPlexResult (.error (.rpcResponseError (-32007)
    "Slot 7 was skipped, or missing due to ledger jump to recent snapshot"))

def skippedLoader : SolanaBlockLoader Channel :=
  tableLoader (PgStorage.solanaBlockStorage Server.pool.beside) (fun _ => skippedSlot)
    (fun _ => .ok none) (fun _ => 7)

def skippedAnswers : NodeAnswers := ⟨fun _ => skippedSlot, fun _ => .ok none⟩

/-- Slot 7 is finalized; its block is not on the chain. -/
def droppedWorld : Channel :=
  (⟨PgStorage.setBlockWithStatus2 7 confirmedBlock .finalized 0 Db.empty, []⟩, [])

def droppedBlocks : BTreeMap Slot UiConfirmedBlock :=
  (∅ : BTreeMap Slot UiConfirmedBlock).insert 7 confirmedBlock

theorem skippedLoader_ends :
    skippedLoader.recheckFinalizedBlocks standIns droppedBlocks queueEvent droppedWorld
      = .ok () droppedWorld := by
  rfl

/-- The block stays finalized, and no event is sent. -/
theorem dropped_block_stays :
    skippedLoader.recheckFinalizedBlocks standIns droppedBlocks queueEvent droppedWorld
        = .ok () droppedWorld ∧
      ¬ MatchesChain (fun _ => none) droppedBlocks (fun s : Channel => s.1.db) Prod.snd
        droppedWorld droppedWorld := by
  refine ⟨skippedLoader_ends, fun hmatches => ?_⟩
  refine hmatches.offChain 7 (by decide) rfl ?_
  exact ⟨⟨6, .finalized, some "stored", some 0⟩, rfl, rfl⟩

theorem recheck_finalized_blocks_matches_skipped :
    MatchesChain (fun _ => none) droppedBlocks (fun s : Channel => s.1.db) Prod.snd
        droppedWorld droppedWorld ↔
      ∀ (slot : Slot) (block : UiConfirmedBlock), droppedBlocks[slot]? = some block →
        LeavesAlone skippedAnswers slot block → Right (fun _ => none) droppedWorld.1.db slot := by
  refine recheck_finalized_blocks_matches_iff (answering_tableLoader _ _ _ _ _)
    ⟨fun slot b h => (by cases h), fun slot b h => (by cases h)⟩ updatesFinalized_pg sends_queueEvent
    ?_ skippedLoader_ends
  intro slot block stored hblock hstored
  rw [droppedBlocks, BTreeMap.get?_insert] at hblock
  split at hblock
  · next h =>
      cases hblock
      subst h
      cases hstored
      rfl
  · simp at hblock

end SolanaBlockLoader

end RomeSdk
