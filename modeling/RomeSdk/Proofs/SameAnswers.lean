import RomeSdk.Proofs.DistinctDeposits
import RomeSdk.Proofs.Registration

/-!
# Parsers that answer the same

What a parser holds is what it answers for a hash and for a slot, hash and index,
once it keeps no empty entry (`Tight`); parsers with the same content differ at most in
the order of their hash maps (`Same.of_reads`). That order shows in one place only:
where several transactions of a slot cannot be finalized, it picks the one that is named
in the error. Of the indices only their order counts: with the results at other indices
that ascend alike (`Renamed`), the slot is complete just as before and what is returned of
it is the same.
-/

namespace RomeSdk

namespace DefaultTxParser

variable {p q : DefaultTxParser} {slot : Slot}

/-! ## The content of a parser -/

/-- No slot and no hash is listed without a result. -/
def Tight (p : DefaultTxParser) : Prop :=
  ∀ (slot : Slot) slotTxs, p.resultsBySlot[slot]? = some slotTxs →
    (∃ hash results, slotTxs.lookup hash = some results) ∧
    ∀ hash results, slotTxs.lookup hash = some results → ∃ (i : Nat) (r : Option TxResult),
      results[i]? = some r

theorem resultAt_eq_some {hash : TxHash} {i : Nat} {r : Option TxResult} :
    p.resultAt slot hash i = some r ↔ ∃ slotTxs results, p.resultsBySlot[slot]? = some slotTxs ∧
      slotTxs.lookup hash = some results ∧ results[i]? = some r := by
  simp only [resultAt, Option.bind_eq_some_iff]
  constructor
  · intro h
    obtain ⟨slotTxs, hslot, results, hlookup, hr⟩ := h
    exact ⟨slotTxs, results, hslot, hlookup, hr⟩
  · intro h
    obtain ⟨slotTxs, results, hslot, hlookup, hr⟩ := h
    exact ⟨slotTxs, hslot, results, hlookup, hr⟩

theorem Tight.exists_result (h : Tight p) {slotTxs : SlotResults}
    (hslot : p.resultsBySlot[slot]? = some slotTxs) :
    ∃ hash i r, p.resultAt slot hash i = some r := by
  obtain ⟨⟨hash, results, hlookup⟩, hresults⟩ := h slot slotTxs hslot
  obtain ⟨i, r, hr⟩ := hresults hash results hlookup
  exact ⟨hash, i, r, resultAt_eq_some.mpr ⟨slotTxs, results, hslot, hlookup, hr⟩⟩

theorem Tight.lookup_eq (hp : Tight p) (hq : Tight q)
    (h : ∀ hash i, p.resultAt slot hash i = q.resultAt slot hash i) {slotTxs slotTxs' : SlotResults}
    (hslot : p.resultsBySlot[slot]? = some slotTxs)
    (hslot' : q.resultsBySlot[slot]? = some slotTxs') (hash : TxHash) :
    slotTxs.lookup hash = slotTxs'.lookup hash := by
  cases hlookup : slotTxs.lookup hash with
  | none =>
      cases hlookup' : slotTxs'.lookup hash with
      | none => rfl
      | some results' =>
          obtain ⟨i, r, hr⟩ := (hq slot slotTxs' hslot').2 hash results' hlookup'
          have hat := h hash i
          rw [resultAt_eq_some.mpr ⟨_, _, hslot', hlookup', hr⟩] at hat
          obtain ⟨_, results, hsame, hfound, _⟩ := resultAt_eq_some.mp hat
          rw [hslot] at hsame
          cases hsame
          rw [hlookup] at hfound
          cases hfound
  | some results =>
      obtain ⟨i, r, hr⟩ := (hp slot slotTxs hslot).2 hash results hlookup
      have hat := h hash i
      rw [resultAt_eq_some.mpr ⟨_, _, hslot, hlookup, hr⟩] at hat
      obtain ⟨_, results', hsame, hlookup', _⟩ := resultAt_eq_some.mp hat.symm
      rw [hslot'] at hsame
      cases hsame
      rw [hlookup']
      refine congrArg some (Std.ExtTreeMap.ext_getElem? fun {i} => ?_)
      rw [← resultAt_of_lookup hslot hlookup, ← resultAt_of_lookup hslot' hlookup', h]

/-- Parsers of the same content differ in nothing but the order of their hash maps. -/
theorem Same.of_reads (hp : Tight p) (hq : Tight q) (hrecord : ∀ hash, p.record hash = q.record hash)
    (h : ∀ slot hash i, p.resultAt slot hash i = q.resultAt slot hash i) : p.Same q := by
  refine ⟨HashMap.same_of_lookup hrecord, fun slot => ?_⟩
  cases hslot : p.resultsBySlot[slot]? with
  | none =>
      cases hslot' : q.resultsBySlot[slot]? with
      | none => exact .none
      | some slotTxs' =>
          obtain ⟨hash, i, r, hr⟩ := hq.exists_result hslot'
          obtain ⟨_, _, hlisted, _⟩ := resultAt_eq_some.mp ((h slot hash i).trans hr)
          rw [hslot] at hlisted
          cases hlisted
  | some slotTxs =>
      cases hslot' : q.resultsBySlot[slot]? with
      | none =>
          obtain ⟨hash, i, r, hr⟩ := hp.exists_result hslot
          obtain ⟨_, _, hlisted, _⟩ := resultAt_eq_some.mp ((h slot hash i).symm.trans hr)
          rw [hslot'] at hlisted
          cases hlisted
      | some slotTxs' =>
          exact .some (HashMap.same_of_lookup (hp.lookup_eq hq (h slot) hslot hslot'))

/-! ## Whether a slot is complete -/

/-- The parser has a record of every transaction executed in the slot. -/
def Recorded (p : DefaultTxParser) (slot : Slot) : Prop :=
  ∀ hash i r, p.resultAt slot hash i = some (some r) → ∃ tx, p.record hash = some tx

theorem txComplete_returns {hash : TxHash} (l : List (Option TxResult)) :
    (∀ r, some r ∈ l → ∃ tx, p.record hash = some tx) →
      ∀ slotComplete, ∃ answer, p.txComplete hash l slotComplete = .ok answer := by
  induction l with
  | nil =>
      intro _ slotComplete
      exact ⟨slotComplete, rfl⟩
  | cons o l ih =>
      intro h slotComplete
      have hrest := ih fun r hr => h r (List.mem_cons_of_mem _ hr)
      cases o with
      | none => exact hrest slotComplete
      | some r =>
          obtain ⟨tx, hrec⟩ := h r (List.mem_cons_self ..)
          rw [txComplete, hrec]
          exact hrest _

theorem txsComplete_returns (l : List (Sigma fun _ : TxHash => TxResults)) :
    (∀ e ∈ l, ∀ slotComplete, ∃ answer,
      p.txComplete e.1 (e.2.toList.map Prod.snd) slotComplete = .ok answer) →
    ∃ answer, p.txsComplete l = .ok answer := by
  induction l with
  | nil => exact fun _ => ⟨true, rfl⟩
  | cons e l ih =>
      intro h
      obtain ⟨answer, hanswer⟩ := h e (List.mem_cons_self ..) true
      rw [txsComplete, hanswer]
      cases answer with
      | false => exact ⟨false, rfl⟩
      | true => exact ih fun e' he' => h e' (List.mem_cons_of_mem _ he')

theorem isSlotComplete_returns (h : p.Recorded slot) :
    ∃ answer, p.isSlotComplete slot = .ok answer := by
  rw [isSlotComplete]
  cases hslot : p.resultsBySlot[slot]? with
  | none => exact ⟨true, rfl⟩
  | some slotTxs =>
      refine txsComplete_returns _ fun e he slotComplete => ?_
      refine txComplete_returns _ (fun r hr => ?_) slotComplete
      obtain ⟨⟨i, o⟩, hi, rfl⟩ := List.mem_map.mp hr
      refine h e.1 i r (resultAt_eq_some.mpr ⟨slotTxs, e.2, hslot, ?_, ?_⟩)
      · exact (HashMap.mem_entries slotTxs e.1 e.2).mp he
      · exact (BTreeMap.mem_toList e.2 i _).mp hi

/-! ## Renamed indices -/

/-- `q` has the results of `p` at indices that ascend as those of `p` do. -/
structure Renamed (f : Nat → Nat) (p q : DefaultTxParser) (slot : Slot) : Prop where
  ascending : ∀ i j, i < j → f i < f j
  results : ∀ hash j r, q.resultAt slot hash j = some r ↔
    ∃ i, f i = j ∧ p.resultAt slot hash i = some r

theorem Renamed.of_eq (h : ∀ hash i, p.resultAt slot hash i = q.resultAt slot hash i) :
    Renamed id p q slot where
  ascending _ _ hij := hij
  results hash j r := by
    rw [← h]
    simp

namespace Renamed

variable {f : Nat → Nat} {X : Crates}

theorem le_iff (h : Renamed f p q slot) {i j : Nat} : f i ≤ f j ↔ i ≤ j := by
  constructor
  · intro hle
    by_contra hlt
    have := h.ascending j i (by omega)
    omega
  · intro hle
    rcases Nat.eq_or_lt_of_le hle with rfl | hlt
    · exact Nat.le_refl _
    · exact Nat.le_of_lt (h.ascending i j hlt)

theorem injective (h : Renamed f p q slot) {i j : Nat} (heq : f i = f j) : i = j :=
  Nat.le_antisymm (h.le_iff.mp (Nat.le_of_eq heq)) (h.le_iff.mp (Nat.le_of_eq heq.symm))

theorem executed_iff (h : Renamed f p q slot) {hash : TxHash} {j : Nat} {r : TxResult} :
    Executed q slot hash j r ↔ ∃ i, f i = j ∧ Executed p slot hash i r := by
  constructor
  · intro hexec
    obtain ⟨i, rfl, hr⟩ := (h.results hash j _).mp hexec.result
    refine ⟨i, rfl, hr, fun k s hk => ?_⟩
    exact h.le_iff.mp (hexec.first (f k) s ((h.results hash _ _).mpr ⟨k, rfl, hk⟩))
  · rintro ⟨i, rfl, hexec⟩
    refine ⟨(h.results hash _ _).mpr ⟨i, rfl, hexec.result⟩, fun j s hj => ?_⟩
    obtain ⟨k, rfl, hk⟩ := (h.results hash j _).mp hj
    exact h.le_iff.mpr (hexec.first k s hk)

section

variable (h : Renamed f p q slot) (hrecord : ∀ hash, p.record hash = q.record hash)

include h hrecord

/-- What holds of every transaction executed in the slot holds of both. -/
theorem forall_executed {P : TxHash → Option EvmTx → Prop} :
    (∀ hash j r, q.resultAt slot hash j = some (some r) → P hash (q.record hash)) ↔
      ∀ hash i r, p.resultAt slot hash i = some (some r) → P hash (p.record hash) := by
  constructor
  · intro hall hash i r hr
    rw [hrecord]
    exact hall hash (f i) r ((h.results hash _ _).mpr ⟨i, rfl, hr⟩)
  · intro hall hash j r hr
    obtain ⟨i, _, hr⟩ := (h.results hash j _).mp hr
    rw [← hrecord]
    exact hall hash i r hr

theorem isSlotComplete_eq (hp : p.Recorded slot) :
    q.isSlotComplete slot = p.isSlotComplete slot := by
  have hq : q.Recorded slot :=
    (h.forall_executed hrecord (P := fun _ o => ∃ tx, o = some tx)).mpr hp
  obtain ⟨answer, hanswer⟩ := isSlotComplete_returns hp
  obtain ⟨answer', hanswer'⟩ := isSlotComplete_returns hq
  have hiff : q.isSlotComplete slot = .ok true ↔ p.isSlotComplete slot = .ok true := by
    rw [isSlotComplete_iff, isSlotComplete_iff]
    exact h.forall_executed hrecord (P := fun _ o => ∃ tx, o = some tx ∧ tx.isDataComplete = true)
  rw [hanswer, hanswer'] at hiff ⊢
  cases answer' with
  | true => exact (hiff.mp rfl).symm
  | false =>
      cases answer with
      | false => rfl
      | true => exact hiff.mpr rfl

/-! ## What is returned of a slot -/

/-- Once both finalize all their transactions, they return the same. -/
theorem finalizeSlot_both (hdiffer : IndicesDiffer p slot)
    (hcomplete : p.isSlotComplete slot = .ok true)
    (hdecode : ∀ hash i r, p.resultAt slot hash i = some (some r) → ∃ t, Builds X p hash t) :
    ∃ out, p.finalizeSlot X slot = .ok out ∧ q.finalizeSlot X slot = .ok out := by
  have hbuilds : ∀ hash t, Builds X q hash t ↔ Builds X p hash t := by
    intro hash t
    simp only [Builds, hrecord]
  have hcomplete' : q.isSlotComplete slot = .ok true := by
    rw [isSlotComplete_iff] at hcomplete ⊢
    exact (h.forall_executed hrecord
      (P := fun _ o => ∃ tx, o = some tx ∧ tx.isDataComplete = true)).mpr hcomplete
  have hdecode' : ∀ hash j r, q.resultAt slot hash j = some (some r) →
      ∃ t, Builds X q hash t := by
    intro hash j r hr
    obtain ⟨i, _, hr⟩ := (h.results hash j _).mp hr
    obtain ⟨t, ht⟩ := hdecode hash i r hr
    exact ⟨t, (hbuilds hash t).mpr ht⟩
  have hdiffer' : IndicesDiffer q slot := by
    intro hash hash' j r r' hr hr'
    obtain ⟨i, rfl, hexec⟩ := h.executed_iff.mp hr
    obtain ⟨i', heq, hexec'⟩ := h.executed_iff.mp hr'
    rw [h.injective heq] at hexec'
    exact hdiffer hash hash' i r r' hexec hexec'
  obtain ⟨entries, hnodup, hsorted, hmem, hrun⟩ :=
    (finalizeSlot_all_iff hcomplete hdecode).mpr hdiffer
  obtain ⟨entries', hnodup', hsorted', hmem', hrun'⟩ :=
    (finalizeSlot_all_iff hcomplete' hdecode').mpr hdiffer'
  let renamed (e : FinalEntry) : FinalEntry := { e with txIdx := f e.txIdx }
  have hhashes : (entries.map renamed).map FinalEntry.hash = entries.map FinalEntry.hash := by
    rw [List.map_map]
    rfl
  have hperm : entries'.Perm (entries.map renamed) := by
    rw [List.perm_ext_iff_of_nodup (List.Nodup.of_map _ hnodup')
      (List.Nodup.of_map FinalEntry.hash (hhashes ▸ hnodup))]
    intro e
    rw [hmem', h.executed_iff, hbuilds, List.mem_map]
    constructor
    · rintro ⟨⟨i, hi, hexec⟩, hbuild⟩
      obtain ⟨hash, j, t, r⟩ := e
      cases hi
      exact ⟨⟨hash, i, t, r⟩, (hmem _).mpr ⟨hexec, hbuild⟩, rfl⟩
    · rintro ⟨e, he, rfl⟩
      obtain ⟨hexec, hbuild⟩ := (hmem e).mp he
      exact ⟨⟨e.txIdx, rfl, hexec⟩, hbuild⟩
  have hsortedRenamed : (entries.map renamed).Pairwise fun e e' => e.txIdx ≤ e'.txIdx := by
    rw [List.pairwise_map]
    exact hsorted.imp fun hle => h.le_iff.mpr hle
  -- entries of one index are one entry
  have hsame : entries' = entries.map renamed := by
    refine hperm.eq_of_pairwise (fun e e' he he' hle hle' => ?_) hsorted' hsortedRenamed
    have he' := hperm.mem_iff.mpr he'
    have hidx : e.txIdx = e'.txIdx := Nat.le_antisymm hle hle'
    have hhash : e.hash = e'.hash := hdiffer' _ _ _ _ _ ((hmem' e).mp he).1
      (hidx ▸ ((hmem' e').mp he').1)
    exact List.inj_on_of_nodup_map hnodup' he he' hhash
  refine ⟨_, hrun, ?_⟩
  rw [hrun', hsame, List.map_map]
  rfl

theorem finalizeSlot_iff (hdiffer : IndicesDiffer p slot) {out : List (Transaction × TxResult)} :
    q.finalizeSlot X slot = .ok out ↔ p.finalizeSlot X slot = .ok out := by
  constructor
  · intro hrun
    obtain ⟨hcomplete, hdecode⟩ := finalizeSlot_builds hrun
    have hcomplete' : p.isSlotComplete slot = .ok true := by
      rw [isSlotComplete_iff] at hcomplete ⊢
      exact (h.forall_executed hrecord
        (P := fun _ o => ∃ tx, o = some tx ∧ tx.isDataComplete = true)).mp hcomplete
    have hdecode' : ∀ hash i r, p.resultAt slot hash i = some (some r) →
        ∃ t, Builds X p hash t := by
      intro hash i r hr
      obtain ⟨t, tx, hrec, hbuild⟩ :=
        hdecode hash (f i) r ((h.results hash _ _).mpr ⟨i, rfl, hr⟩)
      exact ⟨t, tx, (hrecord hash).trans hrec, hbuild⟩
    obtain ⟨out', hp, hq⟩ := h.finalizeSlot_both hrecord hdiffer hcomplete' hdecode'
    rw [hrun] at hq
    cases hq
    exact hp
  · intro hrun
    obtain ⟨hcomplete, hdecode⟩ := finalizeSlot_builds hrun
    obtain ⟨out', hp, hq⟩ := h.finalizeSlot_both hrecord hdiffer hcomplete hdecode
    rw [hrun] at hp
    cases hp
    exact hq

end

end Renamed

end DefaultTxParser

end RomeSdk
