import RomeSdk.Utils.HolderFactory

/-!
# No index is taken twice

An exchange of `try_new` succeeds only where the word is the copy, and the copy has the bit
clear. So an index that is taken was not in use, whatever has happened to the word since the
copy was made, and it does not matter that the same word may have come back in between. In
use is an index from that exchange until the exchange of its `drop`; the invariant is that
the bits say which these are, and that no two holders have the same one.
-/

namespace RomeSdk

namespace Holder

section

variable {ι : Type} {s s' : Tasks ι} {t : ι}

/-- The holder each task is dropping. -/
def Tasks.dropping (s : Tasks ι) : ι → Option Nat := fun t => (s.tasks t).dropping

/-- A holder with this index is alive, or its drop has not cleared the bit yet. -/
def Tasks.InUse (s : Tasks ι) (n : Nat) : Prop := n ∈ s.live ∨ ∃ t, s.dropping t = some n

/-! ## The invariant -/

structure Exclusive (s : Tasks ι) : Prop where
  nodup : s.live.Nodup
  dropped : ∀ t n, s.dropping t = some n → n ∉ s.live
  distinct : ∀ t t' n, s.dropping t = some n → s.dropping t' = some n → t = t'
  bits : ∀ n, s.atomicBitset.getLsbD n = true ↔ s.InUse n

theorem exclusive_fresh : Exclusive (fresh ι) := by
  refine ⟨List.nodup_nil, ?_, ?_, ?_⟩
  · intro t n h
    cases h
  · intro t t' n h
    cases h
  · intro n
    refine iff_of_false (by simp [fresh]) ?_
    intro h
    rcases h with h | ⟨t, h⟩ <;> cases h

theorem Exclusive.taken {i : Nat} (hs : Exclusive s) (hi : i < 64)
    (hclear : s.atomicBitset.getLsbD i = false)
    (hbitset : s'.atomicBitset = s.atomicBitset ||| mask i) (hlive : s'.live = i :: s.live)
    (hdropping : s'.dropping = s.dropping) : Exclusive s' := by
  have hfree : ¬ s.InUse i := by
    rw [← hs.bits, hclear]
    simp
  refine ⟨?_, ?_, ?_, ?_⟩
  · rw [hlive]
    exact List.nodup_cons.mpr ⟨fun h => hfree (Or.inl h), hs.nodup⟩
  · intro t n h
    rw [hdropping] at h
    rw [hlive, List.mem_cons]
    rintro (rfl | hmem)
    · exact hfree (Or.inr ⟨t, h⟩)
    · exact hs.dropped t n h hmem
  · rw [hdropping]
    exact hs.distinct
  · intro n
    rw [hbitset, mask_eq, Bitset.getLsbD_or_twoPow hi, hs.bits, Tasks.InUse, Tasks.InUse, hlive,
      hdropping, List.mem_cons]
    exact ⟨fun h => by rcases h with (h | h) | h <;> simp [h],
      fun h => by rcases h with (h | h) | h <;> simp [h]⟩

/-- A holder is dropped once, so its bit is still set when its drop loads the word. -/
theorem Exclusive.not_clear {i : Nat} (hs : Exclusive s) (ht : s.dropping t = some i) :
    s.atomicBitset &&& mask i ≠ 0#64 := by
  have hbit : s.atomicBitset.getLsbD i = true := (hs.bits i).mpr (Or.inr ⟨t, ht⟩)
  rw [mask_eq, ne_eq, Bitset.and_twoPow_eq_zero (BitVec.lt_of_getLsbD hbit), hbit]
  simp

end

variable {ι : Type} [DecidableEq ι] {s s' : Tasks ι} {a : Action ι} {t : ι}

/-! ## What a step does -/

theorem dropping_turn (s : Tasks ι) (t : ι) (activity : Activity) :
    (s.turn t activity).dropping = Function.update s.dropping t activity.dropping :=
  (Function.comp_update Activity.dropping s.tasks t activity).symm ▸ rfl

/-- A task that drops what it dropped before, or nothing as before. -/
theorem dropping_turn_same {activity : Activity} (h : (s.tasks t).dropping = activity.dropping) :
    (s.turn t activity).dropping = s.dropping := by
  rw [dropping_turn, ← h]
  exact Function.update_eq_self t s.dropping

/-- The steps apart from what concerns their own task only. -/
inductive Effect (s s' : Tasks ι) : Action ι → Prop
  | nothing {a : Action ι} : s'.atomicBitset = s.atomicBitset → s'.live = s.live →
      s'.dropping = s.dropping → Effect s s' a
  | taken {t : ι} {i : Nat} : i < 64 → s.atomicBitset.getLsbD i = false →
      s'.atomicBitset = s.atomicBitset ||| mask i → s'.live = i :: s.live →
      s'.dropping = s.dropping → Effect s s' (.exchange t)
  | dropped {t : ι} {i : Nat} : i ∈ s.live → s.dropping t = none →
      s'.atomicBitset = s.atomicBitset → s'.live = s.live.erase i →
      s'.dropping = Function.update s.dropping t (some i) → Effect s s' (.drop t i)
  | cleared {t : ι} {i : Nat} : s.dropping t = some i →
      s'.atomicBitset = s.atomicBitset &&& ~~~(mask i) → s'.live = s.live →
      s'.dropping = Function.update s.dropping t none → Effect s s' (.dropExchange t)
  | alreadyClear {t : ι} {i : Nat} : s.dropping t = some i →
      s.atomicBitset &&& mask i = 0#64 → s'.atomicBitset = s.atomicBitset →
      Effect s s' (.dropLoad t)

theorem Step.effect (h : Step s a s') : Effect s s' a := by
  cases h with
  | load ht => exact .nothing rfl rfl (dropping_turn_same (by rw [ht]; rfl))
  | exchangeErr ht _ _ => exact .nothing rfl rfl (dropping_turn_same (by rw [ht]; rfl))
  | giveUp ht _ => exact .nothing rfl rfl (dropping_turn_same (by rw [ht]; rfl))
  | exchangeOk ht hnext hsame =>
      rw [nextIndex_eq] at hnext
      obtain ⟨_, hi, hclear, _⟩ := Bitset.firstClear_some hnext
      subst hsame
      exact .taken hi hclear rfl rfl (dropping_turn_same (by rw [ht]; rfl))
  | drop ht hlive =>
      refine .dropped hlive ?_ rfl rfl (dropping_turn _ _ _)
      show (s.tasks _).dropping = none
      rw [ht]
      rfl
  | dropLoadClear ht hclear =>
      refine .alreadyClear ?_ hclear rfl
      show (s.tasks _).dropping = some _
      rw [ht]
      rfl
  | dropLoadSet ht _ => exact .nothing rfl rfl (dropping_turn_same (by rw [ht]; rfl))
  | dropExchangeOk ht hsame =>
      subst hsame
      refine .cleared ?_ rfl rfl (dropping_turn _ _ _)
      show (s.tasks _).dropping = some _
      rw [ht]
      rfl
  | dropExchangeErr ht => exact .nothing rfl rfl (dropping_turn_same (by rw [ht]; rfl))

/-! ## Steps keep the invariant -/

theorem update_eq_iff {β : Type} {f : ι → β} {t t' : ι} {x y : β} :
    Function.update f t x t' = y ↔ t' = t ∧ x = y ∨ t' ≠ t ∧ f t' = y := by
  by_cases h : t' = t
  · subst h
    simp
  · simp [h]

theorem Exclusive.startDrop {i : Nat} (hs : Exclusive s) (hi : i ∈ s.live)
    (ht : s.dropping t = none) (hbitset : s'.atomicBitset = s.atomicBitset)
    (hlive : s'.live = s.live.erase i)
    (hdropping : s'.dropping = Function.update s.dropping t (some i)) : Exclusive s' := by
  have hnew : ∀ t' n, s'.dropping t' = some n ↔
      t' = t ∧ n = i ∨ t' ≠ t ∧ s.dropping t' = some n := by
    intro t' n
    rw [hdropping, update_eq_iff, Option.some.injEq, eq_comm (a := i)]
  have hother : ∀ t', s.dropping t' ≠ some i := fun t' h => hs.dropped t' i h hi
  refine ⟨hlive ▸ hs.nodup.erase i, ?_, ?_, ?_⟩
  · intro t' n h
    rw [hlive]
    rcases (hnew t' n).mp h with ⟨_, rfl⟩ | ⟨_, h⟩
    · exact hs.nodup.not_mem_erase
    · exact fun hmem => hs.dropped t' n h (List.mem_of_mem_erase hmem)
  · intro t₁ t₂ n h₁ h₂
    rcases (hnew t₁ n).mp h₁ with ⟨rfl, rfl⟩ | ⟨_, h₁⟩
    · rcases (hnew t₂ n).mp h₂ with ⟨rfl, _⟩ | ⟨_, h₂⟩
      · rfl
      · exact absurd h₂ (hother t₂)
    · rcases (hnew t₂ n).mp h₂ with ⟨_, rfl⟩ | ⟨_, h₂⟩
      · exact absurd h₁ (hother t₁)
      · exact hs.distinct t₁ t₂ n h₁ h₂
  · intro n
    rw [hbitset, hs.bits, Tasks.InUse, Tasks.InUse, hlive]
    by_cases hn : n = i
    · subst hn
      exact iff_of_true (Or.inl hi) (Or.inr ⟨t, (hnew t n).mpr (Or.inl ⟨rfl, rfl⟩)⟩)
    · rw [List.mem_erase_of_ne hn]
      refine or_congr_right (exists_congr fun t' => ?_)
      rw [hnew]
      refine ⟨fun h => Or.inr ⟨?_, h⟩, fun h => h.elim (fun h => absurd h.2 hn) And.right⟩
      rintro rfl
      rw [ht] at h
      cases h

theorem Exclusive.cleared {i : Nat} (hs : Exclusive s) (ht : s.dropping t = some i)
    (hbitset : s'.atomicBitset = s.atomicBitset &&& ~~~(mask i)) (hlive : s'.live = s.live)
    (hdropping : s'.dropping = Function.update s.dropping t none) : Exclusive s' := by
  have hnew : ∀ t' n, s'.dropping t' = some n ↔ t' ≠ t ∧ s.dropping t' = some n := by
    intro t' n
    rw [hdropping, update_eq_iff]
    simp
  refine ⟨hlive ▸ hs.nodup, ?_, ?_, ?_⟩
  · intro t' n h
    rw [hlive]
    exact hs.dropped t' n ((hnew t' n).mp h).2
  · intro t₁ t₂ n h₁ h₂
    exact hs.distinct t₁ t₂ n ((hnew t₁ n).mp h₁).2 ((hnew t₂ n).mp h₂).2
  · intro n
    rw [hbitset, mask_eq, Bitset.getLsbD_and_not_twoPow, hs.bits, Tasks.InUse, Tasks.InUse, hlive]
    constructor
    · rintro ⟨hlive | ⟨t', h⟩, hn⟩
      · exact Or.inl hlive
      · refine Or.inr ⟨t', (hnew t' n).mpr ⟨?_, h⟩⟩
        rintro rfl
        rw [ht] at h
        exact hn (Option.some.inj h).symm
    · rintro (hlive | ⟨t', h⟩)
      · refine ⟨Or.inl hlive, ?_⟩
        rintro rfl
        exact hs.dropped t n ht hlive
      · obtain ⟨hne, h⟩ := (hnew t' n).mp h
        refine ⟨Or.inr ⟨t', h⟩, ?_⟩
        rintro rfl
        exact hne (hs.distinct t' t n h ht)

theorem Exclusive.step (hs : Exclusive s) (h : Step s a s') : Exclusive s' := by
  cases h.effect with
  | nothing hbitset hlive hdropping =>
      refine ⟨hlive ▸ hs.nodup, ?_, ?_, ?_⟩
      · rw [hlive, hdropping]
        exact hs.dropped
      · rw [hdropping]
        exact hs.distinct
      · rw [hbitset]
        intro n
        rw [hs.bits, Tasks.InUse, Tasks.InUse, hlive, hdropping]
  | taken hi hclear hbitset hlive hdropping => exact hs.taken hi hclear hbitset hlive hdropping
  | dropped hi ht hbitset hlive hdropping => exact hs.startDrop hi ht hbitset hlive hdropping
  | cleared ht hbitset hlive hdropping => exact hs.cleared ht hbitset hlive hdropping
  | alreadyClear ht hclear _ => exact absurd hclear (hs.not_clear ht)

theorem exclusive_run {tr : List (Tasks ι × Action ι)} (h : Machine.Run (holders ι) tr s) :
    Exclusive s := by
  refine Machine.Run.invariant (I := Exclusive) (G := fun _ _ => True) ?_ ?_ h ?_
  · rintro _ rfl
    exact exclusive_fresh
  · intro _ _ _ hs _ hstep
    exact hs.step hstep
  · exact fun _ _ => trivial

/-! ## The bits that a step clears -/

/-- No step clears a bit but the exchange of a drop, and this clears the one of its index. -/
theorem Step.clears (h : Step s a s') {n : Nat} (hset : s.atomicBitset.getLsbD n = true)
    (hclear : s'.atomicBitset.getLsbD n = false) :
    ∃ t, a = .dropExchange t ∧ s.dropping t = some n := by
  have hchanged : s'.atomicBitset ≠ s.atomicBitset := by
    intro hsame
    rw [hsame, hset] at hclear
    cases hclear
  cases h.effect with
  | nothing hbitset _ _ => exact absurd hbitset hchanged
  | dropped _ _ hbitset _ _ => exact absurd hbitset hchanged
  | alreadyClear _ _ hbitset => exact absurd hbitset hchanged
  | taken hi _ hbitset _ _ =>
      have hkept := (Bitset.getLsbD_or_twoPow (b := s.atomicBitset) hi).mpr (Or.inl hset)
      rw [hbitset, mask_eq, hkept] at hclear
      cases hclear
  | @cleared t i ht hbitset _ _ =>
      refine ⟨t, rfl, ?_⟩
      rw [ht, Option.some.injEq]
      by_contra hne
      have hkept := (Bitset.getLsbD_and_not_twoPow (b := s.atomicBitset)).mpr
        ⟨hset, fun h => hne h.symm⟩
      rw [hbitset, mask_eq, hkept] at hclear
      cases hclear

/-- A drop leaves every other bit as it is. -/
theorem Step.drop_keeps (h : Step s a s') (ha : a = .dropLoad t ∨ a = .dropExchange t) {i n : Nat}
    (ht : s.dropping t = some i) (hn : n ≠ i) :
    s'.atomicBitset.getLsbD n = s.atomicBitset.getLsbD n := by
  cases h.effect with
  | nothing hbitset _ _ => rw [hbitset]
  | alreadyClear _ _ hbitset => rw [hbitset]
  | taken => rcases ha with ha | ha <;> cases ha
  | dropped => rcases ha with ha | ha <;> cases ha
  | @cleared t' i' ht' hbitset _ _ =>
      obtain rfl : t' = t := by
        rcases ha with ha | ha <;> cases ha
        rfl
      rw [ht] at ht'
      obtain rfl := Option.some.inj ht'
      rw [hbitset, mask_eq, Bool.eq_iff_iff, Bitset.getLsbD_and_not_twoPow]
      exact and_iff_left hn

theorem holder_indices_exclusive {tr : List (Tasks ι × Action ι)}
    (h : Machine.Run (holders ι) tr s) :
    s.live.Nodup ∧ (∀ t n, s.dropping t = some n → n ∉ s.live) ∧
      (∀ t t' n, s.dropping t = some n → s.dropping t' = some n → t = t') ∧
      (∀ n, s.atomicBitset.getLsbD n = true ↔ n ∈ s.live ∨ ∃ t, s.dropping t = some n) ∧
      (∀ n, n ∈ s.live ∨ (∃ t, s.dropping t = some n) → n < 64) ∧
      (∀ a s' n, Step s a s' → s.atomicBitset.getLsbD n = true →
        s'.atomicBitset.getLsbD n = false → ∃ t, a = .dropExchange t ∧ s.dropping t = some n) ∧
      ∀ t i n s', s.dropping t = some i → Step s (.dropLoad t) s' ∨ Step s (.dropExchange t) s' →
        n ≠ i → s'.atomicBitset.getLsbD n = s.atomicBitset.getLsbD n := by
  have hs := exclusive_run h
  refine ⟨hs.nodup, hs.dropped, hs.distinct, hs.bits, ?_, ?_, ?_⟩
  · intro n hn
    exact BitVec.lt_of_getLsbD ((hs.bits n).mpr hn)
  · intro a s' n hstep hset hclear
    exact hstep.clears hset hclear
  · intro t i n s' ht hstep hn
    rcases hstep with hstep | hstep
    · exact hstep.drop_keeps (Or.inl rfl) ht hn
    · exact hstep.drop_keeps (Or.inr rfl) ht hn

/-! ## Two tasks -/

def two (bitset : BitVec 64) (live : List Nat) (x y : Activity) : Tasks Bool :=
  ⟨bitset, live, fun t => if t then y else x⟩

theorem turn_false (bitset : BitVec 64) (live : List Nat) (x y z : Activity) :
    (two bitset live x y).turn false z = two bitset live z y := by
  have htasks :
      Function.update (two bitset live x y).tasks false z = (two bitset live z y).tasks := by
    funext t
    cases t <;> rfl
  rw [Tasks.turn, htasks]
  rfl

theorem turn_true (bitset : BitVec 64) (live : List Nat) (x y z : Activity) :
    (two bitset live x y).turn true z = two bitset live x z := by
  have htasks :
      Function.update (two bitset live x y).tasks true z = (two bitset live x z).tasks := by
    funext t
    cases t <;> rfl
  rw [Tasks.turn, htasks]
  rfl

theorem two_idle : two 0#64 [] .idle .idle = fresh Bool := by
  have htasks : (fun t : Bool => if t then Activity.idle else .idle) = fun _ => .idle := by
    funext t
    cases t <;> rfl
  rw [two, htasks]
  rfl

/-- A task makes the holder 0. -/
theorem step_second_load (x : Activity) : Step (two 0#64 [] x .idle) (.load true)
    (two 0#64 [] x (.tryNew 0#64 0)) := by
  have h := Step.load (s := two 0#64 [] x .idle) (t := true) rfl
  rw [turn_true] at h
  exact h

theorem step_second_exchange (x : Activity) : Step (two 0#64 [] x (.tryNew 0#64 0))
    (.exchange true) (two 1#64 [0] x .idle) := by
  have h := Step.exchangeOk (s := two 0#64 [] x (.tryNew 0#64 0)) (t := true) (i := 0) rfl
    (by decide) rfl
  rw [turn_true] at h
  exact h

/-- And drops it. -/
theorem step_second_drop (x : Activity) : Step (two 1#64 [0] x .idle) (.drop true 0)
    (two 1#64 [] x (.drop 0)) := by
  have h : Step (two 1#64 [0] x .idle) (.drop true 0) _ := .drop rfl (List.mem_cons_self ..)
  rw [turn_true] at h
  exact h

theorem run_second_drop : ∃ tr, Machine.Run (holders Bool) tr (two 1#64 [] .idle (.drop 0)) :=
  ⟨_, .next (.next (.next (.start two_idle) (step_second_load .idle))
    (step_second_exchange .idle)) (step_second_drop .idle)⟩

theorem holder_indices_exclusive_dropping :
    ∃ tr, Machine.Run (holders Bool) tr (two 1#64 [] .idle (.drop 0)) ∧
      ((1#64).getLsbD 0 = true ↔
        0 ∈ [] ∨ ∃ t, (two 1#64 [] .idle (.drop 0)).dropping t = some 0) := by
  obtain ⟨tr, hrun⟩ := run_second_drop
  obtain ⟨_, _, _, hbits, _⟩ := holder_indices_exclusive hrun
  exact ⟨tr, hrun, hbits 0⟩

end Holder

end RomeSdk
