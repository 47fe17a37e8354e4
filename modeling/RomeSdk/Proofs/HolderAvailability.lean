import RomeSdk.Proofs.HolderIndices

/-!
# What `available_holders` counts, and when `try_new` finds none

`available_holders` adds up the bits that are set, so what it reports are the holders in
use, and this is the number of those that are left only where it is half of the 64.

`try_new` looks at each index once. It passes one that its copy has taken, and that one was
in use when the copy was made, within the call. But it passes as well one whose exchange
failed, and that fails when any bit of the word has changed. So `None` says that all indices
were in use in the course of the call as long as no exchange fails at an index that is free;
else a single other holder, made and dropped again in time, can lead past all of them.
-/

namespace RomeSdk

namespace Holder

/-! ## Counting -/

/-- So many calls of `lock_holder` in a row return where nobody drops a holder. -/
def CanLock : Nat → BitVec 64 → Prop
  | 0, _ => True
  | k + 1, bitset => ∃ tries index bitset',
      HolderFactory.lockHolder tries bitset = some (index, bitset') ∧ CanLock k bitset'

/-- A call that returns has taken an index that was free. -/
theorem lockHolder_some {tries index : Nat} {bitset bitset' : BitVec 64}
    (h : HolderFactory.lockHolder tries bitset = some (index, bitset')) :
    (Bitset.members bitset').length = (Bitset.members bitset).length + 1 := by
  cases tries with
  | zero => cases h
  | succ tries =>
      rw [HolderFactory.lockHolder, new_succ] at h
      obtain ⟨hnext, rfl⟩ := tryNew_some h
      rw [nextIndex_eq] at hnext
      obtain ⟨_, hi, hclear, _⟩ := Bitset.firstClear_some hnext
      exact Bitset.length_members_or hi hclear

theorem lockHolder_returns {bitset : BitVec 64} (h : (Bitset.members bitset).length < 64) :
    ∃ index bitset', HolderFactory.lockHolder 1 bitset = some (index, bitset') := by
  cases hnext : nextIndex bitset 0 with
  | none =>
      rw [nextIndex_eq, Bitset.firstClear_zero_none] at hnext
      omega
  | some index =>
      refine ⟨index, bitset ||| mask index, ?_⟩
      rw [HolderFactory.lockHolder, new_succ, tryNew, hnext]
      rfl

theorem canLock_iff {k : Nat} : ∀ {bitset : BitVec 64},
    CanLock k bitset ↔ (Bitset.members bitset).length + k ≤ 64 := by
  induction k with
  | zero =>
      intro bitset
      exact iff_of_true trivial (Bitset.length_members_le bitset)
  | succ k ih =>
      intro bitset
      constructor
      · rintro ⟨tries, index, bitset', hlock, hrest⟩
        have hmore := lockHolder_some hlock
        have hroom := ih.mp hrest
        omega
      · intro hroom
        have hfree : (Bitset.members bitset).length < 64 := by omega
        obtain ⟨index, bitset', hlock⟩ := lockHolder_returns hfree
        have hmore := lockHolder_some hlock
        exact ⟨1, index, bitset', hlock, ih.mpr (by omega)⟩

section

variable {ι : Type} {s : Tasks ι}

/-- Where no task is in a call the holders that are alive are the bits that are set. -/
theorem Exclusive.length_live (hs : Exclusive s) (hidle : ∀ t, s.tasks t = .idle) :
    (Bitset.members s.atomicBitset).length = s.live.length := by
  refine Bitset.length_members hs.nodup fun n => ?_
  rw [hs.bits, Tasks.InUse]
  refine (or_iff_left ?_).symm
  rintro ⟨t, h⟩
  rw [Tasks.dropping, hidle t] at h
  cases h

/-- What `available_holders` says is right: so many of the 64 are not alive, and so many calls
of `lock_holder` return. -/
def Reports (s : Tasks ι) : Prop :=
  (HolderFactory.availableHolders s.atomicBitset).toNat = 64 - s.live.length ∧
    ∀ k, CanLock k s.atomicBitset ↔ k ≤ (HolderFactory.availableHolders s.atomicBitset).toNat

theorem Exclusive.reports_iff (hs : Exclusive s) (hidle : ∀ t, s.tasks t = .idle) :
    Reports s ↔ s.live.length = 32 := by
  have hlive := hs.length_live hidle
  have hle := Bitset.length_members_le s.atomicBitset
  rw [Reports, HolderFactory.availableHolders_eq]
  constructor
  · intro h
    have heq := h.1
    omega
  · intro h
    refine ⟨by omega, fun k => ?_⟩
    rw [canLock_iff]
    omega

/-- What a call of `try_new` has found of the states so far: each index it has passed was in
use, and so was each that its copy has taken. -/
structure Scanned (during : List (Tasks ι)) (bitset : BitVec 64) (index : Nat) : Prop where
  passed : ∀ n, n < index → ∃ u ∈ during, u.InUse n
  copied : ∀ n, bitset.getLsbD n = true → ∃ u ∈ during, u.InUse n

theorem Scanned.later {during later : List (Tasks ι)} {bitset : BitVec 64} {index : Nat}
    (h : Scanned during bitset index) : Scanned (during ++ later) bitset index := by
  refine ⟨?_, ?_⟩
  · intro n hn
    obtain ⟨u, hu, huse⟩ := h.passed n hn
    exact ⟨u, List.mem_append_left _ hu, huse⟩
  · intro n hn
    obtain ⟨u, hu, huse⟩ := h.copied n hn
    exact ⟨u, List.mem_append_left _ hu, huse⟩

/-- All indices up to the next free one of the copy were in use. -/
theorem Scanned.before {during : List (Tasks ι)} {bitset : BitVec 64} {index n : Nat}
    (h : Scanned during bitset index)
    (hn : index ≤ n → bitset.getLsbD n = true) : ∃ u ∈ during, u.InUse n := by
  rcases Nat.lt_or_ge n index with hlt | hge
  · exact h.passed n hlt
  · exact h.copied n (hn hge)

end

variable {ι : Type} [DecidableEq ι] {s s' : Tasks ι} {a : Action ι} {t : ι}
  {tr : List (Tasks ι × Action ι)}

/-- A call of `lock_holder` by an idle task, as its two steps. -/
theorem lockHolder_steps (hidle : s.tasks t = .idle) {tries index : Nat} {bitset' : BitVec 64}
    (h : HolderFactory.lockHolder tries s.atomicBitset = some (index, bitset')) :
    ∃ tr' s', Machine.Run ((holders ι).startingAt s) tr' s' ∧ s'.atomicBitset = bitset' ∧
      s'.live = index :: s.live := by
  cases tries with
  | zero => cases h
  | succ tries =>
      rw [HolderFactory.lockHolder, new_succ] at h
      obtain ⟨hnext, rfl⟩ := tryNew_some h
      have hcopy : (s.turn t (.tryNew s.atomicBitset 0)).tasks t = .tryNew s.atomicBitset 0 :=
        Function.update_self t _ s.tasks
      exact ⟨_, _, .next (.next (.start rfl) (.load hidle)) (.exchangeOk hcopy hnext rfl), rfl, rfl⟩

/-! ## A call that returns `None` -/

/-- A task called `try_new` in the run and got `None`; `during` are the states from the load
to the return. -/
def ReturnedNone (tr : List (Tasks ι × Action ι)) (t : ι) (during : List (Tasks ι)) : Prop :=
  ∃ pre s₀ mid s₁ post, tr = pre ++ (s₀, .load t) :: mid ++ (s₁, .giveUp t) :: post ∧
    (∀ e ∈ mid, e.2 ≠ .load t) ∧ during = Machine.visited mid s₁

/-- `try_new` returns `None` only if each of the 64 indices was in use during the call. -/
def NoneOnlyIfFull (tr : List (Tasks ι × Action ι)) : Prop :=
  ∀ t during, ReturnedNone tr t during → ∀ n, n < 64 → ∃ u ∈ during, u.InUse n

/-- An exchange of `try_new` fails at an index that is in use just then, if it fails. -/
def FailsAtTaken (s : Tasks ι) (a : Action ι) : Prop :=
  ∀ t bitset index i, a = .exchange t → s.tasks t = .tryNew bitset index →
    nextIndex bitset index = some i →
    s.atomicBitset = bitset ∨ s.atomicBitset.getLsbD i = true

/-- How a task has come to where it is in `try_new`. -/
theorem Step.to_tryNew (h : Step s a s') {bitset : BitVec 64} {index : Nat}
    (ht : s'.tasks t = .tryNew bitset index) :
    s.tasks t = .tryNew bitset index ∨
      (a = .load t ∧ bitset = s.atomicBitset ∧ s'.atomicBitset = s.atomicBitset ∧ index = 0) ∨
      (a = .exchange t ∧ bitset = s.atomicBitset ∧ s'.atomicBitset = s.atomicBitset ∧
        ∃ copy k i, s.tasks t = .tryNew copy k ∧ nextIndex copy k = some i ∧
          s.atomicBitset ≠ copy ∧ index = i + 1) := by
  cases h with
  | load _ =>
      rcases update_eq_iff.mp ht with ⟨rfl, heq⟩ | ⟨_, heq⟩
      · cases heq
        exact Or.inr (Or.inl ⟨rfl, rfl, rfl, rfl⟩)
      · exact Or.inl heq
  | exchangeErr hcopy hnext hne =>
      rcases update_eq_iff.mp ht with ⟨rfl, heq⟩ | ⟨_, heq⟩
      · cases heq
        exact Or.inr (Or.inr ⟨rfl, rfl, rfl, _, _, _, hcopy, hnext, hne, rfl⟩)
      · exact Or.inl heq
  | exchangeOk | giveUp | drop | dropLoadClear | dropLoadSet | dropExchangeOk | dropExchangeErr =>
      rcases update_eq_iff.mp ht with ⟨_, heq⟩ | ⟨_, heq⟩
      · cases heq
      · exact Or.inl heq

/-- A call of `try_new` up to some state, if its exchanges fail at indices in use only. -/
theorem scanned_of_run {pre : List (Tasks ι × Action ι)} {s₀ : Tasks ι}
    (mid : List (Tasks ι × Action ι)) :
    ∀ {s : Tasks ι} {bitset : BitVec 64} {index : Nat},
      Machine.Run (holders ι) (pre ++ (s₀, .load t) :: mid) s →
      Machine.Meets FailsAtTaken (pre ++ (s₀, .load t) :: mid) →
      (∀ e ∈ mid, e.2 ≠ .load t) → s.tasks t = .tryNew bitset index →
      Scanned (Machine.visited mid s) bitset index := by
  induction mid using List.reverseRecOn with
  | nil =>
      intro s bitset index hrun _ _ ht
      have hs := exclusive_run hrun
      obtain ⟨_, hstep⟩ := Machine.run_append_singleton.mp hrun
      -- the load has set the copy
      have hload : bitset = s.atomicBitset ∧ index = 0 := by
        cases hstep with
        | load _ =>
            rcases update_eq_iff.mp ht with ⟨_, heq⟩ | ⟨hne, _⟩
            · cases heq
              exact ⟨rfl, rfl⟩
            · exact absurd rfl hne
      obtain ⟨rfl, rfl⟩ := hload
      refine ⟨fun n hn => absurd hn (Nat.not_lt_zero n), ?_⟩
      intro n hn
      exact ⟨s, List.mem_singleton_self s, (hs.bits n).mp hn⟩
  | append_singleton mid e ih =>
      intro s bitset index hrun hmeets hloads ht
      obtain ⟨s₁, a⟩ := e
      have hs := exclusive_run hrun
      rw [← List.cons_append, ← List.append_assoc] at hrun hmeets
      obtain ⟨hrun₁, hstep⟩ := Machine.run_append_singleton.mp hrun
      obtain ⟨hmeets₁, hfails⟩ := Machine.meets_append.mp hmeets
      have hloads₁ : ∀ e ∈ mid, e.2 ≠ .load t := fun e he => hloads e (List.mem_append_left _ he)
      have hs₁ := exclusive_run hrun₁
      rw [Machine.visited_append]
      rcases Step.to_tryNew hstep ht with
        ht₁ | ⟨ha, _⟩ | ⟨ha, rfl, _, copy, k, i, ht₁, hnext, hne, rfl⟩
      · exact (ih hrun₁ hmeets₁ hloads₁ ht₁).later
      · exact absurd ha (hloads (s₁, a) (List.mem_append_right _ (List.mem_singleton_self _)))
      · have hscanned := ih hrun₁ hmeets₁ hloads₁ ht₁
        have hlast : s₁ ∈ Machine.visited mid s₁ := by simp [Machine.visited]
        rw [nextIndex_eq] at hnext
        obtain ⟨_, _, _, hbefore⟩ := Bitset.firstClear_some hnext
        refine Scanned.later ⟨?_, ?_⟩
        · intro n hn
          rcases Nat.lt_or_eq_of_le (Nat.le_of_lt_succ hn) with hlt | rfl
          · exact hscanned.before fun hk => hbefore n hk hlt
          · -- the exchange failed here
            have htaken := (hfails t copy k n ha ht₁ (by rw [nextIndex_eq, hnext])).resolve_left hne
            exact ⟨s₁, hlast, (hs₁.bits n).mp htaken⟩
        · intro n hn
          exact ⟨s₁, hlast, (hs₁.bits n).mp hn⟩

theorem none_only_if_full (hrun : Machine.Run (holders ι) tr s)
    (hmeets : Machine.Meets FailsAtTaken tr) : NoneOnlyIfFull tr := by
  rintro t _ ⟨pre, s₀, mid, s₁, post, rfl, hloads, rfl⟩ n hn
  obtain ⟨hcall, _, hstep⟩ := Machine.Run.of_append post hrun
  have hmeets₁ : Machine.Meets FailsAtTaken (pre ++ (s₀, .load t) :: mid) :=
    fun e he => hmeets e (List.mem_append_left _ he)
  cases hstep with
  | giveUp ht hnone =>
      rw [nextIndex_eq, Bitset.firstClear_none] at hnone
      exact (scanned_of_run mid hcall hmeets₁ hloads ht).before fun hle => hnone n hle hn

theorem holder_availability {tr : List (Tasks ι × Action ι)} {s : Tasks ι}
    (hrun : Machine.Run (holders ι) tr s) :
    ((∀ t, s.tasks t = .idle) → (Reports s ↔ s.live.length = 32)) ∧
      (Machine.Meets FailsAtTaken tr → NoneOnlyIfFull tr) := by
  refine ⟨?_, ?_⟩
  · intro hidle
    exact (exclusive_run hrun).reports_iff hidle
  · intro hmeets
    exact none_only_if_full hrun hmeets

theorem run_first_holder : ∃ tr, Machine.Run (holders Bool) tr (two 1#64 [0] .idle .idle) ∧
    Machine.Meets FailsAtTaken tr := by
  refine ⟨_, .next (.next (.start two_idle) (step_second_load .idle))
    (step_second_exchange .idle), ?_⟩
  rw [Machine.meets_append, Machine.meets_append]
  refine ⟨⟨?_, ?_⟩, ?_⟩
  · intro e he
    cases he
  · intro t bitset index i ha
    cases ha
  · intro t bitset index i ha ht _
    cases ha
    cases ht
    exact Or.inl rfl

theorem holder_availability_first :
    ∃ tr, Machine.Run (holders Bool) tr (two 1#64 [0] .idle .idle) ∧
      (Reports (two 1#64 [0] .idle .idle) ↔ [0].length = 32) ∧ NoneOnlyIfFull tr := by
  obtain ⟨tr, hrun, hmeets⟩ := run_first_holder
  obtain ⟨hreports, hnone⟩ := holder_availability hrun
  exact ⟨tr, hrun, hreports (fun t => by cases t <;> rfl), hnone hmeets⟩

/-! ## A call that finds none of 63 free indices -/

theorem inUse_two {bitset : BitVec 64} {live : List Nat} {x y : Activity} {n : Nat} :
    (two bitset live x y).InUse n ↔ n ∈ live ∨ x.dropping = some n ∨ y.dropping = some n := by
  rw [Tasks.InUse, Bool.exists_bool]
  rfl

/-- The exchange of the first task, after the second one has changed the word. -/
theorem step_first_exchange {bitset copy : BitVec 64} {live : List Nat} {k : Nat} (hk : k < 64)
    (hfree : copy.getLsbD k = false) (hne : bitset ≠ copy) :
    Step (two bitset live (.tryNew copy k) .idle) (.exchange false)
      (two bitset live (.tryNew bitset (k + 1)) .idle) := by
  have hnext : nextIndex copy k = some k := by
    rw [nextIndex_eq]
    exact Bitset.firstClear_self hk hfree
  have h := Step.exchangeErr (s := two bitset live (.tryNew copy k) .idle) (t := false) rfl hnext
    hne
  rw [turn_false] at h
  exact h

/-- The second task drops the holder 0. -/
theorem step_second_dropLoad (x : Activity) : Step (two 1#64 [] x (.drop 0)) (.dropLoad true)
    (two 1#64 [] x (.clear 0 1#64)) := by
  have hset : 1#64 &&& mask 0 ≠ 0#64 := by decide
  have htask : (two 1#64 [] x (.drop 0)).tasks true = .drop 0 := rfl
  have h := Step.dropLoadSet htask hset
  rw [turn_true] at h
  exact h

theorem step_second_dropExchange (x : Activity) : Step (two 1#64 [] x (.clear 0 1#64))
    (.dropExchange true) (two 0#64 [] x .idle) := by
  have htask : (two 1#64 [] x (.clear 0 1#64)).tasks true = .clear 0 1#64 := rfl
  have h := Step.dropExchangeOk htask rfl
  rw [turn_true] at h
  exact h

/-- The first task is in its call of `try_new`, before `index`, and the word is as it has
loaded it. -/
def before (index : Nat) : Tasks Bool := two 0#64 [] (.tryNew 0#64 index) .idle

/-- A step within that call, where no holder but the first is in use. -/
def Aside (e : Tasks Bool × Action Bool) : Prop :=
  e.2 ≠ .load false ∧ ∀ n, e.1.InUse n → n = 0

theorem aside_two {bitset : BitVec 64} {live : List Nat} {x y : Activity} {a : Action Bool}
    (ha : a ≠ .load false) (hlive : ∀ n ∈ live, n = 0) (hx : x.dropping = none)
    (hy : ∀ n, y.dropping = some n → n = 0) : Aside (two bitset live x y, a) := by
  refine ⟨ha, ?_⟩
  intro n hn
  rcases inUse_two.mp hn with h | h | h
  · exact hlive n h
  · rw [hx] at h
    cases h
  · exact hy n h

/-- The second task makes a holder and drops it, and the first one's exchange fails after
either: it has passed two indices. -/
theorem run_two_indices {k : Nat} (hk : k + 1 < 64) :
    ∃ mid, Machine.Run ((holders Bool).startingAt (before k)) mid (before (k + 2)) ∧
      ∀ e ∈ mid, Aside e := by
  have hone : (1#64).getLsbD (k + 1) = false := by simp [BitVec.getLsbD_one]
  have hzero : (0#64).getLsbD k = false := by simp
  refine ⟨_, .next (.next (.next (.next (.next (.next (.next (.start rfl)
    (step_second_load _)) (step_second_exchange _))
    (step_first_exchange (by omega) hzero (by decide)))
    (step_second_drop _)) (step_second_dropLoad _)) (step_second_dropExchange _))
    (step_first_exchange hk hone (by decide)), ?_⟩
  intro e he
  simp only [List.nil_append, List.cons_append, List.mem_cons, List.not_mem_nil, or_false] at he
  rcases he with rfl | rfl | rfl | rfl | rfl | rfl | rfl
  all_goals
    refine aside_two (by simp) (by simp) rfl ?_
    intro n hn
    cases hn
  all_goals rfl

/-- After so many of these the first task is before the last index, or past it. -/
theorem run_indices {r : Nat} : r ≤ 32 →
    ∃ mid, Machine.Run ((holders Bool).startingAt (before 0)) mid (before (2 * r)) ∧
      ∀ e ∈ mid, Aside e := by
  induction r with
  | zero =>
      intro _
      exact ⟨[], .start rfl, fun e he => by cases he⟩
  | succ r ih =>
      intro hr
      obtain ⟨mid, hrun, haside⟩ := ih (by omega)
      obtain ⟨mid', hrun', haside'⟩ := run_two_indices (k := 2 * r) (by omega)
      refine ⟨mid ++ mid', Machine.Run.append hrun hrun', ?_⟩
      intro e he
      rcases List.mem_append.mp he with he | he
      · exact haside e he
      · exact haside' e he

/-- With one holder at most alive at a time, a call returns `None`. -/
theorem run_spurious_none : ∃ tr during, Machine.Run (holders Bool) tr (two 0#64 [] .idle .idle) ∧
    ReturnedNone tr false during ∧ ∀ u ∈ during, ∀ n, u.InUse n → n = 0 := by
  have hload : Step (two 0#64 [] .idle .idle) (.load false) (before 0) := by
    have h := Step.load (s := two 0#64 [] .idle .idle) (t := false) rfl
    rw [turn_false] at h
    exact h
  have hgiveUp : Step (before 64) (.giveUp false) (two 0#64 [] .idle .idle) := by
    have hnone : nextIndex 0#64 64 = none := by
      rw [nextIndex_eq, Bitset.firstClear_none]
      intro i hle hlt
      omega
    have h := Step.giveUp (s := before 64) (t := false) rfl hnone
    rw [before, turn_false] at h
    exact h
  have hstart : Machine.Run (holders Bool) ([] ++ [(two 0#64 [] .idle .idle, .load false)])
      (before 0) := .next (.start two_idle) hload
  obtain ⟨mid, hmid, haside⟩ := run_indices (Nat.le_refl 32)
  refine ⟨_, Machine.visited mid (before 64), (hstart.append hmid).next hgiveUp, ?_, ?_⟩
  · exact ⟨[], _, mid, _, [], rfl, fun e he => (haside e he).1, rfl⟩
  · intro u hu n hn
    rcases List.mem_append.mp hu with hu | hu
    · obtain ⟨e, he, rfl⟩ := List.mem_map.mp hu
      exact (haside e he).2 n hn
    · rw [List.mem_singleton] at hu
      subst hu
      rcases inUse_two.mp hn with h | h | h <;> cases h

theorem holder_availability_fails :
    (∃ s : Tasks Bool, Machine.Run (holders Bool) [] s ∧ (∀ t, s.tasks t = .idle) ∧ s.live = [] ∧
      (HolderFactory.availableHolders s.atomicBitset).toNat = 0 ∧ ¬ Reports s) ∧
    ∃ tr s during, Machine.Run (holders Bool) tr s ∧ ReturnedNone tr false during ∧
      (∀ u ∈ during, ∀ n, u.InUse n → n = 0) ∧ ¬ NoneOnlyIfFull tr := by
  have hnone : (HolderFactory.availableHolders (fresh Bool).atomicBitset).toNat = 0 := by
    rw [HolderFactory.availableHolders_eq]
    exact exclusive_fresh.length_live fun t => rfl
  refine ⟨⟨fresh Bool, .start rfl, fun t => rfl, rfl, hnone, ?_⟩, ?_⟩
  · intro hreports
    have hcount := hreports.1
    rw [hnone] at hcount
    cases hcount
  · obtain ⟨tr, during, hrun, hreturned, honly⟩ := run_spurious_none
    refine ⟨tr, _, during, hrun, hreturned, honly, ?_⟩
    intro hfull
    obtain ⟨u, hu, huse⟩ := hfull false during hreturned 5 (by omega)
    have hfive := honly u hu 5 huse
    omega

end Holder

end RomeSdk
