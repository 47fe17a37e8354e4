import Mathlib.Order.Basic
import RomeSdk.Basic
import RomeSdk.Lib.Loop

/-!
# Running a service again and again

`services/runner.rs`. The runner starts a service and, when this exits, starts it again,
whatever it exited with. It gives up after `max_retries` exits, or after
`unhealthy_retries` in a row that came too quickly. How long a service ran is counted in
nanoseconds.

`exited` counts without a bound. The counters of the source are `u32`, and both are
incremented before they are compared; `turn` and `run` are the loop with these.
-/

namespace RomeSdk

structure ServiceRunner where
  unhealthyRetries : Nat
  healthyWithinMs : Nat
  maxRetries : Nat
  deriving DecidableEq, Repr

/-- The two counters of `run`. -/
structure Retries where
  retries : Nat
  unhealthyRetries : Nat
  deriving DecidableEq, Repr

def Retries.start : Retries := ⟨0, 0⟩

namespace ServiceRunner

/-- `start_time.elapsed() < healthy_within` -/
def tooQuick (R : ServiceRunner) (elapsed : Nat) : Bool :=
  elapsed < R.healthyWithinMs * 1000000

/-- The loop of `run` from where the service has exited to where it is started again; there
are no counters any more where the runner gives up. -/
def exited (R : ServiceRunner) (c : Retries) (elapsed : Nat) : Option Retries :=
  let unhealthyRetries := if R.tooQuick elapsed then c.unhealthyRetries + 1 else 0
  let retries := c.retries + 1
  if R.unhealthyRetries ≤ unhealthyRetries ∨ R.maxRetries ≤ retries then none
  else some ⟨retries, unhealthyRetries⟩

theorem exited_some {R : ServiceRunner} {c c' : Retries} {elapsed : Nat}
    (h : R.exited c elapsed = some c') :
    c'.retries = c.retries + 1 ∧ c.retries + 1 < R.maxRetries := by
  by_cases hmax : R.maxRetries ≤ c.retries + 1
  · rw [exited, if_pos (Or.inr hmax)] at h
    cases h
  · refine ⟨?_, Nat.lt_of_not_le hmax⟩
    dsimp only [exited] at h
    rw [Option.ite_none_left_eq_some] at h
    rw [← Option.some.inj h.2]

/-! ## When it gives up -/

variable (R : ServiceRunner) (elapsed : Nat → Nat)

/-- The counters after the first exits of a service, given how long it runs each time. -/
def afterExits : Nat → Option Retries
  | 0 => some .start
  | n + 1 => (afterExits n).bind fun c => R.exited c (elapsed n)

/-- The exits that came too quickly since the last one that did not. -/
def quickExits : Nat → Nat
  | 0 => 0
  | n + 1 => if R.tooQuick (elapsed n) then quickExits n + 1 else 0

/-- After one of the first `n` exits the runner has no further try, or the last
`unhealthy_retries` of them came too quickly. -/
def GaveUpBy (n : Nat) : Prop :=
  ∃ m, 0 < m ∧ m ≤ n ∧ (R.maxRetries ≤ m ∨ R.unhealthyRetries ≤ m ∧
    ∀ k, m - R.unhealthyRetries ≤ k → k < m → R.tooQuick (elapsed k) = true)

variable {R : ServiceRunner} {elapsed : Nat → Nat}

theorem le_quickExits {n : Nat} : ∀ {u : Nat}, u ≤ quickExits R elapsed n ↔
    u ≤ n ∧ ∀ k, n - u ≤ k → k < n → R.tooQuick (elapsed k) = true := by
  induction n with
  | zero =>
      intro u
      rw [quickExits]
      exact ⟨fun hu => ⟨hu, fun k _ hk => absurd hk (Nat.not_lt_zero k)⟩, fun h => h.1⟩
  | succ n ih =>
      intro u
      rw [quickExits]
      by_cases hquick : R.tooQuick (elapsed n) = true
      · rw [if_pos hquick]
        cases u with
        | zero => simp only [Nat.zero_le, true_and, true_iff]; omega
        | succ u =>
            rw [Nat.succ_le_succ_iff, ih, Nat.succ_le_succ_iff, Nat.succ_sub_succ]
            refine and_congr_right fun _ => ⟨fun h k hlo hk => ?_, fun h k hlo hk => ?_⟩
            · rcases Nat.lt_succ_iff_lt_or_eq.mp hk with hk | rfl
              · exact h k hlo hk
              · exact hquick
            · exact h k hlo (Nat.lt_succ_of_lt hk)
      · rw [if_neg hquick]
        refine ⟨fun hu => ?_, fun h => ?_⟩
        · cases Nat.le_zero.mp hu
          exact ⟨Nat.zero_le _, fun k hlo hk => absurd hk (Nat.not_lt.mpr hlo)⟩
        · by_contra hu
          exact hquick (h.2 n (by omega) (Nat.lt_succ_self n))

theorem gaveUpBy_succ {n : Nat} : R.GaveUpBy elapsed (n + 1) ↔ R.GaveUpBy elapsed n ∨
    R.unhealthyRetries ≤ quickExits R elapsed (n + 1) ∨ R.maxRetries ≤ n + 1 := by
  rw [le_quickExits]
  constructor
  · rintro ⟨m, hpos, hm, hend⟩
    rcases Nat.le_succ_iff.mp hm with hm | rfl
    · exact Or.inl ⟨m, hpos, hm, hend⟩
    · exact Or.inr hend.symm
  · rintro (⟨m, hpos, hm, hend⟩ | hend)
    · exact ⟨m, hpos, Nat.le_succ_of_le hm, hend⟩
    · exact ⟨n + 1, Nat.succ_pos n, Nat.le_refl _, hend.symm⟩

/-- The counters count, for as long as the runner goes on. -/
theorem afterExits_eq (R : ServiceRunner) (elapsed : Nat → Nat) (n : Nat) :
    (R.GaveUpBy elapsed n ∧ afterExits R elapsed n = none) ∨
      (¬ R.GaveUpBy elapsed n ∧
        afterExits R elapsed n = some ⟨n, quickExits R elapsed n⟩) := by
  induction n with
  | zero => exact Or.inr ⟨fun ⟨m, hpos, hm, _⟩ => absurd hpos (Nat.not_lt.mpr hm), rfl⟩
  | succ n ih =>
      rw [gaveUpBy_succ, afterExits]
      rcases ih with ⟨hgave, hnone⟩ | ⟨hgoes, hsome⟩
      · exact Or.inl ⟨Or.inl hgave, by rw [hnone, Option.bind_none]⟩
      · rw [hsome, Option.bind_some, exited]
        by_cases hend : R.unhealthyRetries ≤ quickExits R elapsed (n + 1) ∨ R.maxRetries ≤ n + 1
        · exact Or.inl ⟨Or.inr hend, if_pos hend⟩
        · exact Or.inr ⟨fun h => h.elim hgoes hend, if_neg hend⟩

theorem afterExits_none {n : Nat} : afterExits R elapsed n = none ↔ R.GaveUpBy elapsed n := by
  rcases afterExits_eq R elapsed n with ⟨hgave, hnone⟩ | ⟨hgoes, hsome⟩
  · exact iff_of_true hnone hgave
  · exact iff_of_false (by rw [hsome]; exact Option.some_ne_none _) hgoes

theorem GaveUpBy.mono {n n' : Nat} (h : R.GaveUpBy elapsed n) (hn : n ≤ n') :
    R.GaveUpBy elapsed n' := by
  obtain ⟨m, hpos, hm, hend⟩ := h
  exact ⟨m, hpos, Nat.le_trans hm hn, hend⟩

/-- The service was started for the `n`-th time by a runner with these counters: they count
further, or it has given up since. -/
def Tried (R : ServiceRunner) (elapsed : Nat → Nat) (retries : Option Retries) (n : Nat) : Prop :=
  ¬ R.GaveUpBy elapsed n ∧ ∀ c, retries = some c → n < c.retries

theorem tried_some {c : Retries} {n : Nat} :
    R.Tried elapsed (some c) n ↔ ¬ R.GaveUpBy elapsed n ∧ n < c.retries :=
  and_congr_right fun _ => ⟨fun h => h c rfl, fun h _ heq => Option.some.inj heq ▸ h⟩

/-- An exit adds the one try it ends. -/
theorem tried_exited {c : Retries} (hc : afterExits R elapsed c.retries = some c) {n : Nat} :
    R.Tried elapsed (R.exited c (elapsed c.retries)) n ↔
      R.Tried elapsed (some c) n ∨ n = c.retries := by
  have hgoes : ¬ R.GaveUpBy elapsed c.retries := by
    rw [← afterExits_none, hc]
    exact Option.some_ne_none c
  rw [tried_some]
  constructor
  · rintro ⟨hn, hcount⟩
    have hle : n ≤ c.retries := by
      cases hexit : R.exited c (elapsed c.retries) with
      | some c' =>
          have hlt := hcount c' hexit
          rw [(exited_some hexit).1] at hlt
          exact Nat.lt_succ_iff.mp hlt
      | none =>
          have hend : R.GaveUpBy elapsed (c.retries + 1) := by
            rw [← afterExits_none, afterExits, hc, Option.bind_some, hexit]
          by_contra hlt
          exact hn (hend.mono (Nat.lt_of_not_le hlt))
    rcases Nat.lt_or_eq_of_le hle with hlt | heq
    · exact Or.inl ⟨hn, hlt⟩
    · exact Or.inr heq
  · intro h
    have hle : n ≤ c.retries := h.elim (fun h => Nat.le_of_lt h.2) Nat.le_of_eq
    refine ⟨h.elim And.left fun heq => heq ▸ hgoes, fun c' hc' => ?_⟩
    rw [(exited_some hc').1]
    exact Nat.lt_succ_of_le hle

/-- With more than one try of either kind the first exit is never the last. -/
theorem not_gaveUpBy_one (hunhealthy : 2 ≤ R.unhealthyRetries) (hmax : 2 ≤ R.maxRetries) :
    ¬ R.GaveUpBy elapsed 1 := by
  rintro ⟨m, _, hm, h | ⟨h, _⟩⟩ <;> omega

/-! ## The loop with its counters -/

/-- The options of the command line. How long `run` waits between two starts changes nothing
that is looked at here, and is left out. -/
structure Args where
  unhealthyRetries : UInt32
  healthyWithinMs : UInt64
  maxRetries : UInt32
  deriving DecidableEq, Repr

def ofArgs (A : Args) : ServiceRunner :=
  ⟨A.unhealthyRetries.toNat, A.healthyWithinMs.toNat, A.maxRetries.toNat⟩

/-- The local variables of `run`. -/
structure Counters where
  retries : UInt32
  unhealthyRetries : UInt32
  deriving DecidableEq, Repr

/-- `n += 1` -/
def increment (n : UInt32) : Outcome UInt32 :=
  if n.toNat + 1 < 2 ^ 32 then .ok (n + 1)
  else .error (.panic "attempt to add with overflow")

def countUnhealthy (A : Args) (unhealthyRetries : UInt32) (elapsed : Nat) : Outcome UInt32 :=
  if (ofArgs A).tooQuick elapsed then increment unhealthyRetries else .ok 0

/-- The loop from where the service has exited to where it is started again. -/
def turn (A : Args) (c : Counters) (elapsed : Nat) : Outcome Counters := do
  let unhealthyRetries ← countUnhealthy A c.unhealthyRetries elapsed
  let retries ← increment c.retries
  if A.unhealthyRetries ≤ unhealthyRetries ∨ A.maxRetries ≤ retries then
    throw (.err (.custom "Service failed too many times, giving up"))
  else pure ⟨retries, unhealthyRetries⟩

/-- `run` for so many turns: how often the service was started and what the call ended with,
and nothing where it has not ended yet. -/
def run (A : Args) (elapsed : Nat → Nat) (turns : Nat) : Option (Nat × Failure) :=
  untilError (fun starts c => turn A c (elapsed starts)) turns 0 ⟨0, 0⟩

end ServiceRunner

end RomeSdk
