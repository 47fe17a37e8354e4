import Mathlib.Data.Nat.Find
import Mathlib.Order.Bounds.Basic
import RomeSdk.Utils.Runner

/-!
# How often a service is started

`run` gives up after the first exit that ends a streak of `unhealthy_retries` too quick
runs, or is the `max_retries`-th. The limits are `u32` and so are the counters, which are
incremented before they are compared: `retries` has not reached its limit, and
`unhealthy_retries` is at most `retries`, so neither of them is at `u32::MAX` when it is
incremented. `max_retries` is finite, so every run of the loop ends.
-/

namespace RomeSdk

namespace ServiceRunner

variable {A : Args} {elapsed : Nat → Nat} {n : Nat}

/-- The length of the longest streak of too quick runs that ends with the `n`-th run. -/
def streak (R : ServiceRunner) (elapsed : Nat → Nat) (n : Nat) : Nat :=
  Nat.findGreatest (fun u => ∀ k, n - u ≤ k → k < n → R.tooQuick (elapsed k) = true) n

/-- The `n`-th exit is one after which the configuration allows no further start. -/
def LastExit (A : Args) (elapsed : Nat → Nat) (n : Nat) : Prop :=
  1 ≤ n ∧ (A.unhealthyRetries.toNat ≤ streak (ofArgs A) elapsed n ∨ A.maxRetries.toNat ≤ n)

/-! ## The streak is what `unhealthy_retries` counts -/

theorem streak_eq_quickExits (R : ServiceRunner) (elapsed : Nat → Nat) (n : Nat) :
    streak R elapsed n = quickExits R elapsed n := by
  have hquick := le_quickExits.mp (Nat.le_refl (quickExits R elapsed n))
  refine Nat.findGreatest_eq_iff.mpr ⟨hquick.1, fun _ => hquick.2, ?_⟩
  intro u hlt hle hall
  have hcounted : u ≤ quickExits R elapsed n := le_quickExits.mpr ⟨hle, hall⟩
  omega

theorem streak_le (R : ServiceRunner) (elapsed : Nat → Nat) (n : Nat) :
    streak R elapsed n ≤ n :=
  Nat.findGreatest_le n

theorem streak_succ (R : ServiceRunner) (elapsed : Nat → Nat) (n : Nat) :
    streak R elapsed (n + 1)
      = if R.tooQuick (elapsed n) then streak R elapsed n + 1 else 0 := by
  rw [streak_eq_quickExits, streak_eq_quickExits, quickExits]

/-! ## One turn -/

theorem increment_ok {c : UInt32} (h : c.toNat + 1 < 2 ^ 32) :
    ∃ c', increment c = .ok c' ∧ c'.toNat = c.toNat + 1 := by
  refine ⟨c + 1, if_pos h, ?_⟩
  rw [UInt32.toNat_add, UInt32.toNat_one, Nat.mod_eq_of_lt h]

/-- The counters after `n` exits none of which was the last. -/
structure Counted (A : Args) (elapsed : Nat → Nat) (n : Nat) (c : Counters) : Prop where
  retries : c.retries.toNat = n
  unhealthyRetries : c.unhealthyRetries.toNat = streak (ofArgs A) elapsed n
  room : n + 1 < 2 ^ 32

theorem counted_start : Counted A elapsed 0 ⟨0, 0⟩ := ⟨rfl, rfl, by decide⟩

/-- A run that was not too quick sets the second counter to zero. -/
theorem countUnhealthy_ok {c : Counters} (hc : Counted A elapsed n c) :
    ∃ quick, countUnhealthy A c.unhealthyRetries (elapsed n) = .ok quick ∧
      quick.toNat = streak (ofArgs A) elapsed (n + 1) := by
  have hroom := hc.room
  have hstreak := streak_le (ofArgs A) elapsed n
  rw [streak_succ, countUnhealthy]
  by_cases hquick : (ofArgs A).tooQuick (elapsed n) = true
  · rw [if_pos hquick, if_pos hquick, ← hc.unhealthyRetries]
    apply increment_ok
    rw [hc.unhealthyRetries]
    omega
  · rw [if_neg hquick, if_neg hquick]
    exact ⟨0, rfl, rfl⟩

/-- Both counters can be incremented, and the comparison decides whether this exit was the
last one. -/
theorem turn_eq {c : Counters} (hc : Counted A elapsed n c) :
    ∃ c', c'.retries.toNat = n + 1 ∧
      c'.unhealthyRetries.toNat = streak (ofArgs A) elapsed (n + 1) ∧
      ((¬ LastExit A elapsed (n + 1) ∧ turn A c (elapsed n) = .ok c') ∨
        (LastExit A elapsed (n + 1) ∧ turn A c (elapsed n)
          = .error (.err (.custom "Service failed too many times, giving up")))) := by
  obtain ⟨quick, hcount, hquick⟩ := countUnhealthy_ok hc
  obtain ⟨retries, hincr, hretries⟩ :=
    increment_ok (c := c.retries) (by rw [hc.retries]; exact hc.room)
  rw [hc.retries] at hretries
  have hturn : turn A c (elapsed n)
      = if A.unhealthyRetries ≤ quick ∨ A.maxRetries ≤ retries then
          .error (.err (.custom "Service failed too many times, giving up"))
        else .ok ⟨retries, quick⟩ := by
    rw [turn, hcount, hincr]
    rfl
  have hlast : (A.unhealthyRetries ≤ quick ∨ A.maxRetries ≤ retries) ↔
      LastExit A elapsed (n + 1) := by
    rw [UInt32.le_iff_toNat_le, UInt32.le_iff_toNat_le, hquick, hretries, LastExit]
    simp
  refine ⟨⟨retries, quick⟩, hretries, hquick, ?_⟩
  by_cases hend : LastExit A elapsed (n + 1)
  · rw [if_pos (hlast.mpr hend)] at hturn
    exact Or.inr ⟨hend, hturn⟩
  · rw [if_neg (fun h => hend (hlast.mp h))] at hturn
    exact Or.inl ⟨hend, hturn⟩

/-- An exit that is not the last one leaves room for the next. -/
theorem room_of_not_lastExit (h : ¬ LastExit A elapsed (n + 1)) : n + 1 + 1 < 2 ^ 32 := by
  have hmax := A.maxRetries.toNat_lt
  by_contra hfull
  exact h ⟨by omega, Or.inr (by omega)⟩

/-! ## The loop -/

/-- The counters are right as long as the service is started again. -/
theorem counted_turn (n : Nat) (c : Counters) (hc : Counted A elapsed n c) :
    (¬ LastExit A elapsed (n + 1) ∧
        ∃ c', turn A c (elapsed n) = .ok c' ∧ Counted A elapsed (n + 1) c') ∨
      (LastExit A elapsed (n + 1) ∧ turn A c (elapsed n)
        = .error (.err (.custom "Service failed too many times, giving up"))) := by
  obtain ⟨c', hretries, hquick, ⟨hgoes, hturn⟩ | hend⟩ := turn_eq hc
  · exact Or.inl ⟨hgoes, c', hturn, hretries, hquick, room_of_not_lastExit hgoes⟩
  · exact Or.inr hend

/-- `max_retries` is an upper limit, so some exit is the last one. -/
theorem exists_lastExit (A : Args) (elapsed : Nat → Nat) : ∃ n, LastExit A elapsed n :=
  ⟨A.maxRetries.toNat + 1, by omega, Or.inr (by omega)⟩

theorem run_gives_up (A : Args) (elapsed : Nat → Nat) :
    ∃ n, IsLeast { n | 1 ≤ n ∧ (A.unhealthyRetries.toNat ≤ streak (ofArgs A) elapsed n ∨
        A.maxRetries.toNat ≤ n) } n ∧
      ∀ turns, run A elapsed turns
        = if n ≤ turns then
            some (n, .err (.custom "Service failed too many times, giving up"))
          else none := by
  classical
  have hsome := exists_lastExit A elapsed
  have hlast : LastExit A elapsed (Nat.find hsome) := Nat.find_spec hsome
  have hleast : ∀ m, LastExit A elapsed m → Nat.find hsome ≤ m := fun m hm => Nat.find_min' hsome hm
  refine ⟨Nat.find hsome, ⟨hlast, fun m hm => hleast m hm⟩, ?_⟩
  intro turns
  have hloop := untilError_eq counted_turn hlast hleast turns 0 ⟨0, 0⟩ counted_start hlast.1
  rw [Nat.zero_add] at hloop
  exact hloop

end ServiceRunner

end RomeSdk
