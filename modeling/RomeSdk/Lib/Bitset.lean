import Mathlib.Data.BitVec
import Mathlib.Data.List.Perm.Basic

/-!
# Sets of small numbers in a machine word

A word of `w` bits is a set of numbers below `w`: a number is in it if its bit is set. The
operations are those of a program that keeps such a set: test, set and clear one bit, find
the first number from some point on that is not in the set, and count.
-/

namespace Bitset

open BitVec (twoPow)

variable {w : Nat} {b : BitVec w} {i j k : Nat}

/-! ## One bit -/

theorem and_twoPow_eq_zero (hi : i < w) : b &&& twoPow w i = 0#w ↔ b.getLsbD i = false := by
  rw [BitVec.and_twoPow]
  cases hb : b.getLsbD i with
  | false => simp
  | true =>
      have hbit : (twoPow w i).getLsbD i = true := by
        rw [BitVec.getLsbD_twoPow]
        simp [hi]
      rw [if_pos rfl]
      refine iff_of_false ?_ (by simp)
      intro hzero
      rw [hzero] at hbit
      simp at hbit

theorem getLsbD_or_twoPow (hi : i < w) :
    (b ||| twoPow w i).getLsbD j = true ↔ b.getLsbD j = true ∨ j = i := by
  rw [BitVec.getLsbD_or, BitVec.getLsbD_twoPow, Bool.or_eq_true, Bool.and_eq_true,
    decide_eq_true_eq, decide_eq_true_eq]
  exact or_congr_right ⟨fun h => h.2.symm, fun h => ⟨hi, h.symm⟩⟩

theorem getLsbD_and_not_twoPow :
    (b &&& ~~~(twoPow w i)).getLsbD j = true ↔ b.getLsbD j = true ∧ j ≠ i := by
  rw [BitVec.getLsbD_and, BitVec.getLsbD_not, BitVec.getLsbD_twoPow]
  constructor
  · intro h
    simp at h
    refine ⟨h.1, ?_⟩
    rintro rfl
    have := h.2
    omega
  · rintro ⟨hb, hne⟩
    have hj := BitVec.lt_of_getLsbD hb
    simp [hb, hj]
    omega

/-! ## The members -/

def members (b : BitVec w) : List Nat := (List.range w).filter fun i => b.getLsbD i

theorem mem_members : i ∈ members b ↔ b.getLsbD i = true := by
  rw [members, List.mem_filter, List.mem_range]
  exact ⟨fun h => h.2, fun h => ⟨BitVec.lt_of_getLsbD h, h⟩⟩

theorem nodup_members (b : BitVec w) : (members b).Nodup := List.nodup_range.filter _

theorem length_members_le (b : BitVec w) : (members b).length ≤ w := by
  have h := List.length_filter_le (fun i => b.getLsbD i) (List.range w)
  rw [List.length_range] at h
  exact h

/-- A list of the members without repetition is as long as any other. -/
theorem length_members {l : List Nat} (hl : l.Nodup) (hmem : ∀ i, i ∈ l ↔ b.getLsbD i = true) :
    (members b).length = l.length := by
  have hperm : (members b).Perm l := by
    refine (List.perm_ext_iff_of_nodup (nodup_members b) hl).mpr fun i => ?_
    rw [mem_members, hmem]
  exact hperm.length_eq

theorem length_members_or (hi : i < w) (hclear : b.getLsbD i = false) :
    (members (b ||| twoPow w i)).length = (members b).length + 1 := by
  have hnew : i ∉ members b := by
    rw [mem_members, hclear]
    simp
  refine length_members (l := i :: members b) (List.nodup_cons.mpr ⟨hnew, nodup_members b⟩) ?_
  intro j
  rw [List.mem_cons, mem_members, getLsbD_or_twoPow hi]
  exact or_comm

/-! ## The first number that is not in the set -/

/-- The first `i` from `k` on whose bit is clear. -/
def firstClear (b : BitVec w) (k : Nat) : Option Nat :=
  (List.range w).find? fun i => decide (k ≤ i) && !b.getLsbD i

theorem firstClear_some (h : firstClear b k = some i) :
    k ≤ i ∧ i < w ∧ b.getLsbD i = false ∧ ∀ j, k ≤ j → j < i → b.getLsbD j = true := by
  obtain ⟨hfound, hi, hbefore⟩ := List.find?_range_eq_some.mp h
  rw [Bool.and_eq_true, decide_eq_true_eq, Bool.not_eq_true'] at hfound
  refine ⟨hfound.1, List.mem_range.mp hi, hfound.2, ?_⟩
  intro j hk hj
  have hpassed := hbefore j hj
  simpa [hk] using hpassed

theorem firstClear_none : firstClear b k = none ↔ ∀ i, k ≤ i → i < w → b.getLsbD i = true := by
  rw [firstClear, List.find?_eq_none]
  simp only [List.mem_range, Bool.and_eq_true, decide_eq_true_eq, Bool.not_eq_true', not_and,
    Bool.not_eq_false]
  exact ⟨fun h i hk hi => h i hi hk, fun h i hi hk => h i hk hi⟩

theorem firstClear_self (hk : k < w) (hclear : b.getLsbD k = false) : firstClear b k = some k := by
  cases hfirst : firstClear b k with
  | none =>
      rw [firstClear_none.mp hfirst k (Nat.le_refl k) hk] at hclear
      cases hclear
  | some i =>
      obtain ⟨hle, _, _, hbefore⟩ := firstClear_some hfirst
      rcases Nat.lt_or_eq_of_le hle with hlt | rfl
      · rw [hbefore k (Nat.le_refl k) hlt] at hclear
        cases hclear
      · rfl

/-- All numbers are members just if there are as many members as numbers. -/
theorem firstClear_zero_none : firstClear b 0 = none ↔ (members b).length = w := by
  rw [firstClear_none]
  constructor
  · intro h
    have hall := length_members (b := b) (l := List.range w) List.nodup_range fun i => by
      rw [List.mem_range]
      exact ⟨fun hi => h i (Nat.zero_le i) hi, fun hb => BitVec.lt_of_getLsbD hb⟩
    rw [hall, List.length_range]
  · intro h i _ hi
    by_contra hclear
    have hmore := length_members_or hi (Bool.eq_false_iff.mpr hclear)
    have hle := length_members_le (b ||| twoPow w i)
    omega

/-! ## Counting -/

theorem shiftRight_and_one (hw : 0 < w) (i : Nat) :
    ((b >>> i) &&& 1#w).toNat = (b.getLsbD i).toNat := by
  rw [BitVec.and_one_eq_setWidth_ofBool_getLsbD, BitVec.getLsbD_ushiftRight, Nat.add_zero]
  cases b.getLsbD i <;> simp [hw]

/-- Adding the bits up, in a number that has room for all of them. -/
theorem foldl_bits (l : List Nat) : ∀ acc : UInt8, acc.toNat + l.length < 256 →
    (l.foldl (fun acc i => acc + UInt8.ofNat (b.getLsbD i).toNat) acc).toNat
      = acc.toNat + (l.filter fun i => b.getLsbD i).length := by
  induction l with
  | nil => intro acc _; rfl
  | cons i l ih =>
      intro acc hroom
      rw [List.length_cons] at hroom
      rw [List.foldl_cons]
      cases hb : b.getLsbD i with
      | false =>
          rw [List.filter_cons_of_neg (by simp [hb])]
          show (l.foldl _ (acc + 0)).toNat = _
          rw [UInt8.add_zero]
          exact ih acc (by omega)
      | true =>
          have hsucc : (acc + 1).toNat = acc.toNat + 1 := by
            rw [UInt8.toNat_add, UInt8.toNat_one, Nat.mod_eq_of_lt (by omega)]
          rw [List.filter_cons_of_pos hb, List.length_cons]
          show (l.foldl _ (acc + 1)).toNat = _
          rw [ih (acc + 1) (by rw [hsucc]; omega), hsucc]
          exact Nat.add_right_comm _ 1 _

end Bitset
