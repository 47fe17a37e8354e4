import Mathlib.Logic.Function.Iterate
import RomeSdk.Lib.Effect

/-!
# The answers of a call that is made again and again

A machine that hands out its steps one by one is a call, and what it hands out
is the sequence of the answers when the call is made again and again, each time
in the state the call before left. `Answers x l s t` is a piece of that sequence:
from `s` on the calls answer `l`, and then the state is `t`. `Yields x s l e` is
the whole of it: the calls answer `l` and then `e` forever.

Where a sequence that ends in `e` forever is split into a first part and a rest
that is known, the first part is known up to further `e`s: were it longer by
something else, the rest would repeat itself and never come to its end.
-/

namespace EStateM

variable {ε σ τ α : Type}

/-- What a call answers, without the state it leaves. -/
def answer (x : EStateM ε σ α) (s : σ) : Except ε α :=
  match x s with
  | .ok a _ => .ok a
  | .error e _ => .error e

/-- What the call answers after it has been made `n` times, failures included. -/
def answerAt (x : EStateM ε σ α) (s : σ) (n : Nat) : Except ε α := x.answer (x.after^[n] s)

def Answers (x : EStateM ε σ α) : List α → σ → σ → Prop
  | [], s, t => s = t
  | a :: l, s, t => ∃ u, x s = .ok a u ∧ Answers x l u t

def Yields (x : EStateM ε σ α) (s : σ) (l : List α) (e : α) : Prop :=
  ∀ i, x.answerAt s i = .ok ((l[i]?).getD e)

theorem answerAt_succ (x : EStateM ε σ α) (s : σ) (n : Nat) :
    x.answerAt s (n + 1) = x.answerAt (x.after s) n := by
  rw [answerAt, Function.iterate_succ_apply, answerAt]

/-- Two states in which the call does the same answer the same from there on. -/
theorem answerAt_congr {x : EStateM ε σ α} {s t : σ} (h : x s = x t) (n : Nat) :
    x.answerAt s n = x.answerAt t n := by
  cases n with
  | zero =>
      show x.answer s = x.answer t
      rw [answer, answer, h]
  | succ n =>
      have hafter : x.after s = x.after t := by rw [after, after, h]
      rw [answerAt_succ, answerAt_succ, hafter]

/-- A call that does in `f s` what another one does in `s` answers what that one
answers. -/
theorem answerAt_of_semiconj {x : EStateM ε σ α} {y : EStateM ε τ α} {f : σ → τ}
    (hanswer : ∀ s, y.answer (f s) = x.answer s) (hafter : ∀ s, y.after (f s) = f (x.after s)) :
    ∀ (n : Nat) (s : σ), y.answerAt (f s) n = x.answerAt s n := by
  intro n
  induction n with
  | zero => exact hanswer
  | succ n ih =>
      intro s
      rw [answerAt_succ, answerAt_succ, hafter, ih]

theorem Answers.cons {x : EStateM ε σ α} {a : α} {l : List α} {s t u : σ} (h : x s = .ok a u)
    (hrest : Answers x l u t) : Answers x (a :: l) s t := ⟨u, h, hrest⟩

/-- The answers up to a state, and those from there on. -/
theorem Answers.yields {x : EStateM ε σ α} {l r : List α} {s t : σ} {e : α}
    (h : Answers x l s t) (hrest : Yields x t r e) : Yields x s (l ++ r) e := by
  induction l generalizing s with
  | nil =>
      cases h
      exact hrest
  | cons a l ih =>
      obtain ⟨u, hu, h⟩ := h
      intro i
      cases i with
      | zero =>
          show x.answer s = .ok a
          rw [answer, hu]
      | succ i =>
          have hafter : x.after s = u := by rw [after, hu]
          rw [answerAt_succ, hafter, List.cons_append, List.getElem?_cons_succ]
          exact ih h i

/-- A call that answers `e` wherever `P` holds, and keeps `P`, answers so forever. -/
theorem yields_of_closed {x : EStateM ε σ α} {P : σ → Prop} {e : α}
    (hstep : ∀ s, P s → ∃ t, x s = .ok e t ∧ P t) {s : σ} (hs : P s) : Yields x s [] e := by
  intro i
  induction i generalizing s with
  | zero =>
      obtain ⟨t, ht, _⟩ := hstep s hs
      show x.answer s = .ok e
      rw [answer, ht]
  | succ i ih =>
      obtain ⟨t, ht, hP⟩ := hstep s hs
      have hafter : x.after s = t := by rw [after, ht]
      rw [answerAt_succ, hafter]
      exact ih hP

/-- A call that answers `e` and changes nothing answers so forever. -/
theorem yields_of_fixed {x : EStateM ε σ α} {s : σ} {e : α} (h : x s = .ok e s) :
    Yields x s [] e := by
  refine yields_of_closed (P := fun t => t = s) ?_ rfl
  intro t ht
  subst ht
  exact ⟨t, h, rfl⟩

/-- A sequence that repeats itself and ends in `e` forever is `e` throughout. -/
theorem eq_of_periodic {g : Nat → α} {e : α} {d m : Nat} (hd : 0 < d)
    (hperiodic : ∀ i, g (d + i) = g i) (hend : ∀ i, m ≤ i → g i = e) (i : Nat) : g i = e := by
  have hshift : ∀ n, g (n * d + i) = g i := by
    intro n
    induction n with
    | zero => rw [Nat.zero_mul, Nat.zero_add]
    | succ n ih => rw [Nat.succ_mul, Nat.add_comm (n * d), Nat.add_assoc, hperiodic, ih]
  rw [← hshift m]
  refine hend _ ?_
  have hle : m * 1 ≤ m * d := Nat.mul_le_mul_left m hd
  omega

/-- What stands before a known rest, of two sequences that are the same. -/
theorem eq_append_replicate {l l' r : List α} {e : α} (hle : l'.length ≤ l.length)
    (h : ∀ i : Nat, ((l ++ r)[i]?).getD e = ((l' ++ r)[i]?).getD e) :
    ∃ d, l = l' ++ List.replicate d e := by
  induction l' generalizing l with
  | nil =>
      refine ⟨l.length, ?_⟩
      rw [List.nil_append]
      rcases Nat.eq_zero_or_pos l.length with hnil | hpos
      · rw [hnil, List.length_eq_zero_iff.mp hnil]
        rfl
      · -- the rest repeats itself after the length of `l`
        have hperiodic : ∀ i : Nat, (r[l.length + i]?).getD e = (r[i]?).getD e := by
          intro i
          have hi := h (l.length + i)
          rw [List.getElem?_append_right (Nat.le_add_right ..), Nat.add_sub_cancel_left,
            List.nil_append] at hi
          exact hi.symm
        have hend : ∀ i, r.length ≤ i → (r[i]?).getD e = e := by
          intro i hi
          rw [List.getElem?_eq_none hi]
          rfl
        have hrest := eq_of_periodic (g := fun i : Nat => (r[i]?).getD e) hpos hperiodic hend
        refine List.eq_replicate_iff.mpr ⟨rfl, ?_⟩
        intro a ha
        obtain ⟨i, hi, rfl⟩ := List.getElem_of_mem ha
        have hat := h i
        rw [List.getElem?_append_left hi, List.getElem?_eq_getElem hi, List.nil_append] at hat
        exact hat.trans (hrest i)
  | cons a' l' ih =>
      cases l with
      | nil => simp at hle
      | cons a l =>
          have hhead : a = a' := h 0
          obtain ⟨d, hd⟩ := ih (Nat.le_of_succ_le_succ hle) fun i => h (i + 1)
          exact ⟨d, by rw [hhead, hd, List.cons_append]⟩

/-- Of two ways to split what a call yields before the same rest, the longer one
has further `e`s. -/
theorem Yields.eq_append_replicate {x : EStateM ε σ α} {s : σ} {l l' r : List α} {e : α}
    (h : Yields x s (l ++ r) e) (h' : Yields x s (l' ++ r) e) (hle : l'.length ≤ l.length) :
    ∃ d, l = l' ++ List.replicate d e := by
  have hsame : ∀ i : Nat, ((l ++ r)[i]?).getD e = ((l' ++ r)[i]?).getD e := by
    intro i
    exact Except.ok.inj ((h i).symm.trans (h' i))
  exact EStateM.eq_append_replicate hle hsame

end EStateM
