import Mathlib.Data.List.Dedup
import Mathlib.Data.List.Perm.Subperm

/-!
# `WITH RECURSIVE ... UNION`

A recursive query starts from the rows of its first part, and each turn runs
the second part over the rows that were new in the turn before. `UNION` drops
a row that has been found already, so the query ends when a turn finds nothing
new; this is also what ends it on cyclic data. The second part joins one row of
the query at a time with stored tables, so it is a function of that row.

The rows of the result are those `Derived` from the first part, given that a
turn is left for each of them (`mem_recursiveUnion`). Then the number of turns
is no limit either: the query `Ends`, as one that just goes on does.
-/

section

variable {α : Type} {step : α → List α} {first : List α}

inductive Derived (step : α → List α) (first : List α) : α → Prop
  | first {x : α} : x ∈ first → Derived step first x
  | next {x y : α} : Derived step first x → y ∈ step x → Derived step first y

/-- Whatever is closed under the second part and has the first has every row. -/
theorem Derived.mem_of_closed {S : α → Prop} (hfirst : ∀ x ∈ first, S x)
    (hstep : ∀ x, S x → ∀ y ∈ step x, S y) {x : α} (h : Derived step first x) : S x := by
  induction h with
  | first hx => exact hfirst _ hx
  | next _ hy ih => exact hstep _ ih _ hy

variable [DecidableEq α]

/-- The turns: the rows that were new in the last one, and all rows so far. -/
def recursiveUnionLoop (step : α → List α) : Nat → List α → List α → List α
  | 0, _, result => result
  | turns + 1, working, result =>
      match (working.flatMap step).dedup.filter fun x => x ∉ result with
      | [] => result
      | found => recursiveUnionLoop step turns found (result ++ found)

def recursiveUnion (step : α → List α) (turns : Nat) (first : List α) : List α :=
  recursiveUnionLoop step turns first.dedup first.dedup

/-- A query that goes on until a turn finds nothing new, from `working` and
`result`, ends with the rows `out`. -/
inductive Ends (step : α → List α) : List α → List α → List α → Prop
  | found_none {working result : List α} :
      (working.flatMap step).dedup.filter (fun x => x ∉ result) = [] →
      Ends step working result result
  | turn {working result found out : List α} :
      (working.flatMap step).dedup.filter (fun x => x ∉ result) = found → found ≠ [] →
      Ends step found (result ++ found) out → Ends step working result out

theorem mem_found {working result : List α} {y : α} :
    y ∈ (working.flatMap step).dedup.filter (fun x => x ∉ result) ↔
      (∃ x ∈ working, y ∈ step x) ∧ y ∉ result := by
  simp only [List.mem_filter, List.mem_dedup, List.mem_flatMap, decide_eq_true_eq]

/-- What the turns keep: the rows so far are derived and distinct, and those of
them that are not waiting for their turn have had it. -/
structure Turning (step : α → List α) (first working result : List α) : Prop where
  derived : ∀ x ∈ result, Derived step first x
  nodup : result.Nodup
  first : ∀ x ∈ first, x ∈ result
  waiting : ∀ x ∈ working, x ∈ result
  done : ∀ x ∈ result, x ∉ working → ∀ y ∈ step x, y ∈ result

theorem Turning.next {working result : List α} (h : Turning step first working result) :
    let found := (working.flatMap step).dedup.filter fun x => x ∉ result
    Turning step first found (result ++ found) := by
  intro found
  have hfound : ∀ {y}, y ∈ found ↔ (∃ x ∈ working, y ∈ step x) ∧ y ∉ result := mem_found
  refine ⟨?_, ?_, ?_, ?_, ?_⟩
  · intro y hy
    rcases List.mem_append.mp hy with hy | hy
    · exact h.derived y hy
    · obtain ⟨⟨x, hx, hyx⟩, _⟩ := hfound.mp hy
      exact .next (h.derived x (h.waiting x hx)) hyx
  · refine List.nodup_append.mpr ⟨h.nodup, (List.nodup_dedup _).filter _, ?_⟩
    intro x hx y hy heq
    exact (hfound.mp hy).2 (heq ▸ hx)
  · intro x hx
    exact List.mem_append_left _ (h.first x hx)
  · intro x hx
    exact List.mem_append_right _ hx
  · intro x hx hnot y hy
    have hxr : x ∈ result := (List.mem_append.mp hx).resolve_right hnot
    by_cases hyr : y ∈ result
    · exact List.mem_append_left _ hyr
    · by_cases hxw : x ∈ working
      · exact List.mem_append_right _ (hfound.mpr ⟨⟨x, hxw, hy⟩, hyr⟩)
      · exact absurd (h.done x hxr hxw y hy) hyr

/-- When a query ends, it has found every row there is to find. -/
theorem Ends.mem {working result out : List α} (hE : Ends step working result out) :
    Turning step first working result → ∀ {x}, x ∈ out ↔ Derived step first x := by
  induction hE with
  | @found_none working result hnone =>
      intro h x
      refine ⟨h.derived x, ?_⟩
      refine Derived.mem_of_closed h.first ?_
      intro x hx y hy
      by_contra hyr
      by_cases hxw : x ∈ working
      · have hy' := mem_found.mpr ⟨⟨x, hxw, hy⟩, hyr⟩
        rw [hnone] at hy'
        cases hy'
      · exact hyr (h.done x hx hxw y hy)
  | turn hfound _ _ ih =>
      intro h x
      have hnext := h.next
      rw [hfound] at hnext
      exact ih hnext

/-- With more turns than rows to find, the loop ends on a turn that finds none. -/
theorem recursiveUnionLoop_ends {all : List α} (hall : ∀ x, Derived step first x → x ∈ all)
    (turns : Nat) : ∀ {working result : List α}, Turning step first working result →
      all.length < turns + result.length →
      Ends step working result (recursiveUnionLoop step turns working result) := by
  induction turns with
  | zero =>
      intro working result h hturns
      have hle := (List.subperm_of_subset h.nodup fun x hx => hall x (h.derived x hx)).length_le
      omega
  | succ turns ih =>
      intro working result h hturns
      rw [recursiveUnionLoop]
      split
      · next hnone => exact .found_none hnone
      · next hsome =>
          refine .turn rfl hsome (ih h.next ?_)
          have hpos := List.length_pos_iff.mpr hsome
          rw [List.length_append]
          omega

theorem nodup_recursiveUnionLoop (turns : Nat) : ∀ {working result : List α},
    Turning step first working result → (recursiveUnionLoop step turns working result).Nodup := by
  induction turns with
  | zero => intro working result h; exact h.nodup
  | succ turns ih =>
      intro working result h
      rw [recursiveUnionLoop]
      split
      · exact h.nodup
      · exact ih h.next

theorem turning_first : Turning step first first.dedup first.dedup where
  derived _ hx := .first (List.mem_dedup.mp hx)
  nodup := List.nodup_dedup _
  first _ hx := List.mem_dedup.mpr hx
  waiting _ hx := hx
  done _ hx hnot := absurd hx hnot

theorem nodup_recursiveUnion (turns : Nat) : (recursiveUnion step turns first).Nodup :=
  nodup_recursiveUnionLoop turns turning_first

theorem recursiveUnion_ends (all : List α) (hall : ∀ x, Derived step first x → x ∈ all)
    {turns : Nat} (hturns : all.length < turns) :
    Ends step first.dedup first.dedup (recursiveUnion step turns first) :=
  recursiveUnionLoop_ends hall turns turning_first (by omega)

theorem mem_recursiveUnion (all : List α) (hall : ∀ x, Derived step first x → x ∈ all)
    {turns : Nat} (hturns : all.length < turns) {x : α} :
    x ∈ recursiveUnion step turns first ↔ Derived step first x :=
  (recursiveUnion_ends all hall hturns).mem turning_first

end
