import Mathlib.Data.List.Basic
import Mathlib.Data.List.Induction

/-!
# Machines and their runs

A machine is a set of initial states and a labelled step relation. A run is
recorded as the list of the steps it made, each label with the state it was
taken in, so that a condition on steps may look at the state before the step.

`Run.invariant` is the induction every safety argument goes through: what holds
at the start and is kept by each step that meets a condition holds after every
run whose steps all meet it. `Run.always_iff` is the sharper form for a
property that a step keeps exactly when it meets the condition.
-/

structure Machine (σ α : Type) where
  init : σ → Prop
  step : σ → α → σ → Prop

namespace Machine

variable {σ α : Type} {M : Machine σ α}

/-- `Run M tr s`: the steps `tr`, oldest first, lead from an initial state to `s`. -/
inductive Run (M : Machine σ α) : List (σ × α) → σ → Prop
  | start {s : σ} : M.init s → Run M [] s
  | next {tr : List (σ × α)} {s t : σ} {a : α} :
      Run M tr s → M.step s a t → Run M (tr ++ [(s, a)]) t

/-- The last step of a run, and the run before it. -/
theorem run_append_singleton {tr : List (σ × α)} {s t : σ} {a : α} :
    Run M (tr ++ [(s, a)]) t ↔ Run M tr s ∧ M.step s a t := by
  refine ⟨fun h => ?_, fun h => h.1.next h.2⟩
  generalize hall : tr ++ [(s, a)] = all at h
  cases h with
  | start _ => simp at hall
  | next hrun hstep =>
      obtain ⟨rfl, hlast⟩ := List.append_inj' hall rfl
      cases hlast
      exact ⟨hrun, hstep⟩

/-- A step of a run, and the run before it. -/
theorem Run.of_append {tr : List (σ × α)} {s : σ} {a : α} (tr' : List (σ × α)) :
    ∀ {t : σ}, Run M (tr ++ (s, a) :: tr') t → Run M tr s ∧ ∃ s', M.step s a s' := by
  induction tr' using List.reverseRecOn with
  | nil =>
      intro t h
      obtain ⟨hrun, hstep⟩ := run_append_singleton.mp h
      exact ⟨hrun, t, hstep⟩
  | append_singleton tr' e ih =>
      intro t h
      rw [← List.cons_append, ← List.append_assoc] at h
      exact ih (run_append_singleton.mp h).1

/-- The machine with `s` for its initial state. -/
def startingAt (M : Machine σ α) (s : σ) : Machine σ α := ⟨fun t => t = s, M.step⟩

theorem Run.append {tr tr' : List (σ × α)} {s t : σ} (h : Run M tr s)
    (h' : Run (M.startingAt s) tr' t) : Run M (tr ++ tr') t := by
  induction h' with
  | start h0 =>
      cases h0
      rw [List.append_nil]
      exact h
  | next _ hstep ih =>
      rw [← List.append_assoc]
      exact ih.next hstep

/-- Every step of the run was taken in a state where `G` allows it. -/
def Meets (G : σ → α → Prop) (tr : List (σ × α)) : Prop := ∀ e ∈ tr, G e.1 e.2

theorem meets_append {G : σ → α → Prop} {tr : List (σ × α)} {s : σ} {a : α} :
    Meets G (tr ++ [(s, a)]) ↔ Meets G tr ∧ G s a := by
  simp only [Meets, List.mem_append, List.mem_singleton]
  constructor
  · intro h
    exact ⟨fun e he => h e (Or.inl he), h (s, a) (Or.inr rfl)⟩
  · rintro ⟨htr, ha⟩ e (he | rfl)
    · exact htr e he
    · exact ha

/-- The states a run went through, the last one included. -/
def visited (tr : List (σ × α)) (s : σ) : List σ := tr.map Prod.fst ++ [s]

theorem visited_append (tr : List (σ × α)) (s t : σ) (a : α) :
    visited (tr ++ [(s, a)]) t = visited tr s ++ [t] := by
  rw [visited, visited, List.map_append]
  rfl

theorem Run.invariant {I : σ → Prop} {G : σ → α → Prop}
    (hinit : ∀ s, M.init s → I s)
    (hstep : ∀ s a t, I s → G s a → M.step s a t → I t)
    {tr : List (σ × α)} {s : σ} (h : Run M tr s) (hG : Meets G tr) : I s := by
  induction h with
  | start h0 => exact hinit _ h0
  | next _ hst ih =>
      obtain ⟨htr, ha⟩ := meets_append.mp hG
      exact hstep _ _ _ (ih htr) ha hst

theorem Run.invariant_always {I : σ → Prop} {G : σ → α → Prop}
    (hinit : ∀ s, M.init s → I s)
    (hstep : ∀ s a t, I s → G s a → M.step s a t → I t)
    {tr : List (σ × α)} {s : σ} (h : Run M tr s) (hG : Meets G tr) :
    ∀ t ∈ visited tr s, I t := by
  induction h with
  | start h0 => simpa [visited] using hinit _ h0
  | @next tr s t a hrun hst ih =>
      obtain ⟨htr, ha⟩ := meets_append.mp hG
      have hs := Run.invariant hinit hstep hrun htr
      intro u hu
      simp only [visited, List.map_append, List.map_cons, List.map_nil,
        List.mem_append, List.mem_singleton] at hu
      rcases hu with hu | rfl
      · exact ih htr u (by simpa only [visited, List.mem_append, List.mem_singleton] using hu)
      · exact hstep _ _ _ hs ha hst

/-- A property that holds at the start and that a step keeps exactly when it
meets `G` holds throughout a run exactly when every step meets `G`. The
invariant `I` holds of every run, whatever its steps. -/
theorem Run.always_iff {I P : σ → Prop} {G : σ → α → Prop}
    (hI : ∀ s, M.init s → I s) (hIstep : ∀ s a t, I s → M.step s a t → I t)
    (hP : ∀ s, M.init s → P s)
    (hPstep : ∀ s a t, I s → P s → M.step s a t → (P t ↔ G s a))
    {tr : List (σ × α)} {s : σ} (h : Run M tr s) :
    (∀ t ∈ visited tr s, P t) ↔ Meets G tr := by
  induction h with
  | start h0 => simpa [visited, Meets] using hP _ h0
  | @next tr s t a hrun hst ih =>
      have hs : I s :=
        Run.invariant (G := fun _ _ => True) hI (fun s a t h _ => hIstep s a t h) hrun
          (fun _ _ => trivial)
      have hsplit : (∀ u ∈ visited (tr ++ [(s, a)]) t, P u) ↔
          (∀ u ∈ visited tr s, P u) ∧ P t := by
        simp only [visited, List.map_append, List.map_cons, List.map_nil,
          List.mem_append, List.mem_singleton]
        constructor
        · intro hall
          exact ⟨fun u hu => hall u (Or.inl hu), hall t (Or.inr rfl)⟩
        · rintro ⟨hall, ht⟩ u (hu | rfl)
          · exact hall u hu
          · exact ht
      rw [hsplit, ih, meets_append]
      constructor
      · rintro ⟨htr, ht⟩
        have hPs : P s := (ih.mpr htr) s (by simp [visited])
        exact ⟨htr, (hPstep s a t hs hPs hst).mp ht⟩
      · rintro ⟨htr, ha⟩
        have hPs : P s := (ih.mpr htr) s (by simp [visited])
        exact ⟨htr, (hPstep s a t hs hPs hst).mpr ha⟩

end Machine
