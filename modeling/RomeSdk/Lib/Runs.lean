import Mathlib.Data.List.SplitBy

/-!
# The maximal runs of a list

A list is cut where a key changes: `runs key l` are the longest stretches of equal
keys, in order. A loop that goes through a list once and collects them has seen, at
any point, the runs of what it has gone through, the last of which is still open;
`runs_append_same` and `runs_append_new` are its two steps, and `runs_take` says what the
runs of a first part are.
-/

section

variable {α κ : Type} [DecidableEq κ] {key : α → κ}

def runs (key : α → κ) (l : List α) : List (List α) :=
  l.splitBy fun a b => decide (key a = key b)

/-- Non-empty lists of one key each, any two neighbours of different keys. -/
structure AreRuns (key : α → κ) (groups : List (List α)) : Prop where
  nonempty : ∀ g ∈ groups, g ≠ []
  same : ∀ g ∈ groups, ∀ a ∈ g, ∀ b ∈ g, key a = key b
  differ : groups.IsChain fun g g' => ∀ a ∈ g, ∀ b ∈ g', key a ≠ key b

theorem isChain_same_iff {g : List α} :
    (g.IsChain fun a b => decide (key a = key b) = true) ↔ ∀ a ∈ g, ∀ b ∈ g, key a = key b := by
  constructor
  · intro h
    have htrans : g.Pairwise fun a b => key a = key b := by
      have hchain : g.IsChain fun a b => key a = key b := h.imp fun _ _ hab => of_decide_eq_true hab
      have : IsTrans α fun a b => key a = key b := ⟨fun _ _ _ hab hbc => hab.trans hbc⟩
      exact hchain.pairwise
    have : Std.Symm fun a b => key a = key b := ⟨fun _ _ hab => hab.symm⟩
    intro a ha b hb
    exact List.Pairwise.forall_of_forall (R := fun a b => key a = key b) (fun _ _ => rfl)
      htrans ha hb
  · intro h
    refine List.Pairwise.isChain ?_
    exact List.pairwise_of_forall_mem_list fun a ha b hb => decide_eq_true (h a ha b hb)

/-- The runs of a list are the one way to cut it into runs. -/
theorem runs_eq_iff {l : List α} {groups : List (List α)} :
    runs key l = groups ↔ l = groups.flatten ∧ AreRuns key groups := by
  rw [runs, List.splitBy_eq_iff]
  have hdiffer : (∀ g ∈ groups, g ≠ []) → (∀ g ∈ groups, ∀ a ∈ g, ∀ b ∈ g, key a = key b) →
      ((groups.IsChain fun g g' => ∃ ha hb,
          decide (key (g.getLast ha) = key (g'.head hb)) = false) ↔
        groups.IsChain fun g g' => ∀ a ∈ g, ∀ b ∈ g', key a ≠ key b) := by
    intro hne hsame
    refine List.IsChain.iff_of_mem_imp fun g g' hg hg' => ?_
    constructor
    · rintro ⟨hn, hn', hlast⟩ a ha b hb hab
      refine of_decide_eq_false hlast ?_
      rw [hsame g hg _ (List.getLast_mem hn) a ha, hab,
        hsame g' hg' b hb _ (List.head_mem hn')]
    · intro h
      refine ⟨hne g hg, hne g' hg', decide_eq_false ?_⟩
      exact h _ (List.getLast_mem _) _ (List.head_mem _)
  constructor
  · rintro ⟨hl, hne, hsame, hchain⟩
    have hne' : ∀ g ∈ groups, g ≠ [] := fun g hg heq => hne (heq ▸ hg)
    have hsame' : ∀ g ∈ groups, ∀ a ∈ g, ∀ b ∈ g, key a = key b :=
      fun g hg => isChain_same_iff.mp (hsame g hg)
    exact ⟨hl, hne', hsame', (hdiffer hne' hsame').mp hchain⟩
  · rintro ⟨hl, hne, hsame, hchain⟩
    exact ⟨hl, fun hmem => hne [] hmem rfl, fun g hg => isChain_same_iff.mpr (hsame g hg),
      (hdiffer hne hsame).mpr hchain⟩

theorem flatten_runs (key : α → κ) (l : List α) : (runs key l).flatten = l :=
  (runs_eq_iff.mp rfl).1.symm

theorem areRuns (key : α → κ) (l : List α) : AreRuns key (runs key l) := (runs_eq_iff.mp rfl).2

theorem runs_nil : runs key ([] : List α) = [] := rfl

theorem runs_map {β : Type} (key : α → κ) (f : β → α) (l : List β) :
    runs key (l.map f) = (runs (fun b => key (f b)) l).map (List.map f) := by
  have hruns := areRuns (fun b => key (f b)) l
  refine runs_eq_iff.mpr ⟨by rw [← List.map_flatten, flatten_runs], ?_, ?_, ?_⟩
  · intro g hg
    obtain ⟨g', hg', rfl⟩ := List.mem_map.mp hg
    exact fun hnil => hruns.nonempty g' hg' (List.map_eq_nil_iff.mp hnil)
  · intro g hg a ha b hb
    obtain ⟨g', hg', rfl⟩ := List.mem_map.mp hg
    obtain ⟨a', ha', rfl⟩ := List.mem_map.mp ha
    obtain ⟨b', hb', rfl⟩ := List.mem_map.mp hb
    exact hruns.same g' hg' a' ha' b' hb'
  · rw [List.isChain_map]
    refine hruns.differ.imp fun g g' hdiffer a ha b hb => ?_
    obtain ⟨a', ha', rfl⟩ := List.mem_map.mp ha
    obtain ⟨b', hb', rfl⟩ := List.mem_map.mp hb
    exact hdiffer a' ha' b' hb'

/-- An element with the key of the last run goes into it. -/
theorem runs_append_same {l : List α} {closed : List (List α)} {opened : List α} {e : α}
    (h : runs key l = closed ++ [opened]) (hkey : ∀ a ∈ opened, key a = key e) :
    runs key (l ++ [e]) = closed ++ [opened ++ [e]] := by
  obtain ⟨hl, hne, hsame, hdiffer⟩ := runs_eq_iff.mp h
  have hopened : opened ≠ [] := hne opened (by simp)
  refine runs_eq_iff.mpr ⟨by simp [hl], ?_, ?_, ?_⟩
  · intro g hg
    rcases List.mem_append.mp hg with hg | hg
    · exact hne g (List.mem_append_left _ hg)
    · rw [List.mem_singleton.mp hg]
      simp
  · intro g hg a ha b hb
    rcases List.mem_append.mp hg with hg | hg
    · exact hsame g (List.mem_append_left _ hg) a ha b hb
    · rw [List.mem_singleton] at hg
      subst hg
      have hall : ∀ x ∈ opened ++ [e], key x = key e := by
        intro x hx
        rcases List.mem_append.mp hx with hx | hx
        · exact hkey x hx
        · rw [List.mem_singleton.mp hx]
      rw [hall a ha, hall b hb]
  · rw [List.isChain_append] at hdiffer ⊢
    refine ⟨hdiffer.1, List.isChain_singleton _, ?_⟩
    intro g hg g' hg' a ha b hb
    cases hg'
    obtain ⟨x, hx⟩ := List.exists_mem_of_ne_nil opened hopened
    have hold := hdiffer.2.2 g hg opened rfl a ha x hx
    rcases List.mem_append.mp hb with hb | hb
    · exact hdiffer.2.2 g hg opened rfl a ha b hb
    · rw [List.mem_singleton.mp hb, ← hkey x hx]
      exact hold

/-- One with another key opens a new run. -/
theorem runs_append_new {l : List α} {e : α} (hkey : ∀ a ∈ l.getLast?, key a ≠ key e) :
    runs key (l ++ [e]) = runs key l ++ [[e]] :=
  List.splitBy_append_cons [] fun a ha => decide_eq_false (hkey a ha)

/-- Where a run is in the list. -/
theorem run_at {l : List α} {before after : List (List α)} {g : List α}
    (h : runs key l = before ++ g :: after) :
    l = before.flatten ++ (g ++ after.flatten) ∧ (l.drop before.flatten.length).take g.length = g := by
  have hl : l = before.flatten ++ (g ++ after.flatten) := by
    rw [← flatten_runs key l, h, List.flatten_append, List.flatten_cons]
  exact ⟨hl, by rw [hl, List.drop_left, List.take_left]⟩

/-- The runs of a first part, which ends within a run. -/
theorem runs_take {l : List α} {before after : List (List α)} {g : List α} {i : Nat}
    (h : runs key l = before ++ g :: after) (hi : 0 < i) :
    runs key (before.flatten ++ g.take i) = before ++ [g.take i] := by
  obtain ⟨hl, hne, hsame, hdiffer⟩ := runs_eq_iff.mp h
  have htake : g.take i ≠ [] := by
    have hg : g ≠ [] := hne g (by simp)
    intro hnil
    rcases List.take_eq_nil_iff.mp hnil with hzero | hnil
    · omega
    · exact hg hnil
  refine runs_eq_iff.mpr ⟨by simp, ?_, ?_, ?_⟩
  · intro g' hg'
    rcases List.mem_append.mp hg' with hg' | hg'
    · exact hne g' (List.mem_append_left _ hg')
    · rw [List.mem_singleton.mp hg']
      exact htake
  · intro g' hg' a ha b hb
    rcases List.mem_append.mp hg' with hg' | hg'
    · exact hsame g' (List.mem_append_left _ hg') a ha b hb
    · rw [List.mem_singleton] at hg'
      subst hg'
      exact hsame g (by simp) a (List.mem_of_mem_take ha) b (List.mem_of_mem_take hb)
  · rw [List.isChain_append] at hdiffer ⊢
    refine ⟨hdiffer.1, List.isChain_singleton _, ?_⟩
    intro x hx y hy a ha b hb
    cases hy
    exact hdiffer.2.2 x hx g rfl a ha b (List.mem_of_mem_take hb)

end
