import RomeSdk.Lib.Maps

/-!
# Intervals laid end to end

A piece is an offset with a length. `Tiles l a b` says that the pieces of `l`,
in this order, cover the interval from `a` to `b` with no gap and no overlap.
A set of pieces is a map from offsets to lengths, and it is looked at through
its ascending list.

Two facts carry what follows: a piece put at a new offset leaves a tiling only
at its end (`Tiles.insert_iff`), and pieces taken from a tiling without empty
pieces tile something themselves only if they are its first ones
(`Tiles.prefix_of_subset`).

`cut` is the sender's side: consecutive parts of a sequence, each with the
offset at which it starts.
-/

inductive Tiles : List (Nat × Nat) → Nat → Nat → Prop
  | nil (a : Nat) : Tiles [] a a
  | cons {a n b : Nat} {l : List (Nat × Nat)} :
      Tiles l (a + n) b → Tiles ((a, n) :: l) a b

namespace Tiles

variable {l l' : List (Nat × Nat)} {a b c : Nat}

theorem le (h : Tiles l a b) : a ≤ b := by
  induction h with
  | nil => exact Nat.le_refl _
  | cons _ ih => omega

/-- Where a list of pieces ends is settled by where it starts. -/
theorem end_unique (h : Tiles l a b) : ∀ {b' : Nat}, Tiles l a b' → b = b' := by
  induction h with
  | nil => intro b' h'; cases h'; rfl
  | cons _ ih =>
      intro b' h'
      cases h' with
      | cons h' => exact ih h'

theorem append (h : Tiles l a b) (h' : Tiles l' b c) : Tiles (l ++ l') a c := by
  induction h with
  | nil => exact h'
  | cons _ ih => exact .cons (ih h')

theorem of_append : ∀ {l : List (Nat × Nat)} {a : Nat}, Tiles (l ++ l') a c →
    ∃ b, Tiles l a b ∧ Tiles l' b c := by
  intro l
  induction l with
  | nil =>
      intro a h
      exact ⟨a, .nil a, h⟩
  | cons p l ih =>
      intro a h
      rw [List.cons_append] at h
      cases h with
      | cons h =>
          obtain ⟨b, h1, h2⟩ := ih h
          exact ⟨b, .cons h1, h2⟩

/-- A piece of a tiling lies within it. -/
theorem within (h : Tiles l a b) : ∀ {o n : Nat}, (o, n) ∈ l → a ≤ o ∧ o + n ≤ b := by
  induction h with
  | nil => intro o n hmem; cases hmem
  | @cons a m b l hl ih =>
      intro o n hmem
      have hle := hl.le
      rcases List.mem_cons.mp hmem with heq | hmem
      · cases heq
        omega
      · have := ih hmem
        omega

/-- A tiling covers every position of its interval. -/
theorem covers (h : Tiles l a b) : ∀ {i : Nat}, a ≤ i → i < b →
    ∃ o n, (o, n) ∈ l ∧ o ≤ i ∧ i < o + n := by
  induction h with
  | nil => intro i hai hib; omega
  | @cons a m b l _ ih =>
      intro i hai hib
      by_cases hi : i < a + m
      · exact ⟨a, m, List.mem_cons_self .., hai, hi⟩
      · obtain ⟨o, n, hmem, ho, hn⟩ := ih (by omega) hib
        exact ⟨o, n, List.mem_cons_of_mem _ hmem, ho, hn⟩

/-- A piece ends before the next ones begin. -/
theorem disjoint (h : Tiles l a b) : l.Pairwise fun p q => p.1 + p.2 ≤ q.1 := by
  induction h with
  | nil => exact .nil
  | @cons a n b l hl ih =>
      refine List.pairwise_cons.mpr ⟨?_, ih⟩
      intro q hq
      exact (hl.within hq).1

/-- No position lies in two pieces. -/
theorem piece_unique (h : Tiles l a b) {i : Nat} : ∀ {p q : Nat × Nat}, p ∈ l → q ∈ l →
    p.1 ≤ i ∧ i < p.1 + p.2 → q.1 ≤ i ∧ i < q.1 + q.2 → p = q := by
  induction h with
  | nil => intro p q hp; cases hp
  | @cons a n b l hl ih =>
      intro p q hp hq hip hiq
      rcases List.mem_cons.mp hp with rfl | hp <;> rcases List.mem_cons.mp hq with rfl | hq
      · rfl
      · have := hl.within hq
        simp only at hip
        omega
      · have := hl.within hp
        simp only at hiq
        omega
      · exact ih hp hq hip hiq

theorem existsUnique (h : Tiles l a b) {i : Nat} (hai : a ≤ i) (hib : i < b) :
    ∃! p, p ∈ l ∧ p.1 ≤ i ∧ i < p.1 + p.2 := by
  obtain ⟨o, n, hmem, ho, hn⟩ := h.covers hai hib
  refine ⟨(o, n), ⟨hmem, ho, hn⟩, ?_⟩
  intro q ⟨hq, hiq⟩
  exact h.piece_unique hq hmem hiq ⟨ho, hn⟩

/-- The positions of the pieces, one piece after the other, are those of the interval. -/
theorem flatMap_range' (h : Tiles l a b) :
    l.flatMap (fun p => List.range' p.1 p.2) = List.range' a (b - a) := by
  induction h with
  | nil => rw [Nat.sub_self]; rfl
  | @cons a n b l hl ih =>
      have hlength : b - a = n + (b - (a + n)) := by
        have := hl.le
        omega
      rw [List.flatMap_cons, ih, hlength, ← List.range'_append_1]

/-- Pieces taken from a tiling that has no empty piece form a tiling from the
same start only if they are its first ones. -/
theorem prefix_of_subset (h : Tiles l a b) : ∀ {s : List (Nat × Nat)} {c : Nat},
    Tiles s a c → (∀ p ∈ s, p ∈ l) → (∀ p ∈ l, 0 < p.2) → s <+: l := by
  induction h with
  | nil =>
      intro s c hs hsub _
      cases s with
      | nil => exact List.prefix_rfl
      | cons p s => exact absurd (hsub p (List.mem_cons_self ..)) List.not_mem_nil
  | @cons a n b l hl ih =>
      intro s c hs hsub hpos
      have hn : 0 < n := hpos (a, n) (List.mem_cons_self ..)
      cases hs with
      | nil => exact List.nil_prefix
      | @cons _ w _ s hs =>
          have hw : w = n := by
            rcases List.mem_cons.mp (hsub (a, w) (List.mem_cons_self ..)) with heq | hmem
            · exact congrArg Prod.snd heq
            · have := hl.within hmem
              omega
          subst hw
          have hrest : ∀ p ∈ s, p ∈ l := by
            intro p hp
            rcases List.mem_cons.mp (hsub p (List.mem_cons_of_mem _ hp)) with rfl | hmem
            · have := hs.within hp
              omega
            · exact hmem
          have hprefix := ih hs hrest fun p hp => hpos p (List.mem_cons_of_mem _ hp)
          exact List.cons_prefix_cons.mpr ⟨rfl, hprefix⟩

theorem ascending (h : Tiles l a b) (hpos : ∀ p ∈ l, 0 < p.2) :
    l.Pairwise fun p q => p.1 < q.1 := by
  refine h.disjoint.imp_of_mem ?_
  intro p q hp _ hle
  have := hpos p hp
  show p.1 < q.1
  omega

/-- The first pieces of a tiling are a tiling. -/
theorem take (h : Tiles l a b) (k : Nat) : ∃ c, Tiles (l.take k) a c := by
  rw [← List.take_append_drop k l] at h
  obtain ⟨c, hc, _⟩ := of_append h
  exact ⟨c, hc⟩

/-! ## Tilings held in a map -/

variable {m : BTreeMap Nat Nat}

/-- A new piece at the end of a tiling extends it. -/
theorem insert_end {n : Nat} (h : Tiles m.toList 0 b) (ho : m[b]? = none) :
    Tiles (m.insert b n).toList 0 (b + n) := by
  have habove : ∀ k w, m[k]? = some w → k < b := by
    intro k w hk
    have hle := h.within ((BTreeMap.mem_toList m k w).mpr hk)
    have hne : k ≠ b := fun heq => by
      rw [heq, ho] at hk
      cases hk
    omega
  rw [BTreeMap.toList_insert_above habove]
  exact h.append (.cons (.nil _))

/-- A piece at a new offset leaves a tiling if and only if it goes at the end. -/
theorem insert_iff {o n : Nat} (h : Tiles m.toList 0 b) (ho : m[o]? = none) :
    (∃ b', Tiles (m.insert o n).toList 0 b') ↔ o = b := by
  constructor
  · intro ⟨b', h'⟩
    have hmem : (o, n) ∈ (m.insert o n).toList := by
      rw [BTreeMap.mem_toList, BTreeMap.get?_insert, if_pos rfl]
    -- what stands before the new piece is what stood there in the old tiling
    obtain ⟨pre, post, hsplit⟩ := List.append_of_mem hmem
    have hasc := BTreeMap.toList_ascending (m.insert o n)
    rw [hsplit, List.pairwise_append, List.pairwise_cons] at hasc
    obtain ⟨hpre, ⟨hopost, hpost⟩, hcross⟩ := hasc
    have holdlist : m.toList = pre ++ post := by
      refine BTreeMap.toList_eq_of_ascending ?_ ?_
      · rw [List.pairwise_append]
        refine ⟨hpre, hpost, ?_⟩
        intro e he e' he'
        exact hcross e he e' (List.mem_cons_of_mem _ he')
      · intro k w
        have hkw : (k, w) ∈ (m.insert o n).toList ↔ (k, w) ∈ pre ++ (o, n) :: post := by
          rw [hsplit]
        rw [BTreeMap.mem_toList, BTreeMap.get?_insert, List.mem_append, List.mem_cons] at hkw
        rw [List.mem_append]
        by_cases hk : o = k
        · subst hk
          rw [ho]
          constructor
          · rintro (hin | hin)
            · have := hcross (o, w) hin (o, n) (List.mem_cons_self ..)
              simp at this
            · have := hopost (o, w) hin
              simp at this
          · intro hnone
            cases hnone
        · rw [if_neg hk] at hkw
          have hne : (k, w) ≠ (o, n) := fun heq => hk (congrArg Prod.fst heq).symm
          rw [hkw]
          simp only [hne, false_or]
    rw [hsplit] at h'
    obtain ⟨c, hpreTile, hrest⟩ := of_append h'
    cases hrest with
    | cons _ =>
        rw [holdlist] at h
        obtain ⟨c', hpreTile', hpostTile⟩ := of_append h
        have hc : o = c' := hpreTile.end_unique hpreTile'
        cases hpostTile with
        | nil => exact hc
        | @cons _ w _ post' _ =>
            have := hopost (c', w) (List.mem_cons_self ..)
            simp only at this
            omega
  · intro hob
    subst hob
    exact ⟨o + n, h.insert_end ho⟩

end Tiles

/-! ## Parts of a sequence -/

section

variable {α : Type}

/-- `part` stands in `whole` at `offset`. -/
structure Slice (whole : List α) (offset : Nat) (part : List α) : Prop where
  fits : offset + part.length ≤ whole.length
  agrees : ∀ i, i < part.length → part[i]? = whole[offset + i]?

/-- Consecutive parts, each with its offset. -/
def cut (offset : Nat) : List (List α) → List (Nat × List α)
  | [] => []
  | part :: parts => (offset, part) :: cut (offset + part.length) parts

/-- The pieces a list of parts occupies. -/
def shape (parts : List (Nat × List α)) : List (Nat × Nat) :=
  parts.map fun p => (p.1, p.2.length)

theorem cut_tiles : ∀ (parts : List (List α)) (a : Nat),
    Tiles (shape (cut a parts)) a (a + parts.flatten.length) := by
  intro parts
  induction parts with
  | nil => intro a; exact .nil a
  | cons part parts ih =>
      intro a
      have h := ih (a + part.length)
      rw [List.flatten_cons, List.length_append, ← Nat.add_assoc]
      exact .cons h

/-- Parts that tile are as long as what they tile. -/
theorem Tiles.end_eq : ∀ {parts : List (Nat × List α)} {a b : Nat}, Tiles (shape parts) a b →
    b = a + (parts.map Prod.snd).flatten.length := by
  intro parts
  induction parts with
  | nil =>
      intro a b h
      cases h
      rfl
  | cons part parts ih =>
      intro a b h
      cases h with
      | cons h =>
          rw [List.map_cons, List.flatten_cons, List.length_append, ih h]
          omega

theorem length_cut : ∀ (parts : List (List α)) (a : Nat), (cut a parts).length = parts.length := by
  intro parts
  induction parts with
  | nil => intro a; rfl
  | cons part parts ih => intro a; rw [cut, List.length_cons, ih, List.length_cons]

theorem mem_cut : ∀ {parts : List (List α)} {a o : Nat} {part : List α},
    (o, part) ∈ cut a parts → part ∈ parts := by
  intro parts
  induction parts with
  | nil => intro a o part h; cases h
  | cons p parts ih =>
      intro a o part h
      rcases List.mem_cons.mp h with heq | hmem
      · cases heq
        exact List.mem_cons_self ..
      · exact List.mem_cons_of_mem _ (ih hmem)

/-- What `cut` puts at an offset is what the sequence holds there. -/
theorem cut_slice : ∀ {parts : List (List α)} {before : List α} {o : Nat} {part : List α},
    (o, part) ∈ cut before.length parts → Slice (before ++ parts.flatten) o part := by
  intro parts
  induction parts with
  | nil => intro before o part h; cases h
  | cons p parts ih =>
      intro before o part h
      rw [List.flatten_cons]
      rcases List.mem_cons.mp h with heq | hmem
      · cases heq
        refine ⟨by simp, ?_⟩
        intro i hi
        rw [List.getElem?_append_right (by omega), Nat.add_sub_cancel_left,
          List.getElem?_append_left hi]
      · rw [← List.append_assoc]
        refine ih ?_
        rw [List.length_append]
        exact hmem

end
