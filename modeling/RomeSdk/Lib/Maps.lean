import Mathlib.Data.List.AList
import Std.Data.ExtTreeMap

/-!
# Finite maps: the ordered one and the one with no order of its own

Two maps carry every table in this development. `BTreeMap` is the core
library's extensional tree map, so two of them are equal when they answer every
lookup alike and its `toList` is the ascending order an iterator shows.
`HashMap` is Mathlib's association list with distinct keys: the list is the
order in which an iterator happens to run through the map, and nothing but
`HashMap.Same` relates the orders of two maps with the same content.

The operations below are the ones an `entry` API offers: write through an
entry whether or not it is there, keep the value that is there already, and
filter a map while rewriting what stays.
-/

/-- A map that iterates in ascending key order. -/
abbrev BTreeMap (K V : Type) [Ord K] : Type := Std.ExtTreeMap K V compare

/-- A map together with the order in which its iterator runs. -/
abbrev HashMap (K V : Type) : Type := AList (fun _ : K => V)

namespace BTreeMap

variable {K V : Type} [Ord K] [Std.TransOrd K] [Std.LawfulEqOrd K]

/-- Write through the entry of `k`: `f` sees the value that is there, if any. -/
def upsert (m : BTreeMap K V) (k : K) (f : Option V → V) : BTreeMap K V :=
  m.alter k (fun o => some (f o))

theorem get?_upsert [DecidableEq K] (m : BTreeMap K V) (k a : K) (f : Option V → V) :
    (m.upsert k f)[a]? = if k = a then some (f m[k]?) else m[a]? := by
  rw [upsert, Std.ExtTreeMap.getElem?_alter]
  simp only [Std.LawfulEqCmp.compare_eq_iff_eq]

theorem get?_insert [DecidableEq K] (m : BTreeMap K V) (k a : K) (v : V) :
    (m.insert k v)[a]? = if k = a then some v else m[a]? := by
  rw [Std.ExtTreeMap.getElem?_insert]
  simp only [Std.LawfulEqCmp.compare_eq_iff_eq]

theorem get?_insertIfNew [DecidableEq K] (m : BTreeMap K V) (k a : K) (v : V) :
    (m.insertIfNew k v)[a]? = if k = a then some (m[k]?.getD v) else m[a]? := by
  rw [Std.ExtTreeMap.getElem?_insertIfNew]
  simp only [Std.LawfulEqCmp.compare_eq_iff_eq]
  by_cases hka : k = a
  · subst hka
    cases hk : m[k]? with
    | none => simp [Std.ExtTreeMap.mem_iff_isSome_getElem?, hk]
    | some w => simp [Std.ExtTreeMap.mem_iff_isSome_getElem?, hk]
  · simp [hka]

theorem get?_filterMap {W : Type} (m : BTreeMap K V) (f : K → V → Option W) (k : K) :
    (Std.ExtTreeMap.filterMap f m)[k]? = m[k]?.bind (f k) :=
  Std.ExtTreeMap.getElem?_filterMap'

theorem mem_toList (m : BTreeMap K V) (k : K) (v : V) :
    (k, v) ∈ m.toList ↔ m[k]? = some v :=
  Std.ExtTreeMap.mem_toList_iff_getElem?_eq_some

theorem keys_nodup (m : BTreeMap K V) : (m.toList.map Prod.fst).Nodup := by
  rw [Std.ExtTreeMap.map_fst_toList_eq_keys]
  exact Std.ExtTreeMap.distinct_keys.imp fun hne heq => hne (by simp [heq])

end BTreeMap

/-! ## Maps keyed by numbers, in ascending order -/

namespace BTreeMap

variable {V : Type}

theorem toList_ascending (m : BTreeMap Nat V) : m.toList.Pairwise fun a b => a.1 < b.1 := by
  exact Std.ExtTreeMap.ordered_keys_toList.imp fun h => Nat.compare_eq_lt.mp h

/-- An ascending list with the content of a map is its `toList`. -/
theorem toList_eq_of_ascending {m : BTreeMap Nat V} {l : List (Nat × V)}
    (hl : l.Pairwise fun a b => a.1 < b.1) (h : ∀ k v, (k, v) ∈ l ↔ m[k]? = some v) :
    m.toList = l := by
  have hnodup : ∀ {l' : List (Nat × V)}, (l'.Pairwise fun a b => a.1 < b.1) → l'.Nodup := by
    intro l' hl'
    exact hl'.imp fun hlt heq => absurd hlt (by rw [heq]; omega)
  have hperm : m.toList.Perm l := by
    rw [List.perm_ext_iff_of_nodup (hnodup (toList_ascending m)) (hnodup hl)]
    intro ⟨k, v⟩
    rw [mem_toList, h k v]
  exact hperm.eq_of_pairwise (fun a b _ _ hab hba => absurd hab (by omega))
    (toList_ascending m) hl

/-- The same values under keys that ascend alike are listed alike. -/
theorem toList_renamed {m m' : BTreeMap Nat V} {f : Nat → Nat} (hf : ∀ i j, i < j → f i < f j)
    (h : ∀ j v, m'[j]? = some v ↔ ∃ i, f i = j ∧ m[i]? = some v) :
    m'.toList = m.toList.map fun e => (f e.1, e.2) := by
  refine toList_eq_of_ascending ?_ ?_
  · rw [List.pairwise_map]
    exact (toList_ascending m).imp fun hlt => hf _ _ hlt
  · intro k v
    rw [h, List.mem_map]
    constructor
    · rintro ⟨⟨i, w⟩, hin, heq⟩
      cases heq
      exact ⟨i, rfl, (mem_toList m i w).mp hin⟩
    · rintro ⟨i, rfl, hi⟩
      exact ⟨(i, v), (mem_toList m i v).mpr hi, rfl⟩

/-- A key above all others comes last. -/
theorem toList_insert_above {m : BTreeMap Nat V} {a : Nat} {v : V}
    (h : ∀ k w, m[k]? = some w → k < a) : (m.insert a v).toList = m.toList ++ [(a, v)] := by
  have hbelow : ∀ e ∈ m.toList, e.1 < a := fun e he => h e.1 e.2 ((mem_toList m e.1 e.2).mp he)
  refine toList_eq_of_ascending ?_ ?_
  · rw [List.pairwise_append]
    refine ⟨toList_ascending m, List.pairwise_singleton _ _, ?_⟩
    intro e he e' he'
    rw [List.mem_singleton.mp he']
    exact hbelow e he
  · intro k w
    rw [List.mem_append, mem_toList, List.mem_singleton, get?_insert]
    by_cases hk : a = k
    · subst hk
      have hnone : m[a]? ≠ some w := fun hw => absurd (h a w hw) (by omega)
      simp [hnone, eq_comm]
    · have hne : (k, w) ≠ (a, v) := fun heq => hk (congrArg Prod.fst heq).symm
      simp [hk, hne]

/-- A list of entries put into a map one after the other. -/
def insertAll (m : BTreeMap Nat V) (l : List (Nat × V)) : BTreeMap Nat V :=
  l.foldl (fun m e => m.insert e.1 e.2) m

theorem mem_keys_insertAll (l : List (Nat × V)) : ∀ {m : BTreeMap Nat V} {k : Nat},
    k ∈ m.insertAll l ↔ k ∈ l.map Prod.fst ∨ k ∈ m := by
  induction l with
  | nil => intro m k; simp [insertAll]
  | cons e l ih =>
      intro m k
      have hrest := ih (m := m.insert e.1 e.2) (k := k)
      rw [insertAll, List.foldl_cons]
      rw [insertAll] at hrest
      rw [hrest, Std.ExtTreeMap.mem_insert, List.map_cons, List.mem_cons,
        Std.LawfulEqCmp.compare_eq_iff_eq]
      constructor
      · rintro (h | h | h)
        · exact Or.inl (Or.inr h)
        · exact Or.inl (Or.inl h.symm)
        · exact Or.inr h
      · rintro ((h | h) | h)
        · exact Or.inr (Or.inl h.symm)
        · exact Or.inl h
        · exact Or.inr (Or.inr h)

theorem get?_insertAll (l : List (Nat × V)) : ∀ {m : BTreeMap Nat V} {k : Nat} {v : V},
    (l.map Prod.fst).Nodup →
      ((m.insertAll l)[k]? = some v ↔
        (k, v) ∈ l ∨ (k ∉ l.map Prod.fst ∧ m[k]? = some v)) := by
  induction l with
  | nil => intro m k v _; simp [insertAll]
  | cons e l ih =>
      intro m k v hnodup
      rw [List.map_cons, List.nodup_cons] at hnodup
      have hrest := ih (m := m.insert e.1 e.2) (k := k) (v := v) hnodup.2
      rw [insertAll, List.foldl_cons]
      rw [insertAll] at hrest
      rw [hrest, get?_insert, List.mem_cons, List.map_cons, List.mem_cons]
      by_cases hk : e.1 = k
      · subst hk
        have hnot : ∀ w, (e.1, w) ∉ l := fun w hw => hnodup.1 (List.mem_map.mpr ⟨_, hw, rfl⟩)
        have heq : (e.1, v) = e ↔ e.2 = v := by
          constructor
          · intro h
            rw [← h]
          · intro h
            rw [← h]
        rw [if_pos rfl, heq]
        simp [hnot v, hnodup.1]
      · have hne : (k, v) ≠ e := fun h => hk (by rw [← h])
        have hne' : k ≠ e.1 := fun h => hk h.symm
        simp only [if_neg hk, hne, hne', false_or]

theorem insertAll_append (m : BTreeMap Nat V) (l later : List (Nat × V)) :
    m.insertAll (l ++ later) = (m.insertAll l).insertAll later := List.foldl_append

/-- The order of entries with distinct keys does not matter. -/
theorem insertAll_perm {l l' : List (Nat × V)} (hnodup : (l.map Prod.fst).Nodup)
    (hperm : l'.Perm l) (m : BTreeMap Nat V) : m.insertAll l' = m.insertAll l := by
  refine Std.ExtTreeMap.ext_getElem? fun {k} => Option.ext fun v => ?_
  rw [get?_insertAll l hnodup, get?_insertAll l' ((hperm.map _).nodup_iff.mpr hnodup),
    hperm.mem_iff, (hperm.map Prod.fst).mem_iff]

/-- With keys written twice, the last entry of a key stays. -/
theorem get?_insertAll_last (l : List (Nat × V)) : ∀ {m : BTreeMap Nat V} {k : Nat} {v : V},
    (m.insertAll l)[k]? = some v ↔
      (∃ before after, l = before ++ (k, v) :: after ∧ k ∉ after.map Prod.fst) ∨
        (k ∉ l.map Prod.fst ∧ m[k]? = some v) := by
  induction l with
  | nil => intro m k v; simp [insertAll]
  | cons e l ih =>
      intro m k v
      have hrest := ih (m := m.insert e.1 e.2) (k := k) (v := v)
      rw [insertAll, List.foldl_cons]
      rw [insertAll] at hrest
      rw [hrest, get?_insert, List.map_cons, List.mem_cons]
      constructor
      · rintro (⟨before, after, rfl, hafter⟩ | ⟨hl, hv⟩)
        · exact Or.inl ⟨e :: before, after, rfl, hafter⟩
        · by_cases hk : e.1 = k
          · rw [if_pos hk] at hv
            cases hv
            subst hk
            exact Or.inl ⟨[], l, rfl, hl⟩
          · rw [if_neg hk] at hv
            exact Or.inr ⟨fun hin => hin.elim (fun h => hk h.symm) hl, hv⟩
      · rintro (⟨before, after, hsplit, hafter⟩ | ⟨hl, hv⟩)
        · cases before with
          | nil =>
              cases hsplit
              exact Or.inr ⟨hafter, if_pos rfl⟩
          | cons e' before =>
              cases hsplit
              exact Or.inl ⟨before, after, rfl, hafter⟩
        · rw [not_or] at hl
          exact Or.inr ⟨hl.2, by rw [if_neg (fun h => hl.1 h.symm)]; exact hv⟩

/-- With a key written twice there are fewer entries than were put in. -/
theorem nodup_of_length_insertAll {l : List (Nat × V)}
    (h : ((∅ : BTreeMap Nat V).insertAll l).toList.length = l.length) :
    (l.map Prod.fst).Nodup := by
  have hsub : ((∅ : BTreeMap Nat V).insertAll l).toList.map Prod.fst ⊆ l.map Prod.fst := by
    intro k hk
    rw [Std.ExtTreeMap.map_fst_toList_eq_keys, Std.ExtTreeMap.mem_keys,
      mem_keys_insertAll] at hk
    rcases hk with hk | hk
    · exact hk
    · exact absurd hk Std.ExtTreeMap.not_mem_empty
  have hperm := (List.subperm_of_subset (keys_nodup _) hsub).perm_of_length_le
    (by rw [List.length_map, List.length_map, h])
  exact hperm.nodup_iff.mp (keys_nodup _)

end BTreeMap

namespace HashMap

variable {K V : Type}

/-- Two maps with the same content: only the iteration order may differ. -/
def Same (m m' : HashMap K V) : Prop := m.entries.Perm m'.entries

theorem Same.refl (m : HashMap K V) : Same m m := List.Perm.refl _

theorem Same.symm {m m' : HashMap K V} (h : Same m m') : Same m' m := List.Perm.symm h

variable [DecidableEq K]

theorem Same.lookup {m m' : HashMap K V} (h : Same m m') (k : K) :
    m.lookup k = m'.lookup k := AList.perm_lookup h

/-- A map is determined by what it answers, up to its order. -/
theorem same_of_lookup {m m' : HashMap K V} (h : ∀ k, m.lookup k = m'.lookup k) : Same m m' :=
  List.lookup_ext m.nodupKeys m'.nodupKeys fun k v => by
    change v ∈ m.lookup k ↔ v ∈ m'.lookup k
    rw [h k]

theorem mem_of_lookup {m : HashMap K V} {k : K} {v : V} (h : m.lookup k = some v) : k ∈ m := by
  rw [← AList.lookup_isSome, h]
  rfl

theorem lookup_of_mem {m : HashMap K V} {k : K} (h : k ∈ m) : ∃ v, m.lookup k = some v :=
  Option.isSome_iff_exists.mp (AList.lookup_isSome.mpr h)

/-- Write through the entry of `k`: `f` sees the value that is there, if any. -/
def upsert (m : HashMap K V) (k : K) (f : Option V → V) : HashMap K V :=
  m.insert k (f (m.lookup k))

theorem lookup_insert' (m : HashMap K V) (k a : K) (v : V) :
    (m.insert k v).lookup a = if k = a then some v else m.lookup a := by
  split
  · next h => subst h; exact AList.lookup_insert m
  · next h => exact AList.lookup_insert_ne (Ne.symm h)

theorem lookup_upsert (m : HashMap K V) (k a : K) (f : Option V → V) :
    (m.upsert k f).lookup a = if k = a then some (f (m.lookup k)) else m.lookup a :=
  lookup_insert' m k a _

theorem lookup_erase' (m : HashMap K V) (k a : K) :
    (m.erase k).lookup a = if k = a then none else m.lookup a := by
  split
  · next h => subst h; exact AList.lookup_erase k m
  · next h => exact AList.lookup_erase_ne (Ne.symm h)

/-- Keep the value that is there already. -/
def insertIfNew (m : HashMap K V) (k : K) (v : V) : HashMap K V :=
  if k ∈ m then m else m.insert k v

theorem lookup_insertIfNew (m : HashMap K V) (k a : K) (v : V) :
    (m.insertIfNew k v).lookup a = if k = a then some ((m.lookup k).getD v) else m.lookup a := by
  unfold insertIfNew
  by_cases hk : k ∈ m
  · rw [if_pos hk]
    obtain ⟨w, hw⟩ := lookup_of_mem hk
    by_cases hka : k = a
    · subst hka
      simp [hw]
    · simp [hka]
  · rw [if_neg hk, lookup_insert', AList.lookup_eq_none.mpr hk]
    rfl

/-- Filter a map while rewriting what stays. -/
def filterMap {W : Type} (m : HashMap K V) (f : K → V → Option W) : HashMap K W where
  entries := m.entries.filterMap fun e => (f e.1 e.2).map (Sigma.mk e.1)
  nodupKeys := by
    rw [List.nodupKeys_iff_pairwise]
    refine (List.nodupKeys_iff_pairwise.mp m.nodupKeys).filterMap _ ?_
    intro a b hab x hx y hy
    simp only [Option.map_eq_some_iff] at hx hy
    obtain ⟨_, _, rfl⟩ := hx
    obtain ⟨_, _, rfl⟩ := hy
    exact hab

theorem lookup_filterMap {W : Type} (m : HashMap K V) (f : K → V → Option W) (k : K) :
    (m.filterMap f).lookup k = (m.lookup k).bind (f k) := by
  apply Option.ext
  intro w
  rw [← Option.mem_def, AList.mem_lookup_iff, Option.bind_eq_some_iff]
  simp only [filterMap, List.mem_filterMap, Option.map_eq_some_iff]
  constructor
  · rintro ⟨⟨k', v⟩, hmem, w', hf, heq⟩
    cases heq
    exact ⟨v, AList.mem_lookup_iff.mpr hmem, hf⟩
  · rintro ⟨v, hv, hf⟩
    exact ⟨⟨k, v⟩, AList.mem_lookup_iff.mp hv, w, hf, rfl⟩

theorem mem_entries (m : HashMap K V) (k : K) (v : V) :
    (⟨k, v⟩ : Sigma fun _ : K => V) ∈ m.entries ↔ m.lookup k = some v :=
  AList.mem_lookup_iff.symm

end HashMap
