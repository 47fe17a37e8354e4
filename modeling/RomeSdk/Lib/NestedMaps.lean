import Mathlib.Data.List.Dedup
import RomeSdk.Lib.Maps

/-!
# Maps keyed by pairs, kept as maps of maps

Items that come in groups and are numbered within their group are kept in an
ordered map of ordered maps. Its entries, laid out one group after the other,
ascend in the lexicographic order of the pairs (`entries_ascending`), so what
the map shows is determined by what it answers (`entries_eq_of_ascending`). A
group that was emptied would hide the last entry of a map; `Full` says there is
none, which is so as long as entries are only added.
-/

/-- The group of an item and its number within the group. -/
abbrev ItemId := Nat × Nat

def ItemId.Before (a b : ItemId) : Prop := a.1 < b.1 ∨ a.1 = b.1 ∧ a.2 < b.2

instance ItemId.decidableBefore (a b : ItemId) : Decidable (ItemId.Before a b) :=
  inferInstanceAs (Decidable (a.1 < b.1 ∨ a.1 = b.1 ∧ a.2 < b.2))

namespace ItemId.Before

theorem trans {a b c : ItemId} (h : Before a b) (h' : Before b c) : Before a c := by
  unfold Before at h h' ⊢
  omega

theorem irrefl (a : ItemId) : ¬ Before a a := by
  unfold Before
  omega

theorem asymm {a b : ItemId} (h : Before a b) : ¬ Before b a := by
  unfold Before at h ⊢
  omega

theorem total (a b : ItemId) : Before a b ∨ a = b ∨ Before b a := by
  unfold Before
  rw [Prod.ext_iff]
  omega

theorem group_le {a b : ItemId} (h : Before a b) : a.1 ≤ b.1 := by
  unfold Before at h
  omega

end ItemId.Before

open ItemId (Before)

/-- Of the items of a list that have a property one is last. -/
theorem ItemId.exists_last {P : ItemId → Prop} (l : List ItemId) : (∃ a ∈ l, P a) →
    ∃ a ∈ l, P a ∧ ∀ b ∈ l, P b → b = a ∨ Before b a := by
  induction l with
  | nil =>
      intro h
      obtain ⟨a, ha, _⟩ := h
      cases ha
  | cons c l ih =>
      intro h
      by_cases hrest : ∃ a ∈ l, P a
      · obtain ⟨a, ha, hPa, hlast⟩ := ih hrest
        by_cases hc : P c ∧ Before a c
        · refine ⟨c, List.mem_cons_self .., hc.1, ?_⟩
          intro b hb hPb
          rcases List.mem_cons.mp hb with rfl | hb
          · exact Or.inl rfl
          · rcases hlast b hb hPb with rfl | hba
            · exact Or.inr hc.2
            · exact Or.inr (hba.trans hc.2)
        · refine ⟨a, List.mem_cons_of_mem _ ha, hPa, ?_⟩
          intro b hb hPb
          rcases List.mem_cons.mp hb with rfl | hb
          · rcases ItemId.Before.total b a with hba | heq | hab
            · exact Or.inr hba
            · exact Or.inl heq
            · exact absurd ⟨hPb, hab⟩ hc
          · exact hlast b hb hPb
      · obtain ⟨a, ha, hPa⟩ := h
        rcases List.mem_cons.mp ha with rfl | ha
        · refine ⟨a, List.mem_cons_self .., hPa, ?_⟩
          intro b hb hPb
          rcases List.mem_cons.mp hb with rfl | hb
          · exact Or.inl rfl
          · exact absurd ⟨b, hb, hPb⟩ hrest
        · exact absurd ⟨a, ha, hPa⟩ hrest

/-- A map keyed by pairs, in lexicographic order. -/
abbrev NestedMap (V : Type) := BTreeMap Nat (BTreeMap Nat V)

namespace NestedMap

variable {V : Type}

def get (m : NestedMap V) (id : ItemId) : Option V := m[id.1]?.bind fun group => group[id.2]?

def set (m : NestedMap V) (id : ItemId) (v : V) : NestedMap V :=
  BTreeMap.upsert m id.1 fun group => (group.getD ∅).insert id.2 v

def entries (m : NestedMap V) : List (ItemId × V) :=
  m.toList.flatMap fun g => g.2.toList.map fun e => ((g.1, e.1), e.2)

def lastEntry (m : NestedMap V) : Option (ItemId × V) := do
  let (group, entries) ← m.toList.getLast?
  let (i, v) ← entries.toList.getLast?
  pure ((group, i), v)

theorem get_empty (id : ItemId) : get (∅ : NestedMap V) id = none := by
  rw [get, Std.ExtTreeMap.getElem?_empty]
  rfl

theorem get_set (m : NestedMap V) (id a : ItemId) (v : V) :
    get (m.set id v) a = if id = a then some v else get m a := by
  obtain ⟨k, i⟩ := id
  obtain ⟨k', i'⟩ := a
  simp only [get, set, BTreeMap.get?_upsert, Prod.mk.injEq]
  by_cases hk : k = k'
  · subst hk
    rw [if_pos rfl, Option.bind_some, BTreeMap.get?_insert]
    by_cases hi : i = i'
    · simp [hi]
    · cases hm : m[k]? with
      | none => simp [hi]
      | some group => simp [hi]
  · simp [hk]

theorem mem_entries (m : NestedMap V) (id : ItemId) (v : V) :
    (id, v) ∈ m.entries ↔ get m id = some v := by
  obtain ⟨k, i⟩ := id
  simp only [entries, get, List.mem_flatMap, List.mem_map, Option.bind_eq_some_iff]
  constructor
  · intro h
    obtain ⟨g, hgroup, e, hentry, heq⟩ := h
    simp only [Prod.mk.injEq] at heq
    obtain ⟨⟨rfl, rfl⟩, rfl⟩ := heq
    exact ⟨g.2, (BTreeMap.mem_toList m g.1 g.2).mp hgroup,
      (BTreeMap.mem_toList g.2 e.1 e.2).mp hentry⟩
  · rintro ⟨group, hgroup, hentry⟩
    exact ⟨(k, group), (BTreeMap.mem_toList m k group).mpr hgroup, (i, v),
      (BTreeMap.mem_toList group i v).mpr hentry, rfl⟩

theorem entries_ascending (m : NestedMap V) :
    m.entries.Pairwise fun a b => Before a.1 b.1 := by
  rw [entries, List.pairwise_flatMap]
  constructor
  · intro g _
    rw [List.pairwise_map]
    exact (BTreeMap.toList_ascending g.2).imp fun h => Or.inr ⟨rfl, h⟩
  · refine (BTreeMap.toList_ascending m).imp ?_
    intro g g' hlt a ha b hb
    obtain ⟨e, _, rfl⟩ := List.mem_map.mp ha
    obtain ⟨e', _, rfl⟩ := List.mem_map.mp hb
    exact Or.inl hlt

/-- An ascending list with the content of a map is its list of entries. -/
theorem entries_eq_of_ascending {m : NestedMap V} {l : List (ItemId × V)}
    (hl : l.Pairwise fun a b => Before a.1 b.1) (h : ∀ id v, (id, v) ∈ l ↔ get m id = some v) :
    m.entries = l := by
  have hnodup : ∀ {l' : List (ItemId × V)}, (l'.Pairwise fun a b => Before a.1 b.1) → l'.Nodup := by
    intro l' hl'
    refine hl'.imp fun hlt heq => ?_
    rw [heq] at hlt
    exact ItemId.Before.irrefl _ hlt
  have hperm : m.entries.Perm l := by
    rw [List.perm_ext_iff_of_nodup (hnodup m.entries_ascending) (hnodup hl)]
    intro e
    rw [mem_entries m e.1 e.2, ← h e.1 e.2]
  exact hperm.eq_of_pairwise (fun a b _ _ hab hba => absurd hba hab.asymm) m.entries_ascending hl

theorem entries_empty : entries (∅ : NestedMap V) = [] :=
  entries_eq_of_ascending List.Pairwise.nil fun id v => by simp [get_empty]

/-- A key above all others comes last. -/
theorem entries_set_above {m : NestedMap V} {id : ItemId} {v : V}
    (h : ∀ a w, get m a = some w → Before a id) :
    (m.set id v).entries = m.entries ++ [(id, v)] := by
  refine entries_eq_of_ascending ?_ ?_
  · rw [List.pairwise_append]
    refine ⟨m.entries_ascending, List.pairwise_singleton _ _, ?_⟩
    intro e he e' he'
    rw [List.mem_singleton.mp he']
    exact h e.1 e.2 ((mem_entries m e.1 e.2).mp he)
  · intro a w
    rw [List.mem_append, mem_entries, List.mem_singleton, get_set]
    by_cases ha : id = a
    · subst ha
      have hnone : get m id ≠ some w := fun hw => ItemId.Before.irrefl id (h id w hw)
      simp [hnone, eq_comm]
    · have hne : (a, w) ≠ (id, v) := fun heq => ha (congrArg Prod.fst heq).symm
      simp [ha, hne]

/-- All keys come before these. -/
def Below (m : NestedMap V) (ids : List ItemId) : Prop :=
  ∀ a w, get m a = some w → ∀ id ∈ ids, Before a id

theorem below_empty (ids : List ItemId) : Below (∅ : NestedMap V) ids := by
  intro a w h
  rw [get_empty] at h
  cases h

/-- A map that is filled in ascending order grows at its end. -/
theorem Below.entries_set {m : NestedMap V} {id : ItemId} {ids : List ItemId}
    (h : Below m (id :: ids)) (v : V) : (m.set id v).entries = m.entries ++ [(id, v)] :=
  entries_set_above fun a w hget => h a w hget id (List.mem_cons_self ..)

theorem Below.set {m : NestedMap V} {id : ItemId} {ids : List ItemId} (h : Below m (id :: ids))
    (hids : (id :: ids).Pairwise Before) (v : V) : Below (m.set id v) ids := by
  intro a w hget id' hid'
  rw [get_set] at hget
  split at hget
  · next heq =>
    rw [← heq]
    exact (List.pairwise_cons.mp hids).1 id' hid'
  · exact h a w hget id' (List.mem_cons_of_mem _ hid')

/-! ## No group is empty -/

def Full (m : NestedMap V) : Prop := ∀ (k : Nat) (group : BTreeMap Nat V),
  m[k]? = some group → group.toList ≠ []

theorem full_empty : Full (∅ : NestedMap V) := by
  intro k group h
  rw [Std.ExtTreeMap.getElem?_empty] at h
  cases h

theorem Full.set {m : NestedMap V} (h : Full m) (id : ItemId) (v : V) : Full (m.set id v) := by
  intro k group hgroup
  rw [NestedMap.set, BTreeMap.get?_upsert] at hgroup
  split at hgroup
  · cases hgroup
    refine List.ne_nil_of_mem (a := (id.2, v)) ?_
    rw [BTreeMap.mem_toList, BTreeMap.get?_insert, if_pos rfl]
  · exact h k group hgroup

/-- Without empty groups the entries show all groups. -/
theorem size_eq_groups {m : NestedMap V} (h : Full m) :
    m.size = (m.entries.map fun e => e.1.1).dedup.length := by
  have hgroups : (m.entries.map fun e => e.1.1).dedup.Perm (m.toList.map Prod.fst) := by
    rw [List.perm_ext_iff_of_nodup (List.nodup_dedup _) (BTreeMap.keys_nodup m)]
    intro k
    simp only [List.mem_dedup, entries, List.map_flatMap, List.mem_flatMap, List.mem_map]
    constructor
    · intro hk
      obtain ⟨g, hg, e, ⟨_, _, rfl⟩, rfl⟩ := hk
      exact ⟨g, hg, rfl⟩
    · intro hk
      obtain ⟨g, hg, rfl⟩ := hk
      obtain ⟨e, he⟩ := List.exists_mem_of_ne_nil _
        (h g.1 g.2 ((BTreeMap.mem_toList m g.1 g.2).mp hg))
      exact ⟨g, hg, _, ⟨e, he, rfl⟩, rfl⟩
  rw [hgroups.length_eq, List.length_map, Std.ExtTreeMap.length_toList]

theorem getLast?_entries {m : NestedMap V} (h : Full m) : m.entries.getLast? = m.lastEntry := by
  rcases List.eq_nil_or_concat m.toList with hnil | ⟨rest, ⟨k, group⟩, hm⟩
  · rw [entries, lastEntry, hnil]
    rfl
  · have hgroup : group.toList ≠ [] := by
      refine h k group ((BTreeMap.mem_toList m k group).mp ?_)
      rw [hm, List.concat_eq_append]
      exact List.mem_append_right _ (List.mem_singleton_self _)
    rw [entries, lastEntry, hm, List.concat_eq_append, List.flatMap_append, List.flatMap_singleton,
      List.getLast?_append_of_ne_nil, List.getLast?_concat, List.getLast?_map]
    · simp only [bind, Option.bind_some, pure]
      cases group.toList.getLast? with
      | none => rfl
      | some e => rfl
    · rw [ne_eq, List.map_eq_nil_iff]
      exact hgroup

/-- The last entry is above all others. -/
theorem lastEntry_eq_some {m : NestedMap V} (h : Full m) {id : ItemId} {v : V} :
    m.lastEntry = some (id, v) ↔
      get m id = some v ∧ ∀ a w, get m a = some w → a = id ∨ Before a id := by
  rw [← getLast?_entries h]
  constructor
  · intro hlast
    obtain ⟨rest, hrest⟩ := List.getLast?_eq_some_iff.mp hlast
    have hasc := m.entries_ascending
    rw [hrest, List.pairwise_append] at hasc
    constructor
    · rw [← mem_entries, hrest]
      exact List.mem_append_right _ (List.mem_singleton_self _)
    · intro a w haw
      rw [← mem_entries, hrest] at haw
      rcases List.mem_append.mp haw with ha | ha
      · exact Or.inr (hasc.2.2 _ ha _ (List.mem_singleton_self _))
      · exact Or.inl (congrArg Prod.fst (List.mem_singleton.mp ha))
  · rintro ⟨hget, hall⟩
    cases hlast : m.entries.getLast? with
    | none =>
        rw [List.getLast?_eq_none_iff] at hlast
        rw [← mem_entries, hlast] at hget
        cases hget
    | some e =>
        obtain ⟨rest, hrest⟩ := List.getLast?_eq_some_iff.mp hlast
        have hasc := m.entries_ascending
        rw [hrest, List.pairwise_append] at hasc
        have hmem := (mem_entries m id v).mpr hget
        rw [hrest] at hmem
        have he : get m e.1 = some e.2 := by
          rw [← mem_entries, hrest]
          exact List.mem_append_right _ (List.mem_singleton_self _)
        rcases List.mem_append.mp hmem with hid | hid
        · exfalso
          have hbefore := hasc.2.2 _ hid _ (List.mem_singleton_self _)
          rcases hall e.1 e.2 he with heq | hlt
          · rw [heq] at hbefore
            exact ItemId.Before.irrefl _ hbefore
          · exact hbefore.asymm hlt
        · rw [List.mem_singleton.mp hid]

end NestedMap
