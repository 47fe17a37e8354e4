import RomeSdk.Basic

/-!
# Cutting a vector into chunks

`rome-utils/src/iter.rs`. The loop drains a chunk from the front until the
vector is empty; a vector gets shorter in every round, so its length is fuel
enough.
-/

namespace RomeSdk

variable {α : Type}

/-- `while !vec.is_empty() { chunks.push(vec.drain(..).collect()) }` -/
def intoChunksLoop (chunkSize : Nat) : Nat → List α → List (List α)
  | 0, _ => []
  | fuel + 1, vec =>
      if vec.isEmpty then []
      else
        let count := min chunkSize vec.length
        vec.take count :: intoChunksLoop chunkSize fuel (vec.drop count)

def intoChunks (vec : List α) (chunkSize : Nat) : Outcome (List (List α)) :=
  if chunkSize = 0 then .error (.panic "chunk_size must be greater than 0")
  else .ok (intoChunksLoop chunkSize vec.length vec)

/-- Nothing is lost and nothing is moved. -/
theorem intoChunksLoop_flatten {chunkSize : Nat} (hsize : 0 < chunkSize) :
    ∀ (fuel : Nat) (vec : List α), vec.length ≤ fuel →
      (intoChunksLoop chunkSize fuel vec).flatten = vec := by
  intro fuel
  induction fuel with
  | zero =>
      intro vec hfuel
      have hnil : vec = [] := List.length_eq_zero_iff.mp (by omega)
      subst hnil
      rfl
  | succ fuel ih =>
      intro vec hfuel
      cases vec with
      | nil => rfl
      | cons a vec =>
          simp only [intoChunksLoop, List.isEmpty_cons, Bool.false_eq_true, if_false,
            List.flatten_cons]
          rw [ih _ (by rw [List.length_drop]; simp only [List.length_cons] at hfuel ⊢; omega)]
          exact List.take_append_drop _ _

theorem intoChunksLoop_ne_nil {chunkSize : Nat} (hsize : 0 < chunkSize) :
    ∀ (fuel : Nat) (vec : List α), ∀ chunk ∈ intoChunksLoop chunkSize fuel vec, chunk ≠ [] := by
  intro fuel
  induction fuel with
  | zero => intro vec chunk h; cases h
  | succ fuel ih =>
      intro vec chunk h
      cases vec with
      | nil => cases h
      | cons a vec =>
          simp only [intoChunksLoop, List.isEmpty_cons, Bool.false_eq_true, if_false,
            List.mem_cons] at h
          rcases h with rfl | h
          · have hcount : 0 < min chunkSize (a :: vec).length := by
              rw [List.length_cons]
              omega
            intro hnil
            have := congrArg List.length hnil
            rw [List.length_take, List.length_nil] at this
            omega
          · exact ih _ chunk h

theorem intoChunksLoop_length_le {chunkSize : Nat} :
    ∀ (fuel : Nat) (vec : List α), ∀ chunk ∈ intoChunksLoop chunkSize fuel vec,
      chunk.length ≤ chunkSize := by
  intro fuel
  induction fuel with
  | zero => intro vec chunk h; cases h
  | succ fuel ih =>
      intro vec chunk h
      cases vec with
      | nil => cases h
      | cons a vec =>
          simp only [intoChunksLoop, List.isEmpty_cons, Bool.false_eq_true, if_false,
            List.mem_cons] at h
          rcases h with rfl | h
          · rw [List.length_take]
            omega
          · exact ih _ chunk h

theorem length_flatten_le {n : Nat} {chunks : List (List α)}
    (h : ∀ chunk ∈ chunks, chunk.length ≤ n) : chunks.flatten.length ≤ chunks.length * n := by
  induction chunks with
  | nil => exact Nat.zero_le _
  | cons chunk chunks ih =>
      have hchunk := h chunk (List.mem_cons_self ..)
      have hrest := ih fun c hc => h c (List.mem_cons_of_mem chunk hc)
      rw [List.flatten_cons, List.length_append, List.length_cons, Nat.succ_mul]
      omega

/-- Where a vector is cut depends on its length only. -/
theorem intoChunksLoop_map {β : Type} (f : α → β) (chunkSize : Nat) :
    ∀ (fuel : Nat) (vec : List α), intoChunksLoop chunkSize fuel (vec.map f)
      = (intoChunksLoop chunkSize fuel vec).map (List.map f) := by
  intro fuel
  induction fuel with
  | zero => intro vec; rfl
  | succ fuel ih =>
      intro vec
      cases vec with
      | nil => rfl
      | cons a vec =>
          show intoChunksLoop chunkSize (fuel + 1) ((a :: vec).map f) = _
          simp only [intoChunksLoop, List.map_cons, List.isEmpty_cons, Bool.false_eq_true, if_false,
            List.length_cons, List.length_map]
          rw [← List.map_cons, ← List.map_take, ← List.map_drop, ih]

/-- Every chunk but the last is full. -/
theorem intoChunksLoop_length {chunkSize : Nat} (hsize : 0 < chunkSize) :
    ∀ (fuel : Nat) (vec : List α), vec.length ≤ fuel →
      (intoChunksLoop chunkSize fuel vec).length = (vec.length + chunkSize - 1) / chunkSize := by
  intro fuel
  induction fuel with
  | zero =>
      intro vec hfuel
      rw [Nat.le_zero.mp hfuel, Nat.zero_add, Nat.div_eq_of_lt (by omega)]
      rfl
  | succ fuel ih =>
      intro vec hfuel
      cases vec with
      | nil =>
          rw [List.length_nil, Nat.zero_add, Nat.div_eq_of_lt (by omega)]
          rfl
      | cons a vec =>
          simp only [intoChunksLoop, List.isEmpty_cons, Bool.false_eq_true, if_false,
            List.length_cons] at hfuel ⊢
          rw [ih _ (by rw [List.length_drop, List.length_cons]; omega), List.length_drop,
            List.length_cons]
          rcases Nat.le_total chunkSize (vec.length + 1) with hle | hle
          · have hadd : vec.length + 1 + chunkSize - 1
                = vec.length + 1 - chunkSize + chunkSize - 1 + chunkSize := by omega
            rw [Nat.min_eq_left hle, hadd, Nat.add_div_right _ hsize]
          · have hadd : vec.length + 1 + chunkSize - 1 = vec.length + chunkSize := by omega
            rw [Nat.min_eq_right hle, Nat.sub_self, Nat.zero_add, hadd,
              Nat.add_div_right _ hsize, Nat.div_eq_of_lt (by omega), Nat.div_eq_of_lt (by omega)]

/-- Any two fuels that cover the length give the same chunks, so it is the vector that ends
the loop. -/
theorem intoChunksLoop_fuel {chunkSize : Nat} (hsize : 0 < chunkSize) :
    ∀ (fuel fuel' : Nat) (vec : List α), vec.length ≤ fuel → vec.length ≤ fuel' →
      intoChunksLoop chunkSize fuel vec = intoChunksLoop chunkSize fuel' vec := by
  intro fuel
  induction fuel with
  | zero =>
      intro fuel' vec hfuel _
      have hnil : vec = [] := List.length_eq_zero_iff.mp (by omega)
      subst hnil
      cases fuel' <;> rfl
  | succ fuel ih =>
      intro fuel' vec hfuel hfuel'
      cases vec with
      | nil => cases fuel' <;> rfl
      | cons a vec =>
          rw [List.length_cons] at hfuel hfuel'
          obtain ⟨fuel', rfl⟩ : ∃ n, fuel' = n + 1 := ⟨fuel' - 1, by omega⟩
          have hrest : ((a :: vec).drop (min chunkSize (vec.length + 1))).length ≤ vec.length := by
            rw [List.length_drop, List.length_cons]
            omega
          show _ :: intoChunksLoop chunkSize fuel _ = _ :: intoChunksLoop chunkSize fuel' _
          rw [ih fuel' _ (by rw [List.length_cons]; omega) (by rw [List.length_cons]; omega)]

theorem intoChunksLoop_full {chunkSize : Nat} (hsize : 0 < chunkSize) :
    ∀ (fuel : Nat) (vec : List α), vec.length ≤ fuel →
      ∀ chunk ∈ (intoChunksLoop chunkSize fuel vec).dropLast, chunk.length = chunkSize := by
  intro fuel
  induction fuel with
  | zero => intro vec _ chunk h; cases h
  | succ fuel ih =>
      intro vec hfuel chunk h
      cases vec with
      | nil => cases h
      | cons a vec =>
          simp only [intoChunksLoop, List.isEmpty_cons, Bool.false_eq_true, if_false] at h
          by_cases hlast : intoChunksLoop chunkSize fuel
              ((a :: vec).drop (min chunkSize (a :: vec).length)) = []
          · rw [hlast] at h
            cases h
          · rw [List.dropLast_cons_of_ne_nil hlast, List.mem_cons] at h
            have hrest : ((a :: vec).drop (min chunkSize (a :: vec).length)).length ≤ fuel := by
              rw [List.length_drop, List.length_cons]
              rw [List.length_cons] at hfuel
              omega
            rcases h with rfl | h
            · -- a chunk that is not full takes all there is, and no other follows it
              by_contra hshort
              apply hlast
              have hnil : (a :: vec).drop (min chunkSize (a :: vec).length) = [] := by
                apply List.drop_eq_nil_of_le
                rw [List.length_take] at hshort
                omega
              rw [hnil]
              cases fuel <;> rfl
            · exact ih _ hrest chunk h

/-- The chunks are the vector, cut after every `chunk_size` elements. -/
theorem intoChunks_partition (vec : List α) {chunkSize : Nat} (hsize : 0 < chunkSize) :
    ∃ chunks, intoChunks vec chunkSize = .ok chunks ∧
      (∀ fuel, vec.length ≤ fuel → intoChunksLoop chunkSize fuel vec = chunks) ∧
      chunks.flatten = vec ∧ (∀ chunk ∈ chunks, chunk ≠ []) ∧
      (∀ chunk ∈ chunks.dropLast, chunk.length = chunkSize) ∧
      chunks.length = (vec.length + chunkSize - 1) / chunkSize := by
  refine ⟨intoChunksLoop chunkSize vec.length vec, ?_, ?_, ?_, ?_, ?_, ?_⟩
  · rw [intoChunks, if_neg (by omega)]
  · intro fuel hfuel
    exact intoChunksLoop_fuel hsize fuel vec.length vec hfuel (Nat.le_refl _)
  · exact intoChunksLoop_flatten hsize vec.length vec (Nat.le_refl _)
  · exact intoChunksLoop_ne_nil hsize vec.length vec
  · exact intoChunksLoop_full hsize vec.length vec (Nat.le_refl _)
  · exact intoChunksLoop_length hsize vec.length vec (Nat.le_refl _)

theorem intoChunks_partition_five :
    0 < 2 ∧ ∃ chunks, intoChunks [1, 2, 3, 4, 5] 2 = .ok chunks ∧
      chunks.flatten = [1, 2, 3, 4, 5] ∧ chunks.length = 3 := by
  obtain ⟨chunks, hok, _, hflat, _, _, hlength⟩ :=
    intoChunks_partition [1, 2, 3, 4, 5] (by decide : 0 < 2)
  exact ⟨by decide, chunks, hok, hflat, hlength⟩

end RomeSdk
