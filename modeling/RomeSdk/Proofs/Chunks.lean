import RomeSdk.Proofs.Holder
import RomeSdk.Tx.TransmitTx

/-!
# Sequences of chunks

What a holder record is after any number of updates. Two invariants are carried
along: `Carries payload`, that the buffer holds the payload's bytes wherever a
piece was written, and `Tracks C`, that the pieces are those of the chunks
delivered. The first needs the chunks to be slices of the payload; the second
needs them to come from one cutting of it.
-/

namespace RomeSdk

namespace EvmTx

/-- `update_tx_holder`, chunk after chunk. -/
def updateAll (tx : EvmTx) (chunks : List (Nat × Bytes)) : Outcome EvmTx :=
  chunks.foldlM (fun tx c => tx.updateTxHolder c.1 c.2) tx

theorem updateAll_cons_ok {tx tx₁ : EvmTx} {c : Nat × Bytes} {chunks : List (Nat × Bytes)}
    (h : tx.updateTxHolder c.1 c.2 = .ok tx₁) :
    tx.updateAll (c :: chunks) = tx₁.updateAll chunks := by
  rw [updateAll, List.foldlM_cons, h]
  rfl

theorem updateAll_singleton (tx : EvmTx) (c : Nat × Bytes) :
    tx.updateAll [c] = tx.updateTxHolder c.1 c.2 := by
  rw [updateAll, List.foldlM_cons]
  cases tx.updateTxHolder c.1 c.2 <;> rfl

/-! ## Harmless sequences -/

/-- Every chunk is harmless when it arrives. -/
def HarmlessAll (X : Crates) : EvmTx → List (Nat × Bytes) → Prop
  | _, [] => True
  | tx, c :: rest =>
      Harmless X tx c.1 c.2 ∧
        ∀ tx', tx.updateTxHolder c.1 c.2 = .ok tx' → HarmlessAll X tx' rest

theorem Kept.refl {X : Crates} {tx : EvmTx} (h : tx.isDataComplete = true) : Kept X tx tx :=
  ⟨h, List.prefix_rfl, rfl⟩

theorem Kept.trans {X : Crates} {tx tx₁ tx₂ : EvmTx} (h : Kept X tx tx₁) (h' : Kept X tx₁ tx₂) :
    Kept X tx tx₂ :=
  ⟨h'.complete, h.bytes.trans h'.bytes, h'.build.trans h.build⟩

/-- A record that is complete and builds the same after each chunk of a sequence
took only harmless ones. -/
theorem harmlessAll_of_complete {X : Crates} (chunks : List (Nat × Bytes)) :
    ∀ {tx : EvmTx}, Built tx → tx.isDataComplete = true →
      (∀ done, done <+: chunks → ∃ tx', tx.updateAll done = .ok tx' ∧
        tx'.isDataComplete = true ∧ tx'.build X = tx.build X) →
      HarmlessAll X tx chunks := by
  induction chunks with
  | nil => intro tx _ _ _; trivial
  | cons c chunks ih =>
      intro tx hbuilt hcomplete hall
      obtain ⟨tx₁, hup, hcomplete₁, hbuild₁⟩ := hall [c] ⟨chunks, rfl⟩
      rw [updateAll_singleton] at hup
      have hkept : Kept X tx tx₁ :=
        ⟨hcomplete₁, update_grows hbuilt hcomplete hup hcomplete₁, hbuild₁⟩
      refine ⟨(kept_update_iff c.1 c.2 hbuilt hcomplete).mp ⟨tx₁, hup, hkept⟩, ?_⟩
      intro tx₂ hup₂
      rw [hup] at hup₂
      cases hup₂
      refine ih (hbuilt.update hup) hcomplete₁ ?_
      intro done hdone
      obtain ⟨tx', hrun, hcomplete', hbuild'⟩ :=
        hall (c :: done) (List.cons_prefix_cons.mpr ⟨rfl, hdone⟩)
      rw [updateAll_cons_ok hup] at hrun
      exact ⟨tx', hrun, hcomplete', hbuild'.trans hbuild₁.symm⟩

/-- Harmless chunks leave a complete record alone, however many of them there are. -/
theorem HarmlessAll.kept {X : Crates} (chunks : List (Nat × Bytes)) :
    ∀ {tx : EvmTx}, Built tx → tx.isDataComplete = true → HarmlessAll X tx chunks →
      ∃ tx', tx.updateAll chunks = .ok tx' ∧ Built tx' ∧ Kept X tx tx' := by
  induction chunks with
  | nil => intro tx hbuilt hcomplete _; exact ⟨tx, rfl, hbuilt, .refl hcomplete⟩
  | cons c chunks ih =>
      intro tx hbuilt hcomplete ⟨hharm, hrest⟩
      obtain ⟨tx₁, hup, hkept⟩ := (kept_update_iff c.1 c.2 hbuilt hcomplete).mpr hharm
      obtain ⟨tx', hrun, hbuilt', hkept'⟩ :=
        ih (hbuilt.update hup) hkept.complete (hrest tx₁ hup)
      exact ⟨tx', by rw [updateAll_cons_ok hup]; exact hrun, hbuilt', hkept.trans hkept'⟩

theorem HarmlessAll.of_done {X : Crates} {done : List (Nat × Bytes)} :
    ∀ {tx : EvmTx} {chunks : List (Nat × Bytes)}, HarmlessAll X tx chunks → done <+: chunks →
      HarmlessAll X tx done := by
  induction done with
  | nil => intro tx chunks _ _; trivial
  | cons c done ih =>
      intro tx chunks h hdone
      cases chunks with
      | nil => cases List.prefix_nil.mp hdone
      | cons d chunks =>
          obtain ⟨rfl, hrest⟩ := List.cons_prefix_cons.mp hdone
          exact ⟨h.1, fun tx' hup => ih (h.2 tx' hup) hrest⟩

/-- A sequence of chunks leaves a complete record alone throughout exactly when
each of them is harmless on arrival. -/
theorem kept_updateAll_iff {X : Crates} {tx : EvmTx} (chunks : List (Nat × Bytes))
    (hbuilt : Built tx) (hcomplete : tx.isDataComplete = true) :
    (∀ done, done <+: chunks → ∃ tx', tx.updateAll done = .ok tx' ∧ Kept X tx tx') ↔
      HarmlessAll X tx chunks := by
  constructor
  · intro hall
    refine harmlessAll_of_complete chunks hbuilt hcomplete ?_
    intro done hdone
    obtain ⟨tx', hrun, hkept⟩ := hall done hdone
    exact ⟨tx', hrun, hkept.complete, hkept.build⟩
  · intro hharm done hdone
    obtain ⟨tx', hrun, _, hkept⟩ := HarmlessAll.kept done hbuilt hcomplete (hharm.of_done hdone)
    exact ⟨tx', hrun, hkept⟩

/-! ## Chunks of one payload -/

/-- The buffer agrees with the payload wherever a piece was written. -/
structure Carries (payload : Bytes) (tx : EvmTx) : Prop where
  built : Built tx
  fits : tx.holderData.length ≤ payload.length
  agrees : ∀ o n : Nat, tx.pieces[o]? = some n → ∀ i, i < n → tx.holderData[o + i]? = payload[o + i]?

theorem Carries.newBigTx (payload : Bytes) : Carries payload .newBigTx := by
  refine ⟨.newBigTx, Nat.zero_le _, ?_⟩
  intro o n ho
  change (∅ : BTreeMap Nat Nat)[o]? = some n at ho
  rw [Std.ExtTreeMap.getElem?_empty] at ho
  cases ho

theorem Carries.update {payload : Bytes} {tx tx' : EvmTx} {offset : Nat} {data : Bytes}
    (h : Carries payload tx) (hslice : Slice payload offset data)
    (hup : tx.updateTxHolder offset data = .ok tx') : Carries payload tx' := by
  have hbuilt' := h.built.update hup
  obtain ⟨buffer, pieces, rfl, ⟨_, rfl⟩ | ⟨hnone, _, rfl⟩⟩ := updateTxHolder_cases hup
  · exact h
  · have hfits := hslice.fits
    have hbuffer : buffer.length ≤ payload.length := h.fits
    refine ⟨hbuilt', ?_, ?_⟩
    · show (written buffer offset data).length ≤ payload.length
      rw [length_written]
      omega
    · intro o n ho i hi
      change (pieces.insert offset data.length)[o]? = some n at ho
      show (written buffer offset data)[o + i]? = payload[o + i]?
      -- inside the new chunk its bytes count, elsewhere the old ones
      by_cases hin : offset ≤ o + i ∧ o + i < offset + data.length
      · have hindex : o + i = offset + (o + i - offset) := by omega
        rw [hindex, written_inside (by omega)]
        exact hslice.agrees _ (by omega)
      · rw [BTreeMap.get?_insert] at ho
        split at ho
        · next heq =>
            cases ho
            omega
        · have hwithin : o + n ≤ buffer.length := h.built.assembled.within o n ho
          rw [written_outside (by omega) (by omega)]
          exact h.agrees o n ho i hi

/-- A complete record of a payload's slices holds a prefix of the payload. -/
theorem Carries.extends_to {payload : Bytes} {tx : EvmTx} (h : Carries payload tx)
    (hcomplete : tx.isDataComplete = true) : tx.holderData <+: payload := by
  have htiles := (h.built.isDataComplete_iff.mp hcomplete).1
  have hfits := h.fits
  have heq : tx.holderData = payload.take tx.holderData.length := by
    apply List.ext_getElem?
    intro i
    by_cases hi : i < tx.holderData.length
    · obtain ⟨o, n, hmem, ho, hn⟩ := htiles.covers (Nat.zero_le i) hi
      have hindex : i = o + (i - o) := by omega
      rw [List.getElem?_take_of_lt hi, hindex]
      exact h.agrees o n ((BTreeMap.mem_toList _ o n).mp hmem) (i - o) (by omega)
    · rw [List.getElem?_eq_none (by omega), List.getElem?_eq_none (by
        rw [List.length_take]
        omega)]
  rw [heq]
  exact List.take_prefix _ _

/-! ## Chunks of one cutting -/

/-- The pieces are those of the chunks delivered. -/
structure Tracks (delivered : List (Nat × Bytes)) (tx : EvmTx) : Prop where
  built : Built tx
  pieces : ∀ o n : Nat, tx.pieces[o]? = some n ↔ (o, n) ∈ shape delivered

theorem mem_shape {delivered : List (Nat × Bytes)} {o n : Nat} :
    (o, n) ∈ shape delivered ↔ ∃ d, (o, d) ∈ delivered ∧ d.length = n := by
  rw [shape, List.mem_map]
  constructor
  · intro h
    obtain ⟨⟨o', d⟩, hmem, heq⟩ := h
    cases heq
    exact ⟨d, hmem, rfl⟩
  · intro h
    obtain ⟨d, hmem, hlen⟩ := h
    exact ⟨(o, d), hmem, by rw [hlen]⟩

theorem Tracks.newBigTx : Tracks [] .newBigTx := by
  refine ⟨.newBigTx, ?_⟩
  intro o n
  show (∅ : BTreeMap Nat Nat)[o]? = some n ↔ (o, n) ∈ []
  rw [Std.ExtTreeMap.getElem?_empty]
  simp

theorem Tracks.update {rlp : Bytes} {C S : List (Nat × Bytes)} {tx tx' : EvmTx}
    {c : Nat × Bytes} (hC : TransmitTx.Cuts rlp C) (h : Tracks S tx) (hS : ∀ d ∈ S, d ∈ C)
    (hc : c ∈ C) (hup : tx.updateTxHolder c.1 c.2 = .ok tx') : Tracks (S ++ [c]) tx' := by
  have hbuilt' := h.built.update hup
  refine ⟨hbuilt', ?_⟩
  intro o n
  have happend : (o, n) ∈ shape (S ++ [c]) ↔ (o, n) ∈ shape S ∨ (o, n) = (c.1, c.2.length) := by
    rw [shape, List.map_append, List.mem_append]
    simp [shape]
  rw [happend]
  obtain ⟨buffer, pieces, rfl, ⟨hin, rfl⟩ | ⟨hnone, _, rfl⟩⟩ := updateTxHolder_cases hup
  · -- the offset was known, with the one chunk the cutting has there
    rw [h.pieces o n]
    refine ⟨Or.inl, ?_⟩
    rintro (hmem | heq)
    · exact hmem
    · cases heq
      obtain ⟨w, hw⟩ := Option.isSome_iff_exists.mp
        (Std.ExtTreeMap.mem_iff_isSome_getElem?.mp hin)
      obtain ⟨d, hd, hlen⟩ := mem_shape.mp ((h.pieces c.1 w).mp hw)
      have heq : (c.1, d) = c := hC.unique (hS _ hd) hc rfl
      rw [← heq]
      exact mem_shape.mpr ⟨d, hd, rfl⟩
  · show (pieces.insert c.1 c.2.length)[o]? = some n ↔ _
    rw [BTreeMap.get?_insert, ← h.pieces o n]
    show _ ↔ pieces[o]? = some n ∨ _
    by_cases ho : c.1 = o
    · subst ho
      rw [hnone]
      simp [eq_comm]
    · have hne : (o, n) ≠ (c.1, c.2.length) := fun heq => ho (congrArg Prod.fst heq).symm
      simp [ho, hne]

/-- Chunks of one cutting are always accepted. -/
theorem updateAll_chunks {rlp : Bytes} {C : List (Nat × Bytes)} (hC : TransmitTx.Cuts rlp C)
    (hsize : rlp.length ≤ isizeMax) (chunks : List (Nat × Bytes)) :
    ∀ {S : List (Nat × Bytes)} {tx : EvmTx}, Tracks S tx → Carries rlp tx → (∀ d ∈ S, d ∈ C) →
      (∀ c ∈ chunks, c ∈ C) →
      ∃ tx', tx.updateAll chunks = .ok tx' ∧ Tracks (S ++ chunks) tx' ∧ Carries rlp tx' := by
  induction chunks with
  | nil =>
      intro S tx htracks hcarries _ _
      exact ⟨tx, rfl, by rw [List.append_nil]; exact htracks, hcarries⟩
  | cons c chunks ih =>
      intro S tx htracks hcarries hS hchunks
      have hc : c ∈ C := hchunks c (List.mem_cons_self ..)
      have hslice := hC.slices c hc
      have hfits := hslice.fits
      obtain ⟨tx₁, hup⟩ := updateTxHolder_ok tx.holderData tx.pieces
        (show c.1 + c.2.length ≤ isizeMax by omega)
      rw [← htracks.built.big] at hup
      have hS' : ∀ d ∈ S ++ [c], d ∈ C := by
        intro d hd
        rcases List.mem_append.mp hd with hd | hd
        · exact hS d hd
        · rw [List.mem_singleton.mp hd]
          exact hc
      obtain ⟨tx', hrun, htracks', hcarries'⟩ :=
        ih (htracks.update hC hS hc hup) (hcarries.update hslice hup) hS'
          fun d hd => hchunks d (List.mem_cons_of_mem c hd)
      refine ⟨tx', by rw [updateAll_cons_ok hup]; exact hrun, ?_, hcarries'⟩
      rw [List.append_assoc] at htracks'
      exact htracks'

/-- Chunks of the cutting are told apart by their offsets. -/
theorem mem_of_shape {rlp : Bytes} {C A B : List (Nat × Bytes)}
    (hC : TransmitTx.Cuts rlp C) (hA : ∀ c ∈ A, c ∈ C) (hB : ∀ c ∈ B, c ∈ C)
    (hsub : ∀ p ∈ shape A, p ∈ shape B) : ∀ c ∈ A, c ∈ B := by
  intro c hc
  obtain ⟨d, hd, _⟩ := mem_shape.mp (hsub _ (mem_shape.mpr ⟨c.2, hc, rfl⟩))
  have heq : (c.1, d) = c := hC.unique (hB _ hd) (hA c hc) rfl
  rw [← heq]
  exact hd

section

variable {rlp : Bytes} {C L : List (Nat × Bytes)} {tx : EvmTx}

theorem Tracks.mem_pieces (h : Tracks L tx) (p : Nat × Nat) :
    p ∈ tx.pieces.toList ↔ p ∈ shape L := by
  obtain ⟨o, n⟩ := p
  rw [BTreeMap.mem_toList]
  exact h.pieces o n

/-- Pieces that lie end to end from the start are those of the first chunks. -/
theorem Tracks.taken_of_tiles (hC : TransmitTx.Cuts rlp C) (h : Tracks L tx)
    (hL : ∀ c ∈ L, c ∈ C) {b : Nat} (hb : Tiles tx.pieces.toList 0 b) :
    ∀ c, c ∈ L ↔ c ∈ C.take tx.pieces.toList.length := by
  have hsub : ∀ p ∈ tx.pieces.toList, p ∈ shape C := by
    intro e hp
    obtain ⟨o, n⟩ := e
    obtain ⟨d, hd, hlen⟩ := mem_shape.mp ((h.mem_pieces _).mp hp)
    exact mem_shape.mpr ⟨d, hL _ hd, hlen⟩
  have hprefix := hC.tiles.prefix_of_subset hb hsub hC.positive
  have htake := List.prefix_iff_eq_take.mp hprefix
  rw [shape, ← List.map_take] at htake
  have hmemTake : ∀ c ∈ C.take tx.pieces.toList.length, c ∈ C :=
    fun c hc => List.mem_of_mem_take hc
  intro c
  constructor
  · refine mem_of_shape hC hL hmemTake ?_ c
    intro p hp
    have hmem := (h.mem_pieces p).mpr hp
    rw [htake] at hmem
    exact hmem
  · refine mem_of_shape hC hmemTake hL ?_ c
    intro p hp
    refine (h.mem_pieces p).mp ?_
    rw [htake]
    exact hp

/-- The pieces of the first chunks are listed in their order. -/
theorem Tracks.pieces_eq (hC : TransmitTx.Cuts rlp C) (h : Tracks L tx) {k : Nat}
    (hmem : ∀ c, c ∈ L ↔ c ∈ C.take k) : tx.pieces.toList = shape (C.take k) := by
  refine BTreeMap.toList_eq_of_ascending ?_ ?_
  · rw [shape, List.map_take]
    exact (hC.tiles.ascending hC.positive).sublist (List.take_sublist k _)
  · intro o n
    rw [h.pieces o n, mem_shape, mem_shape]
    constructor
    · intro hend
      obtain ⟨d, hd, hlen⟩ := hend
      exact ⟨d, (hmem _).mpr hd, hlen⟩
    · intro hend
      obtain ⟨d, hd, hlen⟩ := hend
      exact ⟨d, (hmem _).mp hd, hlen⟩

/-- With the chunks of `L` delivered, a record is complete exactly when they are
the first so many chunks of the cutting, at least one. -/
theorem Tracks.isDataComplete_iff (hC : TransmitTx.Cuts rlp C) (h : Tracks L tx)
    (hL : ∀ c ∈ L, c ∈ C) (hne : C ≠ []) :
    tx.isDataComplete = true ↔ ∃ k, 0 < k ∧ ∀ c, c ∈ L ↔ c ∈ C.take k := by
  rw [h.built.big, isDataComplete_iff_ends]
  constructor
  · intro hend
    obtain ⟨b, hb, hb0⟩ := hend
    refine ⟨tx.pieces.toList.length, ?_, h.taken_of_tiles hC hL hb⟩
    rcases Nat.eq_zero_or_pos tx.pieces.toList.length with hzero | hpos
    · rw [List.length_eq_zero_iff.mp hzero] at hb
      cases hb
      exact absurd rfl hb0
    · exact hpos
  · intro hend
    obtain ⟨k, hk, hmem⟩ := hend
    obtain ⟨b, hb⟩ := hC.tiles.take k
    rw [shape, ← List.map_take] at hb
    obtain ⟨c, rest, hcons⟩ : ∃ c rest, C = c :: rest := List.exists_cons_of_ne_nil hne
    have hfirst : c ∈ C.take k := by
      obtain ⟨j, rfl⟩ : ∃ j, k = j + 1 := ⟨k - 1, by omega⟩
      rw [hcons, List.take_succ_cons]
      exact List.mem_cons_self ..
    have hwithin := hb.within (mem_shape.mpr ⟨c.2, hfirst, rfl⟩)
    have hpos := hC.positive (c.1, c.2.length)
      (mem_shape.mpr ⟨c.2, by rw [hcons]; exact List.mem_cons_self .., rfl⟩)
    refine ⟨b, ?_, by simp only at hpos; omega⟩
    rw [h.pieces_eq hC hmem]
    exact hb

end

/-- With all chunks delivered, the record holds the payload. -/
theorem Tracks.whole {rlp : Bytes} {C L : List (Nat × Bytes)} {tx : EvmTx}
    (hC : TransmitTx.Cuts rlp C) (h : Tracks L tx) (hcarries : Carries rlp tx)
    (hL : ∀ c ∈ L, c ∈ C) (hall : ∀ c ∈ C, c ∈ L) (hne : C ≠ []) :
    tx.holderData = rlp ∧ tx.isDataComplete = true := by
  have hpos : 0 < C.length := List.length_pos_iff.mpr hne
  have hcomplete : tx.isDataComplete = true := by
    refine (h.isDataComplete_iff hC hL hne).mpr ⟨C.length, hpos, ?_⟩
    intro c
    rw [List.take_length]
    exact ⟨hL c, hall c⟩
  refine ⟨?_, hcomplete⟩
  have hlist : tx.pieces.toList = shape C := by
    refine BTreeMap.toList_eq_of_ascending (hC.tiles.ascending hC.positive) ?_
    intro o n
    rw [h.pieces o n, mem_shape, mem_shape]
    constructor
    · intro ⟨d, hd, hlen⟩
      exact ⟨d, hall _ hd, hlen⟩
    · intro ⟨d, hd, hlen⟩
      exact ⟨d, hL _ hd, hlen⟩
  have htiles : Tiles tx.pieces.toList 0 rlp.length := by
    rw [hlist]
    exact hC.tiles
  have hlen := h.built.assembled.end_eq htiles
  exact (hcarries.extends_to hcomplete).eq_of_length hlen.symm

end EvmTx

end RomeSdk
