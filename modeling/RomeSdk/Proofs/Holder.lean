import RomeSdk.Lib.Tiling
import RomeSdk.Parsers.DefaultTxParser

/-!
# The holder buffer and its pieces

A `BigEvmTx` starts empty and changes through `updateTxHolder` only. What such
a record is like is the invariant `Assembled`: the buffer reaches exactly as
far as its furthest piece. Under it `isDataComplete` says that the pieces tile
the whole buffer, and everything about completeness becomes a statement about
tilings: a further chunk leaves a complete record complete exactly when its
offset is known already or is the end of the buffer.
-/

namespace RomeSdk

/-! ## Writing into the buffer -/

/-- The buffer after a chunk was written into it, grown if it has to be. -/
def written (buffer : Bytes) (offset : Nat) (data : Bytes) : Bytes :=
  copyAt (resize buffer (offset + data.length)) offset data

theorem length_resize (buffer : Bytes) (len : Nat) :
    (resize buffer len).length = max buffer.length len := by
  rw [resize, List.length_append, List.length_replicate]
  omega

theorem resize_of_le {buffer : Bytes} {len : Nat} (h : len ≤ buffer.length) :
    resize buffer len = buffer := by
  have hzero : len - buffer.length = 0 := by omega
  rw [resize, hzero, List.replicate_zero, List.append_nil]

theorem length_written (buffer : Bytes) (offset : Nat) (data : Bytes) :
    (written buffer offset data).length = max buffer.length (offset + data.length) := by
  simp only [written, copyAt, List.length_append, List.length_take, List.length_drop,
    length_resize]
  omega

theorem written_inside {buffer : Bytes} {offset : Nat} {data : Bytes} {i : Nat}
    (hi : i < data.length) : (written buffer offset data)[offset + i]? = data[i]? := by
  have htake : ((resize buffer (offset + data.length)).take offset).length = offset := by
    rw [List.length_take, length_resize]
    omega
  rw [written, copyAt, List.append_assoc, List.getElem?_append_right (by omega), htake,
    Nat.add_sub_cancel_left, List.getElem?_append_left hi]

theorem written_outside {buffer : Bytes} {offset : Nat} {data : Bytes} {i : Nat}
    (hi : i < buffer.length) (hout : i < offset ∨ offset + data.length ≤ i) :
    (written buffer offset data)[i]? = buffer[i]? := by
  have hold : (resize buffer (offset + data.length))[i]? = buffer[i]? := by
    rw [resize, List.getElem?_append_left hi]
  have htake : ((resize buffer (offset + data.length)).take offset).length = offset := by
    rw [List.length_take, length_resize]
    omega
  rw [written, copyAt]
  rcases hout with hbelow | habove
  · rw [List.append_assoc, List.getElem?_append_left (by omega), List.getElem?_take_of_lt hbelow,
      hold]
  · have hlen : ((resize buffer (offset + data.length)).take offset ++ data).length
        = offset + data.length := by
      rw [List.length_append, htake]
    have hindex : offset + data.length + (i - (offset + data.length)) = i := by omega
    rw [List.getElem?_append_right (by omega), hlen, List.getElem?_drop, hindex, hold]

/-- A chunk written at the end is appended. -/
theorem written_end (buffer data : Bytes) :
    written buffer buffer.length data = buffer ++ data := by
  have hgrow : buffer.length + data.length - buffer.length = data.length := by omega
  have hdrop : (resize buffer (buffer.length + data.length)).drop (buffer.length + data.length)
      = [] := by
    rw [List.drop_eq_nil_iff, length_resize]
    omega
  rw [written, copyAt, hdrop, List.append_nil, resize, List.take_left]

/-! ## One update -/

namespace EvmTx

def holderData : EvmTx → Bytes
  | .smallEvmTx _ => []
  | .bigEvmTx holderData _ => holderData

def pieces : EvmTx → BTreeMap Nat Nat
  | .smallEvmTx _ => ∅
  | .bigEvmTx _ pieces => pieces

/-- Everything a successful update can do. -/
theorem updateTxHolder_cases {tx tx' : EvmTx} {offset : Nat} {data : Bytes}
    (h : tx.updateTxHolder offset data = .ok tx') :
    ∃ (buffer : Bytes) (pieces : BTreeMap Nat Nat), tx = .bigEvmTx buffer pieces ∧
      ((offset ∈ pieces ∧ tx' = tx) ∨
        (pieces[offset]? = none ∧ offset + data.length ≤ isizeMax ∧
          tx' = .bigEvmTx (written buffer offset data) (pieces.insert offset data.length))) := by
  cases tx with
  | smallEvmTx transaction => cases h
  | bigEvmTx buffer pieces =>
      refine ⟨buffer, pieces, rfl, ?_⟩
      simp only [updateTxHolder] at h
      split at h
      · next hin =>
          cases h
          exact Or.inl ⟨hin, rfl⟩
      · next hnew =>
          split at h
          · cases h
          · split at h
            · cases h
            · next hcap =>
                right
                refine ⟨Std.ExtTreeMap.getElem?_eq_none hnew, by omega, ?_⟩
                split at h
                · cases h
                  rfl
                · next hfits =>
                    cases h
                    rw [written, resize_of_le (by omega)]

/-- An update of a holder record whose end a vector can hold succeeds. -/
theorem updateTxHolder_ok (buffer : Bytes) (pieces : BTreeMap Nat Nat) {offset : Nat}
    {data : Bytes} (h : offset + data.length ≤ isizeMax) :
    ∃ tx', (EvmTx.bigEvmTx buffer pieces).updateTxHolder offset data = .ok tx' := by
  have hmax : isizeMax < usizeMax := by decide
  by_cases hin : offset ∈ pieces
  · exact ⟨_, by rw [updateTxHolder, if_pos hin]⟩
  · exact ⟨_, by rw [updateTxHolder, if_neg hin, if_neg (by omega), if_neg (by omega)]⟩

/-! ## Records built by updates -/

/-- The holder records there are: the empty one, updated. -/
inductive Built : EvmTx → Prop
  | newBigTx : Built .newBigTx
  | update {tx tx' : EvmTx} {offset : Nat} {data : Bytes} :
      Built tx → tx.updateTxHolder offset data = .ok tx' → Built tx'

/-- The buffer reaches exactly as far as its furthest piece. -/
structure Assembled (tx : EvmTx) : Prop where
  within : ∀ o n, tx.pieces[o]? = some n → o + n ≤ tx.holderData.length
  reaches : tx.holderData = [] ∨ ∃ o n, tx.pieces[o]? = some n ∧ o + n = tx.holderData.length

theorem Assembled.written {buffer : Bytes} {pieces : BTreeMap Nat Nat} {offset : Nat}
    {data : Bytes} (h : Assembled (.bigEvmTx buffer pieces)) (hnew : pieces[offset]? = none) :
    Assembled (.bigEvmTx (written buffer offset data) (pieces.insert offset data.length)) := by
  have hlen := length_written buffer offset data
  constructor
  · intro o n ho
    show o + n ≤ (RomeSdk.written buffer offset data).length
    change (pieces.insert offset data.length)[o]? = some n at ho
    rw [BTreeMap.get?_insert] at ho
    split at ho
    · next heq =>
        cases ho
        omega
    · have hold : o + n ≤ buffer.length := h.within o n ho
      omega
  · show RomeSdk.written buffer offset data = [] ∨ ∃ o n,
      (pieces.insert offset data.length)[o]? = some n ∧
        o + n = (RomeSdk.written buffer offset data).length
    by_cases hfar : buffer.length ≤ offset + data.length
    · right
      exact ⟨offset, data.length, by rw [BTreeMap.get?_insert, if_pos rfl], by omega⟩
    · rcases h.reaches with hnil | ⟨o, n, ho, hend⟩
      · have : buffer.length = 0 := by
          rw [show buffer = [] from hnil]
          rfl
        omega
      · right
        change pieces[o]? = some n at ho
        change o + n = buffer.length at hend
        have hne : offset ≠ o := by
          intro heq
          rw [heq, ho] at hnew
          cases hnew
        exact ⟨o, n, by rw [BTreeMap.get?_insert, if_neg hne]; exact ho, by omega⟩

theorem Built.assembled {tx : EvmTx} (h : Built tx) : Assembled tx := by
  induction h with
  | newBigTx =>
      constructor
      · intro o n ho
        change (∅ : BTreeMap Nat Nat)[o]? = some n at ho
        rw [Std.ExtTreeMap.getElem?_empty] at ho
        cases ho
      · exact Or.inl rfl
  | update _ hup ih =>
      obtain ⟨buffer, pieces, rfl, ⟨_, rfl⟩ | ⟨hnew, _, rfl⟩⟩ := updateTxHolder_cases hup
      · exact ih
      · exact ih.written hnew

/-- A record built by updates is a holder record. -/
theorem Built.big {tx : EvmTx} (h : Built tx) :
    tx = .bigEvmTx tx.holderData tx.pieces := by
  cases h with
  | newBigTx => rfl
  | update _ hup =>
      obtain ⟨buffer, pieces, rfl, ⟨_, rfl⟩ | ⟨_, _, rfl⟩⟩ := updateTxHolder_cases hup <;> rfl

/-! ## Completeness is a tiling -/

theorem piecesEnd_eq_some {l : List (Nat × Nat)} : ∀ {a b : Nat},
    piecesEnd l a = some b ↔ Tiles l a b := by
  induction l with
  | nil =>
      intro a b
      constructor
      · intro h
        cases h
        exact .nil a
      · intro h
        cases h
        rfl
  | cons p l ih =>
      intro a b
      obtain ⟨o, n⟩ := p
      simp only [piecesEnd]
      constructor
      · intro h
        split at h
        · cases h
        · next ho =>
            have hoa : o = a := by omega
            subst hoa
            exact .cons (ih.mp h)
      · intro h
        cases h with
        | cons h => rw [if_neg (by omega)]; exact ih.mpr h

theorem isDataComplete_iff_ends {buffer : Bytes} {pieces : BTreeMap Nat Nat} :
    (EvmTx.bigEvmTx buffer pieces).isDataComplete = true ↔
      ∃ b, Tiles pieces.toList 0 b ∧ b ≠ 0 := by
  simp only [isDataComplete]
  constructor
  · intro h
    split at h
    · cases h
    · next b hb => exact ⟨b, piecesEnd_eq_some.mp hb, by simpa using h⟩
  · intro ⟨b, hb, hne⟩
    rw [piecesEnd_eq_some.mpr hb]
    simpa using hne

/-- The pieces of an assembled record end where its buffer does. -/
theorem Assembled.end_eq {tx : EvmTx} (h : Assembled tx) {b : Nat}
    (hb : Tiles tx.pieces.toList 0 b) : b = tx.holderData.length := by
  have hle : tx.holderData.length ≤ b := by
    rcases h.reaches with hnil | ⟨o, n, ho, hend⟩
    · rw [hnil]
      exact Nat.zero_le b
    · have := hb.within ((BTreeMap.mem_toList _ o n).mpr ho)
      omega
  have hge : b ≤ tx.holderData.length := by
    by_contra hlt
    obtain ⟨o, n, hmem, _, hon⟩ := hb.covers (Nat.zero_le tx.holderData.length) (by omega)
    have := h.within o n ((BTreeMap.mem_toList _ o n).mp hmem)
    omega
  omega

theorem Built.isDataComplete_iff {tx : EvmTx} (h : Built tx) :
    tx.isDataComplete = true ↔
      Tiles tx.pieces.toList 0 tx.holderData.length ∧ tx.holderData ≠ [] := by
  have hasm := h.assembled
  rw [h.big, isDataComplete_iff_ends]
  constructor
  · intro ⟨b, hb, hne⟩
    have hend : b = tx.holderData.length := hasm.end_eq hb
    subst hend
    exact ⟨hb, fun hnil => hne (List.length_eq_zero_iff.mpr hnil)⟩
  · intro ⟨hb, hne⟩
    exact ⟨_, hb, fun hzero => hne (List.length_eq_zero_iff.mp hzero)⟩

/-! ## A further chunk for a complete record -/

/-- What a further chunk should leave alone: the record is complete, the bytes
it had are still there, and it builds the same transaction. -/
structure Kept (X : Crates) (tx tx' : EvmTx) : Prop where
  complete : tx'.isDataComplete = true
  bytes : tx.holderData <+: tx'.holderData
  build : tx'.build X = tx.build X

/-- A chunk that leaves a complete record alone: its offset is known, or it
follows the last byte and does not change what is decoded. -/
def Harmless (X : Crates) (tx : EvmTx) (offset : Nat) (data : Bytes) : Prop :=
  offset ∈ tx.pieces ∨
    (offset = tx.holderData.length ∧ offset + data.length ≤ isizeMax ∧
      decodeTransactionFromRlp X (tx.holderData ++ data)
        = decodeTransactionFromRlp X tx.holderData)

/-- After a chunk for a new offset a complete record is complete only if the
chunk was appended. -/
theorem complete_update_iff {tx tx' : EvmTx} {offset : Nat} {data : Bytes} (hbuilt : Built tx)
    (hcomplete : tx.isDataComplete = true) (hnew : offset ∉ tx.pieces)
    (hup : tx.updateTxHolder offset data = .ok tx') :
    tx'.isDataComplete = true ↔ offset = tx.holderData.length := by
  have htiles := (hbuilt.isDataComplete_iff.mp hcomplete).1
  have hne := (hbuilt.isDataComplete_iff.mp hcomplete).2
  obtain ⟨buffer, pieces, rfl, ⟨hin, _⟩ | ⟨hnone, _, rfl⟩⟩ := updateTxHolder_cases hup
  · exact absurd hin hnew
  · rw [isDataComplete_iff_ends, ← htiles.insert_iff (n := data.length) hnone]
    constructor
    · intro ⟨b, hb, _⟩
      exact ⟨b, hb⟩
    · intro ⟨b, hb⟩
      have hpos : 0 < buffer.length := List.length_pos_iff.mpr hne
      have hend : b = (written buffer offset data).length :=
        (hbuilt.update hup).assembled.end_eq hb
      rw [length_written] at hend
      exact ⟨b, hb, by omega⟩

/-- As long as a record stays complete, its bytes are only added to. -/
theorem update_grows {tx tx' : EvmTx} {offset : Nat} {data : Bytes} (hbuilt : Built tx)
    (hcomplete : tx.isDataComplete = true) (hup : tx.updateTxHolder offset data = .ok tx')
    (hcomplete' : tx'.isDataComplete = true) : tx.holderData <+: tx'.holderData := by
  by_cases hin : offset ∈ tx.pieces
  · obtain ⟨buffer, pieces, rfl, ⟨_, rfl⟩ | ⟨hnone, _, _⟩⟩ := updateTxHolder_cases hup
    · exact List.prefix_rfl
    · change offset ∈ pieces at hin
      rw [Std.ExtTreeMap.mem_iff_isSome_getElem?, hnone] at hin
      cases hin
  · have hend := (complete_update_iff hbuilt hcomplete hin hup).mp hcomplete'
    obtain ⟨buffer, pieces, rfl, ⟨hin', _⟩ | ⟨_, _, rfl⟩⟩ := updateTxHolder_cases hup
    · exact absurd hin' hin
    · subst hend
      simp only [holderData, written_end]
      exact List.prefix_append _ _

theorem updateTxHolder_known {tx : EvmTx} {offset : Nat} {data : Bytes} (hbuilt : Built tx)
    (hin : offset ∈ tx.pieces) : tx.updateTxHolder offset data = .ok tx := by
  rw [hbuilt.big, updateTxHolder, if_pos hin]

/-- One further chunk: a complete record stays as it is if and only if the chunk
is harmless. -/
theorem kept_update_iff {X : Crates} {tx : EvmTx} (offset : Nat) (data : Bytes)
    (hbuilt : Built tx) (hcomplete : tx.isDataComplete = true) :
    (∃ tx', tx.updateTxHolder offset data = .ok tx' ∧ Kept X tx tx') ↔
      Harmless X tx offset data := by
  by_cases hin : offset ∈ tx.pieces
  · constructor
    · intro _
      exact Or.inl hin
    · intro _
      exact ⟨tx, updateTxHolder_known hbuilt hin, hcomplete, List.prefix_rfl, rfl⟩
  · constructor
    · intro ⟨tx', hup, hkept⟩
      have hend := (complete_update_iff hbuilt hcomplete hin hup).mp hkept.complete
      have hbuild := hkept.build
      obtain ⟨buffer, pieces, rfl, ⟨hin', _⟩ | ⟨_, hcap, rfl⟩⟩ := updateTxHolder_cases hup
      · exact absurd hin' hin
      · subst hend
        right
        simp only [build, holderData, written_end] at hbuild
        exact ⟨rfl, hcap, hbuild⟩
    · intro hharm
      rcases hharm with hin' | ⟨hend, hcap, hdecode⟩
      · exact absurd hin' hin
      · obtain ⟨tx', hup⟩ := updateTxHolder_ok tx.holderData tx.pieces hcap
        rw [← hbuilt.big] at hup
        have hcomplete' := (complete_update_iff hbuilt hcomplete hin hup).mpr hend
        refine ⟨tx', hup, hcomplete', update_grows hbuilt hcomplete hup hcomplete', ?_⟩
        obtain ⟨buffer, pieces, rfl, ⟨hin', _⟩ | ⟨_, _, rfl⟩⟩ := updateTxHolder_cases hup
        · exact absurd hin' hin
        · subst hend
          simp only [build, holderData, written_end] at hdecode ⊢
          exact hdecode

end EvmTx

end RomeSdk
