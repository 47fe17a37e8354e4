import RomeSdk.Parsers.BlockParser
import RomeSdk.Proofs.Finalization
import RomeSdk.Proofs.Records

/-!
# When a holder transaction counts as complete

The length of the transaction is not part of the record, so a record is
complete as soon as its pieces have no gap from offset 0 on. Of the chunks a
sender cuts, these are the first so many, and the last ones may be missing.
`isSlotComplete` and `BlockParser.parse` rest on the same check and inherit
what it cannot tell.
-/

namespace RomeSdk

/-- `parse` returns a block only once the slot counts as complete. -/
theorem BlockParser.parseLoop_complete {X : Crates} {bp : BlockParser} {finalSlot : Slot}
    {finalBlock : UiConfirmedBlock} {maxBlocks : Nat} (fuel : Nat) :
    ∀ {blocksParsed : Nat} {slot : Slot} {block : UiConfirmedBlock} {p p' : DefaultTxParser}
      {result : BlockParseResult},
      bp.parseLoop X finalSlot finalBlock maxBlocks fuel blocksParsed slot block p
        = (p', .ok (some result)) → p'.isSlotComplete finalSlot = .ok true := by
  induction fuel with
  | zero =>
      intro blocksParsed slot block p p' result h
      cases h
  | succ fuel ih =>
      intro blocksParsed slot block p p' result h
      rw [parseLoop] at h
      split at h
      · cases h
      · split at h
        · cases h
        · next hcomplete =>
            have hp := congrArg Prod.fst h
            change _ = p' at hp
            rw [← hp]
            exact hcomplete
        · split at h
          · cases h
          · split at h
            · cases h
            · exact ih h

theorem BlockParser.parse_complete {X : Crates} {bp : BlockParser} {finalSlot : Slot}
    {maxBlocks : Nat} {p p' : DefaultTxParser} {result : BlockParseResult}
    (h : bp.parse X finalSlot maxBlocks p = (p', .ok (some result))) :
    p'.isSlotComplete finalSlot = .ok true := by
  simp only [parse] at h
  split at h
  · cases h
  · cases h
  · exact parseLoop_complete _ h

namespace TransmitTx

/-- The slot was executed with a record of `hash` that counts as complete. -/
theorem record_complete_of_slot {p : DefaultTxParser} {slot : Slot} {hash : TxHash} {i : Nat}
    {r : TxResult} {tx : EvmTx} (hrec : p.record hash = some tx)
    (hexec : p.resultAt slot hash i = some (some r)) (hslot : p.isSlotComplete slot = .ok true) :
    tx.isDataComplete = true := by
  obtain ⟨tx', hrec', hcomplete⟩ := DefaultTxParser.isSlotComplete_iff.mp hslot hash i r hexec
  rw [hrec] at hrec'
  cases hrec'
  exact hcomplete

/-- Apply the chunks of `L`. Then neither the record nor a slot that executed it
counts as complete, and no block is made of such a slot, while a chunk is
missing, if and only if `L` is not a proper first part of the cutting. -/
theorem complete_only_whole_iff {t : TransmitTx} {C L : List (Nat × Bytes)}
    (hchunks : t.chunks = .ok C) (hne : t.rlp ≠ []) (hsize : t.rlp.length ≤ isizeMax)
    (hL : ∀ c ∈ L, c ∈ C) :
    ∃ tx, EvmTx.newBigTx.updateAll L = .ok tx ∧
      (((tx.isDataComplete = true → ∀ c ∈ C, c ∈ L) ∧
        (∀ (p : DefaultTxParser) slot i r, p.record t.hash = some tx →
          p.resultAt slot t.hash i = some (some r) → p.isSlotComplete slot = .ok true →
            ∀ c ∈ C, c ∈ L) ∧
        (∀ X bp maxBlocks p p' slot i r result,
          BlockParser.parse X bp slot maxBlocks p = (p', .ok (some result)) →
            p'.record t.hash = some tx → p'.resultAt slot t.hash i = some (some r) →
              ∀ c ∈ C, c ∈ L)) ↔
        ¬ ∃ k, 0 < k ∧ k < C.length ∧ ∀ c, c ∈ L ↔ c ∈ C.take k) := by
  obtain ⟨C', hchunks', hC⟩ := t.chunks_cuts
  rw [hchunks] at hchunks'
  cases hchunks'
  obtain ⟨tx, hrun, htracks, _⟩ :=
    EvmTx.updateAll_chunks hC hsize L .newBigTx (.newBigTx t.rlp) (by simp) hL
  rw [List.nil_append] at htracks
  have hiff := htracks.isDataComplete_iff hC hL (hC.ne_nil hne)
  refine ⟨tx, hrun, ?_, ?_⟩
  · intro ⟨hwhole, _, _⟩ ⟨k, hk, hlt, hmem⟩
    have hall := hwhole (hiff.mpr ⟨k, hk, hmem⟩)
    have hsub : C ⊆ C.take k := fun c hc => (hmem c).mp (hall c hc)
    have hnodup : C.Nodup := List.Nodup.of_map _ hC.offsets_nodup
    have hle := (List.subperm_of_subset hnodup hsub).length_le
    rw [List.length_take] at hle
    omega
  · intro hnot
    have hwhole : tx.isDataComplete = true → ∀ c ∈ C, c ∈ L := by
      intro hcomplete c hc
      obtain ⟨k, hk, hmem⟩ := hiff.mp hcomplete
      by_cases hlt : k < C.length
      · exact absurd ⟨k, hk, hlt, hmem⟩ hnot
      · rw [hmem, List.take_of_length_le (by omega)]
        exact hc
    refine ⟨hwhole, ?_, ?_⟩
    · intro p slot i r hrec hexec hslot
      exact hwhole (record_complete_of_slot hrec hexec hslot)
    · intro X bp maxBlocks p p' slot i r result hparse hrec hexec
      exact hwhole (record_complete_of_slot hrec hexec (BlockParser.parse_complete hparse))

/-! Two chunks, of which the second is not there. -/

def twoChunkTx : TransmitTx := transmitOf (List.replicate 801 42)

def twoChunks : List (Nat × Bytes) := [(0, List.replicate 800 42), (800, [42])]

theorem first_chunk_complete : twoChunkTx.chunks = .ok twoChunks ∧ twoChunkTx.rlp ≠ [] ∧
    (EvmTx.newBigTx.updateAll (twoChunks.take 1)).toOption.map EvmTx.isDataComplete = some true ∧
    ¬ ∀ c ∈ twoChunks, c ∈ twoChunks.take 1 := by
  have hchunks : twoChunkTx.chunks = .ok twoChunks := by decide +kernel
  exact ⟨hchunks, by decide +kernel, by decide +kernel, by decide +kernel⟩

theorem complete_only_whole_one :
    ∃ tx, EvmTx.newBigTx.updateAll [(0, [42])] = .ok tx ∧
      (tx.isDataComplete = true → ∀ c ∈ [(0, ([42] : Bytes))], c ∈ [(0, ([42] : Bytes))]) := by
  obtain ⟨tx, hrun, hiff⟩ := complete_only_whole_iff (t := transmitOf [42])
    (L := [(0, [42])]) rfl (by decide) (by decide) (by decide)
  refine ⟨tx, hrun, (hiff.mpr ?_).1⟩
  intro ⟨k, hk, hlt, _⟩
  have hone : k < 1 := hlt
  omega

end TransmitTx

end RomeSdk
