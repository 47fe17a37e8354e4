import RomeSdk.Proofs.Recovery
import RomeSdk.Proofs.ReorgCoverage

/-!
# The slots of the batches

`parse_blocks_batch` and `preload_blocks` each take the slots from where the loop stands to
`max_slot`, or `batch_size` of them where there are more, and the loop goes on from the end
of what was taken. So either loop takes the slots in `pieces`, and what is shown here of the
pieces is shown of the ranges of its rounds.
-/

namespace RomeSdk

/-- A batch is the first of its slots with their number. -/
structure SlotBatches (fromSlot toSlot batchSize : Slot) (batches : List (Slot × Slot)) : Prop where
  consecutive : Tiles batches fromSlot toSlot
  increasing : batches.Pairwise fun batch later => batch.1 + batch.2 ≤ later.1
  size : ∀ batch ∈ batches, 1 ≤ batch.2 ∧ batch.2 ≤ batchSize
  /-- `max_slot - from_slot` does not underflow, and `to_slot` is at most `max_slot`. -/
  within : ∀ batch ∈ batches,
    fromSlot ≤ batch.1 ∧ batch.1 < toSlot ∧ batch.1 + batch.2 ≤ toSlot
  slots : batches.flatMap (fun batch => List.range' batch.1 batch.2)
    = List.range' fromSlot (toSlot - fromSlot)
  once : ∀ slot, fromSlot ≤ slot → slot < toSlot →
    ∃! batch, batch ∈ batches ∧ batch.1 ≤ slot ∧ slot < batch.1 + batch.2

theorem slotBatches_pieces {fromSlot toSlot batchSize : Slot} (hlt : fromSlot < toSlot)
    (hbatch : 0 < batchSize) :
    SlotBatches fromSlot toSlot batchSize (pieces batchSize fromSlot toSlot) := by
  have htiles : Tiles (pieces batchSize fromSlot toSlot) fromSlot toSlot :=
    pieces_tiles hbatch (Nat.le_of_lt hlt)
  refine ⟨htiles, htiles.disjoint, ?_, ?_, htiles.flatMap_range', ?_⟩
  · intro batch hmem
    exact length_of_mem_pieces hbatch hmem
  · intro batch hmem
    obtain ⟨hbelow, _⟩ := of_mem_pieces hbatch hmem
    obtain ⟨hfrom, hto⟩ := htiles.within hmem
    exact ⟨hfrom, hbelow, hto⟩
  · intro slot hfrom hto
    exact htiles.existsUnique hfrom hto

namespace RollupIndexer

variable {σ : Type}

theorem parseBlocksBatch_eq (I : RollupIndexer σ) {toSlot batchSize : Slot} {batch : Slot × Slot}
    (hsize : batch.2 = min (toSlot - batch.1) batchSize) :
    I.parseBlocksBatch batch.1 toSlot batchSize = (do
      let parseResults ← I.parseSlots (List.range' batch.1 batch.2) ∅
      pure (batch.1 + batch.2, parseResults)) := by
  rw [parseBlocksBatch, ← hsize, Nat.add_sub_cancel_left]

/-- The walk to `toSlot` is one over these batches. -/
structure InBatches (I : RollupIndexer σ) (fromSlot toSlot batchSize : Slot)
    (batches : List (Slot × Slot)) : Prop where
  /-- The slots of a batch are parsed, and the loop goes on behind them. -/
  parses : ∀ batch ∈ batches, I.parseBlocksBatch batch.1 toSlot batchSize = (do
    let parseResults ← I.parseSlots (List.range' batch.1 batch.2) ∅
    pure (batch.1 + batch.2, parseResults))
  /-- The number of rounds does not end the loop. -/
  ends : ∀ rounds, toSlot - fromSlot ≤ rounds →
    I.syncLoop toSlot batchSize rounds fromSlot
      = batches.forM fun batch => discard (I.syncRound toSlot batchSize batch.1)
  returns : ∀ s t, I.solanaBlockStorage.getLastSlot.attempt s = .ok (.ok (some toSlot)) t →
    I.restoreOrProduceUntilInSync fromSlot batchSize s = (do
      batches.forM fun batch => discard (I.syncRound toSlot batchSize batch.1)
      pure toSlot : Eff σ Slot) t

theorem inBatches_pieces (I : RollupIndexer σ) {fromSlot toSlot batchSize : Slot}
    (hlt : fromSlot < toSlot) (hbatch : 0 < batchSize) :
    I.InBatches fromSlot toSlot batchSize (pieces batchSize fromSlot toSlot) := by
  refine ⟨?_, ?_, ?_⟩
  · intro batch hmem
    exact I.parseBlocksBatch_eq (of_mem_pieces hbatch hmem).2
  · intro rounds hle
    exact I.syncLoop_eq_forM hbatch rounds hle
  · intro s t hlast
    rw [restoreOrProduceUntilInSync, EStateM.bind_of_ok hlast]
    simp only [if_pos hlt]
    rw [I.syncLoop_eq_forM hbatch _ (Nat.le_refl _)]

end RollupIndexer

namespace SolanaBlockLoader

variable {σ : Type}

theorem preloadBlocks_eq (X : Crates) (L : SolanaBlockLoader σ) {toSlot : Slot}
    {batch : Slot × Slot} (hsize : batch.2 = min (toSlot - batch.1) L.batchSize)
    (finalizedSlot : Slot) :
    L.preloadBlocks X batch.1 toSlot finalizedSlot = (do
      let blocks ← L.loadBlocks X (List.range' batch.1 batch.2)
      L.solanaBlockStorage.storeBlocks blocks finalizedSlot
      pure (batch.1 + batch.2)) := by
  rw [preloadBlocks, ← hsize, Nat.add_sub_cancel_left]

/-- The blocks up to `toSlot` are loaded in these batches. -/
structure InBatches (X : Crates) (L : SolanaBlockLoader σ) (fromSlot toSlot : Slot)
    (batches : List (Slot × Slot)) : Prop where
  /-- The slots of a batch are loaded, and the loop goes on behind them. -/
  loads : ∀ batch ∈ batches, ∀ finalizedSlot,
    L.preloadBlocks X batch.1 toSlot finalizedSlot = (do
      let blocks ← L.loadBlocks X (List.range' batch.1 batch.2)
      L.solanaBlockStorage.storeBlocks blocks finalizedSlot
      pure (batch.1 + batch.2))
  /-- The number of rounds does not end the loop. -/
  ends : ∀ finalizedSlot rounds, toSlot - fromSlot ≤ rounds →
    L.preloadLoop X toSlot finalizedSlot rounds fromSlot
      = batches.forM fun batch => discard (L.preloadBlocks X batch.1 toSlot finalizedSlot)
  /-- The turn of the outer loop goes on from `toSlot`. -/
  returns : ∀ finalizedSlot reorgEventTx,
    L.syncTo X fromSlot reorgEventTx (.ok (toSlot, finalizedSlot)) = (do
      batches.forM fun batch => discard (L.preloadBlocks X batch.1 toSlot finalizedSlot)
      L.updateFinalizedSlot X finalizedSlot reorgEventTx
      pure (.goOn toSlot))

theorem inBatches_pieces (X : Crates) (L : SolanaBlockLoader σ) {fromSlot toSlot : Slot}
    (hlt : fromSlot < toSlot) (hbatch : 0 < L.batchSize) :
    L.InBatches X fromSlot toSlot (pieces L.batchSize fromSlot toSlot) := by
  refine ⟨?_, ?_, ?_⟩
  · intro batch hmem finalizedSlot
    exact preloadBlocks_eq X L (of_mem_pieces hbatch hmem).2 finalizedSlot
  · intro finalizedSlot rounds hle
    exact L.preloadLoop_eq_forM X hbatch rounds hle
  · intro finalizedSlot reorgEventTx
    rw [syncTo, if_pos hlt, L.preloadLoop_eq_forM X hbatch _ (Nat.le_refl _)]

end SolanaBlockLoader

end RomeSdk
