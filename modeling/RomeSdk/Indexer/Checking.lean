import RomeSdk.Indexer.SolanaBlockLoader

/-!
# Checking what is stored

`start_checking` of `solana_block_loader.rs`, the loader of the recovery. It walks
from an end slot along the parents of the blocks down to a start slot. A block
that is not stored is loaded from the node. The blocks of a batch are then
compared with the finalized ones, as those that became finalized are.

The loop over the batches ends when it comes below the start slot. Nothing but
the parents it finds says that it does, so it is given a number of batches.
-/

namespace RomeSdk

namespace SolanaBlockLoader

variable {σ : Type}

/-- The block of a slot, as the body of the loop of `check_batch` gets it. -/
def blockToCheck (X : Crates) (L : SolanaBlockLoader σ) (currentSlot : Slot) :
    Eff σ UiConfirmedBlock := do
  match ← L.solanaBlockStorage.getBlock currentSlot with
  | some block => pure block
  | none =>
      match ← L.loadBlock X L.commitment currentSlot with
      | some block => pure block
      | none => throw (.err (.custom ("Failed to load block on slot " ++ toString currentSlot)))

/-- The loop of `check_batch`, for at most as many blocks as the batch still takes. -/
def batchLoop (X : Crates) (L : SolanaBlockLoader σ) (startSlot : Slot) :
    Nat → Slot → BTreeMap Slot UiConfirmedBlock → Eff σ (Slot × BTreeMap Slot UiConfirmedBlock)
  | 0, currentSlot, blocks => pure (currentSlot, blocks)
  | n + 1, currentSlot, blocks =>
      if startSlot ≤ currentSlot then do
        let block ← L.blockToCheck X currentSlot
        L.batchLoop X startSlot n block.parentSlot (blocks.insert currentSlot block)
      else pure (currentSlot, blocks)

def checkBatch (X : Crates) (L : SolanaBlockLoader σ) (startSlot endSlot : Slot)
    (reorgEventTx : ReorgSender σ) : Eff σ Slot := do
  let (currentSlot, blocks) ← L.batchLoop X startSlot L.batchSize endSlot ∅
  L.recheckFinalizedBlocks X blocks reorgEventTx
  pure currentSlot

/-- The loop of `start_checking`. -/
def checkLoop (X : Crates) (L : SolanaBlockLoader σ) (startSlot : Slot)
    (reorgEventTx : ReorgSender σ) : Nat → Slot → Eff σ Unit
  | batches, endSlot =>
      if startSlot ≤ endSlot then
        match batches with
        | 0 => throw (.panic "out of batches")
        | batches + 1 => do
            let endSlot ← L.checkBatch X startSlot endSlot reorgEventTx
            L.checkLoop X startSlot reorgEventTx batches endSlot
      else pure ()

/-- The slot to begin with, if one is given or stored. -/
def checkFrom (L : SolanaBlockLoader σ) (endSlot : Option Slot) : Eff σ (Option Slot) :=
  match endSlot with
  | some value => pure (some value)
  | none => do
      match ← L.solanaBlockStorage.getLastSlot.attempt with
      | .ok lastSlot => pure lastSlot
      | .error err => throw (.err (.custom
          ("Failed to get last slot from SolanaBlockStorage " ++ err.debug)))

def startChecking (X : Crates) (L : SolanaBlockLoader σ) (batches : Nat) (startSlot : Slot)
    (endSlot : Option Slot) (reorgEventTx : ReorgSender σ) : Eff σ Unit := do
  match ← L.checkFrom endSlot with
  | none => pure ()
  | some endSlot =>
      if endSlot < startSlot then pure ()
      else
        match ← L.solanaBlockStorage.getBlock startSlot with
        | none => pure ()
        | some _ => L.checkLoop X startSlot reorgEventTx batches endSlot

end SolanaBlockLoader

end RomeSdk
