import RomeSdk.Indexer.Storage

/-!
# Producing blocks on the single state

`single_state_block_producer.rs`. The rollup state is the one on Solana, so a block
is produced by naming it: it takes the hash and the time of its Solana block. The
other two calls of the trait are still `todo!()`.
-/

namespace RomeSdk

namespace SingleStateBlockProducer

def reached (limit : Option Nat) (produced : Nat) : Bool :=
  match limit with
  | some limit => limit ≤ produced
  | none => false

/-- The loop of `produce_blocks`. -/
def produceLoop (limit : Option Nat) :
    List (Slot × PendingL1Block × Nat × PendingL2Block) → Option H256 → Nat → ProducedBlocks →
      ProducedBlocks
  | [], _, _, producedBlocks => producedBlocks
  | (slotNumber, pendingL1Block, l2BlockIdx, _) :: rest, parentBlockhash, produced,
      producedBlocks =>
    let producedBlocks := producedBlocks.insert slotNumber l2BlockIdx
      ⟨pendingL1Block.blockhash, parentBlockhash, slotNumber, pendingL1Block.timestamp⟩
    if reached limit (produced + 1) then producedBlocks
    else produceLoop limit rest (some pendingL1Block.blockhash) (produced + 1) producedBlocks

/-- The finalized block of the result is its default. -/
def produceBlocks {σ : Type} (producerParams : ProducerParams) (limit : Option Nat) :
    Eff σ ProductionResult :=
  pure ⟨produceLoop limit producerParams.pendingBlocks.iter producerParams.parentHash 0 ∅, 0⟩

def blockProducer {σ : Type} : BlockProducer σ where
  lastProducedBlock := throw (.panic "not yet implemented")
  getBlockParams _ := throw (.panic "not yet implemented")
  produceBlocks := produceBlocks

end SingleStateBlockProducer

end RomeSdk
