import RomeSdk.Indexer.EngineApiBlockProducer

/-!
# Producing blocks out of nothing

The producer of `client.rs` for a client without op-geth: blocks are numbered by a
counter and their hashes drawn at random. The counter and the source of random hashes
belong to the world.
-/

namespace RomeSdk

structure DummyBlockProducer (σ : Type) where
  /-- the counter `next_block` -/
  load : σ → Nat
  store : Nat → σ → σ
  /-- `H256::random` -/
  random : σ → H256 × σ

namespace DummyBlockProducer

variable {σ : Type}

/-- `AtomicU64::fetch_add`, which wraps around. -/
def fetchAdd (D : DummyBlockProducer σ) (n : Nat) : Eff σ Nat := fun s =>
  .ok (D.load s) (D.store ((D.load s + n) % 2 ^ 64) s)

def randomHash (D : DummyBlockProducer σ) : Eff σ H256 := fun s =>
  .ok (D.random s).1 (D.random s).2

def lastProducedBlock (D : DummyBlockProducer σ) : Eff σ Nat := fun s =>
  if D.load s = 0 then .error (.panic "attempt to subtract with overflow") s
  else .ok (D.load s - 1) s

def getBlockParams (_ : Nat) : Eff σ BlockParams :=
  throw (.err (.custom "DummyBlockProducer does not support get_block_params"))

/-- The loop of `produce_blocks`. -/
def produceLoop (D : DummyBlockProducer σ) (limit : Option Nat) :
    List (Slot × PendingL1Block × Nat × PendingL2Block) → Option H256 → ProducedBlocks →
      Eff σ ProductionResult
  | [], _, producedBlocks => pure ⟨producedBlocks, 0⟩
  | (slotNumber, pendingL1Block, blockIdx, _) :: rest, parentHash, producedBlocks => do
    let blockNumber ← D.fetchAdd 1
    let blockhash ← D.randomHash
    let producedBlocks := producedBlocks.insert slotNumber blockIdx
      ⟨blockhash, parentHash, blockNumber, pendingL1Block.timestamp⟩
    if EngineAPIBlockProducer.reached limit producedBlocks then pure ⟨producedBlocks, 0⟩
    else D.produceLoop limit rest (some blockhash) producedBlocks

def produceBlocks (D : DummyBlockProducer σ) (producerParams : ProducerParams)
    (limit : Option Nat) : Eff σ ProductionResult :=
  D.produceLoop limit producerParams.pendingBlocks.iter producerParams.parentHash ∅

def blockProducer (D : DummyBlockProducer σ) : BlockProducer σ where
  lastProducedBlock := D.lastProducedBlock
  getBlockParams := getBlockParams
  produceBlocks := D.produceBlocks

end DummyBlockProducer

end RomeSdk
