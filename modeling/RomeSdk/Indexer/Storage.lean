import RomeSdk.Parsers.BlockParser

/-!
# What the indexer works on

`pending_blocks.rs`, `produced_blocks.rs`, `ethereum_block_storage.rs`,
`solana_block_storage.rs` and `block_producer.rs`: the blocks that go to a block
producer and come back from it, and the three traits the rollup indexer is
written against. A trait object is a structure of calls over a state `σ`, the
world outside the indexer, which every call may change and in which it may fail.
-/

namespace RomeSdk

/-- A call of the source that reads and changes the state `σ`. -/
abbrev Eff (σ α : Type) := EStateM Failure σ α

/-- The call with its error in hand, as `match` on a `ProgramResult` sees it; a
panic is not caught. -/
def Eff.attempt {σ α : Type} (x : Eff σ α) : Eff σ (ProgramResult α) := fun s =>
  match x s with
  | .ok a s' => .ok (.ok a) s'
  | .error (.err e) s' => .ok (.error e) s'
  | .error (.panic message) s' => .error (.panic message) s'

/-! ## Pending and produced blocks -/

/-- A Solana slot and the index of the block within it. -/
abbrev EthBlockId := Slot × Nat

structure PendingL2Block where
  transactions : BTreeMap Nat (Transaction × TxResult)
  gasRecipient : Option Address

structure PendingL1Block where
  blockhash : H256
  timestamp : U256
  l2Blocks : BTreeMap Nat PendingL2Block

abbrev PendingBlocks := BTreeMap Slot PendingL1Block

namespace PendingBlocks

def get (blocks : PendingBlocks) (slotNumber : Slot) (blockIdx : Nat) : Option PendingL2Block :=
  blocks[slotNumber]?.bind fun slotBlocks => slotBlocks.l2Blocks[blockIdx]?

def retainAfter (blocks : PendingBlocks) (minSlotNumber : Slot) (minBlockIdx : Nat) :
    PendingBlocks :=
  Std.ExtTreeMap.filterMap (fun slotNumber pendingL1Block =>
    if minSlotNumber < slotNumber then some pendingL1Block
    else if slotNumber = minSlotNumber then
      let l2Blocks := pendingL1Block.l2Blocks.filter fun blockIdx _ => minBlockIdx < blockIdx
      if l2Blocks.isEmpty then none else some { pendingL1Block with l2Blocks := l2Blocks }
    else none) blocks

def contains (blocks : PendingBlocks) (slotNumber : Slot) (blockIdx : Nat) : Bool :=
  match blocks[slotNumber]? with
  | none => false
  | some slotBlocks => slotBlocks.l2Blocks.contains blockIdx

def iter (blocks : PendingBlocks) : List (Slot × PendingL1Block × Nat × PendingL2Block) :=
  blocks.toList.flatMap fun e => e.2.l2Blocks.toList.map fun b => (e.1, e.2, b.1, b.2)

def keys (blocks : PendingBlocks) : List EthBlockId :=
  blocks.toList.flatMap fun e => e.2.l2Blocks.toList.map fun b => (e.1, b.1)

end PendingBlocks

abbrev ProducedBlocks := BTreeMap Slot (BTreeMap Nat BlockParams)

namespace ProducedBlocks

/-- The number of slots. -/
def len (blocks : ProducedBlocks) : Nat := blocks.size

def first (blocks : ProducedBlocks) : Option BlockParams := do
  let (_, slotBlocks) ← blocks.toList.head?
  let (_, blockParams) ← slotBlocks.toList.head?
  pure blockParams

def get (blocks : ProducedBlocks) (slotNumber : Slot) (blockIdx : Nat) : Option BlockParams :=
  blocks[slotNumber]?.bind fun slotBlocks => slotBlocks[blockIdx]?

def lastKeyValue (blocks : ProducedBlocks) : Option (Slot × Nat × BlockParams) := do
  let (slotNumber, slotBlocks) ← blocks.toList.getLast?
  let (blockIdx, blockParams) ← slotBlocks.toList.getLast?
  pure (slotNumber, blockIdx, blockParams)

def insert (blocks : ProducedBlocks) (slotNumber : Slot) (blockIdx : Nat)
    (blockParams : BlockParams) : ProducedBlocks :=
  BTreeMap.upsert blocks slotNumber fun slotBlocks =>
    (slotBlocks.getD ∅).insert blockIdx blockParams

def iter (blocks : ProducedBlocks) : List (Slot × Nat × BlockParams) :=
  blocks.toList.flatMap fun e => e.2.toList.map fun b => (e.1, b.1, b.2)

end ProducedBlocks

/-! ## The traits -/

inductive FinalizedBlock where
  | produced (hash : H256)
  | pending (id : EthBlockId)
  deriving DecidableEq, Repr

structure ProducerParams where
  parentHash : Option H256
  finalizedBlock : Option FinalizedBlock
  pendingBlocks : PendingBlocks

structure ReproduceParams where
  producerParams : ProducerParams
  expectedResults : ProducedBlocks

/-- The calls of `EthereumBlockStorage` the indexer makes. -/
structure EthereumBlockStorage (σ : Type) where
  getPendingBlocks : Eff σ (Option ProducerParams)
  reproduceBlocks : Slot → Slot → Eff σ (Option ReproduceParams)
  registerParseResults : BTreeMap Slot BlockParseResult → Eff σ Unit
  latestBlock : Eff σ (Option Nat)
  blocksProduced : ProducerParams → ProducedBlocks → Eff σ Unit
  getMaxSlotProduced : Eff σ (Option Slot)
  retainFromSlot : Slot → Eff σ Unit
  getSlotForEthBlock : Nat → Eff σ (Option Slot)
  cleanFromSlot : Slot → Eff σ Unit

/-- The calls of `SolanaBlockStorage` the indexer makes itself, and the slots
that are stored. -/
structure SolanaBlockStorage (σ : Type) where
  getLastSlot : Eff σ (Option Slot)
  retainFromSlot : Slot → Eff σ Unit
  stored : σ → Slot → Prop

structure ProductionResult where
  producedBlocks : ProducedBlocks
  finalizedBlock : H256

structure BlockProducer (σ : Type) where
  lastProducedBlock : Eff σ Nat
  getBlockParams : Nat → Eff σ BlockParams
  produceBlocks : ProducerParams → Option Nat → Eff σ ProductionResult

end RomeSdk
