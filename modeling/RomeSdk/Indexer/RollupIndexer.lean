import RomeSdk.Indexer.Storage
import RomeSdk.Lib.Effect
import RomeSdk.Lib.Pieces

/-!
# The rollup indexer

`rollup_indexer.rs`. The indexer walks the stored Solana slots in batches. A
batch is parsed, its results are registered in the Ethereum storage, and then
blocks are produced or, when the producer is ahead of the storage, the blocks it
already has are restored. A reorg event cleans the storage from a slot on and
moves the indexer to that slot.

The two parsers sit behind locks of the indexer; what they hold is part of the
state `σ` here. Waiting has no effect and is left out.
-/

namespace RomeSdk

def maxParseBehind : Nat := 64
def defaultBatchSize : Nat := 1024
def numRetries : Nat := 500

/-- `{:?}` of a hash. -/
def H256.debug (h : H256) : String :=
  "0x" ++ String.ofList ((beBytes 32 h.toNat).flatMap fun b =>
    [Nat.digitChar (b.toNat / 16), Nat.digitChar (b.toNat % 16)])

/-- `{:?}` of an optional hash. -/
def H256.debugOption : Option H256 → String
  | none => "None"
  | some h => "Some(" ++ h.debug ++ ")"

/-- `{:?}` of the parameters of a block. -/
def BlockParams.debug (p : BlockParams) : String :=
  "BlockParams \x7b hash: " ++ p.hash.debug ++ ", parent_hash: " ++ H256.debugOption p.parentHash
    ++ ", number: " ++ toString p.number ++ ", timestamp: " ++ toString p.timestamp.toNat ++ " \x7d"

/-- A result read as a call. -/
def Eff.ofResult {σ α : Type} (r : ProgramResult α) : Eff σ α :=
  match r with
  | .ok a => pure a
  | .error e => throw (.err e)

structure RollupIndexer (σ : Type) where
  /-- `block_parser.parse` of a slot, with the most blocks it may parse, by `tx_parser`. -/
  parse : Slot → Nat → Eff σ (Option BlockParseResult)
  /-- `tx_parser.retain_from_slot` -/
  retainParsed : Slot → Eff σ Unit
  solanaBlockStorage : SolanaBlockStorage σ
  ethereumBlockStorage : EthereumBlockStorage σ
  blockProducer : Option (BlockProducer σ)
  maxSlotHistory : Option Slot

namespace RollupIndexer

variable {σ : Type}

/-! ## Parsing a batch -/

/-- The loop of `parse_blocks_batch`. -/
def parseSlots (I : RollupIndexer σ) :
    List Slot → BTreeMap Slot BlockParseResult → Eff σ (BTreeMap Slot BlockParseResult)
  | [], parseResults => pure parseResults
  | slotNumber :: slots, parseResults => do
      match ← I.parse slotNumber maxParseBehind with
      | some parseResult => I.parseSlots slots (parseResults.insert slotNumber parseResult)
      | none => I.parseSlots slots parseResults

def parseBlocksBatch (I : RollupIndexer σ) (fromSlot maxSlot batchSize : Slot) :
    Eff σ (Slot × BTreeMap Slot BlockParseResult) := do
  let toSlot := fromSlot + min (maxSlot - fromSlot) batchSize
  let parseResults ← I.parseSlots (List.range' fromSlot (toSlot - fromSlot)) ∅
  pure (toSlot, parseResults)

/-- Whatever fails here is logged and dropped. -/
def retainStorages (I : RollupIndexer σ) (beforeSlot : Slot) : Eff σ Unit := do
  match I.maxSlotHistory with
  | none => pure ()
  | some maxSlotHistory =>
      let keepSlots := max maxParseBehind maxSlotHistory
      if keepSlots < beforeSlot then
        let fromSlot := beforeSlot - keepSlots
        match ← (I.solanaBlockStorage.retainFromSlot fromSlot).attempt with
        | .error _ => pure ()
        | .ok () =>
            I.retainParsed fromSlot
            match ← (I.ethereumBlockStorage.retainFromSlot fromSlot).attempt with
            | .error _ => pure ()
            | .ok () => pure ()
      else pure ()

/-! ## Restoring blocks the producer has -/

/-- The loop of `get_block_params`, with the retries that remain. -/
def getBlockParamsLoop (producer : BlockProducer σ) (blockNumber : Nat) : Nat → Eff σ BlockParams
  | 0 => throw (.panic "attempt to subtract with overflow")
  | retriesRemaining + 1 => do
      match ← (producer.getBlockParams blockNumber).attempt with
      | .ok params => pure params
      | .error _ =>
          if 0 < retriesRemaining then getBlockParamsLoop producer blockNumber retriesRemaining
          else throw (.err (.custom
            ("Failed to load previously produced block " ++ toString blockNumber)))

def getBlockParams (I : RollupIndexer σ) (blockNumber retries : Nat) : Eff σ BlockParams :=
  match I.blockProducer with
  | none => throw (.err (.custom "BlockProducer is not set, can't get block params"))
  | some blockProducer => getBlockParamsLoop blockProducer blockNumber retries

/-- `join_all`: every call is made, and its error kept for later. -/
def joinAll {α β : Type} (f : α → Eff σ β) : List α → Eff σ (List (ProgramResult β))
  | [] => pure []
  | a :: l => do
      let result ← (f a).attempt
      let results ← joinAll f l
      pure (result :: results)

/-- The loop of `get_blocks_params`. -/
def collectParams :
    List (ProgramResult BlockParams) → BTreeMap Nat BlockParams →
      ProgramResult (BTreeMap Nat BlockParams)
  | [], results => .ok results
  | .ok params :: rest, results => collectParams rest (results.insert params.number params)
  | .error e :: _, _ => .error e

def getBlocksParams (I : RollupIndexer σ) (fromBlock toBlock retries : Nat) :
    Eff σ (BTreeMap Nat BlockParams) := do
  let results ← joinAll (fun blockNumber => I.getBlockParams blockNumber retries)
    (List.range' fromBlock (toBlock + 1 - fromBlock))
  Eff.ofResult (collectParams results ∅)

/-- The loop of `restore_blocks`: the pending blocks in order, each with the first
of the parameters that are left. -/
def alignBlocks :
    List EthBlockId → List (Nat × BlockParams) → Option H256 → ProducedBlocks →
      ProgramResult ProducedBlocks
  | [], _, _, producedBlocks => .ok producedBlocks
  | _ :: _, [], _, producedBlocks => .ok producedBlocks
  | (slotNumber, blockIdx) :: keys, (_, blockParams) :: blocksParams, parentHash, producedBlocks =>
      if parentHash ≠ blockParams.parentHash then
        .error (.custom ("Ethereum block " ++ blockParams.debug
          ++ " expected to have different parent_hash " ++ H256.debugOption parentHash))
      else
        alignBlocks keys blocksParams (some blockParams.hash)
          (producedBlocks.insert slotNumber blockIdx blockParams)

def restoreBlocks (I : RollupIndexer σ) (fromBlock toBlock : Nat) (producerParams : ProducerParams)
    (retries : Nat) : Eff σ Unit := do
  let blocksParams ← I.getBlocksParams fromBlock toBlock retries
  let producedBlocks ← Eff.ofResult (alignBlocks producerParams.pendingBlocks.keys
    blocksParams.toList producerParams.parentHash ∅)
  I.ethereumBlockStorage.blocksProduced producerParams producedBlocks

/-! ## Producing blocks -/

/-- The loop of `restore_or_produce_blocks`. A producer that produces pending
blocks only takes one away in each round but the last. -/
def produceLoop (I : RollupIndexer σ) (blockProducer : BlockProducer σ) (batchSize : Nat) :
    Nat → ProducerParams → Eff σ Unit
  | 0, _ => throw (.panic "unreachable")
  | rounds + 1, producerParams => do
      let productionResult ← blockProducer.produceBlocks producerParams (some batchSize)
      match productionResult.producedBlocks.lastKeyValue with
      | none => pure ()
      | some (lastSlotNumber, lastBlockIdx, lastBlockParams) =>
          I.ethereumBlockStorage.blocksProduced producerParams productionResult.producedBlocks
          I.produceLoop blockProducer batchSize rounds { producerParams with
            parentHash := some lastBlockParams.hash
            pendingBlocks := producerParams.pendingBlocks.retainAfter lastSlotNumber lastBlockIdx }

def restoreOrProduceBlocks (I : RollupIndexer σ) (batchSize : Nat) : Eff σ Unit := do
  match I.blockProducer with
  | none => pure ()
  | some blockProducer =>
      match ← I.ethereumBlockStorage.getPendingBlocks with
      | none => pure ()
      | some producerParams =>
          let latestBlock ← I.ethereumBlockStorage.latestBlock
          let lastBlockInStorage := latestBlock.getD 0
          let lastBlockInProducer ← blockProducer.lastProducedBlock
          if lastBlockInStorage + 1 < lastBlockInProducer then
            I.restoreBlocks (lastBlockInStorage + 1) lastBlockInProducer producerParams numRetries
          else
            I.produceLoop blockProducer batchSize (producerParams.pendingBlocks.keys.length + 1)
              producerParams

/-! ## Reproducing blocks the producer has lost -/

/-- The loop of `reproduce_blocks` over the expected results. -/
def checkResults (producedBlocks : ProducedBlocks) :
    List (Slot × Nat × BlockParams) → ProgramResult Unit
  | [] => .ok ()
  | (slotNumber, blockIdx, expectedParams) :: expected =>
      match producedBlocks.get slotNumber blockIdx with
      | some newBlockParams =>
          if expectedParams ≠ newBlockParams then
            .error (.custom ("Block reproduction failed at (" ++ toString slotNumber ++ ", "
              ++ toString blockIdx ++ "):\n Expected\n " ++ expectedParams.debug ++ " received "
              ++ newBlockParams.debug))
          else checkResults producedBlocks expected
      | none =>
          .error (.custom ("reproduce_blocks: Block (" ++ toString slotNumber ++ ", "
            ++ toString blockIdx ++ ") was not reproduced"))

def reproduceBlocks (I : RollupIndexer σ) (fromSlot maxSlot batchSize : Slot) : Eff σ Slot := do
  match I.blockProducer with
  | none => pure fromSlot
  | some blockProducer =>
      let toSlot := fromSlot + min (maxSlot - fromSlot) batchSize
      match ← I.ethereumBlockStorage.reproduceBlocks fromSlot toSlot with
      | none => pure toSlot
      | some reproduceParams =>
          let productionResult ←
            blockProducer.produceBlocks reproduceParams.producerParams (some batchSize)
          Eff.ofResult (checkResults productionResult.producedBlocks
            reproduceParams.expectedResults.iter)
          pure toSlot

/-- The inner loop of `reproduce_blocks_until_in_sync`. A batch takes at least one
slot, so as many rounds as there are slots are enough. -/
def reproduceLoop (I : RollupIndexer σ) (toSlot batchSize : Slot) : Nat → Slot → Eff σ Unit
  | rounds, currentSlot =>
      if currentSlot < toSlot then
        match rounds with
        | 0 => throw (.panic "unreachable")
        | rounds + 1 => do
            let newCurrentSlot ← I.reproduceBlocks currentSlot toSlot batchSize
            I.reproduceLoop toSlot batchSize rounds newCurrentSlot
      else pure ()

/-- The outer loop, with the turns it may take. It takes one for each error of the
storage and two more. -/
def reproduceTurns (I : RollupIndexer σ) (batchSize : Slot) : Nat → Slot → Eff σ Slot
  | 0, _ => throw (.panic "still waiting")
  | turns + 1, fromSlot => do
      match ← I.ethereumBlockStorage.getMaxSlotProduced.attempt with
      | .ok (some maxSlot) =>
          if fromSlot < maxSlot + 1 then
            I.reproduceLoop (maxSlot + 1) batchSize (maxSlot + 1 - fromSlot) fromSlot
            I.reproduceTurns batchSize turns (maxSlot + 1)
          else pure fromSlot
      | .ok none => pure fromSlot
      | .error _ => I.reproduceTurns batchSize turns fromSlot

def reproduceBlocksUntilInSync (I : RollupIndexer σ) (lastKnownBlock : Nat) (batchSize : Slot)
    (turns : Nat) : Eff σ Slot := do
  match ← I.ethereumBlockStorage.getSlotForEthBlock (lastKnownBlock + 1) with
  | none => throw (.err (.custom ("Unable to find Solana slot for EthereumBlock "
      ++ toString (lastKnownBlock + 1))))
  | some fromSlot => I.reproduceTurns batchSize turns fromSlot

/-! ## Where to start -/

def preRun (I : RollupIndexer σ) (startSlot : Option Slot) (turns : Nat) : Eff σ Slot := do
  match I.blockProducer with
  | none => pure (startSlot.getD 0)
  | some blockProducer =>
      let lastBlockInProducer ← blockProducer.lastProducedBlock
      match ← I.ethereumBlockStorage.latestBlock with
      | some lastBlockInStorage =>
          if lastBlockInProducer < lastBlockInStorage then
            I.reproduceBlocksUntilInSync lastBlockInProducer defaultBatchSize turns
          else
            match ← I.ethereumBlockStorage.getSlotForEthBlock lastBlockInStorage with
            | some result => pure result
            | none => throw (.err (.custom
                ("Slot not found for EthBlock " ++ toString lastBlockInStorage)))
      | none =>
          match ← I.ethereumBlockStorage.getSlotForEthBlock lastBlockInProducer with
          | some lastSlotInProducer => pure lastSlotInProducer
          | none =>
              match startSlot with
              | some slot => pure slot
              | none => throw (.err (.custom ("start_slot is not set and there's no produced "
                  ++ "blocks in BlockProducer")))

/-! ## The walk over the slots -/

/-- The body of the inner loop of `restore_or_produce_until_in_sync`: one batch. -/
def syncRound (I : RollupIndexer σ) (toSlot batchSize currentSlot : Slot) : Eff σ Slot := do
  let (newCurrentSlot, parseResults) ← I.parseBlocksBatch currentSlot toSlot batchSize
  I.ethereumBlockStorage.registerParseResults parseResults
  I.restoreOrProduceBlocks batchSize
  I.retainStorages currentSlot
  pure newCurrentSlot

/-- The inner loop of `restore_or_produce_until_in_sync`. A batch takes at least
one slot, so as many rounds as there are slots are enough. -/
def syncLoop (I : RollupIndexer σ) (toSlot batchSize : Slot) : Nat → Slot → Eff σ Unit
  | rounds, currentSlot =>
      if currentSlot < toSlot then
        match rounds with
        | 0 => throw (.panic "unreachable")
        | rounds + 1 => do
            let newCurrentSlot ← I.syncRound toSlot batchSize currentSlot
            I.syncLoop toSlot batchSize rounds newCurrentSlot
      else pure ()

def restoreOrProduceUntilInSync (I : RollupIndexer σ) (fromSlot batchSize : Slot) : Eff σ Slot := do
  match ← I.solanaBlockStorage.getLastSlot.attempt with
  | .ok (some toSlot) =>
      if fromSlot < toSlot then
        I.syncLoop toSlot batchSize (toSlot - fromSlot) fromSlot
        pure toSlot
      else pure fromSlot
  | .ok none => pure fromSlot
  | .error _ => pure fromSlot

/-! ### What the calls leave alone -/

section

variable {γ : Type} {f : σ → γ}

theorem preserves_attempt {α : Type} {x : Eff σ α} (hx : EStateM.Preserves f x) :
    EStateM.Preserves f x.attempt := by
  intro s
  have hs := hx s
  simp only [EStateM.after, Eff.attempt] at hs ⊢
  cases hrun : x s with
  | ok a t => simpa [hrun] using hs
  | error e t => cases e <;> simpa [hrun] using hs

theorem preserves_ofResult {α : Type} (r : ProgramResult α) :
    EStateM.Preserves f (Eff.ofResult r : Eff σ α) := by
  cases r with
  | ok a => exact .pure a
  | error e => exact .throw _

theorem preserves_joinAll {α β : Type} {g : α → Eff σ β} (hg : ∀ a, EStateM.Preserves f (g a)) :
    ∀ l : List α, EStateM.Preserves f (joinAll g l) := by
  intro l
  induction l with
  | nil => exact .pure _
  | cons a l ih =>
      refine .bind (preserves_attempt (hg a)) fun result => ?_
      exact .bind ih fun results => .pure _

theorem preserves_getBlockParamsLoop {producer : BlockProducer σ} {blockNumber : Nat}
    (hget : EStateM.Preserves f (producer.getBlockParams blockNumber)) :
    ∀ retries, EStateM.Preserves f (getBlockParamsLoop producer blockNumber retries) := by
  intro retries
  induction retries with
  | zero => exact .throw _
  | succ retries ih =>
      refine .bind (preserves_attempt hget) fun result => ?_
      cases result with
      | ok params => exact .pure _
      | error e =>
          change EStateM.Preserves f (if 0 < retries then _ else _)
          split
          · exact ih
          · exact .throw _

theorem preserves_getBlocksParams {I : RollupIndexer σ} {producer : BlockProducer σ}
    (hproducer : I.blockProducer = some producer)
    (hget : ∀ blockNumber, EStateM.Preserves f (producer.getBlockParams blockNumber))
    (fromBlock toBlock retries : Nat) :
    EStateM.Preserves f (I.getBlocksParams fromBlock toBlock retries) := by
  refine .bind (preserves_joinAll (fun blockNumber => ?_) _) fun results => preserves_ofResult _
  rw [getBlockParams, hproducer]
  exact preserves_getBlockParamsLoop (hget blockNumber) retries

end

/-! ### The walk ends -/

theorem parseBlocksBatch_slot {I : RollupIndexer σ} {fromSlot maxSlot batchSize : Slot} {s t : σ}
    {r : Slot × BTreeMap Slot BlockParseResult}
    (h : I.parseBlocksBatch fromSlot maxSlot batchSize s = .ok r t) :
    r.1 = fromSlot + min (maxSlot - fromSlot) batchSize := by
  obtain ⟨results, u, _, hdone⟩ := EStateM.bind_ok h
  cases hdone
  rfl

theorem syncRound_slot {I : RollupIndexer σ} {toSlot batchSize currentSlot slot : Slot} {s t : σ}
    (h : I.syncRound toSlot batchSize currentSlot s = .ok slot t) :
    slot = currentSlot + min (toSlot - currentSlot) batchSize := by
  obtain ⟨r, u₁, hparse, h⟩ := EStateM.bind_ok h
  obtain ⟨_, u₂, _, h⟩ := EStateM.bind_ok h
  obtain ⟨_, u₃, _, h⟩ := EStateM.bind_ok h
  obtain ⟨_, u₄, _, h⟩ := EStateM.bind_ok h
  cases h
  exact parseBlocksBatch_slot hparse

/-- The loop goes over the pieces the interval is cut into, whatever number of rounds covers
the slots to come: it ends by itself. -/
theorem syncLoop_eq_forM (I : RollupIndexer σ) {toSlot batchSize : Slot} (hbatch : 0 < batchSize)
    (rounds : Nat) {currentSlot : Slot} (hle : toSlot - currentSlot ≤ rounds) :
    I.syncLoop toSlot batchSize rounds currentSlot
      = (pieces batchSize currentSlot toSlot).forM fun batch =>
          discard (I.syncRound toSlot batchSize batch.1) := by
  refine loop_eq_forM (I.syncLoop toSlot batchSize) (I.syncRound toSlot batchSize) hbatch ?_ ?_ ?_
    rounds hle
  · intro rounds currentSlot hend
    unfold syncLoop
    rw [if_neg hend]
  · intro rounds currentSlot hlt
    unfold syncLoop
    rw [if_pos hlt]
  · intro currentSlot _
    exact EStateM.eq_discard fun s slot t h => syncRound_slot h

inductive TryRecvError where
  | empty
  | disconnected
  deriving DecidableEq, Repr

/-- The body of the loop in `run`, on what the channel of reorg events answered:
the slot to go on from, if the loop goes on. -/
def runRound (I : RollupIndexer σ) (fromSlot batchSize : Slot) :
    Except TryRecvError Slot → Eff σ (Option Slot)
  | .ok reorgSlot => do
      I.ethereumBlockStorage.cleanFromSlot reorgSlot
      pure (some reorgSlot)
  | .error .empty => do
      let toSlot ← I.restoreOrProduceUntilInSync fromSlot batchSize
      pure (some toSlot)
  | .error .disconnected => pure none

end RollupIndexer

end RomeSdk
