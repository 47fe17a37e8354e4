import RomeSdk.Indexer.RollupIndexer
import RomeSdk.Lib.Machine

/-!
# Runs of the rollup indexer

The indexer and the block loader advance on their own. In between two rounds of
the indexer's loop the loader may store blocks and may send any number of reorg
events, each for a slot that is stored; the channel keeps them in the order they
were sent. An indexer whose loop was left, by an error, a panic or a closed
channel, makes no further round.

So that a statement can speak of what was done before and after what, the run
keeps a record of the calls that parse a slot, register results and clean the
storage. Nothing reads it.
-/

namespace RomeSdk

/-- A call that was answered. -/
inductive Call where
  | parsed (slotNumber : Slot) (parseResult : Option BlockParseResult)
  | registered (parseResults : BTreeMap Slot BlockParseResult)
  | cleaned (fromSlot : Slot)

variable {σ : Type}

namespace RollupIndexer

def recordingEth (E : EthereumBlockStorage σ) : EthereumBlockStorage (σ × List Call) where
  getPendingBlocks := E.getPendingBlocks.unrecorded
  reproduceBlocks fromSlot toSlot := (E.reproduceBlocks fromSlot toSlot).unrecorded
  registerParseResults results :=
    (E.registerParseResults results).recorded fun _ => some (.registered results)
  latestBlock := E.latestBlock.unrecorded
  blocksProduced params blocks := (E.blocksProduced params blocks).unrecorded
  getMaxSlotProduced := E.getMaxSlotProduced.unrecorded
  retainFromSlot fromSlot := (E.retainFromSlot fromSlot).unrecorded
  getSlotForEthBlock number := (E.getSlotForEthBlock number).unrecorded
  cleanFromSlot fromSlot := (E.cleanFromSlot fromSlot).recorded fun _ => some (.cleaned fromSlot)

def recordingProducer (P : BlockProducer σ) : BlockProducer (σ × List Call) where
  lastProducedBlock := P.lastProducedBlock.unrecorded
  getBlockParams number := (P.getBlockParams number).unrecorded
  produceBlocks params limit := (P.produceBlocks params limit).unrecorded

/-- The same indexer, with a record of its calls. -/
def recording (I : RollupIndexer σ) : RollupIndexer (σ × List Call) where
  parse slot maxBlocks := (I.parse slot maxBlocks).recorded fun r => some (.parsed slot r)
  retainParsed fromSlot := (I.retainParsed fromSlot).unrecorded
  solanaBlockStorage := {
    getLastSlot := I.solanaBlockStorage.getLastSlot.unrecorded
    retainFromSlot := fun fromSlot => (I.solanaBlockStorage.retainFromSlot fromSlot).unrecorded
    stored := fun st => I.solanaBlockStorage.stored st.1 }
  ethereumBlockStorage := recordingEth I.ethereumBlockStorage
  blockProducer := I.blockProducer.map recordingProducer
  maxSlotHistory := I.maxSlotHistory

end RollupIndexer

structure RunState (σ : Type) where
  world : σ
  calls : List Call
  fromSlot : Slot
  /-- The reorg events in the channel, the oldest first. -/
  reorgEvents : List Slot
  /-- The loader holds the sending end of the channel. -/
  senderAlive : Bool
  running : Bool

/-- What `try_recv` answers. -/
def RunState.tryRecv (s : RunState σ) : Except RollupIndexer.TryRecvError Slot :=
  match s.reorgEvents with
  | reorgSlot :: _ => .ok reorgSlot
  | [] => .error (if s.senderAlive then .empty else .disconnected)

namespace RollupIndexer

/-- One round of the loop in `run`. -/
def afterRound (I : RollupIndexer σ) (s : RunState σ) : RunState σ :=
  let rest := s.reorgEvents.tail
  match I.recording.runRound s.fromSlot defaultBatchSize s.tryRecv (s.world, s.calls) with
  | .ok (some fromSlot) (world, calls) =>
      { s with world := world, calls := calls, fromSlot := fromSlot, reorgEvents := rest }
  | .ok none (world, calls) =>
      { s with world := world, calls := calls, reorgEvents := rest, running := false }
  | .error _ (world, calls) =>
      { s with world := world, calls := calls, reorgEvents := rest, running := false }

section

variable {I : RollupIndexer σ} {s : RunState σ} {world : σ} {calls : List Call}

theorem afterRound_goesOn {slot : Slot}
    (h : I.recording.runRound s.fromSlot defaultBatchSize s.tryRecv (s.world, s.calls)
      = .ok (some slot) (world, calls)) :
    I.afterRound s = { s with
      world := world, calls := calls, fromSlot := slot, reorgEvents := s.reorgEvents.tail } := by
  rw [afterRound, h]

theorem afterRound_ended
    (h : I.recording.runRound s.fromSlot defaultBatchSize s.tryRecv (s.world, s.calls)
      = .ok none (world, calls)) :
    I.afterRound s = { s with
      world := world, calls := calls, reorgEvents := s.reorgEvents.tail, running := false } := by
  rw [afterRound, h]

theorem afterRound_failed {e : Failure}
    (h : I.recording.runRound s.fromSlot defaultBatchSize s.tryRecv (s.world, s.calls)
      = .error e (world, calls)) :
    I.afterRound s = { s with
      world := world, calls := calls, reorgEvents := s.reorgEvents.tail, running := false } := by
  rw [afterRound, h]

end

inductive Action (σ : Type) where
  /-- The indexer makes a round. -/
  | round
  /-- The world changes, and no stored slot goes away. -/
  | load (world : σ)
  /-- The loader sends a reorg event. -/
  | reorg (slotNumber : Slot)
  /-- The loader ends. -/
  | hangUp

def step (I : RollupIndexer σ) (s : RunState σ) (a : Action σ) (t : RunState σ) : Prop :=
  match a with
  | .round => s.running = true ∧ t = I.afterRound s
  | .load world =>
      (∀ slot, I.solanaBlockStorage.stored s.world slot →
        I.solanaBlockStorage.stored world slot) ∧ t = { s with world := world }
  | .reorg slotNumber =>
      s.senderAlive = true ∧ I.solanaBlockStorage.stored s.world slotNumber ∧
        t = { s with reorgEvents := s.reorgEvents ++ [slotNumber] }
  | .hangUp => t = { s with senderAlive := false }

/-- The indexer started at a slot, in any world. -/
def machine (I : RollupIndexer σ) (startSlot : Slot) : Machine (RunState σ) (Action σ) where
  init s := s.calls = [] ∧ s.fromSlot = startSlot ∧ s.reorgEvents = [] ∧
    s.senderAlive = true ∧ s.running = true
  step := I.step

theorem run_round {I : RollupIndexer σ} {startSlot : Slot} {tr : List (RunState σ × Action σ)}
    {s : RunState σ} (hrun : Machine.Run (I.machine startSlot) tr s) (hgo : s.running = true) :
    Machine.Run (I.machine startSlot) (tr ++ [(s, .round)]) (I.afterRound s) :=
  .next hrun ⟨hgo, rfl⟩

theorem run_reorg {I : RollupIndexer σ} {startSlot : Slot} {tr : List (RunState σ × Action σ)}
    {s : RunState σ} (hrun : Machine.Run (I.machine startSlot) tr s) {slot : Slot}
    (hsender : s.senderAlive = true) (hstored : I.solanaBlockStorage.stored s.world slot) :
    Machine.Run (I.machine startSlot) (tr ++ [(s, .reorg slot)])
      { s with reorgEvents := s.reorgEvents ++ [slot] } :=
  .next hrun ⟨hsender, hstored, rfl⟩

end RollupIndexer

end RomeSdk
