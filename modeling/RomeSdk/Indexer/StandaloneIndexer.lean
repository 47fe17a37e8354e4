import RomeSdk.Indexer.Storage
import RomeSdk.Indexer.SolanaClient
import RomeSdk.Lib.Machine

/-!
# The recovery of a standalone indexer

`start_recovery` of `standalone_indexer.rs`. Two tasks run side by side: the
checker, which is the block loader's `start_checking`, sends reorg events, and the
reorg processor cleans the eth blocks from the slot of each event on. A third
task waits for the first of the two to end and answers with its result. The
other one is left to itself then; it is not stopped.

The checker drops the sending end of the channel when it ends, and the processor
the receiving end. Of the checker only the events it sends and its result are
seen here; what it writes is a change of the world between two steps.
-/

namespace RomeSdk

/-- Where the reorg processor is. -/
inductive ReorgProcessor where
  | receiving
  /-- `clean_from_slot` was called and has not answered yet. -/
  | cleaning (updatedSlot : Slot)
  | ended (result : Outcome Unit)
  deriving DecidableEq

/-- The result of a task that panicked is the panic; whoever waits for it gets a
`JoinError`, which is an error as well. -/
structure RecoveryState (σ : Type) where
  world : σ
  /-- The events the checker has sent so far. -/
  sent : List Slot
  /-- The events in the channel, the oldest first. -/
  queue : List Slot
  /-- The events that nobody is going to receive. -/
  dropped : List Slot
  /-- The slots `clean_from_slot` was called for. -/
  called : List Slot
  checker : Option (Outcome Unit)
  processor : ReorgProcessor
  joined : Option (Outcome Unit)

namespace StandaloneIndexer

variable {σ : Type}

/-- The body of the loop of the reorg processor. -/
def cleanEvent (S : EthereumBlockStorage σ) (updatedSlot : Slot) : Eff σ Unit := do
  match ← (S.cleanFromSlot updatedSlot).attempt with
  | .error err => throw (.err (.custom ("clean_from_slot error: " ++ err.debug)))
  | .ok () => pure ()

/-- A send fails without a receiver; the checker does not mind. -/
def afterSend (s : RecoveryState σ) (slot : Slot) : RecoveryState σ :=
  match s.processor with
  | .ended _ => { s with sent := s.sent ++ [slot], dropped := s.dropped ++ [slot] }
  | _ => { s with sent := s.sent ++ [slot], queue := s.queue ++ [slot] }

def afterClean (S : EthereumBlockStorage σ) (s : RecoveryState σ) (updatedSlot : Slot) :
    RecoveryState σ :=
  match cleanEvent S updatedSlot s.world with
  | .ok () w => { s with world := w, processor := .receiving }
  | .error e w =>
      { s with
        world := w
        processor := .ended (.error e)
        dropped := s.dropped ++ s.queue
        queue := [] }

inductive RecoveryAction (σ : Type) where
  | send (slot : Slot)
  | checkerEnds (result : Outcome Unit)
  /-- The processor takes the oldest event and calls `clean_from_slot`. -/
  | receive
  /-- The call answers. -/
  | cleaned
  /-- The channel is closed and empty. -/
  | channelClosed
  /-- `select!` takes the checker's result. -/
  | takeChecker
  /-- `select!` takes the processor's result. -/
  | takeProcessor
  /-- Somebody else changes the world. -/
  | change (world : σ)

def recoveryStep (S : EthereumBlockStorage σ) (s : RecoveryState σ) :
    RecoveryAction σ → RecoveryState σ → Prop
  | .send slot, t => s.checker = none ∧ t = afterSend s slot
  | .checkerEnds result, t => s.checker = none ∧ t = { s with checker := some result }
  | .receive, t =>
      s.processor = .receiving ∧ ∃ updatedSlot rest, s.queue = updatedSlot :: rest ∧
        t = { s with
          queue := rest
          called := s.called ++ [updatedSlot]
          processor := .cleaning updatedSlot }
  | .cleaned, t =>
      ∃ updatedSlot, s.processor = .cleaning updatedSlot ∧ t = afterClean S s updatedSlot
  | .channelClosed, t =>
      s.processor = .receiving ∧ s.queue = [] ∧ s.checker.isSome ∧
        t = { s with processor := .ended (.ok ()) }
  | .takeChecker, t =>
      s.joined = none ∧ ∃ result, s.checker = some result ∧ t = { s with joined := some result }
  | .takeProcessor, t =>
      s.joined = none ∧ ∃ result, s.processor = .ended result ∧
        t = { s with joined := some result }
  | .change world, t => t = { s with world := world }

/-- The three tasks, when they have just been spawned. -/
def recoveryMachine (S : EthereumBlockStorage σ) :
    Machine (RecoveryState σ) (RecoveryAction σ) where
  init s := ∃ world, s = ⟨world, [], [], [], [], none, .receiving, none⟩
  step := recoveryStep S

end StandaloneIndexer

end RomeSdk
