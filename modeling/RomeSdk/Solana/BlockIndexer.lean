import RomeSdk.Lib.Machine
import RomeSdk.Parsers.BlockParser
import RomeSdk.Utils.Runner

/-!
# The indexer of Solana blocks

`indexers/blocks.rs` of `rome-solana`. `index_slots` asks the node for the slots with a
block, from a slot on, and sends them; `index_blocks` receives slots and has for each of
them a task that asks for the block and sends it. Both go through the service runner,
which starts them again when they have come to an end.

Each is a machine here, whose steps are what happens between two awaits. The receiving
ends of the two channels stay open.
-/

namespace RomeSdk

structure SolanaBlockIndexer where
  serviceRunner : ServiceRunner
  getBlockConcurrency : Nat
  deriving DecidableEq, Repr

namespace SolanaBlockIndexer

/-! ## `index_blocks` -/

/-- A request of `getBlock`: how long the attempt takes it is made in, and its answer. -/
structure Request where
  elapsed : Nat
  answer : Except String UiConfirmedBlock

/-- The requests for each slot received, by its place in the channel, in order. -/
abbrev Requests := Nat → Nat → Request

/-- The task of a slot. Without counters its runner has given up. -/
structure SlotTask where
  slot : Slot
  retries : Option Retries
  deriving DecidableEq, Repr

structure BlocksState where
  /-- What is in `slot_rx`. -/
  slotRx : List Slot
  /-- The tasks in the order they were spawned in. -/
  tasks : List SlotTask
  /-- What was sent to `block_tx`, each block with the slot it was asked for. -/
  sent : List (Slot × UiConfirmedBlock)

inductive BlocksAction where
  /-- A slot is received and its task spawned. -/
  | receive
  /-- The request of the `i`-th task comes to its end. -/
  | request (i : Nat)
  deriving DecidableEq, Repr

/-- The tasks that have a permit: it is dropped when the runner has given up. -/
def permits (tasks : List SlotTask) : Nat := tasks.countP fun task => task.retries.isSome

/-- `block_tx.send(block)`, if there is one. -/
def delivered (slot : Slot) : Except String UiConfirmedBlock → List (Slot × UiConfirmedBlock)
  | .ok block => [(slot, block)]
  | .error _ => []

def blocksNext (I : SolanaBlockIndexer) (requests : Requests) (s : BlocksState) :
    BlocksAction → Option BlocksState
  | .receive =>
      match s.slotRx with
      | [] => none
      | slot :: slotRx =>
          if permits s.tasks < I.getBlockConcurrency then
            some { s with slotRx := slotRx, tasks := s.tasks ++ [⟨slot, some .start⟩] }
          else none
  | .request i =>
      match s.tasks[i]? with
      | some ⟨slot, some c⟩ =>
          let request := requests i c.retries
          some { s with
            tasks := s.tasks.set i ⟨slot, I.serviceRunner.exited c request.elapsed⟩
            sent := s.sent ++ delivered slot request.answer }
      | _ => none

def blocksMachine (I : SolanaBlockIndexer) (requests : Requests) (slots : List Slot) :
    Machine BlocksState BlocksAction where
  init s := s = ⟨slots, [], []⟩
  step s a t := I.blocksNext requests s a = some t

/-! ## `index_slots` -/

structure SlotsState where
  /-- The slots with a block the node knows of, ascending. -/
  chain : List Slot
  /-- The variable of the attempt that runs, once it has a start. -/
  slot : Option Slot
  /-- The counters of the runner; without them it has given up. -/
  retries : Option Retries
  /-- The starts of all attempts so far, for what is said about them. -/
  starts : List Slot
  /-- What was sent to `slot_tx`. -/
  sent : List Slot
  deriving DecidableEq, Repr

inductive SlotsAction where
  /-- The chain grows at its end. -/
  | grow (slots : List Slot)
  /-- An attempt gets its start, which is the answer of `get_slot` where none is given. -/
  | start (answer : Slot)
  /-- `get_blocks` is answered and the slots are sent. -/
  | getBlocks
  /-- A request fails, and with it the attempt, after it has run for this time. -/
  | fail (elapsed : Nat)
  deriving DecidableEq, Repr

/-- The answer of `get_blocks(slot, None)`. -/
def getBlocks (chain : List Slot) (slot : Slot) : List Slot := chain.filter fun b => slot ≤ b

/-- The variable after an answer. -/
def nextSlot (slot : Slot) (blocks : List Slot) : Slot :=
  match blocks.getLast? with
  | some last => last + 1
  | none => slot

def slotsNext (I : SolanaBlockIndexer) (startSlot : Option Slot) (s : SlotsState) :
    SlotsAction → Option SlotsState
  | .grow slots =>
      if (s.chain ++ slots).Pairwise (· < ·) then some { s with chain := s.chain ++ slots }
      else none
  | .start answer =>
      match s.retries, s.slot with
      | some _, none =>
          let start := startSlot.getD answer
          some { s with slot := some start, starts := s.starts ++ [start] }
      | _, _ => none
  | .getBlocks =>
      match s.slot with
      | some slot =>
          let blocks := getBlocks s.chain slot
          some { s with slot := some (nextSlot slot blocks), sent := s.sent ++ blocks }
      | none => none
  | .fail elapsed =>
      match s.retries with
      | some c =>
          -- a start that is given needs no request
          if s.slot = none ∧ startSlot ≠ none then none
          else some { s with slot := none, retries := I.serviceRunner.exited c elapsed }
      | none => none

def slotsMachine (I : SolanaBlockIndexer) (startSlot : Option Slot) :
    Machine SlotsState SlotsAction where
  init s := s.chain.Pairwise (· < ·) ∧ s.slot = none ∧ s.retries = some .start ∧
    s.starts = [] ∧ s.sent = []
  step s a t := I.slotsNext startSlot s a = some t

end SolanaBlockIndexer

end RomeSdk
