import RomeSdk.PgStorage.SolanaBlockStorage
import RomeSdk.Lib.Machine

/-!
# Runs of the block loader

The loader makes one turn of `preload_blocks_until_in_sync` after the other. In
each turn the node reports a confirmed and a finalized slot; neither ever goes
back. A transaction of the database may fail, and the process may end at any
transaction or any query of a recheck. After an error the loader goes on from
the slot its last call of `preload_blocks_until_in_sync` began with; a process
that ended is started again after any time, and begins with the last stored slot.

Beside the database the world holds what the node reports and, for statements
about the rechecks, the slots whose rechecks have asked it for a header. Which
slots have been stored as confirmed is kept with the state of the run.
-/

namespace RomeSdk

/-- What is beside the database. -/
structure NodeWorld where
  confirmedSlot : Slot
  finalizedSlot : Slot
  /-- The header queries the process still survives, if it does not survive all. -/
  stopAt : Option Nat
  rechecked : List Slot
  deriving DecidableEq

/-- A header query for a slot, if the process survives it. -/
def NodeWorld.ask (node : NodeWorld) (slot : Slot) : Option NodeWorld :=
  match node.stopAt with
  | none => some { node with rechecked := node.rechecked ++ [slot] }
  | some 0 => none
  | some (n + 1) => some { node with stopAt := some n, rechecked := node.rechecked ++ [slot] }

abbrev LoaderWorld := Server UiConfirmedBlock × NodeWorld

structure LoaderState where
  world : LoaderWorld
  /-- Where the running call of `preload_blocks_until_in_sync` began. -/
  callFrom : Slot
  fromSlot : Slot
  running : Bool
  /-- The finalized slot of a turn that has just ended well. -/
  completed : Option Slot
  seenConfirmed : List Slot

namespace LoaderState

abbrev db (s : LoaderState) : Db UiConfirmedBlock := s.world.1.db

end LoaderState

/-- The slots that are stored as confirmed. -/
def confirmedSlots (db : Db UiConfirmedBlock) : List Slot :=
  db.solSlot.entries.filterMap fun e => if e.2.status = .confirmed then some e.1 else none

namespace SolanaBlockLoader

/-- What the surroundings do to a turn. -/
structure Surroundings where
  confirmedSlot : Slot
  finalizedSlot : Slot
  faults : List (Option Failure)
  stopAt : Option Nat

def enter (s : LoaderState) (e : Surroundings) : LoaderWorld :=
  let node : NodeWorld := ⟨e.confirmedSlot, e.finalizedSlot, e.stopAt, s.world.2.rechecked⟩
  (⟨s.db, e.faults⟩, node)

/-- The state after a turn that came to the world `w`. -/
def leave (s : LoaderState) (w : LoaderWorld) : LoaderState :=
  { s with
    world := w
    completed := none
    seenConfirmed := s.seenConfirmed ++ confirmedSlots w.1.db }

def afterTurn (X : Crates) (L : SolanaBlockLoader LoaderWorld)
    (reorgEventTx : ReorgSender LoaderWorld) (s : LoaderState) (e : Surroundings) : LoaderState :=
  match L.syncTurn X s.fromSlot reorgEventTx (enter s e) with
  | .ok (.goOn fromSlot) w =>
      { leave s w with fromSlot := fromSlot, completed := some e.finalizedSlot }
  | .ok (.inSync fromSlot) w =>
      { leave s w with
        fromSlot := fromSlot
        callFrom := fromSlot
        completed := some e.finalizedSlot }
  | .error (.err _) w => { leave s w with fromSlot := s.callFrom }
  | .error (.panic _) w => { leave s w with running := false }

def afterStart (L : SolanaBlockLoader LoaderWorld) (startSlot : Option Slot)
    (faults : List (Option Failure)) (s : LoaderState) : LoaderState :=
  match L.startFrom startSlot (⟨s.db, faults⟩, s.world.2) with
  | .ok fromSlot w =>
      { leave s w with fromSlot := fromSlot, callFrom := fromSlot, running := true }
  | .error _ w => { leave s w with running := false }

inductive LoaderAction where
  | turn (surroundings : Surroundings)
  /-- The loader is started, whatever it was doing. -/
  | start (faults : List (Option Failure))

def loaderStep (X : Crates) (L : SolanaBlockLoader LoaderWorld)
    (reorgEventTx : ReorgSender LoaderWorld) (startSlot : Option Slot) (s : LoaderState) :
    LoaderAction → LoaderState → Prop
  | .turn e, t =>
      s.running = true ∧ e.finalizedSlot ≤ e.confirmedSlot ∧
        s.world.2.confirmedSlot ≤ e.confirmedSlot ∧ s.world.2.finalizedSlot ≤ e.finalizedSlot ∧
        t = L.afterTurn X reorgEventTx s e
  | .start faults, t => t = L.afterStart startSlot faults s

def initialLoader : LoaderState :=
  ⟨(⟨Db.empty, []⟩, ⟨0, 0, none, []⟩), 0, 0, false, none, []⟩

/-- The loader over an empty database, before it is started for the first time. -/
def loaderMachine (X : Crates) (L : SolanaBlockLoader LoaderWorld)
    (reorgEventTx : ReorgSender LoaderWorld) (startSlot : Option Slot) :
    Machine LoaderState LoaderAction where
  init s := s = initialLoader
  step := L.loaderStep X reorgEventTx startSlot

end SolanaBlockLoader

end RomeSdk
