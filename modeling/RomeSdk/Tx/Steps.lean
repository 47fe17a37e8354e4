import RomeSdk.Lib.Answers
import RomeSdk.Tx.TransmitTx

/-!
# The steps of a transaction

`batch/step_ix.rs` of rome-solana: a transaction is a machine that hands out one
step after another, each with the batches of instructions that are to be sent. The
steps of `TransmitTx` send its chunks, as many in one step as a holder may grow by.

An `advance` that calls itself after a change of the step is written as the arm it
comes to.
-/

namespace RomeSdk

structure AddressLookupTableAccount where
  key : Pubkey
  addresses : List Pubkey
  deriving DecidableEq, Repr

inductive TxVersion where
  | legacy
  | v0 (tables : List AddressLookupTableAccount)
  deriving DecidableEq, Repr

/-- The instructions of one Solana transaction. -/
abbrev AtomicIxBatch := List Instruction

inductive IxExecStepBatch where
  | single (batch : AtomicIxBatch) (version : TxVersion)
  /-- a signer is known by its key -/
  | singleWithSigners (batch : AtomicIxBatch) (signers : List Pubkey)
  | parallel (batches : List AtomicIxBatch) (version : TxVersion)
  | parallelUnchecked (batches : List AtomicIxBatch) (version : TxVersion)
  | confirmationIterativeTx (confirm : Bool)
  | waitNextSlot (slot : Slot)
  | end_
  deriving DecidableEq, Repr

/-- The trait: a machine with states `τ` that hands out its steps. -/
structure AdvanceTx (τ : Type) where
  advance : EStateM Failure τ IxExecStepBatch
  advanceWithVersion : TxVersion → EStateM Failure τ IxExecStepBatch

/-- The two instructions that `ComputeBudgetInstruction` builds. -/
structure ComputeBudget where
  setComputeUnitLimit : Nat → Instruction
  requestHeapFrame : Nat → Instruction

/-- `OwnedAtomicIxBatch::new_composible_owned` -/
def ComputeBudget.newComposibleOwned (B : ComputeBudget) (ix : Instruction) : AtomicIxBatch :=
  [B.setComputeUnitLimit 1400000, B.requestHeapFrame (256 * 1024), ix]

/-! ## Transmitting, step by step -/

/-- `solana_program::entrypoint::MAX_PERMITTED_DATA_INCREASE` -/
def MAX_PERMITTED_DATA_INCREASE : Nat := 10240

namespace TransmitTx

inductive Steps where
  | init
  /-- the batches to send, the next one last -/
  | execute (batches : List (List AtomicIxBatch))
  | complete

/-- Instructions in one step. -/
def limit : Nat := MAX_PERMITTED_DATA_INCREASE / TRANSMIT_TX_SIZE

def batches (X : Crates) (t : TransmitTx) : Outcome (List (List AtomicIxBatch)) := do
  let ixs ← t.ixs X
  intoChunks ixs limit

end TransmitTx

structure SteppedTransmitTx extends TransmitTx where
  step : TransmitTx.Steps

namespace SteppedTransmitTx

/-- The arm of `Steps::Execute`, with that of `Steps::Complete` behind it. -/
def advanceExecute (batches : List (List AtomicIxBatch)) :
    EStateM Failure SteppedTransmitTx IxExecStepBatch :=
  match batches.getLast? with
  | some batch => do
      modify fun t => { t with step := .execute batches.dropLast }
      pure (.parallel batch .legacy)
  | none => do
      modify fun t => { t with step := .complete }
      pure .end_

def advance (X : Crates) : EStateM Failure SteppedTransmitTx IxExecStepBatch := do
  let t ← get
  match t.step with
  | .init =>
      let batches ← ofExcept (t.batches X)
      modify fun t => { t with step := .execute batches.reverse }
      advanceExecute batches.reverse
  | .execute batches => advanceExecute batches
  | .complete => pure .end_

end SteppedTransmitTx

end RomeSdk
