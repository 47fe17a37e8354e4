import RomeSdk.Tx.AltTx
import RomeSdk.Tx.AtomicTx

/-!
# A transaction with a lookup table and no holder

`tx/alt_composed.rs`: the steps of the lookup table first, then those of the boxed
transaction with the table. `tx/atomic_svm.rs`: an atomic transaction with further
instructions and, it may be, with lookup tables that are there already.
-/

namespace RomeSdk

inductive AltComposed.Steps where
  | alt
  | execute (version : TxVersion)

/-- `τ` is the state of the boxed transaction. -/
structure AltComposed (τ : Type) where
  altTx : AltTx
  iterableTx : τ
  step : AltComposed.Steps

namespace AltComposed

variable {τ : Type}

def new (altTx : AltTx) (iterableTx : τ) : AltComposed τ := ⟨altTx, iterableTx, .alt⟩

/-- The arm of `Steps::Execute`. -/
def advanceExecute (I : AdvanceTx τ) (version : TxVersion) :
    EStateM Failure (AltComposed τ) IxExecStepBatch :=
  (I.advanceWithVersion version).zoom iterableTx fun tx iterableTx => { tx with iterableTx }

def advance (A : AltCrates) (I : AdvanceTx τ) :
    EStateM Failure (AltComposed τ) IxExecStepBatch := do
  let tx ← get
  match tx.step with
  | .alt =>
      let ix ← (AltTx.advance A).zoom altTx fun tx altTx => { tx with altTx }
      if ix = .end_ then
        let tx ← get
        let altAccount ← ofExcept (tx.altTx.altAccount A)
        modify fun tx => { tx with step := .execute (.v0 [altAccount]) }
        advanceExecute I (.v0 [altAccount])
      else pure ix
  | .execute version => advanceExecute I version

def advanceTx (A : AltCrates) (I : AdvanceTx τ) : AdvanceTx (AltComposed τ) :=
  ⟨advance A I, fun _ => throw (.panic "internal error: entered unreachable code")⟩

end AltComposed

inductive AtomicSvm.Steps where
  | execute
  | end_
  deriving DecidableEq, Repr

structure AtomicSvm where
  atomicTx : AtomicTx
  alts : Option (List AddressLookupTableAccount)
  step : AtomicSvm.Steps

namespace AtomicSvm

/-- `self.atomic_tx.advance()` or `self.atomic_tx.advance_with_version(..)` -/
def advanceAtomic (x : EStateM Failure AtomicTx IxExecStepBatch) :
    EStateM Failure AtomicSvm IxExecStepBatch :=
  x.zoom atomicTx fun tx atomicTx => { tx with atomicTx }

def advance (X : Crates) (B : ComputeBudget) : EStateM Failure AtomicSvm IxExecStepBatch := do
  let tx ← get
  match tx.step with
  | .execute =>
      modify fun tx => { tx with step := .end_ }
      match tx.alts with
      | some alt =>
          modify fun tx => { tx with alts := none }
          advanceAtomic ((AtomicTx.advanceTx X B).advanceWithVersion (.v0 alt))
      | none => advanceAtomic ((AtomicTx.advanceTx X B).advance)
  | .end_ => pure .end_

def advanceTx (X : Crates) (B : ComputeBudget) : AdvanceTx AtomicSvm :=
  ⟨advance X B, fun _ => throw (.panic "internal error: entered unreachable code")⟩

end AtomicSvm

end RomeSdk
