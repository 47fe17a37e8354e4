import RomeSdk.Tx.AltTx

/-!
# A transaction with a lookup table and a holder

`tx/alt_composed_holder.rs`: the lookup table is filled and the transaction is
transmitted to its holder at the same time, both machines making a step in every
round and `join_parallel` making one step of the two. When both have ended, the
steps of the transaction that reads the holder follow, which use the table.
-/

namespace RomeSdk

def joinParallel (altIx transmitIx : IxExecStepBatch) : Outcome IxExecStepBatch :=
  match transmitIx with
  | .parallel batch1 _ =>
      match altIx with
      | .parallel batch2 version => .ok (.parallel (batch2 ++ batch1) version)
      | .end_ => .ok transmitIx
      | .waitNextSlot _ => .ok transmitIx
      | _ => .error (.panic "internal error: entered unreachable code")
  | .end_ => .ok altIx
  | _ => .error (.panic "internal error: entered unreachable code")

inductive AltComposedHolder.Steps where
  | altAndTransmit
  | execute (version : TxVersion)

/-- `τ` is the state of the boxed transaction. -/
structure AltComposedHolder (τ : Type) where
  altTx : AltTx
  transmitTx : SteppedTransmitTx
  iterableTx : τ
  step : AltComposedHolder.Steps

namespace AltComposedHolder

variable {τ : Type}

def new (altTx : AltTx) (transmitTx : SteppedTransmitTx) (iterableTx : τ) :
    AltComposedHolder τ :=
  ⟨altTx, transmitTx, iterableTx, .altAndTransmit⟩

/-- `self.alt_tx.advance()` -/
def advanceAlt (A : AltCrates) : EStateM Failure (AltComposedHolder τ) IxExecStepBatch :=
  (AltTx.advance A).zoom altTx fun tx altTx => { tx with altTx }

/-- `self.transmit_tx.advance()` -/
def advanceTransmit (X : Crates) : EStateM Failure (AltComposedHolder τ) IxExecStepBatch :=
  (SteppedTransmitTx.advance X).zoom transmitTx fun tx transmitTx => { tx with transmitTx }

/-- The arm of `Steps::Execute`. -/
def advanceExecute (I : AdvanceTx τ) (version : TxVersion) :
    EStateM Failure (AltComposedHolder τ) IxExecStepBatch :=
  (I.advanceWithVersion version).zoom iterableTx fun tx iterableTx => { tx with iterableTx }

def advance (X : Crates) (A : AltCrates) (I : AdvanceTx τ) :
    EStateM Failure (AltComposedHolder τ) IxExecStepBatch := do
  let tx ← get
  match tx.step with
  | .altAndTransmit =>
      let altIx ← advanceAlt A
      let transmitIx ← advanceTransmit X
      let ix ← ofExcept (joinParallel altIx transmitIx)
      if ix = .end_ then
        let tx ← get
        let altAccount ← ofExcept (tx.altTx.altAccount A)
        modify fun tx => { tx with step := .execute (.v0 [altAccount]) }
        advanceExecute I (.v0 [altAccount])
      else pure ix
  | .execute version => advanceExecute I version

end AltComposedHolder

end RomeSdk
