import RomeSdk.Tx.Steps

/-!
# An atomic transaction that is read from its holder

`tx/atomic_holder.rs`, with the macro `advance_with_version` of `tx/atomic.rs`. Where
a lookup table is used the transmission is left to the composed transaction.
-/

namespace RomeSdk

inductive AtomicTxHolder.Steps where
  | transmit
  | execute
  | end_
  deriving DecidableEq, Repr

structure AtomicTxHolder where
  step : AtomicTxHolder.Steps
  transmitTx : SteppedTransmitTx
  /-- `transmit_tx.resource.fee_recipient()` -/
  feeRecipient : Bytes

namespace AtomicTxHolder

def new (transmitTx : SteppedTransmitTx) (feeRecipient : Bytes) (useAlt : Bool) : AtomicTxHolder :=
  ⟨if useAlt then .execute else .transmit, transmitTx, feeRecipient⟩

def txData (X : Crates) (tx : AtomicTxHolder) : Bytes :=
  X.romeEvm.tag .doTxHolder :: (tx.transmitTx.resource.holder ++
    beBytes 32 tx.transmitTx.hash.toNat ++ leBytes 8 tx.transmitTx.txBuilder.chainId.toNat ++
    tx.feeRecipient)

def ixs (X : Crates) (B : ComputeBudget) (tx : AtomicTxHolder) : Outcome AtomicIxBatch := do
  let data := tx.txData X
  let emulation ←
    (tx.transmitTx.txBuilder.emulate data tx.transmitTx.resource.payerKey).toOutcome
  pure (B.newComposibleOwned (tx.transmitTx.txBuilder.buildIx emulation data))

/-- The arm of `Steps::Execute`. -/
def advanceExecute (X : Crates) (B : ComputeBudget) :
    EStateM Failure AtomicTxHolder IxExecStepBatch := do
  modify fun tx => { tx with step := .end_ }
  let tx ← get
  let ix ← ofExcept (tx.ixs X B)
  pure (.single ix .legacy)

def advance (X : Crates) (B : ComputeBudget) : EStateM Failure AtomicTxHolder IxExecStepBatch := do
  let tx ← get
  match tx.step with
  | .transmit =>
      let ix ← (SteppedTransmitTx.advance X).zoom transmitTx fun tx transmitTx =>
        { tx with transmitTx }
      if ix = .end_ then advanceExecute X B else pure ix
  | .execute => advanceExecute X B
  | .end_ => pure .end_

def advanceWithVersion (X : Crates) (B : ComputeBudget) (version : TxVersion) :
    EStateM Failure AtomicTxHolder IxExecStepBatch := do
  match ← advance X B with
  | .single ix _ => pure (.single ix version)
  | ix => pure ix

def advanceTx (X : Crates) (B : ComputeBudget) : AdvanceTx AtomicTxHolder :=
  ⟨advance X B, advanceWithVersion X B⟩

end AtomicTxHolder

end RomeSdk
