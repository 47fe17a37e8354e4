import RomeSdk.Tx.Steps

/-!
# An atomic transaction

`tx/atomic.rs`: the whole transaction is one instruction. The builder of transactions
calls `ix` to see what kind a transaction is; where the instruction is not there yet,
the first step builds it.
-/

namespace RomeSdk

/-- The macro `advance_with_version`. -/
def advanceWithVersion {τ : Type} (advance : EStateM Failure τ IxExecStepBatch)
    (version : TxVersion) : EStateM Failure τ IxExecStepBatch := do
  match ← advance with
  | .single ix _ => pure (.single ix version)
  | ix => pure ix

inductive AtomicTx.Steps where
  | execute
  | end_
  deriving DecidableEq, Repr

structure AtomicTx where
  txBuilder : TxBuilder
  rlp : Bytes
  ix : Option AtomicIxBatch
  /-- down to the accounts -/
  emulation : Option (List (Pubkey × Bool))
  step : AtomicTx.Steps
  resource : Resource
  /-- `resource.fee_recipient()` -/
  feeRecipient : Bytes

namespace AtomicTx

def new (txBuilder : TxBuilder) (rlp : Bytes) (resource : Resource) (feeRecipient : Bytes) :
    AtomicTx :=
  ⟨txBuilder, rlp, none, none, .execute, resource, feeRecipient⟩

def txData (X : Crates) (tx : AtomicTx) : Bytes :=
  X.romeEvm.tag .doTx :: (tx.feeRecipient ++ tx.rlp)

/-- The function `ix`, which fills the field of this name. -/
def emulateIx (X : Crates) (B : ComputeBudget) : EStateM Failure AtomicTx Unit := do
  let tx ← get
  let data := tx.txData X
  let emulation ← ofExcept (tx.txBuilder.emulate data tx.resource.payerKey).toOutcome
  modify fun tx => { tx with emulation := some emulation }
  let ix := tx.txBuilder.buildIx emulation data
  modify fun tx => { tx with ix := some (B.newComposibleOwned ix) }

/-- The arm of `Steps::Execute` behind the check for the instruction. -/
def takeIx : EStateM Failure AtomicTx IxExecStepBatch := do
  let tx ← get
  match tx.ix with
  | none => throw (.panic "called `Option::unwrap()` on a `None` value")
  | some ix =>
      set { tx with ix := none, step := .end_ }
      pure (.single ix .legacy)

def advance (X : Crates) (B : ComputeBudget) : EStateM Failure AtomicTx IxExecStepBatch := do
  let tx ← get
  match tx.step with
  | .execute =>
      if tx.ix.isNone then
        emulateIx X B
        takeIx
      else takeIx
  | .end_ => pure .end_

def advanceTx (X : Crates) (B : ComputeBudget) : AdvanceTx AtomicTx :=
  ⟨advance X B, advanceWithVersion (advance X B)⟩

end AtomicTx

end RomeSdk
