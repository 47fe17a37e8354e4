import RomeSdk.Tx.Steps

/-!
# Iterative transactions

`tx/iterative.rs` and `tx/iterative_holder.rs`: one step sends as many copies of an
instruction as there may be iterations, told apart by a number and with no look at how
they end, and the next one asks the chain whether the transaction is through.

The number of copies is computed in floating point; how that rounds stands as a function.
-/

namespace RomeSdk

/-- What an iterative transaction reads of an `Emulation`. -/
structure Emulation where
  /-- each with whether it is writable -/
  accounts : List (Pubkey × Bool)
  /-- `vm.iteration_count` -/
  vm : Option UInt64
  lockOverrides : Bytes

/-- What an iterative transaction needs of other crates. -/
structure IterativeCrates extends ComputeBudget where
  /-- `TxBuilder::emulate` -/
  emulate : Bytes → Pubkey → ProgramResult Emulation
  /-- `(vm.iteration_count as f64 * MULTIPLE_ITERATIONS) as u64` -/
  multipleIterations : UInt64 → UInt64
  /-- `emulator::confirm_tx_iterative` of the program, the holder, the hash, the payer, the
  chain and the session -/
  confirmTxIterative : Pubkey → UInt64 → TxHash → Pubkey → UInt64 → UInt64 → ProgramResult Bool

namespace IterativeCrates

/-- `TxBuilder::confirm_tx_iterative` -/
def confirm (I : IterativeCrates) (b : TxBuilder) (resource : Resource) (hash : TxHash)
    (session : UInt64) : ProgramResult Bool :=
  I.confirmTxIterative b.programId resource.holderIndex hash resource.payerKey b.chainId session

/-- What both `ixs` do with their `emulation_data` and their `tx_data`. -/
def ixs (I : IterativeCrates) (b : TxBuilder) (payer : Pubkey) (emulationData : Bytes)
    (txData : Emulation → Nat → Bytes) : Outcome (List AtomicIxBatch) := do
  let emulation ← (I.emulate emulationData payer).toOutcome
  match emulation.vm with
  | none => throw (.panic "vm expected")
  | some iterationCount =>
      let count := I.multipleIterations iterationCount
      pure ((List.range count.toNat).map fun unique =>
        I.newComposibleOwned (b.buildIx emulation.accounts (txData emulation unique)))

end IterativeCrates

/-- The macro `advance_with_version_it`. -/
def advanceWithVersionIt {τ : Type} (advance : EStateM Failure τ IxExecStepBatch)
    (version : TxVersion) : EStateM Failure τ IxExecStepBatch := do
  match ← advance with
  | .parallelUnchecked ix _ => pure (.parallelUnchecked ix version)
  | ix => pure ix

/-! ## Without a holder -/

inductive IterativeTx.Steps where
  | execute
  | confirm
  | complete
  deriving DecidableEq, Repr

structure IterativeTx where
  txBuilder : TxBuilder
  rlp : Bytes
  resource : Resource
  /-- `resource.fee_recipient()` -/
  feeRecipient : Bytes
  ixs : Option (List AtomicIxBatch)
  step : IterativeTx.Steps
  hash : TxHash
  session : UInt64

namespace IterativeTx

/-- `session` is the random number. -/
def new (X : Crates) (txBuilder : TxBuilder) (resource : Resource) (feeRecipient rlp : Bytes)
    (session : UInt64) : IterativeTx :=
  ⟨txBuilder, rlp, resource, feeRecipient, none, .execute, X.ethers.keccak256 rlp, session⟩

def emulationData (X : Crates) (tx : IterativeTx) : Bytes :=
  X.romeEvm.tag .doTxIterative :: (leBytes 8 tx.session.toNat ++ tx.resource.holder ++
    tx.feeRecipient ++ tx.rlp)

def txData (X : Crates) (tx : IterativeTx) (emulation : Emulation) (unique : Nat) : Bytes :=
  let overridesLen := emulation.lockOverrides.length
  X.romeEvm.tag .doTxIterative :: (leBytes 8 unique ++ leBytes 8 tx.session.toNat ++
    tx.resource.holder ++ tx.feeRecipient ++ leBytes 8 overridesLen ++ emulation.lockOverrides ++
    tx.rlp)

/-- The function `ixs`, which fills the field of this name. -/
def emulateIxs (X : Crates) (I : IterativeCrates) : EStateM Failure IterativeTx Unit := do
  let tx ← get
  let ixs ← ofExcept
    (I.ixs tx.txBuilder tx.resource.payerKey (tx.emulationData X) (tx.txData X))
  set { tx with ixs := some ixs }

/-- The arm of `Steps::Execute` behind the check for the instructions. -/
def takeIxs : EStateM Failure IterativeTx IxExecStepBatch := do
  modify fun tx => { tx with step := .confirm }
  let tx ← get
  match tx.ixs with
  | none => throw (.panic "called `Option::unwrap()` on a `None` value")
  | some ixs =>
      set { tx with ixs := none }
      pure (.parallelUnchecked ixs .legacy)

def advance (X : Crates) (I : IterativeCrates) : EStateM Failure IterativeTx IxExecStepBatch := do
  let tx ← get
  match tx.step with
  | .execute =>
      if tx.ixs.isNone then
        emulateIxs X I
        takeIxs
      else takeIxs
  | .confirm =>
      set { tx with step := .complete }
      let confirm ← ofExcept (I.confirm tx.txBuilder tx.resource tx.hash tx.session).toOutcome
      pure (.confirmationIterativeTx confirm)
  | .complete => pure .end_

def advanceTx (X : Crates) (I : IterativeCrates) : AdvanceTx IterativeTx :=
  ⟨advance X I, advanceWithVersionIt (advance X I)⟩

end IterativeTx

/-! ## With a holder -/

inductive IterativeTxHolder.Steps where
  | transmit
  | execute
  | confirm
  | end_
  deriving DecidableEq, Repr

structure IterativeTxHolder where
  transmitTx : SteppedTransmitTx
  step : IterativeTxHolder.Steps
  session : UInt64
  /-- `transmit_tx.resource.fee_recipient()` -/
  feeRecipient : Bytes

namespace IterativeTxHolder

/-- `session` is the random number. -/
def new (transmitTx : SteppedTransmitTx) (session : UInt64) (feeRecipient : Bytes)
    (useAlt : Bool) : IterativeTxHolder :=
  ⟨transmitTx, if useAlt then .execute else .transmit, session, feeRecipient⟩

def emulationData (X : Crates) (tx : IterativeTxHolder) : Bytes :=
  X.romeEvm.tag .doTxHolderIterative :: (leBytes 8 tx.session.toNat ++
    tx.transmitTx.resource.holder ++ beBytes 32 tx.transmitTx.hash.toNat ++
    leBytes 8 tx.transmitTx.txBuilder.chainId.toNat ++ tx.feeRecipient)

def txData (X : Crates) (tx : IterativeTxHolder) (emulation : Emulation) (unique : Nat) : Bytes :=
  X.romeEvm.tag .doTxHolderIterative :: (leBytes 8 unique ++ leBytes 8 tx.session.toNat ++
    tx.transmitTx.resource.holder ++ beBytes 32 tx.transmitTx.hash.toNat ++
    leBytes 8 tx.transmitTx.txBuilder.chainId.toNat ++ tx.feeRecipient ++
    emulation.lockOverrides)

def ixs (X : Crates) (I : IterativeCrates) (tx : IterativeTxHolder) :
    Outcome (List AtomicIxBatch) :=
  I.ixs tx.transmitTx.txBuilder tx.transmitTx.resource.payerKey (tx.emulationData X) (tx.txData X)

/-- The arm of `Steps::Execute`. -/
def advanceExecute (X : Crates) (I : IterativeCrates) :
    EStateM Failure IterativeTxHolder IxExecStepBatch := do
  modify fun tx => { tx with step := .confirm }
  let tx ← get
  let ixs ← ofExcept (tx.ixs X I)
  pure (.parallelUnchecked ixs .legacy)

def advance (X : Crates) (I : IterativeCrates) :
    EStateM Failure IterativeTxHolder IxExecStepBatch := do
  let tx ← get
  match tx.step with
  | .transmit =>
      let ix ← (SteppedTransmitTx.advance X).zoom transmitTx fun tx transmitTx =>
        { tx with transmitTx }
      if ix = .end_ then advanceExecute X I else pure ix
  | .execute => advanceExecute X I
  | .confirm =>
      set { tx with step := .end_ }
      match I.confirm tx.transmitTx.txBuilder tx.transmitTx.resource tx.transmitTx.hash
          tx.session with
      | .ok confirm => pure (.confirmationIterativeTx confirm)
      -- the error is written to the log only
      | .error _ => pure (.confirmationIterativeTx false)
  | .end_ => pure .end_

def advanceTx (X : Crates) (I : IterativeCrates) : AdvanceTx IterativeTxHolder :=
  ⟨advance X I, advanceWithVersionIt (advance X I)⟩

end IterativeTxHolder

end RomeSdk
