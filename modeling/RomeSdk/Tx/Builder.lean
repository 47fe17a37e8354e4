import RomeSdk.Lib.Texts
import RomeSdk.Tx.AltComposed
import RomeSdk.Tx.AltComposedHolder
import RomeSdk.Tx.RetryRun

/-!
# Building a transaction

`tx/builder.rs`, with the checks of `util.rs` and `decode_revert` of `log_parser.rs`: the
emulation of a transaction says whether it is atomic, the number of its accounts whether
it needs a lookup table, and the length of the request that would send it whether it has
to be read from a holder. Each answer picks one of the machines.

A `Box<dyn AdvanceTx>` is one of the machines it may be. `RpcClientError`, `BincodeError`,
`EmulationRevert`, `EmulationError` and `TooManyAccounts` are kept as the text they display.
-/

namespace RomeSdk

/-! ## The emulation and its checks -/

/-- `rome_evm::ExitReason`, the payload of an error as it debugs. -/
inductive EvmExit where
  | succeed
  | revert
  | error (debug : String)
  | fatal (debug : String)
  | stepLimitReached

structure EmulatorVm where
  exitReason : EvmExit
  returnValue : Option Bytes
  iterationCount : UInt64

/-- `emulator::Emulation`; each account with whether it is writable. -/
structure EmulatorAnswer where
  accounts : List (Pubkey × Bool)
  isAtomic : Bool
  vm : Option EmulatorVm
  lockOverrides : Bytes

/-- What a transaction reads of it. -/
def EmulatorAnswer.emulation (a : EmulatorAnswer) : Emulation :=
  ⟨a.accounts, a.vm.map EmulatorVm.iterationCount, a.lockOverrides⟩

/-- What the builder uses of other crates, beside what the machines use. -/
structure BuilderCrates extends TxCrates where
  REVERT_ERROR : Bytes
  REVERT_PANIC : Bytes
  /-- `abi::decode` of one string, down to the string -/
  decodeString : Bytes → Option String
  /-- `abi::decode` of one number -/
  decodeUint : Bytes → Option U256
  /-- the length of `serialize_encode` of the composed transaction, without the blockhash -/
  requestLen : AtomicIxBatch → Pubkey → TxVersion → ProgramResult Nat

def decodeRevert (C : BuilderCrates) (returnValue : Bytes) : Option String :=
  if returnValue.length < 4 then none
  else
    let returnReason := returnValue.take 4
    let returnValue := returnValue.drop 4
    if returnReason = C.REVERT_ERROR then C.decodeString returnValue
    else if returnReason = C.REVERT_PANIC then
      (C.decodeUint returnValue).map fun value => "panic " ++ toString value.toNat
    else some (String.ofList (Texts.hexDigits returnValue))

def emulationRevert (message data : String) : RomeEvmError :=
  .custom ("Emulation reverted: " ++ message ++ ", data: \"" ++ data ++ "\")")

def emulationError (message : String) : RomeEvmError :=
  .custom ("Emulation error: \"" ++ message ++ "\"")

def checkExitReason (C : BuilderCrates) (emulation : EmulatorAnswer) : ProgramResult Unit :=
  match emulation.vm with
  | none => .ok ()
  | some vm =>
      match vm.exitReason with
      | .succeed => .ok ()
      | .revert =>
          let mes := match vm.returnValue.bind (decodeRevert C) with
            | some a => "execution reverted: " ++ a
            | none => "execution reverted"
          let data := match vm.returnValue with
            | some a => "0x" ++ String.ofList (Texts.hexDigits a)
            | none => "0x"
          .error (emulationRevert mes data)
      | .error e => .error (emulationError e)
      | .fatal e => .error (emulationError e)
      | .stepLimitReached => .error (emulationError "StepLimitReached")

def MAX_ALLOWED_ACCOUNTS : Nat := 64 - 2

def checkAccountsLen (emulation : EmulatorAnswer) : ProgramResult Unit :=
  if MAX_ALLOWED_ACCOUNTS < emulation.accounts.length then
    .error (.custom ("Too many accounts: " ++ toString emulation.accounts.length
      ++ ", maximum allowed is 62"))
  else .ok ()

/-- What is found outside while a transaction is built: the answers of the emulator and of
the RPC node, and the random numbers. -/
structure BuildAnswers where
  /-- `emulator::emulate` -/
  emulate : Bytes → Pubkey → ProgramResult EmulatorAnswer
  getSlot : ProgramResult UInt64
  /-- the session of an iterative transaction, and that of the one with a holder -/
  session : UInt64
  holderSession : UInt64
  altSession : UInt64

/-- `TxBuilder::emulate` -/
def BuildAnswers.checked (a : BuildAnswers) (C : BuilderCrates) (data : Bytes) (payer : Pubkey) :
    ProgramResult EmulatorAnswer := do
  let emulation ← a.emulate data payer
  checkExitReason C emulation
  checkAccountsLen emulation
  pure emulation

/-- The answers in a call of a machine: building asks for nothing else. -/
def BuildAnswers.call (a : BuildAnswers) (C : BuilderCrates) : CallAnswers where
  emulate data payer := (a.checked C data payer).map EmulatorAnswer.emulation
  getAlt := fun _ _ _ => .ok none
  getAccount := fun _ => .ok []
  confirmTxIterative := fun _ _ _ _ _ _ => .ok false

/-! ## Which machine it is -/

def txKeys (ix : AtomicIxBatch) : List Pubkey :=
  ix.flatMap fun x => x.accounts.map AccountMeta.pubkey

def USE_ALT_KEYS_BOUND : Nat := 28

def useAlt (keys : List Pubkey) : Bool := decide (USE_ALT_KEYS_BOUND < keys.length)

/-- `solana_sdk::packet::PACKET_DATA_SIZE` -/
def PACKET_DATA_SIZE : Nat := 1232

def useHolder (C : BuilderCrates) (ix : AtomicIxBatch) (payer : Pubkey)
    (alts : Option (List AddressLookupTableAccount)) : ProgramResult Bool :=
  let dataLen := (ix.flatMap Instruction.data).length
  if 2 ^ 15 - 1 < dataLen then .ok true
  else do
    let len ← C.requestLen ix payer (match alts with
      | some tables => .v0 tables
      | none => .legacy)
    pure (decide (PACKET_DATA_SIZE - 100 < len))

/-- A transaction that may be boxed into one with a lookup table. -/
inductive Iterable where
  | atomicTx (tx : AtomicTx)
  | atomicTxHolder (tx : AtomicTxHolder)
  | iterativeTx (tx : IterativeTx)
  | iterativeTxHolder (tx : IterativeTxHolder)

/-- The transactions of the builder. -/
inductive BuiltTx where
  | iterable (tx : Iterable)
  | altComposed (tx : AltComposed Iterable)
  | altComposedHolder (tx : AltComposedHolder Iterable)

/-- A call on a part of a variant. -/
def within {σ τ : Type} (wrap : σ → τ) (x : EStateM Failure σ IxExecStepBatch) (s : σ) :
    EStateM.Result Failure τ IxExecStepBatch :=
  match x s with
  | .ok step t => .ok step (wrap t)
  | .error f t => .error f (wrap t)

namespace Iterable

/-- `advance` of the boxed transaction, with what it finds. -/
def call (K : TxCrates) (e : CallAnswers) : EStateM Failure Iterable IxExecStepBatch
  | .atomicTx tx => within .atomicTx (AtomicTx.call K e) tx
  | .atomicTxHolder tx => within .atomicTxHolder (AtomicTxHolder.call K e) tx
  | .iterativeTx tx => within .iterativeTx (IterativeTx.call K e) tx
  | .iterativeTxHolder tx => within .iterativeTxHolder (IterativeTxHolder.call K e) tx

/-- `advance_with_version`, each variant with the macro it was written with. -/
def callWithVersion (K : TxCrates) (e : CallAnswers) (version : TxVersion) :
    EStateM Failure Iterable IxExecStepBatch
  | .atomicTx tx => within .atomicTx (advanceWithVersion (AtomicTx.call K e) version) tx
  | .atomicTxHolder tx =>
      within .atomicTxHolder (advanceWithVersion (AtomicTxHolder.call K e) version) tx
  | .iterativeTx tx => within .iterativeTx (advanceWithVersionIt (IterativeTx.call K e) version) tx
  | .iterativeTxHolder tx =>
      within .iterativeTxHolder (advanceWithVersionIt (IterativeTxHolder.call K e) version) tx

def advanceTx (K : TxCrates) (e : CallAnswers) : AdvanceTx Iterable :=
  ⟨call K e, callWithVersion K e⟩

end Iterable

def AltTx.emulatedBy (alt : AltTx)
    (emulate : Bytes → Pubkey → ProgramResult (List (Pubkey × Bool))) : AltTx :=
  { alt with txBuilder := alt.txBuilder.emulatedBy emulate }

def AltComposed.call (K : TxCrates) (e : CallAnswers) :
    EStateM Failure (AltComposed Iterable) IxExecStepBatch := fun tx =>
  advance (e.altCrates K) (Iterable.advanceTx K e) { tx with altTx := tx.altTx.emulatedBy e.accounts }

def AltComposedHolder.call (K : TxCrates) (e : CallAnswers) :
    EStateM Failure (AltComposedHolder Iterable) IxExecStepBatch := fun tx =>
  advance K.crates (e.altCrates K) (Iterable.advanceTx K e)
    { tx with
      altTx := tx.altTx.emulatedBy e.accounts
      transmitTx := tx.transmitTx.emulatedBy e.accounts }

def BuiltTx.call (K : TxCrates) (e : CallAnswers) : EStateM Failure BuiltTx IxExecStepBatch
  | .iterable tx => within .iterable (Iterable.call K e) tx
  | .altComposed tx => within .altComposed (AltComposed.call K e) tx
  | .altComposedHolder tx => within .altComposedHolder (AltComposedHolder.call K e) tx

/-! ## Building -/

def RECENT_SLOT_OFFSET : UInt64 := 5

/-- `AltTx::new` -/
def AltTx.new (a : BuildAnswers) (txBuilder : TxBuilder) (resource : Resource)
    (keys : List Pubkey) : Outcome AltTx := do
  let slot ← a.getSlot.toOutcome
  if slot < RECENT_SLOT_OFFSET then throw (.panic "attempt to subtract with overflow")
  else
    pure ⟨txBuilder, resource, a.altSession, some keys, slot - RECENT_SLOT_OFFSET, .execute, none⟩

namespace TxBuilder

variable (C : BuilderCrates) (a : BuildAnswers) (b : TxBuilder)

def composeIterableWithHolder (useAlt : Bool) (keys : List Pubkey) (transmitTx : SteppedTransmitTx)
    (iterableTx : Iterable) : Outcome BuiltTx :=
  if useAlt then do
    let altTx ← AltTx.new a b transmitTx.resource keys
    pure (.altComposedHolder (.new altTx transmitTx iterableTx))
  else .ok (.iterable iterableTx)

def composeIterableWithoutHolder (useAlt : Bool) (keys : List Pubkey) (resource : Resource)
    (iterableTx : Iterable) : Outcome BuiltTx :=
  if useAlt then do
    let altTx ← AltTx.new a b resource keys
    pure (.altComposed (.new altTx iterableTx))
  else .ok (.iterable iterableTx)

/-- `feeRecipient` is `resource.fee_recipient()`. -/
def composeIterable (ix : AtomicIxBatch) (resource : Resource) (feeRecipient rlp : Bytes)
    (hash : TxHash) (iterable : Iterable) (isAtomic : Bool) : Outcome BuiltTx := do
  let keys := txKeys ix
  let useAlt := RomeSdk.useAlt keys
  let alt := if useAlt then some [(⟨0, keys⟩ : AddressLookupTableAccount)] else none
  let useHolder ← (RomeSdk.useHolder C ix resource.payerKey alt).toOutcome
  if useHolder then
    let transmitTx : SteppedTransmitTx := ⟨⟨b, rlp, hash, resource⟩, .init⟩
    let iterableWithHolder : Iterable :=
      if isAtomic then .atomicTxHolder (.new transmitTx feeRecipient useAlt)
      else .iterativeTxHolder (.new transmitTx a.holderSession feeRecipient useAlt)
    composeIterableWithHolder a b useAlt keys transmitTx iterableWithHolder
  else composeIterableWithoutHolder a b useAlt keys resource iterable

/-- `build_tx` from the locked resource on. The emulation that `atomic_tx.ix()` leaves in its
field is the one the emulator answers for the same data. -/
def buildTx (resource : Resource) (feeRecipient rlp : Bytes) (hash : TxHash) :
    Outcome BuiltTx := do
  let e := a.call C
  let tx : AtomicTx := .new (b.emulatedBy e.accounts) rlp resource feeRecipient
  let emulation ← (a.checked C (tx.txData C.crates) resource.payerKey).toOutcome
  match AtomicTx.emulateIx C.crates C.toComputeBudget tx with
  | .error f _ => throw f
  | .ok () atomicTx =>
      if emulation.isAtomic then
        match atomicTx.ix with
        | none => throw (.panic "called `Option::unwrap()` on a `None` value")
        | some ix =>
            composeIterable C a b ix resource feeRecipient rlp hash (.atomicTx atomicTx) true
      else
        match IterativeTx.emulateIxs C.crates (e.iterativeCrates C.toTxCrates)
            (.new C.crates b resource feeRecipient rlp a.session) with
        | .error f _ => throw f
        | .ok () iterativeTx =>
            match iterativeTx.ixs.bind List.getLast? with
            | none => throw (.panic "no instructions in iterative Tx")
            | some ix =>
                composeIterable C a b ix resource feeRecipient rlp hash (.iterativeTx iterativeTx)
                  false

end TxBuilder

end RomeSdk
