import RomeSdk.Lib.Retries
import RomeSdk.Tx.AltTx
import RomeSdk.Tx.AtomicTx
import RomeSdk.Tx.AtomicTxHolder
import RomeSdk.Tx.IterativeTx

/-!
# Transactions that are advanced again after a failure

A machine keeps what it has when `advance` fails, and nothing keeps its caller from
calling again. What the emulator and the RPC node answer is another matter in every
call, so a call is made with the answers it will find, and these are put in the place of
those the transaction was made with.
-/

namespace RomeSdk

/-- What a transaction uses of other crates, with the answers of no call in particular. -/
structure TxCrates extends AltCrates where
  crates : Crates
  /-- `(vm.iteration_count as f64 * MULTIPLE_ITERATIONS) as u64` -/
  multipleIterations : UInt64 → UInt64

/-- What the emulator and the RPC node answer during one call. -/
structure CallAnswers where
  emulate : Bytes → Pubkey → ProgramResult Emulation
  getAlt : Pubkey → Bytes → Pubkey → ProgramResult (Option Pubkey)
  getAccount : Pubkey → ProgramResult Bytes
  confirmTxIterative : Pubkey → UInt64 → TxHash → Pubkey → UInt64 → UInt64 → ProgramResult Bool

namespace CallAnswers

/-- The emulation, down to the accounts. -/
def accounts (e : CallAnswers) (data : Bytes) (payer : Pubkey) :
    ProgramResult (List (Pubkey × Bool)) :=
  (e.emulate data payer).map Emulation.accounts

def altCrates (e : CallAnswers) (K : TxCrates) : AltCrates :=
  { K.toAltCrates with getAlt := e.getAlt, getAccount := e.getAccount }

def iterativeCrates (e : CallAnswers) (K : TxCrates) : IterativeCrates :=
  ⟨K.toComputeBudget, e.emulate, K.multipleIterations, e.confirmTxIterative⟩

/-- The documented use of the emulator: for an instruction that runs the virtual machine an
emulation reports on it. -/
def ReportsVm (e : CallAnswers) (X : Crates) : Prop :=
  ∀ tag ∈ [EvmInstruction.doTxIterative, .doTxHolderIterative], ∀ data payer emulation,
    e.emulate (X.romeEvm.tag tag :: data) payer = .ok emulation → emulation.vm ≠ none

end CallAnswers

def TxBuilder.emulatedBy (b : TxBuilder)
    (emulate : Bytes → Pubkey → ProgramResult (List (Pubkey × Bool))) : TxBuilder :=
  { b with emulate }

def TransmitTx.emulatedBy (t : TransmitTx)
    (emulate : Bytes → Pubkey → ProgramResult (List (Pubkey × Bool))) : TransmitTx :=
  { t with txBuilder := t.txBuilder.emulatedBy emulate }

def SteppedTransmitTx.emulatedBy (t : SteppedTransmitTx)
    (emulate : Bytes → Pubkey → ProgramResult (List (Pubkey × Bool))) : SteppedTransmitTx :=
  ⟨t.toTransmitTx.emulatedBy emulate, t.step⟩

variable (K : TxCrates) (e : CallAnswers)

def AtomicTx.call : EStateM Failure AtomicTx IxExecStepBatch := fun tx =>
  advance K.crates K.toComputeBudget { tx with txBuilder := tx.txBuilder.emulatedBy e.accounts }

def AtomicTxHolder.call : EStateM Failure AtomicTxHolder IxExecStepBatch := fun tx =>
  advance K.crates K.toComputeBudget { tx with transmitTx := tx.transmitTx.emulatedBy e.accounts }

def IterativeTx.call : EStateM Failure IterativeTx IxExecStepBatch := fun tx =>
  advance K.crates (e.iterativeCrates K) tx

def IterativeTxHolder.call : EStateM Failure IterativeTxHolder IxExecStepBatch := fun tx =>
  advance K.crates (e.iterativeCrates K)
    { tx with transmitTx := tx.transmitTx.emulatedBy e.accounts }

def AltTx.call : EStateM Failure AltTx IxExecStepBatch := fun tx =>
  advance (e.altCrates K) { tx with txBuilder := tx.txBuilder.emulatedBy e.accounts }

def SteppedTransmitTx.call : EStateM Failure SteppedTransmitTx IxExecStepBatch := fun tx =>
  advance K.crates (tx.emulatedBy e.accounts)

end RomeSdk
