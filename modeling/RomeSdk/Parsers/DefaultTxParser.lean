import RomeSdk.Lib.Loop
import RomeSdk.Lib.Texts
import RomeSdk.Parsers.TxParser

/-!
# The transaction parser

`default_tx_parser.rs`. The parser holds one record per EVM transaction, a
decoded transaction or the holder buffer it is transmitted into, and per slot
the results its steps carried. `registerSlotTransactions` files the steps of a
slot and leaves on the first error with the work done so far in place;
`isSlotComplete` and `finalizeSlot` read a slot back; `retainFromSlot` forgets
old ones.

The bodies of the loops are definitions of their own, so that a statement can
speak of one step.
-/

namespace RomeSdk

def decodeTransactionFromRlp (X : Crates) (rlp : Bytes) : ProgramResult Transaction :=
  match X.ethers.decode rlp with
  | .error e => .error (.txDecodeError e)
  | .ok tx =>
      if tx.transactionType ≠ some 0x7E then
        match X.ethers.recoverFrom tx with
        | .error e => .error (.signatureError e)
        | .ok sender => .ok { tx with from_ := sender }
      else .ok tx

/-! ## The record of one transaction -/

inductive EvmTx where
  | smallEvmTx (transaction : Transaction)
  | bigEvmTx (holderData : Bytes) (pieces : BTreeMap Nat Nat)

def EvmTx.newSmallTx (transaction : Transaction) : EvmTx := .smallEvmTx transaction

def EvmTx.newBigTx : EvmTx := .bigEvmTx [] ∅

/-- `Vec::resize(len, 0)`, used only to grow. -/
def resize (buffer : Bytes) (len : Nat) : Bytes :=
  buffer ++ List.replicate (len - buffer.length) 0

/-- `buffer[offset..][..data.len()].copy_from_slice(data)` -/
def copyAt (buffer : Bytes) (offset : Nat) (data : Bytes) : Bytes :=
  buffer.take offset ++ data ++ buffer.drop (offset + data.length)

def holderNotExpected : String :=
  "Unable to set holder data because transaction is not supposed to have holder account"

def EvmTx.updateTxHolder (tx : EvmTx) (offset : Nat) (data : Bytes) : Outcome EvmTx :=
  match tx with
  | .bigEvmTx holderData pieces =>
      -- Duplicate data chunk - skipping. Possible on forks
      if offset ∈ pieces then .ok tx
      -- A wrapped sum fails as well: the slice would start past the buffer's end.
      else if usizeMax < offset + data.length then
        .error (.panic "attempt to add with overflow")
      else if isizeMax < offset + data.length then .error (.panic "capacity overflow")
      else
        let resized :=
          if holderData.length < offset + data.length then
            resize holderData (offset + data.length)
          else holderData
        .ok (.bigEvmTx (copyAt resized offset data) (pieces.insert offset data.length))
  | .smallEvmTx _ => .error (.err (.custom holderNotExpected))

/-- The loop of `is_data_complete`: the position reached if every piece starts
where the one before it ended. -/
def piecesEnd : List (Nat × Nat) → Nat → Option Nat
  | [], position => some position
  | (offset, length) :: rest, position =>
      if offset ≠ position then none else piecesEnd rest (position + length)

def EvmTx.isDataComplete : EvmTx → Bool
  | .smallEvmTx _ => true
  | .bigEvmTx _ pieces =>
      match piecesEnd pieces.toList 0 with
      | none => false
      | some position => position != 0

def EvmTx.build (X : Crates) : EvmTx → ProgramResult Transaction
  | .smallEvmTx transaction => .ok transaction
  | .bigEvmTx holderData _ => decodeTransactionFromRlp X holderData

/-! ## Registration -/

abbrev TxResults := BTreeMap Nat (Option TxResult)

abbrev SlotResults := HashMap TxHash TxResults

structure DefaultTxParser where
  transactionsByHash : HashMap TxHash EvmTx
  resultsBySlot : BTreeMap Slot SlotResults

namespace DefaultTxParser

def new : DefaultTxParser := ⟨∅, ∅⟩

/-- The record of a transaction. -/
def record (p : DefaultTxParser) (hash : TxHash) : Option EvmTx :=
  p.transactionsByHash.lookup hash

/-- The result recorded at a slot for a hash and an index. -/
def resultAt (p : DefaultTxParser) (slot : Slot) (hash : TxHash) (txIdx : Nat) :
    Option (Option TxResult) :=
  (p.resultsBySlot[slot]?).bind fun txs => (txs.lookup hash).bind fun results => results[txIdx]?

/-- The two nested `retain`s: results absent from the new data go, the others
take the new step's result. -/
def retainResults (slotTxs : ParsedTxs) (existing : SlotResults) : SlotResults :=
  HashMap.filterMap existing fun exTxHash exTxResults =>
    (slotTxs.lookup exTxHash).map fun newTxSteps =>
      Std.ExtTreeMap.filterMap
        (fun exTxIdx _ => newTxSteps[exTxIdx]?.map ParsedTxStep.result) exTxResults

/-- The first phase of `register_slot_transactions`. -/
def retainSlot (p : DefaultTxParser) (slot : Slot) (slotTxs : ParsedTxs) : DefaultTxParser :=
  { p with resultsBySlot := p.resultsBySlot.modify slot (retainResults slotTxs) }

/-- The `match tx_step` of the second phase. The record made by
`or_insert_with` stays when the step fails. -/
def storeStep (p : DefaultTxParser) (hash : TxHash) (step : ParsedTxStep) :
    DefaultTxParser × Outcome Unit :=
  match step with
  | .smallTx tx _ =>
      ({ p with transactionsByHash :=
          p.transactionsByHash.upsert hash fun o => o.getD (.newSmallTx tx) }, .ok ())
  | .bigTx _ =>
      ({ p with transactionsByHash :=
          p.transactionsByHash.upsert hash fun o => o.getD .newBigTx }, .ok ())
  | .transmitTx offset data =>
      let evmTx := (p.record hash).getD .newBigTx
      match evmTx.updateTxHolder offset data with
      | .ok updated =>
          ({ p with transactionsByHash := p.transactionsByHash.insert hash updated }, .ok ())
      | .error e =>
          ({ p with transactionsByHash := p.transactionsByHash.insert hash evmTx }, .error e)

/-- Add a result which was not found previously. -/
def recordResult (p : DefaultTxParser) (slot : Slot) (hash : TxHash) (txIdx : Nat)
    (txResult : Option TxResult) : DefaultTxParser :=
  { p with resultsBySlot :=
      p.resultsBySlot.upsert slot fun txs =>
        HashMap.upsert (txs.getD ∅) hash fun results =>
          (results.getD ∅).insertIfNew txIdx txResult }

/-- One round of the inner loop. -/
def registerStep (p : DefaultTxParser) (slot : Slot) (hash : TxHash) (txIdx : Nat)
    (step : ParsedTxStep) : DefaultTxParser × Outcome Unit :=
  match p.storeStep hash step with
  | (p', .ok ()) => (p'.recordResult slot hash txIdx step.result, .ok ())
  | (p', .error e) => (p', .error e)

/-- `for (tx_idx, tx_step) in tx_steps` -/
def registerSteps (slot : Slot) (hash : TxHash) (steps : TxSteps) (p : DefaultTxParser) :
    DefaultTxParser × Outcome Unit :=
  forTry (fun p e => p.registerStep slot hash e.1 e.2) steps.toList p

/-- `for (tx_hash, tx_steps) in slot_txs` -/
def registerTxs (slot : Slot) (slotTxs : ParsedTxs) (p : DefaultTxParser) :
    DefaultTxParser × Outcome Unit :=
  forTry (fun p e => registerSteps slot e.1 e.2 p) slotTxs.entries p

def registerSlotTransactions (p : DefaultTxParser) (slot : Slot) (slotTxs : ParsedTxs) :
    DefaultTxParser × Outcome Unit :=
  registerTxs slot slotTxs (p.retainSlot slot slotTxs)

/-! ## Reading a slot back -/

/-- The inner loop of `is_slot_complete`, over the results of one hash. -/
def txComplete (p : DefaultTxParser) (hash : TxHash) : List (Option TxResult) → Bool → Outcome Bool
  | [], slotComplete => .ok slotComplete
  | none :: rest, slotComplete => p.txComplete hash rest slotComplete
  | some _ :: rest, slotComplete =>
      match p.record hash with
      | some tx => p.txComplete hash rest (slotComplete && tx.isDataComplete)
      | none => .error (.panic "Transaction is referenced from slot but not found in TxParser")

def txsComplete (p : DefaultTxParser) :
    List (Sigma fun _ : TxHash => TxResults) → Outcome Bool
  | [] => .ok true
  | ⟨hash, results⟩ :: rest =>
      match p.txComplete hash (results.toList.map Prod.snd) true with
      | .error e => .error e
      | .ok false => .ok false
      | .ok true => p.txsComplete rest

def isSlotComplete (p : DefaultTxParser) (slot : Slot) : Outcome Bool :=
  match p.resultsBySlot[slot]? with
  | none => .ok true
  | some slotResults => p.txsComplete slotResults.entries

/-- `{:?}` of a hash. -/
def hashDebug (hash : TxHash) : String :=
  "0x" ++ String.ofList (Texts.hexDigits (beBytes 32 hash.toNat))

/-- The results found so far, by transaction index. -/
abbrev Finalized := BTreeMap Nat (Transaction × TxResult)

/-- The inner loop of `finalize_slot`: it stops at the first result that is there. -/
def finalizeTx (X : Crates) (p : DefaultTxParser) (hash : TxHash) :
    List (Nat × Option TxResult) → Finalized → ProgramResult Finalized
  | [], results => .ok results
  | (_, none) :: rest, results => finalizeTx X p hash rest results
  | (txIdx, some txResult) :: _, results =>
      match p.record hash with
      | none => .error (.custom ("Tx " ++ hashDebug hash ++ " not found by hash"))
      | some tx =>
          if tx.isDataComplete then
            match tx.build X with
            | .error e => .error e
            | .ok transaction => .ok (results.insert txIdx (transaction, txResult))
          else .error (.custom ("Tx " ++ hashDebug hash ++ " data is not complete "))

def finalizeTxs (X : Crates) (p : DefaultTxParser) :
    List (Sigma fun _ : TxHash => TxResults) → Finalized → ProgramResult Finalized
  | [], results => .ok results
  | ⟨hash, txResults⟩ :: rest, results =>
      match finalizeTx X p hash txResults.toList results with
      | .error e => .error e
      | .ok results' => finalizeTxs X p rest results'

def finalizeSlot (X : Crates) (p : DefaultTxParser) (slot : Slot) :
    ProgramResult (List (Transaction × TxResult)) :=
  match p.resultsBySlot[slot]? with
  | none => .ok []
  | some slotTxs =>
      match finalizeTxs X p slotTxs.entries ∅ with
      | .error e => .error e
      | .ok results => .ok (results.toList.map Prod.snd)

def retainFromSlot (p : DefaultTxParser) (fromSlot : Slot) : DefaultTxParser where
  transactionsByHash :=
    ((p.resultsBySlot.toList.takeWhile fun e => decide (e.1 < fromSlot)).flatMap
      fun e => AList.keys e.2).foldl (fun txs hash => txs.erase hash) p.transactionsByHash
  resultsBySlot := p.resultsBySlot.filter fun slot _ => decide (fromSlot ≤ slot)

/-- Two parsers that only differ in the iteration orders of their hash maps. -/
def Same (p q : DefaultTxParser) : Prop :=
  HashMap.Same p.transactionsByHash q.transactionsByHash ∧
    ∀ slot : Slot, Option.Rel HashMap.Same p.resultsBySlot[slot]? q.resultsBySlot[slot]?

end DefaultTxParser

end RomeSdk
