import RomeSdk.Tx.Steps

/-!
# The address lookup table of a transaction

`tx/alt.rs`: the first step of an `AltTx` deallocates the table of the holder and
allocates it anew, the second one waits until the slot the table was extended in
is over, since only then the table may be used.

What the emulator, the RPC client and `solana_sdk` answer stands as a parameter.
-/

namespace RomeSdk

/-- What `AddressLookupTable::deserialize` makes of the data of an account. -/
structure AddressLookupTable where
  lastExtendedSlot : Slot
  addresses : List Pubkey

/-- What the lookup table of a transaction needs of other crates. -/
structure AltCrates extends ComputeBudget where
  /-- `emulator::Instruction::AltAlloc as u8` -/
  altAlloc : UInt8
  /-- `emulator::Instruction::AltDealloc as u8` -/
  altDealloc : UInt8
  /-- `emulator::get_alt` of the program, the data and the payer -/
  getAlt : Pubkey → Bytes → Pubkey → ProgramResult (Option Pubkey)
  /-- `get_account`, down to the data of the account -/
  getAccount : Pubkey → ProgramResult Bytes
  /-- `AddressLookupTable::deserialize` -/
  deserialize : Bytes → ProgramResult AddressLookupTable

/-- `key.to_bytes()` -/
def Pubkey.toBytes (key : Pubkey) : Bytes := beBytes 32 key.toNat

def ALT_CHUNK_SIZE : Nat := 24

inductive AltTx.Steps where
  | execute
  | waitNextSlot
  | end_
  deriving DecidableEq, Repr

structure AltTx where
  txBuilder : TxBuilder
  resource : Resource
  session : UInt64
  keys : Option (List Pubkey)
  recentSlot : UInt64
  step : AltTx.Steps
  altRawAccount : Option (Pubkey × Bytes)

namespace AltTx

/-- `tx_data_alloc` behind the `take` of the keys. -/
def allocData (A : AltCrates) (alt : AltTx) (keys : List Pubkey) : Outcome (List Bytes) := do
  let total := keys.length
  let chunks ← intoChunks keys ALT_CHUNK_SIZE
  let keysBin := chunks.map fun chunk => (chunk.map Pubkey.toBytes).flatten
  let data := A.altAlloc :: (alt.resource.holder ++ leBytes 8 alt.txBuilder.chainId.toNat ++
    leBytes 8 alt.session.toNat ++ leBytes 8 alt.recentSlot.toNat ++ leBytes 8 total)
  pure (keysBin.map fun accs => data ++ accs)

def txDataAlloc (A : AltCrates) : EStateM Failure AltTx (List Bytes) := do
  let alt ← get
  match alt.keys with
  | none => throw (.panic "accounts expected")
  | some keys =>
      set { alt with keys := none }
      ofExcept (alt.allocData A keys)

def txDataDealloc (A : AltCrates) (alt : AltTx) : Bytes :=
  A.altDealloc :: (alt.resource.holder ++ leBytes 8 alt.txBuilder.chainId.toNat ++
    leBytes 8 alt.session.toNat)

def ixsAlloc (A : AltCrates) : EStateM Failure AltTx (List AtomicIxBatch) := do
  let dataVec ← txDataAlloc A
  let alt ← get
  match dataVec.getLast? with
  | none => throw (.panic "called `Option::unwrap()` on a `None` value")
  | some last =>
      let emulation ← ofExcept (alt.txBuilder.emulate last alt.resource.payerKey).toOutcome
      pure (dataVec.map fun x => [alt.txBuilder.buildIx emulation x])

def ixDealloc (A : AltCrates) (alt : AltTx) : Outcome AtomicIxBatch := do
  let data := alt.txDataDealloc A
  let emulation ← (alt.txBuilder.emulate data alt.resource.payerKey).toOutcome
  pure (A.newComposibleOwned (alt.txBuilder.buildIx emulation data))

/-- The function `alt_raw_account`, which asks for the account. -/
def readAltRawAccount (A : AltCrates) (alt : AltTx) : ProgramResult (Pubkey × Bytes) := do
  let data := alt.resource.holder ++ leBytes 8 alt.txBuilder.chainId.toNat
  match ← A.getAlt alt.txBuilder.programId data alt.resource.payerKey with
  | none => throw .addressLookupTableNotFound
  | some key =>
      let acc ← A.getAccount key
      pure (key, acc)

/-- `alt_account_` -/
def altAccount (A : AltCrates) (alt : AltTx) : Outcome AddressLookupTableAccount :=
  match alt.altRawAccount with
  | none => .error (.panic "alt_account expected")
  | some (key, acc) => do
      let state ← (A.deserialize acc).toOutcome
      pure ⟨key, state.addresses⟩

def lastExtendedSlot (A : AltCrates) (alt : AltTx) : Outcome Slot :=
  match alt.altRawAccount with
  | none => .error (.panic "alt_account expected")
  | some (_, acc) => do
      let state ← (A.deserialize acc).toOutcome
      pure state.lastExtendedSlot

def advance (A : AltCrates) : EStateM Failure AltTx IxExecStepBatch := do
  let alt ← get
  match alt.step with
  | .execute =>
      let dealloc ← ofExcept (alt.ixDealloc A)
      let alloc ← ixsAlloc A
      modify fun alt => { alt with step := .waitNextSlot }
      pure (.parallel (dealloc :: alloc) .legacy)
  | .waitNextSlot =>
      set { alt with step := .end_ }
      let account ← ofExcept (alt.readAltRawAccount A).toOutcome
      modify fun alt => { alt with altRawAccount := some account }
      let alt ← get
      let slot ← ofExcept (alt.lastExtendedSlot A)
      pure (.waitNextSlot slot)
  | .end_ => pure .end_

end AltTx

end RomeSdk
