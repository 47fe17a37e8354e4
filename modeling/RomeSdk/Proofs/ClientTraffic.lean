import RomeSdk.Proofs.BuiltTransactions
import RomeSdk.Proofs.Instructions

/-!
# What the instructions of a client are read as

The machines write the data of their instructions, and the block parser reads them back with
the argument parsers of the program. `ReadsTxData` is what both rely on: the tags differ, and
a parser inverts the layout that the machine of its instruction writes. An instruction that a
client wrote is then read as what it carries, for the chain of the client.
-/

namespace RomeSdk

/-- `fee_recipient` of a resource. -/
def IsFeeRecipient (fee : Bytes) : Prop :=
  fee = [0] ∨ ∃ address : Address, fee = 1 :: beBytes 20 address.toNat

/-- The documented layouts of the instructions. -/
structure RomeEvm.ReadsTxData (R : RomeEvm) : Prop where
  tags : ∀ instr instr', R.tag instr = R.tag instr' → instr = instr'
  transmitTx : R.InvertsLayout
  doTx : ∀ fee rlp, IsFeeRecipient fee → R.splitFee (fee ++ rlp) = .ok rlp
  doTxIterative : ∀ (unique : Nat) (session holder : UInt64) (fee overrides rlp : Bytes),
    unique < 2 ^ 64 → IsFeeRecipient fee → overrides.length < 2 ^ 64 →
      R.doTxIterativeArgs (leBytes 8 unique ++ leBytes 8 session.toNat ++ leBytes 8 holder.toNat ++
        fee ++ leBytes 8 overrides.length ++ overrides ++ rlp) = .ok rlp
  doTxHolder : ∀ (holder : UInt64) (hash : TxHash) (chainId : UInt64) (fee : Bytes),
    IsFeeRecipient fee → R.doTxHolderArgs (leBytes 8 holder.toNat ++ beBytes 32 hash.toNat ++
      leBytes 8 chainId.toNat ++ fee) = .ok (hash, chainId.toNat)
  doTxHolderIterative : ∀ (unique : Nat) (session holder : UInt64) (hash : TxHash)
    (chainId : UInt64) (fee overrides : Bytes), unique < 2 ^ 64 → IsFeeRecipient fee →
      R.doTxHolderIterativeArgs (leBytes 8 unique ++ leBytes 8 session.toNat ++
        leBytes 8 holder.toNat ++ beBytes 32 hash.toNat ++ leBytes 8 chainId.toNat ++ fee ++
        overrides) = .ok (hash, chainId.toNat)

/-- Who has a transaction sent: the arguments of `build_tx`, and the transaction they mean. It
is sent through the holder or not. -/
structure Client where
  txBuilder : TxBuilder
  resource : Resource
  feeRecipient : Bytes
  rlp : Bytes
  hash : TxHash
  transaction : Transaction
  held : Bool

namespace Client

def transmitTx (c : Client) : TransmitTx := ⟨c.txBuilder, c.rlp, c.hash, c.resource⟩

/-- The transaction is what it is said to be. -/
structure Honest (X : Crates) (chainId : Nat) (c : Client) : Prop where
  chain : c.txBuilder.chainId.toNat = chainId
  fee : IsFeeRecipient c.feeRecipient
  decodes : decodeTransactionFromRlp X c.rlp = .ok c.transaction
  hash : c.transaction.hash = c.hash
  chainId : ∃ id, c.transaction.chainId = some id ∧ id.toNat = chainId
  nonempty : c.rlp ≠ []
  size : c.rlp.length ≤ isizeMax

/-- The data that the machines write for a client, with what it carries. -/
inductive Writes (X : Crates) (c : Client) : Bytes → Cargo → Prop
  | doTx : c.held = false →
      Writes X c ((AtomicTx.new c.txBuilder c.rlp c.resource c.feeRecipient).txData X)
        (.small c.transaction)
  | doTxIterative {unique : Nat} {emulation : Emulation} (session : UInt64) : c.held = false →
      unique < 2 ^ 64 → emulation.lockOverrides.length < 2 ^ 64 →
      Writes X c ((IterativeTx.new X c.txBuilder c.resource c.feeRecipient c.rlp session).txData X
        emulation unique) (.small c.transaction)
  | chunk {C : List (Nat × Bytes)} {offset : Nat} {data : Bytes} : c.held = true →
      c.transmitTx.chunks = .ok C → (offset, data) ∈ C →
      Writes X c (c.transmitTx.txData X offset data) (.chunk c.hash offset data)
  | doTxHolder : c.held = true →
      Writes X c ((AtomicTxHolder.new ⟨c.transmitTx, .init⟩ c.feeRecipient true).txData X)
        (.big c.hash)
  | doTxHolderIterative {unique : Nat} {emulation : Emulation} (session : UInt64) :
      c.held = true → unique < 2 ^ 64 →
      Writes X c ((IterativeTxHolder.new ⟨c.transmitTx, .init⟩ session c.feeRecipient true).txData X
        emulation unique) (.big c.hash)

end Client

section

variable {X : Crates} {instr : EvmInstruction} {instrData : Bytes}

/-- The arms of the `match` on the tag. -/
def readArm (X : Crates) (instrData : Bytes) : EvmInstruction → Outcome (Option (Nat × Cargo))
  | .doTx => do readSmallTx X (← programAnswer (X.romeEvm.splitFee instrData))
  | .transmitTx => do
      let (offset, hash, chainId, chunk) ← programAnswer (X.romeEvm.transmitTxArgs instrData)
      pure (some (chainId, .chunk hash offset chunk))
  | .doTxHolder => do
      let (hash, chainId) ← programAnswer (X.romeEvm.doTxHolderArgs instrData)
      pure (some (chainId, .big hash))
  | .doTxIterative => do readSmallTx X (← programAnswer (X.romeEvm.doTxIterativeArgs instrData))
  | .doTxHolderIterative => do
      let (hash, chainId) ← programAnswer (X.romeEvm.doTxHolderIterativeArgs instrData)
      pure (some (chainId, .big hash))
  | .deposit => do
      let (chainId, rlp) ← programAnswer (X.romeEvm.depositArgs instrData)
      let tx ← (decodeTransactionFromRlp X rlp).toOutcome
      pure (some (chainId, .deposit tx))

/-- Where the tags differ, an instruction is read by its own arm. -/
theorem readInstruction_tag (h : ∀ i i', X.romeEvm.tag i = X.romeEvm.tag i' → i = i')
    (instr : EvmInstruction) (instrData : Bytes) :
    readInstruction X (X.romeEvm.tag instr :: instrData) = readArm X instrData instr := by
  have hne : ∀ i i', i ≠ i' → X.romeEvm.tag i ≠ X.romeEvm.tag i' := fun i i' hne heq =>
    hne (h i i' heq)
  cases instr <;> simp [readInstruction, readArm, hne]

variable {chainId : Nat} {c : Client}

theorem Client.Honest.readSmallTx (h : c.Honest X chainId) :
    RomeSdk.readSmallTx X c.rlp = .ok (some (chainId, .small c.transaction)) := by
  obtain ⟨id, hid, rfl⟩ := h.chainId
  have hsmall : ¬ usizeMax < id.toNat := by
    have hchain := h.chain
    have hlt := c.txBuilder.chainId.toNat_lt
    have hmax : usizeMax = 2 ^ 64 - 1 := rfl
    omega
  simp only [RomeSdk.readSmallTx, h.decodes, hid, if_neg hsmall]

/-- An instruction of a client is read as what it carries. -/
theorem Client.Writes.read (hreads : X.romeEvm.ReadsTxData) (hhonest : c.Honest X chainId)
    {data : Bytes} {cargo : Cargo} (h : c.Writes X data cargo) :
    readInstruction X data = .ok (some (chainId, cargo)) := by
  cases h with
  | doTx _ =>
      refine (readInstruction_tag hreads.tags .doTx _).trans ?_
      show (programAnswer (X.romeEvm.splitFee (c.feeRecipient ++ c.rlp)) >>= _) = _
      rw [hreads.doTx _ _ hhonest.fee]
      exact hhonest.readSmallTx
  | @doTxIterative unique emulation session _ hunique hoverrides =>
      refine (readInstruction_tag hreads.tags .doTxIterative _).trans ?_
      show (programAnswer (X.romeEvm.doTxIterativeArgs (leBytes 8 unique ++
        leBytes 8 session.toNat ++ leBytes 8 c.resource.holderIndex.toNat ++ c.feeRecipient ++
        leBytes 8 emulation.lockOverrides.length ++ emulation.lockOverrides ++ c.rlp)) >>= _) = _
      rw [hreads.doTxIterative _ _ _ _ _ _ hunique hhonest.fee hoverrides]
      exact hhonest.readSmallTx
  | @chunk C offset data _ hchunks hmem =>
      obtain ⟨C', hchunks', hcuts⟩ := c.transmitTx.chunks_cuts
      cases hchunks.symm.trans hchunks'
      have hfits := (hcuts.slices _ hmem).fits
      have hsize := hhonest.size
      have hmax : isizeMax < usizeMax := by decide
      have hrlp : c.transmitTx.rlp = c.rlp := rfl
      rw [hrlp] at hfits
      refine (readInstruction_tag hreads.tags .transmitTx _).trans ?_
      show (programAnswer (X.romeEvm.transmitTxArgs (TransmitTx.layout
        (leBytes 8 c.resource.holderIndex.toNat) offset c.hash c.txBuilder.chainId data)) >>= _) = _
      rw [hreads.transmitTx _ _ _ _ _ (by simp only at hfits; omega), ← hhonest.chain]
      rfl
  | doTxHolder _ =>
      refine (readInstruction_tag hreads.tags .doTxHolder _).trans ?_
      show (programAnswer (X.romeEvm.doTxHolderArgs (leBytes 8 c.resource.holderIndex.toNat ++
        beBytes 32 c.hash.toNat ++ leBytes 8 c.txBuilder.chainId.toNat ++
        c.feeRecipient)) >>= _) = _
      rw [hreads.doTxHolder _ _ _ _ hhonest.fee, ← hhonest.chain]
      rfl
  | @doTxHolderIterative unique emulation session _ hunique =>
      refine (readInstruction_tag hreads.tags .doTxHolderIterative _).trans ?_
      show (programAnswer (X.romeEvm.doTxHolderIterativeArgs (leBytes 8 unique ++
        leBytes 8 session.toNat ++ leBytes 8 c.resource.holderIndex.toNat ++
        beBytes 32 c.hash.toNat ++ leBytes 8 c.txBuilder.chainId.toNat ++ c.feeRecipient ++
        emulation.lockOverrides)) >>= _) = _
      rw [hreads.doTxHolderIterative _ _ _ _ _ _ _ hunique hhonest.fee, ← hhonest.chain]
      rfl

end

/-! ## Who a transaction comes from -/

/-- A transaction comes from a client, or it is a deposit. -/
inductive Sender where
  | client (c : Client)
  | deposit (tx : Transaction)

namespace Sender

def hash : Sender → TxHash
  | .client c => c.hash
  | .deposit tx => tx.hash

def transaction : Sender → Transaction
  | .client c => c.transaction
  | .deposit tx => tx

def held : Sender → Bool
  | .client c => c.held
  | .deposit _ => false

/-- The data of an instruction, with what it carries. A deposit is whatever the parser reads as
one. -/
inductive Writes (X : Crates) (chainId : Nat) : Sender → Bytes → Cargo → Prop
  | client {c : Client} {data : Bytes} {cargo : Cargo} : c.Honest X chainId →
      c.Writes X data cargo → Writes X chainId (.client c) data cargo
  | deposit {tx : Transaction} {data : Bytes} :
      readInstruction X data = .ok (some (chainId, .deposit tx)) →
      Writes X chainId (.deposit tx) data (.deposit tx)

variable {X : Crates} {chainId : Nat} {s : Sender} {data : Bytes} {cargo : Cargo}

theorem Writes.read (hreads : X.romeEvm.ReadsTxData) (h : s.Writes X chainId data cargo) :
    readInstruction X data = .ok (some (chainId, cargo)) := by
  cases h with
  | client hhonest hwrites => exact hwrites.read hreads hhonest
  | deposit hread => exact hread

end Sender

namespace Visit

/-- The instruction is one of the sender's for the program. -/
structure Of (X : Crates) (programId : Pubkey) (chainId : Nat) (s : Sender) (cargo : Cargo)
    (v : Visit) : Prop where
  program : v.transaction.staticAccountKeys[v.instr.programIdIndex]? = some programId
  signed : v.transaction.signatures ≠ []
  writes : s.Writes X chainId v.instr.data cargo

variable {X : Crates} {programId : Pubkey} {chainId : Nat} {s : Sender} {cargo : Cargo} {v : Visit}

theorem Of.reading (hreads : X.romeEvm.ReadsTxData) (h : v.Of X programId chainId s cargo) :
    v.reading X programId = .ok (some (chainId, cargo)) := by
  simp only [Visit.reading, h.program, if_true]
  cases hsigs : v.transaction.signatures with
  | nil => exact absurd hsigs h.signed
  | cons _ _ => exact h.writes.read hreads

theorem Of.effect (hreads : X.romeEvm.ReadsTxData) (h : v.Of X programId chainId s cargo) :
    v.effect X programId chainId = cargo.effect X v.txMeta := by
  simp only [Visit.effect, h.reading hreads, effectOf, if_true]

theorem Of.returns (hreads : X.romeEvm.ReadsTxData) (h : v.Of X programId chainId s cargo) :
    v.Returns X programId := by
  rw [Visit.Returns, h.reading hreads]
  rfl

end Visit

/-- Blocks in which every instruction for the chain is one of a sender's, and a Solana
transaction carries one of them at most. A hash has one sender. -/
structure Traffic (X : Crates) (programId : Pubkey) (chainId : Nat)
    (senders : TxHash → Option Sender) (blocks : BTreeMap Slot UiConfirmedBlock) : Prop where
  hashes : ∀ hash s, senders hash = some s → s.hash = hash
  visits : ∀ (slot : Slot) block, blocks[slot]? = some block → ∀ v ∈ block.visits,
    (v.Returns X programId ∧ v.effect X programId chainId = .nothing) ∨
      ∃ hash s cargo, senders hash = some s ∧ v.Of X programId chainId s cargo
  alone : ∀ (slot : Slot) block, blocks[slot]? = some block → ∀ v ∈ block.visits,
    ∀ v' ∈ block.visits, v.txIdx = v'.txIdx → v.effect X programId chainId ≠ .nothing →
      v'.effect X programId chainId ≠ .nothing → v = v'

end RomeSdk
