import RomeSdk.Indexer.SolanaClient
import RomeSdk.Indexer.RollupIndexer

/-!
# The block loader

`solana_block_loader.rs`. The loader stores the blocks of the slots up to the
last confirmed one in batches, then marks the last finalized slot, and compares
each block that became finalized by this with what the node has at its slot now.
A block that is different is loaded again and stored, and the indexer is told by
a reorg event from which slot on it has to start over.

The calls of a `join_all` run concurrently. They are written one after the
other here; none of them sees what another one does.
-/

namespace RomeSdk

/-- The calls of `SolanaBlockStorage` the loader makes beside those of the indexer. -/
structure LoadingStorage (σ : Type) extends SolanaBlockStorage σ where
  storeBlocks : BTreeMap Slot UiConfirmedBlock → Slot → Eff σ Unit
  updateFinalizedBlocks : BTreeMap Slot UiConfirmedBlock → Eff σ Unit
  getBlock : Slot → Eff σ (Option UiConfirmedBlock)
  setFinalizedSlot : Slot → Eff σ (BTreeMap Slot UiConfirmedBlock)

structure SolanaBlockLoader (σ : Type) where
  solanaBlockStorage : LoadingStorage σ
  client : SolanaClient σ
  commitment : CommitmentLevel
  programId : Pubkey
  batchSize : Slot
  blockRetries : Nat
  txRetries : Nat

/-- The sending end of the channel of reorg events. -/
abbrev ReorgSender (σ : Type) := Slot → Eff σ Unit

namespace SolanaBlockLoader

variable {σ : Type}

/-- `join_all(..).await.into_iter().collect::<ProgramResult<_>>()` -/
def collectResults {α : Type} : List (ProgramResult α) → ProgramResult (List α)
  | [] => .ok []
  | .ok a :: results => (collectResults results).map fun l => a :: l
  | .error e :: _ => .error e

/-! ## Loading a block -/

/-- The loop of `load_transaction` over the instructions. -/
def anyOfProgram (programId : Pubkey) (accounts : List Pubkey) :
    List CompiledInstruction → Outcome Bool
  | [] => .ok false
  | instruction :: instructions =>
      match accounts[instruction.programIdIndex]? with
      | none => .error (.panic "index out of bounds")
      | some account =>
          if account = programId then .ok true
          else anyOfProgram programId accounts instructions

def hasProgram (programId : Pubkey) (tx : EncodedTransactionWithStatusMeta) : Outcome Bool :=
  match tx.1 with
  | none => .ok false
  | some vt => anyOfProgram programId vt.staticAccountKeys vt.instructions

/-- An outcome read as a call. -/
def liftOutcome {α : Type} (r : Outcome α) : Eff σ α :=
  match r with
  | .ok a => pure a
  | .error e => throw e

def loadTransaction (L : SolanaBlockLoader σ) (signature : Signature)
    (commitment : CommitmentLevel) : Eff σ (Option EncodedTransactionWithStatusMeta) := do
  match ← L.client.getTransactionWithConfig signature commitment L.txRetries with
  | none => pure none
  | some tx =>
      let found ← liftOutcome (hasProgram L.programId tx)
      pure (if found then some tx else none)

def loadTransactions (L : SolanaBlockLoader σ) (commitment : CommitmentLevel)
    (signatures : List Signature) : Eff σ (Option (List EncodedTransactionWithStatusMeta)) := do
  let results ← RollupIndexer.joinAll (fun signature => L.loadTransaction signature commitment)
    signatures
  let txs ← Eff.ofResult (collectResults results)
  let txs := txs.filterMap id
  pure (if txs.isEmpty then none else some txs)

/-- The last and the first signature of a block, if both can be read. -/
def signatureBounds (X : Crates) (block : RpcBlock) : Option (Signature × Signature) := do
  let sigs ← block.signatures
  let before ← sigs.getLast?.bind (Signature.fromStr X)
  let until_ ← sigs.head?.bind (Signature.fromStr X)
  pure (before, until_)

def loadBlockTransactions (X : Crates) (L : SolanaBlockLoader σ) (block : RpcBlock)
    (commitment : CommitmentLevel) : Eff σ UiConfirmedBlock := do
  match signatureBounds X block with
  | none => pure block.toUiConfirmedBlock
  | some (before, until_) =>
      let statuses ← L.client.getSignaturesForAddressWithConfig L.programId
        ⟨some before, some until_, none, some commitment⟩
      let txSignatures := (before :: (statuses.filterMap (Signature.fromStr X) ++ [until_])).reverse
      let transactions ← L.loadTransactions commitment txSignatures
      pure { block.toUiConfirmedBlock with transactions := transactions }

def loadBlock (X : Crates) (L : SolanaBlockLoader σ) (commitment : CommitmentLevel)
    (slotNumber : Slot) : Eff σ (Option UiConfirmedBlock) := do
  match ← L.client.getBlockWithConfig slotNumber ⟨some .signatures, commitment⟩ L.blockRetries with
  | none => pure none
  | some block =>
      let block ← L.loadBlockTransactions X block commitment
      pure (some block)

/-! ## Loading a batch -/

/-- The blocks of the slots that have one. -/
def loadedBlocks : List (Slot × ProgramResult (Option UiConfirmedBlock)) →
    BTreeMap Slot UiConfirmedBlock
  | [] => ∅
  | (slot, .ok (some block)) :: results => (loadedBlocks results).insert slot block
  | (_, _) :: results => loadedBlocks results

/-- The slots that could not be loaded. -/
def failedSlots (results : List (Slot × ProgramResult (Option UiConfirmedBlock))) : List Slot :=
  results.filterMap fun (slot, result) =>
    match result with
    | .error _ => some slot
    | .ok _ => none

/-- `{:?}` of a set of slots. -/
def debugSlots (slots : List Slot) : String :=
  "\x7b" ++ String.intercalate ", " (slots.map toString) ++ "\x7d"

/-- The slots are in the order in which the set runs through them. -/
def loadBlocks (X : Crates) (L : SolanaBlockLoader σ) (slots : List Slot) :
    Eff σ (BTreeMap Slot UiConfirmedBlock) := do
  let results ← RollupIndexer.joinAll (L.loadBlock X L.commitment) slots
  let results := slots.zip results
  if (failedSlots results).isEmpty then pure (loadedBlocks results)
  else throw (.err (.custom ("Failed to load blocks on slots " ++ debugSlots (failedSlots results))))

def preloadBlocks (X : Crates) (L : SolanaBlockLoader σ) (fromSlot maxSlot finalizedSlot : Slot) :
    Eff σ Slot := do
  let toSlot := fromSlot + min (maxSlot - fromSlot) L.batchSize
  let blocks ← L.loadBlocks X (List.range' fromSlot (toSlot - fromSlot))
  L.solanaBlockStorage.storeBlocks blocks finalizedSlot
  pure toSlot

/-! ## Rechecking what became finalized -/

def recheckFinalizedBlock (X : Crates) (L : SolanaBlockLoader σ) (slotNumber : Slot)
    (block : UiConfirmedBlock) : Eff σ (Option UiConfirmedBlock) := do
  match ← (L.client.getBlockWithConfig slotNumber ⟨none, .finalized⟩ L.blockRetries).attempt with
  | .ok (some finalizedBlock) =>
      if finalizedBlock.blockhash ≠ block.blockhash then L.loadBlock X .finalized slotNumber
      else pure none
  | .ok none => pure none
  | .error e =>
      throw (.err (.custom ("Failed to recheck block " ++ toString slotNumber ++ ": " ++ e.debug)))

/-- The loop of `recheck_finalized_blocks`. -/
def updatedBlocks : List (Slot × ProgramResult (Option UiConfirmedBlock)) →
    BTreeMap Slot UiConfirmedBlock → ProgramResult (BTreeMap Slot UiConfirmedBlock)
  | [], updated => .ok updated
  | (slotNumber, .ok (some block)) :: results, updated =>
      updatedBlocks results (updated.insert slotNumber block)
  | (_, .ok none) :: results, updated => updatedBlocks results updated
  | (_, .error e) :: _, _ => .error e

/-- `first_key_value` -/
def firstSlot (blocks : BTreeMap Slot UiConfirmedBlock) : Option Slot :=
  blocks.toList.head?.map Prod.fst

/-- A failure to send is logged and dropped. -/
def sendReorg (reorgEventTx : ReorgSender σ) (resetFromSlot : Option Slot) : Eff σ Unit :=
  match resetFromSlot with
  | none => pure ()
  | some slotNumber => do
      let _ ← (reorgEventTx slotNumber).attempt
      pure ()

def recheckFinalizedBlocks (X : Crates) (L : SolanaBlockLoader σ)
    (blocks : BTreeMap Slot UiConfirmedBlock) (reorgEventTx : ReorgSender σ) : Eff σ Unit := do
  let results ← RollupIndexer.joinAll (fun e => L.recheckFinalizedBlock X e.1 e.2) blocks.toList
  let updated ← Eff.ofResult (updatedBlocks ((blocks.toList.map Prod.fst).zip results) ∅)
  let resetFromSlot := firstSlot updated
  L.solanaBlockStorage.updateFinalizedBlocks updated
  sendReorg reorgEventTx resetFromSlot

def updateFinalizedSlot (X : Crates) (L : SolanaBlockLoader σ) (finalizedSlot : Slot)
    (reorgEventTx : ReorgSender σ) : Eff σ Unit := do
  let blocks ← L.solanaBlockStorage.setFinalizedSlot finalizedSlot
  L.recheckFinalizedBlocks X blocks reorgEventTx

/-! ## Keeping in sync -/

def getLatestSlots (L : SolanaBlockLoader σ) : Eff σ (Slot × Slot) := do
  let confirmed ← (L.client.getSlotWithCommitment .confirmed).attempt
  let finalized ← (L.client.getSlotWithCommitment .finalized).attempt
  match confirmed, finalized with
  | .ok confirmedSlot, .ok finalizedSlot => pure (confirmedSlot, finalizedSlot)
  | _, _ => throw (.err (.custom "Failed to get latest slots from Solana"))

/-- The inner loop of `preload_blocks_until_in_sync`. A batch takes at least one
slot, so as many rounds as there are slots are enough. -/
def preloadLoop (X : Crates) (L : SolanaBlockLoader σ) (toSlot finalizedSlot : Slot) :
    Nat → Slot → Eff σ Unit
  | rounds, currentSlot =>
      if currentSlot < toSlot then
        match rounds with
        | 0 => throw (.panic "unreachable")
        | rounds + 1 => do
            let newCurrentSlot ← L.preloadBlocks X currentSlot toSlot finalizedSlot
            L.preloadLoop X toSlot finalizedSlot rounds newCurrentSlot
      else pure ()

theorem preloadBlocks_slot {X : Crates} {L : SolanaBlockLoader σ}
    {fromSlot maxSlot finalizedSlot slot : Slot} {s t : σ}
    (h : L.preloadBlocks X fromSlot maxSlot finalizedSlot s = .ok slot t) :
    slot = fromSlot + min (maxSlot - fromSlot) L.batchSize := by
  obtain ⟨blocks, u, _, h⟩ := EStateM.bind_ok h
  obtain ⟨_, u', _, h⟩ := EStateM.bind_ok h
  cases h
  rfl

/-- The loop goes over the pieces the interval is cut into, as the indexer's does. -/
theorem preloadLoop_eq_forM (X : Crates) (L : SolanaBlockLoader σ) (hbatch : 0 < L.batchSize)
    {toSlot finalizedSlot : Slot} (rounds : Nat) {currentSlot : Slot}
    (hle : toSlot - currentSlot ≤ rounds) :
    L.preloadLoop X toSlot finalizedSlot rounds currentSlot
      = (pieces L.batchSize currentSlot toSlot).forM fun batch =>
          discard (L.preloadBlocks X batch.1 toSlot finalizedSlot) := by
  refine loop_eq_forM (L.preloadLoop X toSlot finalizedSlot)
    (fun slot => L.preloadBlocks X slot toSlot finalizedSlot) hbatch ?_ ?_ ?_ rounds hle
  · intro rounds currentSlot hend
    unfold preloadLoop
    rw [if_neg hend]
  · intro rounds currentSlot hlt
    unfold preloadLoop
    rw [if_pos hlt]
  · intro currentSlot _
    exact EStateM.eq_discard fun s slot t h => preloadBlocks_slot h

/-- Where a turn of the loop of `preload_blocks_until_in_sync` leaves it. -/
inductive Turn where
  | goOn (fromSlot : Slot)
  | inSync (fromSlot : Slot)
  deriving DecidableEq, Repr

/-- The slot to go on from in either case. -/
def Turn.slot : Turn → Slot
  | .goOn fromSlot => fromSlot
  | .inSync fromSlot => fromSlot

/-- The turn, given the answer of `get_latest_slots`. -/
def syncTo (X : Crates) (L : SolanaBlockLoader σ) (fromSlot : Slot) (reorgEventTx : ReorgSender σ)
    (latestSlots : ProgramResult (Slot × Slot)) : Eff σ Turn :=
  match latestSlots with
  | .ok (toSlot, finalizedSlot) =>
      if fromSlot < toSlot then do
        L.preloadLoop X toSlot finalizedSlot (toSlot - fromSlot) fromSlot
        L.updateFinalizedSlot X finalizedSlot reorgEventTx
        pure (.goOn toSlot)
      else do
        L.updateFinalizedSlot X finalizedSlot reorgEventTx
        pure (.inSync fromSlot)
  | .error _ => pure (.goOn fromSlot)

/-- The body of the loop. -/
def syncTurn (X : Crates) (L : SolanaBlockLoader σ) (fromSlot : Slot)
    (reorgEventTx : ReorgSender σ) : Eff σ Turn := do
  let latestSlots ← L.getLatestSlots.attempt
  L.syncTo X fromSlot reorgEventTx latestSlots

/-- The slot `start_loading` begins with. -/
def startFrom (L : SolanaBlockLoader σ) (startSlot : Option Slot) : Eff σ Slot := do
  let lastSlot ← L.solanaBlockStorage.getLastSlot
  match lastSlot <|> startSlot with
  | some fromSlot => pure fromSlot
  | none => throw (.err (.custom ("start_slot is not set and there's no registered blocks in "
      ++ "SolanaBlockStorage")))

end SolanaBlockLoader

end RomeSdk
