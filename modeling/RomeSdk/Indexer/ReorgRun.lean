import RomeSdk.Indexer.SolanaBlockLoader
import RomeSdk.Indexer.Run

/-!
# The loader and the indexer side by side

The two services share the storages and the channel of reorg events. What is
seen of either is the order of its calls: the loader replaces blocks and then
sends the event for the lowest of them; the indexer takes an event and cleans, or
parses the slots of a batch and registers the results. The calls of the two
interleave in any way. The storages survive a restart; the channel, and what a
service has in hand, do not. (`retain_from_slot` drops nothing in any storage, so
there is no step for it.)

Each stored eth block remembers the Solana block it was parsed from.
-/

namespace RomeSdk

/-- The calls of the loader that were answered. -/
inductive LoaderCall where
  | stored (blocks : BTreeMap Slot UiConfirmedBlock)
  | updated (blocks : BTreeMap Slot UiConfirmedBlock)
  | sent (slotNumber : Slot)

namespace SolanaBlockLoader

variable {σ : Type}

def recordingStorage (S : LoadingStorage σ) : LoadingStorage (σ × List LoaderCall) where
  getLastSlot := S.getLastSlot.unrecorded
  retainFromSlot fromSlot := (S.retainFromSlot fromSlot).unrecorded
  stored st := S.stored st.1
  storeBlocks blocks finalizedSlot :=
    (S.storeBlocks blocks finalizedSlot).recorded fun _ => some (.stored blocks)
  updateFinalizedBlocks blocks :=
    (S.updateFinalizedBlocks blocks).recorded fun _ => some (.updated blocks)
  getBlock slotNumber := (S.getBlock slotNumber).unrecorded
  setFinalizedSlot slot := (S.setFinalizedSlot slot).unrecorded

def recordingClient (C : SolanaClient σ) : SolanaClient (σ × List LoaderCall) where
  getTransactionWithConfig signature commitment retries :=
    (C.getTransactionWithConfig signature commitment retries).unrecorded
  getSignaturesForAddressWithConfig address config :=
    (C.getSignaturesForAddressWithConfig address config).unrecorded
  getBlockWithConfig slot config retries := (C.getBlockWithConfig slot config retries).unrecorded
  getSlotWithCommitment level := (C.getSlotWithCommitment level).unrecorded

/-- The same loader, with a record of its calls. -/
def recording (L : SolanaBlockLoader σ) : SolanaBlockLoader (σ × List LoaderCall) :=
  { L with
    solanaBlockStorage := recordingStorage L.solanaBlockStorage
    client := recordingClient L.client }

def recordingSender (reorgEventTx : ReorgSender σ) : ReorgSender (σ × List LoaderCall) :=
  fun slot => (reorgEventTx slot).recorded fun _ => some (.sent slot)

end SolanaBlockLoader

/-! ## Both services -/

/-- A result of the batch in hand, and the Solana block it was parsed from. -/
structure ParsedSlot where
  slotNumber : Slot
  parseResult : BlockParseResult
  origin : UiConfirmedBlock
  deriving DecidableEq

structure ReorgState where
  solanaBlocks : Slot → Option UiConfirmedBlock
  /-- The stored eth blocks, each with the Solana block it was parsed from. -/
  ethBlocks : EthBlockId → Option UiConfirmedBlock
  /-- The events in the channel, the oldest first. -/
  reorgEvents : List Slot
  /-- The loader has replaced blocks from this slot on and is about to send the event. -/
  sending : Option Slot
  /-- The indexer has taken this event and is about to clean. -/
  cleaning : Option Slot
  batch : List ParsedSlot
  /-- The indexer holds the receiving end of the channel. -/
  indexing : Bool

namespace ReorgState

/-- The eth blocks once the results are registered: those that are stored stay, and
the blocks of a result come from the Solana block the result was parsed from. -/
def registerAll (s : ReorgState) (results : BTreeMap Slot BlockParseResult) (id : EthBlockId) :
    Option UiConfirmedBlock :=
  match s.ethBlocks id with
  | some origin => some origin
  | none =>
      match results[id.1]? with
      | none => none
      | some parseResult =>
          if id.2 < parseResult.ethBlocks.length then
            (s.batch.find? fun p => p.slotNumber = id.1 ∧ p.parseResult = parseResult).map
              ParsedSlot.origin
          else none

def parse (s : ReorgState) (slotNumber : Slot) (parseResult : BlockParseResult)
    (origin : UiConfirmedBlock) : ReorgState :=
  { s with batch := s.batch ++ [⟨slotNumber, parseResult, origin⟩] }

end ReorgState

inductive ReorgAction where
  | loader (call : LoaderCall)
  /-- The event in hand cannot be sent, for nobody receives any more. -/
  | sendFailed
  /-- The indexer takes the oldest event from the channel. -/
  | received
  | indexer (call : Call)
  /-- The indexer's loop is left: what it holds is gone, the channel included. -/
  | indexerEnded
  /-- The process ends, at any point, and is started again. -/
  | restarted

/-- The steps. `chain` is the finalized chain the loader reloads blocks from. -/
def reorgStep (chain : Slot → Option UiConfirmedBlock) (s : ReorgState) :
    ReorgAction → ReorgState → Prop
  | .loader (.stored blocks), t =>
      s.sending = none ∧
        t = { s with solanaBlocks := fun slot => s.solanaBlocks slot <|> blocks[slot]? }
  | .loader (.updated blocks), t =>
      s.sending = none ∧
        (∀ (slot : Slot) (block : UiConfirmedBlock), blocks[slot]? = some block →
          chain slot = some block ∧ s.solanaBlocks slot ≠ some block) ∧
        t = { s with
          solanaBlocks := fun slot => blocks[slot]? <|> s.solanaBlocks slot
          sending := SolanaBlockLoader.firstSlot blocks }
  | .loader (.sent slotNumber), t =>
      s.sending = some slotNumber ∧ s.indexing = true ∧
        t = { s with reorgEvents := s.reorgEvents ++ [slotNumber], sending := none }
  | .sendFailed, t => s.indexing = false ∧ t = { s with sending := none }
  | .received, t =>
      s.indexing = true ∧ s.cleaning = none ∧ s.batch = [] ∧
        ∃ slotNumber rest, s.reorgEvents = slotNumber :: rest ∧
          t = { s with reorgEvents := rest, cleaning := some slotNumber }
  | .indexer (.cleaned fromSlot), t =>
      s.cleaning = some fromSlot ∧
        t = { s with
          ethBlocks := fun id => if fromSlot ≤ id.1 then none else s.ethBlocks id
          cleaning := none }
  | .indexer (.parsed _ none), t => s.indexing = true ∧ s.cleaning = none ∧ t = s
  | .indexer (.parsed slotNumber (some parseResult)), t =>
      s.indexing = true ∧ s.cleaning = none ∧
        ∃ origin, s.solanaBlocks slotNumber = some origin ∧
          t = s.parse slotNumber parseResult origin
  | .indexer (.registered results), t =>
      (∀ (slot : Slot) (parseResult : BlockParseResult), results[slot]? = some parseResult →
        ∃ p ∈ s.batch, p.slotNumber = slot ∧ p.parseResult = parseResult) ∧
      t = { s with ethBlocks := s.registerAll results, batch := [] }
  | .indexerEnded, t =>
      t = { s with reorgEvents := [], cleaning := none, batch := [], indexing := false }
  | .restarted, t =>
      t = { s with
        reorgEvents := []
        sending := none
        cleaning := none
        batch := []
        indexing := true }

/-- Both services over empty storages. -/
def reorgMachine (chain : Slot → Option UiConfirmedBlock) : Machine ReorgState ReorgAction where
  init s := s = ⟨fun _ => none, fun _ => none, [], none, none, [], true⟩
  step := reorgStep chain

end RomeSdk
