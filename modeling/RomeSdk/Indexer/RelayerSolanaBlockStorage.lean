import RomeSdk.Indexer.BlockResponse
import RomeSdk.Lib.Machine
import RomeSdk.PgStorage.SolanaBlockStorage

/-!
# The storage of Solana blocks behind the relayer

`relayer/solana_block_storage.rs`. A block comes from the relayer each time it is not
in the cache, and of what comes only the slot is stored, in `sol_slot`. A slot that is
not finalized by then has a task of its own, which asks the relayer again until it
is, and then calls `set_finalized_slot`. The loader is not used beside this storage, so
nothing else writes the tables of Solana slots.
-/

namespace RomeSdk

namespace RelayerSolanaBlockStorage

/-- `tonic::Status`, the code as far as it is looked at. -/
structure Status where
  notFound : Bool
  display : String
  deriving DecidableEq, Repr

/-- The relayer and the memory of the process. -/
structure Side where
  /-- What the relayer is going to answer to `get_block`. -/
  blockAnswers : List (Except Status GetBlockResponse)
  /-- What it is going to answer to `get_slot`. -/
  slotAnswers : List (Except Status Slot)
  blockCache : HashMap Slot UiConfirmedBlock
  /-- The slots whose tasks wait for them to be finalized. -/
  rechecks : List Slot

abbrev World := Server UiConfirmedBlock × Side

def pool : Pool World UiConfirmedBlock := Server.pool.beside

/-- `i64::MAX` -/
def i64Max : Nat := 2 ^ 63 - 1

def unavailable : Status := ⟨false, "transport error"⟩

/-- `client.get_block`; where nothing is left to answer the relayer is gone. -/
def clientGetBlock : Eff World (Except Status GetBlockResponse) := fun w =>
  .ok (w.2.blockAnswers.headD (.error unavailable))
    (w.1, { w.2 with blockAnswers := w.2.blockAnswers.tail })

/-- `client.get_slot` -/
def clientGetSlot : Eff World (Except Status Slot) := fun w =>
  .ok (w.2.slotAnswers.headD (.error unavailable))
    (w.1, { w.2 with slotAnswers := w.2.slotAnswers.tail })

def cacheGet (slot : Slot) : Eff World (Option UiConfirmedBlock) := fun w =>
  .ok (w.2.blockCache.lookup slot) w

def cacheInsert (slot : Slot) (block : UiConfirmedBlock) : Eff World Unit := fun w =>
  .ok () (w.1, { w.2 with blockCache := w.2.blockCache.insert slot block })

/-- `task::spawn` of the task that waits for a slot that is not finalized. -/
def spawnRecheck (slot : Slot) (isFinalized : Bool) : Eff World Unit := fun w =>
  .ok () (w.1, { w.2 with rechecks := w.2.rechecks ++ if isFinalized then [] else [slot] })

def endRecheck (slot : Slot) : Eff World Unit := fun w =>
  .ok () (w.1, { w.2 with rechecks := w.2.rechecks.erase slot })

/-! ## The calls -/

/-- `INSERT INTO sol_slot .. ON CONFLICT DO NOTHING` -/
def insertSlot (slot : Slot) (block : UiConfirmedBlock) (isFinalized : Bool) (blockTime : Int)
    (db : Db UiConfirmedBlock) : Db UiConfirmedBlock :=
  let row : SolSlot :=
    ⟨block.parentSlot, if isFinalized then .finalized else .confirmed, some block.blockhash,
      some blockTime⟩
  { db with solSlot := db.solSlot.insertIfNew slot row }

/-- The statement with what it binds, which is read before there is a connection. -/
def storeSlot (slot : Slot) (block : UiConfirmedBlock) (isFinalized : Bool) : Eff World Unit :=
  match block.blockTime with
  | none => throw (.panic "called `Option::unwrap()` on a `None` value")
  | some blockTime => pool.transaction fun db => .ok ((), insertSlot slot block isFinalized blockTime db)

/-- What is done with a block that came from the relayer. -/
def keepBlock (slot : Slot) : UiConfirmedBlock × Bool → Eff World UiConfirmedBlock
  | (block, isFinalized) => do
      storeSlot slot block isFinalized
      spawnRecheck slot isFinalized
      cacheInsert slot block
      pure block

def askRelayer (D : Decoders) (slot : Slot) : Eff World (Option UiConfirmedBlock) := do
  match ← clientGetBlock with
  | .ok block =>
      let block ← keepBlock slot (castBlockResponseToUiBlock D block)
      pure (some block)
  | .error status =>
      if status.notFound then pure none else throw (.err (.relayerError status.display))

def getBlock (D : Decoders) (slot : Slot) : Eff World (Option UiConfirmedBlock) :=
  if i64Max < slot then
    throw (.err (.invalidSlot "out of range integral type conversion attempted"))
  else do
    match ← cacheGet slot with
    | some cachedUiBlock => pure (some cachedUiBlock)
    | none => askRelayer D slot

def getLastSlot : Eff World (Option Slot) := do
  match ← clientGetSlot with
  | .ok slot => pure (some slot)
  | .error status =>
      if status.notFound then pure none else throw (.err (.relayerError status.display))

def setFinalizedSlot (slot : Slot) : Eff World (BTreeMap Slot UiConfirmedBlock) :=
  pool.transaction fun db => .ok (PgStorage.setFinalizedSlot slot db)

def unexpectedCall (method : String) : Failure :=
  .panic ("Unexpected call to RelayerSolanaBlockStorage::" ++ method ++
    ".Probably, you misconfigured RollupIndexer. " ++
    "Relayer is not supposed to be used alongside with block loader.")

def storage (D : Decoders) : LoadingStorage World where
  getLastSlot := getLastSlot
  retainFromSlot _ := pure ()
  stored w slot := slot ∈ w.1.db.solSlot
  storeBlocks _ _ := throw (unexpectedCall "store_blocks")
  updateFinalizedBlocks _ := throw (unexpectedCall "update_finalized_blocks")
  getBlock := getBlock D
  setFinalizedSlot := setFinalizedSlot

/-- A turn of the loop of the task that waits for a slot; an error is logged. -/
def recheck (D : Decoders) (slot : Slot) : Eff World Unit := do
  match ← clientGetBlock with
  | .ok block =>
      if (castBlockResponseToUiBlock D block).2 then
        let _ ← (setFinalizedSlot slot).attempt
        endRecheck slot
      else pure ()
  | .error _ => pure ()

/-! ## Any sequence of calls -/

inductive Action where
  | getBlock (slot : Slot)
  | setFinalizedSlot (slot : Slot)
  /-- The task of the slot has a turn. -/
  | recheck (slot : Slot)
  /-- The cache drops a block, for its age or for want of space. -/
  | forget (slot : Slot)

def step (D : Decoders) (w : World) : Action → World → Prop
  | .getBlock slot, w' => w' = ((storage D).getBlock slot).after w
  | .setFinalizedSlot slot, w' => w' = ((storage D).setFinalizedSlot slot).after w
  | .recheck slot, w' => slot ∈ w.2.rechecks ∧ w' = (recheck D slot).after w
  | .forget slot, w' => w' = (w.1, { w.2 with blockCache := w.2.blockCache.erase slot })

/-- The tables of Solana slots are empty at first, whatever is in the others, and so are
the cache and the list of tasks. -/
def machine (D : Decoders) : Machine World Action where
  init w := w.1.db.solSlot = ∅ ∧ w.1.db.solBlock = ∅ ∧ w.2.blockCache = ∅ ∧ w.2.rechecks = []
  step := step D

end RelayerSolanaBlockStorage

end RomeSdk
