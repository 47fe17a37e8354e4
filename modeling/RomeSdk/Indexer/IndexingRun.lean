import RomeSdk.Indexer.LoaderRun
import RomeSdk.PgStorage.StorageRun

/-!
# Runs of a standalone indexer

`start_indexing` of `standalone_indexer.rs`: the rollup indexer and the block loader over one
database. The loader stores one batch of blocks after the other and marks slots as finalized;
the indexer takes the slots below the last stored one batch by batch, and waits. Each of the
two goes on at any time, also while the other one is between two batches.

What the loader does after `set_finalized_slot` changes nothing in the database as long as the
node keeps its blocks, and it is left out. So is what comes after a call that failed, for the
indexer, which ends with it; the loader begins its call again.
-/

namespace RomeSdk

/-! ## The indexer over the database -/

/-- What the calls of the rollup indexer work on: the database, the records of the transaction
parser, what is the producer's own, and what is going to happen to the reads of each call of
`parse` to come. -/
structure IndexerWorld (γ : Type) where
  server : Server UiConfirmedBlock
  txParser : DefaultTxParser
  producer : γ
  reads : List (Slot → Nat → Option RomeEvmError)

namespace IndexerWorld

variable {γ : Type}

def pool : Pool (IndexerWorld γ) UiConfirmedBlock where
  get := Server.get.zoom IndexerWorld.server fun w server => { w with server := server }
  read w := w.server.db
  write db w := { w with server := { w.server with db := db } }

section

variable {α : Type} {w w' : IndexerWorld γ}

theorem transaction_zoom (f : Db UiConfirmedBlock → Outcome (α × Db UiConfirmedBlock)) :
    pool.transaction f = ((Server.pool.transaction f).zoom IndexerWorld.server
      fun w server => { w with server := server } : Eff (IndexerWorld γ) α) := by
  funext w
  simp only [Pool.transaction, pool, Server.pool, bind, EStateM.bind, EStateM.zoom]
  cases Server.get w.server with
  | error e u => rfl
  | ok _ u =>
      simp only [EStateM.get_apply]
      cases f u.db <;> rfl

theorem query_ok {f : Db UiConfirmedBlock → Outcome α} {a : α} (h : pool.query f w = .ok a w') :
    f w.server.db = .ok a ∧ ∃ faults, w' = { w with server := ⟨w.server.db, faults⟩ } := by
  rw [Pool.query, transaction_zoom] at h
  obtain ⟨u, hu, rfl⟩ := EStateM.ok_of_zoom h
  have hdb := Server.transaction_ok hu
  cases hf : f w.server.db with
  | error e =>
      rw [hf] at hdb
      cases hdb
  | ok b =>
      rw [hf] at hdb
      simp only [Except.map, Except.ok.injEq, Prod.mk.injEq] at hdb
      obtain ⟨rfl, hsame⟩ := hdb
      rw [hsame]
      exact ⟨rfl, u.faults, rfl⟩

theorem query_err {f : Db UiConfirmedBlock → Outcome α} {e : Failure}
    (h : pool.query f w = .error e w') :
    ∃ faults, w' = { w with server := ⟨w.server.db, faults⟩ } := by
  rw [Pool.query, transaction_zoom, EStateM.zoom] at h
  cases hquery : Server.pool.transaction (fun db => (f db).map fun a => (a, db)) w.server with
  | ok a u =>
      rw [hquery] at h
      cases h
  | error e' u =>
      rw [hquery] at h
      cases h
      rw [← Server.transaction_err hquery]
      exact ⟨u.faults, rfl⟩

/-- A query changes nothing, and its answer is that of the database. -/
theorem query_attempt {f : Db UiConfirmedBlock → Outcome α} {answer : ProgramResult α}
    (h : (pool.query f).attempt w = .ok answer w') :
    (∃ faults, w' = { w with server := ⟨w.server.db, faults⟩ }) ∧
      ∀ a, answer = .ok a → f w.server.db = .ok a := by
  rw [Eff.attempt] at h
  cases hquery : pool.query f w with
  | ok a u =>
      rw [hquery] at h
      cases h
      obtain ⟨hf, hsame⟩ := query_ok hquery
      refine ⟨hsame, fun b hb => ?_⟩
      cases hb
      exact hf
  | error e u =>
      rw [hquery] at h
      cases e with
      | err e =>
          cases h
          exact ⟨query_err hquery, fun a ha => by cases ha⟩
      | panic message => cases h

end

/-- `get_block` of the storage, for one read. -/
def storedBlock (db : Db UiConfirmedBlock) (read : Slot → Nat → Option RomeEvmError) (slot : Slot)
    (attempt : Nat) : ProgramResult (Option UiConfirmedBlock) :=
  match read slot attempt with
  | some e => .error e
  | none => .ok (db.solBlock.lookup slot)

/-- `block_parser.parse` over the storage. -/
def parse (X : Crates) (bp : BlockParser) (slot : Slot) (maxBlocks : Nat) :
    Eff (IndexerWorld γ) (Option BlockParseResult) := fun w =>
  let read := w.reads.headD fun _ _ => none
  let blockParser : BlockParser := { bp with getBlock := storedBlock w.server.db read }
  match blockParser.parse X slot maxBlocks w.txParser with
  | (txParser, .ok parseResult) =>
      .ok parseResult { w with txParser := txParser, reads := w.reads.tail }
  | (txParser, .error e) => .error e { w with txParser := txParser, reads := w.reads.tail }

/-- The producer's calls, on what is its own. -/
def producing (P : BlockProducer γ) : BlockProducer (IndexerWorld γ) where
  lastProducedBlock := P.lastProducedBlock.zoom IndexerWorld.producer
    fun w producer => { w with producer := producer }
  getBlockParams blockNumber := (P.getBlockParams blockNumber).zoom IndexerWorld.producer
    fun w producer => { w with producer := producer }
  produceBlocks params limit := (P.produceBlocks params limit).zoom IndexerWorld.producer
    fun w producer => { w with producer := producer }

end IndexerWorld

namespace PgStorage

variable {γ : Type}

/-- The indexer over the storages of `pg_storage`. Of the block parser only the configuration
is used. -/
def rollupIndexer (X : StorageCrates) (bp : BlockParser) (P : Option (BlockProducer γ))
    (maxSlotHistory : Option Slot) : RollupIndexer (IndexerWorld γ) where
  parse := IndexerWorld.parse X.toCrates bp
  retainParsed fromSlot :=
    modify fun w => { w with txParser := w.txParser.retainFromSlot fromSlot }
  solanaBlockStorage := (solanaBlockStorage IndexerWorld.pool).toSolanaBlockStorage
  ethereumBlockStorage := ethereumBlockStorage X IndexerWorld.pool
  blockProducer := P.map IndexerWorld.producing
  maxSlotHistory := maxSlotHistory

end PgStorage

/-! ## The two tasks -/

/-- Where the rollup indexer is: before a call of `restore_or_produce_until_in_sync`, or in one,
between two batches. -/
inductive IndexerPhase where
  | waiting (fromSlot : Slot)
  | walking (currentSlot toSlot : Slot)
  deriving DecidableEq, Repr

/-- The slot the indexer goes on from. -/
def IndexerPhase.slot : IndexerPhase → Slot
  | .waiting fromSlot => fromSlot
  | .walking currentSlot _ => currentSlot

/-- Where a batch leads. -/
def IndexerPhase.after (toSlot newCurrentSlot : Slot) : IndexerPhase :=
  if newCurrentSlot < toSlot then .walking newCurrentSlot toSlot else .waiting toSlot

structure IndexingState (γ : Type) where
  db : Db UiConfirmedBlock
  node : NodeWorld
  /-- Where the loader goes on, and where its running call began. -/
  loadFrom : Slot
  callFrom : Slot
  txParser : DefaultTxParser
  producer : γ
  phase : IndexerPhase

namespace IndexingState

variable {γ : Type}

/-- What a call of the indexer finds, with the faults it will meet. -/
def enter (s : IndexingState γ) (faults : List (Option Failure))
    (reads : List (Slot → Nat → Option RomeEvmError)) : IndexerWorld γ :=
  ⟨⟨s.db, faults⟩, s.txParser, s.producer, reads⟩

/-- The state after a call of the indexer that came to the world `w`. -/
def leave (s : IndexingState γ) (w : IndexerWorld γ) (phase : IndexerPhase) : IndexingState γ :=
  { s with db := w.server.db, txParser := w.txParser, producer := w.producer, phase := phase }

/-- The state after the loader's next batch, which begins its call again if it fails. -/
def preloaded (s : IndexingState γ) : EStateM.Result Failure LoaderWorld Slot → IndexingState γ
  | .ok slot w => { s with db := w.1.db, node := w.2, loadFrom := slot }
  | .error _ w => { s with db := w.1.db, node := w.2, loadFrom := s.callFrom }

end IndexingState

inductive IndexingAction where
  /-- The loader's `preload_blocks`, with the last confirmed and the last finalized slot. -/
  | preload (maxSlot finalizedSlot : Slot) (faults : List (Option Failure))
  /-- The loader's call has come to the last confirmed slot. -/
  | inSync
  /-- The transaction of the loader's `set_finalized_slot`. -/
  | setFinalized (finalizedSlot : Slot)
  /-- The loader is started again. -/
  | startLoader
  /-- The indexer asks for the last stored slot, and there are slots to go over. -/
  | look
  /-- The indexer's next batch. -/
  | batch (faults : List (Option Failure)) (reads : List (Slot → Nat → Option RomeEvmError))

namespace StandaloneIndexer

variable {γ : Type}

def indexingStep (X : Crates) (L : SolanaBlockLoader LoaderWorld)
    (I : RollupIndexer (IndexerWorld γ)) (startSlot batchSize : Slot) (s : IndexingState γ) :
    IndexingAction → IndexingState γ → Prop
  | .preload maxSlot finalizedSlot faults, t =>
      s.loadFrom < maxSlot ∧ t = s.preloaded
        (L.preloadBlocks X s.loadFrom maxSlot finalizedSlot (⟨s.db, faults⟩, s.node))
  | .inSync, t => t = { s with callFrom := s.loadFrom }
  | .setFinalized finalizedSlot, t =>
      t = { s with db := (PgStorage.setFinalizedSlot finalizedSlot s.db).2 }
  | .startLoader, t =>
      t = { s with
        loadFrom := (PgStorage.getLastSlot s.db).getD startSlot
        callFrom := (PgStorage.getLastSlot s.db).getD startSlot }
  | .look, t =>
      ∃ fromSlot toSlot : Slot, s.phase = .waiting fromSlot ∧
        PgStorage.getLastSlot s.db = some toSlot ∧ fromSlot < toSlot ∧
        t = { s with phase := .walking fromSlot toSlot }
  | .batch faults reads, t =>
      ∃ (currentSlot toSlot newCurrentSlot : Slot) (w : IndexerWorld γ),
        s.phase = .walking currentSlot toSlot ∧
        I.syncRound toSlot batchSize currentSlot (s.enter faults reads) = .ok newCurrentSlot w ∧
        t = s.leave w (.after toSlot newCurrentSlot)

/-- The two tasks over an empty database, when they have just been spawned. -/
def indexingMachine (X : Crates) (L : SolanaBlockLoader LoaderWorld)
    (I : RollupIndexer (IndexerWorld γ)) (startSlot batchSize : Slot) :
    Machine (IndexingState γ) IndexingAction where
  init s := s.db = Db.empty ∧ s.loadFrom = startSlot ∧ s.callFrom = startSlot ∧
    s.txParser = .new ∧ s.phase = .waiting startSlot
  step := indexingStep X L I startSlot batchSize

section

variable {X : Crates} {L : SolanaBlockLoader LoaderWorld} {I : RollupIndexer (IndexerWorld γ)}
  {startSlot batchSize toSlot fromSlot slot : Slot}

/-- The inner loop of a call is made of batches. -/
theorem syncLoop_run (rounds : Nat) :
    ∀ (s : IndexingState γ) {currentSlot : Slot} (faults : List (Option Failure))
      (reads : List (Slot → Nat → Option RomeEvmError)) {w : IndexerWorld γ},
      s.phase = .walking currentSlot toSlot → currentSlot < toSlot →
      I.syncLoop toSlot batchSize rounds currentSlot (s.enter faults reads) = .ok () w →
      ∃ tr, Machine.Run ((indexingMachine X L I startSlot batchSize).startingAt s) tr
        (s.leave w (.waiting toSlot)) := by
  induction rounds with
  | zero =>
      intro s currentSlot faults reads w _ hlt h
      unfold RollupIndexer.syncLoop at h
      rw [if_pos hlt] at h
      cases h
  | succ rounds ih =>
      intro s currentSlot faults reads w hphase hlt h
      unfold RollupIndexer.syncLoop at h
      rw [if_pos hlt] at h
      obtain ⟨newCurrentSlot, u, hround, hrest⟩ := EStateM.bind_ok h
      have hstep : ((indexingMachine X L I startSlot batchSize).startingAt s).step s
          (.batch faults reads) (s.leave u (.after toSlot newCurrentSlot)) :=
        ⟨currentSlot, toSlot, newCurrentSlot, u, hphase, hround, rfl⟩
      have hbatch := (Machine.Run.start rfl).next hstep
      by_cases hmore : newCurrentSlot < toSlot
      · rw [IndexerPhase.after, if_pos hmore] at hbatch
        -- the state between two batches is what the next one finds
        obtain ⟨tr, htr⟩ := ih (s.leave u (.walking newCurrentSlot toSlot)) u.server.faults
          u.reads rfl hmore hrest
        exact ⟨_, hbatch.append htr⟩
      · rw [IndexerPhase.after, if_neg hmore] at hbatch
        unfold RollupIndexer.syncLoop at hrest
        rw [if_neg hmore] at hrest
        cases hrest
        exact ⟨_, hbatch⟩

/-- A call of `restore_or_produce_until_in_sync` that ends well is made of these steps. -/
theorem sync_run {E : StorageCrates} {bp : BlockParser} {P : Option (BlockProducer γ)}
    {maxSlotHistory : Option Slot} {s : IndexingState γ} {faults : List (Option Failure)}
    {reads : List (Slot → Nat → Option RomeEvmError)} {w : IndexerWorld γ}
    (hphase : s.phase = .waiting fromSlot)
    (h : (PgStorage.rollupIndexer E bp P maxSlotHistory).restoreOrProduceUntilInSync fromSlot
      batchSize (s.enter faults reads) = .ok slot w) :
    ∃ tr, Machine.Run ((indexingMachine X L (PgStorage.rollupIndexer E bp P maxSlotHistory)
      startSlot batchSize).startingAt s) tr (s.leave w (.waiting slot)) := by
  obtain ⟨answer, u, hlast, h⟩ := EStateM.bind_ok h
  obtain ⟨⟨faults', hu⟩, hanswer⟩ := IndexerWorld.query_attempt
    (f := fun db => .ok (PgStorage.getLastSlot db)) hlast
  -- the call may do nothing
  have hwaits : (pure fromSlot : Eff (IndexerWorld γ) Slot) u = .ok slot w →
      s = s.leave w (.waiting slot) := by
    intro hpure
    obtain ⟨hslot, hw⟩ := EStateM.Result.ok.inj hpure
    rw [← hslot, ← hw, hu, ← hphase]
    rfl
  cases answer with
  | error e => exact ⟨[], .start (hwaits h).symm⟩
  | ok last =>
      cases last with
      | none => exact ⟨[], .start (hwaits h).symm⟩
      | some toSlot =>
          simp only at h
          split at h
          · next hlt =>
              obtain ⟨_, v, hloop, hdone⟩ := EStateM.bind_ok h
              obtain ⟨rfl, rfl⟩ := EStateM.Result.ok.inj hdone
              have hsome : PgStorage.getLastSlot s.db = some toSlot :=
                Except.ok.inj (hanswer _ rfl)
              have hlook : ((indexingMachine X L (PgStorage.rollupIndexer E bp P maxSlotHistory)
                  startSlot batchSize).startingAt s).step s .look
                  { s with phase := .walking fromSlot toSlot } :=
                ⟨fromSlot, toSlot, hphase, hsome, hlt, rfl⟩
              rw [hu] at hloop
              obtain ⟨tr, htr⟩ := syncLoop_run _ { s with phase := .walking fromSlot toSlot }
                faults' reads rfl hlt hloop
              exact ⟨_, ((Machine.Run.start rfl).next hlook).append htr⟩
          · exact ⟨[], .start (hwaits h).symm⟩

end

end StandaloneIndexer

end RomeSdk
