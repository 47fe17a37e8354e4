import RomeSdk.Indexer.IndexingRun
import RomeSdk.Proofs.FinalizedAncestors
import RomeSdk.Proofs.StorageForm

/-!
# What a standalone indexer serves

The loader and the indexer run over one database, in any order. The blocks stored are those of the
chain from the first slot up to a slot, the results registered are those of the slots the indexer
has passed, and nothing is ever taken back. From this follows what the lookup of a transaction
answers at any time.
-/

namespace RomeSdk

open PgStorage

/-! ## The calls of the indexer and the database -/

/-- The transactions of `blocks_produced`. -/
def PgStorage.StorageAction.Records : StorageAction → Prop
  | .recordParams _ _ => True
  | .recordReceipts _ _ => True
  | _ => False

namespace IndexerWorld

variable {γ α : Type} {X : StorageCrates} {w w' : IndexerWorld γ}
  {f : Db UiConfirmedBlock → Outcome (α × Db UiConfirmedBlock)}

theorem transaction_ok {a : α} (h : pool.transaction f w = .ok a w') :
    f w.server.db = .ok (a, w'.server.db) ∧ w'.txParser = w.txParser := by
  rw [transaction_zoom] at h
  obtain ⟨u, hu, rfl⟩ := EStateM.ok_of_zoom h
  exact ⟨Server.transaction_ok hu, rfl⟩

/-- The database goes through transactions that record blocks, and the parser does nothing. -/
def Recording (X : StorageCrates) (w w' : IndexerWorld γ) : Prop :=
  w'.txParser = w.txParser ∧ ∃ tr, Machine.Run ((storageMachine X).startingAt w.server.db) tr
    w'.server.db ∧ ∀ e ∈ tr, e.2.Records

instance : IsPreorder (IndexerWorld γ) (Recording X) where
  refl _ := ⟨rfl, [], .start rfl, fun _ he => by cases he⟩
  trans _ _ _ h h' := by
    obtain ⟨hparser, tr, hrun, hrecords⟩ := h
    obtain ⟨hparser', tr', hrun', hrecords'⟩ := h'
    refine ⟨hparser'.trans hparser, tr ++ tr', hrun.append hrun', fun e he => ?_⟩
    rcases List.mem_append.mp he with he | he
    · exact hrecords e he
    · exact hrecords' e he

/-- The database and the records of the parser. -/
def kept (w : IndexerWorld γ) : Db UiConfirmedBlock × DefaultTxParser := (w.server.db, w.txParser)

theorem moves_of_preserves {x : Eff (IndexerWorld γ) α} (h : EStateM.Preserves kept x) :
    EStateM.Moves (Recording X) x := by
  intro w
  have hw := h w
  have hdb : (x.after w).server.db = w.server.db := congrArg Prod.fst hw
  refine ⟨congrArg Prod.snd hw, [], ?_, fun _ he => by cases he⟩
  rw [hdb]
  exact .start rfl

theorem preserves_query (f : Db UiConfirmedBlock → Outcome α) :
    EStateM.Preserves kept (pool.query f : Eff (IndexerWorld γ) α) := by
  intro w
  rw [EStateM.after]
  cases hquery : pool.query f w with
  | ok a u =>
      obtain ⟨_, faults, rfl⟩ := query_ok hquery
      rfl
  | error e u =>
      obtain ⟨faults, rfl⟩ := query_err hquery
      rfl

theorem preserves_producer (x : Eff γ α) :
    EStateM.Preserves kept (x.zoom IndexerWorld.producer
      fun (w : IndexerWorld γ) producer => { w with producer := producer }) := by
  intro w
  rw [EStateM.after, EStateM.zoom]
  cases x w.producer <;> rfl

theorem moves_transaction {a : StorageAction} (ha : a.Records)
    (hf : ∀ db r db', f db = .ok (r, db') → storageStep X db a db') :
    EStateM.Moves (Recording X) (pool.transaction f : Eff (IndexerWorld γ) α) := by
  intro w
  rw [transaction_zoom, EStateM.after, EStateM.zoom]
  cases htransaction : Server.pool.transaction f w.server with
  | error e u =>
      have hdb : u.db = w.server.db := Server.transaction_err htransaction
      refine ⟨rfl, [], ?_, fun _ he => by cases he⟩
      exact hdb ▸ Machine.Run.start rfl
  | ok r u =>
      have hstep := hf _ _ _ (Server.transaction_ok htransaction)
      refine ⟨rfl, [(w.server.db, a)], (Machine.Run.start rfl).next hstep, fun e he => ?_⟩
      rw [List.mem_singleton.mp he]
      exact ha

theorem moves_blocksProduced (producerParams : ProducerParams) (producedBlocks : ProducedBlocks) :
    EStateM.Moves (Recording X)
      (blocksProduced pool producerParams producedBlocks : Eff (IndexerWorld γ) Unit) := by
  refine .bind (moves_transaction (a := .recordParams producerParams.pendingBlocks producedBlocks)
    trivial fun db r db' h => ?_) fun _ =>
    moves_transaction (a := .recordReceipts producerParams.pendingBlocks producedBlocks) trivial
      fun db r db' h => h
  cases h
  rfl

variable {bp : BlockParser} {P : BlockProducer γ} {maxSlotHistory : Option Slot}

theorem moves_restoreBlocks (fromBlock toBlock retries : Nat) (producerParams : ProducerParams) :
    EStateM.Moves (Recording X) ((rollupIndexer X bp (some P) maxSlotHistory).restoreBlocks
      fromBlock toBlock producerParams retries) := by
  refine .bind (moves_of_preserves ?_) fun blocksParams => .bind (moves_of_preserves ?_)
    fun producedBlocks => moves_blocksProduced _ _
  · have hproducer : (rollupIndexer X bp (some P) maxSlotHistory).blockProducer =
        some (producing P) := rfl
    exact RollupIndexer.preserves_getBlocksParams hproducer
      (fun blockNumber => preserves_producer _) _ _ _
  · exact RollupIndexer.preserves_ofResult _

theorem moves_produceLoop (batchSize : Nat) (rounds : Nat) :
    ∀ producerParams, EStateM.Moves (Recording X)
      ((rollupIndexer X bp (some P) maxSlotHistory).produceLoop (producing P) batchSize rounds
        producerParams) := by
  induction rounds with
  | zero => exact fun _ => .throw _
  | succ rounds ih =>
      intro producerParams
      refine .bind (moves_of_preserves (preserves_producer _)) fun productionResult => ?_
      cases productionResult.producedBlocks.lastKeyValue with
      | none => exact .pure _
      | some last => exact .bind (moves_blocksProduced _ _) fun _ => ih _

/-- Whatever `restore_or_produce_blocks` comes to, all it does to the database is to record
blocks. -/
theorem moves_restoreOrProduceBlocks (P : Option (BlockProducer γ)) (batchSize : Nat) :
    EStateM.Moves (Recording X)
      ((rollupIndexer X bp P maxSlotHistory).restoreOrProduceBlocks batchSize) := by
  cases P with
  | none => exact .pure _
  | some P =>
      refine .bind (moves_of_preserves (preserves_query _)) fun pending => ?_
      cases pending with
      | none => exact .pure _
      | some producerParams =>
          refine .bind (moves_of_preserves (preserves_query fun db => .ok (latestEthBlock db)))
            fun latestBlock => .bind (moves_of_preserves (preserves_producer _)) fun lastBlock => ?_
          show EStateM.Moves _ (if latestBlock.getD 0 + 1 < lastBlock then _ else _)
          split
          · exact moves_restoreBlocks _ _ _ _
          · exact moves_produceLoop _ _ _

end IndexerWorld

/-! ## What the tables of the loader hold -/

namespace PgStorage

variable {X : StorageCrates} {db db' : Db UiConfirmedBlock}
  {blocks : BTreeMap Slot UiConfirmedBlock} {lo hi : Nat}

/-- The blocks from `lo` up to `hi` are stored, and no others. -/
def StoredUpTo (blocks : BTreeMap Slot UiConfirmedBlock) (lo hi : Nat)
    (db : Db UiConfirmedBlock) : Prop :=
  ∀ slot : Nat, db.solBlock.lookup slot = if lo ≤ slot ∧ slot < hi then blocks[slot]? else none

theorem StoredUpTo.store (h : StoredUpTo blocks lo hi db) {fromSlot toSlot : Nat}
    {batch : BTreeMap Slot UiConfirmedBlock} {finalizedSlot : Slot}
    (hbatch : ∀ slot : Nat, batch[slot]? =
      if fromSlot ≤ slot ∧ slot < toSlot then blocks[slot]? else none)
    (hlo : lo ≤ fromSlot) (hhi : fromSlot ≤ hi)
    (hstore : storeBlocks batch finalizedSlot db = .ok ((), db')) :
    StoredUpTo blocks lo (max hi toSlot) db' := by
  intro slot
  have hrange : (lo ≤ slot ∧ slot < max hi toSlot) ↔
      (lo ≤ slot ∧ slot < hi) ∨ (fromSlot ≤ slot ∧ slot < toSlot) := by
    omega
  rw [(storeBlocks_ok hstore slot).2, h slot, hbatch slot, if_congr hrange rfl rfl]
  by_cases hold : lo ≤ slot ∧ slot < hi
  · by_cases hnew : fromSlot ≤ slot ∧ slot < toSlot
    · rw [if_pos hold, if_pos hnew, if_pos (.inl hold)]
      cases blocks[slot]? <;> rfl
    · rw [if_pos hold, if_neg hnew, if_pos (.inl hold)]
      cases blocks[slot]? <;> rfl
  · by_cases hnew : fromSlot ≤ slot ∧ slot < toSlot
    · rw [if_neg hold, if_pos hnew, if_pos (.inr hnew)]
      rfl
    · rw [if_neg hold, if_neg hnew, if_neg (not_or.mpr ⟨hold, hnew⟩)]
      rfl

theorem StoredUpTo.last (h : StoredUpTo blocks lo hi db) {slot : Nat}
    (hlast : getLastSlot db = some slot) : lo ≤ slot ∧ slot < hi := by
  have hmem := List.max?_mem hlast
  obtain ⟨e, he, rfl⟩ := List.mem_map.mp hmem
  have hlookup := (HashMap.mem_entries db.solBlock e.1 e.2).mp he
  rw [h e.1] at hlookup
  split at hlookup
  · next hrange => exact hrange
  · cases hlookup

variable (X) in
/-- Storing blocks is a step of the loader. -/
theorem solana_of_storeBlocks {batch : BTreeMap Slot UiConfirmedBlock} {finalizedSlot : Slot}
    (h : storeBlocks batch finalizedSlot db = .ok ((), db')) : storageStep X db .solana db' := by
  rw [storeBlocks] at h
  cases hfold : batch.toList.foldlM (storeBlock finalizedSlot) db with
  | error e =>
      rw [hfold] at h
      cases h
  | ok db'' =>
      rw [hfold] at h
      cases h
      refine foldlM_invariant (P := fun _ db'' => storageStep X db .solana db'') ?_ ?_ hfold
      · intro done e db₁ db₂ hdone hstore
        obtain ⟨solSlot, solBlock, rfl⟩ := hdone
        rw [storeBlock] at hstore
        split at hstore
        · cases hstore
        · cases hstore
          exact ⟨_, _, rfl⟩
      · exact ⟨db.solSlot, db.solBlock, rfl⟩

theorem run_solTables {tr : List (Db UiConfirmedBlock × StorageAction)}
    (hrun : Machine.Run ((storageMachine X).startingAt db) tr db') (h : ∀ e ∈ tr, e.2 ≠ .solana) :
    solTables db' = solTables db := by
  induction hrun with
  | start hinit => exact congrArg solTables hinit
  | @next tr s _ a _ hstep ih =>
      rw [storageStep_solTables hstep (h (s, a) (by simp)), ih fun e he => h e (by simp [he])]

end PgStorage

/-! ## What the two tasks keep -/

/-- A phase the indexer can be in while the blocks up to `hi` are stored. -/
def IndexerPhase.Within (lo hi : Nat) : IndexerPhase → Prop
  | .waiting fromSlot => lo ≤ fromSlot ∧ fromSlot ≤ hi
  | .walking currentSlot toSlot => lo ≤ currentSlot ∧ currentSlot ≤ toSlot ∧ toSlot ≤ hi

theorem IndexerPhase.Within.mono {lo hi hi' : Nat} {phase : IndexerPhase}
    (h : phase.Within lo hi) (hle : hi ≤ hi') : phase.Within lo hi' := by
  cases phase with
  | waiting fromSlot => exact ⟨h.1, Nat.le_trans h.2 hle⟩
  | walking currentSlot toSlot => exact ⟨h.1, h.2.1, Nat.le_trans h.2.2 hle⟩

section

variable {γ : Type} {X : StorageCrates} {senders : TxHash → Option Sender} {bp : BlockParser}
  {blocks : BTreeMap Slot UiConfirmedBlock} {db db' : Db UiConfirmedBlock} {lo hi pos pos' : Nat}
  {tr more : List (Db UiConfirmedBlock × StorageAction)}

/-- The results that were registered are those of the slots from `lo` up to `pos`, and nothing
was cleaned. -/
structure RegisteredUpTo (X : Crates) (senders : TxHash → Option Sender) (bp : BlockParser)
    (blocks : BTreeMap Slot UiConfirmedBlock) (lo pos : Nat)
    (tr : List (Db UiConfirmedBlock × StorageAction)) : Prop where
  results : ∀ s parseResults, (s, .registerTransactions parseResults) ∈ tr →
    ∀ (slot : Nat) result, parseResults[slot]? = some result → lo ≤ slot ∧ slot < pos ∧
      ∃ block, blocks[slot]? = some block ∧ Indexes X bp senders slot block (.ok result)
  all : ∀ (slot : Nat) block, lo ≤ slot → slot < pos → blocks[slot]? = some block →
    ∃ s parseResults result, (s, .registerTransactions parseResults) ∈ tr ∧
      parseResults[slot]? = some result
  uncleaned : ∀ s fromSlot, (s, .cleanFromSlot fromSlot) ∉ tr

/-- What the database has gone through. -/
def RunUpTo (X : StorageCrates) (senders : TxHash → Option Sender) (bp : BlockParser)
    (blocks : BTreeMap Slot UiConfirmedBlock) (lo pos : Nat) (db : Db UiConfirmedBlock) : Prop :=
  ∃ tr, Machine.Run (storageMachine X) tr db ∧ RegisteredUpTo X.toCrates senders bp blocks lo pos tr

theorem RegisteredUpTo.append (h : RegisteredUpTo X.toCrates senders bp blocks lo pos tr)
    (hquiet : ∀ e ∈ more, (∀ parseResults, e.2 ≠ .registerTransactions parseResults) ∧
      ∀ fromSlot, e.2 ≠ .cleanFromSlot fromSlot) :
    RegisteredUpTo X.toCrates senders bp blocks lo pos (tr ++ more) where
  results s parseResults hin := by
    rcases List.mem_append.mp hin with hin | hin
    · exact h.results s parseResults hin
    · exact absurd rfl ((hquiet _ hin).1 parseResults)
  all slot block hlo hpos hblock := by
    obtain ⟨s, parseResults, result, hin, hresult⟩ := h.all slot block hlo hpos hblock
    exact ⟨s, parseResults, result, List.mem_append_left _ hin, hresult⟩
  uncleaned s fromSlot hin := by
    rcases List.mem_append.mp hin with hin | hin
    · exact h.uncleaned s fromSlot hin
    · exact absurd rfl ((hquiet _ hin).2 fromSlot)

/-- The loader writes. -/
theorem RunUpTo.solana (h : RunUpTo X senders bp blocks lo pos db)
    (hstep : (storageMachine X).step db .solana db') : RunUpTo X senders bp blocks lo pos db' := by
  obtain ⟨tr, hrun, hupTo⟩ := h
  refine ⟨_, hrun.next hstep, hupTo.append fun e he => ?_⟩
  rw [List.mem_singleton.mp he]
  simp

/-- Blocks are recorded. -/
theorem RunUpTo.record (h : RunUpTo X senders bp blocks lo pos db)
    (hrun : Machine.Run ((storageMachine X).startingAt db) more db')
    (hrecords : ∀ e ∈ more, e.2.Records) : RunUpTo X senders bp blocks lo pos db' := by
  obtain ⟨tr, hrun₀, hupTo⟩ := h
  refine ⟨_, hrun₀.append hrun, hupTo.append fun e he => ?_⟩
  have hrecord := hrecords e he
  cases haction : e.2 <;> rw [haction] at hrecord <;> first | exact hrecord.elim | simp

/-- The results of the slots up to `pos'` are registered. -/
theorem RunUpTo.register (h : RunUpTo X senders bp blocks lo pos db) (hlo : lo ≤ pos)
    (hpos : pos ≤ pos') {parseResults : BTreeMap Slot BlockParseResult}
    (hindexed : ∀ slot : Nat, pos ≤ slot → slot < pos' →
      IndexedAt X.toCrates bp senders blocks slot parseResults[slot]?)
    (hnone : ∀ slot : Nat, ¬ (pos ≤ slot ∧ slot < pos') → parseResults[slot]? = none)
    (hempty : parseResults.isEmpty = true → db' = db)
    (hsteps : parseResults.isEmpty = false → ∃ db₁,
      (storageMachine X).step db (.registerTransactions parseResults) db₁ ∧
      (storageMachine X).step db₁ (.storeEthBlocks parseResults) db') :
    RunUpTo X senders bp blocks lo pos' db' := by
  obtain ⟨tr, hrun, hupTo⟩ := h
  have hresults : ∀ (slot : Nat) result, parseResults[slot]? = some result →
      pos ≤ slot ∧ slot < pos' ∧ ∃ block, blocks[slot]? = some block ∧
        Indexes X.toCrates bp senders slot block (.ok result) := by
    intro slot result hresult
    by_cases hin : pos ≤ slot ∧ slot < pos'
    · have hat := hindexed slot hin.1 hin.2
      rw [hresult] at hat
      cases hat with
      | indexed hblock hindexes => exact ⟨hin.1, hin.2, _, hblock, hindexes⟩
    · rw [hnone slot hin] at hresult
      cases hresult
  have hhas : ∀ (slot : Nat) block, pos ≤ slot → slot < pos' → blocks[slot]? = some block →
      ∃ result, parseResults[slot]? = some result := by
    intro slot block hge hlt hblock
    have hat := hindexed slot hge hlt
    cases hresult : parseResults[slot]? with
    | some result => exact ⟨result, rfl⟩
    | none =>
        rw [hresult] at hat
        cases hat with
        | missing hmissing => cases hblock.symm.trans hmissing
  cases hisEmpty : parseResults.isEmpty with
  | true =>
      rw [hempty hisEmpty]
      refine ⟨tr, hrun, fun s results hin slot result hresult => ?_,
        fun slot block hge hlt hblock => ?_, hupTo.uncleaned⟩
      · obtain ⟨hge, hlt, hblock⟩ := hupTo.results s results hin slot result hresult
        exact ⟨hge, Nat.lt_of_lt_of_le hlt hpos, hblock⟩
      · by_cases hold : slot < pos
        · exact hupTo.all slot block hge hold hblock
        · obtain ⟨result, hresult⟩ := hhas slot block (Nat.le_of_not_lt hold) hlt hblock
          rw [Std.ExtTreeMap.isEmpty_iff.mp hisEmpty] at hresult
          cases hresult
  | false =>
      obtain ⟨db₁, hregister, hstore⟩ := hsteps hisEmpty
      refine ⟨_, (hrun.next hregister).next hstore, fun s results hin slot result hresult => ?_,
        fun slot block hge hlt hblock => ?_, fun s fromSlot hin => ?_⟩
      · rw [List.append_assoc] at hin
        rcases List.mem_append.mp hin with hin | hin
        · obtain ⟨hge, hlt, hblock⟩ := hupTo.results s results hin slot result hresult
          exact ⟨hge, Nat.lt_of_lt_of_le hlt hpos, hblock⟩
        · obtain ⟨-, hsame⟩ : s = db ∧ results = parseResults := by simpa using hin
          subst hsame
          obtain ⟨hge, hlt, hblock⟩ := hresults slot result hresult
          exact ⟨Nat.le_trans hlo hge, hlt, hblock⟩
      · by_cases hold : slot < pos
        · obtain ⟨s, results, result, hin, hresult⟩ := hupTo.all slot block hge hold hblock
          exact ⟨s, results, result, by simp [hin], hresult⟩
        · obtain ⟨result, hresult⟩ := hhas slot block (Nat.le_of_not_lt hold) hlt hblock
          exact ⟨db, parseResults, result, by simp, hresult⟩
      · simp only [List.mem_append, List.mem_singleton, Prod.mk.injEq, reduceCtorEq, and_false,
          or_false] at hin
        exact hupTo.uncleaned s fromSlot hin

/-- The reads of a call of `parse` are of the blocks that are stored. -/
theorem parsesWith_stored {maxSlotHistory : Option Slot} {P : Option (BlockProducer γ)}
    (h : StoredUpTo blocks lo hi db) :
    ParsesWith X.toCrates blocks bp (rollupIndexer X bp P maxSlotHistory) IndexerWorld.txParser
      (fun w => w.server.db = db) (fun slot => lo ≤ slot ∧ slot < hi) True where
  parse slot n w hgood hslot := by
    refine ⟨IndexerWorld.storedBlock w.server.db (w.reads.headD fun _ _ => none), ?_, ?_⟩
    · rw [IndexerWorld.storedBlock]
      cases w.reads.headD (fun _ _ => none) slot 0 with
      | some e => exact .inr ⟨trivial, e, rfl⟩
      | none =>
          refine .inl (congrArg Except.ok ?_)
          rw [hgood, h slot, if_pos hslot]
    · show ParsedTo _ _ _ (IndexerWorld.parse X.toCrates bp slot n w)
      rw [IndexerWorld.parse]
      obtain ⟨q, out⟩ := BlockParser.parse X.toCrates _ slot n w.txParser
      cases out with
      | ok parseResult =>
          exact @ParsedTo.ok _ _ (fun w : IndexerWorld γ => w.server.db = db)
            { w with txParser := q, reads := w.reads.tail } _ hgood
      | error e =>
          exact @ParsedTo.error _ _ (fun w : IndexerWorld γ => w.server.db = db)
            { w with txParser := q, reads := w.reads.tail } _ hgood

/-- `register_parse_results`, when it answers. -/
theorem registerParseResults_steps {parseResults : BTreeMap Slot BlockParseResult}
    {w w' : IndexerWorld γ}
    (h : registerParseResults X IndexerWorld.pool parseResults w = .ok () w') :
    w'.txParser = w.txParser ∧ (parseResults.isEmpty = true → w'.server.db = w.server.db) ∧
      (parseResults.isEmpty = false → ∃ db₁,
        (storageMachine X).step w.server.db (.registerTransactions parseResults) db₁ ∧
        (storageMachine X).step db₁ (.storeEthBlocks parseResults) w'.server.db) := by
  rw [registerParseResults] at h
  split at h
  · next hempty =>
      cases h
      exact ⟨rfl, fun _ => rfl, fun hfilled => by simp [hempty] at hfilled⟩
  · next hfilled =>
      obtain ⟨_, u, hregister, hstore⟩ := EStateM.bind_ok h
      obtain ⟨hregister, hparser⟩ := IndexerWorld.transaction_ok hregister
      obtain ⟨hstore, hparser'⟩ := IndexerWorld.transaction_ok hstore
      exact ⟨hparser'.trans hparser, fun hempty => absurd hempty hfilled, fun _ =>
        ⟨u.server.db, hregister, hstore⟩⟩

/-- The chunks of every holder that a slot executes are in the slots from `lo` up to it. -/
def CarriedFrom (X : Crates) (programId : Pubkey) (chainId : Nat)
    (senders : TxHash → Option Sender) (blocks : BTreeMap Slot UiConfirmedBlock) (lo : Nat) :
    Prop :=
  ∀ (slot : Nat) block, lo ≤ slot → blocks[slot]? = some block →
    ChunksSeen X programId chainId senders blocks block fun s : Nat => lo ≤ s ∧ s ≤ slot

/-- The slots from `lo` up to `pos` have been walked over. -/
def WalkedUpTo (X : Crates) (programId : Pubkey) (chainId : Nat)
    (blocks : BTreeMap Slot UiConfirmedBlock) (lo pos : Nat) (p : DefaultTxParser) : Prop :=
  ∃ tr, DefaultTxParser.Walk (slotSteps X programId chainId blocks) tr p ∧
    ∀ slot : Nat, DefaultTxParser.Registered tr slot ↔ lo ≤ slot ∧ slot < pos ∧ slot ∈ blocks

/-- A batch of the indexer. -/
theorem batch_upTo {P : Option (BlockProducer γ)} {batchSize toSlot newSlot : Nat}
    {w w' : IndexerWorld γ} (h : Traffic X.toCrates bp.programId bp.chainId senders blocks)
    (hreads : X.romeEvm.ReadsTxData)
    (hcarried : CarriedFrom X.toCrates bp.programId bp.chainId senders blocks lo)
    (hstored : StoredUpTo blocks lo hi w.server.db) (hlo : lo ≤ pos) (hto : pos ≤ toSlot)
    (hhi : toSlot ≤ hi)
    (hwalked : WalkedUpTo X.toCrates bp.programId bp.chainId blocks lo pos w.txParser)
    (hrun : RunUpTo X senders bp blocks lo pos w.server.db)
    (hround : (rollupIndexer X bp P none).syncRound toSlot batchSize pos w = .ok newSlot w') :
    pos ≤ newSlot ∧ newSlot ≤ toSlot ∧ solTables w'.server.db = solTables w.server.db ∧
      WalkedUpTo X.toCrates bp.programId bp.chainId blocks lo newSlot w'.txParser ∧
      RunUpTo X senders bp blocks lo newSlot w'.server.db := by
  have hnew := RollupIndexer.syncRound_slot hround
  obtain ⟨⟨toSlot', parseResults⟩, w₁, hparse, hround⟩ := EStateM.bind_ok hround
  obtain ⟨_, w₂, hregister, hround⟩ := EStateM.bind_ok hround
  obtain ⟨_, w₃, hproduce, hround⟩ := EStateM.bind_ok hround
  obtain ⟨_, w₄, hretain, hround⟩ := EStateM.bind_ok hround
  cases hretain
  cases hround
  obtain ⟨results, w₁', hparse, hdone⟩ := EStateM.bind_ok hparse
  cases hdone
  obtain ⟨tr, hwalk, hregistered⟩ := hwalked
  have hcarried' : CarriedIn X.toCrates bp.programId bp.chainId senders blocks
      (DefaultTxParser.Registered tr) pos (pos + min (toSlot - pos) batchSize) := by
    intro slot block hge _ hblock
    refine (hcarried slot block (Nat.le_trans hlo hge) hblock).mono fun s hmem hs => ?_
    by_cases hold : (s : Nat) < pos
    · exact .inl ((hregistered s).mpr ⟨hs.1, hold, hmem⟩)
    · exact .inr ⟨Nat.le_of_not_lt hold, hs.2⟩
  have hle : pos + min (toSlot - pos) batchSize ≤ toSlot := SolanaBlockLoader.batch_le hto
  have hparses : ParsesWith X.toCrates blocks bp (rollupIndexer X bp P none)
      IndexerWorld.txParser (fun v => v.server.db = w.server.db) (fun slot => lo ≤ slot ∧ slot < hi)
      True := parsesWith_stored hstored
  have hsettled : ∀ slot : Nat, pos ≤ slot → slot < pos + min (toSlot - pos) batchSize →
      lo ≤ slot ∧ slot < hi := fun slot hge hlt =>
    ⟨Nat.le_trans hlo hge, Nat.lt_of_lt_of_le hlt (Nat.le_trans hle hhi)⟩
  rw [Nat.add_sub_cancel_left] at hparse
  rcases Traffic.parseSlots h hreads hparses (min (toSlot - pos) batchSize) ∅ rfl hwalk hsettled
    hcarried' (fun _ _ => Std.ExtTreeMap.getElem?_empty) with hok | ⟨e, w'', _, herror, _⟩
  · obtain ⟨w'', tr', results', hparse', hgood, hwalk', hregistered', hindexed, hkept⟩ := hok
    cases hparse.symm.trans hparse'
    obtain ⟨hparser₂, hempty, hsteps⟩ := registerParseResults_steps hregister
    have hmoves : IndexerWorld.Recording X w₂ w' := by
      have hafter :
          ((rollupIndexer X bp P none).restoreOrProduceBlocks batchSize).after w₂ = w' := by
        rw [EStateM.after, hproduce]
      exact hafter ▸ IndexerWorld.moves_restoreOrProduceBlocks P batchSize w₂
    obtain ⟨hparser₃, more, hmore, hrecords⟩ := hmoves
    have hsol₂ : solTables w₂.server.db = solTables w₁.server.db := by
      cases hisEmpty : parseResults.isEmpty with
      | true => rw [hempty hisEmpty]
      | false =>
          obtain ⟨db₁, hfirst, hsecond⟩ := hsteps hisEmpty
          rw [storageStep_solTables hsecond (by simp), storageStep_solTables hfirst (by simp)]
    have hsol₃ : solTables w'.server.db = solTables w₂.server.db := by
      refine run_solTables hmore fun e he hsolana => ?_
      have hrecord := hrecords e he
      rw [hsolana] at hrecord
      exact hrecord
    rw [← hgood] at hrun
    have hregister' := hrun.register hlo (Nat.le_add_right _ _) hindexed
      (fun slot hnot => (hkept slot hnot).trans Std.ExtTreeMap.getElem?_empty) hempty hsteps
    refine ⟨Nat.le_add_right _ _, hle, ?_, ⟨tr', ?_, fun slot => ?_⟩,
      hregister'.record hmore hrecords⟩
    · rw [hsol₃, hsol₂, hgood]
    · rw [hparser₃, hparser₂]
      exact hwalk'
    · rw [hregistered', hregistered]
      constructor
      · intro hslot
        rcases hslot with ⟨hge, hlt, hmem⟩ | ⟨hge, hlt, hmem⟩
        · exact ⟨hge, Nat.lt_of_lt_of_le hlt (Nat.le_add_right _ _), hmem⟩
        · exact ⟨Nat.le_trans hlo hge, hlt, hmem⟩
      · intro hslot
        obtain ⟨hge, hlt, hmem⟩ := hslot
        by_cases hold : slot < pos
        · exact .inl ⟨hge, hold, hmem⟩
        · exact .inr ⟨Nat.le_of_not_lt hold, hlt, hmem⟩
  · cases hparse.symm.trans herror

/-- What holds of the two tasks at any time. -/
structure Indexed (X : StorageCrates) (senders : TxHash → Option Sender) (bp : BlockParser)
    (blocks : BTreeMap Slot UiConfirmedBlock) (startSlot : Nat) (s : IndexingState γ) : Prop where
  loaded : ∃ hi, (startSlot ≤ s.loadFrom ∧ s.loadFrom ≤ hi) ∧ (startSlot ≤ s.callFrom ∧
    s.callFrom ≤ hi) ∧ s.phase.Within startSlot hi ∧ StoredUpTo blocks startSlot hi s.db
  walked : WalkedUpTo X.toCrates bp.programId bp.chainId blocks startSlot s.phase.slot s.txParser
  run : RunUpTo X senders bp blocks startSlot s.phase.slot s.db

variable {L : SolanaBlockLoader LoaderWorld} {P : Option (BlockProducer γ)}
  {startSlot batchSize : Nat} {s t : IndexingState γ}

theorem Indexed.preload (hH : SolanaBlockLoader.Honest X.toCrates L fun slot => blocks[slot]?)
    (hL : L.solanaBlockStorage = PgStorage.solanaBlockStorage Server.pool.beside)
    (h : Indexed X senders bp blocks startSlot s) (maxSlot finalizedSlot : Slot)
    (faults : List (Option Failure)) :
    Indexed X senders bp blocks startSlot (s.preloaded
      (L.preloadBlocks X.toCrates s.loadFrom maxSlot finalizedSlot (⟨s.db, faults⟩, s.node))) := by
  obtain ⟨hi, ⟨hlo, hhi⟩, hcall, hphase, hstored⟩ := h.loaded
  rcases SolanaBlockLoader.preloadBlocks_cases hH hL s.loadFrom maxSlot finalizedSlot
    (⟨s.db, faults⟩, s.node) with ⟨e, w, herror, hdb, _⟩ | ⟨w, batch, hok, _, hstore, hbatch⟩
  · have hpreloaded : s.preloaded (.error e w) =
        { s with db := s.db, node := w.2, loadFrom := s.callFrom } := by
      rw [IndexingState.preloaded, show w.1.db = s.db from hdb]
    rw [herror, hpreloaded]
    exact ⟨⟨hi, hcall, hcall, hphase, hstored⟩, h.walked, h.run⟩
  · rw [hok]
    have hstored' := hstored.store hbatch hlo hhi hstore
    refine ⟨⟨_, ⟨Nat.le_trans hlo (Nat.le_add_right _ _), Nat.le_max_right _ _⟩,
      ⟨hcall.1, Nat.le_trans hcall.2 (Nat.le_max_left _ _)⟩,
      hphase.mono (Nat.le_max_left _ _), hstored'⟩, h.walked, ?_⟩
    exact h.run.solana (solana_of_storeBlocks X hstore)

theorem Indexed.step (h : Indexed X senders bp blocks startSlot s)
    (htraffic : Traffic X.toCrates bp.programId bp.chainId senders blocks)
    (hreads : X.romeEvm.ReadsTxData)
    (hH : SolanaBlockLoader.Honest X.toCrates L fun slot => blocks[slot]?)
    (hL : L.solanaBlockStorage = PgStorage.solanaBlockStorage Server.pool.beside)
    (hcarried : CarriedFrom X.toCrates bp.programId bp.chainId senders blocks startSlot)
    {a : IndexingAction} (hstep : StandaloneIndexer.indexingStep X.toCrates L
      (PgStorage.rollupIndexer X bp P none) startSlot batchSize s a t) :
    Indexed X senders bp blocks startSlot t := by
  cases a with
  | preload maxSlot finalizedSlot faults =>
      rw [hstep.2]
      exact h.preload hH hL maxSlot finalizedSlot faults
  | inSync =>
      cases hstep
      obtain ⟨hi, hload, _, hphase, hstored⟩ := h.loaded
      exact ⟨⟨hi, hload, hload, hphase, hstored⟩, h.walked, h.run⟩
  | setFinalized finalizedSlot =>
      cases hstep
      exact ⟨h.loaded, h.walked, h.run.solana ⟨_, s.db.solBlock, rfl⟩⟩
  | startLoader =>
      cases hstep
      obtain ⟨hi, hload, _, hphase, hstored⟩ := h.loaded
      have hlast : startSlot ≤ (getLastSlot s.db).getD startSlot ∧
          (getLastSlot s.db).getD startSlot ≤ hi := by
        cases hlast : getLastSlot s.db with
        | none => exact ⟨Nat.le_refl _, Nat.le_trans hload.1 hload.2⟩
        | some slot =>
            obtain ⟨hge, hlt⟩ := hstored.last hlast
            exact ⟨hge, Nat.le_of_lt hlt⟩
      exact ⟨⟨hi, hlast, hlast, hphase, hstored⟩, h.walked, h.run⟩
  | look =>
      obtain ⟨fromSlot, toSlot, hwaiting, hlast, hlt, rfl⟩ := hstep
      obtain ⟨hi, hload, hcall, hphase, hstored⟩ := h.loaded
      have hwalked := h.walked
      have hrun := h.run
      rw [hwaiting] at hphase hwalked hrun
      exact ⟨⟨hi, hload, hcall, ⟨hphase.1, Nat.le_of_lt hlt,
        Nat.le_of_lt (hstored.last hlast).2⟩, hstored⟩, hwalked, hrun⟩
  | batch faults reads =>
      obtain ⟨currentSlot, toSlot, newSlot, w, hwalking, hround, rfl⟩ := hstep
      obtain ⟨hi, hload, hcall, hphase, hstored⟩ := h.loaded
      have hwalked := h.walked
      have hrun := h.run
      rw [hwalking] at hphase hwalked hrun
      obtain ⟨hlo, hto, hhi⟩ := hphase
      obtain ⟨hge, hle, hsol, hwalked', hrun'⟩ := batch_upTo (w := s.enter faults reads)
        htraffic hreads hcarried hstored hlo hto hhi hwalked hrun hround
      have hstored' : StoredUpTo blocks startSlot hi w.server.db := by
        intro slot
        have hsame : w.server.db.solBlock = s.db.solBlock := congrArg Prod.snd hsol
        rw [hsame]
        exact hstored slot
      by_cases hlt : newSlot < toSlot
      · have hafter : IndexerPhase.after toSlot newSlot = .walking newSlot toSlot := if_pos hlt
        rw [hafter]
        exact ⟨⟨hi, hload, hcall, ⟨Nat.le_trans hlo hge, hle, hhi⟩, hstored'⟩, hwalked', hrun'⟩
      · have hafter : IndexerPhase.after toSlot newSlot = .waiting toSlot := if_neg hlt
        have heq : newSlot = toSlot := Nat.le_antisymm hle (Nat.le_of_not_lt hlt)
        subst heq
        rw [hafter]
        exact ⟨⟨hi, hload, hcall, ⟨Nat.le_trans hlo hge, hhi⟩, hstored'⟩, hwalked', hrun'⟩

/-! ## The lookups -/

open TransactionStorage

/-- The transaction of the hash ran in a slot from `lo` up to `pos`. -/
def RanUpTo (X : Crates) (programId : Pubkey) (chainId : Nat) (senders : TxHash → Option Sender)
    (blocks : BTreeMap Slot UiConfirmedBlock) (lo pos : Nat) (hash : TxHash) : Prop :=
  ∃ (slot : Nat) (block : UiConfirmedBlock), lo ≤ slot ∧ slot < pos ∧
    blocks[slot]? = some block ∧
    ∃ v ∈ block.visits, ∃ r, v.Ran X programId chainId senders hash r

variable {c : Client}

theorem RunUpTo.served (h : RunUpTo X senders bp blocks lo pos db)
    (htraffic : Traffic X.toCrates bp.programId bp.chainId senders blocks)
    (hX : ReadsBack X) (hplain : DecodesPlain X)
    (hdeposit : DecodesDeposits X.toCrates) (hc : senders c.hash = some (.client c))
    (hhonest : c.Honest X.toCrates bp.chainId)
    (hsigned : c.transaction.transactionType ≠ some 0x7E)
    (hfresh : ∀ (slot : Slot) block result, blocks[slot]? = some block →
      Indexes X.toCrates bp senders slot block (.ok result) →
      ∀ e ∈ result.transactions, e.1.transactionType = some 0x7E → e.1.hash ≠ c.hash) :
    (RanUpTo X.toCrates bp.programId bp.chainId senders blocks lo pos c.hash →
      ∃ place, TransactionStorage.getTransaction X c.hash db =
        .ok (some (placed c.transaction place))) ∧
    (¬ RanUpTo X.toCrates bp.programId bp.chainId senders blocks lo pos c.hash →
      TransactionStorage.getTransaction X c.hash db = .ok none) := by
  obtain ⟨tr, hrun, hupTo⟩ := h
  have hhash := hhonest.hash
  have hof : ∀ s parseResults, (s, .registerTransactions parseResults) ∈ tr →
      RegistersTraffic X.toCrates senders bp c.hash s (.registerTransactions parseResults) := by
    intro s parseResults hin slot result hresult
    obtain ⟨_, _, block, hblock, hindexes⟩ := hupTo.results s parseResults hin slot result hresult
    exact ⟨⟨block, ⟨blocks, htraffic, hblock⟩, hindexes⟩, hfresh slot block result hblock hindexes⟩
  have hrows : (∃ slot : Slot, (slot, c.hash) ∈ db.evmTxResult) ↔
      RanUpTo X.toCrates bp.programId bp.chainId senders blocks lo pos c.hash := by
    constructor
    · intro hrow
      obtain ⟨slot, hrow⟩ := hrow
      obtain ⟨before, s, parseResults, after, rfl, hregisters, _⟩ :=
        (run_rows hrun slot c.hash).mp hrow
      have hin : (s, .registerTransactions parseResults) ∈
          before ++ (s, .registerTransactions parseResults) :: after := by simp
      obtain ⟨result, block, hresult, hof', hran⟩ := (registers_iff_ran hdeposit hc hhash hsigned
        (hof s parseResults hin) slot).mp hregisters
      obtain ⟨hge, hlt, block', hblock, hindexes⟩ := hupTo.results s parseResults hin slot result
        hresult
      have hof'' : OfTraffic X.toCrates senders bp slot block' result :=
        ⟨⟨blocks, htraffic, hblock⟩, hindexes⟩
      exact ⟨slot, block', hge, hlt, hblock, (hof''.shows_iff hdeposit hc hhash hsigned).mp
        ((hof'.shows_iff hdeposit hc hhash hsigned).mpr hran)⟩
    · intro hran
      obtain ⟨slot, block, hge, hlt, hblock, hran⟩ := hran
      obtain ⟨s, parseResults, result, hin, hresult⟩ := hupTo.all slot block hge hlt hblock
      obtain ⟨_, _, block', hblock', hindexes⟩ := hupTo.results s parseResults hin slot result
        hresult
      cases hblock.symm.trans hblock'
      have hregisters := (registers_iff_ran hdeposit hc hhash hsigned (hof s parseResults hin)
        slot).mpr ⟨result, block, hresult, ⟨⟨blocks, htraffic, hblock⟩, hindexes⟩, hran⟩
      obtain ⟨before, after, rfl⟩ := List.append_of_mem hin
      refine ⟨slot, (run_rows hrun slot c.hash).mpr ⟨before, s, parseResults, after, rfl,
        hregisters, fun e he fromSlot hclean => ?_⟩⟩
      exact absurd (by rw [← hclean]; simp [he]) (hupTo.uncleaned e.1 fromSlot)
  have hstored : StoredAs X c.transaction db := by
    refine run_storedAs hrun fun e he => ?_
    obtain ⟨s, a⟩ := e
    cases a with
    | registerTransactions parseResults =>
        exact registersOnly_of_traffic hdeposit hc hhash (hof s parseResults he)
    | _ => trivial
  have htx : Accepted X c.transaction := ⟨c.rlp, c.transaction, hhonest.decodes, .inl rfl⟩
  obtain ⟨hserved, hnone⟩ := hstored.getTransaction hX hplain htx hsigned
  rw [hhash] at hserved hnone
  refine ⟨fun hran => ?_, fun hno => hnone fun slot hrow => hno (hrows.mp ⟨slot, hrow⟩)⟩
  obtain ⟨place, hanswer, _⟩ := hserved (hrows.mpr hran)
  exact ⟨place, hanswer⟩

theorem indexed_of_run (htraffic : Traffic X.toCrates bp.programId bp.chainId senders blocks)
    (hreads : X.romeEvm.ReadsTxData)
    (hH : SolanaBlockLoader.Honest X.toCrates L fun slot => blocks[slot]?)
    (hL : L.solanaBlockStorage = PgStorage.solanaBlockStorage Server.pool.beside)
    (hcarried : CarriedFrom X.toCrates bp.programId bp.chainId senders blocks startSlot)
    {tr : List (IndexingState γ × IndexingAction)}
    (hrun : Machine.Run (StandaloneIndexer.indexingMachine X.toCrates L
      (PgStorage.rollupIndexer X bp P none) startSlot batchSize) tr s) :
    Indexed X senders bp blocks startSlot s := by
  induction hrun with
  | start hinit =>
      obtain ⟨hdb, hload, hcall, hparser, hphase⟩ := hinit
      have hempty : ∀ slot : Slot, (Db.empty : Db UiConfirmedBlock).solBlock.lookup slot = none :=
        fun slot => rfl
      refine ⟨⟨startSlot, ?_, ?_, ?_, fun slot => ?_⟩, ⟨[], ?_, fun slot => ?_⟩, [], ?_, ?_⟩
      · rw [hload]
        exact ⟨Nat.le_refl _, Nat.le_refl _⟩
      · rw [hcall]
        exact ⟨Nat.le_refl _, Nat.le_refl _⟩
      · rw [hphase]
        exact ⟨Nat.le_refl _, Nat.le_refl _⟩
      · rw [hdb, hempty, if_neg (by omega)]
      · rw [hparser]
        exact ⟨.start rfl, fun _ hin => by cases hin⟩
      · rw [hphase]
        refine ⟨fun hregistered => ?_, fun hslot => absurd hslot.2.1 (Nat.not_lt_of_le hslot.1)⟩
        obtain ⟨_, _, hin⟩ := hregistered
        cases hin
      · exact .start hdb
      · rw [hphase]
        exact ⟨fun _ _ hin => (by cases hin), fun slot block hge hlt =>
          absurd hlt (Nat.not_lt_of_le hge), fun _ _ hin => (by cases hin)⟩
  | next _ hstep ih => exact ih.step htraffic hreads hH hL hcarried hstep

/-- The block of slot 9 has no transactions. -/
def passedChain : BTreeMap Slot UiConfirmedBlock := sentChain.insert 9 (sentBlock 7 [])

theorem passedChain_eq_some {slot : Slot} {block : UiConfirmedBlock}
    (h : passedChain[slot]? = some block) :
    sentChain[slot]? = some block ∨ slot = 9 ∧ block = sentBlock 7 [] := by
  rw [passedChain, BTreeMap.get?_insert] at h
  split at h
  · next hslot =>
      cases h
      exact .inr ⟨hslot.symm, rfl⟩
  · exact .inl h

theorem not_mem_visits_nine {v : Visit} : v ∉ (sentBlock 7 []).visits := by
  intro hv
  obtain ⟨data, i, hi, _⟩ := mem_visits_sentBlock.mp hv
  cases hi

theorem passedChain_traffic : Traffic readingStandIns 7 1001 someSenders passedChain where
  hashes := sentChain_traffic.hashes
  visits slot block hblock v hv := by
    rcases passedChain_eq_some hblock with hsent | ⟨_, rfl⟩
    · exact sentChain_traffic.visits slot block hsent v hv
    · exact absurd hv not_mem_visits_nine
  alone slot block hblock v hv := by
    rcases passedChain_eq_some hblock with hsent | ⟨_, rfl⟩
    · exact sentChain_traffic.alone slot block hsent v hv
    · exact absurd hv not_mem_visits_nine

theorem passedChain_carried : CarriedFrom readingStandIns 7 1001 someSenders passedChain 5 := by
  intro slot block hge hblock v hv hash r c C hran hc hheld hchunks chunk hchunk
  have hseen : ChunksSeen readingStandIns 7 1001 someSenders sentChain block
      fun s : Nat => 5 ≤ s ∧ s ≤ slot := sentChain_chunksSeen ⟨Nat.le_refl 5, hge⟩
  obtain ⟨s, b, hs, hb, hvisit⟩ := hseen v hv hash r c C hran hc hheld hchunks chunk hchunk
  refine ⟨s, b, hs, ?_, hvisit⟩
  rw [passedChain, BTreeMap.get?_insert, if_neg, hb]
  rintro rfl
  rcases sentChain_eq_some hb with ⟨hnine, _⟩ | ⟨hnine, _⟩ <;> cases hnine

def passedParser : BlockParser := tableParser passedChain 7 1001 .singleState none

/-- Without deposits a result shows what the clients sent. -/
theorem passedChain_fresh (slot : Slot) (block : UiConfirmedBlock) (result : BlockParseResult)
    (h : Indexes readingStandIns passedParser someSenders slot block (.ok result)) :
    ∀ e ∈ result.transactions, e.1.transactionType = some 0x7E → e.1.hash ≠ 43 := by
  intro e he htype
  obtain ⟨q, txs, hnew, hfinal, entries, _, _, hmem, rfl⟩ := h
  obtain ⟨time, l, blocks, _, hl, hcreate⟩ := blockParseResult_new hnew
  have hparsed : (q.finalizeSlot readingStandIns slot).toOutcome = .ok l := by
    obtain ⟨l', hl', hpure⟩ := Except.ok_of_bind hl
    cases hpure
    exact hl'
  rw [hfinal] at hparsed
  cases hparsed
  obtain ⟨t, ht, index, hupdate⟩ := (createEthBlocks_updated (X := servingStandIns) hcreate).1 e he
  obtain ⟨en, hen, rfl⟩ := List.mem_map.mp ht
  obtain ⟨s, hs, hsame⟩ := ((hmem en).mp hen).transaction
  have hsigned : en.transaction.transactionType ≠ some 0x7E := by
    rw [hsame]
    rw [someSenders] at hs
    split at hs
    · cases hs
      exact fun h => by cases h
    · split at hs
      · cases hs
        exact fun h => by cases h
      · cases hs
  rw [hupdate, updateIfUserDepositedTx, if_pos (.inl hsigned)] at htype
  exact absurd htype hsigned

def passedLoader : SolanaBlockLoader LoaderWorld :=
  SolanaBlockLoader.chainLoader fun slot => passedChain[slot]?

theorem passedLoader_honest :
    SolanaBlockLoader.Honest readingStandIns passedLoader fun slot => passedChain[slot]? where
  latest _ := rfl
  load slot s := by
    simp only [SolanaBlockLoader.loadBlock, passedLoader, SolanaBlockLoader.chainLoader,
      SolanaBlockLoader.chainClient, bind, EStateM.bind, reduceCtorEq, if_false]
    cases passedChain[slot]? <;> rfl
  header slot c s hc := by
    refine ⟨⟨c, none⟩, rfl, ?_⟩
    simp only [passedLoader, SolanaBlockLoader.chainLoader, SolanaBlockLoader.chainClient, hc,
      if_true]
  parent slot c hc := by
    rcases passedChain_eq_some hc with hsent | ⟨rfl, rfl⟩
    · rcases sentChain_eq_some hsent with ⟨rfl, rfl⟩ | ⟨rfl, rfl⟩ <;> decide
    · decide

def passedIndexer : RollupIndexer (IndexerWorld Unit) :=
  PgStorage.rollupIndexer servingStandIns passedParser none none

/-- The two tasks over an empty database. -/
def passedStart : IndexingState Unit := ⟨Db.empty, ⟨10, 3, none, []⟩, 5, 5, .new, (), .waiting 5⟩

/-- The loader has stored the slots 5 to 9. -/
def passedLoaded : IndexingState Unit :=
  passedStart.preloaded
    (passedLoader.preloadBlocks readingStandIns 5 10 3 (⟨Db.empty, []⟩, passedStart.node))

end

end RomeSdk
