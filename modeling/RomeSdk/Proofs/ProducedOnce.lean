import RomeSdk.Proofs.PendingChain
import RomeSdk.Proofs.RecordedBatch

/-!
# No block is produced twice

op-geth is never behind the database: a block is recorded after it was produced.
A stop in between leaves op-geth ahead, by one block or by many. If it is ahead by
two or more, `restore_or_produce_blocks` restores the blocks; if both are at the
same block, it produces new ones on top of it. The comparison takes being ahead by
one for being at the same block, and then produces again what op-geth already has.

What is proved of a run is that this is all that can happen, as long as the pending
blocks are handed over with the hash of the latest block.
-/

namespace RomeSdk

open PgStorage (paramsOf recordAllParams)

namespace RollupIndexer

variable {block γ : Type} {P : EngineAPIBlockProducer γ} {C : CanonicalChain P}

/-! ## The calls of a run -/

open ProductionState (leave)

variable {X : StorageCrates} {I : RollupIndexer (ProductionWorld block γ)}

/-- What a run is looked at for: the database, the latest block of op-geth and the calls of
`produce_blocks`. -/
def seen (C : CanonicalChain P) (w : ProductionWorld block γ) : Db block × H256 × List Heights :=
  (w.1.1.db, C.head w.1.2, w.2)

/-- op-geth is not behind the database, and was level with it whenever blocks were produced. -/
structure InOrder (C : CanonicalChain P) (w : ProductionWorld block γ) : Prop where
  atMost : AtMost C w.1.1.db w.1.2
  calls : ∀ c ∈ w.2, c.producer = c.storage

theorem InOrder.of_seen {w w' : ProductionWorld block γ} (h : InOrder C w)
    (hseen : seen C w' = seen C w) : InOrder C w' := by
  injection hseen with hdb hseen
  injection hseen with hhead hcalls
  refine ⟨?_, hcalls ▸ h.calls⟩
  rw [hdb]
  exact h.atMost.grown (Or.inl hhead)

theorem seen_of_leave {w w' : ProductionWorld block γ} (h : leave w' = leave w) :
    seen C w' = seen C w := by
  injection h with hdb hgeth hcalls
  rw [seen, seen, hdb, hgeth, hcalls]

theorem preserves_seen {α : Type} {x : Eff (ProductionWorld block γ) α}
    (h : EStateM.Preserves leave x) : EStateM.Preserves (seen C) x :=
  fun w => seen_of_leave (h w)

/-- A call of op-geth that leaves the latest block alone. -/
theorem preserves_second {α : Type} {x : Eff γ α} (h : EStateM.Preserves C.head x) :
    EStateM.Preserves (seen C : ProductionWorld block γ → _) x.second.unrecorded := by
  intro w
  have hg := h w.1.2
  rw [EStateM.after] at hg
  simp only [seen, EStateM.after, EStateM.unrecorded, EStateM.recorded, EStateM.second]
  cases hrun : x w.1.2 with
  | ok a g =>
      rw [hrun] at hg
      simpa using hg
  | error e g =>
      rw [hrun] at hg
      simpa using hg

theorem second_ok {α : Type} {x : Eff γ α} {a : α} {w t : ProductionWorld block γ}
    (h : x.second.unrecorded w = .ok a t) : x w.1.2 = .ok a t.1.2 := by
  simp only [EStateM.unrecorded, EStateM.recorded, EStateM.second] at h
  cases hrun : x w.1.2 with
  | ok b g =>
      rw [hrun] at h
      cases h
      rfl
  | error e g =>
      rw [hrun] at h
      cases h

theorem produceBlocks_run (producerParams : ProducerParams) (limit : Option Nat)
    (w : ProductionWorld block γ) :
    leave (((P.watched C.height).produceBlocks producerParams limit).after w)
        = ⟨w.1.1.db, (P.produceBlocks producerParams limit).after w.1.2,
          w.2 ++ [⟨PgStorage.height w.1.1.db, C.height w.1.2⟩]⟩ ∧
      ∀ result t, (P.watched C.height).produceBlocks producerParams limit w = .ok result t →
        P.produceBlocks producerParams limit w.1.2 = .ok result t.1.2 := by
  simp only [EngineAPIBlockProducer.watched, EStateM.noted, EStateM.second, EStateM.after]
  cases P.produceBlocks producerParams limit w.1.2 with
  | ok result g =>
      refine ⟨rfl, fun result t h => ?_⟩
      cases h
      rfl
  | error e g => exact ⟨rfl, fun result t h => (by cases h)⟩

/-- From where the pending blocks go on top of the latest block, every round of the
production does. -/
theorem produceLoop_inOrder
    (hstorage : I.ethereumBlockStorage
      = PgStorage.ethereumBlockStorage X Server.pool.beside.beside) (batchSize : Nat) :
    ∀ (rounds : Nat) {producerParams : ProducerParams} {w : ProductionWorld block γ},
      InOrder C w → Ready C producerParams w.1.1.db w.1.2 →
      InOrder C ((I.produceLoop (P.watched C.height) batchSize rounds producerParams).after w) := by
  intro rounds
  induction rounds with
  | zero => exact fun h _ => h
  | succ rounds ih =>
      intro producerParams w h hready
      obtain ⟨hafter, hanswer⟩ := produceBlocks_run (C := C) producerParams (some batchSize) w
      have hgrown := CanonicalChain.produceBlocks_grown (some batchSize) hready.parent
      have hin : ∀ u : ProductionWorld block γ,
          leave u = ⟨w.1.1.db, (P.produceBlocks producerParams (some batchSize)).after w.1.2,
            w.2 ++ [⟨PgStorage.height w.1.1.db, C.height w.1.2⟩]⟩ → InOrder C u := by
        intro u hu
        injection hu with hdb hgeth hcalls
        refine ⟨?_, fun call hcall => ?_⟩
        · rw [hdb, hgeth]
          exact h.atMost.grown hgrown
        · rw [hcalls] at hcall
          rcases List.mem_append.mp hcall with hcall | hcall
          · exact h.calls call hcall
          · rw [List.mem_singleton.mp hcall]
            exact hready.level.symm
      rw [EStateM.after] at hafter
      rw [produceLoop, EStateM.after_bind]
      split
      · next result u hproduce =>
        rw [hproduce] at hafter
        have hengine := hanswer result u hproduce
        have hin := hin u hafter
        injection hafter with hdb _ _
        split
        · exact hin
        · next lastSlotNumber lastBlockIdx lastBlockParams hlast =>
          have hrun := PgStorage.blocksProduced_run producerParams result.producedBlocks u
          -- recorded, the rest of the pending blocks is ready; stopped before, nothing changed
          have hnext : ∀ t : ProductionWorld block γ, t.1.1.db.ethBlock
                = (recordAllParams producerParams.pendingBlocks result.producedBlocks
                  u.1.1.db).ethBlock → t.1.2 = u.1.2 → t.2 = u.2 →
              InOrder C t ∧ Ready C { producerParams with
                parentHash := some lastBlockParams.hash
                pendingBlocks := producerParams.pendingBlocks.retainAfter lastSlotNumber
                  lastBlockIdx } t.1.1.db t.1.2 := by
            intro t htable hgeth hcalls
            rw [show u.1.1.db = w.1.1.db from hdb] at htable
            obtain ⟨hmost, hready'⟩ := hready.recorded h.atMost hengine hlast htable
            rw [hgeth]
            exact ⟨⟨hgeth ▸ hmost, hcalls ▸ hin.calls⟩, hready'⟩
          rw [hstorage, EStateM.after_bind]
          simp only [PgStorage.ethereumBlockStorage]
          split
          · next a t hrecord =>
            rw [hrecord] at hrun
            obtain ⟨htable, hgeth, hcalls⟩ := hrun
            obtain ⟨hin', hready'⟩ := hnext t htable hgeth hcalls
            exact ih hin' hready'
          · next e t hrecord =>
            rw [hrecord] at hrun
            rcases hrun with hsame | ⟨htable, hgeth, hcalls⟩
            · exact hin.of_seen (seen_of_leave hsame)
            · exact (hnext t htable hgeth hcalls).1
      · next e u hproduce =>
        rw [hproduce] at hafter
        exact hin u hafter

theorem preserves_getBlockParams (C : CanonicalChain P) (blockNumber : Nat) :
    EStateM.Preserves C.head (P.getBlockParams blockNumber) := by
  refine .bind (C.getBlock _) fun answer => ?_
  split
  · exact .throw _
  · split
    · exact .pure _
    · exact .throw _

theorem getBlockParams_answer {blockNumber : Nat} {params : BlockParams} {g g' : γ}
    (h : P.getBlockParams blockNumber g = .ok params g') : params.number = blockNumber ∧
      ∀ latest, C.header (C.head g) = some latest → latest.number = blockNumber →
        params.hash = C.head g := by
  obtain ⟨answer, u, hget, h⟩ := EStateM.bind_ok h
  cases answer with
  | none => cases h
  | some b =>
      obtain ⟨hnumber, hlatest⟩ := C.byNumber hget
      cases hhash : b.hash with
      | none =>
          simp only [hhash] at h
          cases h
      | some hash =>
          simp only [hhash, hnumber] at h
          cases h
          refine ⟨rfl, fun latest hheader heq => ?_⟩
          have hsame := hlatest latest hheader heq
          rw [hhash] at hsame
          exact Option.some.inj hsame

/-- Blocks that are restored are at most the latest block. -/
theorem restoreBlocks_inOrder
    (hstorage : I.ethereumBlockStorage
      = PgStorage.ethereumBlockStorage X Server.pool.beside.beside)
    (hproducer : I.blockProducer = some (P.watched C.height)) {latest : Header}
    (fromBlock retries : Nat) (producerParams : ProducerParams) {w : ProductionWorld block γ}
    (hlatest : C.header (C.head w.1.2) = some latest) (h : InOrder C w) :
    InOrder C ((I.restoreBlocks fromBlock latest.number producerParams retries).after w) := by
  have hkeeps : ∀ blockNumber, EStateM.Preserves (seen C : ProductionWorld block γ → _)
      ((P.watched C.height).getBlockParams blockNumber) :=
    fun blockNumber => preserves_second (preserves_getBlockParams C blockNumber)
  have hanswer : ∀ blockNumber ≤ latest.number, ∀ s params t, seen C s = seen C w →
      (P.watched C.height).getBlockParams blockNumber s = .ok params t →
      params.number ≤ latest.number ∧
        (params.number = latest.number → params.hash = C.head w.1.2) := by
    intro blockNumber hle s params t hseen hget
    have hhead : C.head s.1.2 = C.head w.1.2 := congrArg (fun e => e.2.1) hseen
    obtain ⟨hnumber, hhash⟩ := getBlockParams_answer (C := C) (second_ok hget)
    rw [hhead] at hhash
    rw [hnumber]
    exact ⟨hle, fun heq => hhash latest hlatest heq.symm⟩
  have hparams := preserves_getBlocksParams hproducer hkeeps fromBlock latest.number retries w
  rw [EStateM.after] at hparams
  rw [restoreBlocks, EStateM.after_bind]
  split
  · next blocksParams u hget =>
    rw [hget] at hparams
    have hin := h.of_seen hparams
    have hvalues := getBlocksParams_answer hproducer hkeeps hanswer rfl hget
    cases halign : alignBlocks producerParams.pendingBlocks.keys blocksParams.toList
        producerParams.parentHash ∅ with
    | error e => exact hin
    | ok producedBlocks =>
        have hproduced := alignBlocks_values (Q := fun params => params.number ≤ latest.number ∧
            (params.number = latest.number → params.hash = C.head w.1.2)) _
          (fun e he => hvalues e.1 e.2 ((BTreeMap.mem_toList _ e.1 e.2).mp he))
          (fun id params hempty => (by rw [NestedMap.get_empty] at hempty; cases hempty)) halign
        have hrun := PgStorage.blocksProduced_run producerParams producedBlocks u
        have hhead : C.head u.1.2 = C.head w.1.2 := congrArg (fun e => e.2.1) hparams
        have hnext : ∀ t : ProductionWorld block γ, t.1.1.db.ethBlock
              = (recordAllParams producerParams.pendingBlocks producedBlocks
                u.1.1.db).ethBlock → t.1.2 = u.1.2 → t.2 = u.2 → InOrder C t := by
          intro t htable hgeth hcalls
          refine ⟨?_, hcalls ▸ hin.calls⟩
          rw [hgeth]
          refine hin.atMost.recorded ?_ htable
          rw [CanonicalChain.height, hhead, hlatest]
          exact hproduced
        show InOrder C (EStateM.after (I.ethereumBlockStorage.blocksProduced _ _) u)
        rw [hstorage, EStateM.after]
        simp only [PgStorage.ethereumBlockStorage]
        split
        · next a t hrecord =>
          rw [hrecord] at hrun
          exact hnext t hrun.1 hrun.2.1 hrun.2.2
        · next e t hrecord =>
          rw [hrecord] at hrun
          rcases hrun with hsame | ⟨htable, hgeth, hcalls⟩
          · exact hin.of_seen (seen_of_leave hsame)
          · exact hnext t htable hgeth hcalls
  · next e u hget =>
    rw [hget] at hparams
    exact h.of_seen hparams

/-- A call may only go wrong if op-geth is one block ahead, or if the pending blocks do not
go on top of the latest recorded block. -/
def GoesOn (X : StorageCrates) (C : CanonicalChain P) (s : ProductionState block γ) : Prop :=
  ∀ producerParams, PgStorage.getPendingBlocks X s.db = .ok (some producerParams) →
    C.height s.geth ≠ PgStorage.height s.db + 1 ∧
      (C.height s.geth = PgStorage.height s.db →
        ∀ hash, producerParams.parentHash = some hash → ∃ id params,
          paramsOf s.db id = some params ∧ params.hash = hash ∧
            params.number = PgStorage.height s.db)

theorem GoesOn.of_seen {w w' : ProductionWorld block γ} (h : GoesOn X C (leave w))
    (hseen : seen C w' = seen C w) : GoesOn X C (leave w') := by
  injection hseen with hdb hseen
  injection hseen with hhead _
  intro producerParams hpending
  have hheight : C.height w'.1.2 = C.height w.1.2 := by
    rw [CanonicalChain.height, hhead, CanonicalChain.height]
  simp only [leave, hdb, hheight] at hpending ⊢
  exact h producerParams hpending

/-- The choice between the two ways, with the answers it is made on. -/
theorem choice_inOrder
    (hstorage : I.ethereumBlockStorage
      = PgStorage.ethereumBlockStorage X Server.pool.beside.beside)
    (hproducer : I.blockProducer = some (P.watched C.height)) (batchSize rounds : Nat)
    {w : ProductionWorld block γ} (hgoes : GoesOn X C (leave w)) (h : InOrder C w)
    {producerParams : ProducerParams}
    (hpending : PgStorage.getPendingBlocks X w.1.1.db = .ok (some producerParams))
    {latest : Header} (hlatest : C.header (C.head w.1.2) = some latest) :
    InOrder C (EStateM.after (if PgStorage.height w.1.1.db + 1 < latest.number then
        I.restoreBlocks (PgStorage.height w.1.1.db + 1) latest.number producerParams numRetries
      else I.produceLoop (P.watched C.height) batchSize rounds producerParams) w) := by
  obtain ⟨hahead, hparent⟩ := hgoes producerParams hpending
  split
  · exact restoreBlocks_inOrder hstorage hproducer _ _ _ hlatest h
  · next hnot =>
    -- not behind, not one ahead, and not further ahead: level
    have hle := h.atMost.height_le
    have hheight := CanonicalChain.height_eq hlatest
    have hlevel : PgStorage.height w.1.1.db = C.height w.1.2 := by
      change C.height w.1.2 ≠ PgStorage.height w.1.1.db + 1 at hahead
      omega
    refine produceLoop_inOrder hstorage batchSize rounds h ⟨hlevel, ?_, ?_⟩
    · intro hash hhash
      obtain ⟨id, params, hparams, rfl, hnumber⟩ := hparent hlevel.symm hash hhash
      exact (h.atMost id params hparams).2 (hnumber.trans hlevel)
    · intro id hid
      exact PgStorage.getPendingBlocks_pending hpending hid

theorem restoreOrProduceBlocks_inOrder
    (hstorage : I.ethereumBlockStorage
      = PgStorage.ethereumBlockStorage X Server.pool.beside.beside)
    (hproducer : I.blockProducer = some (P.watched C.height)) (batchSize : Nat)
    {w : ProductionWorld block γ} (hgoes : GoesOn X C (leave w)) (h : InOrder C w) :
    InOrder C ((I.restoreOrProduceBlocks batchSize).after w) := by
  have hpending := PgStorage.query_run (PgStorage.getPendingBlocks X) w
  simp only [restoreOrProduceBlocks, hproducer, hstorage, PgStorage.ethereumBlockStorage]
  rw [EStateM.after_bind]
  split
  · next pending u hrun =>
    rw [hrun] at hpending
    obtain ⟨hpending, hu⟩ := hpending
    have hin := h.of_seen (seen_of_leave hu)
    cases pending with
    | none => exact hin
    | some producerParams =>
        have hlatest := PgStorage.query_run (fun db => .ok (PgStorage.latestEthBlock db)) u
        show InOrder C (EStateM.after (_ >>= _) u)
        rw [EStateM.after_bind]
        split
        · next latestBlock v hrun =>
          rw [hrun] at hlatest
          obtain ⟨hlatest, hv⟩ := hlatest
          have hin := hin.of_seen (seen_of_leave hv)
          have hlast : EStateM.Preserves (seen C : ProductionWorld block γ → _)
              (P.watched C.height).lastProducedBlock := preserves_second C.getBlockNumber
          have hlast := hlast v
          rw [EStateM.after] at hlast
          rw [EStateM.after_bind]
          split
          · next lastBlockInProducer x hnumber =>
            rw [hnumber] at hlast
            have hin := hin.of_seen hlast
            obtain ⟨latest, hheader, rfl⟩ := C.latestNumber (second_ok hnumber)
            have hseen : seen C x = seen C w := hlast.trans (seen_of_leave (hv.trans hu))
            have hdb : x.1.1.db = w.1.1.db := congrArg Prod.fst hseen
            have hdb' : u.1.1.db = w.1.1.db := congrArg ProductionState.db hu
            have hstored : latestBlock.getD 0 = PgStorage.height x.1.1.db := by
              injection hlatest with hlatest
              rw [PgStorage.height, hdb, ← hdb', hlatest]
            have hhead : C.head x.1.2 = C.head v.1.2 := congrArg (fun e => e.2.1) hlast
            simp only [hstored]
            refine choice_inOrder hstorage hproducer batchSize _ (hgoes.of_seen hseen) hin
              (hdb ▸ hpending) ?_
            rw [hhead]
            exact hheader
          · next e x hnumber =>
            rw [hnumber] at hlast
            exact hin.of_seen hlast
        · next e v hrun =>
          rw [hrun] at hlatest
          exact hin.of_seen (seen_of_leave hlatest)
  · next e u hrun =>
    rw [hrun] at hpending
    exact h.of_seen (seen_of_leave hpending)

/-- op-geth has every recorded block, so `pre_run` reproduces none. -/
theorem preRun_inOrder
    (hstorage : I.ethereumBlockStorage
      = PgStorage.ethereumBlockStorage X Server.pool.beside.beside)
    (hproducer : I.blockProducer = some (P.watched C.height)) (startSlot : Option Slot)
    (turns : Nat) {w : ProductionWorld block γ} (h : InOrder C w) :
    InOrder C ((I.preRun startSlot turns).after w) := by
  have hslot : ∀ blockNumber, EStateM.Preserves (seen C : ProductionWorld block γ → _)
      (Server.pool.beside.beside.query fun db =>
        .ok (PgStorage.getSlotForEthBlock blockNumber db)) :=
    fun blockNumber => preserves_seen (PgStorage.preserves_query _)
  have hlast : EStateM.Preserves (seen C : ProductionWorld block γ → _)
      (P.watched C.height).lastProducedBlock := preserves_second C.getBlockNumber
  have hlast := hlast w
  rw [EStateM.after] at hlast
  simp only [preRun, hproducer, hstorage, PgStorage.ethereumBlockStorage]
  rw [EStateM.after_bind]
  split
  · next lastBlockInProducer u hnumber =>
    rw [hnumber] at hlast
    have hin := h.of_seen hlast
    have hlatest := PgStorage.query_run (fun db => .ok (PgStorage.latestEthBlock db)) u
    rw [EStateM.after_bind]
    split
    · next latestBlock v hrun =>
      rw [hrun] at hlatest
      obtain ⟨hlatest, hv⟩ := hlatest
      injection hlatest with hlatest
      have hin' := hin.of_seen (seen_of_leave hv)
      cases latestBlock with
      | none =>
          refine hin'.of_seen (EStateM.Preserves.bind (hslot lastBlockInProducer) ?_ v)
          intro answer
          split
          · exact .pure _
          · split
            · exact .pure _
            · exact .throw _
      | some lastBlockInStorage =>
          have hnot : ¬ lastBlockInProducer < lastBlockInStorage := by
            obtain ⟨latest, hheader, rfl⟩ := C.latestNumber (second_ok hnumber)
            have hhead : C.head u.1.2 = C.head w.1.2 := congrArg (fun e => e.2.1) hlast
            rw [← hhead] at hheader
            have hle := hin.atMost.height_le
            rw [PgStorage.height, hlatest, CanonicalChain.height_eq hheader] at hle
            exact Nat.not_lt_of_le hle
          simp only [if_neg hnot]
          refine hin'.of_seen (EStateM.Preserves.bind (hslot lastBlockInStorage) ?_ v)
          intro answer
          split
          · exact .pure _
          · exact .throw _
    · next e v hrun =>
      rw [hrun] at hlatest
      exact hin.of_seen (seen_of_leave hlatest)
  · next e u hnumber =>
    rw [hnumber] at hlast
    exact h.of_seen hlast

/-! ## A whole run -/

/-- Registering parse results is one of the other steps. -/
theorem registerParseResults_others
    (hstorage : I.ethereumBlockStorage
      = PgStorage.ethereumBlockStorage X Server.pool.beside.beside)
    (parseResults : BTreeMap Slot BlockParseResult) (faults : List (Option Failure))
    (s : ProductionState block γ) : ∃ db, I.productionStep C.head s (.others db s.geth)
      (leave ((I.ethereumBlockStorage.registerParseResults parseResults).after
        (s.enter faults))) := by
  have hkeeps := PgStorage.preserves_registerParseResults (X := X) parseResults (s.enter faults)
  rw [hstorage]
  simp only [PgStorage.ethereumBlockStorage]
  injection hkeeps with hparams hrest
  injection hrest with hgeth hcalls
  refine ⟨_, hparams, rfl, ?_⟩
  rw [leave, hgeth, hcalls]
  rfl

/-- The condition on a step. -/
def GoesOnAt (X : StorageCrates) (C : CanonicalChain P) (s : ProductionState block γ) :
    ProductionAction block γ → Prop
  | .sync _ _ => GoesOn X C s
  | .start _ _ _ | .others _ _ => True

/-- If op-geth is ahead by the answers of a call, the call restores. -/
def RestoresWhenAhead (I : RollupIndexer (ProductionWorld block γ)) (s : ProductionState block γ) :
    ProductionAction block γ → Prop
  | .sync batchSize faults => ∀ blockProducer producerParams latestBlock lastBlockInProducer u v w,
      I.blockProducer = some blockProducer →
      I.ethereumBlockStorage.getPendingBlocks (s.enter faults) = .ok (some producerParams) u →
      I.ethereumBlockStorage.latestBlock u = .ok latestBlock v →
      blockProducer.lastProducedBlock v = .ok lastBlockInProducer w →
      latestBlock.getD 0 < lastBlockInProducer →
      I.restoreOrProduceBlocks batchSize (s.enter faults)
        = I.restoreBlocks (latestBlock.getD 0 + 1) lastBlockInProducer producerParams numRetries w
  | .start _ _ _ | .others _ _ => True

theorem restoresWhenAhead_of_goesOn
    (hstorage : I.ethereumBlockStorage
      = PgStorage.ethereumBlockStorage X Server.pool.beside.beside)
    (hproducer : I.blockProducer = some (P.watched C.height)) {s : ProductionState block γ}
    {action : ProductionAction block γ} (h : GoesOnAt X C s action) :
    RestoresWhenAhead I s action := by
  cases action with
  | start startSlot turns faults => trivial
  | others db geth => trivial
  | sync batchSize faults =>
      intro blockProducer producerParams latestBlock lastBlockInProducer u v w hsome hpending
        hlatest hlast hlt
      rw [hproducer] at hsome
      cases hsome
      have hahead : latestBlock.getD 0 + 1 < lastBlockInProducer := by
        rw [hstorage] at hpending hlatest
        have hpendingRun := PgStorage.query_run (PgStorage.getPendingBlocks X) (s.enter faults)
        rw [show Server.pool.beside.beside.query (PgStorage.getPendingBlocks X) (s.enter faults)
          = .ok (some producerParams) u from hpending] at hpendingRun
        have hlatestRun := PgStorage.query_run (fun db => .ok (PgStorage.latestEthBlock db)) u
        rw [show Server.pool.beside.beside.query (fun db => .ok (PgStorage.latestEthBlock db)) u
          = .ok latestBlock v from hlatest] at hlatestRun
        obtain ⟨hoffered, hu⟩ := hpendingRun
        obtain ⟨hnumber, hv⟩ := hlatestRun
        injection hnumber with hnumber
        have hleave : leave v = s := hv.trans hu
        have hdb : u.1.1.db = s.db := congrArg ProductionState.db hu
        have hgeth : v.1.2 = s.geth := congrArg ProductionState.geth hleave
        obtain ⟨latest, hheader, rfl⟩ := C.latestNumber (second_ok hlast)
        have hne := (h producerParams hoffered).1
        rw [← hgeth, CanonicalChain.height_eq hheader, PgStorage.height, ← hdb, hnumber] at hne
        omega
      simp only [restoreOrProduceBlocks, hproducer, bind, EStateM.bind, hpending, hlatest, hlast,
        if_pos hahead]

/-- One step. -/
theorem inOrder_step
    (hstorage : I.ethereumBlockStorage
      = PgStorage.ethereumBlockStorage X Server.pool.beside.beside)
    (hproducer : I.blockProducer = some (P.watched C.height)) {s t : ProductionState block γ}
    {action : ProductionAction block γ} (h : InOrder C (s.enter []))
    (hgoes : GoesOnAt X C s action) (hstep : I.productionStep C.head s action t) :
    InOrder C (t.enter []) := by
  cases action with
  | sync batchSize faults =>
      obtain rfl := hstep
      have hin : InOrder C (s.enter faults) := h.of_seen rfl
      have hgoes : GoesOn X C (leave (s.enter faults)) := hgoes
      exact (restoreOrProduceBlocks_inOrder hstorage hproducer batchSize hgoes hin).of_seen rfl
  | start startSlot turns faults =>
      obtain rfl := hstep
      have hin : InOrder C (s.enter faults) := h.of_seen rfl
      exact (preRun_inOrder hstorage hproducer startSlot turns hin).of_seen rfl
  | others db geth =>
      obtain ⟨hparams, hhead, rfl⟩ := hstep
      refine ⟨?_, h.calls⟩
      have hmost := h.atMost.grown (Or.inl hhead)
      intro id params hid
      exact hmost id params (hparams ▸ hid)

/-- In a run where no call finds op-geth one block ahead, and none is handed pending blocks
with a parent that is not the latest block, blocks are only produced when both sides are
level, and restored whenever op-geth is ahead. -/
theorem produced_when_level
    (hstorage : I.ethereumBlockStorage
      = PgStorage.ethereumBlockStorage X Server.pool.beside.beside)
    (hproducer : I.blockProducer = some (P.watched C.height))
    {tr : List (ProductionState block γ × ProductionAction block γ)} {s : ProductionState block γ}
    (hrun : (I.productionMachine C.head C.height).Run tr s)
    (hmeets : Machine.Meets (GoesOnAt X C) tr) :
    (∀ t ∈ Machine.visited tr s, ∀ c ∈ t.calls, c.producer = c.storage) ∧
      ∀ e ∈ tr, RestoresWhenAhead I e.1 e.2 := by
  constructor
  · have hinit : ∀ s, (I.productionMachine C.head C.height).init s → InOrder C (s.enter []) := by
      intro s hs
      obtain ⟨hdb, _, hcalls⟩ := hs
      refine ⟨fun id params hparams => ?_, fun call hcall => ?_⟩
      · rw [show (s.enter []).1.1.db = Db.empty from hdb] at hparams
        cases hparams
      · rw [show (s.enter []).2 = [] from hcalls] at hcall
        cases hcall
    have hall := hrun.invariant_always hinit
      (fun s action t h hgoes hstep => inOrder_step hstorage hproducer h hgoes hstep) hmeets
    exact fun t ht => (hall t ht).calls
  · exact fun e he => restoresWhenAhead_of_goesOn hstorage hproducer (hmeets e he)

end RollupIndexer

/-! A database with one pending block, and an op-geth with room for it on top of the genesis
block. The hashes of the two blocks are 1 and 2. -/

namespace OneBlock

open PgStorage (chainStandIns)

def pendingDb : Db Unit :=
  { (Db.empty : Db Unit) with
    solSlot := (∅ : HashMap Slot SolSlot).insert 7
      ⟨6, .confirmed, some "11111111111111111111111111111111", some 1⟩
    evmTx := (∅ : HashMap TxHash Bytes).insert 1 ([1] : Bytes)
    evmTxResult := (∅ : HashMap (Slot × TxHash) EvmTxResult).insert (7, 1) ⟨.default, none⟩
    ethBlock := (∅ : HashMap EthBlockId EthBlockHeader).insert (7, 0) ⟨0, none, some 1, none⟩
    ethBlockTxs := (∅ : HashMap (EthBlockId × TxHash) Nat).insert ((7, 0), 1) 0 }

def genesis : GethBlock := ⟨some 1, 0, some 0, 0⟩

def first : GethBlock := ⟨some 2, 1, some 1, 1⟩

/-- The world says whether the first block is there. -/
def gethApi : GethApi Bool where
  getBlock
    | .hash hash => fun built =>
        .ok (if hash = 1 then some genesis else if hash = 2 ∧ built then some first else none) built
    | .latest => fun built => .ok (some (if built then first else genesis)) built
    | .finalized => fun built => .ok (some genesis) built
    | .number number => fun built =>
        .ok (if number = 0 then some genesis
          else if number = 1 ∧ built then some first else none) built
  getBlockNumber := fun built => .ok (if built then 1 else 0) built

def firstParams : ForkchoiceUpdateParams where
  transactions := [[]]
  gasPrices := [0]
  gasUsed := [0]
  timestamp := 1
  prevRandao := prevRandao
  suggestedFeeRecipient := 0
  withdrawals := []
  noTxPool := true

def gethEngine : GethEngine Bool where
  forkchoiceUpdatedV2 state params := fun built =>
    if state.headBlockHash = 1 then
      .ok (if params = some firstParams then some "first" else none) false
    else if state.headBlockHash = 2 then .ok none true
    else .ok none built
  getPayloadV2 payloadId := fun built =>
    .ok (if payloadId = "first" then some ⟨1, 2, none, []⟩ else none) built
  newPayloadV2 payload := fun built =>
    if payload.blockHash = 2 then .ok 2 built
    else .error (.err (.custom "Invalid payload")) built

def producer : EngineAPIBlockProducer Bool := ⟨gethEngine, gethApi, fun _ => []⟩

def header (hash : H256) : Option Header :=
  if hash = 1 then some ⟨0, 0, 0⟩
  else if hash = 2 then some ⟨1, 1, 1⟩
  else none

theorem getBlock_cases {id : BlockId} {s t : Bool} {b : GethBlock}
    (h : producer.gethApi.getBlock id s = .ok (some b) t) : b = genesis ∨ b = first := by
  cases id with
  | hash hash =>
      simp only [producer, gethApi] at h
      split at h
      · cases h
        exact Or.inl rfl
      · split at h
        · cases h
          exact Or.inr rfl
        · cases h
  | latest =>
      simp only [producer, gethApi] at h
      cases h
      split
      · exact Or.inr rfl
      · exact Or.inl rfl
  | finalized =>
      cases h
      exact Or.inl rfl
  | number number =>
      simp only [producer, gethApi] at h
      split at h
      · cases h
        exact Or.inl rfl
      · split at h
        · cases h
          exact Or.inr rfl
        · cases h

def engineChain : EngineChain producer where
  header := header
  started payloadId := if payloadId = "first" then some (1, firstParams) else none
  reported := by
    intro id s b hash t hget hhash
    rcases getBlock_cases hget with rfl | rfl
    · cases hhash
      exact ⟨0, rfl, rfl⟩
    · cases hhash
      exact ⟨1, rfl, rfl⟩
  reportedByHash := by
    intro hash s b t hget
    simp only [producer, gethApi] at hget
    split at hget
    · next hhash =>
      cases hget
      rw [hhash]
      rfl
    · split at hget
      · next hhash =>
        cases hget
        rw [hhash.1]
        rfl
      · cases hget
  starts := by
    intro state params s payloadId t h
    simp only [producer, gethEngine] at h
    split at h
    · next hhead =>
      split at h
      · next hparams =>
        cases h
        cases hparams
        rw [hhead]
        rfl
      · cases h
    · split at h
      · cases h
      · cases h
  builds := by
    intro payloadId s payload t parentHash params parent hget hstarted hparent
    simp only [producer, gethEngine] at hget
    split at hget
    · next hid =>
      cases hget
      rw [if_pos hid] at hstarted
      cases hstarted
      cases hparent
      exact ⟨rfl, rfl⟩
    · cases hget

def chain : CanonicalChain producer where
  toEngineChain := engineChain
  head built := if built then 2 else 1
  getBlock id := by
    intro s
    cases id <;> rfl
  getBlockNumber := fun _ => rfl
  getPayloadV2 payloadId := fun _ => rfl
  newPayloadV2 payload := by
    intro s
    simp only [producer, gethEngine, EStateM.after]
    split <;> rfl
  moves state params built := by
    by_cases hgenesis : state.headBlockHash = 1
    · simp only [producer, gethEngine, EStateM.after, if_pos hgenesis]
      exact Or.inr hgenesis.symm
    · by_cases hfirst : state.headBlockHash = 2
      · simp only [producer, gethEngine, EStateM.after, if_neg hgenesis, if_pos hfirst]
        exact Or.inr hfirst.symm
      · simp only [producer, gethEngine, EStateM.after, if_neg hgenesis, if_neg hfirst]
        exact Or.inl trivial
  valid := by
    intro payloadId g payload g' gasUsed u hash u' hget hnew
    simp only [producer, gethEngine] at hnew
    split at hnew
    · next hhash =>
      cases hnew
      exact hhash.symm
    · cases hnew
  becomesHead := by
    intro payload g hash g' finalized payloadId g'' hnew hupdate
    simp only [producer, gethEngine] at hnew
    split at hnew
    · cases hnew
      cases hupdate
      rfl
    · cases hnew
  latest := by
    intro g b g' h
    cases h
    cases g <;> rfl
  latestNumber := by
    intro g number g' h
    cases h
    cases g <;> exact ⟨_, rfl, rfl⟩
  byNumber := by
    intro number g b g' h
    simp only [producer, gethApi] at h
    split at h
    · next hnumber =>
      cases h
      refine ⟨congrArg some hnumber.symm, fun latest hlatest heq => ?_⟩
      cases g with
      | false => rfl
      | true =>
          cases hlatest
          rw [hnumber] at heq
          cases heq
    · split at h
      · next hnumber =>
        cases h
        refine ⟨congrArg some hnumber.1.symm, fun latest hlatest heq => ?_⟩
        rw [hnumber.2]
        rfl
      · cases h

def indexer : RollupIndexer (ProductionWorld Unit Bool) where
  parse _ _ := pure none
  retainParsed _ := pure ()
  solanaBlockStorage := ⟨pure none, fun _ => pure (), fun _ _ => False⟩
  ethereumBlockStorage := PgStorage.ethereumBlockStorage chainStandIns Server.pool.beside.beside
  blockProducer := some (producer.watched chain.height)
  maxSlotHistory := none

abbrev machine : Machine (ProductionState Unit Bool) (ProductionAction Unit Bool) :=
  indexer.productionMachine chain.head chain.height

/-- The block is stored. -/
def stored : ProductionState Unit Bool := ⟨pendingDb, false, []⟩

theorem run_stored : machine.Run [(⟨Db.empty, false, []⟩, .others pendingDb false)] stored := by
  have hstart : machine.Run [] ⟨Db.empty, false, []⟩ := .start ⟨rfl, rfl, rfl⟩
  have hstep : machine.step ⟨Db.empty, false, []⟩ (.others pendingDb false) stored := by
    refine ⟨?_, rfl, rfl⟩
    funext id
    rw [paramsOf, pendingDb, HashMap.lookup_insert']
    split <;> rfl
  exact .next hstart hstep

/-- The block is produced, and the indexer stops before it is recorded. -/
def stoppedRun : List (ProductionState Unit Bool × ProductionAction Unit Bool) :=
  [(⟨Db.empty, false, []⟩, .others pendingDb false),
    (stored, .sync 1024 [none, none, some (.panic "stopped")]),
    (⟨pendingDb, true, [⟨0, 0⟩]⟩, .start (some 7) 1 []),
    (⟨pendingDb, true, [⟨0, 0⟩]⟩, .sync 1024 [])]

/-- After the restart it is produced again, and op-geth is one block ahead. -/
theorem produced_again : machine.Run stoppedRun ⟨pendingDb, true, [⟨0, 0⟩, ⟨0, 1⟩]⟩ ∧
    ∃ c ∈ [(⟨0, 0⟩ : Heights), ⟨0, 1⟩], c.producer ≠ c.storage := by
  refine ⟨?_, ⟨0, 1⟩, by decide, by decide⟩
  have hstop : machine.step stored (.sync 1024 [none, none, some (.panic "stopped")])
      ⟨pendingDb, true, [⟨0, 0⟩]⟩ := rfl
  have hstart : machine.step ⟨pendingDb, true, [⟨0, 0⟩]⟩ (.start (some 7) 1 [])
      ⟨pendingDb, true, [⟨0, 0⟩]⟩ := rfl
  have hsync : machine.step ⟨pendingDb, true, [⟨0, 0⟩]⟩ (.sync 1024 [])
      ⟨pendingDb, true, [⟨0, 0⟩, ⟨0, 1⟩]⟩ := rfl
  exact .next (.next (.next run_stored hstop) hstart) hsync

/-- The indexer stops once the block is recorded. -/
def recorded : ProductionState Unit Bool := ProductionState.leave
  ((indexer.restoreOrProduceBlocks 1024).after
    (stored.enter [none, none, none, some (.panic "stopped")]))

def recordedRun : List (ProductionState Unit Bool × ProductionAction Unit Bool) :=
  [(⟨Db.empty, false, []⟩, .others pendingDb false),
    (stored, .sync 1024 [none, none, none, some (.panic "stopped")]),
    (recorded, .start none 1 [])]

/-- Then it is not produced again. -/
theorem recorded_not_produced_again : recorded.calls = [⟨0, 0⟩] ∧
    (∀ t ∈ Machine.visited recordedRun recorded, ∀ c ∈ t.calls, c.producer = c.storage) ∧
      ∀ e ∈ recordedRun, RollupIndexer.RestoresWhenAhead indexer e.1 e.2 := by
  have hstop : machine.step stored (.sync 1024 [none, none, none, some (.panic "stopped")])
      recorded := rfl
  have hstart : machine.step recorded (.start none 1 []) recorded := rfl
  have hgoes : RollupIndexer.GoesOn chainStandIns chain stored := by
    intro producerParams hpending
    have hparent : producerParams.parentHash = none := by
      have hrun : (PgStorage.getPendingBlocks chainStandIns pendingDb).map
          (Option.map ProducerParams.parentHash) = .ok (some none) := by decide
      rw [show PgStorage.getPendingBlocks chainStandIns pendingDb = .ok (some producerParams)
        from hpending] at hrun
      exact Option.some.inj (Except.ok.inj hrun)
    refine ⟨by decide, fun _ hash hhash => ?_⟩
    rw [hparent] at hhash
    cases hhash
  have hmeets : Machine.Meets (RollupIndexer.GoesOnAt chainStandIns chain) recordedRun := by
    intro e he
    simp only [recordedRun, List.mem_cons, List.not_mem_nil, or_false] at he
    rcases he with rfl | rfl | rfl
    · trivial
    · exact hgoes
    · trivial
  exact ⟨rfl, RollupIndexer.produced_when_level rfl rfl
    (.next (.next run_stored hstop) hstart) hmeets⟩

end OneBlock

end RomeSdk
