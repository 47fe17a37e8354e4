import RomeSdk.Proofs.EngineBatches

/-!
# The calls of a production

What `produce_blocks` asks op-geth for, call by call. An `Advance` is a call of
`advance_rollup_state` with its answer, and a run of the loop is a list of them: each is
made for the next pending block (`Advance.For`), on what the one before handed over
(`Advance.Threaded`), and in the state it left (`Advances`).

With an engine that always succeeds the loop can only end in two ways (`Went`). It goes
through the pending blocks up to the one with which it is done, or it comes to one that
it cannot put into a request.
-/

namespace RomeSdk

open ItemId (Before)

/-- A call of `advance_rollup_state` for a pending block, with its answer. -/
structure Advance where
  id : EthBlockId
  finalizedBlockhash : H256
  parentHash : H256
  timestamp : U256
  transactions : List StateAdvanceTx
  gasRecipient : Option Address
  finalizeNewBlock : Bool
  number : Nat
  hash : H256

namespace Advance

/-- What is recorded of the block. -/
def entry (a : Advance) : EthBlockId × BlockParams :=
  (a.id, ⟨a.hash, some a.parentHash, a.number, a.timestamp⟩)

/-- The finalized block after some calls. -/
def finalizedAfter (finalized : H256) : List Advance → H256
  | [] => finalized
  | a :: rest => finalizedAfter (if a.finalizeNewBlock then a.hash else finalized) rest

/-- Each call is made on what the one before handed over. -/
def Threaded (nextFinalized : Option EthBlockId) : H256 → H256 → List Advance → Prop
  | _, _, [] => True
  | finalized, parentHash, a :: rest =>
      a.finalizedBlockhash = finalized ∧ a.parentHash = parentHash ∧
        a.finalizeNewBlock = EngineAPIBlockProducer.finalizes nextFinalized a.id.1 a.id.2 ∧
        Threaded nextFinalized (if a.finalizeNewBlock then a.hash else finalized) a.hash rest

variable {σ : Type}

/-- The call is made for this pending block. -/
def For (P : EngineAPIBlockProducer σ) (a : Advance) (task : PendingTask) : Prop :=
  a.id = task.id ∧ a.timestamp = task.timestamp ∧ a.gasRecipient = task.l2Block.gasRecipient ∧
    P.stateAdvanceTxs (task.l2Block.transactions.toList.map Prod.snd) = .ok a.transactions

theorem ids_eq {P : EngineAPIBlockProducer σ} {advances : List Advance} {tasks : List PendingTask}
    (h : List.Forall₂ (For P) advances tasks) : advances.map id = tasks.map PendingTask.id := by
  induction h with
  | nil => rfl
  | cons ha _ ih => rw [List.map_cons, List.map_cons, ha.1, ih]

theorem exists_for {P : EngineAPIBlockProducer σ} {advances : List Advance}
    {tasks : List PendingTask} (h : List.Forall₂ (For P) advances tasks) :
    ∀ task ∈ tasks, ∃ a, For P a task := by
  induction h with
  | nil => intro task htask; cases htask
  | cons ha _ ih =>
      intro task htask
      rcases List.mem_cons.mp htask with rfl | htask
      · exact ⟨_, ha⟩
      · exact ih task htask

end Advance

variable {σ : Type} {P : EngineAPIBlockProducer σ}

/-- The calls, made one after the other, lead from the one state to the other. -/
def Advances (P : EngineAPIBlockProducer σ) : σ → List Advance → σ → Prop
  | s, [], t => t = s
  | s, a :: rest, t => ∃ u,
      P.gethEngine.advanceRollupState a.finalizedBlockhash a.parentHash a.timestamp a.transactions
        a.gasRecipient a.finalizeNewBlock s = .ok (a.number, a.hash) u ∧ Advances P u rest t

/-- The number of slots the blocks are in. -/
def slotCount (tasks : List PendingTask) : Nat :=
  (tasks.map fun task => task.id.1).dedup.length

theorem slotCount_le (tasks : List PendingTask) : slotCount tasks ≤ tasks.length := by
  have hle := (List.dedup_sublist (tasks.map fun task => task.id.1)).length_le
  rwa [List.length_map] at hle

/-- The limit is reached with that many. -/
def limitReached (limit : Option Nat) (n : Nat) : Bool :=
  match limit with
  | some limit => limit ≤ n
  | none => false

theorem limitReached_some {limit n : Nat} : limitReached (some limit) n ↔ limit ≤ n :=
  decide_eq_true_iff

/-- The produced blocks are those of the tasks, and of no others. -/
def HoldsTasks (producedBlocks : ProducedBlocks) (done : List PendingTask) : Prop :=
  NestedMap.Full producedBlocks ∧
    (NestedMap.entries producedBlocks).map Prod.fst = done.map PendingTask.id

theorem HoldsTasks.len {producedBlocks : ProducedBlocks} {done : List PendingTask}
    (h : HoldsTasks producedBlocks done) : producedBlocks.len = slotCount done := by
  have hslots : (NestedMap.entries producedBlocks).map (fun e => e.1.1)
      = done.map fun task => task.id.1 := by
    have hmap := congrArg (List.map Prod.fst) h.2
    rw [List.map_map, List.map_map] at hmap
    exact hmap
  rw [ProducedBlocks.len, NestedMap.size_eq_groups h.1, hslots, slotCount]

/-- A block that is inserted after all others is the next one. -/
theorem HoldsTasks.insert {producedBlocks : ProducedBlocks} {done : List PendingTask}
    (h : HoldsTasks producedBlocks done) (task : PendingTask) {params : BlockParams}
    (hset : NestedMap.entries (producedBlocks.insert task.id.1 task.id.2 params)
      = NestedMap.entries producedBlocks ++ [(task.id, params)]) :
    HoldsTasks (producedBlocks.insert task.id.1 task.id.2 params) (done ++ [task]) := by
  refine ⟨h.1.set task.id params, ?_⟩
  rw [hset, List.map_append, List.map_append, h.2, List.map_singleton, List.map_singleton]

theorem holdsTasks_empty : HoldsTasks ∅ [] := by
  refine ⟨NestedMap.full_empty, ?_⟩
  rw [NestedMap.entries_empty, List.map_nil, List.map_nil]

namespace EngineAPIBlockProducer

/-- Every call of `advance_rollup_state` answers with a block. -/
def AlwaysAdvances (P : EngineAPIBlockProducer σ) : Prop :=
  ∀ finalizedBlockhash parentHash timestamp transactions gasRecipient finalizeNewBlock s,
    ∃ number hash t, P.gethEngine.advanceRollupState finalizedBlockhash parentHash timestamp
      transactions gasRecipient finalizeNewBlock s = .ok (number, hash) t

/-- What becomes of the loop of `produce_blocks`, after the tasks that are done. -/
inductive Went (P : EngineAPIBlockProducer σ) (nextFinalized : Option EthBlockId)
    (limit : Option Nat) (done tasks : List PendingTask) (finalized parentHash : H256)
    (given : ProducedBlocks) (s : σ) : EStateM.Result Failure σ ProductionResult → Prop
  | returned {result : ProductionResult} {t : σ} (advances : List Advance)
      (calls : Advances P s advances t)
      (threaded : Advance.Threaded nextFinalized finalized parentHash advances)
      (built : List.Forall₂ (Advance.For P) advances
        (goneThrough (fun l => limitReached limit (slotCount l)) done tasks))
      (entries : NestedMap.entries result.producedBlocks
        = NestedMap.entries given ++ advances.map Advance.entry)
      (last : result.finalizedBlock = Advance.finalizedAfter finalized advances) :
      Went P nextFinalized limit done tasks finalized parentHash given s (.ok result t)
  | failed {e : Failure} {t : σ} (advances : List Advance) (before : List PendingTask)
      (task : PendingTask) (calls : Advances P s advances t)
      (threaded : Advance.Threaded nextFinalized finalized parentHash advances)
      (built : List.Forall₂ (Advance.For P) advances before)
      (reached : before ++ [task] <+:
        goneThrough (fun l => limitReached limit (slotCount l)) done tasks)
      (unfit : P.stateAdvanceTxs (task.l2Block.transactions.toList.map Prod.snd) = .error e) :
      Went P nextFinalized limit done tasks finalized parentHash given s (.error e t)

variable {nextFinalized : Option EthBlockId} {limit : Option Nat}

theorem reached_eq (limit : Option Nat) {producedBlocks : ProducedBlocks} {done : List PendingTask}
    (h : HoldsTasks producedBlocks done) :
    reached limit producedBlocks = limitReached limit (slotCount done) := by
  cases limit with
  | none => rfl
  | some limit => simp only [reached, limitReached, h.len]

/-- A call that does not end the loop comes before those of the rest. -/
theorem Went.cons {done tasks : List PendingTask} {task : PendingTask} {a : Advance}
    {finalized parentHash : H256} {given given' : ProducedBlocks} {s u : σ}
    {answer : EStateM.Result Failure σ ProductionResult}
    (h : Went P nextFinalized limit (done ++ [task]) tasks
      (if a.finalizeNewBlock then a.hash else finalized) a.hash given' u answer)
    (hgoesOn : ¬ limitReached limit (slotCount (done ++ [task])))
    (hcall : P.gethEngine.advanceRollupState a.finalizedBlockhash a.parentHash a.timestamp
      a.transactions a.gasRecipient a.finalizeNewBlock s = .ok (a.number, a.hash) u)
    (hfinalized : a.finalizedBlockhash = finalized) (hparent : a.parentHash = parentHash)
    (hfinalizes : a.finalizeNewBlock = finalizes nextFinalized a.id.1 a.id.2)
    (hfor : a.For P task)
    (hset : NestedMap.entries given' = NestedMap.entries given ++ [a.entry]) :
    Went P nextFinalized limit done (task :: tasks) finalized parentHash given s answer := by
  have hthrough : goneThrough (fun l => limitReached limit (slotCount l)) done (task :: tasks)
      = task :: goneThrough (fun l => limitReached limit (slotCount l)) (done ++ [task]) tasks :=
    goneThrough_cons tasks hgoesOn
  cases h with
  | returned advances hcalls hthreaded hbuilt hentries hlast =>
      refine .returned (a :: advances) ⟨u, hcall, hcalls⟩ ⟨hfinalized, hparent, hfinalizes,
        hthreaded⟩ ?_ ?_ hlast
      · rw [hthrough]
        exact .cons hfor hbuilt
      · rw [hentries, hset, List.append_assoc, List.singleton_append, List.map_cons]
  | failed advances before task' hcalls hthreaded hbuilt hreached hunfit =>
      refine .failed (a :: advances) (task :: before) task' ⟨u, hcall, hcalls⟩ ⟨hfinalized,
        hparent, hfinalizes, hthreaded⟩ (.cons hfor hbuilt) ?_ hunfit
      rw [hthrough, List.cons_append]
      exact List.cons_prefix_cons.mpr ⟨rfl, hreached⟩

theorem produceLoop_went (hengine : AlwaysAdvances P)
    (items : List (Slot × PendingL1Block × Nat × PendingL2Block)) :
    ∀ (done : List PendingTask) (finalized parentHash : H256) {given : ProducedBlocks} (s : σ),
    (items.map fun e => (e.1, e.2.2.1)).Pairwise Before →
    NestedMap.Below given (items.map fun e => (e.1, e.2.2.1)) → HoldsTasks given done →
    Went P nextFinalized limit done (items.map PendingTask.ofItem) finalized parentHash given s
      (P.produceLoop nextFinalized limit items finalized parentHash given s) := by
  induction items with
  | nil =>
      intro done finalized parentHash given s _ _ _
      exact .returned [] rfl trivial .nil (List.append_nil _).symm rfl
  | cons item rest ih =>
      intro done finalized parentHash given s hitems hbelow hholds
      obtain ⟨slotNumber, pendingL1Block, blockIdx, pendingL2Block⟩ := item
      let task : PendingTask := .ofItem (slotNumber, pendingL1Block, blockIdx, pendingL2Block)
      rw [produceLoop]
      cases htxs : P.stateAdvanceTxs (pendingL2Block.transactions.toList.map Prod.snd) with
      | error e =>
          refine .failed [] [] task rfl trivial .nil ?_ htxs
          rw [List.nil_append, List.map_cons, goneThrough]
          split
          · exact List.prefix_refl _
          · exact List.cons_prefix_cons.mpr ⟨rfl, List.nil_prefix⟩
      | ok txs =>
          obtain ⟨number, hash, u, hcall⟩ := hengine finalized parentHash pendingL1Block.timestamp
            txs pendingL2Block.gasRecipient (finalizes nextFinalized slotNumber blockIdx) s
          let a : Advance := ⟨(slotNumber, blockIdx), finalized, parentHash,
            pendingL1Block.timestamp, txs, pendingL2Block.gasRecipient,
            finalizes nextFinalized slotNumber blockIdx, number, hash⟩
          have hfor : a.For P task := ⟨rfl, rfl, rfl, htxs⟩
          have hset : NestedMap.entries (given.insert slotNumber blockIdx a.entry.2)
              = NestedMap.entries given ++ [a.entry] := NestedMap.Below.entries_set hbelow _
          have hholds' : HoldsTasks (given.insert slotNumber blockIdx a.entry.2) (done ++ [task]) :=
            hholds.insert task hset
          simp only [bind, EStateM.bind, attempt_of_ok hcall]
          have hreached := reached_eq limit hholds'
          split
          · next hstop =>
            have hthrough : goneThrough (fun l => limitReached limit (slotCount l)) done
                (task :: rest.map PendingTask.ofItem) = [task] :=
              goneThrough_cons_stop _ (hreached.symm.trans hstop)
            refine .returned [a] ⟨u, hcall, rfl⟩ ⟨rfl, rfl, rfl, trivial⟩ ?_ hset rfl
            rw [List.map_cons, hthrough]
            exact .cons hfor .nil
          · next hgoesOn =>
            have hbelow' : NestedMap.Below (given.insert slotNumber blockIdx a.entry.2)
                (rest.map fun e => (e.1, e.2.2.1)) := NestedMap.Below.set hbelow hitems _
            exact Went.cons (a := a) (ih (done ++ [task]) _ hash u hitems.of_cons hbelow' hholds')
              (fun hstop => hgoesOn (hreached.trans hstop)) hcall rfl rfl rfl hfor hset

/-- The finalized block the loop begins with. -/
def finalityStart (finalizedBlock : Option FinalizedBlock) (finalizedBlockhash : H256) : H256 :=
  match finalizedBlock with
  | some (.produced hash) => hash
  | _ => finalizedBlockhash

/-- The pending block that is to be finalized. -/
def finalityTarget (finalizedBlock : Option FinalizedBlock) : Option EthBlockId :=
  match finalizedBlock with
  | some (.pending id) => some id
  | _ => none

/-- With the parent block at hand, a call of `produce_blocks` is its loop. -/
theorem produceBlocks_went (hengine : AlwaysAdvances P) {params : ProducerParams}
    (limit : Option Nat) {parentBlock : GethBlock} {finalizedBlockhash parentHash : H256}
    {s u v : σ} (hparent : P.getParentBlock params.parentHash s = .ok parentBlock u)
    (hfinalized : P.firstFinalized parentBlock params.parentHash u = .ok finalizedBlockhash v)
    (hhash : parentBlock.hash = some parentHash) :
    Went P (finalityTarget params.finalizedBlock) limit [] params.pendingBlocks.tasks
      (finalityStart params.finalizedBlock finalizedBlockhash) parentHash ∅ v
      (P.produceBlocks params limit s) := by
  have hitems : (params.pendingBlocks.iter.map fun e => (e.1, e.2.2.1)).Pairwise Before := by
    rw [iter_keys]
    exact keys_ascending _
  have hloop : P.produceBlocks params limit s
      = P.produceLoop (finalityTarget params.finalizedBlock) limit params.pendingBlocks.iter
          (finalityStart params.finalizedBlock finalizedBlockhash) parentHash ∅ v := by
    simp only [produceBlocks, bind, EStateM.bind, hparent, hfinalized, hhash]
    rcases params.finalizedBlock with _ | hash | id <;> rfl
  rw [hloop]
  exact produceLoop_went hengine _ [] _ _ v hitems (NestedMap.below_empty _) holdsTasks_empty

end EngineAPIBlockProducer

/-! An op-geth that builds whatever it is asked for. The world is the number of its latest
block, and a block has its number for its hash; block 1 is finalized. -/

namespace ObligingGeth

def block (number : Nat) : GethBlock where
  hash := some (BitVec.ofNat 256 number)
  parentHash := BitVec.ofNat 256 (number - 1)
  number := some number
  timestamp := 0

def gethApi : GethApi Nat where
  getBlock
    | .hash hash => fun latest => .ok (some (block hash.toNat)) latest
    | .latest => fun latest => .ok (some (block latest)) latest
    | .finalized => fun latest => .ok (some (block 1)) latest
    | .number number => fun latest => .ok (some (block number)) latest
  getBlockNumber := fun latest => .ok latest latest

def gethEngine : GethEngine Nat where
  forkchoiceUpdatedV2 _ params := fun latest => .ok (params.map fun _ => "next") latest
  getPayloadV2 _ := fun latest =>
    .ok (some ⟨latest + 1, BitVec.ofNat 256 (latest + 1), none, []⟩) latest
  newPayloadV2 payload := fun _ => .ok payload.blockHash payload.blockNumber

def producer : EngineAPIBlockProducer Nat := ⟨gethEngine, gethApi, fun _ => []⟩

theorem alwaysAdvances : producer.AlwaysAdvances :=
  fun _ _ _ _ _ _ latest => ⟨latest + 1, BitVec.ofNat 256 (latest + 1), latest + 1, rfl⟩

def twoBlocks : PendingL1Block where
  blockhash := 0
  timestamp := 0
  l2Blocks := ((∅ : BTreeMap Nat PendingL2Block).insert 0 ⟨∅, none⟩).insert 1 ⟨∅, none⟩

/-- Two empty blocks in slot 5 and two in slot 6, on top of block 2. -/
def producerParams (finalizedBlock : Option FinalizedBlock) : ProducerParams where
  parentHash := some 2
  finalizedBlock := finalizedBlock
  pendingBlocks := ((∅ : PendingBlocks).insert 5 twoBlocks).insert 6 twoBlocks

end ObligingGeth

end RomeSdk
