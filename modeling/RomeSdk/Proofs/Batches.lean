import RomeSdk.Indexer.SingleStateBlockProducer
import RomeSdk.Lib.Handover
import RomeSdk.Proofs.RecordedBatch

/-!
# Blocks produced in batches

The loop of `restore_or_produce_blocks` hands the pending blocks over in batches: a
batch ends at a limit of its producer, its last block is the parent of the next one, and
what is left of the pending blocks is what comes after it. A producer is read here as
working off the pending blocks one after the other, from the parent hash on
(`WorksOff`), however far it gets in one call. The batches of such a producer, one after
the other, are then what it makes of all pending blocks in one call
(`produceLoop_batches`), since `retain_after` keeps what has not been produced
(`tasks_retainAfter`).
-/

namespace RomeSdk

open ItemId (Before)

/-- A pending block with what a producer reads of its slot. -/
structure PendingTask where
  id : EthBlockId
  blockhash : H256
  timestamp : U256
  l2Block : PendingL2Block

/-- The block at an index of a pending slot. -/
def PendingTask.ofItem (e : Slot × PendingL1Block × Nat × PendingL2Block) : PendingTask :=
  ⟨(e.1, e.2.2.1), e.2.1.blockhash, e.2.1.timestamp, e.2.2.2⟩

def PendingBlocks.tasks (pending : PendingBlocks) : List PendingTask :=
  pending.iter.map PendingTask.ofItem

/-- What a pending slot has to do. -/
def PendingL1Block.tasks (slotNumber : Slot) (pendingL1Block : PendingL1Block) :
    List PendingTask :=
  pendingL1Block.l2Blocks.toList.map fun b =>
    ⟨(slotNumber, b.1), pendingL1Block.blockhash, pendingL1Block.timestamp, b.2⟩

namespace PendingBlocks

theorem tasks_eq (pending : PendingBlocks) :
    pending.tasks = pending.toList.flatMap fun e => e.2.tasks e.1 := by
  rw [tasks, iter, List.map_flatMap]
  simp only [List.map_map]
  rfl

theorem tasks_ids (pending : PendingBlocks) :
    pending.tasks.map PendingTask.id = pending.keys := by
  rw [tasks, List.map_map, ← EngineAPIBlockProducer.iter_keys]
  rfl

theorem tasks_ascending (pending : PendingBlocks) :
    pending.tasks.Pairwise fun a b => Before a.id b.id := by
  rw [← List.pairwise_map (f := PendingTask.id) (R := Before), tasks_ids]
  exact EngineAPIBlockProducer.keys_ascending pending

theorem length_tasks (pending : PendingBlocks) : pending.tasks.length = pending.keys.length := by
  rw [← tasks_ids, List.length_map]

end PendingBlocks

/-- What is kept of one slot is what comes after the last block. -/
theorem PendingL1Block.tasks_retained (pendingL1Block : PendingL1Block) (slotNumber : Slot)
    (last : EthBlockId) :
    (((if last.1 < slotNumber then some pendingL1Block
      else if slotNumber = last.1 then
        let l2Blocks := pendingL1Block.l2Blocks.filter fun blockIdx _ => last.2 < blockIdx
        if l2Blocks.isEmpty then none else some { pendingL1Block with l2Blocks := l2Blocks }
      else none : Option PendingL1Block).map fun kept => kept.tasks slotNumber).getD [])
      = (pendingL1Block.tasks slotNumber).filter fun task => Before last task.id := by
  rw [tasks, List.filter_map]
  by_cases habove : last.1 < slotNumber
  · rw [if_pos habove, List.filter_eq_self.mpr]
    · rfl
    · intro b _
      exact decide_eq_true (Or.inl habove)
  · rw [if_neg habove]
    by_cases hsame : slotNumber = last.1
    · have hkept : (pendingL1Block.l2Blocks.filter fun blockIdx _ => last.2 < blockIdx).toList
          = pendingL1Block.l2Blocks.toList.filter fun b => last.2 < b.1 :=
        Std.ExtTreeMap.toList_filter
      have hfilter : (pendingL1Block.l2Blocks.toList.filter fun b =>
            decide (Before last (slotNumber, b.1)))
          = pendingL1Block.l2Blocks.toList.filter fun b => last.2 < b.1 := by
        refine List.filter_congr fun b _ => ?_
        rw [decide_eq_decide]
        constructor
        · intro h
          exact h.elim (fun hlt => absurd hlt habove) And.right
        · intro h
          exact Or.inr ⟨hsame.symm, h⟩
      rw [if_pos hsame]
      show _ = List.map _ (pendingL1Block.l2Blocks.toList.filter fun b =>
            decide (Before last (slotNumber, b.1)))
      rw [hfilter, ← hkept]
      simp only
      split
      · next hempty =>
        rw [Std.ExtTreeMap.isEmpty_iff.mp hempty]
        simp
      · rfl
    · rw [if_neg hsame]
      have hnone : (pendingL1Block.l2Blocks.toList.filter fun b =>
          decide (Before last (slotNumber, b.1))) = [] := by
        rw [List.filter_eq_nil_iff]
        intro b _
        rw [decide_eq_true_eq]
        intro h
        exact h.elim habove fun hsame' => hsame hsame'.1.symm
      show _ = List.map _ (pendingL1Block.l2Blocks.toList.filter fun b =>
            decide (Before last (slotNumber, b.1)))
      rw [hnone]
      rfl

namespace PendingBlocks

theorem tasks_retainAfter (pending : PendingBlocks) (last : EthBlockId) :
    (pending.retainAfter last.1 last.2).tasks
      = pending.tasks.filter fun task => Before last task.id := by
  rw [tasks_eq, tasks_eq, retainAfter, Std.ExtTreeMap.toList_filterMap, List.filter_flatMap]
  induction pending.toList with
  | nil => rfl
  | cons e rest ih =>
      have hslot := PendingL1Block.tasks_retained e.2 e.1 last
      rw [List.flatMap_cons, List.filterMap_cons, ← hslot]
      split
      · next hnone =>
        rw [Option.map_eq_none_iff] at hnone
        rw [ih, hnone]
        rfl
      · next kept hkept =>
        obtain ⟨kept', hkept', rfl⟩ := Option.map_eq_some_iff.mp hkept
        rw [List.flatMap_cons, ih, hkept']
        rfl

/-- Once the first blocks are produced, the others are left. -/
theorem tasks_after {pending : PendingBlocks} {done rest : List PendingTask} {last : PendingTask}
    (h : pending.tasks = done ++ rest) (hlast : done.getLast? = some last) :
    (pending.retainAfter last.id.1 last.id.2).tasks = rest := by
  have hascending := pending.tasks_ascending
  obtain ⟨before, rfl⟩ := List.getLast?_eq_some_iff.mp hlast
  rw [h, List.pairwise_append] at hascending
  obtain ⟨hdone, _, hrest⟩ := hascending
  rw [tasks_retainAfter, h, List.filter_append, List.filter_eq_nil_iff.mpr, List.nil_append,
    List.filter_eq_self.mpr]
  · intro task htask
    exact decide_eq_true
      (hrest last (List.mem_append_right _ (List.mem_singleton_self _)) task htask)
  · intro task htask
    rw [decide_eq_true_eq]
    rcases List.mem_append.mp htask with hbefore | hsame
    · rw [List.pairwise_append] at hdone
      exact (hdone.2.2 task hbefore last (List.mem_singleton_self _)).asymm
    · rw [List.mem_singleton.mp hsame]
      exact ItemId.Before.irrefl _

end PendingBlocks

/-! ## Producers that work off the pending blocks -/

/-- The parent hash a produced block hands over. -/
def handedOver (produced : EthBlockId × BlockParams) : Option H256 := some produced.2.hash

/-- What a producer makes of the pending blocks, where `make` is what it makes of one of
them on top of a parent hash. -/
abbrev produceAll (make : Option H256 → PendingTask → Outcome (EthBlockId × BlockParams)) :
    Option H256 → List PendingTask → Outcome (List (EthBlockId × BlockParams)) :=
  Handover.work make handedOver

section

variable {σ : Type} {P : BlockProducer σ} {I : RollupIndexer σ}
  {make : Option H256 → PendingTask → Outcome (EthBlockId × BlockParams)}
  {ready : Option H256 → σ → Prop} {built : σ → H256 → Prop} {batches : σ → List ProducedBlocks}

/-- One call of `produce_blocks` has made some of the first pending blocks, or has failed
at one of them. -/
inductive Made (make : Option H256 → PendingTask → Outcome (EthBlockId × BlockParams))
    (built : σ → H256 → Prop) (batches : σ → List ProducedBlocks)
    (parentHash : Option H256) (tasks : List PendingTask) (s : σ) :
    EStateM.Result Failure σ ProductionResult → Prop
  | made {result : ProductionResult} {t : σ}
      (all : produceAll make parentHash tasks
        = .ok (NestedMap.entries result.producedBlocks))
      (full : NestedMap.Full result.producedBlocks) (kept : batches t = batches s)
      (last : ∀ e, (NestedMap.entries result.producedBlocks).getLast? = some e →
        built t e.2.hash) :
      Made make built batches parentHash tasks s (.ok result t)
  | failed {e : Failure} {t : σ} (all : produceAll make parentHash tasks = .error e) :
      Made make built batches parentHash tasks s (.error e t)

/-- However far a call gets, it works off the pending blocks in order, at least one of
them, and all of them without a limit. It can start on top of what it has built. -/
structure WorksOff (P : BlockProducer σ)
    (make : Option H256 → PendingTask → Outcome (EthBlockId × BlockParams))
    (ready : Option H256 → σ → Prop) (built : σ → H256 → Prop)
    (batches : σ → List ProducedBlocks) : Prop where
  produces : ∀ (producerParams : ProducerParams) (limit : Option Nat) (s : σ),
    ready producerParams.parentHash s →
    ∃ n, (producerParams.pendingBlocks.tasks ≠ [] → 0 < n) ∧
      (limit = none → producerParams.pendingBlocks.tasks.length ≤ n) ∧
      Made make built batches producerParams.parentHash
        (producerParams.pendingBlocks.tasks.take n) s (P.produceBlocks producerParams limit s)
  goesOn : ∀ {s : σ} {hash : H256}, built s hash → ready (some hash) s

/-- The storage accepts every batch and keeps it, and leaves the producer alone. -/
def AcceptsBatches (storage : EthereumBlockStorage σ) (built : σ → H256 → Prop)
    (batches : σ → List ProducedBlocks) : Prop :=
  ∀ (producerParams : ProducerParams) (producedBlocks : ProducedBlocks) (s : σ),
    ∃ t, storage.blocksProduced producerParams producedBlocks s = .ok () t ∧
      batches t = batches s ++ [producedBlocks] ∧ ∀ hash, built s hash → built t hash

/-- A block that was made is the one that was pending. -/
def KeepsIds (make : Option H256 → PendingTask → Outcome (EthBlockId × BlockParams)) : Prop :=
  ∀ parentHash task produced, make parentHash task = .ok produced → produced.1 = task.id

theorem KeepsIds.ids (h : KeepsIds make) {parentHash : Option H256} {tasks : List PendingTask}
    {produced : List (EthBlockId × BlockParams)}
    (hall : produceAll make parentHash tasks = .ok produced) :
    produced.map Prod.fst = tasks.map PendingTask.id :=
  Handover.work_keys h hall

/-- The last block that was made is the last one that was pending. -/
theorem KeepsIds.last (h : KeepsIds make) {parentHash : Option H256} {before : List PendingTask}
    {last : PendingTask} {produced : List (EthBlockId × BlockParams)}
    (hall : produceAll make parentHash (before ++ [last]) = .ok produced) :
    ∃ params, produced.getLast? = some (last.id, params) ∧
      Handover.last handedOver parentHash produced = some params.hash := by
  have hend : (produced.map Prod.fst).getLast? = some last.id := by
    rw [h.ids hall, List.map_append, List.map_singleton, List.getLast?_concat]
  rw [List.getLast?_map, Option.map_eq_some_iff] at hend
  obtain ⟨⟨id, params⟩, hend, rfl⟩ := hend
  exact ⟨params, hend, Handover.last_of_getLast? hend⟩

/-- What the loop comes to, when all pending blocks are made or one of them fails. -/
inductive Batched (batches : σ → List ProducedBlocks) (s : σ) :
    Outcome (List (EthBlockId × BlockParams)) → EStateM.Result Failure σ Unit → Prop
  | made {produced : List (EthBlockId × BlockParams)} {t : σ} (new : List ProducedBlocks)
      (kept : batches t = batches s ++ new) (all : new.flatMap NestedMap.entries = produced) :
      Batched batches s (.ok produced) (.ok () t)
  | failed {e : Failure} {t : σ} : Batched batches s (.error e) (.error e t)

/-- A batch that was made and recorded comes before what the rest of the loop comes to. -/
theorem Batched.append {batches : σ → List ProducedBlocks} {parentHash : Option H256}
    {tasks tasks' : List PendingTask} {producedBlocks : ProducedBlocks} {s u : σ}
    {answer : EStateM.Result Failure σ Unit}
    (h : Batched batches u (produceAll make (Handover.last handedOver parentHash
      (NestedMap.entries producedBlocks)) tasks') answer)
    (hall : produceAll make parentHash tasks = .ok (NestedMap.entries producedBlocks))
    (hbatches : batches u = batches s ++ [producedBlocks]) :
    Batched batches s (produceAll make parentHash (tasks ++ tasks')) answer := by
  generalize hwork : produceAll make (Handover.last handedOver parentHash
    (NestedMap.entries producedBlocks)) tasks' = work at h
  cases h with
  | failed =>
      rw [produceAll, Handover.work_append_error_after hall hwork]
      exact .failed
  | made new hnew hentries =>
      rw [produceAll, Handover.work_append hall hwork]
      refine .made (producedBlocks :: new) ?_ ?_
      · rw [hnew, hbatches, List.append_assoc, List.singleton_append]
      · rw [List.flatMap_cons, hentries]

/-- One round of the loop, which goes on with `loop`: it fails, finds nothing pending, or
records a batch of the first pending blocks and leaves the others. -/
inductive LoopRound (make : Option H256 → PendingTask → Outcome (EthBlockId × BlockParams))
    (ready : Option H256 → σ → Prop) (batches : σ → List ProducedBlocks)
    (loop : ProducerParams → Eff σ Unit) (producerParams : ProducerParams) (s : σ) :
    EStateM.Result Failure σ Unit → Prop
  | failed {e : Failure} {t : σ}
      (all : produceAll make producerParams.parentHash producerParams.pendingBlocks.tasks
        = .error e) :
      LoopRound make ready batches loop producerParams s (.error e t)
  | idle {t : σ} (nothing : producerParams.pendingBlocks.tasks = [])
      (kept : batches t = batches s) :
      LoopRound make ready batches loop producerParams s (.ok () t)
  | goesOn {done rest : List PendingTask} {producedBlocks : ProducedBlocks}
      {next : ProducerParams} {u : σ}
      (pending : producerParams.pendingBlocks.tasks = done ++ rest) (some : done ≠ [])
      (all : produceAll make producerParams.parentHash done
        = .ok (NestedMap.entries producedBlocks))
      (recorded : batches u = batches s ++ [producedBlocks])
      (left : next.pendingBlocks.tasks = rest)
      (parent : next.parentHash = Handover.last handedOver producerParams.parentHash
        (NestedMap.entries producedBlocks))
      (starts : ready next.parentHash u) :
      LoopRound make ready batches loop producerParams s (loop next u)

theorem RollupIndexer.produceLoop_round {batchSize : Nat}
    (hP : WorksOff P make ready built batches)
    (hI : AcceptsBatches I.ethereumBlockStorage built batches) (hmake : KeepsIds make)
    (rounds : Nat) (producerParams : ProducerParams) (s : σ)
    (hready : ready producerParams.parentHash s) :
    LoopRound make ready batches (I.produceLoop P batchSize rounds) producerParams s
      (I.produceLoop P batchSize (rounds + 1) producerParams s) := by
  obtain ⟨n, hpos, _, hmade⟩ := hP.produces producerParams (some batchSize) s hready
  have hsplit := List.take_append_drop n producerParams.pendingBlocks.tasks
  rw [produceLoop]
  cases hrun : P.produceBlocks producerParams (some batchSize) s with
  | error e t =>
      rw [hrun] at hmade
      cases hmade with
      | failed hall =>
          have hfailed := Handover.work_append_error
            (producerParams.pendingBlocks.tasks.drop n) hall
          rw [hsplit] at hfailed
          rw [EStateM.bind_of_error hrun]
          exact .failed hfailed
  | ok result t =>
      rw [hrun] at hmade
      cases hmade with
      | made hall hfull hkept hbuilt =>
          rw [EStateM.bind_of_ok hrun, lastKeyValue_eq, ← NestedMap.getLast?_entries hfull]
          rcases List.eq_nil_or_concat' (producerParams.pendingBlocks.tasks.take n) with
            hnil | ⟨before, last, hlast⟩
          · have htasks : producerParams.pendingBlocks.tasks = [] := by
              by_contra hne
              have hn := hpos hne
              rw [List.take_eq_nil_iff] at hnil
              rcases hnil with hzero | hnil
              · omega
              · exact hne hnil
            have hids := hmake.ids hall
            rw [hnil, List.map_nil, List.map_eq_nil_iff] at hids
            rw [hids]
            exact .idle htasks hkept
          · -- the last block made is the parent of the next batch
            obtain ⟨params, hend, hover⟩ := hmake.last (hlast ▸ hall)
            have hrest := PendingBlocks.tasks_after hsplit.symm
              (hlast ▸ List.getLast?_concat : (producerParams.pendingBlocks.tasks.take
                n).getLast? = some last)
            have hne : producerParams.pendingBlocks.tasks.take n ≠ [] := by
              rw [hlast]
              exact List.append_ne_nil_of_right_ne_nil _ (List.cons_ne_nil _ _)
            obtain ⟨u, hstored, hbatches, hstill⟩ := hI producerParams result.producedBlocks t
            rw [hend]
            simp only [Option.map_some, EStateM.bind_of_ok hstored]
            exact .goesOn hsplit.symm hne hall (by rw [hbatches, hkept]) hrest hover.symm
              (hP.goesOn (hstill _ (hbuilt _ hend)))

theorem RollupIndexer.produceLoop_batches {batchSize : Nat}
    (hP : WorksOff P make ready built batches)
    (hI : AcceptsBatches I.ethereumBlockStorage built batches) (hmake : KeepsIds make)
    (rounds : Nat) : ∀ (producerParams : ProducerParams) (s : σ),
    producerParams.pendingBlocks.tasks.length < rounds → ready producerParams.parentHash s →
    Batched batches s
      (produceAll make producerParams.parentHash producerParams.pendingBlocks.tasks)
      (I.produceLoop P batchSize rounds producerParams s) := by
  induction rounds with
  | zero => intro producerParams s hlt; exact absurd hlt (Nat.not_lt_zero _)
  | succ rounds ih =>
      intro producerParams s hlt hready
      have hround : LoopRound make ready batches (I.produceLoop P batchSize rounds)
          producerParams s _ :=
        produceLoop_round hP hI hmake rounds producerParams s hready
      generalize I.produceLoop P batchSize (rounds + 1) producerParams s = answer at hround ⊢
      cases hround with
      | failed hall =>
          rw [hall]
          exact .failed
      | idle hnothing hkept =>
          rw [hnothing]
          refine .made [] ?_ rfl
          rw [hkept, List.append_nil]
      | @goesOn done rest _ next u hpending hsome hall hrecorded hleft hparent hstarts =>
          -- the batch took at least one of the pending blocks
          have hfewer : next.pendingBlocks.tasks.length < rounds := by
            have hdone := List.length_pos_iff.mpr hsome
            rw [hpending, List.length_append] at hlt
            rw [hleft]
            omega
          have hloop := ih next u hfewer hstarts
          rw [hleft, hparent] at hloop
          rw [hpending]
          exact hloop.append hall hrecorded

/-- The batches of the loop, one after the other, are the blocks of one call without a
limit: each pending block once, with the same parameters. Where that call fails, the loop
fails alike. -/
def BatchedAsOneShot (I : RollupIndexer σ) (P : BlockProducer σ)
    (batches : σ → List ProducedBlocks) (batchSize : Nat) (producerParams : ProducerParams)
    (s : σ) : Prop :=
  match P.produceBlocks producerParams none s with
  | .ok result _ =>
      result.producedBlocks.iter.map (fun e => (e.1, e.2.1)) = producerParams.pendingBlocks.keys ∧
      ∃ (t : σ) (new : List ProducedBlocks),
        I.produceLoop P batchSize (producerParams.pendingBlocks.keys.length + 1) producerParams s
          = .ok () t ∧
        batches t = batches s ++ new ∧
        new.flatMap ProducedBlocks.iter = result.producedBlocks.iter
  | .error e _ => ∃ t,
      I.produceLoop P batchSize (producerParams.pendingBlocks.keys.length + 1) producerParams s
        = .error e t

theorem iter_eq_entries (blocks : ProducedBlocks) :
    blocks.iter = (NestedMap.entries blocks).map fun e => (e.1.1, e.1.2, e.2) := by
  rw [ProducedBlocks.iter, NestedMap.entries, List.map_flatMap]
  simp only [List.map_map, Function.comp_def]

theorem WorksOff.batchedAsOneShot {batchSize : Nat} (hP : WorksOff P make ready built batches)
    (hI : AcceptsBatches I.ethereumBlockStorage built batches) (hmake : KeepsIds make)
    {producerParams : ProducerParams} {s : σ} (hready : ready producerParams.parentHash s) :
    BatchedAsOneShot I P batches batchSize producerParams s := by
  obtain ⟨n, _, hall, hmade⟩ := hP.produces producerParams none s hready
  rw [List.take_of_length_le (hall rfl)] at hmade
  have hloop : Batched batches s
      (produceAll make producerParams.parentHash producerParams.pendingBlocks.tasks)
      (I.produceLoop P batchSize (producerParams.pendingBlocks.keys.length + 1) producerParams s) :=
    RollupIndexer.produceLoop_batches hP hI hmake _ producerParams s
      (PendingBlocks.length_tasks _ ▸ Nat.lt_succ_self _) hready
  rw [BatchedAsOneShot]
  cases hrun : P.produceBlocks producerParams none s with
  | error e t =>
      rw [hrun] at hmade
      cases hmade with
      | failed hfailed =>
          rw [hfailed] at hloop
          cases hend : I.produceLoop P batchSize
            (producerParams.pendingBlocks.keys.length + 1) producerParams s with
          | ok _ u =>
              rw [hend] at hloop
              cases hloop
          | error e' u =>
              rw [hend] at hloop
              cases hloop
              exact ⟨u, rfl⟩
  | ok result t =>
      rw [hrun] at hmade
      cases hmade with
      | made hproduced _ _ _ =>
          rw [hproduced] at hloop
          cases hend : I.produceLoop P batchSize
            (producerParams.pendingBlocks.keys.length + 1) producerParams s with
          | error e' u =>
              rw [hend] at hloop
              cases hloop
          | ok _ u =>
              rw [hend] at hloop
              cases hloop with
              | made new hkept hentries =>
                  refine ⟨?_, u, new, rfl, hkept, ?_⟩
                  · rw [iter_eq_entries, List.map_map, ← PendingBlocks.tasks_ids,
                      ← hmake.ids hproduced]
                    rfl
                  · rw [iter_eq_entries, ← hentries, List.map_flatMap]
                    exact List.flatMap_congr fun blocks _ => iter_eq_entries blocks

end

/-! ## The two producers -/

namespace SingleStateBlockProducer

/-- A block is named after its Solana block. -/
def make (parentHash : Option H256) (task : PendingTask) : Outcome (EthBlockId × BlockParams) :=
  .ok (task.id, ⟨task.blockhash, parentHash, task.id.1, task.timestamp⟩)

theorem keepsIds_make : KeepsIds make := by
  intro parentHash task produced h
  cases h
  rfl

theorem produceLoop_made (limit : Option Nat)
    (items : List (Slot × PendingL1Block × Nat × PendingL2Block)) :
    ∀ (parentHash : Option H256) (produced : Nat) {producedBlocks : ProducedBlocks},
    (items.map fun e => (e.1, e.2.2.1)).Pairwise Before →
    NestedMap.Below producedBlocks (items.map fun e => (e.1, e.2.2.1)) →
    NestedMap.Full producedBlocks →
    NestedMap.Full (produceLoop limit items parentHash produced producedBlocks) ∧
    ∃ n made, (items ≠ [] → 0 < n) ∧ (limit = none → items.length ≤ n) ∧
      produceAll make parentHash ((items.map PendingTask.ofItem).take n) = .ok made ∧
      NestedMap.entries (produceLoop limit items parentHash produced producedBlocks)
        = NestedMap.entries producedBlocks ++ made := by
  induction items with
  | nil =>
      intro parentHash produced producedBlocks _ _ hfull
      exact ⟨hfull, 0, [], fun hne => absurd rfl hne, fun _ => Nat.le_refl 0, rfl,
        (List.append_nil _).symm⟩
  | cons item rest ih =>
      intro parentHash produced producedBlocks hitems hbelow hfull
      obtain ⟨slotNumber, pendingL1Block, l2BlockIdx, pendingL2Block⟩ := item
      let params : BlockParams :=
        ⟨pendingL1Block.blockhash, parentHash, slotNumber, pendingL1Block.timestamp⟩
      have hset : NestedMap.entries (producedBlocks.insert slotNumber l2BlockIdx params)
          = NestedMap.entries producedBlocks ++ [((slotNumber, l2BlockIdx), params)] :=
        NestedMap.Below.entries_set hbelow params
      have hbelow' : NestedMap.Below (producedBlocks.insert slotNumber l2BlockIdx params)
          (rest.map fun e => (e.1, e.2.2.1)) := NestedMap.Below.set hbelow hitems params
      have hfull' : NestedMap.Full (producedBlocks.insert slotNumber l2BlockIdx params) :=
        hfull.set (slotNumber, l2BlockIdx) params
      rw [produceLoop]
      split
      · next hreached =>
        refine ⟨hfull', 1, [((slotNumber, l2BlockIdx), params)], fun _ => Nat.one_pos, ?_, rfl,
          hset⟩
        intro hnone
        rw [hnone] at hreached
        cases hreached
      · obtain ⟨hfull, n, made, _, hall, hmade, hentries⟩ :=
          ih (some pendingL1Block.blockhash) (produced + 1) hitems.of_cons hbelow' hfull'
        refine ⟨hfull, n + 1, ((slotNumber, l2BlockIdx), params) :: made, fun _ => Nat.succ_pos n,
          fun hnone => Nat.succ_le_succ (hall hnone), ?_, ?_⟩
        · have hmade' : Handover.work make handedOver (handedOver ((slotNumber, l2BlockIdx), params))
              ((rest.map PendingTask.ofItem).take n) = .ok made := hmade
          exact Handover.work_cons rfl hmade'
        · rw [hentries, hset, List.append_assoc, List.singleton_append]

theorem worksOff {σ : Type} (batches : σ → List ProducedBlocks) :
    WorksOff blockProducer make (fun _ _ => True) (fun _ _ => True) batches := by
  refine ⟨fun producerParams limit s _ => ?_, fun _ => trivial⟩
  have hitems : (producerParams.pendingBlocks.iter.map fun e => (e.1, e.2.2.1)).Pairwise
      Before := by
    rw [EngineAPIBlockProducer.iter_keys]
    exact EngineAPIBlockProducer.keys_ascending _
  obtain ⟨hfull, n, made, hpos, hall, hmade, hentries⟩ := produceLoop_made limit _
    producerParams.parentHash 0 hitems (NestedMap.below_empty _) NestedMap.full_empty
  rw [NestedMap.entries_empty, List.nil_append] at hentries
  rw [← hentries] at hmade
  refine ⟨n, ?_, ?_, .made hmade hfull rfl fun _ _ => trivial⟩
  · intro hne
    exact hpos fun hnil => hne (by rw [PendingBlocks.tasks, hnil, List.map_nil])
  · intro hnone
    rw [PendingBlocks.tasks, List.length_map]
    exact hall hnone

end SingleStateBlockProducer

end RomeSdk
