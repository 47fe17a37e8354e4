import RomeSdk.Indexer.DummyBlockProducer
import RomeSdk.Proofs.ProductionTrace

/-!
# What the production limit counts

The three producers go through the pending blocks in the same order and stop at the same
parameter. The one on the single state counts the blocks it has named; the other two ask
`ProducedBlocks::len`, which is the number of slots (`HoldsTasks.len`). A block in a slot
that was there before does not count, so they stop at the limit exactly when it falls
behind the last pending block or the blocks up to it are in different slots.
-/

namespace RomeSdk

open ItemId (Before)

variable {σ : Type}

/-- A call with the limit produces the first pending blocks, as many as the limit, or all
when there are fewer. -/
def ProducesFirst (B : BlockProducer σ) (params : ProducerParams) (limit : Nat) (s : σ) : Prop :=
  ∃ result t, B.produceBlocks params (some limit) s = .ok result t ∧
    result.producedBlocks.iter.map (fun e => (e.1, e.2.1)) = params.pendingBlocks.keys.take limit

/-- The pending blocks are no more than the limit, or those up to it are in different
slots. -/
def OneBlockASlot (params : ProducerParams) (limit : Nat) : Prop :=
  params.pendingBlocks.keys.length ≤ limit ∨
    ((params.pendingBlocks.keys.take limit).map Prod.fst).Nodup

/-- The gas of the block fits into the numbers of a request. -/
def PendingTask.FitsU64 (task : PendingTask) : Prop :=
  ∀ e ∈ task.l2Block.transactions.toList.map Prod.snd,
    e.2.gasReport.gasPrice.toNat < 2 ^ 64 ∧ e.2.gasReport.gasValue.toNat < 2 ^ 64

theorem slotCount_eq_length_iff (tasks : List PendingTask) :
    slotCount tasks = tasks.length ↔ ((tasks.map PendingTask.id).map Prod.fst).Nodup := by
  rw [slotCount, List.map_map, ← List.dedup_eq_self]
  constructor
  · intro h
    refine (List.dedup_sublist _).eq_of_length ?_
    rw [List.length_map]
    exact h
  · intro h
    have hlength := congrArg List.length h
    rwa [List.length_map] at hlength

/-- Where it stops that counts slots. -/
theorem slots_eq_take_iff {params : ProducerParams} {limit : Nat} (hlimit : 1 ≤ limit) :
    goneThrough (fun l => limitReached (some limit) (slotCount l)) [] params.pendingBlocks.tasks
      = params.pendingBlocks.tasks.take limit ↔ OneBlockASlot params limit := by
  obtain ⟨k, rfl⟩ : ∃ k, limit = k + 1 := ⟨limit - 1, by omega⟩
  rw [goneThrough_eq_take_iff slotCount_le (fun l => limitReached_some) _ [] k
    (Nat.zero_add _).symm, List.nil_append, OneBlockASlot, PendingBlocks.length_tasks]
  refine or_congr_right' fun hmore => ?_
  have hlength : (params.pendingBlocks.tasks.take (k + 1)).length = k + 1 := by
    rw [List.length_take, PendingBlocks.length_tasks]
    omega
  have hle := slotCount_le (params.pendingBlocks.tasks.take (k + 1))
  rw [← PendingBlocks.tasks_ids, ← List.map_take, ← slotCount_eq_length_iff]
  omega

theorem iter_ids {producedBlocks : ProducedBlocks} {tasks : List PendingTask}
    (h : HoldsTasks producedBlocks tasks) :
    producedBlocks.iter.map (fun e => (e.1, e.2.1)) = tasks.map PendingTask.id := by
  rw [iter_eq_entries, List.map_map, ← h.2]
  rfl

theorem tasks_eq_of_ids {params : ProducerParams} {through : List PendingTask} {n : Nat}
    (hthrough : through <+: params.pendingBlocks.tasks)
    (h : through.map PendingTask.id = params.pendingBlocks.keys.take n) :
    through = params.pendingBlocks.tasks.take n := by
  have hlength := congrArg List.length h
  rw [List.length_map, List.length_take, ← PendingBlocks.length_tasks] at hlength
  rw [List.prefix_iff_eq_take.mp hthrough, hlength, ← List.take_eq_take_min]

/-- A producer that returns what it went through produces the first blocks when it went
through them. -/
theorem producesFirst_iff {B : BlockProducer σ} {params : ProducerParams} {limit : Nat} {s t : σ}
    {result : ProductionResult} {through : List PendingTask}
    (hrun : B.produceBlocks params (some limit) s = .ok result t)
    (hthrough : through <+: params.pendingBlocks.tasks)
    (hholds : HoldsTasks result.producedBlocks through) :
    ProducesFirst B params limit s ↔ through = params.pendingBlocks.tasks.take limit := by
  constructor
  · intro h
    obtain ⟨result', t', hrun', hids⟩ := h
    rw [hrun] at hrun'
    cases hrun'
    rw [iter_ids hholds] at hids
    exact tasks_eq_of_ids hthrough hids
  · intro h
    refine ⟨result, t, hrun, ?_⟩
    rw [iter_ids hholds, h, List.map_take, PendingBlocks.tasks_ids]

/-- The next block of a loop over the pending ones. -/
theorem HoldsTasks.next {given : ProducedBlocks} {done : List PendingTask}
    (h : HoldsTasks given done) {slotNumber : Slot} (pendingL1Block : PendingL1Block)
    {blockIdx : Nat} (pendingL2Block : PendingL2Block) {ids : List EthBlockId}
    (hbelow : NestedMap.Below given ((slotNumber, blockIdx) :: ids)) (params : BlockParams) :
    HoldsTasks (given.insert slotNumber blockIdx params)
      (done ++ [.ofItem (slotNumber, pendingL1Block, blockIdx, pendingL2Block)]) :=
  h.insert (.ofItem (slotNumber, pendingL1Block, blockIdx, pendingL2Block))
    (NestedMap.Below.entries_set hbelow params)

/-! ## The producer on the single state -/

namespace SingleStateBlockProducer

theorem produceLoop_holds (limit : Nat)
    (items : List (Slot × PendingL1Block × Nat × PendingL2Block)) :
    ∀ (done : List PendingTask) (parentHash : Option H256) {given : ProducedBlocks},
    (items.map fun e => (e.1, e.2.2.1)).Pairwise Before →
    NestedMap.Below given (items.map fun e => (e.1, e.2.2.1)) → HoldsTasks given done →
    HoldsTasks (produceLoop (some limit) items parentHash done.length given)
      (done ++ goneThrough (fun l => limitReached (some limit) l.length) done
        (items.map PendingTask.ofItem)) := by
  induction items with
  | nil =>
      intro done parentHash given _ _ hholds
      rw [List.map_nil, goneThrough, List.append_nil]
      exact hholds
  | cons item rest ih =>
      intro done parentHash given hitems hbelow hholds
      obtain ⟨slotNumber, pendingL1Block, blockIdx, pendingL2Block⟩ := item
      let task : PendingTask := .ofItem (slotNumber, pendingL1Block, blockIdx, pendingL2Block)
      have hholds' := hholds.next pendingL1Block pendingL2Block hbelow
        ⟨pendingL1Block.blockhash, parentHash, slotNumber, pendingL1Block.timestamp⟩
      have hlength : (done ++ [task]).length = done.length + 1 := by
        rw [List.length_append, List.length_singleton]
      rw [produceLoop, List.map_cons]
      split
      · next hreached =>
        have hthrough : goneThrough (fun l => limitReached (some limit) l.length) done
            (task :: rest.map PendingTask.ofItem) = [task] :=
          goneThrough_cons_stop _ (hlength ▸ hreached)
        rw [hthrough]
        exact hholds'
      · next hgoesOn =>
        have hthrough : goneThrough (fun l => limitReached (some limit) l.length) done
            (task :: rest.map PendingTask.ofItem)
              = task :: goneThrough (fun l => limitReached (some limit) l.length) (done ++ [task])
                (rest.map PendingTask.ofItem) := goneThrough_cons _ (hlength ▸ hgoesOn)
        have hrest := ih (done ++ [task]) (some pendingL1Block.blockhash) hitems.of_cons
          (NestedMap.Below.set hbelow hitems _) hholds'
        rw [hlength, List.append_assoc, List.singleton_append] at hrest
        rw [hthrough]
        exact hrest

/-- It produces the first blocks, however they are spread over the slots. -/
theorem producesFirst {params : ProducerParams} {limit : Nat} (hlimit : 1 ≤ limit) (s : σ) :
    ProducesFirst blockProducer params limit s := by
  have hitems : (params.pendingBlocks.iter.map fun e => (e.1, e.2.2.1)).Pairwise Before := by
    rw [EngineAPIBlockProducer.iter_keys]
    exact EngineAPIBlockProducer.keys_ascending _
  have hholds := produceLoop_holds limit _ [] params.parentHash hitems
    (NestedMap.below_empty _) holdsTasks_empty
  rw [List.nil_append] at hholds
  refine (producesFirst_iff (t := s) rfl (goneThrough_isPrefix _ _) hholds).mpr ?_
  obtain ⟨k, rfl⟩ : ∃ k, limit = k + 1 := ⟨limit - 1, by omega⟩
  refine (goneThrough_eq_take_iff (m := List.length) (fun l => Nat.le_refl _)
    (fun l => limitReached_some) _ [] k (Nat.zero_add _).symm).mpr ?_
  rw [List.nil_append, List.length_take]
  show params.pendingBlocks.tasks.length ≤ k + 1 ∨
    k + 1 ≤ min (k + 1) params.pendingBlocks.tasks.length
  omega

end SingleStateBlockProducer

/-! ## The producer of the client -/

namespace DummyBlockProducer

theorem produceLoop_holds (D : DummyBlockProducer σ) (limit : Option Nat)
    (items : List (Slot × PendingL1Block × Nat × PendingL2Block)) :
    ∀ (done : List PendingTask) (parentHash : Option H256) {given : ProducedBlocks} (s : σ),
    (items.map fun e => (e.1, e.2.2.1)).Pairwise Before →
    NestedMap.Below given (items.map fun e => (e.1, e.2.2.1)) → HoldsTasks given done →
    ∃ result t, D.produceLoop limit items parentHash given s = .ok result t ∧
      HoldsTasks result.producedBlocks
        (done ++ goneThrough (fun l => limitReached limit (slotCount l)) done
          (items.map PendingTask.ofItem)) := by
  induction items with
  | nil =>
      intro done parentHash given s _ _ hholds
      refine ⟨_, s, rfl, ?_⟩
      rw [List.map_nil, goneThrough, List.append_nil]
      exact hholds
  | cons item rest ih =>
      intro done parentHash given s hitems hbelow hholds
      obtain ⟨slotNumber, pendingL1Block, blockIdx, pendingL2Block⟩ := item
      let hash : H256 := (D.random (D.store ((D.load s + 1) % 2 ^ 64) s)).1
      let t : σ := (D.random (D.store ((D.load s + 1) % 2 ^ 64) s)).2
      let params : BlockParams := ⟨hash, parentHash, D.load s, pendingL1Block.timestamp⟩
      let task : PendingTask := .ofItem (slotNumber, pendingL1Block, blockIdx, pendingL2Block)
      have hholds' := hholds.next pendingL1Block pendingL2Block hbelow params
      have hreached := EngineAPIBlockProducer.reached_eq limit hholds'
      rw [produceLoop, List.map_cons]
      simp only [bind, EStateM.bind, fetchAdd, randomHash]
      split
      · next hstop =>
        have hthrough : goneThrough (fun l => limitReached limit (slotCount l)) done
            (task :: rest.map PendingTask.ofItem) = [task] :=
          goneThrough_cons_stop _ (hreached.symm.trans hstop)
        rw [hthrough]
        exact ⟨_, t, rfl, hholds'⟩
      · next hgoesOn =>
        have hthrough : goneThrough (fun l => limitReached limit (slotCount l)) done
            (task :: rest.map PendingTask.ofItem)
              = task :: goneThrough (fun l => limitReached limit (slotCount l)) (done ++ [task])
                (rest.map PendingTask.ofItem) :=
          goneThrough_cons _ fun hstop => hgoesOn (hreached.trans hstop)
        obtain ⟨result, u, hrun, hrest⟩ := ih _ (some hash) t hitems.of_cons
          (NestedMap.Below.set hbelow hitems _) hholds'
        rw [List.append_assoc, List.singleton_append] at hrest
        rw [hthrough]
        exact ⟨result, u, hrun, hrest⟩

theorem producesFirst_iff_slots (D : DummyBlockProducer σ) {params : ProducerParams}
    {limit : Nat} (hlimit : 1 ≤ limit) (s : σ) :
    ProducesFirst D.blockProducer params limit s ↔ OneBlockASlot params limit := by
  have hitems : (params.pendingBlocks.iter.map fun e => (e.1, e.2.2.1)).Pairwise Before := by
    rw [EngineAPIBlockProducer.iter_keys]
    exact EngineAPIBlockProducer.keys_ascending _
  obtain ⟨result, t, hrun, hholds⟩ := produceLoop_holds D (some limit) _ []
    params.parentHash s hitems (NestedMap.below_empty _) holdsTasks_empty
  rw [List.nil_append] at hholds
  rw [producesFirst_iff hrun (goneThrough_isPrefix _ _) hholds]
  exact slots_eq_take_iff hlimit

end DummyBlockProducer

/-! ## The producer in op-geth -/

namespace EngineAPIBlockProducer

variable {P : EngineAPIBlockProducer σ}

/-- The block the pending ones go on top of is found, and the one that is finalized. -/
def FindsParent (P : EngineAPIBlockProducer σ) (parentHash : Option H256) (s : σ) : Prop :=
  ∃ parentBlock u finalizedBlockhash v hash, P.getParentBlock parentHash s = .ok parentBlock u ∧
    P.firstFinalized parentBlock parentHash u = .ok finalizedBlockhash v ∧
    parentBlock.hash = some hash

theorem producesFirst_iff_slots (hengine : P.AlwaysAdvances) {params : ProducerParams} {limit : Nat}
    (hlimit : 1 ≤ limit) {s : σ} (hparent : FindsParent P params.parentHash s) :
    ProducesFirst P.blockProducer params limit s ↔ OneBlockASlot params limit ∧
      ∀ task ∈ params.pendingBlocks.tasks.take limit, task.FitsU64 := by
  obtain ⟨parentBlock, u, finalizedBlockhash, v, hash, hparent, hfinalized, hhash⟩ := hparent
  have hwent := produceBlocks_went hengine (some limit) hparent hfinalized hhash
  cases hrun : P.produceBlocks params (some limit) s with
  | error e t =>
      rw [hrun] at hwent
      refine iff_of_false ?_ ?_
      · intro h
        obtain ⟨result, t', hrun', _⟩ := h
        cases hrun.symm.trans hrun'
      · rintro ⟨hslots, hfits⟩
        cases hwent with
        | failed advances before task _ _ _ hreached hunfit =>
            rw [(slots_eq_take_iff hlimit).mpr hslots] at hreached
            have hmem : task ∈ params.pendingBlocks.tasks.take limit :=
              hreached.subset (List.mem_append_right _ (List.mem_singleton_self _))
            obtain ⟨txs, hok⟩ := (stateAdvanceTxs_ok_iff (P := P) _).mpr (hfits task hmem)
            cases hok.symm.trans hunfit
  | ok result t =>
      rw [hrun] at hwent
      cases hwent with
      | returned advances _ _ hbuilt hentries _ =>
          rw [NestedMap.entries_empty, List.nil_append] at hentries
          have hids : (NestedMap.entries result.producedBlocks).map Prod.fst
              = (goneThrough (fun l => limitReached (some limit) (slotCount l)) []
                params.pendingBlocks.tasks).map PendingTask.id := by
            rw [hentries, List.map_map, ← Advance.ids_eq hbuilt]
            rfl
          have hholds := And.intro (produceBlocks_ok hrun).1 hids
          have hrun : P.blockProducer.produceBlocks params (some limit) s = .ok result t := hrun
          rw [producesFirst_iff hrun (goneThrough_isPrefix _ _) hholds, slots_eq_take_iff hlimit]
          refine (and_iff_left_of_imp fun hslots => ?_).symm
          intro task htask
          rw [← (slots_eq_take_iff hlimit).mpr hslots] at htask
          obtain ⟨a, hfor⟩ := Advance.exists_for hbuilt task htask
          exact (stateAdvanceTxs_ok_iff (P := P) _).mp ⟨_, hfor.2.2.2⟩

end EngineAPIBlockProducer

/-! ## All three -/

/-- All three produce as many blocks as the limit says exactly when no two of these share a
slot and their gas fits. -/
theorem limit_counts_blocks_iff {τ ρ : Type} {P : EngineAPIBlockProducer σ}
    (D : DummyBlockProducer τ) (hengine : P.AlwaysAdvances) {params : ProducerParams} {limit : Nat}
    (hlimit : 1 ≤ limit) {s : σ} (hparent : P.FindsParent params.parentHash s) (t : τ) (u : ρ) :
    (ProducesFirst P.blockProducer params limit s ∧
      ProducesFirst SingleStateBlockProducer.blockProducer params limit u ∧
      ProducesFirst D.blockProducer params limit t) ↔
    OneBlockASlot params limit ∧ ∀ task ∈ params.pendingBlocks.tasks.take limit, task.FitsU64 := by
  rw [EngineAPIBlockProducer.producesFirst_iff_slots hengine hlimit hparent,
    DummyBlockProducer.producesFirst_iff_slots D hlimit t]
  constructor
  · intro h
    exact h.1
  · intro h
    exact ⟨h, SingleStateBlockProducer.producesFirst hlimit u, h.1⟩

/-- Of two slots with two blocks each, a limit of two takes three blocks with the producer
in op-geth, and two with the one on the single state. -/
theorem limit_of_two_takes_three :
    (∃ result t, ObligingGeth.producer.blockProducer.produceBlocks
        (ObligingGeth.producerParams none) (some 2) 2 = .ok result t ∧
      result.producedBlocks.iter.map (fun e => (e.1, e.2.1)) = [(5, 0), (5, 1), (6, 0)]) ∧
    ¬ ProducesFirst ObligingGeth.producer.blockProducer (ObligingGeth.producerParams none) 2 2 ∧
    ProducesFirst SingleStateBlockProducer.blockProducer (ObligingGeth.producerParams none) 2 () := by
  refine ⟨⟨_, _, rfl, rfl⟩, ?_, SingleStateBlockProducer.producesFirst (by omega) ()⟩
  intro h
  obtain ⟨result, t, hrun, hids⟩ := h
  cases hrun
  cases hids

/-- A counter that counts up, and hashes that are all the same. -/
def countingDummy : DummyBlockProducer Nat where
  load n := n
  store n _ := n
  random n := (0, n)

/-- With a limit of one the blocks share no slot. -/
theorem limit_of_one_counts_blocks :
    (ProducesFirst ObligingGeth.producer.blockProducer (ObligingGeth.producerParams none) 1 2 ∧
      ProducesFirst SingleStateBlockProducer.blockProducer (ObligingGeth.producerParams none) 1 () ∧
      ProducesFirst countingDummy.blockProducer (ObligingGeth.producerParams none) 1 1) ↔
    OneBlockASlot (ObligingGeth.producerParams none) 1 ∧
      ∀ task ∈ (ObligingGeth.producerParams none).pendingBlocks.tasks.take 1, task.FitsU64 :=
  limit_counts_blocks_iff countingDummy ObligingGeth.alwaysAdvances (Nat.le_refl 1)
    ⟨ObligingGeth.block 2, 2, 1, 2, 2, rfl, rfl, rfl⟩ 1 ()

end RomeSdk
