import Mathlib.Data.List.Chain
import Mathlib.Data.Prod.Lex
import Mathlib.Logic.Relation
import Mathlib.Order.Monotone.Basic
import RomeSdk.Proofs.ProductionTrace

/-!
# Finality behind the head

The loop of `produce_blocks` hands two hashes on from block to block: that of the parent
and that of the finalized block. The first moves with every block, the second with the
blocks up to the target. So the finalized block of a call stands somewhere on the chain
below the parent of the block it builds, and moves along it in one direction
(`Threaded.positions`); it ends up on the last block up to the target
(`finalizedAfter_eq`).
-/

namespace RomeSdk

open ItemId (Before)

variable {σ : Type} {P : EngineAPIBlockProducer σ}

/-- The block comes at the pending block that is to be finalized or before it. -/
def upToTarget (finalizedBlock : Option FinalizedBlock) (id : EthBlockId) : Bool :=
  match finalizedBlock with
  | some (.pending target) => decide (toLex id ≤ toLex target)
  | _ => false

theorem finalizes_eq (finalizedBlock : Option FinalizedBlock) (id : EthBlockId) :
    EngineAPIBlockProducer.finalizes (EngineAPIBlockProducer.finalityTarget finalizedBlock)
      id.1 id.2 = upToTarget finalizedBlock id := by
  rcases finalizedBlock with _ | hash | target
  · rfl
  · rfl
  · show (decide (id.1 < target.1) || decide (id.1 = target.1) && decide (id.2 ≤ target.2))
      = decide (toLex id ≤ toLex target)
    rw [Bool.eq_iff_iff, Bool.or_eq_true, Bool.and_eq_true, decide_eq_true_iff, decide_eq_true_iff,
      decide_eq_true_iff, decide_eq_true_iff, Prod.Lex.toLex_le_toLex]

namespace Advance

variable {nextFinalized : Option EthBlockId} {advances : List Advance}

theorem Threaded.finalizes (advances : List Advance) : ∀ {finalized parentHash : H256},
    Threaded nextFinalized finalized parentHash advances → ∀ a ∈ advances,
      a.finalizeNewBlock = EngineAPIBlockProducer.finalizes nextFinalized a.id.1 a.id.2 := by
  induction advances with
  | nil => intro _ _ _ a ha; cases ha
  | cons b rest ih =>
      intro finalized parentHash h a ha
      obtain ⟨_, _, hfinalizes, hrest⟩ := h
      rcases List.mem_cons.mp ha with rfl | ha
      · exact hfinalizes
      · exact ih hrest a ha

/-- The finalized block stands at `start` or at one that was built, not above the parent,
and goes only up. -/
theorem Threaded.positions (advances : List Advance) :
    ∀ {finalized parentHash : H256} {old : List H256} {start : Nat},
    Threaded nextFinalized finalized parentHash advances → old[start]? = some finalized →
    ∃ position : Nat → Nat, Monotone position ∧ position 0 = start ∧
      ∀ i a, advances[i]? = some a →
        (old ++ advances.map hash)[position i]? = some a.finalizedBlockhash ∧
        (position i = start ∨ old.length ≤ position i) ∧ position i < old.length + i := by
  induction advances with
  | nil =>
      intro _ _ old start _ _
      exact ⟨fun _ => start, monotone_const, rfl, fun i a ha => (by cases ha)⟩
  | cons b rest ih =>
      intro finalized parentHash old start h hstart
      obtain ⟨hfinalized, _, _, hrest⟩ := h
      have hlt : start < old.length := (List.getElem?_eq_some_iff.mp hstart).1
      have hlength : (old ++ [b.hash]).length = old.length + 1 := by
        rw [List.length_append, List.length_singleton]
      -- the finalized block stays, or becomes the one that was just built
      obtain ⟨start', hstart', hmoved⟩ : ∃ start', (old ++ [b.hash])[start']?
          = some (if b.finalizeNewBlock then b.hash else finalized) ∧
            (start' = start ∨ start' = old.length) := by
        cases b.finalizeNewBlock with
        | true => exact ⟨old.length, List.getElem?_concat_length, Or.inr rfl⟩
        | false => exact ⟨start, (List.getElem?_append_left hlt).trans hstart, Or.inl rfl⟩
      obtain ⟨position, hmono, hzero, hposition⟩ := ih hrest hstart'
      refine ⟨fun i => Nat.casesOn i start position, ?_, rfl, ?_⟩
      · refine monotone_nat_of_le_succ fun i => ?_
        cases i with
        | zero =>
            show start ≤ position 0
            omega
        | succ i => exact hmono (Nat.le_succ i)
      · intro i a ha
        cases i with
        | zero =>
            cases ha
            refine ⟨?_, Or.inl rfl, hlt⟩
            rw [hfinalized]
            exact (List.getElem?_append_left hlt).trans hstart
        | succ i =>
            obtain ⟨hget, hplace, hbelow⟩ := hposition i a ha
            rw [hlength] at hplace hbelow
            refine ⟨?_, ?_, ?_⟩
            · rw [List.map_cons, ← List.singleton_append, ← List.append_assoc]
              exact hget
            · show position i = start ∨ old.length ≤ position i
              omega
            · show position i < old.length + (i + 1)
              omega

/-- Each block is built on the one below it. -/
theorem Threaded.heads (advances : List Advance) :
    ∀ {finalized parentHash : H256} {old : List H256},
    Threaded nextFinalized finalized parentHash advances → old.getLast? = some parentHash →
    ∀ i a, advances[i]? = some a →
      (old ++ advances.map hash)[old.length - 1 + i]? = some a.parentHash := by
  induction advances with
  | nil => intro _ _ _ _ _ i a ha; cases ha
  | cons b rest ih =>
      intro finalized parentHash old h hlast i a ha
      obtain ⟨_, hparent, _, hrest⟩ := h
      obtain ⟨below, rfl⟩ := List.getLast?_eq_some_iff.mp hlast
      have hlength : (below ++ [parentHash]).length = below.length + 1 := by
        rw [List.length_append, List.length_singleton]
      cases i with
      | zero =>
          cases ha
          rw [hlength, Nat.add_zero, Nat.add_sub_cancel, hparent,
            List.getElem?_append_left (by omega)]
          exact List.getElem?_concat_length
      | succ i =>
          have hlast' : ((below ++ [parentHash]) ++ [b.hash]).getLast? = some b.hash :=
            List.getLast?_concat
          have hget := ih hrest hlast' i a ha
          rw [List.length_append, List.length_singleton, List.append_assoc, List.singleton_append,
            ← List.map_cons] at hget
          rw [hlength] at hget ⊢
          rwa [show below.length + 1 - 1 + (i + 1) = below.length + 1 + 1 - 1 + i by omega]

theorem Threaded.linked {link : H256 → H256 → Prop} (advances : List Advance) :
    ∀ {finalized parentHash : H256} {old : List H256},
    Threaded nextFinalized finalized parentHash advances → old.getLast? = some parentHash →
    old.IsChain link → (∀ a ∈ advances, link a.parentHash a.hash) →
    (old ++ advances.map hash).IsChain link := by
  induction advances with
  | nil =>
      intro _ _ old _ _ hold _
      rwa [List.map_nil, List.append_nil]
  | cons b rest ih =>
      intro finalized parentHash old h hlast hold hlink
      obtain ⟨_, hparent, _, hrest⟩ := h
      have hnext : (old ++ [b.hash]).IsChain link := by
        refine List.isChain_append.mpr ⟨hold, .singleton _, fun x hx y hy => ?_⟩
        rw [hlast, Option.mem_some_iff] at hx
        rw [List.head?_cons, Option.mem_some_iff] at hy
        rw [← hx, ← hy, ← hparent]
        exact hlink b (List.mem_cons_self ..)
      have hall := ih hrest List.getLast?_concat hnext
        fun a ha => hlink a (List.mem_cons_of_mem b ha)
      rwa [List.append_assoc, List.singleton_append, ← List.map_cons] at hall

/-- In the end the last block that was to be finalized is. -/
theorem finalizedAfter_eq (advances : List Advance) : ∀ finalized : H256,
    finalizedAfter finalized advances
      = ((advances.filter finalizeNewBlock).getLast?.map hash).getD finalized := by
  induction advances with
  | nil => intro finalized; rfl
  | cons b rest ih =>
      intro finalized
      rw [finalizedAfter, ih, List.filter_cons]
      cases b.finalizeNewBlock with
      | false => rfl
      | true =>
          rw [if_pos rfl, if_pos rfl, List.getLast?_cons]
          cases (rest.filter finalizeNewBlock).getLast? <;> rfl

end Advance

/-- What the calls say of finality, on a chain that leads from the finalized block `start`
to the parent block and goes on with the blocks that are built. -/
structure FinalityFollows (isParent : H256 → H256 → Prop) (finalizedBlock : Option FinalizedBlock)
    (start parentHash : H256) (advances : List Advance) : Prop where
  /-- The finalized block of a call is `start` or one that was built before, stands at the
  parent or below it, and moves only up. -/
  behind : ∃ old : List H256, old.head? = some start ∧ old.getLast? = some parentHash ∧
    (old ++ advances.map Advance.hash).IsChain (fun a b => isParent a b ∨
      ∃ x ∈ advances, x.parentHash = a ∧ x.hash = b) ∧
    ∃ position : Nat → Nat, Monotone position ∧ ∀ i a, advances[i]? = some a →
      (old ++ advances.map Advance.hash)[position i]? = some a.finalizedBlockhash ∧
      (old ++ advances.map Advance.hash)[old.length - 1 + i]? = some a.parentHash ∧
      (position i = 0 ∨ old.length ≤ position i) ∧ position i ≤ old.length - 1 + i
  target : ∀ a ∈ advances, a.finalizeNewBlock = upToTarget finalizedBlock a.id

theorem finalityFollows_of_threaded {isParent : H256 → H256 → Prop}
    {finalizedBlock : Option FinalizedBlock} {start parentHash : H256} {advances : List Advance}
    (h : Advance.Threaded (EngineAPIBlockProducer.finalityTarget finalizedBlock) start parentHash
      advances) (hancestor : Relation.ReflTransGen isParent start parentHash) :
    FinalityFollows isParent finalizedBlock start parentHash advances := by
  constructor
  · obtain ⟨rest, hchain, hlast⟩ := List.exists_isChain_cons_of_relationReflTransGen hancestor
    have hlast : (start :: rest).getLast? = some parentHash := by
      rw [List.getLast?_eq_some_getLast (List.cons_ne_nil _ _), hlast]
    have hstart : (start :: rest)[0]? = some start := List.getElem?_cons_zero
    obtain ⟨position, hmono, _, hposition⟩ := h.positions advances hstart
    refine ⟨start :: rest, rfl, hlast, ?_, position, hmono, fun i a ha => ?_⟩
    · exact h.linked advances hlast (hchain.imp fun a b => Or.inl)
        fun a ha => Or.inr ⟨a, ha, rfl, rfl⟩
    · obtain ⟨hget, hplace, hbelow⟩ := hposition i a ha
      refine ⟨hget, h.heads advances hlast i a ha, hplace, ?_⟩
      rw [List.length_cons] at hbelow ⊢
      omega
  · intro a ha
    rw [h.finalizes advances a ha, finalizes_eq]

/-- The blocks of the calls, as they are recorded. -/
theorem iter_of_entries {producedBlocks : ProducedBlocks} {advances : List Advance}
    (h : NestedMap.entries producedBlocks = advances.map Advance.entry) :
    producedBlocks.iter = advances.map fun a => (a.id.1, a.id.2, a.entry.2) := by
  rw [iter_eq_entries, h, List.map_map]
  rfl

theorem finalizedAfter_upToTarget {finalizedBlock : Option FinalizedBlock} {start : H256}
    {producedBlocks : ProducedBlocks} {advances : List Advance}
    (htarget : ∀ a ∈ advances, a.finalizeNewBlock = upToTarget finalizedBlock a.id)
    (hentries : NestedMap.entries producedBlocks = advances.map Advance.entry) :
    Advance.finalizedAfter start advances
      = ((producedBlocks.iter.filter fun e => upToTarget finalizedBlock (e.1, e.2.1)).getLast?.map
          fun e => e.2.2.hash).getD start := by
  have hfilter : advances.filter Advance.finalizeNewBlock
      = advances.filter fun a => upToTarget finalizedBlock a.id :=
    List.filter_congr fun a ha => htarget a ha
  rw [Advance.finalizedAfter_eq, hfilter, iter_of_entries hentries, List.filter_map,
    List.getLast?_map, Option.map_map]
  rfl

/-- With an engine that always succeeds, finality stays behind the head and stops at the
target, in every call that `produce_blocks` makes, wherever it ends. -/
theorem finality_stays_behind {isParent : H256 → H256 → Prop} {params : ProducerParams}
    {limit : Option Nat} {parentBlock : GethBlock} {finalizedBlockhash parentHash : H256}
    {s u v : σ} (hengine : P.AlwaysAdvances)
    (hparent : P.getParentBlock params.parentHash s = .ok parentBlock u)
    (hfinalized : P.firstFinalized parentBlock params.parentHash u = .ok finalizedBlockhash v)
    (hhash : parentBlock.hash = some parentHash)
    (hancestor : Relation.ReflTransGen isParent
      (EngineAPIBlockProducer.finalityStart params.finalizedBlock finalizedBlockhash) parentHash) :
    ∃ advances, Advances P v advances ((P.produceBlocks params limit).after s) ∧
      advances.map Advance.id <+: params.pendingBlocks.keys ∧
      FinalityFollows isParent params.finalizedBlock
        (EngineAPIBlockProducer.finalityStart params.finalizedBlock finalizedBlockhash) parentHash
        advances ∧
      ∀ result t, P.produceBlocks params limit s = .ok result t →
        result.producedBlocks.iter = advances.map (fun a => (a.id.1, a.id.2, a.entry.2)) ∧
        result.finalizedBlock = ((result.producedBlocks.iter.filter fun e =>
          upToTarget params.finalizedBlock (e.1, e.2.1)).getLast?.map fun e => e.2.2.hash).getD
            (EngineAPIBlockProducer.finalityStart params.finalizedBlock finalizedBlockhash) := by
  have hwent := EngineAPIBlockProducer.produceBlocks_went hengine limit hparent hfinalized hhash
  have hids : ∀ {advances : List Advance} {through : List PendingTask},
      List.Forall₂ (Advance.For P) advances through → through <+: params.pendingBlocks.tasks →
      advances.map Advance.id <+: params.pendingBlocks.keys := by
    intro advances through hbuilt hthrough
    rw [Advance.ids_eq hbuilt, ← PendingBlocks.tasks_ids]
    exact hthrough.map _
  rw [EStateM.after]
  generalize P.produceBlocks params limit s = answer at hwent ⊢
  cases hwent with
  | failed advances before task hcalls hthreaded hbuilt hreached _ =>
      refine ⟨advances, hcalls, hids hbuilt ?_, finalityFollows_of_threaded hthreaded hancestor,
        fun result t h => (by cases h)⟩
      exact (List.prefix_append before [task]).trans
        (hreached.trans (goneThrough_isPrefix _ _))
  | returned advances hcalls hthreaded hbuilt hentries hlast =>
      have hfollows := finalityFollows_of_threaded hthreaded hancestor
      rw [NestedMap.entries_empty, List.nil_append] at hentries
      refine ⟨advances, hcalls, hids hbuilt (goneThrough_isPrefix _ _), hfollows, ?_⟩
      intro result t h
      cases h
      exact ⟨iter_of_entries hentries,
        hlast.trans (finalizedAfter_upToTarget hfollows.target hentries)⟩

/-- Block 1 is final and block 2 the parent of the four pending ones, of which the first
three are to be finalized. -/
theorem finality_stays_behind_block2 :
    ∃ advances, Advances ObligingGeth.producer 2 advances
        ((ObligingGeth.producer.produceBlocks (ObligingGeth.producerParams (some (.pending (6, 0))))
          none).after 2) ∧
      advances.map Advance.id
        <+: (ObligingGeth.producerParams (some (.pending (6, 0)))).pendingBlocks.keys ∧
      FinalityFollows (fun a b => b.toNat = a.toNat + 1) (some (.pending (6, 0))) 1 2 advances ∧
      ∀ result t, ObligingGeth.producer.produceBlocks
          (ObligingGeth.producerParams (some (.pending (6, 0)))) none 2 = .ok result t →
        result.producedBlocks.iter = advances.map (fun a => (a.id.1, a.id.2, a.entry.2)) ∧
        result.finalizedBlock = ((result.producedBlocks.iter.filter fun e =>
          upToTarget (some (.pending (6, 0))) (e.1, e.2.1)).getLast?.map fun e => e.2.2.hash).getD
            1 := by
  have hparent : ObligingGeth.producer.getParentBlock
      (ObligingGeth.producerParams (some (.pending (6, 0)))).parentHash 2
        = .ok (ObligingGeth.block 2) 2 := rfl
  have hfinalized : ObligingGeth.producer.firstFinalized (ObligingGeth.block 2)
      (ObligingGeth.producerParams (some (.pending (6, 0)))).parentHash 2 = .ok 1 2 := rfl
  exact finality_stays_behind ObligingGeth.alwaysAdvances hparent hfinalized rfl
    (Relation.ReflTransGen.single rfl)

end RomeSdk
