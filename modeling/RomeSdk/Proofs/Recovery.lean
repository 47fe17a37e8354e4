import RomeSdk.Indexer.Checking
import RomeSdk.Proofs.RecheckedSlots

/-!
# What the recovery leaves in the storage

The walk of the recovery takes the stored block of a slot, or loads the block of
a slot that has none, and the recheck then writes back what is different from the
finalized block. A block that was loaded is not different. So it is never written,
and a slot that was missing is missing after the recovery. A stored block of a
slot the finalized chain has no block at is kept as well.

The node shows the finalized chain, `chain`, and answers every query. The storage
is any one whose calls do what they are for (`Stores`). A block has its parent in
an earlier slot, so the walk comes to a slot once, with the block that was stored
there when the recovery began.
-/

namespace RomeSdk

namespace SolanaBlockLoader

variable {σ : Type} {X : Crates} {L : SolanaBlockLoader σ} {read : σ → Db UiConfirmedBlock}
  {sent : σ → List Slot} {headers : Slot → Option RpcBlock}
  {chain : Slot → Option UiConfirmedBlock} {startSlot endSlot : Slot}

/-- What the calls of the storage answer and what they write. -/
structure Stores (S : LoadingStorage σ) (read : σ → Db UiConfirmedBlock) (sent : σ → List Slot) :
    Prop where
  getBlock : ∀ slot s r t, S.getBlock slot s = .ok r t →
    r = (read s).solBlock.lookup slot ∧ read t = read s ∧ sent t = sent s
  getLastSlot : ∀ s r t, S.getLastSlot s = .ok r t → read t = read s ∧ sent t = sent s
  update : UpdatesFinalized S read sent

/-- The node answers every query from the chain. A header is asked for without
the transactions. -/
structure ShowsChain (X : Crates) (L : SolanaBlockLoader σ) (headers : Slot → Option RpcBlock)
    (chain : Slot → Option UiConfirmedBlock) : Prop where
  header : ∀ slot s, L.client.getBlockWithConfig slot ⟨none, .finalized⟩ L.blockRetries s =
    .ok (headers slot) s
  blockhash : ∀ slot, (headers slot).map (fun header => header.blockhash) =
    (chain slot).map (fun block => block.blockhash)
  finalized : ∀ slot s, L.loadBlock X .finalized slot s = .ok (chain slot) s
  load : ∀ slot s, L.loadBlock X L.commitment slot s = .ok (chain slot) s

/-! ## The walk -/

/-- The block the walk has at a slot. -/
def handed (db : Db UiConfirmedBlock) (chain : Slot → Option UiConfirmedBlock) (slot : Slot) :
    Option UiConfirmedBlock :=
  match db.solBlock.lookup slot with
  | some block => some block
  | none => chain slot

/-- The walk from a slot goes through `steps` and comes to another slot. -/
inductive Walk (db : Db UiConfirmedBlock) (chain : Slot → Option UiConfirmedBlock)
    (startSlot : Slot) : Slot → List (Slot × UiConfirmedBlock) → Slot → Prop
  | stay {slot : Slot} : Walk db chain startSlot slot [] slot
  | step {slot last : Slot} {block : UiConfirmedBlock} {steps : List (Slot × UiConfirmedBlock)} :
      startSlot ≤ slot → handed db chain slot = some block →
        Walk db chain startSlot block.parentSlot steps last →
          Walk db chain startSlot slot ((slot, block) :: steps) last

/-- The slots the walk comes to, as long as it is not below the start slot. -/
inductive Visited (db : Db UiConfirmedBlock) (chain : Slot → Option UiConfirmedBlock)
    (startSlot endSlot : Slot) : Slot → Prop
  | first : startSlot ≤ endSlot → Visited db chain startSlot endSlot endSlot
  | parent {slot : Slot} {block : UiConfirmedBlock} :
      Visited db chain startSlot endSlot slot → handed db chain slot = some block →
        startSlot ≤ block.parentSlot → Visited db chain startSlot endSlot block.parentSlot

/-- A block has its parent in an earlier slot; only that of slot 0 has none. -/
def ParentsBelow (db : Db UiConfirmedBlock) (chain : Slot → Option UiConfirmedBlock) : Prop :=
  ∀ (slot : Slot) (block : UiConfirmedBlock), 0 < slot →
    db.solBlock.lookup slot = some block ∨ chain slot = some block → block.parentSlot < slot

theorem ParentsBelow.handed {db : Db UiConfirmedBlock} (h : ParentsBelow db chain) {slot : Slot}
    {block : UiConfirmedBlock} (hslot : 0 < slot) (hblock : handed db chain slot = some block) :
    block.parentSlot < slot := by
  rw [SolanaBlockLoader.handed] at hblock
  split at hblock
  · next stored hstored =>
      cases hblock
      exact h slot block hslot (.inl hstored)
  · exact h slot block hslot (.inr hblock)

namespace Walk

variable {db db' : Db UiConfirmedBlock} {slot middle last : Slot}
  {steps later : List (Slot × UiConfirmedBlock)}

theorem append (h : Walk db chain startSlot slot steps middle)
    (hlater : Walk db chain startSlot middle later last) :
    Walk db chain startSlot slot (steps ++ later) last := by
  induction h with
  | stay => exact hlater
  | step hle hblock _ ih => exact .step hle hblock (ih hlater)

theorem mem (h : Walk db chain startSlot slot steps last) :
    ∀ e ∈ steps, startSlot ≤ e.1 ∧ handed db chain e.1 = some e.2 := by
  induction h with
  | stay => exact fun e he => by cases he
  | step hle hblock _ ih =>
      intro e he
      rcases List.mem_cons.mp he with rfl | he
      · exact ⟨hle, hblock⟩
      · exact ih e he

/-- The slots of the walk descend. -/
theorem descending (hstart : 0 < startSlot) (hdesc : ParentsBelow db chain)
    (h : Walk db chain startSlot slot steps last) :
    (steps.map Prod.fst).Pairwise (· > ·) ∧ (∀ e ∈ steps, e.1 ≤ slot ∧ last < e.1) ∧
      last ≤ slot := by
  induction h with
  | stay => exact ⟨List.Pairwise.nil, fun e he => (by cases he), Nat.le_refl _⟩
  | @step slot last block steps hle hblock _ ih =>
      obtain ⟨hpairwise, hbetween, hlast⟩ := ih
      have hparent := hdesc.handed (Nat.lt_of_lt_of_le hstart hle) hblock
      refine ⟨List.pairwise_cons.mpr ⟨?_, hpairwise⟩, ?_,
        Nat.le_trans hlast (Nat.le_of_lt hparent)⟩
      · intro slot' hslot'
        obtain ⟨e, he, rfl⟩ := List.mem_map.mp hslot'
        exact Nat.lt_of_le_of_lt (hbetween e he).1 hparent
      · intro e he
        rcases List.mem_cons.mp he with rfl | he
        · exact ⟨Nat.le_refl _, Nat.lt_of_le_of_lt hlast hparent⟩
        · obtain ⟨hle, hlt⟩ := hbetween e he
          exact ⟨Nat.le_trans hle (Nat.le_of_lt hparent), hlt⟩

theorem nodup (hstart : 0 < startSlot) (hdesc : ParentsBelow db chain)
    (h : Walk db chain startSlot slot steps last) : (steps.map Prod.fst).Nodup :=
  (h.descending hstart hdesc).1.imp fun hgt => Nat.ne_of_gt hgt

/-- A walk below what was changed goes as before. -/
theorem congr (hstart : 0 < startSlot) (hdesc : ParentsBelow db chain)
    (h : Walk db chain startSlot slot steps last)
    (hsame : ∀ slot' ≤ slot, db'.solBlock.lookup slot' = db.solBlock.lookup slot') :
    Walk db' chain startSlot slot steps last := by
  induction h with
  | stay => exact .stay
  | @step slot last block steps hle hblock _ ih =>
      have hparent := hdesc.handed (Nat.lt_of_lt_of_le hstart hle) hblock
      refine .step hle ?_ (ih fun slot' hslot' => ?_)
      · rw [handed, hsame slot (Nat.le_refl _)]
        exact hblock
      · exact hsame slot' (Nat.le_trans hslot' (Nat.le_of_lt hparent))

/-- A walk that comes below the start slot has been to every slot there is to visit. -/
theorem visited_iff (h : Walk db chain startSlot endSlot steps last) (hlast : last < startSlot)
    (slot : Slot) : Visited db chain startSlot endSlot slot ↔ slot ∈ steps.map Prod.fst := by
  constructor
  · -- the walk goes on to the parent of each of its slots
    have hnext : ∀ {slot : Slot}, Walk db chain startSlot slot steps last →
        ∀ e ∈ steps, startSlot ≤ e.2.parentSlot → e.2.parentSlot ∈ steps.map Prod.fst := by
      clear h
      intro slot h
      induction h with
      | stay => exact fun e he => by cases he
      | @step slot last block steps hle hblock hrest ih =>
          intro e he hparent
          rcases List.mem_cons.mp he with rfl | he
          · cases hrest with
            | stay => exact absurd hparent (Nat.not_le.mpr hlast)
            | step => exact List.mem_cons_of_mem _ (List.mem_cons_self ..)
          · exact List.mem_cons_of_mem _ (ih hlast e he hparent)
    intro hvisited
    induction hvisited with
    | first hle =>
        cases h with
        | stay => exact absurd hle (Nat.not_le.mpr hlast)
        | step => exact List.mem_cons_self ..
    | parent _ hblock hparent ih =>
        obtain ⟨e, he, rfl⟩ := List.mem_map.mp ih
        have heq := (h.mem e he).2
        rw [hblock] at heq
        cases heq
        exact hnext h e he hparent
  · clear hlast
    intro hslot
    -- every slot the walk comes to is visited
    have hall : ∀ {first : Slot}, Walk db chain startSlot first steps last →
        (startSlot ≤ first → Visited db chain startSlot endSlot first) →
          ∀ slot ∈ steps.map Prod.fst, Visited db chain startSlot endSlot slot := by
      clear h hslot
      intro first h
      induction h with
      | stay => exact fun _ slot hslot => by cases hslot
      | @step first last block steps hle hblock _ ih =>
          intro hfirst slot hslot
          rcases List.mem_cons.mp hslot with rfl | hslot
          · exact hfirst hle
          · exact ih (fun hparent => .parent (hfirst hle) hblock hparent) slot hslot
    exact hall h (fun hle => .first hle) slot hslot

end Walk

/-! ## What a batch writes back -/

/-- The finalized block of a slot, where it is not the one the walk has. -/
def reloaded (chain : Slot → Option UiConfirmedBlock) (slot : Slot) (block : UiConfirmedBlock) :
    Option UiConfirmedBlock :=
  match chain slot with
  | some finalizedBlock =>
      if finalizedBlock.blockhash ≠ block.blockhash then some finalizedBlock else none
  | none => none

/-- After a recheck of the blocks of a walk: a block that was different is
replaced, everything else is as before, and an event was sent for what was replaced. -/
structure WrittenBack (chain : Slot → Option UiConfirmedBlock)
    (steps : List (Slot × UiConfirmedBlock)) (read : σ → Db UiConfirmedBlock)
    (sent : σ → List Slot) (s t : σ) : Prop where
  inside : ∀ e ∈ steps, (read t).solBlock.lookup e.1 =
    (reloaded chain e.1 e.2).or ((read s).solBlock.lookup e.1)
  outside : ∀ slot ∉ steps.map Prod.fst,
    (read t).solBlock.lookup slot = (read s).solBlock.lookup slot
  events : ∃ later, sent t = sent s ++ later ∧
    ∀ e ∈ steps, (reloaded chain e.1 e.2).isSome → ∃ event ∈ later, event ≤ e.1

namespace WrittenBack

variable {steps later : List (Slot × UiConfirmedBlock)} {s u t : σ}

theorem nothing (hread : read t = read s) (hsent : sent t = sent s) :
    WrittenBack chain [] read sent s t where
  inside e he := by cases he
  outside slot _ := by rw [hread]
  events := ⟨[], by rw [hsent, List.append_nil], fun e he => by cases he⟩

/-- It is seen only through what is read and sent. -/
theorem of_same (h : WrittenBack chain steps read sent u t) (hread : read u = read s)
    (hsent : sent u = sent s) : WrittenBack chain steps read sent s t where
  inside := hread ▸ h.inside
  outside := hread ▸ h.outside
  events := hsent ▸ h.events

theorem append (h : WrittenBack chain steps read sent s u)
    (hlater : WrittenBack chain later read sent u t)
    (hdisjoint : ∀ slot ∈ steps.map Prod.fst, slot ∉ later.map Prod.fst) :
    WrittenBack chain (steps ++ later) read sent s t where
  inside e he := by
    by_cases hsteps : e ∈ steps
    · rw [hlater.outside e.1 (hdisjoint e.1 (List.mem_map_of_mem hsteps))]
      exact h.inside e hsteps
    · have hin : e ∈ later := (List.mem_append.mp he).resolve_left hsteps
      have hout : e.1 ∉ steps.map Prod.fst := fun hslot =>
        hdisjoint e.1 hslot (List.mem_map_of_mem hin)
      rw [hlater.inside e hin, h.outside e.1 hout]
  outside slot hslot := by
    rw [List.map_append, List.mem_append, not_or] at hslot
    rw [hlater.outside slot hslot.2, h.outside slot hslot.1]
  events := by
    obtain ⟨events, hsent, hevents⟩ := h.events
    obtain ⟨events', hsent', hevents'⟩ := hlater.events
    refine ⟨events ++ events', by rw [hsent', hsent, List.append_assoc], ?_⟩
    intro e he hreloaded
    rcases List.mem_append.mp he with he | he
    · obtain ⟨event, hmem, hle⟩ := hevents e he hreloaded
      exact ⟨event, List.mem_append_left _ hmem, hle⟩
    · obtain ⟨event, hmem, hle⟩ := hevents' e he hreloaded
      exact ⟨event, List.mem_append_right _ hmem, hle⟩

/-- A block that is written is one of the chain. -/
theorem parentsBelow (h : WrittenBack chain steps read sent s t)
    (hbelow : ParentsBelow (read s) chain) : ParentsBelow (read t) chain := by
  intro slot block hslot hblock
  rcases hblock with hblock | hblock
  · by_cases hin : slot ∈ steps.map Prod.fst
    · obtain ⟨e, he, rfl⟩ := List.mem_map.mp hin
      rw [h.inside e he, Option.or_eq_some_iff] at hblock
      rcases hblock with hblock | ⟨-, hblock⟩
      · refine hbelow e.1 block hslot (.inr ?_)
        rw [reloaded] at hblock
        split at hblock
        · next c hc =>
            split at hblock
            · cases hblock
              exact hc
            · cases hblock
        · cases hblock
      · exact hbelow e.1 block hslot (.inl hblock)
    · rw [h.outside slot hin] at hblock
      exact hbelow slot block hslot (.inl hblock)
  · exact hbelow slot block hslot (.inr hblock)

end WrittenBack

theorem blockToCheck_ok (hS : Stores L.solanaBlockStorage read sent)
    (hC : ShowsChain X L headers chain) {slot : Slot} {block : UiConfirmedBlock} {s t : σ}
    (h : L.blockToCheck X slot s = .ok block t) :
    handed (read s) chain slot = some block ∧ read t = read s ∧ sent t = sent s := by
  obtain ⟨stored, u, hget, hrest⟩ := EStateM.bind_ok h
  obtain ⟨hstored, hread, hsent⟩ := hS.getBlock slot s stored u hget
  rw [handed, ← hstored]
  cases stored with
  | some stored =>
      cases hrest
      exact ⟨rfl, hread, hsent⟩
  | none =>
      obtain ⟨answer, u', hload, hlast⟩ := EStateM.bind_ok hrest
      rw [hC.load] at hload
      cases hload
      cases hanswer : chain slot with
      | none =>
          rw [hanswer] at hlast
          cases hlast
      | some c =>
          rw [hanswer] at hlast
          cases hlast
          exact ⟨rfl, hread, hsent⟩

theorem batchLoop_ok (hS : Stores L.solanaBlockStorage read sent)
    (hC : ShowsChain X L headers chain) (n : Nat) :
    ∀ {slot last : Slot} {blocks batch : BTreeMap Slot UiConfirmedBlock} {s t : σ},
      L.batchLoop X startSlot n slot blocks s = .ok (last, batch) t →
        ∃ steps, Walk (read s) chain startSlot slot steps last ∧ batch = blocks.insertAll steps ∧
          read t = read s ∧ sent t = sent s := by
  induction n with
  | zero =>
      intro slot last blocks batch s t h
      cases h
      exact ⟨[], .stay, rfl, rfl, rfl⟩
  | succ n ih =>
      intro slot last blocks batch s t h
      rw [batchLoop] at h
      split at h
      · next hle =>
          obtain ⟨block, u, hblock, hrest⟩ := EStateM.bind_ok h
          obtain ⟨hhanded, hread, hsent⟩ := blockToCheck_ok hS hC hblock
          obtain ⟨steps, hwalk, hbatch, hread', hsent'⟩ := ih hrest
          rw [hread] at hwalk
          exact ⟨(slot, block) :: steps, .step hle hhanded hwalk, hbatch, hread'.trans hread,
            hsent'.trans hsent⟩
      · cases h
        exact ⟨[], .stay, rfl, rfl, rfl⟩

/-- The node as the rechecks see it. -/
def chainAnswers (headers : Slot → Option RpcBlock) (chain : Slot → Option UiConfirmedBlock) :
    NodeAnswers :=
  ⟨fun slot => .ok (headers slot), fun slot => .ok (chain slot)⟩

theorem ShowsChain.answering (hC : ShowsChain X L headers chain) :
    Answering X L (chainAnswers headers chain) where
  header := hC.header
  reload := hC.finalized

theorem ShowsChain.recheck_eq (hC : ShowsChain X L headers chain) (slot : Slot)
    (block : UiConfirmedBlock) :
    (chainAnswers headers chain).recheck slot block = .ok (reloaded chain slot block) := by
  have hhash := hC.blockhash slot
  simp only [NodeAnswers.recheck, chainAnswers, reloaded]
  cases hheader : headers slot with
  | none =>
      rw [hheader, Option.map_none, eq_comm, Option.map_eq_none_iff] at hhash
      rw [hhash]
  | some header =>
      rw [hheader, Option.map_some, eq_comm, Option.map_eq_some_iff] at hhash
      obtain ⟨c, hc, hsame⟩ := hhash
      rw [hc]
      dsimp only
      rw [hsame]
      split <;> rfl

/-- Rechecking the blocks of a walk writes back what is different. -/
theorem recheck_writtenBack (hS : Stores L.solanaBlockStorage read sent)
    (hC : ShowsChain X L headers chain) {reorgEventTx : ReorgSender σ}
    (htx : Sends reorgEventTx read sent) (hstart : 0 < startSlot) {last : Slot} {s t : σ}
    (hbelow : ParentsBelow (read s) chain) {steps : List (Slot × UiConfirmedBlock)}
    (hwalk : Walk (read s) chain startSlot endSlot steps last)
    (hrecheck : L.recheckFinalizedBlocks X ((∅ : BTreeMap Slot UiConfirmedBlock).insertAll steps)
      reorgEventTx s = .ok () t) : WrittenBack chain steps read sent s t := by
  obtain ⟨updated, hanswers, hsub, hevents, hin, hout⟩ :=
    recheckFinalizedBlocks_ok hC.answering hS.update htx hrecheck
  -- the slots of the walk are distinct, so the batch holds each with its block
  have hget : ∀ (slot : Slot) (block : UiConfirmedBlock),
      ((∅ : BTreeMap Slot UiConfirmedBlock).insertAll steps)[slot]? = some block ↔
        (slot, block) ∈ steps := by
    intro slot block
    rw [BTreeMap.get?_insertAll steps (hwalk.nodup hstart hbelow)]
    simp
  have hupdated : ∀ e ∈ steps, updated[e.1]? = reloaded chain e.1 e.2 := by
    intro e he
    have hanswer := hanswers e.1 e.2 ((hget e.1 e.2).mpr he)
    rw [hC.recheck_eq] at hanswer
    exact (Except.ok.inj hanswer).symm
  refine ⟨?_, ?_, ⟨(firstSlot updated).toList, hevents, ?_⟩⟩
  · intro e he
    cases hnew : reloaded chain e.1 e.2 with
    | some block =>
        rw [(hin e.1 block ((hupdated e he).trans hnew)).2]
        rfl
    | none =>
        have hnot : e.1 ∉ updated := by
          intro hmem
          rw [Std.ExtTreeMap.mem_iff_isSome_getElem?, hupdated e he, hnew] at hmem
          cases hmem
        rw [(hout e.1 hnot).2]
        rfl
  · intro slot hslot
    have hnot : slot ∉ updated := by
      intro hmem
      have hkey := hsub slot hmem
      rw [BTreeMap.mem_keys_insertAll] at hkey
      exact hkey.elim hslot Std.ExtTreeMap.not_mem_empty
    exact (hout slot hnot).2
  · intro e he hnew
    have hmem : e.1 ∈ updated := by
      rw [Std.ExtTreeMap.mem_iff_isSome_getElem?, hupdated e he]
      exact hnew
    cases hfirst : firstSlot updated with
    | none => exact absurd hmem (firstSlot_eq_none hfirst e.1)
    | some first =>
        exact ⟨first, List.mem_singleton_self _, (firstSlot_eq_some hfirst).2 e.1 hmem⟩

/-! ## The batches -/

/-- The loop of `start_checking`, some batches long: from a slot to another, with the
blocks that each of the batches handed over to be rechecked. -/
inductive Checking (X : Crates) (L : SolanaBlockLoader σ) (startSlot : Slot)
    (reorgEventTx : ReorgSender σ) :
    Slot → σ → List (BTreeMap Slot UiConfirmedBlock) → Slot → σ → Prop
  | stay {slot : Slot} {s : σ} : Checking X L startSlot reorgEventTx slot s [] slot s
  | batch {slot next last : Slot} {blocks : BTreeMap Slot UiConfirmedBlock}
      {handedOver : List (BTreeMap Slot UiConfirmedBlock)} {s u v t : σ} :
      startSlot ≤ slot → L.batchLoop X startSlot L.batchSize slot ∅ s = .ok (next, blocks) u →
        L.recheckFinalizedBlocks X blocks reorgEventTx u = .ok () v →
          Checking X L startSlot reorgEventTx next v handedOver last t →
            Checking X L startSlot reorgEventTx slot s (blocks :: handedOver) last t

/-- The slots that were handed over. -/
def slotsOf (handedOver : List (BTreeMap Slot UiConfirmedBlock)) : List Slot :=
  handedOver.flatMap fun blocks => blocks.keys

/-- The batches go along the walk: what they hand over are its slots. -/
theorem Checking.walk (hS : Stores L.solanaBlockStorage read sent)
    (hC : ShowsChain X L headers chain) {reorgEventTx : ReorgSender σ}
    (htx : Sends reorgEventTx read sent) (hstart : 0 < startSlot) {slot last : Slot}
    {handedOver : List (BTreeMap Slot UiConfirmedBlock)} {s t : σ}
    (h : Checking X L startSlot reorgEventTx slot s handedOver last t) :
    ParentsBelow (read s) chain →
      ∃ steps, Walk (read s) chain startSlot slot steps last ∧
        (slotsOf handedOver).Perm (steps.map Prod.fst) ∧ WrittenBack chain steps read sent s t := by
  induction h with
  | stay => exact fun _ => ⟨[], .stay, List.Perm.refl _, .nothing rfl rfl⟩
  | @batch slot next last blocks handedOver s u v t hle hloop hrecheck _ ih =>
      intro hbelow
      obtain ⟨steps, hwalk, rfl, hread, hsent⟩ := batchLoop_ok hS hC _ hloop
      have hwritten := (recheck_writtenBack hS hC htx hstart (hread ▸ hbelow) (hread ▸ hwalk)
        hrecheck).of_same hread hsent
      have hbelow' := hwritten.parentsBelow hbelow
      obtain ⟨later, hlater, hperm, hwritten'⟩ := ih hbelow'
      -- what the batch wrote lies above where the walk goes on
      have habove : ∀ slot ∈ steps.map Prod.fst, next < slot := by
        intro slot hslot
        obtain ⟨e, he, rfl⟩ := List.mem_map.mp hslot
        exact ((hwalk.descending hstart hbelow).2.1 e he).2
      have hsame : ∀ slot ≤ next,
          (read s).solBlock.lookup slot = (read v).solBlock.lookup slot := by
        intro slot hslot
        refine (hwritten.outside slot fun hmem => ?_).symm
        exact Nat.not_le.mpr (habove slot hmem) hslot
      refine ⟨steps ++ later, hwalk.append (hlater.congr hstart hbelow' hsame), ?_,
        hwritten.append hwritten' ?_⟩
      · rw [List.map_append]
        refine List.Perm.append ?_ hperm
        rw [List.perm_ext_iff_of_nodup Std.ExtTreeMap.nodup_keys (hwalk.nodup hstart hbelow)]
        intro slot
        rw [Std.ExtTreeMap.mem_keys, BTreeMap.mem_keys_insertAll]
        simp
      · intro slot hslot hmem
        obtain ⟨e, he, rfl⟩ := List.mem_map.mp hmem
        have hle := ((hlater.descending hstart hbelow').2.1 e he).1
        exact Nat.not_le.mpr (habove e.1 hslot) hle

/-! ## The whole walk -/

theorem checkFrom_ok (hS : Stores L.solanaBlockStorage read sent) {givenEnd first : Option Slot}
    {s t : σ} (h : L.checkFrom givenEnd s = .ok first t) : read t = read s ∧ sent t = sent s := by
  cases givenEnd with
  | some value =>
      cases h
      exact ⟨rfl, rfl⟩
  | none =>
      obtain ⟨answer, u, hanswer, hrest⟩ := EStateM.bind_ok h
      rw [Eff.attempt] at hanswer
      cases hlast : L.solanaBlockStorage.getLastSlot s with
      | ok lastSlot v =>
          rw [hlast] at hanswer
          cases hanswer
          cases hrest
          exact hS.getLastSlot s _ _ hlast
      | error e v =>
          rw [hlast] at hanswer
          cases e with
          | err e =>
              cases hanswer
              cases hrest
          | panic message => cases hanswer

/-- A walk that ends has come below the start slot. -/
theorem checkLoop_start_pos (reorgEventTx : ReorgSender σ) (batches : Nat) :
    ∀ {endSlot : Slot} {s t : σ},
      L.checkLoop X startSlot reorgEventTx batches endSlot s = .ok () t → 0 < startSlot := by
  induction batches with
  | zero =>
      intro endSlot s t h
      rw [checkLoop] at h
      split at h
      · cases h
      · next hlt => exact Nat.zero_lt_of_lt (Nat.lt_of_not_le hlt)
  | succ batches ih =>
      intro endSlot s t h
      rw [checkLoop] at h
      split at h
      · obtain ⟨endSlot', u, _, hrest⟩ := EStateM.bind_ok h
        exact ih hrest
      · next hlt => exact Nat.zero_lt_of_lt (Nat.lt_of_not_le hlt)

/-- A batch goes on below the slot it began with. -/
theorem checkBatch_lt (hS : Stores L.solanaBlockStorage read sent)
    (hC : ShowsChain X L headers chain) {reorgEventTx : ReorgSender σ}
    (hstart : 0 < startSlot) (hsize : 0 < L.batchSize) (hle : startSlot ≤ endSlot) {last : Slot}
    {s t : σ} (hbelow : ParentsBelow (read s) chain)
    (h : L.checkBatch X startSlot endSlot reorgEventTx s = .ok last t) : last < endSlot := by
  obtain ⟨⟨last', batch⟩, u, hbatch, hrest⟩ := EStateM.bind_ok h
  obtain ⟨_, _, _, hlast⟩ := EStateM.bind_ok hrest
  cases hlast
  obtain ⟨n, hn⟩ := Nat.exists_eq_succ_of_ne_zero (Nat.ne_of_gt hsize)
  rw [hn, batchLoop, if_pos hle] at hbatch
  obtain ⟨block, v, hblock, hloop⟩ := EStateM.bind_ok hbatch
  obtain ⟨hhanded, hread, _⟩ := blockToCheck_ok hS hC hblock
  obtain ⟨steps, hwalk, _⟩ := batchLoop_ok hS hC n hloop
  rw [hread] at hwalk
  have hparent := hbelow.handed (Nat.lt_of_lt_of_le hstart hle) hhanded
  exact Nat.lt_of_le_of_lt (hwalk.descending hstart hbelow).2.2 hparent

/-- As many batches as there are slots are enough: another one changes nothing. -/
theorem checkLoop_enough (hS : Stores L.solanaBlockStorage read sent)
    (hC : ShowsChain X L headers chain) {reorgEventTx : ReorgSender σ}
    (htx : Sends reorgEventTx read sent) (hstart : 0 < startSlot) (hsize : 0 < L.batchSize)
    (batches : Nat) : ∀ {endSlot : Slot} {s : σ}, ParentsBelow (read s) chain →
      endSlot < startSlot + batches →
        L.checkLoop X startSlot reorgEventTx batches endSlot s =
          L.checkLoop X startSlot reorgEventTx (batches + 1) endSlot s := by
  induction batches with
  | zero =>
      intro endSlot s _ hlt
      have hnot : ¬ startSlot ≤ endSlot := Nat.not_le.mpr hlt
      rw [checkLoop, checkLoop, if_neg hnot, if_neg hnot]
  | succ batches ih =>
      intro endSlot s hbelow hlt
      rw [checkLoop, checkLoop]
      by_cases hle : startSlot ≤ endSlot
      · rw [if_pos hle, if_pos hle]
        simp only [bind, EStateM.bind]
        cases hbatch : L.checkBatch X startSlot endSlot reorgEventTx s with
        | error e u => rfl
        | ok middle u =>
            obtain ⟨⟨next, blocks⟩, v, hloop, hthen⟩ := EStateM.bind_ok hbatch
            obtain ⟨_, w, hrecheck, hlast⟩ := EStateM.bind_ok hthen
            cases hlast
            have hone : Checking X L startSlot reorgEventTx endSlot s [blocks] middle u :=
              .batch hle hloop hrecheck .stay
            obtain ⟨steps, _, _, hwritten⟩ := hone.walk hS hC htx hstart hbelow
            have hdown := checkBatch_lt hS hC hstart hsize hle hbelow hbatch
            refine ih (hwritten.parentsBelow hbelow) (Nat.lt_of_lt_of_le hdown ?_)
            exact Nat.le_of_lt_succ hlt
      · rw [if_neg hle, if_neg hle]

/-- A loop that returns has gone through its batches to below the start slot. -/
theorem checkLoop_checking (reorgEventTx : ReorgSender σ) (batches : Nat) :
    ∀ {endSlot : Slot} {s t : σ},
      L.checkLoop X startSlot reorgEventTx batches endSlot s = .ok () t →
        ∃ handedOver last, Checking X L startSlot reorgEventTx endSlot s handedOver last t ∧
          last < startSlot := by
  induction batches with
  | zero =>
      intro endSlot s t h
      rw [checkLoop] at h
      split at h
      · cases h
      · next hlt =>
          cases h
          exact ⟨[], endSlot, .stay, Nat.lt_of_not_le hlt⟩
  | succ batches ih =>
      intro endSlot s t h
      rw [checkLoop] at h
      split at h
      · next hle =>
          obtain ⟨middle, u, hbatch, hrest⟩ := EStateM.bind_ok h
          obtain ⟨⟨next, blocks⟩, v, hloop, hthen⟩ := EStateM.bind_ok hbatch
          obtain ⟨_, w, hrecheck, hlast⟩ := EStateM.bind_ok hthen
          cases hlast
          obtain ⟨handedOver, last, hchecking, hlast⟩ := ih hrest
          exact ⟨blocks :: handedOver, last, .batch hle hloop hrecheck hchecking, hlast⟩
      · next hlt =>
          cases h
          exact ⟨[], endSlot, .stay, Nat.lt_of_not_le hlt⟩

theorem checkLoop_ok (hS : Stores L.solanaBlockStorage read sent)
    (hC : ShowsChain X L headers chain) {reorgEventTx : ReorgSender σ}
    (htx : Sends reorgEventTx read sent) (hstart : 0 < startSlot) {batches : Nat} {s t : σ}
    (hbelow : ParentsBelow (read s) chain)
    (h : L.checkLoop X startSlot reorgEventTx batches endSlot s = .ok () t) :
    ∃ steps last, Walk (read s) chain startSlot endSlot steps last ∧ last < startSlot ∧
      WrittenBack chain steps read sent s t := by
  obtain ⟨handedOver, last, hchecking, hlast⟩ := checkLoop_checking reorgEventTx batches h
  obtain ⟨steps, hwalk, _, hwritten⟩ := hchecking.walk hS hC htx hstart hbelow
  exact ⟨steps, last, hwalk, hlast, hwritten⟩

/-- The slot is stored with the blockhash it has on the chain. -/
def StoredAs (db : Db UiConfirmedBlock) (chain : Slot → Option UiConfirmedBlock) (slot : Slot) :
    Prop :=
  ∃ c, chain slot = some c ∧
    ∃ block, db.solBlock.lookup slot = some block ∧ block.blockhash = c.blockhash

/-- What is asked of the recovery: every slot it visited is stored as the chain has
it, and an event was sent for each that was not stored so before. -/
structure Repaired (chain : Slot → Option UiConfirmedBlock) (visited : Slot → Prop)
    (read : σ → Db UiConfirmedBlock) (sent : σ → List Slot) (s t : σ) : Prop where
  stored : ∀ slot, visited slot → StoredAs (read t) chain slot
  event : ∀ slot, visited slot → ¬ StoredAs (read s) chain slot →
    ∃ later, sent t = sent s ++ later ∧ ∃ event ∈ later, event ≤ slot

/-- A recheck leaves the block of a slot as the chain has it exactly when both have one. -/
theorem WrittenBack.storedAs_iff {steps : List (Slot × UiConfirmedBlock)} {s t : σ}
    (h : WrittenBack chain steps read sent s t) {e : Slot × UiConfirmedBlock} (he : e ∈ steps)
    (hhanded : handed (read s) chain e.1 = some e.2) :
    StoredAs (read t) chain e.1 ↔ e.1 ∈ (read s).solBlock ∧ (chain e.1).isSome := by
  have hinside := h.inside e he
  rw [handed] at hhanded
  rw [StoredAs, ← AList.lookup_isSome]
  cases hlookup : (read s).solBlock.lookup e.1 with
  | none =>
      -- the block that was loaded is the one it is compared with
      rw [hlookup] at hhanded hinside
      have hsame : reloaded chain e.1 e.2 = none := by
        have hchain : chain e.1 = some e.2 := hhanded
        rw [reloaded, hchain]
        simp
      rw [hsame] at hinside
      simp [hinside]
  | some block =>
      rw [hlookup] at hhanded hinside
      cases hhanded
      cases hchain : chain e.1 with
      | none => simp
      | some c =>
          have hnew : reloaded chain e.1 e.2 =
              if c.blockhash ≠ e.2.blockhash then some c else none := by
            rw [reloaded, hchain]
          rw [hinside, hnew]
          by_cases hhash : c.blockhash = e.2.blockhash
          · simp [hhash]
          · simp [hhash]

/-- An event is sent for a slot whose block is not the one of the chain. -/
theorem WrittenBack.event_of_not_storedAs {steps : List (Slot × UiConfirmedBlock)} {s t : σ}
    (h : WrittenBack chain steps read sent s t) {e : Slot × UiConfirmedBlock} (he : e ∈ steps)
    (hhanded : handed (read s) chain e.1 = some e.2) (hin : e.1 ∈ (read s).solBlock)
    (hchain : (chain e.1).isSome) (hnot : ¬ StoredAs (read s) chain e.1) :
    ∃ later, sent t = sent s ++ later ∧ ∃ event ∈ later, event ≤ e.1 := by
  obtain ⟨later, hsent, hevents⟩ := h.events
  refine ⟨later, hsent, hevents e he ?_⟩
  obtain ⟨block, hblock⟩ := HashMap.lookup_of_mem hin
  obtain ⟨c, hc⟩ := Option.isSome_iff_exists.mp hchain
  rw [handed, hblock] at hhanded
  cases hhanded
  rw [reloaded, hc]
  have hne : c.blockhash ≠ e.2.blockhash := fun heq => hnot ⟨c, hc, e.2, hblock, heq.symm⟩
  simp [hne]

/-- A recovery that walks ends with every visited slot repaired exactly when each of
them was stored before and none lies off the chain. -/
theorem start_checking_repairs_iff (hS : Stores L.solanaBlockStorage read sent)
    (hC : ShowsChain X L headers chain) {reorgEventTx : ReorgSender σ}
    (htx : Sends reorgEventTx read sent) {batches : Nat} {givenEnd : Option Slot} {s u t : σ}
    (hbelow : ParentsBelow (read s) chain)
    (hfrom : L.checkFrom givenEnd s = .ok (some endSlot) u) (hle : startSlot ≤ endSlot)
    (hstored : startSlot ∈ (read s).solBlock)
    (h : L.startChecking X batches startSlot givenEnd reorgEventTx s = .ok () t) :
    Repaired chain (Visited (read s) chain startSlot endSlot) read sent s t ↔
      ∀ slot, Visited (read s) chain startSlot endSlot slot →
        slot ∈ (read s).solBlock ∧ (chain slot).isSome := by
  have hwalked : ∃ v, read v = read s ∧ sent v = sent s ∧
      L.checkLoop X startSlot reorgEventTx batches endSlot v = .ok () t := by
    obtain ⟨first, u', hfirst, hrest⟩ := EStateM.bind_ok h
    rw [hfrom] at hfirst
    cases hfirst
    have hkept := checkFrom_ok hS hfrom
    dsimp only at hrest
    rw [if_neg (Nat.not_lt.mpr hle)] at hrest
    obtain ⟨block, v, hget, hloop⟩ := EStateM.bind_ok hrest
    obtain ⟨hblock, hread, hsent⟩ := hS.getBlock startSlot u block v hget
    cases block with
    | none =>
        rw [hkept.1] at hblock
        obtain ⟨block, hin⟩ := HashMap.lookup_of_mem hstored
        rw [hin] at hblock
        cases hblock
    | some block => exact ⟨v, hread.trans hkept.1, hsent.trans hkept.2, hloop⟩
  obtain ⟨v, hread, hsent, hloop⟩ := hwalked
  rw [← hread] at hbelow
  obtain ⟨steps, last, hwalk, hlast, hwritten⟩ :=
    checkLoop_ok hS hC htx (checkLoop_start_pos reorgEventTx batches hloop) hbelow hloop
  rw [hread] at hwalk
  have hvisited := hwalk.visited_iff hlast
  have hwritten := hwritten.of_same hread hsent
  constructor
  · intro hrepaired slot hslot
    obtain ⟨e, he, rfl⟩ := List.mem_map.mp ((hvisited slot).mp hslot)
    exact (hwritten.storedAs_iff he (hwalk.mem e he).2).mp (hrepaired.stored e.1 hslot)
  · intro hall
    constructor
    · intro slot hslot
      obtain ⟨e, he, rfl⟩ := List.mem_map.mp ((hvisited slot).mp hslot)
      exact (hwritten.storedAs_iff he (hwalk.mem e he).2).mpr (hall e.1 hslot)
    · intro slot hslot hnot
      obtain ⟨hin, hchain⟩ := hall slot hslot
      obtain ⟨e, he, rfl⟩ := List.mem_map.mp ((hvisited slot).mp hslot)
      exact hwritten.event_of_not_storedAs he (hwalk.mem e he).2 hin hchain hnot

/-! ## A slot that is missing -/

theorem stores_pg : Stores (PgStorage.solanaBlockStorage (σ := Channel) Server.pool.beside)
    (fun s => s.1.db) Prod.snd where
  getBlock slot s r t h := by
    simp only [PgStorage.solanaBlockStorage, Pool.query, Pool.transaction_beside] at h
    split at h
    · next a u hrun =>
        cases h
        have hanswer := Server.transaction_ok hrun
        simp only [Except.map, Except.ok.injEq, Prod.mk.injEq] at hanswer
        exact ⟨hanswer.1.symm, hanswer.2.symm, rfl⟩
    · cases h
  getLastSlot s r t h := by
    simp only [PgStorage.solanaBlockStorage, Pool.query, Pool.transaction_beside] at h
    split at h
    · next a u hrun =>
        cases h
        have hanswer := Server.transaction_ok hrun
        simp only [Except.map, Except.ok.injEq, Prod.mk.injEq] at hanswer
        exact ⟨hanswer.2.symm, rfl⟩
    · cases h
  update := updatesFinalized_pg

/-- The block of a slot whose predecessor has a block too. -/
def linkedBlock (slot : Slot) : UiConfirmedBlock := ⟨"", "hash " ++ toString slot, slot - 1, none, some 0⟩

/-- Every slot up to 7 has a block. -/
def fullChain (slot : Slot) : Option UiConfirmedBlock :=
  if slot ≤ 7 then some (linkedBlock slot) else none

def fullHeaders (slot : Slot) : Option RpcBlock := (fullChain slot).map fun block => ⟨block, none⟩

def fullChainLoader : SolanaBlockLoader Channel :=
  tableLoader (PgStorage.solanaBlockStorage Server.pool.beside)
    (fun slot => .ok (fullHeaders slot)) (fun slot => .ok (fullChain slot)) (fun _ => 7)

theorem showsChain_fullChainLoader : ShowsChain standIns fullChainLoader fullHeaders fullChain where
  header slot s := by simp [fullChainLoader, tableLoader, tableClient, liftOutcome, pure, EStateM.pure]
  blockhash slot := by simp [fullHeaders, Function.comp_def]
  finalized slot s := loadBlock_tableLoader _ _ _ _ _ _ slot s
  load slot s := loadBlock_tableLoader _ _ _ _ _ _ slot s

/-- Slots 5 and 7 are stored, slot 6 between them is not. -/
def gapWorld : Channel :=
  (⟨PgStorage.setBlockWithStatus2 5 (linkedBlock 5) .finalized 0
    (PgStorage.setBlockWithStatus2 7 (linkedBlock 7) .finalized 0 Db.empty), []⟩, [])

theorem gapWorld_lookup (slot : Slot) : gapWorld.1.db.solBlock.lookup slot =
    if slot = 5 ∨ slot = 7 then some (linkedBlock slot) else none := by
  simp only [gapWorld, PgStorage.setBlockWithStatus2, HashMap.lookup_insertIfNew, Db.empty]
  by_cases h5 : slot = 5
  · subst h5
    rfl
  · by_cases h7 : slot = 7
    · subst h7
      rfl
    · simp [h5, h7, Ne.symm h5, Ne.symm h7]

theorem parentsBelow_gapWorld : ParentsBelow gapWorld.1.db fullChain := by
  intro slot block hslot hblock
  have heq : block = linkedBlock slot := by
    rw [gapWorld_lookup, fullChain] at hblock
    rcases hblock with hblock | hblock
    · split at hblock
      · exact (Option.some.inj hblock).symm
      · cases hblock
    · split at hblock
      · exact (Option.some.inj hblock).symm
      · cases hblock
  rw [heq]
  exact Nat.sub_lt hslot Nat.zero_lt_one

theorem fullChainLoader_ends :
    fullChainLoader.startChecking standIns 1 5 (some 7) queueEvent gapWorld = .ok () gapWorld := by
  rfl

/-- The recovery ends well, and slot 6 is still missing. -/
theorem missing_slot_stays :
    fullChainLoader.startChecking standIns 1 5 (some 7) queueEvent gapWorld = .ok () gapWorld ∧
      ¬ Repaired fullChain (Visited gapWorld.1.db fullChain 5 7) (fun s : Channel => s.1.db)
        Prod.snd gapWorld gapWorld := by
  refine ⟨fullChainLoader_ends, fun hrepaired => ?_⟩
  have hhanded : handed gapWorld.1.db fullChain 7 = some (linkedBlock 7) := rfl
  have hvisited : Visited gapWorld.1.db fullChain 5 7 6 :=
    .parent (.first (by decide)) hhanded (by decide)
  obtain ⟨c, _, block, hblock, _⟩ := hrepaired.stored 6 hvisited
  cases hblock

theorem start_checking_repairs_gap :
    Repaired fullChain (Visited gapWorld.1.db fullChain 5 7) (fun s : Channel => s.1.db) Prod.snd
        gapWorld gapWorld ↔
      ∀ slot, Visited gapWorld.1.db fullChain 5 7 slot →
        slot ∈ gapWorld.1.db.solBlock ∧ (fullChain slot).isSome :=
  start_checking_repairs_iff (u := gapWorld) stores_pg showsChain_fullChainLoader sends_queueEvent
    parentsBelow_gapWorld rfl (by decide) (by decide) fullChainLoader_ends

end SolanaBlockLoader

end RomeSdk
