import RomeSdk.Indexer.InMemory
import RomeSdk.Proofs.StandIns

/-!
# Which slots a run has handled

The indexer parses slot after slot and stands at the first slot that is still
to come. A reorg event moves it, back to slots it will parse again or ahead of
slots it has not reached. In the second case the slots in between are never
parsed, and no error says so.

A slot is handled when it was parsed, and its result registered, after the last
cleaning that touched it, and fresh when it was not parsed since. What lies at
or above the indexer is always fresh; so a move ahead leaves fresh slots below,
and what is proved is that this is the only way to miss one.
-/

open Std.Do

set_option mvcgen.warning false

namespace RomeSdk

variable {σ : Type}

/-! ## Handled and fresh slots -/

/-- The slot was parsed, and its result registered, and nothing from it on was
cleaned since. -/
def Handled (slot : Slot) (calls : List Call) : Prop :=
  ∃ before r after, calls = before ++ .parsed slot r :: after ∧
    (∀ c, .cleaned c ∈ after → slot < c) ∧
    ∀ parseResult, r = some parseResult →
      ∃ results : BTreeMap Slot BlockParseResult,
        .registered results ∈ after ∧ results[slot]? = some parseResult

/-- The slot was not parsed since it was last cleaned. -/
def Fresh (slot : Slot) (calls : List Call) : Prop :=
  ∀ before r after, calls = before ++ .parsed slot r :: after →
    ∃ c, .cleaned c ∈ after ∧ c ≤ slot

theorem Handled.not_fresh {slot : Slot} {calls : List Call} (h : Handled slot calls) :
    ¬ Fresh slot calls := by
  obtain ⟨before, r, after, hcalls, hclean, _⟩ := h
  intro hfresh
  obtain ⟨c, hc, hle⟩ := hfresh before r after hcalls
  exact absurd hle (Nat.not_le.mpr (hclean c hc))

theorem Handled.append {slot : Slot} {calls extra : List Call} (h : Handled slot calls)
    (hextra : ∀ c, .cleaned c ∈ extra → slot < c) : Handled slot (calls ++ extra) := by
  obtain ⟨before, r, after, rfl, hclean, hreg⟩ := h
  refine ⟨before, r, after ++ extra, by simp, ?_, ?_⟩
  · intro c hc
    rcases List.mem_append.mp hc with hc | hc
    · exact hclean c hc
    · exact hextra c hc
  · intro parseResult hr
    obtain ⟨results, hmem, hres⟩ := hreg parseResult hr
    exact ⟨results, List.mem_append_left _ hmem, hres⟩

theorem Handled.prepend {slot : Slot} {calls extra : List Call} (h : Handled slot extra) :
    Handled slot (calls ++ extra) := by
  obtain ⟨before, r, after, rfl, hclean, hreg⟩ := h
  exact ⟨calls ++ before, r, after, by simp, hclean, hreg⟩

theorem fresh_nil (slot : Slot) : Fresh slot [] := by
  intro before r after h
  simp at h

theorem Fresh.append {slot : Slot} {calls extra : List Call} (h : Fresh slot calls)
    (hextra : ∀ r, .parsed slot r ∉ extra) : Fresh slot (calls ++ extra) := by
  intro before r after heq
  rcases List.append_eq_append_iff.mp heq with ⟨mid, rfl, hmid⟩ | ⟨mid, hcalls, hmid⟩
  · exact absurd (by rw [hmid]; simp) (hextra r)
  · cases mid with
    | nil =>
        have : Call.parsed slot r ∈ extra := by
          rw [← (List.nil_append extra), ← hmid]
          exact List.mem_cons_self ..
        exact absurd this (hextra r)
    | cons c mid =>
        injection hmid with hc hafter
        subst hc
        obtain ⟨c, hc, hle⟩ := h before r mid hcalls
        exact ⟨c, by rw [hafter]; exact List.mem_append_left _ hc, hle⟩

theorem fresh_cleaned {slot c : Slot} (calls : List Call) (hc : c ≤ slot) :
    Fresh slot (calls ++ [.cleaned c]) := by
  intro before r after heq
  have hlast : (Call.parsed slot r :: after).getLast? = some (.cleaned c) := by
    have hsame := congrArg List.getLast? heq
    rw [List.getLast?_append, List.getLast?_append] at hsame
    simpa using hsame.symm
  refine ⟨c, ?_, hc⟩
  have hmem := List.mem_of_getLast? hlast
  simpa using hmem

/-! ## What a walk over the slots records -/

/-- The calls of a walk over the slots from `fromSlot` to `toSlot`. -/
structure Walked (fromSlot toSlot : Slot) (calls : List Call) : Prop where
  notCleaned : ∀ c, .cleaned c ∉ calls
  within : ∀ slot r, .parsed slot r ∈ calls → fromSlot ≤ slot ∧ slot < toSlot
  handled : ∀ slot, fromSlot ≤ slot → slot < toSlot → Handled slot calls

theorem Walked.nil (slot : Slot) : Walked slot slot [] := by
  refine ⟨by simp, by simp, ?_⟩
  intro s hfrom hto
  exact absurd hto (Nat.not_lt.mpr hfrom)

theorem Walked.append {a b c : Slot} {calls calls' : List Call} (hab : a ≤ b) (hbc : b ≤ c)
    (h : Walked a b calls) (h' : Walked b c calls') : Walked a c (calls ++ calls') := by
  refine ⟨?_, ?_, ?_⟩
  · intro d hd
    rcases List.mem_append.mp hd with hd | hd
    · exact h.notCleaned d hd
    · exact h'.notCleaned d hd
  · intro slot r hmem
    rcases List.mem_append.mp hmem with hmem | hmem
    · obtain ⟨hlo, hhi⟩ := h.within slot r hmem
      exact ⟨hlo, Nat.lt_of_lt_of_le hhi hbc⟩
    · obtain ⟨hlo, hhi⟩ := h'.within slot r hmem
      exact ⟨Nat.le_trans hab hlo, hhi⟩
  · intro slot hlo hhi
    rcases Nat.lt_or_ge slot b with hlt | hge
    · exact (h.handled slot hlo hlt).append fun d hd => absurd hd (h'.notCleaned d)
    · exact (h'.handled slot hge hhi).prepend

/-- The calls that parse the slots of a list, and the results they give. -/
structure Parsed (slots : List Slot) (given results : BTreeMap Slot BlockParseResult)
    (calls : List Call) : Prop where
  notCleaned : ∀ c, .cleaned c ∉ calls
  within : ∀ slot r, .parsed slot r ∈ calls → slot ∈ slots
  parsed : ∀ slot ∈ slots, ∃ r, .parsed slot r ∈ calls ∧
    ∀ parseResult, r = some parseResult → results[slot]? = some parseResult
  others : ∀ slot, slot ∉ slots → results[slot]? = given[slot]?

theorem Parsed.nil (given : BTreeMap Slot BlockParseResult) : Parsed [] given given [] :=
  ⟨by simp, by simp, by simp, fun _ _ => rfl⟩

theorem Parsed.cons {slot : Slot} {slots : List Slot} {given results : BTreeMap Slot BlockParseResult}
    {r : Option BlockParseResult} {calls : List Call} (hslot : slot ∉ slots)
    (h : Parsed slots (match r with | some v => given.insert slot v | none => given) results calls) :
    Parsed (slot :: slots) given results (.parsed slot r :: calls) := by
  refine ⟨?_, ?_, ?_, ?_⟩
  · intro c hc
    rcases List.mem_cons.mp hc with hc | hc
    · cases hc
    · exact h.notCleaned c hc
  · intro s r' hmem
    rcases List.mem_cons.mp hmem with heq | hmem
    · cases heq
      exact List.mem_cons_self ..
    · exact List.mem_cons_of_mem _ (h.within s r' hmem)
  · intro s hs
    rcases List.mem_cons.mp hs with rfl | hs
    · refine ⟨r, List.mem_cons_self .., ?_⟩
      intro parseResult hr
      subst hr
      rw [h.others s hslot, BTreeMap.get?_insert, if_pos rfl]
    · obtain ⟨r', hmem, hres⟩ := h.parsed s hs
      exact ⟨r', List.mem_cons_of_mem _ hmem, hres⟩
  · intro s hs
    rw [List.mem_cons, not_or] at hs
    obtain ⟨hne, hs⟩ := hs
    rw [h.others s hs]
    cases r with
    | none => rfl
    | some v => rw [BTreeMap.get?_insert, if_neg (Ne.symm hne)]

theorem mem_slots {fromSlot toSlot slot : Nat} :
    slot ∈ List.range' fromSlot (toSlot - fromSlot) ↔ fromSlot ≤ slot ∧ slot < toSlot := by
  rw [List.mem_range'_1]
  omega

/-- Parsed slots whose results are registered are handled. -/
theorem Parsed.walked {fromSlot toSlot : Slot} {results : BTreeMap Slot BlockParseResult}
    {calls : List Call}
    (h : Parsed (List.range' fromSlot (toSlot - fromSlot)) ∅ results calls) :
    Walked fromSlot toSlot (calls ++ [.registered results]) := by
  refine ⟨?_, ?_, ?_⟩
  · intro c hc
    simp only [List.mem_append, List.mem_singleton, reduceCtorEq, or_false] at hc
    exact h.notCleaned c hc
  · intro slot r hmem
    simp only [List.mem_append, List.mem_singleton, reduceCtorEq, or_false] at hmem
    exact mem_slots.mp (h.within slot r hmem)
  · intro slot hlo hhi
    obtain ⟨r, hmem, hres⟩ := h.parsed slot (mem_slots.mpr ⟨hlo, hhi⟩)
    obtain ⟨before, after, rfl⟩ := List.append_of_mem hmem
    refine ⟨before, r, after ++ [.registered results], by simp, ?_, ?_⟩
    · intro c hc
      simp only [List.mem_append, List.mem_singleton, reduceCtorEq, or_false] at hc
      exact absurd (List.mem_append_right _ (List.mem_cons_of_mem _ hc)) (h.notCleaned c)
    · intro parseResult hr
      exact ⟨results, by simp, hres parseResult hr⟩

/-! ## What the calls of one round record -/

/-- More was recorded, and no cleaning among it. -/
def Extends (log calls : List Call) : Prop :=
  ∃ extra, calls = log ++ extra ∧ ∀ c, .cleaned c ∉ extra

theorem Extends.refl (log : List Call) : Extends log log := ⟨[], by simp, by simp⟩

theorem Extends.trans {log calls calls' : List Call} (h : Extends log calls)
    (h' : Extends calls calls') : Extends log calls' := by
  obtain ⟨extra, rfl, hextra⟩ := h
  obtain ⟨extra', rfl, hextra'⟩ := h'
  refine ⟨extra ++ extra', by simp, ?_⟩
  intro c hc
  rcases List.mem_append.mp hc with hc | hc
  · exact hextra c hc
  · exact hextra' c hc

/-- The walk to `toSlot` is recorded after `log`. -/
def WalkedAfter (fromSlot toSlot : Slot) (log calls : List Call) : Prop :=
  ∃ extra, calls = log ++ extra ∧ Walked fromSlot toSlot extra

theorem WalkedAfter.extends {fromSlot toSlot : Slot} {log calls : List Call}
    (h : WalkedAfter fromSlot toSlot log calls) : Extends log calls := by
  obtain ⟨extra, rfl, hwalked⟩ := h
  exact ⟨extra, rfl, hwalked.notCleaned⟩

/-- The call leaves the record alone. -/
abbrev Quiet {α : Type} (x : Eff (σ × List Call) α) : Prop := EStateM.Preserves Prod.snd x

namespace RollupIndexer

variable {I : RollupIndexer σ}

theorem parse_spec (slot : Slot) (maxBlocks : Nat) (log : List Call) :
    ⦃fun st => ⌜st.2 = log⌝⦄ I.recording.parse slot maxBlocks
    ⦃post⟨fun r st => ⌜st.2 = log ++ [.parsed slot r]⌝, fun _ st => ⌜st.2 = log⌝⟩⦄ :=
  EStateM.recorded_spec _ _ log

theorem registerParseResults_spec (results : BTreeMap Slot BlockParseResult) (log : List Call) :
    ⦃fun st => ⌜st.2 = log⌝⦄ I.recording.ethereumBlockStorage.registerParseResults results
    ⦃post⟨fun _ st => ⌜st.2 = log ++ [.registered results]⌝, fun _ st => ⌜st.2 = log⌝⟩⦄ :=
  EStateM.recorded_spec _ _ log

theorem cleanFromSlot_spec (slot : Slot) (log : List Call) :
    ⦃fun st => ⌜st.2 = log⌝⦄ I.recording.ethereumBlockStorage.cleanFromSlot slot
    ⦃post⟨fun _ st => ⌜st.2 = log ++ [.cleaned slot]⌝, fun _ st => ⌜st.2 = log⌝⟩⦄ :=
  EStateM.recorded_spec _ _ log

theorem parseSlots_spec (slots : List Slot) : slots.Nodup →
    ∀ (given : BTreeMap Slot BlockParseResult) (log : List Call),
    ⦃fun st => ⌜st.2 = log⌝⦄ I.recording.parseSlots slots given
    ⦃post⟨fun results st => ⌜∃ calls, st.2 = log ++ calls ∧ Parsed slots given results calls⌝,
      fun _ st => ⌜Extends log st.2⌝⟩⦄ := by
  induction slots with
  | nil =>
      intro _ given log
      rw [parseSlots]
      mvcgen
      next hlog => exact ⟨[], by simpa using hlog, .nil given⟩
  | cons slot slots ih =>
      intro hnodup given log
      rw [List.nodup_cons] at hnodup
      have ih := ih hnodup.2
      have hone : ∀ {st t : σ × List Call} {r}, st.2 = log →
          t.2 = st.2 ++ [Call.parsed slot r] → t.2 = log ++ [.parsed slot r] := by
        intro st t r hst ht
        rw [ht, hst]
      have hfail : ∀ {st t : σ × List Call} {r}, t.2 = log ++ [Call.parsed slot r] →
          Extends t.2 st.2 → Extends log st.2 := by
        intro st t r ht hst
        exact Extends.trans ⟨_, ht, by simp⟩ hst
      rw [parseSlots]
      mvcgen [parse_spec, ih]
      · next st hst r p hr t ht results u =>
        rintro ⟨calls, hu, hcalls⟩
        refine ⟨.parsed slot (some p) :: calls, ?_, .cons hnodup.1 hcalls⟩
        rw [hu, hone hst ht, List.append_assoc, List.singleton_append]
      · next st hst r p hr t ht e u => exact hfail (hone hst ht)
      · next st hst r hr t ht results u =>
        rintro ⟨calls, hu, hcalls⟩
        refine ⟨.parsed slot none :: calls, ?_, .cons hnodup.1 hcalls⟩
        rw [hu, hone hst ht, List.append_assoc, List.singleton_append]
      · next st hst r hr t ht e u => exact hfail (hone hst ht)
      · next st hst e t =>
        intro ht
        rw [ht, hst]
        exact Extends.refl log

/-! ### The calls that record nothing -/

theorem quiet_restoreBlocks {P : BlockProducer σ} (hP : I.blockProducer = some P)
    (fromBlock toBlock : Nat) (params : ProducerParams) (retries : Nat) :
    Quiet (I.recording.restoreBlocks fromBlock toBlock params retries) := by
  have hsome : I.recording.blockProducer = some (recordingProducer P) := by
    simp only [recording, hP, Option.map_some]
  refine .bind (preserves_getBlocksParams hsome (fun _ => EStateM.preserves_unrecorded _) _ _ _)
    fun blocksParams => ?_
  exact .bind (preserves_ofResult _) fun _ => EStateM.preserves_unrecorded _

theorem quiet_produceLoop (P : BlockProducer σ) (batchSize : Nat) :
    ∀ rounds params, Quiet (I.recording.produceLoop (recordingProducer P) batchSize rounds params) := by
  intro rounds
  induction rounds with
  | zero => intro params; exact .throw _
  | succ rounds ih =>
      intro params
      refine .bind (EStateM.preserves_unrecorded _) fun result => ?_
      split
      · exact .pure _
      · exact .bind (EStateM.preserves_unrecorded _) fun _ => ih _

theorem quiet_restoreOrProduceBlocks (batchSize : Nat) :
    Quiet (I.recording.restoreOrProduceBlocks batchSize) := by
  cases hP : I.blockProducer with
  | none =>
      simp only [restoreOrProduceBlocks, recording, hP]
      exact .pure _
  | some P =>
      have hsome : I.recording.blockProducer = some (recordingProducer P) := by
        simp only [recording, hP, Option.map_some]
      simp only [restoreOrProduceBlocks, hsome]
      refine .bind (EStateM.preserves_unrecorded _) fun params => ?_
      split
      · exact .pure _
      · refine .bind (EStateM.preserves_unrecorded _) fun latest => ?_
        refine .bind (EStateM.preserves_unrecorded _) fun last => ?_
        split
        · exact quiet_restoreBlocks hP _ _ _ _
        · exact quiet_produceLoop P _ _ _

theorem quiet_retainStorages (slot : Slot) : Quiet (I.recording.retainStorages slot) := by
  rw [retainStorages]
  split
  · exact .pure _
  · show Quiet (if _ < slot then _ else _)
    split
    · refine .bind (preserves_attempt (EStateM.preserves_unrecorded _)) fun r => ?_
      split
      · exact .pure _
      · refine .bind (EStateM.preserves_unrecorded _) fun _ => ?_
        refine .bind (preserves_attempt (EStateM.preserves_unrecorded _)) fun r => ?_
        split
        · exact .pure _
        · exact .pure _
    · exact .pure _

/-! ### The walk -/

theorem parseBlocksBatch_spec (fromSlot maxSlot batchSize : Slot) (log : List Call) :
    ⦃fun st => ⌜st.2 = log⌝⦄ I.recording.parseBlocksBatch fromSlot maxSlot batchSize
    ⦃post⟨fun r st => ⌜r.1 = fromSlot + min (maxSlot - fromSlot) batchSize ∧
        ∃ calls, st.2 = log ++ calls ∧
          Parsed (List.range' fromSlot (r.1 - fromSlot)) ∅ r.2 calls⌝,
      fun _ st => ⌜Extends log st.2⌝⟩⦄ := by
  have hparse := parseSlots_spec (I := I) (List.range' fromSlot
    (fromSlot + min (maxSlot - fromSlot) batchSize - fromSlot)) List.nodup_range' ∅ log
  rw [parseBlocksBatch]
  mvcgen [hparse]

theorem restoreOrProduceBlocks_spec (batchSize : Nat) (log : List Call) :
    ⦃fun st => ⌜st.2 = log⌝⦄ I.recording.restoreOrProduceBlocks batchSize
    ⦃post⟨fun _ st => ⌜st.2 = log⌝, fun _ st => ⌜st.2 = log⌝⟩⦄ :=
  (quiet_restoreOrProduceBlocks batchSize).spec log

theorem retainStorages_spec (slot : Slot) (log : List Call) :
    ⦃fun st => ⌜st.2 = log⌝⦄ I.recording.retainStorages slot
    ⦃post⟨fun _ st => ⌜st.2 = log⌝, fun _ st => ⌜st.2 = log⌝⟩⦄ :=
  (quiet_retainStorages slot).spec log

theorem newSlot_bounds {currentSlot toSlot : Nat} (batchSize : Nat) (hlt : currentSlot < toSlot) :
    currentSlot ≤ currentSlot + min (toSlot - currentSlot) batchSize ∧
      currentSlot + min (toSlot - currentSlot) batchSize ≤ toSlot := by
  omega

/-- A parsed batch is walked once its results are registered. -/
theorem Parsed.walkedAfter {fromSlot toSlot : Slot} {results : BTreeMap Slot BlockParseResult}
    {log calls calls' : List Call}
    (h : ∃ extra, calls = log ++ extra ∧
      Parsed (List.range' fromSlot (toSlot - fromSlot)) ∅ results extra)
    (hcalls : calls' = calls ++ [.registered results]) :
    WalkedAfter fromSlot toSlot log calls' := by
  obtain ⟨extra, rfl, hparsed⟩ := h
  exact ⟨extra ++ [.registered results], by rw [hcalls, List.append_assoc], hparsed.walked⟩

theorem syncRound_spec (toSlot batchSize currentSlot : Slot) (hlt : currentSlot < toSlot)
    (log : List Call) :
    ⦃fun st => ⌜st.2 = log⌝⦄ I.recording.syncRound toSlot batchSize currentSlot
    ⦃post⟨fun slot st => ⌜currentSlot ≤ slot ∧ slot ≤ toSlot ∧
        WalkedAfter currentSlot slot log st.2⌝,
      fun _ st => ⌜Extends log st.2⌝⟩⦄ := by
  rw [syncRound]
  mvcgen [parseBlocksBatch_spec, registerParseResults_spec, restoreOrProduceBlocks_spec,
    retainStorages_spec]
  · next s hs r t ht _ u hu _ v hv _ w hw =>
    rw [hs] at ht
    obtain ⟨hlo, hhi⟩ := newSlot_bounds batchSize hlt
    rw [← ht.1] at hlo hhi
    exact ⟨hlo, hhi, Parsed.walkedAfter ht.2 (by rw [hw, hv, hu])⟩
  · next s hs r t ht _ u hu _ v hv _ w =>
    intro hw
    rw [hs] at ht
    exact (Parsed.walkedAfter ht.2 (by rw [hw, hv, hu])).extends
  · next s hs r t ht _ u hu _ v =>
    intro hv
    rw [hs] at ht
    exact (Parsed.walkedAfter ht.2 (by rw [hv, hu])).extends
  · next s hs r t ht _ u =>
    intro hu
    obtain ⟨_, extra, hextra, hparsed⟩ := ht
    exact ⟨extra, by rw [hu, hextra, hs], hparsed.notCleaned⟩
  · next s hs _ t =>
    intro ht
    rwa [hs] at ht

theorem walkedAfter_done {currentSlot toSlot : Slot} {log calls : List Call}
    (hge : ¬ currentSlot < toSlot) (h : calls = log ∧ currentSlot ≤ toSlot) :
    WalkedAfter currentSlot toSlot log calls := by
  obtain rfl := Nat.le_antisymm h.2 (Nat.not_lt.mp hge)
  exact ⟨[], by rw [h.1, List.append_nil], .nil _⟩

theorem walkedAfter_here {slot : Slot} {log calls : List Call} (h : calls = log) :
    WalkedAfter slot slot log calls := walkedAfter_done (Nat.lt_irrefl _) ⟨h, Nat.le_refl _⟩

/-- The walk up to a slot parses and registers what lies before it. -/
theorem syncLoop_spec (toSlot batchSize : Slot) (rounds : Nat) :
    ∀ (currentSlot : Slot) (log : List Call),
    ⦃fun st => ⌜st.2 = log ∧ currentSlot ≤ toSlot⌝⦄
    I.recording.syncLoop toSlot batchSize rounds currentSlot
    ⦃post⟨fun _ st => ⌜WalkedAfter currentSlot toSlot log st.2⌝,
      fun _ st => ⌜Extends log st.2⌝⟩⦄ := by
  induction rounds with
  | zero =>
      intro currentSlot log
      unfold syncLoop
      mvcgen
      · next hst =>
        rw [hst.1]
        exact Extends.refl log
      · next hge _ hst => exact walkedAfter_done hge hst
  | succ rounds ih =>
      intro currentSlot log
      unfold syncLoop
      mvcgen [syncRound_spec, ih]
      · next hround => exact ⟨trivial, hround.2.1⟩
      · next s hs slot t ht _ u =>
        rintro ⟨extra', hu, hwalked'⟩
        obtain ⟨hlo, hhi, extra, ht, hwalked⟩ := ht
        refine ⟨extra ++ extra', ?_, hwalked.append hlo hhi hwalked'⟩
        rw [hu, ht, hs.1, List.append_assoc]
      · next s hs slot t ht _ u =>
        intro hu
        rw [← hs.1]
        exact ht.2.2.extends.trans hu
      · next s hs _ t =>
        intro ht
        rwa [hs.1] at ht
      · next hge _ hst => exact walkedAfter_done hge hst

theorem getLastSlot_spec (log : List Call) :
    ⦃fun st => ⌜st.2 = log⌝⦄ I.recording.solanaBlockStorage.getLastSlot.attempt
    ⦃post⟨fun _ st => ⌜st.2 = log⌝, fun _ st => ⌜st.2 = log⌝⟩⦄ :=
  (preserves_attempt (EStateM.preserves_unrecorded I.solanaBlockStorage.getLastSlot)).spec log

theorem restoreOrProduceUntilInSync_spec (fromSlot batchSize : Slot) (log : List Call) :
    ⦃fun st => ⌜st.2 = log⌝⦄ I.recording.restoreOrProduceUntilInSync fromSlot batchSize
    ⦃post⟨fun slot st => ⌜fromSlot ≤ slot ∧ WalkedAfter fromSlot slot log st.2⌝,
      fun _ st => ⌜Extends log st.2⌝⟩⦄ := by
  rw [restoreOrProduceUntilInSync]
  mvcgen [getLastSlot_spec, syncLoop_spec]
  · next hlt _ _ => exact ⟨trivial, Nat.le_of_lt hlt⟩
  · next s hs _ toSlot _ hlt t ht _ u hu =>
    rw [ht, hs] at hu
    exact ⟨Nat.le_of_lt hlt, hu⟩
  · next s hs _ toSlot _ hlt t ht _ u =>
    intro hu
    rwa [ht, hs] at hu
  · next s hs _ _ _ _ t ht => exact ⟨Nat.le_refl _, walkedAfter_here (by rw [ht, hs])⟩
  · next s hs _ _ t ht => exact ⟨Nat.le_refl _, walkedAfter_here (by rw [ht, hs])⟩
  · next s hs _ _ _ t ht => exact ⟨Nat.le_refl _, walkedAfter_here (by rw [ht, hs])⟩
  · next s hs _ t =>
    intro ht
    rw [ht, hs]
    exact Extends.refl log

/-- `clean_from_slot` answers without an error. -/
def CleanSucceeds (I : RollupIndexer σ) (world : σ) (slot : Slot) : Prop :=
  ∃ world', I.ethereumBlockStorage.cleanFromSlot slot world = .ok () world'

/-- What a round can do: take a reorg event, walk on, or leave the loop. -/
theorem afterRound_cases (I : RollupIndexer σ) (s : RunState σ) :
    (∃ r, s.reorgEvents.head? = some r ∧ CleanSucceeds I s.world r ∧
      (I.afterRound s).calls = s.calls ++ [.cleaned r] ∧ (I.afterRound s).fromSlot = r ∧
      (I.afterRound s).running = s.running) ∨
    (s.reorgEvents.head? = none ∧ s.fromSlot ≤ (I.afterRound s).fromSlot ∧
      WalkedAfter s.fromSlot (I.afterRound s).fromSlot s.calls (I.afterRound s).calls ∧
      (I.afterRound s).running = s.running) ∨
    ((∀ r, s.reorgEvents.head? = some r → ¬ CleanSucceeds I s.world r) ∧
      (I.afterRound s).fromSlot = s.fromSlot ∧ Extends s.calls (I.afterRound s).calls ∧
      (I.afterRound s).running = false) := by
  cases hqueue : s.reorgEvents with
  | cons r rest =>
      cases hclean : I.ethereumBlockStorage.cleanFromSlot r s.world with
      | ok u world =>
          have hround : I.recording.runRound s.fromSlot defaultBatchSize s.tryRecv
              (s.world, s.calls) = .ok (some r) (world, s.calls ++ [.cleaned r]) := by
            simp only [RunState.tryRecv, hqueue, runRound, recording, recordingEth, bind,
              EStateM.bind, EStateM.recorded, hclean]
            rfl
          rw [afterRound_goesOn hround]
          exact Or.inl ⟨r, rfl, ⟨world, hclean⟩, rfl, rfl, rfl⟩
      | error e world =>
          have hround : I.recording.runRound s.fromSlot defaultBatchSize s.tryRecv
              (s.world, s.calls) = .error e (world, s.calls) := by
            simp only [RunState.tryRecv, hqueue, runRound, recording, recordingEth, bind,
              EStateM.bind, EStateM.recorded, hclean]
          rw [afterRound_failed hround]
          refine Or.inr (Or.inr ⟨?_, rfl, Extends.refl s.calls, rfl⟩)
          intro r' hr' hcleans
          obtain ⟨world', hok⟩ := hcleans
          cases hr'
          rw [hclean] at hok
          cases hok
  | nil =>
      have hnone : ∀ r, ([] : List Slot).head? = some r → ¬ CleanSucceeds I s.world r := by
        intro r hr
        cases hr
      cases halive : s.senderAlive with
      | false =>
          have hrecv : s.tryRecv = .error .disconnected := by simp [RunState.tryRecv, hqueue, halive]
          have hround : I.recording.runRound s.fromSlot defaultBatchSize s.tryRecv
              (s.world, s.calls) = .ok none (s.world, s.calls) := by
            rw [hrecv]
            rfl
          rw [afterRound_ended hround]
          exact Or.inr (Or.inr ⟨hnone, rfl, Extends.refl s.calls, rfl⟩)
      | true =>
          have hrecv : s.tryRecv = .error .empty := by simp [RunState.tryRecv, hqueue, halive]
          have hsync := EStateM.triple_elim
            (restoreOrProduceUntilInSync_spec (I := I) s.fromSlot defaultBatchSize s.calls)
            (s := (s.world, s.calls)) rfl
          cases hrun : I.recording.restoreOrProduceUntilInSync s.fromSlot defaultBatchSize
            (s.world, s.calls) with
          | ok slot st =>
              rw [hrun] at hsync
              have hround : I.recording.runRound s.fromSlot defaultBatchSize s.tryRecv
                  (s.world, s.calls) = .ok (some slot) st := by
                rw [hrecv, runRound, EStateM.bind_of_ok hrun]
                rfl
              rw [afterRound_goesOn hround]
              exact Or.inr (Or.inl ⟨rfl, hsync.1, hsync.2, rfl⟩)
          | error e st =>
              rw [hrun] at hsync
              have hround : I.recording.runRound s.fromSlot defaultBatchSize s.tryRecv
                  (s.world, s.calls) = .error e st := by
                rw [hrecv, runRound, EStateM.bind_of_error hrun]
              rw [afterRound_failed hround]
              exact Or.inr (Or.inr ⟨hnone, rfl, hsync, rfl⟩)

/-! ## The runs -/

/-- Every slot from the first one to where the indexer stands is handled. -/
def NoSlotSkipped (startSlot : Slot) (s : RunState σ) : Prop :=
  ∀ slot, startSlot ≤ slot → slot < s.fromSlot → Handled slot s.calls

/-- A reorg event is taken only where the indexer, or its first slot, is at or
above the slot of the event. -/
def ReorgBehind (I : RollupIndexer σ) (startSlot : Slot) (s : RunState σ) : Action σ → Prop
  | .round => ∀ r, s.reorgEvents.head? = some r → CleanSucceeds I s.world r →
      r ≤ startSlot ∨ r ≤ s.fromSlot
  | _ => True

/-- What an indexer has yet to come to, it has not parsed. -/
def AheadFresh (s : RunState σ) : Prop :=
  s.running = true → ∀ slot, s.fromSlot ≤ slot → Fresh slot s.calls

theorem aheadFresh_step {s t : RunState σ} {a : Action σ} (hs : AheadFresh s)
    (hst : I.step s a t) : AheadFresh t := by
  cases a with
  | load world =>
      obtain ⟨_, rfl⟩ := hst
      exact hs
  | reorg slot =>
      obtain ⟨_, _, rfl⟩ := hst
      exact hs
  | hangUp =>
      cases hst
      exact hs
  | round =>
      obtain ⟨hrunning, rfl⟩ := hst
      have hs := hs hrunning
      intro hgo slot hslot
      rcases afterRound_cases I s with ⟨r, _, _, hcalls, hfrom, _⟩ |
        ⟨_, hle, ⟨extra, hcalls, hwalked⟩, _⟩ | ⟨_, _, _, hstop⟩
      · rw [hfrom] at hslot
        rw [hcalls]
        exact fresh_cleaned s.calls hslot
      · rw [hcalls]
        refine (hs slot (Nat.le_trans hle hslot)).append fun r hr => ?_
        exact absurd hslot (Nat.not_le.mpr (hwalked.within slot r hr).2)
      · rw [hstop] at hgo
        cases hgo

theorem noSlotSkipped_step {startSlot : Slot} {s t : RunState σ} {a : Action σ}
    (hahead : AheadFresh s) (hs : NoSlotSkipped startSlot s) (hst : I.step s a t) :
    NoSlotSkipped startSlot t ↔ ReorgBehind I startSlot s a := by
  cases a with
  | load world =>
      obtain ⟨_, rfl⟩ := hst
      exact iff_of_true hs trivial
  | reorg slot =>
      obtain ⟨_, _, rfl⟩ := hst
      exact iff_of_true hs trivial
  | hangUp =>
      cases hst
      exact iff_of_true hs trivial
  | round =>
      obtain ⟨hrunning, rfl⟩ := hst
      rcases afterRound_cases I s with ⟨r, hhead, hclean, hcalls, hfrom, _⟩ |
        ⟨hhead, hle, ⟨extra, hcalls, hwalked⟩, _⟩ | ⟨hfail, hfrom, ⟨extra, hcalls, hextra⟩, _⟩
      · constructor
        · intro ht r' hr' _
          rw [hhead] at hr'
          cases hr'
          by_contra hahead'
          -- The first slot jumped over, or the first slot of all if that comes later.
          have hfresh := hahead hrunning (max startSlot s.fromSlot) (Nat.le_max_right ..)
          rw [not_or, Nat.not_le, Nat.not_le] at hahead'
          have hbelow : max startSlot s.fromSlot < (I.afterRound s).fromSlot := by
            rw [hfrom]
            exact Nat.max_lt.mpr hahead'
          have hhandled := ht (max startSlot s.fromSlot) (Nat.le_max_left ..) hbelow
          rw [hcalls] at hhandled
          exact hhandled.not_fresh (hfresh.append (by simp))
        · intro hbehind slot hstart hslot
          rw [hfrom] at hslot
          rw [hcalls]
          refine (hs slot hstart ?_).append ?_
          · rcases hbehind r hhead hclean with hr | hr
            · exact absurd hslot (Nat.not_lt.mpr (Nat.le_trans hr hstart))
            · exact Nat.lt_of_lt_of_le hslot hr
          · intro c hc
            simp only [List.mem_singleton, Call.cleaned.injEq] at hc
            rw [hc]
            exact hslot
      · refine iff_of_true ?_ fun r hr => ?_
        · intro slot hstart hslot
          rw [hcalls]
          rcases Nat.lt_or_ge slot s.fromSlot with hlt | hge
          · exact (hs slot hstart hlt).append fun c hc => absurd hc (hwalked.notCleaned c)
          · exact (hwalked.handled slot hge hslot).prepend
        · rw [hhead] at hr
          cases hr
      · refine iff_of_true ?_ fun r hr hclean => absurd hclean (hfail r hr)
        intro slot hstart hslot
        rw [hcalls]
        rw [hfrom] at hslot
        exact (hs slot hstart hslot).append fun c hc => absurd hc (hextra c)

/-- No slot is skipped throughout a run exactly when no reorg event is taken
that lies ahead of the indexer. -/
theorem no_slot_skipped_iff (I : RollupIndexer σ) (startSlot : Slot)
    {tr : List (RunState σ × Action σ)} {s : RunState σ}
    (hrun : Machine.Run (I.machine startSlot) tr s) :
    (∀ t ∈ Machine.visited tr s, NoSlotSkipped startSlot t) ↔
      Machine.Meets (ReorgBehind I startSlot) tr := by
  refine hrun.always_iff (I := AheadFresh) ?_ ?_ ?_ ?_
  · rintro s ⟨hcalls, _⟩ _ slot _
    rw [hcalls]
    exact fresh_nil slot
  · intro s a t hs hst
    exact aheadFresh_step hs hst
  · rintro s ⟨_, hfrom, _⟩ slot hstart hslot
    rw [hfrom] at hslot
    exact absurd hslot (Nat.not_lt.mpr hstart)
  · intro s a t hahead hs hst
    exact noSlotSkipped_step hahead hs hst

/-! An indexer over blocks in memory, at slot 0 while the blocks up to slot 5 are
stored. A reorg event for slot 5 moves it past the first five; the same event
for a slot it has come through only moves it back. -/

def emptyBlock (slot : Slot) : UiConfirmedBlock where
  previousBlockhash := "11111111111111111111111111111111"
  blockhash := "22222222222222222222222222222222"
  parentSlot := slot - 1
  transactions := none
  blockTime := some 0

def localIndexer : RollupIndexer InMemory.World :=
  InMemory.rollupIndexer standIns 7 1001 .engineApi none none

/-- The indexer at slot 0, before its first round. -/
def atStart (lastSlot : Slot) : RunState InMemory.World where
  world := {
    solBlock := Std.ExtTreeMap.ofList
      ((List.range (lastSlot + 1)).map fun slot => (slot, emptyBlock slot)) compare
    txParser := .new }
  calls := []
  fromSlot := 0
  reorgEvents := []
  senderAlive := true
  running := true

theorem run_atStart (lastSlot : Slot) :
    Machine.Run (localIndexer.machine 0) [] (atStart lastSlot) :=
  .start ⟨rfl, rfl, rfl, rfl, rfl⟩

theorem reorg_ahead_skips :
    ∃ tr s, Machine.Run (localIndexer.machine 0) tr s ∧ ¬ NoSlotSkipped 0 s := by
  have hstored : (5 : Slot) ∈ (atStart 5).world.solBlock := by decide
  have hsent := run_reorg (run_atStart 5) rfl hstored
  refine ⟨_, _, run_round hsent rfl, ?_⟩
  intro h
  have hfresh : Fresh 0 (localIndexer.afterRound { atStart 5 with reorgEvents := [5] }).calls := by
    have hcalls : (localIndexer.afterRound { atStart 5 with reorgEvents := [5] }).calls
        = [] ++ [.cleaned 5] := rfl
    rw [hcalls]
    exact (fresh_nil 0).append (by simp)
  exact (h 0 (Nat.le_refl _) (by decide)).not_fresh hfresh

/-- The indexer has walked to slot 2, and goes back to slot 1. -/
theorem no_slot_skipped_back :
    ∃ tr s, Machine.Run (localIndexer.machine 0) tr s ∧ s.fromSlot = 1 ∧
      ∀ t ∈ Machine.visited tr s, NoSlotSkipped 0 t := by
  have hwalked := run_round (run_atStart 2) rfl
  have hstored : (1 : Slot) ∈ (localIndexer.afterRound (atStart 2)).world.solBlock := by decide
  have hsent := run_reorg hwalked (by decide) hstored
  have hback := run_round hsent (by decide)
  refine ⟨_, _, hback, by decide, (no_slot_skipped_iff localIndexer 0 hback).mpr ?_⟩
  intro e he
  simp only [List.nil_append, List.cons_append, List.mem_cons, List.not_mem_nil, or_false] at he
  rcases he with rfl | rfl | rfl
  · intro r hr
    cases hr
  · trivial
  · intro r hr _
    have hqueue : r = 1 := by
      cases hr
      rfl
    have hfrom : (localIndexer.afterRound (atStart 2)).fromSlot = 2 := by decide
    exact Or.inr (by rw [hqueue, hfrom]; decide)

end RollupIndexer

end RomeSdk
