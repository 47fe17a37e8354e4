import RomeSdk.Proofs.Received
import RomeSdk.Proofs.SameAnswers

/-!
# Slots in any order

The indexer walks the slots forwards, and after a restart backwards from a slot that
is not complete. What a parser comes to hold does not depend on the walk: the results of
a slot are those of its steps, whenever and however often it is registered, and the record
of a hash is settled by the set of its steps. So two walks over the same slots end in
parsers that differ at most in the order of their hash maps.
-/

namespace RomeSdk

namespace DefaultTxParser

variable {p q : DefaultTxParser} {slot : Slot} {slotTxs : ParsedTxs}

/-! ## The results of a slot -/

/-- A registration that goes through leaves the results of the steps it was given. -/
theorem registerSlotTransactions_results
    (h : p.registerSlotTransactions slot slotTxs = (q, .ok ())) (hash : TxHash) (i : Nat) :
    q.resultAt slot hash i = (slotTxs.stepAt hash i).map ParsedTxStep.result := by
  rw [registerSlotTransactions_eq] at h
  obtain ⟨hkeep, hskip, hadd⟩ := registerEntry_resultAt_ok _ h hash i
  have hretained := retainSlot_resultAt p slot slotTxs hash i
  cases hstep : slotTxs.stepAt hash i with
  | none =>
      rw [hstep] at hretained
      refine hskip ?_ fun step hin => ?_
      · rw [hretained]
        simp
      · rw [ParsedTxs.mem_inOrder.mp hin] at hstep
        cases hstep
  | some step =>
      rw [hstep, Option.map_some] at hretained
      cases hold : p.resultAt slot hash i with
      | some r =>
          rw [hold] at hretained
          exact hkeep _ hretained
      | none =>
          rw [hold] at hretained
          exact hadd hretained slotTxs.inOrder_nodup step (ParsedTxs.mem_inOrder.mpr hstep)

theorem Tight.recordResult (h : Tight p) (slot : Slot) (hash : TxHash) (i : Nat)
    (r : Option TxResult) : Tight (p.recordResult slot hash i r) := by
  intro slot' slotTxs hslot
  rw [DefaultTxParser.recordResult, BTreeMap.get?_upsert] at hslot
  split at hslot
  · cases hslot
    refine ⟨⟨hash, _, by rw [HashMap.lookup_upsert, if_pos rfl]⟩, fun hash' results hlookup => ?_⟩
    rw [HashMap.lookup_upsert] at hlookup
    split at hlookup
    · cases hlookup
      exact ⟨i, _, (BTreeMap.get?_insertIfNew _ i i r).trans (if_pos rfl)⟩
    · cases hold : p.resultsBySlot[slot]? with
      | none =>
          rw [hold] at hlookup
          cases hlookup
      | some txs =>
          rw [hold] at hlookup
          exact (h slot txs hold).2 hash' results hlookup
  · exact h slot' slotTxs hslot

theorem Tight.of_results (h : Tight p) (hsame : q.resultsBySlot = p.resultsBySlot) : Tight q := by
  intro slot slotTxs hslot
  rw [hsame] at hslot
  exact h slot slotTxs hslot

/-- Retaining drops nothing if every result that is there is of a step that is given. -/
theorem Tight.retainSlot (h : Tight p)
    (hgiven : ∀ hash i r, p.resultAt slot hash i = some r →
      ∃ step, slotTxs.stepAt hash i = some step) : Tight (p.retainSlot slot slotTxs) := by
  intro slot' txs hslot
  by_cases hne : slot' = slot
  · subst hne
    have hkept : ∀ hash i r, p.resultAt slot' hash i = some r →
        ∃ r', (p.retainSlot slot' slotTxs).resultAt slot' hash i = some r' := by
      intro hash i r hr
      obtain ⟨step, hstep⟩ := hgiven hash i r hr
      refine ⟨step.result, ?_⟩
      rw [retainSlot_resultAt, hr, hstep]
      rfl
    cases hold : p.resultsBySlot[slot']? with
    | none =>
        rw [DefaultTxParser.retainSlot, Std.ExtTreeMap.getElem?_modify, hold] at hslot
        simp at hslot
    | some existing =>
        have htxs : txs = retainResults slotTxs existing := by
          rw [DefaultTxParser.retainSlot, Std.ExtTreeMap.getElem?_modify, hold] at hslot
          simpa using hslot.symm
        constructor
        · obtain ⟨hash, i, r, hr⟩ := h.exists_result hold
          obtain ⟨r', hr'⟩ := hkept hash i r hr
          obtain ⟨txs', results, hlisted, hlookup, _⟩ := resultAt_eq_some.mp hr'
          rw [hslot] at hlisted
          cases hlisted
          exact ⟨hash, results, hlookup⟩
        · intro hash results hlookup
          rw [htxs, retainResults, HashMap.lookup_filterMap, Option.bind_eq_some_iff] at hlookup
          obtain ⟨old, hlookup, hmap⟩ := hlookup
          obtain ⟨i, r, hr⟩ := (h slot' existing hold).2 hash old hlookup
          obtain ⟨r', hr'⟩ :=
            hkept hash i r (resultAt_eq_some.mpr ⟨existing, old, hold, hlookup, hr⟩)
          obtain ⟨txs', results', hlisted, hlookup', hat⟩ := resultAt_eq_some.mp hr'
          rw [hslot] at hlisted
          cases hlisted
          rw [htxs, retainResults, HashMap.lookup_filterMap, hlookup, Option.bind_some,
            hmap] at hlookup'
          cases hlookup'
          exact ⟨i, r', hat⟩
  · refine h slot' txs ?_
    rw [← hslot, DefaultTxParser.retainSlot, Std.ExtTreeMap.getElem?_modify, if_neg]
    rw [Std.compare_eq_iff_eq]
    exact Ne.symm hne

theorem Tight.registerSlotTransactions (h : Tight p)
    (hgiven : ∀ hash i r, p.resultAt slot hash i = some r →
      ∃ step, slotTxs.stepAt hash i = some step) :
    Tight (p.registerSlotTransactions slot slotTxs).1 := by
  rw [registerSlotTransactions_eq]
  refine forTry_invariant (P := Tight) ?_ (h.retainSlot hgiven)
  intro q e _ hq
  rcases registerStep_resultsBySlot q slot e.1 e.2.1 e.2.2 with hsame | hfiled
  · exact hq.of_results hsame
  · exact (hq.recordResult slot e.1 e.2.1 e.2.2.result).of_results hfiled

/-! ## Walks over a set of slots -/

/-- A slot of the set has this step for the hash. -/
def Lists (slots : BTreeMap Slot ParsedTxs) (hash : TxHash) (step : ParsedTxStep) : Prop :=
  ∃ (slot : Slot) (slotTxs : ParsedTxs) (i : Nat),
    slots[slot]? = some slotTxs ∧ slotTxs.stepAt hash i = some step

/-- Slots whose hashes are each used for one thing: a holder that is sent in chunks of one
payload, the same chunk wherever the offset is the same, or a transaction that is executed
directly. Chunks at different offsets may even overlap. -/
structure HolderSlots (slots : BTreeMap Slot ParsedTxs) : Prop where
  kinds : ∀ hash,
    (∀ step, Lists slots hash step →
      (∃ r, step = .bigTx r) ∨ ∃ offset data, step = .transmitTx offset data) ∨
    ∃ tx, ∀ step, Lists slots hash step → ∃ r, step = .smallTx tx r
  payload : ∀ hash, ∃ payload : Bytes, payload.length ≤ isizeMax ∧
    ∀ offset data, Lists slots hash (.transmitTx offset data) → Slice payload offset data
  chunks : ∀ hash offset data data', Lists slots hash (.transmitTx offset data) →
    Lists slots hash (.transmitTx offset data') → data = data'
  indices : ∀ (slot : Slot) slotTxs hash hash' i step step', slots[slot]? = some slotTxs →
    slotTxs.stepAt hash i = some step → slotTxs.stepAt hash' i = some step' → hash = hash'

theorem HolderSlots.purpose {slots : BTreeMap Slot ParsedTxs} (h : HolderSlots slots)
    (hash : TxHash) : ∃ purpose : Purpose, ∀ step, Lists slots hash step → purpose.Allows step := by
  rcases h.kinds hash with hholder | ⟨tx, hdirect⟩
  · obtain ⟨payload, hsize, hslices⟩ := h.payload hash
    refine ⟨.holder payload, fun step hstep => ?_⟩
    rcases hholder step hstep with ⟨r, rfl⟩ | ⟨offset, data, rfl⟩
    · trivial
    · exact ⟨hslices offset data hstep, hsize⟩
  · refine ⟨.direct tx, fun step hstep => ?_⟩
    obtain ⟨r, rfl⟩ := hdirect step hstep
    rfl

/-- The calls of a walk register slots of the set, each in some order of its hash map. -/
def OfSlots (slots : BTreeMap Slot ParsedTxs) (_ : DefaultTxParser) (op : ParserOp) : Prop :=
  match op with
  | .register slot slotTxs => ∃ given, slots[slot]? = some given ∧ HashMap.Same given slotTxs
  | .retainFromSlot _ => False
  | .rehash => True

/-- A walk over the set: any calls on a fresh parser that register its slots. -/
def Walk (slots : BTreeMap Slot ParsedTxs) (tr : List (DefaultTxParser × ParserOp))
    (p : DefaultTxParser) : Prop :=
  Machine.Run freshParser tr p ∧ Machine.Meets (OfSlots slots) tr

def Registered (tr : List (DefaultTxParser × ParserOp)) (slot : Slot) : Prop :=
  ∃ s slotTxs, (s, ParserOp.register slot slotTxs) ∈ tr

theorem registered_append {tr : List (DefaultTxParser × ParserOp)} {s : DefaultTxParser}
    {op : ParserOp} {slot : Slot} : Registered (tr ++ [(s, op)]) slot ↔
      Registered tr slot ∨ ∃ slotTxs, op = .register slot slotTxs := by
  simp only [Registered, List.mem_append, List.mem_singleton, Prod.mk.injEq]
  constructor
  · rintro ⟨s', slotTxs, hin | ⟨_, rfl⟩⟩
    · exact Or.inl ⟨s', slotTxs, hin⟩
    · exact Or.inr ⟨slotTxs, rfl⟩
  · rintro (⟨s', slotTxs, hin⟩ | ⟨slotTxs, rfl⟩)
    · exact ⟨s', slotTxs, Or.inl hin⟩
    · exact ⟨s, slotTxs, Or.inr ⟨rfl, rfl⟩⟩

/-- The steps of a hash that a walk has come by. -/
def SeenIn (slots : BTreeMap Slot ParsedTxs) (tr : List (DefaultTxParser × ParserOp))
    (hash : TxHash) (step : ParsedTxStep) : Prop :=
  ∃ (slot : Slot) (slotTxs : ParsedTxs) (i : Nat), Registered tr slot ∧
    slots[slot]? = some slotTxs ∧ slotTxs.stepAt hash i = some step

theorem SeenIn.lists {slots : BTreeMap Slot ParsedTxs} {tr : List (DefaultTxParser × ParserOp)}
    {hash : TxHash} {step : ParsedTxStep} (h : SeenIn slots tr hash step) :
    Lists slots hash step := by
  obtain ⟨slot, slotTxs, i, _, hslot, hstep⟩ := h
  exact ⟨slot, slotTxs, i, hslot, hstep⟩

theorem seenIn_append {slots : BTreeMap Slot ParsedTxs} {tr : List (DefaultTxParser × ParserOp)}
    {s : DefaultTxParser} {given : ParsedTxs} (hslot : slots[slot]? = some given)
    (hsame : HashMap.Same given slotTxs) {hash : TxHash} {step : ParsedTxStep} :
    SeenIn slots (tr ++ [(s, .register slot slotTxs)]) hash step ↔
      SeenIn slots tr hash step ∨ step ∈ stepsOf hash slotTxs.inOrder := by
  rw [← stepsOf_same hsame, mem_stepsOf]
  constructor
  · rintro ⟨slot', slotTxs', i, hregistered, hslot', hstep⟩
    rcases registered_append.mp hregistered with hold | ⟨_, heq⟩
    · exact Or.inl ⟨slot', slotTxs', i, hold, hslot', hstep⟩
    · cases heq
      rw [hslot] at hslot'
      cases hslot'
      exact Or.inr ⟨i, hstep⟩
  · rintro (⟨slot', slotTxs', i, hregistered, hslot', hstep⟩ | ⟨i, hstep⟩)
    · exact ⟨slot', slotTxs', i, registered_append.mpr (Or.inl hregistered), hslot', hstep⟩
    · exact ⟨slot, given, i, registered_append.mpr (Or.inr ⟨_, rfl⟩), hslot, hstep⟩

/-- What a walk leaves behind. -/
structure Walked (slots : BTreeMap Slot ParsedTxs) (tr : List (DefaultTxParser × ParserOp))
    (p : DefaultTxParser) : Prop where
  records : ∀ hash purpose, (∀ step, Lists slots hash step → purpose.Allows step) →
    Gathered purpose (SeenIn slots tr hash) (p.record hash)
  results : ∀ (slot : Slot) slotTxs, Registered tr slot → slots[slot]? = some slotTxs →
    ∀ hash i, p.resultAt slot hash i = (slotTxs.stepAt hash i).map ParsedTxStep.result
  others : ∀ slot : Slot, ¬ Registered tr slot → p.resultsBySlot[slot]? = none
  tight : Tight p

section

variable {slots : BTreeMap Slot ParsedTxs} {tr : List (DefaultTxParser × ParserOp)}

theorem stepAt_same {given slotTxs : ParsedTxs} (hsame : HashMap.Same given slotTxs)
    (hash : TxHash) (i : Nat) : given.stepAt hash i = slotTxs.stepAt hash i := by
  rw [ParsedTxs.stepAt, ParsedTxs.stepAt, hsame.lookup]

/-- A slot of the set can be registered whenever it comes, and the walk goes on from there. -/
theorem Walked.register (hslots : HolderSlots slots) (h : Walked slots tr p) {given : ParsedTxs}
    (hslot : slots[slot]? = some given) (hsame : HashMap.Same given slotTxs) :
    ∃ q, p.registerSlotTransactions slot slotTxs = (q, .ok ()) ∧
      Walked slots (tr ++ [(p, .register slot slotTxs)]) q := by
  have hlists : ∀ hash, ∀ step ∈ stepsOf hash slotTxs.inOrder, Lists slots hash step := by
    intro hash step hin
    obtain ⟨i, hstep⟩ := mem_stepsOf.mp hin
    exact ⟨slot, given, i, hslot, (stepAt_same hsame hash i).trans hstep⟩
  have hrun : ∀ hash purpose, (∀ step, Lists slots hash step → purpose.Allows step) →
      ∃ o, p.hashRun slotTxs hash = (o, .ok ()) ∧
        Gathered purpose (SeenIn slots (tr ++ [(p, .register slot slotTxs)]) hash) o := by
    intro hash purpose hpurpose
    obtain ⟨o, hrun, hgathered⟩ := (h.records hash purpose hpurpose).run
      (stepsOf hash slotTxs.inOrder) (fun step hin => hpurpose step (hlists hash step hin))
      (fun offset data data' hdata hin => by
        refine hslots.chunks hash offset data data' ?_ (hlists hash _ hin)
        rcases hdata with hseen | hin'
        · exact hseen.lists
        · exact hlists hash _ hin')
    exact ⟨o, hrun, hgathered.congr fun step => (seenIn_append hslot hsame).symm⟩
  have hok : (p.registerSlotTransactions slot slotTxs).2 = .ok () := by
    refine registerSlotTransactions_ok_iff.mpr fun hash => ?_
    obtain ⟨purpose, hpurpose⟩ := hslots.purpose hash
    obtain ⟨o, hrun, _⟩ := hrun hash purpose hpurpose
    rw [hrun]
  refine ⟨_, Prod.ext rfl hok, ?_, ?_, ?_, ?_⟩
  · intro hash purpose hpurpose
    obtain ⟨o, hrun, hgathered⟩ := hrun hash purpose hpurpose
    rw [hashRun_of_ok (Prod.ext rfl hok) hash] at hrun
    cases hrun
    exact hgathered
  · intro slot' txs hregistered hslot' hash i
    by_cases hne : slot' = slot
    · subst hne
      rw [hslot] at hslot'
      cases hslot'
      rw [registerSlotTransactions_results (Prod.ext rfl hok), stepAt_same hsame]
    · have hold : Registered tr slot' := by
        rcases registered_append.mp hregistered with hold | ⟨_, heq⟩
        · exact hold
        · cases heq
          exact absurd rfl hne
      rw [resultAt, registerSlotTransactions_other p slot slotTxs (Ne.symm hne)]
      exact h.results slot' txs hold hslot' hash i
  · intro slot' hnot
    have hne : slot' ≠ slot := by
      intro heq
      subst heq
      exact hnot (registered_append.mpr (Or.inr ⟨_, rfl⟩))
    rw [registerSlotTransactions_other p slot slotTxs (Ne.symm hne)]
    exact h.others slot' fun hold => hnot (registered_append.mpr (Or.inl hold))
  · refine h.tight.registerSlotTransactions fun hash i r hr => ?_
    by_cases hregistered : Registered tr slot
    · rw [h.results slot given hregistered hslot, Option.map_eq_some_iff] at hr
      obtain ⟨step, hstep, _⟩ := hr
      exact ⟨step, (stepAt_same hsame hash i).symm.trans hstep⟩
    · rw [resultAt, h.others slot hregistered] at hr
      cases hr

theorem Walked.start (slots : BTreeMap Slot ParsedTxs) : Walked slots [] .new where
  records hash purpose _ := (Gathered.none purpose).congr fun step => by
    refine ⟨False.elim, fun hseen => ?_⟩
    obtain ⟨_, _, _, ⟨_, _, hin⟩, _⟩ := hseen
    cases hin
  results slot slotTxs hregistered := by
    obtain ⟨_, _, hin⟩ := hregistered
    cases hin
  others _ _ := rfl
  tight _ _ hslot := by cases hslot

theorem Tight.same (h : Tight p) (hsame : p.Same q) : Tight q := by
  intro slot slotTxs hslot
  have hrel := hsame.2 slot
  rw [hslot] at hrel
  cases hold : p.resultsBySlot[slot]? with
  | none =>
      rw [hold] at hrel
      cases hrel
  | some old =>
      rw [hold] at hrel
      cases hrel with
      | some hsame =>
          obtain ⟨⟨hash, results, hlookup⟩, hresults⟩ := h slot old hold
          refine ⟨⟨hash, results, (hsame.lookup hash).symm.trans hlookup⟩, ?_⟩
          intro hash' results' hlookup'
          exact hresults hash' results' ((hsame.lookup hash').trans hlookup')

theorem Walked.rehash (h : Walked slots tr p) (hsame : p.Same q) :
    Walked slots (tr ++ [(p, .rehash)]) q := by
  have hregistered : ∀ slot, Registered (tr ++ [(p, .rehash)]) slot ↔ Registered tr slot := by
    intro slot
    rw [registered_append]
    simp
  refine ⟨?_, ?_, ?_, h.tight.same hsame⟩
  · intro hash purpose hpurpose
    rw [← hsame.record]
    refine (h.records hash purpose hpurpose).congr fun step => ?_
    simp only [SeenIn, hregistered]
  · intro slot slotTxs hslot hgiven hash i
    rw [← hsame.resultAt]
    exact h.results slot slotTxs ((hregistered slot).mp hslot) hgiven hash i
  · intro slot hnot
    have hnone := h.others slot fun hslot => hnot ((hregistered slot).mpr hslot)
    have hrel := hsame.2 slot
    rw [hnone] at hrel
    cases hq : q.resultsBySlot[slot]? with
    | none => rfl
    | some txs =>
        rw [hq] at hrel
        cases hrel

theorem Walk.walked (hslots : HolderSlots slots) (h : Walk slots tr p) : Walked slots tr p := by
  obtain ⟨hrun, hmeets⟩ := h
  induction hrun with
  | start hinit =>
      cases hinit
      exact .start slots
  | @next tr s t op hrun hstep ih =>
      obtain ⟨hmeets, hop⟩ := Machine.meets_append.mp hmeets
      have hwalked := ih hmeets
      cases op with
      | retainFromSlot fromSlot => exact hop.elim
      | rehash => exact hwalked.rehash hstep
      | register slot slotTxs =>
          obtain ⟨given, hslot, hsame⟩ := hop
          obtain ⟨_, rfl⟩ := hstep
          obtain ⟨q, hregister, hwalked'⟩ := hwalked.register hslots hslot hsame
          rw [hregister]
          exact hwalked'

theorem Walk.registered_mem (h : Walk slots tr p) {slot : Slot} (hslot : Registered tr slot) :
    ∃ slotTxs, slots[slot]? = some slotTxs := by
  obtain ⟨s, slotTxs, hin⟩ := hslot
  obtain ⟨given, hgiven, _⟩ := h.2 _ hin
  exact ⟨given, hgiven⟩

/-- Every slot of the set has been registered. -/
def CoversAll (slots : BTreeMap Slot ParsedTxs) (tr : List (DefaultTxParser × ParserOp)) : Prop :=
  ∀ slot : Slot, slot ∈ slots → Registered tr slot

theorem CoversAll.seenIn_iff (h : CoversAll slots tr) {hash : TxHash} {step : ParsedTxStep} :
    SeenIn slots tr hash step ↔ Lists slots hash step := by
  refine ⟨SeenIn.lists, ?_⟩
  rintro ⟨slot, slotTxs, i, hslot, hstep⟩
  refine ⟨slot, slotTxs, i, h slot ?_, hslot, hstep⟩
  rw [Std.ExtTreeMap.mem_iff_isSome_getElem?, hslot]
  rfl

/-- A walk over all slots has the results of each of them, and of no other slot. -/
theorem Walk.resultAt (hslots : HolderSlots slots) (h : Walk slots tr p) (hall : CoversAll slots tr)
    (slot : Slot) (hash : TxHash) (i : Nat) : p.resultAt slot hash i
      = (slots[slot]?).bind fun slotTxs => (slotTxs.stepAt hash i).map ParsedTxStep.result := by
  have hwalked := h.walked hslots
  cases hslot : slots[slot]? with
  | none =>
      have hnot : ¬ Registered tr slot := by
        intro hregistered
        obtain ⟨slotTxs, hsome⟩ := h.registered_mem hregistered
        rw [hslot] at hsome
        cases hsome
      rw [DefaultTxParser.resultAt, hwalked.others slot hnot]
      rfl
  | some slotTxs =>
      have hregistered := hall slot (by
        rw [Std.ExtTreeMap.mem_iff_isSome_getElem?, hslot]
        rfl)
      exact hwalked.results slot slotTxs hregistered hslot hash i

theorem Walk.recorded (hslots : HolderSlots slots) (h : Walk slots tr p)
    (hall : CoversAll slots tr) (slot : Slot) : p.Recorded slot := by
  intro hash i r hr
  rw [h.resultAt hslots hall, Option.bind_eq_some_iff] at hr
  obtain ⟨slotTxs, hslot, hr⟩ := hr
  obtain ⟨step, hstep, _⟩ := Option.map_eq_some_iff.mp hr
  obtain ⟨purpose, hpurpose⟩ := hslots.purpose hash
  have hseen := ((h.walked hslots).records hash purpose hpurpose).seen step
    (hall.seenIn_iff.mpr ⟨slot, slotTxs, i, hslot, hstep⟩)
  cases purpose with
  | direct tx => exact ⟨_, hseen⟩
  | holder payload =>
      obtain ⟨tx, hrec, _⟩ := hseen
      exact ⟨tx, hrec⟩

theorem Walk.indicesDiffer (hslots : HolderSlots slots) (h : Walk slots tr p)
    (hall : CoversAll slots tr) (slot : Slot) : IndicesDiffer p slot := by
  intro hash hash' i r r' hexec hexec'
  have hr := hexec.result
  have hr' := hexec'.result
  rw [h.resultAt hslots hall, Option.bind_eq_some_iff] at hr hr'
  obtain ⟨slotTxs, hslot, hr⟩ := hr
  obtain ⟨slotTxs', hslot', hr'⟩ := hr'
  rw [hslot] at hslot'
  cases hslot'
  obtain ⟨step, hstep, _⟩ := Option.map_eq_some_iff.mp hr
  obtain ⟨step', hstep', _⟩ := Option.map_eq_some_iff.mp hr'
  exact hslots.indices slot slotTxs hash hash' i step step' hslot hstep hstep'

end

/-- Every registration of a walk goes through. Two walks over all slots, in whatever orders
and with whatever repetitions, end in parsers that hold the same: a slot is complete for both
or for neither, both finalize it to the same list or to none, and where they fail each gives
an error the other would give with its hash maps in another order. -/
theorem walks_end_alike (X : Crates) {slots : BTreeMap Slot ParsedTxs} (hslots : HolderSlots slots) :
    (∀ tr p, Walk slots tr p → ∀ (slot : Slot) slotTxs, slots[slot]? = some slotTxs →
      (p.registerSlotTransactions slot slotTxs).2 = .ok ()) ∧
    ∀ tr tr' p q, Walk slots tr p → Walk slots tr' q → CoversAll slots tr → CoversAll slots tr' →
      p.Same q ∧ ∀ slot, p.isSlotComplete slot = q.isSlotComplete slot ∧
        ∀ out, p.finalizeSlot X slot = .ok out ↔ q.finalizeSlot X slot = .ok out := by
  constructor
  · intro tr p h slot slotTxs hslot
    obtain ⟨q, hregister, _⟩ := (h.walked hslots).register hslots hslot (HashMap.Same.refl slotTxs)
    rw [hregister]
  · intro tr tr' p q hp hq hall hall'
    have hrecord : ∀ hash, p.record hash = q.record hash := by
      intro hash
      obtain ⟨purpose, hpurpose⟩ := hslots.purpose hash
      have hrecp := (hp.walked hslots).records hash purpose hpurpose
      have hrecq := (hq.walked hslots).records hash purpose hpurpose
      refine hrecp.unique (hrecq.congr fun step => ?_)
      rw [hall.seenIn_iff, hall'.seenIn_iff]
    have hresult : ∀ slot hash i, q.resultAt slot hash i = p.resultAt slot hash i := by
      intro slot hash i
      rw [hp.resultAt hslots hall, hq.resultAt hslots hall']
    refine ⟨.of_reads (hp.walked hslots).tight (hq.walked hslots).tight hrecord
      fun slot hash i => (hresult slot hash i).symm, fun slot => ?_⟩
    have hrenamed : Renamed id q p slot := .of_eq (hresult slot)
    refine ⟨hrenamed.isSlotComplete_eq (fun hash => (hrecord hash).symm)
      (hq.recorded hslots hall' slot), fun out => ?_⟩
    exact hrenamed.finalizeSlot_iff (fun hash => (hrecord hash).symm)
      (hq.indicesDiffer hslots hall' slot)

/-! Two chunks of one byte in slots 5 and 6, where the second slot executes the holder as
well: walked forwards, and from slot 6 back to slot 5 and to slot 6 again. -/

def firstHalf : ParsedTxs := ParsedTxs.addStep ∅ 9 0 (.transmitTx 0 [1])

def secondHalf : ParsedTxs :=
  (ParsedTxs.addStep ∅ 9 0 (.transmitTx 1 [2])).addStep 9 1 (.bigTx (some .default))

def halves : BTreeMap Slot ParsedTxs :=
  ((∅ : BTreeMap Slot ParsedTxs).insert 5 firstHalf).insert 6 secondHalf

def forwards : DefaultTxParser :=
  ((new.registerSlotTransactions 5 firstHalf).1.registerSlotTransactions 6 secondHalf).1

def backwards : DefaultTxParser :=
  (((new.registerSlotTransactions 6 secondHalf).1.registerSlotTransactions 5
    firstHalf).1.registerSlotTransactions 6 secondHalf).1

theorem stepAt_halves {slot : Slot} {slotTxs : ParsedTxs} {hash : TxHash} {i : Nat}
    {step : ParsedTxStep} (hslot : halves[slot]? = some slotTxs)
    (h : slotTxs.stepAt hash i = some step) : hash = 9 ∧
      (step = .transmitTx 0 [1] ∨ step = .transmitTx 1 [2] ∨ step = .bigTx (some .default)) := by
  have hempty : ∀ (hash : TxHash) (i : Nat), ParsedTxs.stepAt ∅ hash i = none := fun _ _ => rfl
  simp only [halves, BTreeMap.get?_insert, Std.ExtTreeMap.getElem?_empty] at hslot
  split at hslot
  · cases hslot
    simp only [secondHalf, stepAt_addStep, hempty, Option.none_or, Option.or_eq_some_iff] at h
    rcases h with h | ⟨_, h⟩
    · obtain ⟨⟨rfl, _⟩, heq⟩ := Option.ite_none_right_eq_some.mp h
      cases heq
      exact ⟨rfl, Or.inr (Or.inl rfl)⟩
    · obtain ⟨⟨rfl, _⟩, heq⟩ := Option.ite_none_right_eq_some.mp h
      cases heq
      exact ⟨rfl, Or.inr (Or.inr rfl)⟩
  · split at hslot
    · cases hslot
      simp only [firstHalf, stepAt_addStep, hempty, Option.none_or] at h
      obtain ⟨⟨rfl, _⟩, heq⟩ := Option.ite_none_right_eq_some.mp h
      cases heq
      exact ⟨rfl, Or.inl rfl⟩
    · cases hslot

theorem halves_holderSlots : HolderSlots halves where
  kinds hash := Or.inl fun step hlists => by
    obtain ⟨slot, slotTxs, i, hslot, hstep⟩ := hlists
    rcases (stepAt_halves hslot hstep).2 with rfl | rfl | rfl
    · exact Or.inr ⟨0, [1], rfl⟩
    · exact Or.inr ⟨1, [2], rfl⟩
    · exact Or.inl ⟨_, rfl⟩
  payload hash := ⟨[1, 2], by decide, fun offset data hlists => by
    obtain ⟨slot, slotTxs, i, hslot, hstep⟩ := hlists
    rcases (stepAt_halves hslot hstep).2 with heq | heq | heq
    · cases heq
      exact ⟨by decide, by decide⟩
    · cases heq
      exact ⟨by decide, by decide⟩
    · cases heq⟩
  chunks hash offset data data' hlists hlists' := by
    obtain ⟨slot, slotTxs, i, hslot, hstep⟩ := hlists
    obtain ⟨slot', slotTxs', i', hslot', hstep'⟩ := hlists'
    rcases (stepAt_halves hslot hstep).2 with heq | heq | heq
    · cases heq
      rcases (stepAt_halves hslot' hstep').2 with heq' | heq' | heq'
      · cases heq'
        rfl
      · cases heq'
      · cases heq'
    · cases heq
      rcases (stepAt_halves hslot' hstep').2 with heq' | heq' | heq'
      · cases heq'
      · cases heq'
        rfl
      · cases heq'
    · cases heq
  indices slot slotTxs hash hash' i step step' hslot hstep hstep' := by
    rw [(stepAt_halves hslot hstep).1, (stepAt_halves hslot hstep').1]

theorem halves_registered {tr : List (DefaultTxParser × ParserOp)} (hfirst : Registered tr 5)
    (hsecond : Registered tr 6) : CoversAll halves tr := by
  intro slot hslot
  rw [halves, Std.ExtTreeMap.mem_insert, Std.ExtTreeMap.mem_insert, Std.compare_eq_iff_eq,
    Std.compare_eq_iff_eq] at hslot
  rcases hslot with rfl | rfl | hnone
  · exact hsecond
  · exact hfirst
  · exact absurd hnone Std.ExtTreeMap.not_mem_empty

theorem halves_end_alike : forwards.Same backwards ∧
    ∀ slot, forwards.isSlotComplete slot = backwards.isSlotComplete slot ∧
      ∀ out, forwards.finalizeSlot standIns slot = .ok out ↔
        backwards.finalizeSlot standIns slot = .ok out := by
  have hfirst : ∃ given, halves[5]? = some given ∧ HashMap.Same given firstHalf :=
    ⟨_, rfl, .refl _⟩
  have hsecond : ∃ given, halves[6]? = some given ∧ HashMap.Same given secondHalf :=
    ⟨_, rfl, .refl _⟩
  have hnew : Machine.Run freshParser [] new := .start rfl
  have hforwards := parserFrom_register (parserFrom_register hnew 5 firstHalf (by decide))
    6 secondHalf (by decide)
  have hbackwards := parserFrom_register (parserFrom_register
    (parserFrom_register hnew 6 secondHalf (by decide)) 5 firstHalf (by decide))
    6 secondHalf (by decide)
  refine (walks_end_alike standIns halves_holderSlots).2 _ _ forwards backwards ⟨hforwards, ?_⟩
    ⟨hbackwards, ?_⟩ (halves_registered ?_ ?_) (halves_registered ?_ ?_)
  · simp only [Machine.meets_append]
    exact ⟨⟨fun _ h => (by cases h), hfirst⟩, hsecond⟩
  · simp only [Machine.meets_append]
    exact ⟨⟨⟨fun _ h => (by cases h), hsecond⟩, hfirst⟩, hsecond⟩
  · exact ⟨_, _, List.mem_append_left _ (List.mem_singleton_self _)⟩
  · exact ⟨_, _, List.mem_append_right _ (List.mem_singleton_self _)⟩
  · exact ⟨_, _, List.mem_append_left _ (List.mem_append_right _ (List.mem_singleton_self _))⟩
  · exact ⟨_, _, List.mem_append_right _ (List.mem_singleton_self _)⟩

end DefaultTxParser

end RomeSdk
