import RomeSdk.Proofs.Holder
import RomeSdk.Proofs.Registration

/-!
# Registering a slot again

A registration that runs through leaves at its slot what the steps say and
nothing else, and touches no other slot. Every step is then settled: its result
is filed, and storing it once more leaves the record of its hash as it is. For
the steps of a transaction that is kept are all of one kind, and a chunk whose
offset is known is skipped. So the same steps, in any order, change nothing.
-/

namespace RomeSdk

namespace DefaultTxParser

/-! ## What is listed at a slot -/

/-- The results listed at a slot for a hash, none of them present perhaps. -/
def resultsOf (p : DefaultTxParser) (slot : Slot) (hash : TxHash) : Option TxResults :=
  p.resultsBySlot[slot]?.bind fun txs => AList.lookup hash txs

theorem resultAt_eq (p : DefaultTxParser) (slot : Slot) (hash : TxHash) (i : Nat) :
    p.resultAt slot hash i = (p.resultsOf slot hash).bind fun results => results[i]? := by
  rw [resultAt, resultsOf, Option.bind_assoc]

theorem rel_isSome {a b : Option SlotResults} (h : Option.Rel HashMap.Same a b) :
    a.isSome = b.isSome := by
  cases h <;> rfl

theorem rel_lookup {a b : Option SlotResults} (h : Option.Rel HashMap.Same a b) (hash : TxHash) :
    (a.bind fun txs => AList.lookup hash txs) = b.bind fun txs => AList.lookup hash txs := by
  cases h with
  | none => rfl
  | some hsame => exact hsame.lookup hash

theorem rel_of_lookup {a b : Option SlotResults} (hsome : a.isSome = b.isSome)
    (h : ∀ hash, (a.bind fun txs => AList.lookup hash txs)
      = b.bind fun txs => AList.lookup hash txs) : Option.Rel HashMap.Same a b := by
  cases a with
  | none =>
      cases b with
      | none => exact .none
      | some txs' => cases hsome
  | some txs =>
      cases b with
      | none => cases hsome
      | some txs' => exact .some (HashMap.same_of_lookup h)

/-- Parsers are the same if they have the same records, and list the same results at
the same slots. -/
theorem same_iff {p q : DefaultTxParser} : p.Same q ↔ (∀ h, p.record h = q.record h) ∧
    (∀ s : Slot, p.resultsBySlot[s]?.isSome = q.resultsBySlot[s]?.isSome) ∧
      ∀ s h, p.resultsOf s h = q.resultsOf s h := by
  constructor
  · intro h
    exact ⟨h.record, fun s => rel_isSome (h.2 s), fun s hash => rel_lookup (h.2 s) hash⟩
  · rintro ⟨hrecord, hslots, hresults⟩
    exact ⟨HashMap.same_of_lookup hrecord, fun s => rel_of_lookup (hslots s) (hresults s)⟩

theorem Same.trans {p q r : DefaultTxParser} (h : p.Same q) (h' : q.Same r) : p.Same r := by
  obtain ⟨hrecord, hslots, hresults⟩ := same_iff.mp h
  obtain ⟨hrecord', hslots', hresults'⟩ := same_iff.mp h'
  exact same_iff.mpr ⟨fun hash => (hrecord hash).trans (hrecord' hash),
    fun s => (hslots s).trans (hslots' s), fun s hash => (hresults s hash).trans (hresults' s hash)⟩

theorem recordResult_resultsOf (p : DefaultTxParser) (slot : Slot) (hash : TxHash) (txIdx : Nat)
    (r : Option TxResult) (h : TxHash) :
    (p.recordResult slot hash txIdx r).resultsOf slot h
      = if hash = h then some (((p.resultsOf slot hash).getD ∅).insertIfNew txIdx r)
        else p.resultsOf slot h := by
  simp only [resultsOf, recordResult, BTreeMap.get?_upsert, if_true, Option.bind_some,
    HashMap.lookup_upsert]
  cases p.resultsBySlot[slot]? with
  | none => rfl
  | some txs => rfl

theorem registerStep_listed {p : DefaultTxParser} {slot : Slot} {hash h : TxHash} {txIdx : Nat}
    {step : ParsedTxStep}
    (hlisted : ((p.registerStep slot hash txIdx step).1.resultsOf slot h).isSome = true) :
    hash = h ∨ (p.resultsOf slot h).isSome = true := by
  rw [resultsOf] at hlisted
  rcases registerStep_resultsBySlot p slot hash txIdx step with hsame | hfiled
  · rw [hsame] at hlisted
    exact Or.inr hlisted
  · rw [hfiled, ← resultsOf, recordResult_resultsOf] at hlisted
    by_cases hh : hash = h
    · exact Or.inl hh
    · rw [if_neg hh] at hlisted
      exact Or.inr hlisted

theorem retainSlot_resultsOf (p : DefaultTxParser) (slot : Slot) (slotTxs : ParsedTxs)
    (h : TxHash) : (p.retainSlot slot slotTxs).resultsOf slot h
      = (p.resultsOf slot h).bind fun results => (AList.lookup h slotTxs).map fun steps =>
          Std.ExtTreeMap.filterMap (fun i _ => steps[i]?.map ParsedTxStep.result) results := by
  simp only [resultsOf, retainSlot, Std.ExtTreeMap.getElem?_modify, Std.ReflCmp.compare_self, if_true]
  cases p.resultsBySlot[slot]? with
  | none => rfl
  | some txs =>
      rw [Option.map_some, Option.bind_some, Option.bind_some, retainResults,
        HashMap.lookup_filterMap]

/-! ## What a call leaves alone, however it ends -/

section

variable (p : DefaultTxParser) (slot : Slot) (slotTxs : ParsedTxs)

theorem recordStep_isSome (o : Option EvmTx) (step : ParsedTxStep) :
    (recordStep o step).1.isSome = true := by
  cases step with
  | smallTx tx r => rfl
  | bigTx r => rfl
  | transmitTx offset data =>
      simp only [recordStep]
      cases (o.getD EvmTx.newBigTx).updateTxHolder offset data <;> rfl

theorem registerStep_known {q : DefaultTxParser} {hash : TxHash} {txIdx : Nat} {step : ParsedTxStep}
    {h : TxHash} (hq : (q.record h).isSome = true) :
    ((q.registerStep slot hash txIdx step).1.record h).isSome = true := by
  rw [registerStep_record]
  split
  · exact recordStep_isSome _ _
  · exact hq

/-- No record is lost. -/
theorem registerSlotTransactions_known {h : TxHash} (hp : (p.record h).isSome = true) :
    ((p.registerSlotTransactions slot slotTxs).1.record h).isSome = true := by
  rw [registerSlotTransactions_eq]
  exact forTry_invariant (P := fun q : DefaultTxParser => (q.record h).isSome = true)
    (fun q e _ hq => registerStep_known slot hq) hp

/-- Only hashes of the call are listed at its slot. -/
theorem registerSlotTransactions_listed {h : TxHash}
    (hlisted : ((p.registerSlotTransactions slot slotTxs).1.resultsOf slot h).isSome = true) :
    (AList.lookup h slotTxs).isSome = true := by
  rw [registerSlotTransactions_eq] at hlisted
  refine forTry_invariant (P := fun q : DefaultTxParser => (q.resultsOf slot h).isSome = true →
    (AList.lookup h slotTxs).isSome = true) ?_ ?_ hlisted
  · intro q e he hq hlisted
    rcases registerStep_listed hlisted with rfl | hlisted
    · obtain ⟨hash, i, step⟩ := e
      obtain ⟨steps, hsteps, _⟩ := Option.bind_eq_some_iff.mp (ParsedTxs.mem_inOrder.mp he)
      rw [hsteps]
      rfl
    · exact hq hlisted
  · intro hlisted
    rw [retainSlot_resultsOf] at hlisted
    cases hlookup : AList.lookup h slotTxs with
    | some steps => rfl
    | none =>
        rw [hlookup] at hlisted
        cases hresults : p.resultsOf slot h <;> rw [hresults] at hlisted <;> cases hlisted

end

/-! ## Steps stored before -/

/-- Storing the step once more leaves the record as it is. -/
def Stored (o : Option EvmTx) (step : ParsedTxStep) : Prop := recordStep o step = (o, .ok ())

/-- A chunk is stored if its offset is known. -/
theorem updateTxHolder_of_known {tx : EvmTx} {offset : Nat} {buffer : Bytes}
    {pieces : BTreeMap Nat Nat} (htx : tx = .bigEvmTx buffer pieces) (hin : offset ∈ pieces)
    (data : Bytes) : tx.updateTxHolder offset data = .ok tx := by
  rw [htx, EvmTx.updateTxHolder, if_pos hin]

/-- An update knows its offset then, and those known before. -/
theorem updateTxHolder_known {tx tx' : EvmTx} {offset : Nat} {data : Bytes}
    (h : tx.updateTxHolder offset data = .ok tx') :
    ∃ buffer pieces, tx' = .bigEvmTx buffer pieces ∧ offset ∈ pieces ∧
      ∀ o, o ∈ tx.pieces → o ∈ pieces := by
  obtain ⟨buffer, pieces, rfl, ⟨hin, rfl⟩ | ⟨_, _, rfl⟩⟩ := EvmTx.updateTxHolder_cases h
  · exact ⟨buffer, pieces, rfl, hin, fun o ho => ho⟩
  · refine ⟨_, _, rfl, Std.ExtTreeMap.mem_insert_self, fun o ho => ?_⟩
    exact Std.ExtTreeMap.mem_insert.mpr (Or.inr ho)

/-- What a stored step has left in the record. -/
theorem stored_iff {o : Option EvmTx} {step : ParsedTxStep} :
    Stored o step ↔ ∃ tx, o = some tx ∧ ∀ offset data, step = .transmitTx offset data →
      ∃ buffer pieces, tx = .bigEvmTx buffer pieces ∧ offset ∈ pieces := by
  constructor
  · intro h
    rcases recordStep_cases h with ⟨tx, r, rfl, ho⟩ | ⟨r, rfl, ho⟩ |
      ⟨offset, data, updated, rfl, hup, ho⟩
    · exact ⟨_, ho, fun _ _ heq => by cases heq⟩
    · exact ⟨_, ho, fun _ _ heq => by cases heq⟩
    · obtain ⟨buffer, pieces, hbig, hin, _⟩ := updateTxHolder_known hup
      refine ⟨updated, ho, fun _ _ heq => ?_⟩
      cases heq
      exact ⟨buffer, pieces, hbig, hin⟩
  · rintro ⟨tx, rfl, hknown⟩
    cases step with
    | smallTx t r => rfl
    | bigTx r => rfl
    | transmitTx offset data =>
        obtain ⟨buffer, pieces, hbig, hin⟩ := hknown offset data rfl
        rw [Stored, recordStep, Option.getD_some, updateTxHolder_of_known hbig hin data]

theorem recordStep_stored {o o' : Option EvmTx} {step : ParsedTxStep}
    (h : recordStep o step = (o', .ok ())) : Stored o' step := by
  rcases recordStep_cases h with ⟨tx, r, rfl, rfl⟩ | ⟨r, rfl, rfl⟩ |
    ⟨offset, data, updated, rfl, hup, rfl⟩
  · rfl
  · rfl
  · obtain ⟨buffer, pieces, hbig, hin, _⟩ := updateTxHolder_known hup
    rw [Stored, recordStep, Option.getD_some, updateTxHolder_of_known hbig hin data]

/-- What is stored stays stored. -/
theorem Stored.next {o o' : Option EvmTx} {step step' : ParsedTxStep} (h : Stored o step)
    (hstep : recordStep o step' = (o', .ok ())) : Stored o' step := by
  obtain ⟨tx, rfl, hknown⟩ := stored_iff.mp h
  rcases recordStep_cases hstep with ⟨t, r, rfl, rfl⟩ | ⟨r, rfl, rfl⟩ |
    ⟨offset', data', updated, rfl, hup, rfl⟩
  · exact h
  · exact h
  · obtain ⟨buffer', pieces', hbig', _, hgrow⟩ := updateTxHolder_known hup
    refine stored_iff.mpr ⟨updated, rfl, fun offset data heq => ?_⟩
    obtain ⟨buffer, pieces, rfl, hin⟩ := hknown offset data heq
    exact ⟨buffer', pieces', hbig', hgrow offset hin⟩

theorem Stored.run {steps : List ParsedTxStep} : ∀ {o o' : Option EvmTx} {step : ParsedTxStep},
    Stored o step → forTry recordStep steps o = (o', .ok ()) → Stored o' step := by
  induction steps with
  | nil =>
      intro o o' step h hrun
      cases hrun
      exact h
  | cons a steps ih =>
      intro o o' step h hrun
      obtain ⟨o₁, ha, hrest⟩ := forTry_cons_inv hrun
      exact ih (h.next ha) hrest

/-- After a run every step of it is stored. -/
theorem stored_of_run {steps : List ParsedTxStep} : ∀ {o o' : Option EvmTx},
    forTry recordStep steps o = (o', .ok ()) → ∀ step ∈ steps, Stored o' step := by
  induction steps with
  | nil => intro o o' _ step h; cases h
  | cons a steps ih =>
      intro o o' hrun step hmem
      obtain ⟨o₁, ha, hrest⟩ := forTry_cons_inv hrun
      rcases List.mem_cons.mp hmem with rfl | hmem
      · exact (recordStep_stored ha).run hrest
      · exact ih hrest step hmem

/-! ## Settled steps -/

/-- A step with nothing left to do: it is stored, and its place has a result. -/
structure Settled (p : DefaultTxParser) (slot : Slot) (e : TxHash × Nat × ParsedTxStep) :
    Prop where
  stored : Stored (p.record e.1) e.2.2
  filed : (p.resultAt slot e.1 e.2.1).isSome = true

theorem Settled.of_same {p q : DefaultTxParser} {slot : Slot} {e : TxHash × Nat × ParsedTxStep}
    (h : Settled p slot e) (hsame : p.Same q) : Settled q slot e :=
  ⟨hsame.record e.1 ▸ h.stored, hsame.resultAt slot e.1 e.2.1 ▸ h.filed⟩

/-- A result that is there is not filed again. -/
theorem recordResult_same {p : DefaultTxParser} {slot : Slot} {hash : TxHash} {i : Nat}
    (h : (p.resultAt slot hash i).isSome = true) (r : Option TxResult) :
    p.Same (p.recordResult slot hash i r) := by
  rw [resultAt_eq] at h
  cases hresults : p.resultsOf slot hash with
  | none => rw [hresults] at h; cases h
  | some results =>
      rw [hresults, Option.bind_some] at h
      have hslot : p.resultsBySlot[slot]?.isSome = true := by
        rw [resultsOf] at hresults
        cases hs : p.resultsBySlot[slot]? with
        | none => rw [hs] at hresults; cases hresults
        | some txs => rfl
      have hkeep : results.insertIfNew i r = results := by
        refine Std.ExtTreeMap.ext_getElem? fun j => ?_
        rw [BTreeMap.get?_insertIfNew]
        split
        · next hij =>
          subst hij
          obtain ⟨v, hv⟩ := Option.isSome_iff_exists.mp h
          rw [hv, Option.getD_some]
        · rfl
      refine same_iff.mpr ⟨fun _ => rfl, fun s => ?_, fun s hash' => ?_⟩
      · rw [recordResult, BTreeMap.get?_upsert]
        split
        · next hs => subst hs; exact hslot
        · rfl
      · by_cases hs : slot = s
        · subst hs
          rw [recordResult_resultsOf]
          split
          · next hh =>
            subst hh
            rw [hresults, Option.getD_some, hkeep]
          · rfl
        · rw [resultsOf, resultsOf, recordResult_other p hs]

theorem registerStep_settled {p : DefaultTxParser} {slot : Slot} {e : TxHash × Nat × ParsedTxStep}
    (h : Settled p slot e) : ∃ q, registerEntry slot p e = (q, .ok ()) ∧ p.Same q := by
  obtain ⟨hash, i, step⟩ := e
  have houtcome := storeStep_outcome p hash step
  have hrecord := storeStep_record p hash step
  have hresults := storeStep_resultsBySlot p hash step
  rw [registerEntry, registerStep]
  rcases hs : p.storeStep hash step with ⟨p', e | ⟨⟨⟩⟩⟩ <;> rw [hs] at houtcome hrecord hresults
  · rw [show DefaultTxParser.recordStep (p.record hash) step = _ from h.stored] at houtcome
    cases houtcome
  · refine ⟨_, rfl, ?_⟩
    have hstored : p.Same p' := by
      refine same_iff.mpr ⟨fun h' => ?_, fun s => ?_, fun s h' => ?_⟩
      · rw [hrecord h', show recordStep (p.record hash) step = _ from h.stored]
        split
        · next hh => rw [hh]
        · rfl
      · rw [show p'.resultsBySlot = p.resultsBySlot from hresults]
      · rw [resultsOf, resultsOf, show p'.resultsBySlot = p.resultsBySlot from hresults]
    exact hstored.trans (recordResult_same (hstored.resultAt slot hash i ▸ h.filed) step.result)

/-- Steps that are settled are registered without effect. -/
theorem registerEntries_settled {slot : Slot} {l : List (TxHash × Nat × ParsedTxStep)} :
    ∀ {p : DefaultTxParser}, (∀ e ∈ l, Settled p slot e) →
      ∃ q, forTry (registerEntry slot) l p = (q, .ok ()) ∧ p.Same q := by
  induction l with
  | nil =>
      intro p _
      exact ⟨p, rfl, same_iff.mpr ⟨fun _ => rfl, fun _ => rfl, fun _ _ => rfl⟩⟩
  | cons e l ih =>
      intro p h
      obtain ⟨p₁, hstep, hsame⟩ := registerStep_settled (h e List.mem_cons_self)
      obtain ⟨q, hrest, hsame'⟩ :=
        ih fun d hd => (h d (List.mem_cons_of_mem e hd)).of_same hsame
      exact ⟨q, (forTry_cons_ok hstep).trans hrest, hsame.trans hsame'⟩

/-! ## The call that runs through -/

section

variable {p q : DefaultTxParser} {slot : Slot} {slotTxs : ParsedTxs}

/-- The results of the slot are those of the steps. -/
theorem resultAt_of_ok (hok : p.registerSlotTransactions slot slotTxs = (q, .ok ())) (h : TxHash)
    (i : Nat) : q.resultAt slot h i = (slotTxs.stepAt h i).map ParsedTxStep.result := by
  rw [registerSlotTransactions_eq] at hok
  obtain ⟨hkeep, hskip, hadd⟩ := registerEntry_resultAt_ok slotTxs.inOrder hok h i
  have hretained := retainSlot_resultAt p slot slotTxs h i
  cases hstep : slotTxs.stepAt h i with
  | none =>
      rw [hstep, Option.map_none, Option.bind_fun_none] at hretained
      refine hskip hretained fun step hmem => ?_
      rw [ParsedTxs.mem_inOrder.mp hmem] at hstep
      cases hstep
  | some step =>
      rw [hstep] at hretained
      cases hold : p.resultAt slot h i with
      | none =>
          rw [hold] at hretained
          exact hadd hretained slotTxs.inOrder_nodup step (ParsedTxs.mem_inOrder.mpr hstep)
      | some r =>
          rw [hold] at hretained
          exact hkeep _ hretained

/-- Every step has nothing left to do. -/
theorem settled_of_ok (hok : p.registerSlotTransactions slot slotTxs = (q, .ok ()))
    {e : TxHash × Nat × ParsedTxStep} (he : e ∈ slotTxs.inOrder) : Settled q slot e := by
  have hat := ParsedTxs.mem_inOrder.mp he
  constructor
  · rw [registerSlotTransactions_eq] at hok
    have hrun := registerEntry_record_ok e.1 slotTxs.inOrder hok
    exact stored_of_run hrun e.2.2 (mem_stepsOf.mpr ⟨e.2.1, hat⟩)
  · rw [resultAt_of_ok hok, hat]
    rfl

/-- The retaining phase finds nothing to take away or to replace. -/
theorem retainSlot_same_of_ok (hok : p.registerSlotTransactions slot slotTxs = (q, .ok ()))
    {slotTxs' : ParsedTxs} (hsame : HashMap.Same slotTxs slotTxs') :
    q.Same (q.retainSlot slot slotTxs') := by
  refine same_iff.mpr ⟨fun _ => rfl, fun s => ?_, fun s h => ?_⟩
  · by_cases hs : slot = s
    · subst hs
      rw [retainSlot, Std.ExtTreeMap.getElem?_modify, if_pos Std.ReflCmp.compare_self,
        Option.isSome_map]
    · rw [retainSlot_other q hs]
  · by_cases hs : slot = s
    · subst hs
      rw [retainSlot_resultsOf, ← hsame.lookup h]
      cases hresults : q.resultsOf slot h with
      | none => rfl
      | some results =>
          have hlisted := registerSlotTransactions_listed p slot slotTxs (h := h) (by
            rw [hok, hresults]
            rfl)
          obtain ⟨steps, hsteps⟩ := Option.isSome_iff_exists.mp hlisted
          rw [hsteps, Option.bind_some, Option.map_some]
          refine congrArg some (Std.ExtTreeMap.ext_getElem? fun j => ?_)
          have hat := resultAt_of_ok hok h j
          rw [resultAt_eq, hresults, Option.bind_some, ParsedTxs.stepAt, hsteps,
            Option.bind_some] at hat
          rw [BTreeMap.get?_filterMap, ← hat]
          cases results[j]? <;> rfl
    · rw [resultsOf, resultsOf, retainSlot_other q hs]

/-- A registration that returns `Ok` overwrites its slot: at its slot there are the results of
the steps, every other slot has the results it had, no record is lost, and the same
steps in any order change nothing then. -/
theorem registered_slot_replaced
    (hok : p.registerSlotTransactions slot slotTxs = (q, .ok ())) :
    (∀ h i, q.resultAt slot h i = (slotTxs.stepAt h i).map ParsedTxStep.result) ∧
    (∀ s, s ≠ slot → ∀ h i, q.resultAt s h i = p.resultAt s h i) ∧
    (∀ h, (p.record h).isSome = true → (q.record h).isSome = true) ∧
    ∀ slotTxs' : ParsedTxs, HashMap.Same slotTxs slotTxs' →
      ∃ q', q.registerSlotTransactions slot slotTxs' = (q', .ok ()) ∧ q.Same q' := by
  refine ⟨resultAt_of_ok hok, fun s hs h i => ?_, fun h hp => ?_, fun slotTxs' hsame => ?_⟩
  · have hother := registerSlotTransactions_other p slot slotTxs (Ne.symm hs)
    rw [hok] at hother
    rw [resultAt, resultAt, hother]
  · have hknown := registerSlotTransactions_known p slot slotTxs hp
    rw [hok] at hknown
    exact hknown
  · have hretained := retainSlot_same_of_ok hok hsame
    have hsettled : ∀ e ∈ ParsedTxs.inOrder slotTxs', Settled (q.retainSlot slot slotTxs') slot e := by
      intro e he
      have hmem : e ∈ slotTxs.inOrder := by
        rw [ParsedTxs.mem_inOrder, ParsedTxs.stepAt, hsame.lookup e.1, ← ParsedTxs.stepAt]
        exact ParsedTxs.mem_inOrder.mp he
      exact (settled_of_ok hok hmem).of_same hretained
    obtain ⟨q', hrun, hq'⟩ := registerEntries_settled hsettled
    exact ⟨q', (registerSlotTransactions_eq q slot slotTxs').trans hrun, hretained.trans hq'⟩

end

/-! A slot with the results of two hashes, of which one is executed at another place
and with another result, and the other is not executed any more. -/

def slotBefore : DefaultTxParser :=
  (new.registerSlotTransactions 7
    ((ParsedTxs.addStep ∅ 1 0 (.smallTx (bareTx 1) none)).addStep 2 1 (.bigTx none))).1

def slotAfter : ParsedTxs := ParsedTxs.addStep ∅ 1 3 (.smallTx (bareTx 1) (some .default))

theorem slotBefore_replaced :
    (∀ h i, (slotBefore.registerSlotTransactions 7 slotAfter).1.resultAt 7 h i
      = (slotAfter.stepAt h i).map ParsedTxStep.result) ∧
    (∀ s, s ≠ 7 → ∀ h i, (slotBefore.registerSlotTransactions 7 slotAfter).1.resultAt s h i
      = slotBefore.resultAt s h i) ∧
    (∀ h, (slotBefore.record h).isSome = true →
      ((slotBefore.registerSlotTransactions 7 slotAfter).1.record h).isSome = true) ∧
    ∀ slotTxs' : ParsedTxs, HashMap.Same slotAfter slotTxs' →
      ∃ q', (slotBefore.registerSlotTransactions 7 slotAfter).1.registerSlotTransactions 7 slotTxs'
          = (q', .ok ()) ∧
        (slotBefore.registerSlotTransactions 7 slotAfter).1.Same q' :=
  registered_slot_replaced (Prod.ext rfl (by decide))

end DefaultTxParser

end RomeSdk
