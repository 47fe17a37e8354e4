import Mathlib.Data.List.TakeWhile
import RomeSdk.Proofs.ParserRuns
import RomeSdk.Proofs.StandIns

/-!
# What a registration leaves behind

`registerSlotTransactions` is a loop over the steps of the slot that is left on
the first error. Two things are followed through it. The record of a hash
changes through the steps of that hash alone (`RecordStep`), and whether it is
a small or a big one is settled before the call or by its first step. The
results of the slot are those of the steps the loop got to, on top of what the
retaining phase kept. Together they say where the loop stops and what is
missing then.
-/

namespace RomeSdk

namespace DefaultTxParser

/-- The body of the two nested loops, on a step with its hash and index. -/
def registerEntry (slot : Slot) (p : DefaultTxParser) (e : TxHash × Nat × ParsedTxStep) :
    DefaultTxParser × Outcome Unit :=
  p.registerStep slot e.1 e.2.1 e.2.2

theorem registerSlotTransactions_eq (p : DefaultTxParser) (slot : Slot) (slotTxs : ParsedTxs) :
    p.registerSlotTransactions slot slotTxs
      = forTry (registerEntry slot) slotTxs.inOrder (p.retainSlot slot slotTxs) := by
  rw [registerSlotTransactions, registerTxs, ParsedTxs.inOrder, ← forTry_flatMap]
  congr 1
  funext p e
  rw [registerSteps, forTry_map]
  rfl

/-! ## The record of a hash -/

/-- What a step does to the record of its hash. -/
def recordStep (o : Option EvmTx) (step : ParsedTxStep) : Option EvmTx × Outcome Unit :=
  match step with
  | .smallTx tx _ => (some (o.getD (.newSmallTx tx)), .ok ())
  | .bigTx _ => (some (o.getD .newBigTx), .ok ())
  | .transmitTx offset data =>
      match (o.getD .newBigTx).updateTxHolder offset data with
      | .ok updated => (some updated, .ok ())
      | .error e => (some (o.getD .newBigTx), .error e)

theorem storeStep_record (p : DefaultTxParser) (hash : TxHash) (step : ParsedTxStep)
    (h : TxHash) : (p.storeStep hash step).1.record h
      = if hash = h then (recordStep (p.record hash) step).1 else p.record h := by
  cases step with
  | smallTx tx r => exact HashMap.lookup_upsert _ _ _ _
  | bigTx r => exact HashMap.lookup_upsert _ _ _ _
  | transmitTx offset data =>
      simp only [storeStep, recordStep]
      cases ((p.record hash).getD EvmTx.newBigTx).updateTxHolder offset data with
      | ok updated => exact HashMap.lookup_insert' _ _ _ _
      | error e => exact HashMap.lookup_insert' _ _ _ _

theorem storeStep_outcome (p : DefaultTxParser) (hash : TxHash) (step : ParsedTxStep) :
    (p.storeStep hash step).2 = (recordStep (p.record hash) step).2 := by
  cases step with
  | smallTx tx r => rfl
  | bigTx r => rfl
  | transmitTx offset data =>
      simp only [storeStep, recordStep]
      cases ((p.record hash).getD EvmTx.newBigTx).updateTxHolder offset data <;> rfl

theorem registerStep_record (p : DefaultTxParser) (slot : Slot) (hash : TxHash) (txIdx : Nat)
    (step : ParsedTxStep) (h : TxHash) : (p.registerStep slot hash txIdx step).1.record h
      = if hash = h then (recordStep (p.record hash) step).1 else p.record h := by
  rw [← storeStep_record, registerStep]
  rcases p.storeStep hash step with ⟨p', e | ⟨⟨⟩⟩⟩ <;> rfl

theorem registerStep_outcome (p : DefaultTxParser) (slot : Slot) (hash : TxHash) (txIdx : Nat)
    (step : ParsedTxStep) :
    (p.registerStep slot hash txIdx step).2 = (recordStep (p.record hash) step).2 := by
  rw [← storeStep_outcome, registerStep]
  rcases p.storeStep hash step with ⟨p', e | ⟨⟨⟩⟩⟩ <;> rfl

/-- The steps of one hash among those of a slot, in order. -/
def stepsOf (h : TxHash) (l : List (TxHash × Nat × ParsedTxStep)) : List ParsedTxStep :=
  (l.filter fun e => e.1 = h).map fun e => e.2.2

theorem stepsOf_cons_self (h : TxHash) (i : Nat) (step : ParsedTxStep)
    (l : List (TxHash × Nat × ParsedTxStep)) :
    stepsOf h ((h, i, step) :: l) = step :: stepsOf h l := by
  simp [stepsOf]

theorem stepsOf_cons_ne {h hash : TxHash} (hne : hash ≠ h) (e : Nat × ParsedTxStep)
    (l : List (TxHash × Nat × ParsedTxStep)) : stepsOf h ((hash, e) :: l) = stepsOf h l := by
  simp [stepsOf, hne]

theorem stepsOf_append (h : TxHash) (l l' : List (TxHash × Nat × ParsedTxStep)) :
    stepsOf h (l ++ l') = stepsOf h l ++ stepsOf h l' := by
  simp [stepsOf]

theorem mem_stepsOf {h : TxHash} {slotTxs : ParsedTxs} {step : ParsedTxStep} :
    step ∈ stepsOf h slotTxs.inOrder ↔ ∃ i, slotTxs.stepAt h i = some step := by
  simp only [stepsOf, List.mem_map, List.mem_filter, decide_eq_true_eq]
  constructor
  · rintro ⟨⟨h', i, step'⟩, ⟨hin, rfl⟩, rfl⟩
    exact ⟨i, ParsedTxs.mem_inOrder.mp hin⟩
  · rintro ⟨i, hstep⟩
    exact ⟨(h, i, step), ⟨ParsedTxs.mem_inOrder.mpr hstep, rfl⟩, rfl⟩

/-- A loop that runs through takes the record of every hash through all of its steps. -/
theorem registerEntry_record_ok {slot : Slot} (h : TxHash)
    (l : List (TxHash × Nat × ParsedTxStep)) : ∀ {p q : DefaultTxParser},
      forTry (registerEntry slot) l p = (q, .ok ()) →
        forTry recordStep (stepsOf h l) (p.record h) = (q.record h, .ok ()) := by
  induction l with
  | nil =>
      intro p q hrun
      cases hrun
      rfl
  | cons e l ih =>
      intro p q hrun
      obtain ⟨hash, i, step⟩ := e
      obtain ⟨p₁, hb, hrest⟩ := forTry_cons_inv hrun
      have hrec := registerStep_record p slot hash i step h
      have hout := registerStep_outcome p slot hash i step
      change p.registerStep slot hash i step = (p₁, .ok ()) at hb
      rw [hb] at hrec hout
      by_cases hh : hash = h
      · subst hh
        rw [if_pos rfl] at hrec
        have hstep : recordStep (p.record hash) step = (p₁.record hash, .ok ()) :=
          Prod.ext hrec.symm hout.symm
        rw [stepsOf_cons_self, forTry_cons_ok hstep]
        exact ih hrest
      · rw [if_neg hh] at hrec
        change p₁.record h = p.record h at hrec
        rw [stepsOf_cons_ne hh, ← hrec]
        exact ih hrest

theorem retainSlot_record (p : DefaultTxParser) (slot : Slot) (slotTxs : ParsedTxs)
    (h : TxHash) : (p.retainSlot slot slotTxs).record h = p.record h := rfl

/-- Whatever becomes of a call, the record of a hash is what some first steps of
that hash leave, all of them if the call succeeds. -/
theorem registerSlotTransactions_record (p : DefaultTxParser) (slot : Slot)
    (slotTxs : ParsedTxs) (h : TxHash) :
    ∃ done, done <+: stepsOf h slotTxs.inOrder ∧
      (p.registerSlotTransactions slot slotTxs).1.record h
        = (forTry recordStep done (p.record h)).1 ∧
      ((p.registerSlotTransactions slot slotTxs).2 = .ok () →
        done = stepsOf h slotTxs.inOrder ∧ (forTry recordStep done (p.record h)).2 = .ok ()) := by
  rw [registerSlotTransactions_eq]
  rcases forTry_split (registerEntry slot) slotTxs.inOrder (p.retainSlot slot slotTxs) with
    ⟨q, hrun⟩ | ⟨done, ⟨hash, i, step⟩, rest, p₁, q, e, hl, hdone, hstop, hrun⟩
  · have hrec := registerEntry_record_ok h _ hrun
    rw [retainSlot_record] at hrec
    refine ⟨_, List.prefix_rfl, ?_, ?_⟩
    · rw [hrun, hrec]
    · intro _
      exact ⟨rfl, by rw [hrec]⟩
  · have hrec := registerEntry_record_ok h _ hdone
    rw [retainSlot_record] at hrec
    have hlast := registerStep_record p₁ slot hash i step h
    have hout := registerStep_outcome p₁ slot hash i step
    change p₁.registerStep slot hash i step = (q, .error e) at hstop
    rw [hstop] at hlast hout
    rw [hrun, hl, stepsOf_append]
    by_cases hh : hash = h
    · subst hh
      rw [if_pos rfl] at hlast
      have hstep : recordStep (p₁.record hash) step = (q.record hash, .error e) :=
        Prod.ext hlast.symm hout.symm
      refine ⟨stepsOf hash done ++ [step], ?_, ?_, ?_⟩
      · rw [stepsOf_cons_self]
        exact ⟨stepsOf hash rest, by simp⟩
      · rw [forTry_append_ok _ hrec, forTry_cons_error hstep]
      · intro hok
        cases hok
    · rw [if_neg hh] at hlast
      refine ⟨stepsOf h done, List.prefix_append _ _, ?_, ?_⟩
      · rw [hrec]
        exact hlast
      · intro hok
        cases hok

/-! ## The results of a slot -/

theorem storeStep_resultAt (p : DefaultTxParser) (hash : TxHash) (step : ParsedTxStep)
    (slot : Slot) (h : TxHash) (i : Nat) :
    (p.storeStep hash step).1.resultAt slot h i = p.resultAt slot h i := by
  cases step with
  | smallTx tx r => rfl
  | bigTx r => rfl
  | transmitTx offset data =>
      simp only [storeStep]
      cases ((p.record hash).getD EvmTx.newBigTx).updateTxHolder offset data <;> rfl

theorem recordResult_resultAt (p : DefaultTxParser) (slot : Slot) (hash : TxHash) (txIdx : Nat)
    (r : Option TxResult) (h : TxHash) (i : Nat) :
    (p.recordResult slot hash txIdx r).resultAt slot h i
      = if hash = h ∧ txIdx = i then some ((p.resultAt slot h i).getD r)
        else p.resultAt slot h i := by
  simp only [resultAt, recordResult, BTreeMap.get?_upsert, if_true, Option.bind_some,
    HashMap.lookup_upsert]
  by_cases hh : hash = h
  · subst hh
    simp only [if_true, true_and, Option.bind_some, BTreeMap.get?_insertIfNew]
    cases hslot : p.resultsBySlot[slot]? with
    | none => simp
    | some txs =>
        simp only [Option.getD_some, Option.bind_some]
        cases hlookup : AList.lookup hash txs with
        | none => simp
        | some results => simp only [Option.getD_some, Option.bind_some]; split <;> simp_all
  · simp only [hh, if_false, false_and]
    cases hslot : p.resultsBySlot[slot]? with
    | none => simp
    | some txs => simp

theorem retainSlot_resultAt (p : DefaultTxParser) (slot : Slot) (slotTxs : ParsedTxs)
    (h : TxHash) (i : Nat) : (p.retainSlot slot slotTxs).resultAt slot h i
      = (p.resultAt slot h i).bind fun _ => (slotTxs.stepAt h i).map ParsedTxStep.result := by
  simp only [resultAt, retainSlot, ParsedTxs.stepAt, Std.ExtTreeMap.getElem?_modify,
    Std.ReflCmp.compare_self, if_true]
  cases p.resultsBySlot[slot]? with
  | none => rfl
  | some txs =>
      simp only [Option.map_some, Option.bind_some, retainResults, HashMap.lookup_filterMap]
      cases AList.lookup h txs with
      | none => rfl
      | some results =>
          simp only [Option.bind_some]
          cases AList.lookup h slotTxs with
          | none => simp
          | some steps =>
              simp only [Option.map_some, Option.bind_some, BTreeMap.get?_filterMap]

theorem registerStep_resultAt {p q : DefaultTxParser} {slot : Slot} {hash : TxHash}
    {txIdx : Nat} {step : ParsedTxStep}
    (hrun : p.registerStep slot hash txIdx step = (q, .ok ())) (h : TxHash) (i : Nat) :
    q.resultAt slot h i
      = if hash = h ∧ txIdx = i then some ((p.resultAt slot h i).getD step.result)
        else p.resultAt slot h i := by
  have hstore := storeStep_resultAt p hash step slot h i
  simp only [registerStep] at hrun
  rcases hs : p.storeStep hash step with ⟨p', e | ⟨⟨⟩⟩⟩
  · rw [hs] at hrun
    cases hrun
  · rw [hs] at hrun hstore
    cases hrun
    rw [recordResult_resultAt, hstore]

theorem registerStep_resultAt_error {p q : DefaultTxParser} {slot : Slot} {hash : TxHash}
    {txIdx : Nat} {step : ParsedTxStep} {e : Failure}
    (hrun : p.registerStep slot hash txIdx step = (q, .error e)) (h : TxHash) (i : Nat) :
    q.resultAt slot h i = p.resultAt slot h i := by
  have hstore := storeStep_resultAt p hash step slot h i
  simp only [registerStep] at hrun
  rcases hs : p.storeStep hash step with ⟨p', e | ⟨⟨⟩⟩⟩
  · rw [hs] at hrun hstore
    cases hrun
    exact hstore
  · rw [hs] at hrun
    cases hrun

/-- After the steps `l`, an entry that was there is as it was, and another is
that of the step of `l` at its place, if there is one. -/
theorem registerEntry_resultAt_ok {slot : Slot} (l : List (TxHash × Nat × ParsedTxStep)) :
    ∀ {p q : DefaultTxParser}, forTry (registerEntry slot) l p = (q, .ok ()) →
      ∀ h i, (∀ r, p.resultAt slot h i = some r → q.resultAt slot h i = some r) ∧
        (p.resultAt slot h i = none → (∀ step, (h, i, step) ∉ l) →
          q.resultAt slot h i = none) ∧
        (p.resultAt slot h i = none → (l.map fun e => (e.1, e.2.1)).Nodup →
          ∀ step, (h, i, step) ∈ l → q.resultAt slot h i = some step.result) := by
  induction l with
  | nil =>
      intro p q hrun h i
      cases hrun
      refine ⟨fun r hr => hr, fun hnone _ => hnone, ?_⟩
      intro _ _ step hmem
      cases hmem
  | cons e l ih =>
      intro p q hrun h i
      obtain ⟨hash, j, step⟩ := e
      obtain ⟨p₁, hb, hrest⟩ := forTry_cons_inv hrun
      have hat := registerStep_resultAt hb h i
      obtain ⟨hkeep, hskip, hadd⟩ := ih hrest h i
      refine ⟨?_, ?_, ?_⟩
      · intro r hr
        refine hkeep r ?_
        rw [hat, hr]
        split <;> rfl
      · intro hnone hnot
        refine hskip ?_ fun step' hmem => hnot step' (List.mem_cons_of_mem _ hmem)
        rw [hat, if_neg, hnone]
        intro ⟨hh, hi⟩
        subst hh
        subst hi
        exact hnot step (List.mem_cons_self ..)
      · intro hnone hnodup step' hmem
        rw [List.map_cons, List.nodup_cons] at hnodup
        rcases List.mem_cons.mp hmem with heq | hmem
        · cases heq
          refine hkeep _ ?_
          rw [hat, if_pos ⟨rfl, rfl⟩, hnone]
          rfl
        · refine hadd ?_ hnodup.2 step' hmem
          rw [hat, if_neg, hnone]
          intro ⟨hh, hi⟩
          subst hh
          subst hi
          exact hnodup.1 (List.mem_map.mpr ⟨_, hmem, rfl⟩)

theorem storeStep_resultsBySlot (p : DefaultTxParser) (hash : TxHash) (step : ParsedTxStep) :
    (p.storeStep hash step).1.resultsBySlot = p.resultsBySlot := by
  cases step with
  | smallTx tx r => rfl
  | bigTx r => rfl
  | transmitTx offset data =>
      simp only [storeStep]
      cases ((p.record hash).getD EvmTx.newBigTx).updateTxHolder offset data <;> rfl

/-- A step leaves the results alone, or files its own. -/
theorem registerStep_resultsBySlot (p : DefaultTxParser) (slot : Slot) (hash : TxHash)
    (txIdx : Nat) (step : ParsedTxStep) :
    (p.registerStep slot hash txIdx step).1.resultsBySlot = p.resultsBySlot ∨
      (p.registerStep slot hash txIdx step).1.resultsBySlot
        = (p.recordResult slot hash txIdx step.result).resultsBySlot := by
  have hstore := storeStep_resultsBySlot p hash step
  rw [registerStep]
  rcases hs : p.storeStep hash step with ⟨p', e | ⟨⟨⟩⟩⟩ <;> rw [hs] at hstore
  · exact Or.inl hstore
  · right
    simp only [recordResult, show p'.resultsBySlot = p.resultsBySlot from hstore]

theorem recordResult_other (p : DefaultTxParser) {slot s : Slot} (hne : slot ≠ s) (hash : TxHash)
    (txIdx : Nat) (r : Option TxResult) :
    (p.recordResult slot hash txIdx r).resultsBySlot[s]? = p.resultsBySlot[s]? := by
  rw [recordResult, BTreeMap.get?_upsert, if_neg hne]

theorem retainSlot_other (p : DefaultTxParser) {slot s : Slot} (hne : slot ≠ s)
    (slotTxs : ParsedTxs) :
    (p.retainSlot slot slotTxs).resultsBySlot[s]? = p.resultsBySlot[s]? := by
  have hcmp : compare slot s ≠ .eq := fun heq => hne (Std.LawfulEqCmp.compare_eq_iff_eq.mp heq)
  rw [retainSlot, Std.ExtTreeMap.getElem?_modify, if_neg hcmp]

/-- A call writes no other slot. -/
theorem registerSlotTransactions_other (p : DefaultTxParser) (slot : Slot) (slotTxs : ParsedTxs)
    {s : Slot} (hne : slot ≠ s) :
    (p.registerSlotTransactions slot slotTxs).1.resultsBySlot[s]? = p.resultsBySlot[s]? := by
  rw [registerSlotTransactions_eq]
  refine forTry_invariant
    (P := fun q : DefaultTxParser => q.resultsBySlot[s]? = p.resultsBySlot[s]?) ?_
    (retainSlot_other p hne slotTxs)
  intro q e _ hq
  rcases registerStep_resultsBySlot q slot e.1 e.2.1 e.2.2 with hsame | hfiled
  · rw [registerEntry, hsame, hq]
  · rw [registerEntry, hfiled, recordResult_other q hne, hq]

/-! ## Where the loop stops -/

def isSmall : Option EvmTx → Bool
  | some (.smallEvmTx _) => true
  | _ => false

/-- Whether a hash with this record and these steps has a small record from its
first step on. -/
def startsSmall (o : Option EvmTx) (steps : List ParsedTxStep) : Bool :=
  match o, steps.head? with
  | none, some (.smallTx _ _) => true
  | o, _ => isSmall o

/-- A chunk that `registerSlotTransactions` cannot file: the record of its hash
is a small one, from before or because the call lists a `SmallTx` step first. -/
def refused (p : DefaultTxParser) (slotTxs : ParsedTxs) (e : TxHash × Nat × ParsedTxStep) : Bool :=
  match e.2.2 with
  | .transmitTx _ _ => startsSmall (p.record e.1) (stepsOf e.1 slotTxs.inOrder)
  | _ => false

theorem isSmall_updateTxHolder {tx tx' : EvmTx} {offset : Nat} {data : Bytes}
    (h : tx.updateTxHolder offset data = .ok tx') :
    isSmall (some tx) = false ∧ isSmall (some tx') = false := by
  cases tx with
  | smallEvmTx transaction => cases h
  | bigEvmTx buffer pieces =>
      refine ⟨rfl, ?_⟩
      simp only [EvmTx.updateTxHolder] at h
      split at h
      · cases h
        rfl
      · split at h
        · cases h
        · split at h
          · cases h
          · cases h
            rfl

/-- Everything a step that succeeds does to a record. -/
theorem recordStep_cases {o o' : Option EvmTx} {step : ParsedTxStep}
    (h : recordStep o step = (o', .ok ())) :
    (∃ tx r, step = .smallTx tx r ∧ o' = some (o.getD (.newSmallTx tx))) ∨
      (∃ r, step = .bigTx r ∧ o' = some (o.getD .newBigTx)) ∨
      ∃ offset data updated, step = .transmitTx offset data ∧
        (o.getD .newBigTx).updateTxHolder offset data = .ok updated ∧ o' = some updated := by
  cases step with
  | smallTx tx r =>
      cases h
      exact Or.inl ⟨tx, r, rfl, rfl⟩
  | bigTx r =>
      cases h
      exact Or.inr (Or.inl ⟨r, rfl, rfl⟩)
  | transmitTx offset data =>
      simp only [recordStep] at h
      cases hup : (o.getD EvmTx.newBigTx).updateTxHolder offset data with
      | error e =>
          rw [hup] at h
          cases h
      | ok updated =>
          rw [hup] at h
          cases h
          exact Or.inr (Or.inr ⟨offset, data, updated, rfl, hup, rfl⟩)

theorem isSmall_of_run_some (steps : List ParsedTxStep) : ∀ {tx : EvmTx} {o' : Option EvmTx},
    forTry recordStep steps (some tx) = (o', .ok ()) → isSmall o' = isSmall (some tx) := by
  induction steps with
  | nil =>
      intro tx o' h
      cases h
      rfl
  | cons step steps ih =>
      intro tx o' h
      obtain ⟨o₁, hstep, hrest⟩ := forTry_cons_inv h
      rcases recordStep_cases hstep with ⟨t, r, rfl, rfl⟩ | ⟨r, rfl, rfl⟩ |
        ⟨offset, data, updated, rfl, hup, rfl⟩
      · exact ih hrest
      · exact ih hrest
      · rw [ih hrest, (isSmall_updateTxHolder hup).2]
        exact (isSmall_updateTxHolder hup).1.symm

/-- Whether a record is a small one is settled by the record before and the
first step. -/
theorem isSmall_of_run {steps : List ParsedTxStep} {o o' : Option EvmTx}
    (h : forTry recordStep steps o = (o', .ok ())) : isSmall o' = startsSmall o steps := by
  cases o with
  | some tx => exact isSmall_of_run_some steps h
  | none =>
      cases steps with
      | nil =>
          cases h
          rfl
      | cons step steps =>
          obtain ⟨o₁, hstep, hrest⟩ := forTry_cons_inv h
          rcases recordStep_cases hstep with ⟨t, r, rfl, rfl⟩ | ⟨r, rfl, rfl⟩ |
            ⟨offset, data, updated, rfl, hup, rfl⟩
          · exact isSmall_of_run_some steps hrest
          · exact isSmall_of_run_some steps hrest
          · rw [isSmall_of_run_some steps hrest, (isSmall_updateTxHolder hup).2]
            rfl

/-- A holder record refuses no chunk; it only runs out of address space. -/
theorem updateTxHolder_error {tx : EvmTx} {offset : Nat} {data : Bytes} {e : Failure}
    (h : tx.updateTxHolder offset data = .error e) (hbig : isSmall (some tx) = false) :
    ∃ message, e = .panic message := by
  cases tx with
  | smallEvmTx t => cases hbig
  | bigEvmTx buffer pieces =>
      simp only [EvmTx.updateTxHolder] at h
      split at h
      · cases h
      · split at h
        · cases h
          exact ⟨_, rfl⟩
        · split at h
          · cases h
            exact ⟨_, rfl⟩
          · cases h

/-- Of the calls that return, a step fails exactly on a chunk for a small record. -/
theorem recordStep_refused_iff {o : Option EvmTx} {step : ParsedTxStep}
    (h : (recordStep o step).2.returned = true) :
    (recordStep o step).2 ≠ .ok () ↔
      (∃ offset data, step = .transmitTx offset data) ∧ isSmall o = true := by
  cases step with
  | smallTx tx r => simp [recordStep]
  | bigTx r => simp [recordStep]
  | transmitTx offset data =>
      have hkind : isSmall (some (o.getD EvmTx.newBigTx)) = isSmall o := by
        cases o with
        | none => rfl
        | some tx => rfl
      simp only [recordStep] at h ⊢
      cases hup : (o.getD EvmTx.newBigTx).updateTxHolder offset data with
      | ok updated =>
          have hbig := (isSmall_updateTxHolder hup).1
          rw [hkind] at hbig
          simp [hbig]
      | error e =>
          rw [hup] at h
          cases hsmall : isSmall o with
          | true => simp
          | false =>
              obtain ⟨message, rfl⟩ := updateTxHolder_error hup (hkind.trans hsmall)
              cases h

theorem startsSmall_append {o : Option EvmTx} {steps rest : List ParsedTxStep} {offset : Nat}
    {data : Bytes} :
    startsSmall o (steps ++ .transmitTx offset data :: rest) = startsSmall o steps := by
  cases o with
  | some tx => rfl
  | none =>
      cases steps with
      | nil => rfl
      | cons step steps => rfl

/-- Where the steps before went through, the next one fails exactly if it is refused. -/
theorem entry_refused_iff {p p₁ : DefaultTxParser} {slot : Slot} {slotTxs : ParsedTxs}
    {done rest : List (TxHash × Nat × ParsedTxStep)} {e : TxHash × Nat × ParsedTxStep}
    (hl : slotTxs.inOrder = done ++ e :: rest)
    (hdone : forTry (registerEntry slot) done (p.retainSlot slot slotTxs) = (p₁, .ok ()))
    (hret : (registerEntry slot p₁ e).2.returned = true) :
    (registerEntry slot p₁ e).2 ≠ .ok () ↔ refused p slotTxs e = true := by
  obtain ⟨h, i, step⟩ := e
  have hkind := isSmall_of_run (registerEntry_record_ok h _ hdone)
  rw [retainSlot_record] at hkind
  have hout : (registerEntry slot p₁ (h, i, step)).2 = (recordStep (p₁.record h) step).2 :=
    registerStep_outcome p₁ slot h i step
  rw [hout] at hret ⊢
  rw [recordStep_refused_iff hret, hkind]
  cases step with
  | smallTx tx r => simp [refused]
  | bigTx r => simp [refused]
  | transmitTx offset data =>
      simp only [refused]
      rw [hl, stepsOf_append, stepsOf_cons_self, startsSmall_append]
      simp

/-- A call that returns gets as far as the first refused step. -/
theorem registerSlotTransactions_stop {p : DefaultTxParser} {slot : Slot} {slotTxs : ParsedTxs}
    (hret : (p.registerSlotTransactions slot slotTxs).2.returned = true) :
    ∃ done p₁, slotTxs.inOrder
        = done ++ slotTxs.inOrder.dropWhile (fun e => !refused p slotTxs e) ∧
      forTry (registerEntry slot) done (p.retainSlot slot slotTxs) = (p₁, .ok ()) ∧
      ∀ h i, (p.registerSlotTransactions slot slotTxs).1.resultAt slot h i
        = p₁.resultAt slot h i := by
  rw [registerSlotTransactions_eq] at hret ⊢
  have hpassed : ∀ {done rest : List (TxHash × Nat × ParsedTxStep)} {p₁ : DefaultTxParser},
      slotTxs.inOrder = done ++ rest →
      forTry (registerEntry slot) done (p.retainSlot slot slotTxs) = (p₁, .ok ()) →
      ∀ e ∈ done, (!refused p slotTxs e) = true := by
    intro done rest p₁ hl hdone e he
    obtain ⟨d, d', rfl⟩ := List.append_of_mem he
    obtain ⟨p₂, hd, hd'⟩ := forTry_append_inv hdone
    obtain ⟨p₃, he, _⟩ := forTry_cons_inv hd'
    rw [List.append_assoc, List.cons_append] at hl
    have hiff := entry_refused_iff hl hd (by rw [he]; rfl)
    rw [he] at hiff
    simpa using hiff
  rcases forTry_split (registerEntry slot) slotTxs.inOrder (p.retainSlot slot slotTxs) with
    ⟨q, hrun⟩ | ⟨done, e, rest, p₁, q, err, hl, hdone, hstop, hrun⟩
  · have hnone : slotTxs.inOrder.dropWhile (fun e => !refused p slotTxs e) = [] :=
      List.dropWhile_eq_nil_iff.mpr (hpassed (List.append_nil _).symm hrun)
    exact ⟨slotTxs.inOrder, q, by rw [hnone, List.append_nil], hrun, fun h i => by rw [hrun]⟩
  · have hrefused : refused p slotTxs e = true := by
      refine (entry_refused_iff hl hdone ?_).mp ?_
      · rw [hrun] at hret
        rw [hstop]
        exact hret
      · rw [hstop]
        intro hok
        cases hok
    have hdrop : slotTxs.inOrder.dropWhile (fun e => !refused p slotTxs e) = e :: rest := by
      rw [hl, List.dropWhile_append_of_pos (hpassed hl hdone),
        List.dropWhile_cons_of_neg (by simp [hrefused])]
    refine ⟨done, p₁, by rw [hdrop]; exact hl, hdone, ?_⟩
    intro h i
    rw [hrun]
    exact registerStep_resultAt_error hstop h i

/-- The entries of a hash are exactly the results of its steps if and only if
no step of it, from the first refused one on, is new to the slot. -/
theorem resultAt_exact_iff {p : DefaultTxParser} {slot : Slot} {slotTxs : ParsedTxs}
    (hret : (p.registerSlotTransactions slot slotTxs).2.returned = true) (h' : TxHash) :
    (∀ i, (p.registerSlotTransactions slot slotTxs).1.resultAt slot h' i
        = (slotTxs.stepAt h' i).map ParsedTxStep.result) ↔
      ∀ i step, (h', i, step) ∈ slotTxs.inOrder.dropWhile (fun e => !refused p slotTxs e) →
        (p.resultAt slot h' i).isSome = true := by
  obtain ⟨done, p₁, hl, hdone, hsame⟩ := registerSlotTransactions_stop hret
  have hnodup := slotTxs.inOrder_nodup
  rw [hl, List.map_append, List.nodup_append] at hnodup
  obtain ⟨hnodupDone, _, hdisjoint⟩ := hnodup
  have hmem : ∀ i step, slotTxs.stepAt h' i = some step ↔
      (h', i, step) ∈ done ∨
        (h', i, step) ∈ slotTxs.inOrder.dropWhile (fun e => !refused p slotTxs e) := by
    intro i step
    rw [← ParsedTxs.mem_inOrder, ← List.mem_append, ← hl]
  refine ⟨?_, ?_⟩
  · intro hexact i step hrest
    have hstep := (hmem i step).mpr (Or.inr hrest)
    obtain ⟨hkeep, hskip, hadd⟩ := registerEntry_resultAt_ok done hdone h' i
    by_contra hnew
    have hnone : p.resultAt slot h' i = none := by simpa using hnew
    have hskipped : ∀ s, (h', i, s) ∉ done := by
      intro s hs
      exact hdisjoint _ (List.mem_map.mpr ⟨_, hs, rfl⟩) _ (List.mem_map.mpr ⟨_, hrest, rfl⟩) rfl
    have hnone₁ := hskip (by rw [retainSlot_resultAt, hnone]; rfl) hskipped
    have hat := hexact i
    rw [hsame, hnone₁, hstep] at hat
    cases hat
  · intro hknown i
    rw [hsame]
    obtain ⟨hkeep, hskip, hadd⟩ := registerEntry_resultAt_ok done hdone h' i
    cases hstep : slotTxs.stepAt h' i with
    | none =>
        refine hskip ?_ ?_
        · rw [retainSlot_resultAt, hstep]
          simp
        · intro s hs
          have := (hmem i s).mpr (Or.inl hs)
          rw [hstep] at this
          cases this
    | some step =>
        cases hold : p.resultAt slot h' i with
        | some r =>
            refine hkeep _ ?_
            rw [retainSlot_resultAt, hold, hstep]
            rfl
        | none =>
            rcases (hmem i step).mp hstep with hin | hrest
            · refine hadd ?_ hnodupDone step hin
              rw [retainSlot_resultAt, hold]
              rfl
            · have := hknown i step hrest
              rw [hold] at this
              cases this

/-! A chunk sent under the hash of a transaction that was executed directly:
here hash 1 is a known small transaction, and its chunk comes before the step of
hash 2. -/

def knownSmall : DefaultTxParser :=
  (new.registerSlotTransactions 7
    (ParsedTxs.addStep ∅ 1 0 (.smallTx (bareTx 1) (some .default)))).1

def chunkForSmall : ParsedTxs :=
  (ParsedTxs.addStep ∅ 2 1 (.bigTx (some .default))).addStep 1 0 (.transmitTx 0 [])

theorem resultAt_lost : (∃ tr, Machine.Run freshParser tr knownSmall) ∧
    (knownSmall.registerSlotTransactions 8 chunkForSmall).2.returned = true ∧
    ¬ ∀ i, (knownSmall.registerSlotTransactions 8 chunkForSmall).1.resultAt 8 2 i
      = (chunkForSmall.stepAt 2 i).map ParsedTxStep.result := by
  refine ⟨⟨_, parserFrom_register (.start rfl) 7 _ (by decide)⟩, by decide, ?_⟩
  intro hexact
  exact absurd (hexact 1) (by decide)

theorem resultAt_exact_of_known :
    (knownSmall.registerSlotTransactions 7
      (ParsedTxs.addStep ∅ 1 0 (.smallTx (bareTx 1) none))).2.returned = true ∧
    ∀ i, (knownSmall.registerSlotTransactions 7
        (ParsedTxs.addStep ∅ 1 0 (.smallTx (bareTx 1) none))).1.resultAt 7 1 i
      = ((ParsedTxs.addStep ∅ 1 0 (.smallTx (bareTx 1) none)).stepAt 1 i).map
          ParsedTxStep.result :=
  ⟨by decide, (resultAt_exact_iff (by decide) 1).mpr (by
    have hnone : (ParsedTxs.addStep ∅ 1 0 (.smallTx (bareTx 1) none)).inOrder.dropWhile
        (fun e => !refused knownSmall (ParsedTxs.addStep ∅ 1 0 (.smallTx (bareTx 1) none)) e)
          = [] := by decide
    intro i step hmem
    rw [hnone] at hmem
    cases hmem)⟩

end DefaultTxParser

end RomeSdk
