import RomeSdk.Proofs.SameAnswers
import RomeSdk.Proofs.SlotReplacement

/-!
# Results refer to known transactions

A step makes the record of its hash before its result is filed, and a
registration takes no record away. So as long as nothing is pruned, every hash
listed at a slot has a record, whichever calls ended early, and `is_slot_complete`
finds each transaction it looks up. It and `finalize_slot` look at the same records:
the one stops at the first that is not complete, the other fails there or before.
-/

namespace RomeSdk

namespace DefaultTxParser

/-- Every hash listed at a slot has a record. -/
def Known (p : DefaultTxParser) : Prop :=
  ∀ slot hash, (p.resultsOf slot hash).isSome = true → (p.record hash).isSome = true

theorem new_known : new.Known := by
  intro slot hash h
  simp [resultsOf, new] at h

theorem Known.of_same {p q : DefaultTxParser} (h : p.Known) (hsame : p.Same q) : q.Known := by
  obtain ⟨hrecord, _, hresults⟩ := same_iff.mp hsame
  intro slot hash hlisted
  rw [← hresults] at hlisted
  rw [← hrecord]
  exact h slot hash hlisted

theorem Known.registerStep {p : DefaultTxParser} (h : p.Known) (slot : Slot) (hash : TxHash)
    (txIdx : Nat) (step : ParsedTxStep) : (p.registerStep slot hash txIdx step).1.Known := by
  intro s hash' hlisted
  by_cases hh : hash = hash'
  · rw [registerStep_record, if_pos hh]
    exact recordStep_isSome _ _
  · refine registerStep_known slot (h s hash' ?_)
    rcases registerStep_resultsBySlot p slot hash txIdx step with hsame | hfiled
    · rw [resultsOf, hsame] at hlisted
      exact hlisted
    · by_cases hs : slot = s
      · subst hs
        rw [resultsOf, hfiled, ← resultsOf, recordResult_resultsOf, if_neg hh] at hlisted
        exact hlisted
      · rw [resultsOf, hfiled, recordResult_other p hs] at hlisted
        exact hlisted

theorem Known.retainSlot {p : DefaultTxParser} (h : p.Known) (slot : Slot) (slotTxs : ParsedTxs) :
    (p.retainSlot slot slotTxs).Known := by
  intro s hash hlisted
  refine h s hash ?_
  by_cases hs : slot = s
  · subst hs
    rw [retainSlot_resultsOf] at hlisted
    cases hresults : p.resultsOf slot hash with
    | none => rw [hresults] at hlisted; cases hlisted
    | some results => rfl
  · rw [resultsOf, retainSlot_other p hs] at hlisted
    exact hlisted

/-- A registration keeps the transactions known, also one that is left half-way. -/
theorem Known.register {p : DefaultTxParser} (h : p.Known) (slot : Slot) (slotTxs : ParsedTxs) :
    (p.registerSlotTransactions slot slotTxs).1.Known := by
  rw [registerSlotTransactions_eq]
  exact forTry_invariant (P := Known) (fun q e _ hq => hq.registerStep slot e.1 e.2.1 e.2.2)
    (h.retainSlot slot slotTxs)

/-- A call that prunes nothing. -/
def Registers (_ : DefaultTxParser) (op : ParserOp) : Prop := ∀ fromSlot, op ≠ .retainFromSlot fromSlot

theorem known_of_run {tr : List (DefaultTxParser × ParserOp)} {p : DefaultTxParser}
    (hrun : Machine.Run freshParser tr p) (hregisters : Machine.Meets Registers tr) : p.Known := by
  refine Machine.Run.invariant (I := Known) ?_ ?_ hrun hregisters
  · rintro s rfl
    exact new_known
  · intro s op t hs hop hstep
    cases op with
    | register slot slotTxs =>
        obtain ⟨_, rfl⟩ := hstep
        exact hs.register slot slotTxs
    | retainFromSlot fromSlot => exact absurd rfl (hop fromSlot)
    | rehash => exact hs.of_same hstep

/-! ## The two loops -/

theorem Known.record {p : DefaultTxParser} (h : p.Known) {slot : Slot} {hash : TxHash} {i : Nat}
    (hresult : (p.resultAt slot hash i).isSome = true) : (p.record hash).isSome = true := by
  refine h slot hash ?_
  rw [resultAt_eq] at hresult
  cases hresults : p.resultsOf slot hash with
  | none => rw [hresults] at hresult; cases hresult
  | some results => rfl

/-- Where the transactions are known, `is_slot_complete` does not panic. -/
theorem Known.isSlotComplete {p : DefaultTxParser} (h : p.Known) (slot : Slot) :
    ∃ b, p.isSlotComplete slot = .ok b :=
  isSlotComplete_returns fun _ _ _ hresult =>
    Option.isSome_iff_exists.mp (h.record (by rw [hresult]; rfl))

/-- A record that is there and complete. -/
def HasComplete (p : DefaultTxParser) (hash : TxHash) : Prop :=
  ∃ tx, p.record hash = some tx ∧ tx.isDataComplete = true

theorem hasComplete_of_finalizeTx {X : Crates} {p : DefaultTxParser} {hash : TxHash}
    {l : List (Nat × Option TxResult)} {results results' : Finalized}
    (h : finalizeTx X p hash l results = .ok results') {i : Nat} {r : TxResult}
    (hmem : (i, some r) ∈ l) : p.HasComplete hash := by
  induction l with
  | nil => cases hmem
  | cons e l ih =>
      obtain ⟨j, _ | s⟩ := e
      · rcases List.mem_cons.mp hmem with heq | hmem
        · cases heq
        · exact ih h hmem
      · rw [finalizeTx] at h
        cases hrec : p.record hash with
        | none => rw [hrec] at h; cases h
        | some tx =>
            rw [hrec] at h
            cases hcomplete : tx.isDataComplete with
            | false => simp [hcomplete] at h
            | true => exact ⟨tx, hrec, hcomplete⟩

theorem hasComplete_of_finalizeTxs {X : Crates} {p : DefaultTxParser}
    {l : List (Sigma fun _ : TxHash => TxResults)} : ∀ {results results' : Finalized},
      finalizeTxs X p l results = .ok results' → ∀ e ∈ l, ∀ i r, (i, some r) ∈ e.2.toList →
        p.HasComplete e.1 := by
  induction l with
  | nil => intro _ _ _ e he; cases he
  | cons d l ih =>
      intro results results' h e he i r hmem
      obtain ⟨hash, txResults⟩ := d
      rw [finalizeTxs] at h
      cases hfirst : finalizeTx X p hash txResults.toList results with
      | error err => rw [hfirst] at h; cases h
      | ok results₁ =>
          rw [hfirst] at h
          rcases List.mem_cons.mp he with rfl | he
          · exact hasComplete_of_finalizeTx hfirst hmem
          · exact ih h e he i r hmem

/-- What `finalize_slot` returns, it returns of a slot that counts as complete. -/
theorem isSlotComplete_of_finalizeSlot {X : Crates} {p : DefaultTxParser} {slot : Slot}
    {l : List (Transaction × TxResult)} (h : p.finalizeSlot X slot = .ok l) :
    p.isSlotComplete slot = .ok true := by
  refine isSlotComplete_iff.mpr fun hash i r hat => ?_
  rw [finalizeSlot] at h
  cases hslot : p.resultsBySlot[slot]? with
  | none =>
      rw [resultAt, hslot] at hat
      cases hat
  | some slotTxs =>
      rw [resultAt, hslot, Option.bind_some] at hat
      obtain ⟨results, hlookup, hresult⟩ := Option.bind_eq_some_iff.mp hat
      rw [hslot] at h
      cases hrun : finalizeTxs X p slotTxs.entries ∅ with
      | error e =>
          simp only [hrun] at h
          cases h
      | ok results' =>
          exact hasComplete_of_finalizeTxs hrun ⟨hash, results⟩
            ((HashMap.mem_entries slotTxs hash results).mpr hlookup) i r
            ((BTreeMap.mem_toList results i _).mpr hresult)

theorem build_error {X : Crates} {tx : EvmTx} {e : RomeEvmError} (h : tx.build X = .error e)
    (message : String) : e ≠ .custom message := by
  rintro rfl
  cases tx with
  | smallEvmTx transaction => cases h
  | bigEvmTx buffer pieces =>
      simp only [EvmTx.build, decodeTransactionFromRlp] at h
      split at h
      · cases h
      · split at h
        · split at h
          · cases h
          · cases h
        · cases h

/-- A hash with a complete record is finalized, or its data cannot be decoded. -/
theorem finalizeTx_error {X : Crates} {p : DefaultTxParser} {hash : TxHash}
    {l : List (Nat × Option TxResult)} {results : Finalized} {e : RomeEvmError}
    (hcomplete : ∀ i r, (i, some r) ∈ l → p.HasComplete hash)
    (h : finalizeTx X p hash l results = .error e) (message : String) : e ≠ .custom message := by
  induction l with
  | nil => cases h
  | cons d l ih =>
      obtain ⟨j, _ | s⟩ := d
      · exact ih (fun i r hmem => hcomplete i r (List.mem_cons_of_mem _ hmem)) h
      · obtain ⟨tx, hrec, hdone⟩ := hcomplete j s List.mem_cons_self
        rw [finalizeTx, hrec] at h
        simp only [hdone, if_true] at h
        cases hbuild : tx.build X with
        | ok t => rw [hbuild] at h; cases h
        | error err =>
            rw [hbuild] at h
            cases h
            exact build_error hbuild message

theorem finalizeTxs_error {X : Crates} {p : DefaultTxParser}
    {l : List (Sigma fun _ : TxHash => TxResults)} {e : RomeEvmError} : ∀ {results : Finalized},
      (∀ d ∈ l, ∀ i r, (i, some r) ∈ d.2.toList → p.HasComplete d.1) →
        finalizeTxs X p l results = .error e → ∀ message, e ≠ .custom message := by
  induction l with
  | nil => intro _ _ h; cases h
  | cons d l ih =>
      intro results hcomplete h message
      obtain ⟨hash, txResults⟩ := d
      rw [finalizeTxs] at h
      cases hfirst : finalizeTx X p hash txResults.toList results with
      | error err =>
          rw [hfirst] at h
          cases h
          exact finalizeTx_error (hcomplete _ List.mem_cons_self) hfirst message
      | ok results₁ =>
          rw [hfirst] at h
          exact ih (fun d hd => hcomplete d (List.mem_cons_of_mem _ hd)) h message

/-- The two messages about a record are those of a slot that is not complete. -/
theorem finalizeSlot_error_of_complete {X : Crates} {p : DefaultTxParser} {slot : Slot}
    (hcomplete : p.isSlotComplete slot = .ok true) (message : String) :
    p.finalizeSlot X slot ≠ .error (.custom message) := by
  intro h
  rw [finalizeSlot] at h
  cases hslot : p.resultsBySlot[slot]? with
  | none => rw [hslot] at h; cases h
  | some slotTxs =>
      rw [hslot] at h
      have hall : ∀ d ∈ slotTxs.entries, ∀ i r, (i, some r) ∈ d.2.toList →
          p.HasComplete d.1 := by
        intro d hd i r hmem
        exact isSlotComplete_iff.mp hcomplete d.1 i r (resultAt_of_entry hslot hd hmem)
      cases hrun : finalizeTxs X p slotTxs.entries ∅ with
      | ok results =>
          simp only [hrun] at h
          cases h
      | error e =>
          simp only [hrun] at h
          cases h
          exact finalizeTxs_error hall hrun message rfl

/-- After any registrations: a hash with a result has a record, so that `is_slot_complete`
returns; `finalize_slot` fails for a record that is missing or not complete only where it
says false, and returns nothing there. -/
theorem completeness_checks_agree {tr : List (DefaultTxParser × ParserOp)} {p : DefaultTxParser}
    (hrun : Machine.Run freshParser tr p) (hregisters : Machine.Meets Registers tr) :
    (∀ slot hash i, (p.resultAt slot hash i).isSome = true → (p.record hash).isSome = true) ∧
    ∀ slot, (∃ b, p.isSlotComplete slot = .ok b) ∧ ∀ X,
      (∀ hash, p.finalizeSlot X slot
            = .error (.custom ("Tx " ++ hashDebug hash ++ " data is not complete ")) ∨
          p.finalizeSlot X slot
            = .error (.custom ("Tx " ++ hashDebug hash ++ " not found by hash")) →
        p.isSlotComplete slot = .ok false) ∧
      (p.isSlotComplete slot = .ok false → ∀ l, p.finalizeSlot X slot ≠ .ok l) := by
  have hknown := known_of_run hrun hregisters
  refine ⟨fun slot hash i h => hknown.record h, fun slot => ?_⟩
  obtain ⟨b, hb⟩ := hknown.isSlotComplete slot
  refine ⟨⟨b, hb⟩, fun X => ⟨fun hash h => ?_, fun hfalse l hl => ?_⟩⟩
  · cases b with
    | false => exact hb
    | true => exact (h.elim (finalizeSlot_error_of_complete hb _)
        (finalizeSlot_error_of_complete hb _)).elim
  · rw [isSlotComplete_of_finalizeSlot hl] at hfalse
    cases hfalse

/-! The second registration is left half-way, at a chunk for a small transaction. -/

def halfWay : DefaultTxParser := (knownSmall.registerSlotTransactions 8 chunkForSmall).1

theorem completeness_checks_agree_halfWay :
    (∀ slot hash i, (halfWay.resultAt slot hash i).isSome = true →
      (halfWay.record hash).isSome = true) ∧
    ∀ slot, (∃ b, halfWay.isSlotComplete slot = .ok b) ∧ ∀ X,
      (∀ hash, halfWay.finalizeSlot X slot
            = .error (.custom ("Tx " ++ hashDebug hash ++ " data is not complete ")) ∨
          halfWay.finalizeSlot X slot
            = .error (.custom ("Tx " ++ hashDebug hash ++ " not found by hash")) →
        halfWay.isSlotComplete slot = .ok false) ∧
      (halfWay.isSlotComplete slot = .ok false → ∀ l, halfWay.finalizeSlot X slot ≠ .ok l) :=
  completeness_checks_agree
    (parserFrom_register (parserFrom_register (.start rfl) 7 _ (by decide)) 8 chunkForSmall
      (by decide))
    (by
      intro e he fromSlot
      rcases List.mem_cons.mp he with rfl | he
      · exact ParserOp.noConfusion
      · rw [List.mem_singleton.mp he]
        exact ParserOp.noConfusion)

end DefaultTxParser

end RomeSdk
