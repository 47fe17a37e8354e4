import RomeSdk.Proofs.Chunks
import RomeSdk.Proofs.Registration

/-!
# How a registration ends

The hash map of a slot's steps may be run through in any order, and the loop is
left on the first error. Each hash has its steps taken in the order of their
indices wherever it comes, and its record is touched by them alone. So a
registration ends well exactly if the run over the steps of each hash does, in
every order or in none, and what it may end with is what some hash's run ends
with: any of these in the order that puts the hash first.
-/

namespace RomeSdk

namespace DefaultTxParser

/-! ## The steps of one hash -/

theorem stepsOf_eq_nil {h : TxHash} {l : List (TxHash × Nat × ParsedTxStep)}
    (hne : ∀ e ∈ l, e.1 ≠ h) : stepsOf h l = [] := by
  rw [stepsOf, List.map_eq_nil_iff, List.filter_eq_nil_iff]
  intro e he
  simp [hne e he]

theorem getElem?_steps (slotTxs : ParsedTxs) (hash : TxHash) (i : Nat) :
    ((slotTxs.lookup hash).getD ∅ : TxSteps)[i]? = slotTxs.stepAt hash i := by
  rw [ParsedTxs.stepAt]
  cases AList.lookup hash slotTxs with
  | none => exact Std.ExtTreeMap.getElem?_empty
  | some steps => rfl

/-- The steps listed for a hash are those of its entry, by ascending index. -/
theorem stepsOf_inOrder (slotTxs : ParsedTxs) (h : TxHash) :
    stepsOf h slotTxs.inOrder = ((slotTxs.lookup h).getD ∅).toList.map Prod.snd := by
  have hother : ∀ l : List (Sigma fun _ : TxHash => TxSteps), h ∉ l.keys →
      stepsOf h (l.flatMap fun e => e.2.toList.map fun s => (e.1, s.1, s.2)) = [] := by
    intro l hl
    refine stepsOf_eq_nil fun e he => ?_
    obtain ⟨entry, hentry, hin⟩ := List.mem_flatMap.mp he
    obtain ⟨s, _, rfl⟩ := List.mem_map.mp hin
    intro heq
    exact hl (List.mem_map.mpr ⟨entry, hentry, heq⟩)
  cases hlookup : slotTxs.lookup h with
  | none =>
      rw [ParsedTxs.inOrder, hother _ (AList.lookup_eq_none.mp hlookup)]
      rfl
  | some steps =>
      have hmem := (HashMap.mem_entries slotTxs h steps).mpr hlookup
      obtain ⟨before, after, hsplit⟩ := List.append_of_mem hmem
      have hkeys := slotTxs.nodupKeys
      rw [hsplit, List.NodupKeys, List.keys_append, List.keys_cons, List.nodup_append] at hkeys
      obtain ⟨_, hafter, hdisjoint⟩ := hkeys
      have hbefore : h ∉ before.keys := fun hin =>
        hdisjoint h hin h (List.mem_cons_self ..) rfl
      have hafter : h ∉ after.keys := (List.nodup_cons.mp hafter).1
      rw [ParsedTxs.inOrder, hsplit, List.flatMap_append, List.flatMap_cons, stepsOf_append,
        stepsOf_append, hother before hbefore, hother after hafter]
      simp only [List.nil_append, List.append_nil, Option.getD_some, stepsOf]
      rw [List.filter_eq_self.mpr, List.map_map]
      · rfl
      · intro e he
        obtain ⟨s, _, rfl⟩ := List.mem_map.mp he
        simp

theorem stepsOf_same {slotTxs slotTxs' : ParsedTxs} (hsame : HashMap.Same slotTxs slotTxs')
    (h : TxHash) : stepsOf h slotTxs.inOrder = stepsOf h slotTxs'.inOrder := by
  rw [stepsOf_inOrder, stepsOf_inOrder, hsame.lookup h]

/-- The run over the steps of one hash, from the record the parser has. -/
def hashRun (p : DefaultTxParser) (slotTxs : ParsedTxs) (h : TxHash) : Option EvmTx × Outcome Unit :=
  forTry recordStep (stepsOf h slotTxs.inOrder) (p.record h)

theorem hashRun_same (p : DefaultTxParser) {slotTxs slotTxs' : ParsedTxs}
    (hsame : HashMap.Same slotTxs slotTxs') (h : TxHash) :
    p.hashRun slotTxs h = p.hashRun slotTxs' h := by
  rw [hashRun, hashRun, stepsOf_same hsame]

/-! ## The outcome of a registration -/

/-- A registration that fails does so as the run of some hash does. -/
theorem registerSlotTransactions_error {p : DefaultTxParser} {slot : Slot} {slotTxs : ParsedTxs}
    {e : Failure} (h : (p.registerSlotTransactions slot slotTxs).2 = .error e) :
    ∃ hash, (p.hashRun slotTxs hash).2 = .error e := by
  rw [registerSlotTransactions_eq] at h
  rcases forTry_split (registerEntry slot) slotTxs.inOrder (p.retainSlot slot slotTxs) with
    ⟨q, hrun⟩ | ⟨done, ⟨hash, i, step⟩, rest, p₁, q, e', hl, hdone, hstop, hrun⟩
  · rw [hrun] at h
    cases h
  · rw [hrun] at h
    cases h
    have hrec := registerEntry_record_ok hash _ hdone
    rw [retainSlot_record] at hrec
    have hout := registerStep_outcome p₁ slot hash i step
    change p₁.registerStep slot hash i step = (q, .error e) at hstop
    rw [hstop] at hout
    have hstep : recordStep (p₁.record hash) step
        = ((recordStep (p₁.record hash) step).1, .error e) := Prod.ext rfl hout.symm
    refine ⟨hash, ?_⟩
    rw [hashRun, hl, stepsOf_append, stepsOf_cons_self, forTry_append_ok _ hrec,
      forTry_cons_error hstep]

/-- One that goes through takes the record of every hash through its run. -/
theorem hashRun_of_ok {p q : DefaultTxParser} {slot : Slot} {slotTxs : ParsedTxs}
    (h : p.registerSlotTransactions slot slotTxs = (q, .ok ())) (hash : TxHash) :
    p.hashRun slotTxs hash = (q.record hash, .ok ()) := by
  rw [registerSlotTransactions_eq] at h
  have hrec := registerEntry_record_ok hash _ h
  rwa [retainSlot_record] at hrec

theorem registerSlotTransactions_ok_iff {p : DefaultTxParser} {slot : Slot}
    {slotTxs : ParsedTxs} : (p.registerSlotTransactions slot slotTxs).2 = .ok () ↔
      ∀ hash, (p.hashRun slotTxs hash).2 = .ok () := by
  constructor
  · intro h hash
    rw [hashRun_of_ok (Prod.ext rfl h) hash]
  · intro h
    cases hout : (p.registerSlotTransactions slot slotTxs).2 with
    | ok u => rfl
    | error e =>
        obtain ⟨hash, herr⟩ := registerSlotTransactions_error hout
        rw [h hash] at herr
        cases herr

/-- The steps of a hash that comes first are taken first, whatever else is listed. -/
theorem registerEntry_first (slot : Slot) {hash : TxHash} {e : Failure}
    (l : List (TxHash × Nat × ParsedTxStep)) : ∀ {p : DefaultTxParser}, (∀ x ∈ l, x.1 = hash) →
      (forTry recordStep (stepsOf hash l) (p.record hash)).2 = .error e →
        (forTry (registerEntry slot) l p).2 = .error e := by
  induction l with
  | nil =>
      intro p _ h
      cases h
  | cons x l ih =>
      intro p hall h
      obtain ⟨hash', i, step⟩ := x
      have heq : hash' = hash := hall _ (List.mem_cons_self ..)
      subst heq
      rw [stepsOf_cons_self] at h
      have hrec := registerStep_record p slot hash' i step hash'
      have hout := registerStep_outcome p slot hash' i step
      rw [if_pos rfl] at hrec
      rcases hb : p.registerStep slot hash' i step with ⟨p₁, e' | ⟨⟨⟩⟩⟩
      · rw [hb] at hrec hout
        rw [forTry_cons_error (Prod.ext hrec.symm hout.symm)] at h
        rw [forTry_cons_error (show registerEntry slot p (hash', i, step) = (p₁, .error e') from hb)]
        exact h
      · rw [hb] at hrec hout
        rw [forTry_cons_ok (Prod.ext hrec.symm hout.symm)] at h
        rw [forTry_cons_ok (show registerEntry slot p (hash', i, step) = (p₁, .ok ()) from hb)]
        exact ih (fun y hy => hall y (List.mem_cons_of_mem _ hy)) h

/-- The way any hash's run fails is the way a registration may fail. -/
theorem exists_order_error {p : DefaultTxParser} (slot : Slot) {slotTxs : ParsedTxs}
    {hash : TxHash} {e : Failure} (h : (p.hashRun slotTxs hash).2 = .error e) :
    ∃ slotTxs', HashMap.Same slotTxs slotTxs' ∧
      (p.registerSlotTransactions slot slotTxs').2 = .error e := by
  cases hlookup : slotTxs.lookup hash with
  | none =>
      rw [hashRun, stepsOf_inOrder, hlookup] at h
      cases h
  | some steps =>
      -- the order that has `hash` first
      obtain ⟨before, after, hsplit⟩ :=
        List.append_of_mem ((HashMap.mem_entries slotTxs hash steps).mpr hlookup)
      have hperm : slotTxs.entries.Perm (⟨hash, steps⟩ :: (before ++ after)) := by
        rw [hsplit]
        exact List.perm_middle
      let slotTxs' : ParsedTxs :=
        ⟨⟨hash, steps⟩ :: (before ++ after), (List.perm_nodupKeys hperm).mp slotTxs.nodupKeys⟩
      have hsame : HashMap.Same slotTxs slotTxs' := hperm
      refine ⟨slotTxs', hsame, ?_⟩
      have hfirst : slotTxs'.inOrder = (steps.toList.map fun s => (hash, s.1, s.2))
          ++ (before ++ after).flatMap fun e => e.2.toList.map fun s => (e.1, s.1, s.2) := rfl
      have hown : ∀ x ∈ steps.toList.map fun s => (hash, s.1, s.2), x.1 = hash := by
        intro x hx
        obtain ⟨s, _, rfl⟩ := List.mem_map.mp hx
        rfl
      have hsteps : stepsOf hash (steps.toList.map fun s => (hash, s.1, s.2))
          = steps.toList.map Prod.snd := by
        rw [stepsOf, List.filter_eq_self.mpr fun x hx => decide_eq_true (hown x hx), List.map_map]
        rfl
      rw [hashRun, stepsOf_inOrder, hlookup, Option.getD_some, ← hsteps,
        ← retainSlot_record p slot slotTxs'] at h
      have herr := registerEntry_first slot _ hown h
      rw [registerSlotTransactions_eq, hfirst]
      rcases hrun : forTry (registerEntry slot) (steps.toList.map fun s => (hash, s.1, s.2))
        (p.retainSlot slot slotTxs') with ⟨q, e' | ⟨⟨⟩⟩⟩
      · rw [hrun] at herr
        rw [forTry_append_error _ hrun]
        exact herr
      · rw [hrun] at herr
        cases herr

/-! ## Running out of address space -/

/-- The chunks of an ascending list of steps are for offsets that are known by then, or
end where a vector can. -/
def ChunksFit (known : Nat → Prop) (l : List (Nat × ParsedTxStep)) : Prop :=
  ∀ i offset data, (i, .transmitTx offset data) ∈ l →
    known offset ∨ (∃ j d, j < i ∧ (j, .transmitTx offset d) ∈ l) ∨
      offset + data.length ≤ isizeMax

theorem chunksFit_cons_other {known : Nat → Prop} {k : Nat} {step : ParsedTxStep}
    {l : List (Nat × ParsedTxStep)} (h : ∀ offset data, step ≠ .transmitTx offset data) :
    ChunksFit known ((k, step) :: l) ↔ ChunksFit known l := by
  have hmem : ∀ i offset data, (i, ParsedTxStep.transmitTx offset data) ∈ (k, step) :: l ↔
      (i, ParsedTxStep.transmitTx offset data) ∈ l := by
    intro i offset data
    rw [List.mem_cons]
    refine ⟨?_, Or.inr⟩
    rintro (heq | hin)
    · exact absurd (congrArg Prod.snd heq).symm (h offset data)
    · exact hin
  simp only [ChunksFit, hmem]

theorem chunksFit_cons_chunk {known : Nat → Prop} {k offset : Nat} {data : Bytes}
    {l : List (Nat × ParsedTxStep)} (hasc : ∀ e ∈ l, k < e.1)
    (hhead : known offset ∨ offset + data.length ≤ isizeMax) :
    ChunksFit known ((k, .transmitTx offset data) :: l) ↔
      ChunksFit (fun o => known o ∨ o = offset) l := by
  constructor
  · intro h i o d hin
    rcases h i o d (List.mem_cons_of_mem _ hin) with hknown | ⟨j, d', hj, hmem⟩ | hsize
    · exact Or.inl (Or.inl hknown)
    · rcases List.mem_cons.mp hmem with heq | hmem
      · cases heq
        exact Or.inl (Or.inr rfl)
      · exact Or.inr (Or.inl ⟨j, d', hj, hmem⟩)
    · exact Or.inr (Or.inr hsize)
  · intro h i o d hin
    rcases List.mem_cons.mp hin with heq | hrest
    · cases heq
      rcases hhead with hknown | hsize
      · exact Or.inl hknown
      · exact Or.inr (Or.inr hsize)
    · rcases h i o d hrest with (hknown | rfl) | ⟨j, d', hj, hmem⟩ | hsize
      · exact Or.inl hknown
      · exact Or.inr (Or.inl ⟨k, data, hasc _ hrest, List.mem_cons_self ..⟩)
      · exact Or.inr (Or.inl ⟨j, d', hj, List.mem_cons_of_mem _ hmem⟩)
      · exact Or.inr (Or.inr hsize)

/-- A holder takes a chunk whose offset it knows, or that ends where a vector can. -/
theorem updateTxHolder_big {tx : EvmTx} (offset : Nat) (data : Bytes)
    (hbig : isSmall (some tx) = false) :
    ((offset ∈ tx.pieces ∨ offset + data.length ≤ isizeMax) ∧
      ∃ tx', tx.updateTxHolder offset data = .ok tx' ∧ isSmall (some tx') = false ∧
        ∀ o, o ∈ tx'.pieces ↔ o ∈ tx.pieces ∨ o = offset) ∨
    (¬ (offset ∈ tx.pieces ∨ offset + data.length ≤ isizeMax) ∧
      ∃ message, tx.updateTxHolder offset data = .error (.panic message)) := by
  cases tx with
  | smallEvmTx t => cases hbig
  | bigEvmTx buffer pieces =>
      by_cases hin : offset ∈ pieces
      · refine Or.inl ⟨Or.inl hin, _, by rw [EvmTx.updateTxHolder, if_pos hin], rfl, ?_⟩
        intro o
        refine ⟨Or.inl, ?_⟩
        rintro (h | rfl)
        · exact h
        · exact hin
      · by_cases hsize : offset + data.length ≤ isizeMax
        · obtain ⟨tx', hup⟩ := EvmTx.updateTxHolder_ok buffer pieces hsize
          refine Or.inl ⟨Or.inr hsize, tx', hup, (isSmall_updateTxHolder hup).2, ?_⟩
          intro o
          obtain ⟨buffer', pieces', heq, ⟨hin', _⟩ | ⟨_, _, rfl⟩⟩ := EvmTx.updateTxHolder_cases hup
          · cases heq
            exact absurd hin' hin
          · cases heq
            show o ∈ pieces.insert offset data.length ↔ _
            rw [Std.ExtTreeMap.mem_insert, Std.LawfulEqCmp.compare_eq_iff_eq, eq_comm, or_comm]
            rfl
        · refine Or.inr ⟨not_or.mpr ⟨hin, hsize⟩, ?_⟩
          rw [EvmTx.updateTxHolder, if_neg hin]
          split
          · exact ⟨_, rfl⟩
          · rw [if_pos (by omega)]
            exact ⟨_, rfl⟩

/-- A holder's run over its steps panics only at a chunk that does not fit. -/
theorem bigRun_returned_iff (l : List (Nat × ParsedTxStep)) : ∀ {tx : EvmTx},
    (l.Pairwise fun a b => a.1 < b.1) → isSmall (some tx) = false →
      (Outcome.returned (forTry recordStep (l.map Prod.snd) (some tx)).2 = true ↔
        ChunksFit (fun o => o ∈ tx.pieces) l) := by
  induction l with
  | nil =>
      intro tx _ _
      exact ⟨fun _ i offset data hin => absurd hin List.not_mem_nil, fun _ => rfl⟩
  | cons e l ih =>
      intro tx hasc hbig
      obtain ⟨k, step⟩ := e
      obtain ⟨hhead, htail⟩ := List.pairwise_cons.mp hasc
      rw [List.map_cons]
      cases step with
      | smallTx t r =>
          rw [chunksFit_cons_other (by simp), ← ih htail hbig]
          rfl
      | bigTx r =>
          rw [chunksFit_cons_other (by simp), ← ih htail hbig]
          rfl
      | transmitTx offset data =>
          rcases updateTxHolder_big offset data hbig with
            ⟨hfits, tx', hup, hbig', hpieces⟩ | ⟨hnot, message, hup⟩
          · have hstep : recordStep (some tx) (.transmitTx offset data) = (some tx', .ok ()) := by
              simp only [recordStep, Option.getD_some, hup]
            rw [forTry_cons_ok hstep, ih htail hbig', chunksFit_cons_chunk hhead hfits]
            simp only [hpieces]
          · have hstep : recordStep (some tx) (.transmitTx offset data)
                = (some tx, .error (.panic message)) := by
              simp only [recordStep, Option.getD_some, hup]
            rw [forTry_cons_error hstep]
            refine ⟨fun h => (by cases h), fun h => absurd ?_ hnot⟩
            rcases h k offset data (List.mem_cons_self ..) with hknown | ⟨j, d, hj, hmem⟩ | hsize
            · exact Or.inl hknown
            · rcases List.mem_cons.mp hmem with heq | hmem
              · cases heq
                omega
              · have : k < j := hhead _ hmem
                omega
            · exact Or.inr hsize

/-- A small record refuses a chunk without a panic. -/
theorem smallRun_returned (steps : List ParsedTxStep) : ∀ {tx : Transaction},
    Outcome.returned (forTry recordStep steps (some (.smallEvmTx tx))).2 = true := by
  induction steps with
  | nil => intro tx; rfl
  | cons step steps ih =>
      intro tx
      cases step with
      | smallTx t r => exact ih
      | bigTx r => exact ih
      | transmitTx offset data => rfl

/-- The run over the steps of a hash panics only at a chunk for a holder that does not fit. -/
theorem run_returned_iff {o : Option EvmTx} {l : List (Nat × ParsedTxStep)}
    (hasc : l.Pairwise fun a b => a.1 < b.1) :
    Outcome.returned (forTry recordStep (l.map Prod.snd) o).2 = true ↔
      startsSmall o (l.map Prod.snd) = true ∨
        ChunksFit (fun offset => offset ∈ (o.getD .newBigTx).pieces) l := by
  cases o with
  | some tx =>
      cases tx with
      | smallEvmTx t => exact ⟨fun _ => Or.inl rfl, fun _ => smallRun_returned _⟩
      | bigEvmTx buffer pieces =>
          rw [bigRun_returned_iff l hasc rfl]
          exact ⟨Or.inr, fun h => h.resolve_left (by simp [startsSmall, isSmall])⟩
  | none =>
      cases l with
      | nil =>
          exact ⟨fun _ => Or.inr fun i offset data hin => absurd hin List.not_mem_nil, fun _ => rfl⟩
      | cons e l =>
          obtain ⟨k, step⟩ := e
          cases step with
          | smallTx tx r => exact ⟨fun _ => Or.inl rfl, fun _ => smallRun_returned _⟩
          | bigTx r =>
              have hstart : isSmall (some .newBigTx) = false := rfl
              refine (bigRun_returned_iff ((k, .bigTx r) :: l) hasc hstart).trans ?_
              exact ⟨Or.inr, fun h => h.resolve_left (by simp [startsSmall, isSmall])⟩
          | transmitTx offset data =>
              have hstart : isSmall (some .newBigTx) = false := rfl
              refine (bigRun_returned_iff ((k, .transmitTx offset data) :: l) hasc hstart).trans ?_
              exact ⟨Or.inr, fun h => h.resolve_left (by simp [startsSmall, isSmall])⟩

/-- No order of the hash map makes a registration panic exactly if the steps of each hash
start with a small record or bring chunks that fit. -/
theorem registerSlotTransactions_returned_iff (p : DefaultTxParser) (slot : Slot)
    (slotTxs : ParsedTxs) :
    (∀ slotTxs', HashMap.Same slotTxs slotTxs' →
      (p.registerSlotTransactions slot slotTxs').2.returned = true) ↔
    ∀ hash, startsSmall (p.record hash) (((slotTxs.lookup hash).getD ∅).toList.map Prod.snd) = true ∨
      ChunksFit (fun offset => offset ∈ ((p.record hash).getD .newBigTx).pieces)
        ((slotTxs.lookup hash).getD ∅).toList := by
  have hrun : ∀ hash, (p.hashRun slotTxs hash).2.returned = true ↔
      startsSmall (p.record hash) (((slotTxs.lookup hash).getD ∅).toList.map Prod.snd) = true ∨
        ChunksFit (fun offset => offset ∈ ((p.record hash).getD .newBigTx).pieces)
          ((slotTxs.lookup hash).getD ∅).toList := by
    intro hash
    rw [hashRun, stepsOf_inOrder]
    exact run_returned_iff (BTreeMap.toList_ascending _)
  simp only [← hrun]
  constructor
  · intro h hash
    cases hout : (p.hashRun slotTxs hash).2 with
    | ok u => rfl
    | error e =>
        obtain ⟨slotTxs', hsame, herr⟩ := exists_order_error slot hout
        have := h slotTxs' hsame
        rwa [herr] at this
  · intro h slotTxs' hsame
    cases hout : (p.registerSlotTransactions slot slotTxs').2 with
    | ok u => rfl
    | error e =>
        obtain ⟨hash, herr⟩ := registerSlotTransactions_error hout
        have := h hash
        rwa [hashRun_same p hsame, herr] at this

end DefaultTxParser

end RomeSdk
