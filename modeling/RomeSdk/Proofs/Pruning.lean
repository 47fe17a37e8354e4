import RomeSdk.HexCodec
import RomeSdk.Proofs.KnownTransactions

/-!
# What pruning takes away

`retain_from_slot` deletes slots below the cut, and with each of them the records
of all hashes listed there, whether or not a slot that is kept lists them too. A kept
slot then refers to a transaction that is not found any more: `is_slot_complete` panics on
it and `finalize_slot` fails, as soon as the iteration comes to it. So the answers of a
slot survive, in whatever order its hash map is run through, if and only if no
transaction executed in it is listed below the cut.
-/

namespace RomeSdk

namespace DefaultTxParser

/-! ## The records and slots that are left -/

/-- The transaction has steps in a slot below the cut. -/
def ListedBelow (p : DefaultTxParser) (fromSlot : Slot) (hash : TxHash) : Prop :=
  ∃ slot, slot < fromSlot ∧ (p.resultsOf slot hash).isSome = true

theorem lookup_eraseAll (hashes : List TxHash) (hash : TxHash) : ∀ txs : HashMap TxHash EvmTx,
    AList.lookup hash (hashes.foldl (fun txs h => txs.erase h) txs)
      = if hash ∈ hashes then none else AList.lookup hash txs := by
  induction hashes with
  | nil => intro txs; rfl
  | cons h hashes ih =>
      intro txs
      rw [List.foldl_cons, ih, HashMap.lookup_erase']
      by_cases hin : hash ∈ hashes
      · rw [if_pos hin, if_pos (List.mem_cons_of_mem h hin)]
      · rw [if_neg hin]
        by_cases hh : h = hash
        · rw [if_pos hh, if_pos (hh ▸ List.mem_cons_self)]
        · have hnot : hash ∉ h :: hashes := by
            intro hmem
            rcases List.mem_cons.mp hmem with heq | hmem
            · exact hh heq.symm
            · exact hin hmem
          rw [if_neg hh, if_neg hnot]

/-- Of an ascending list, the part below a bound is what lies below it. -/
theorem mem_takeWhile_below {V : Type} {l : List (Nat × V)} (hl : l.Pairwise fun a b => a.1 < b.1)
    {n : Nat} {e : Nat × V} :
    e ∈ l.takeWhile (fun e => decide (e.1 < n)) ↔ e ∈ l ∧ e.1 < n := by
  induction l with
  | nil => simp
  | cons a l ih =>
      obtain ⟨habove, hl⟩ := List.pairwise_cons.mp hl
      rw [List.takeWhile_cons]
      by_cases ha : a.1 < n
      · simp only [ha, decide_true, if_true, List.mem_cons, ih hl]
        constructor
        · rintro (rfl | ⟨hin, hlt⟩)
          · exact ⟨Or.inl rfl, ha⟩
          · exact ⟨Or.inr hin, hlt⟩
        · rintro ⟨rfl | hin, hlt⟩
          · exact Or.inl rfl
          · exact Or.inr ⟨hin, hlt⟩
      · have hnot : ¬ (e ∈ a :: l ∧ e.1 < n) := by
          rintro ⟨hin, hlt⟩
          rcases List.mem_cons.mp hin with rfl | hin
          · exact ha hlt
          · exact ha (Nat.lt_trans (habove e hin) hlt)
        simp only [ha, decide_false, hnot, iff_false]
        exact List.not_mem_nil

theorem mem_erased_iff {p : DefaultTxParser} {fromSlot : Slot} {hash : TxHash} :
    (hash ∈ (p.resultsBySlot.toList.takeWhile fun e => decide (e.1 < fromSlot)).flatMap
      fun e => AList.keys e.2) ↔ p.ListedBelow fromSlot hash := by
  rw [List.mem_flatMap]
  constructor
  · rintro ⟨⟨slot, txs⟩, hmem, hkey⟩
    obtain ⟨hin, hlt⟩ := (mem_takeWhile_below (BTreeMap.toList_ascending _)).mp hmem
    refine ⟨slot, hlt, ?_⟩
    rw [resultsOf, (BTreeMap.mem_toList p.resultsBySlot slot txs).mp hin, Option.bind_some]
    exact AList.lookup_isSome.mpr hkey
  · rintro ⟨slot, hlt, hlisted⟩
    rw [resultsOf] at hlisted
    cases hslot : p.resultsBySlot[slot]? with
    | none => rw [hslot] at hlisted; cases hlisted
    | some txs =>
        rw [hslot, Option.bind_some] at hlisted
        exact ⟨(slot, txs), (mem_takeWhile_below (BTreeMap.toList_ascending _)).mpr
          ⟨(BTreeMap.mem_toList _ _ _).mpr hslot, hlt⟩, AList.lookup_isSome.mp hlisted⟩

open Classical in
theorem record_retainFromSlot (p : DefaultTxParser) (fromSlot : Slot) (hash : TxHash) :
    (p.retainFromSlot fromSlot).record hash
      = if p.ListedBelow fromSlot hash then none else p.record hash := by
  rw [record, retainFromSlot, lookup_eraseAll]
  by_cases hbelow : p.ListedBelow fromSlot hash
  · rw [if_pos (mem_erased_iff.mpr hbelow), if_pos hbelow]
  · rw [if_neg (fun h => hbelow (mem_erased_iff.mp h)), if_neg hbelow, record]

theorem slot_retainFromSlot (p : DefaultTxParser) {fromSlot slot : Slot} (h : fromSlot ≤ slot) :
    (p.retainFromSlot fromSlot).resultsBySlot[slot]? = p.resultsBySlot[slot]? := by
  rw [retainFromSlot, Std.ExtTreeMap.getElem?_filter']
  cases p.resultsBySlot[slot]? <;> simp [h]

theorem Same.listedBelow {p q : DefaultTxParser} (h : p.Same q) {fromSlot : Slot} {hash : TxHash} :
    p.ListedBelow fromSlot hash ↔ q.ListedBelow fromSlot hash := by
  obtain ⟨_, _, hresults⟩ := same_iff.mp h
  simp only [ListedBelow, hresults]

/-! ## Slots read from the same records -/

section

variable {p q : DefaultTxParser}

theorem txComplete_congr {hash : TxHash} {l : List (Option TxResult)}
    (h : ∀ r, some r ∈ l → q.record hash = p.record hash) : ∀ slotComplete,
      q.txComplete hash l slotComplete = p.txComplete hash l slotComplete := by
  induction l with
  | nil => intro _; rfl
  | cons o l ih =>
      intro slotComplete
      have hrest := ih fun r hr => h r (List.mem_cons_of_mem o hr)
      cases o with
      | none => exact hrest slotComplete
      | some r =>
          rw [txComplete, txComplete, h r List.mem_cons_self]
          cases p.record hash with
          | none => rfl
          | some tx => exact hrest _

theorem finalizeTx_congr (X : Crates) {hash : TxHash} {l : List (Nat × Option TxResult)}
    (h : ∀ i r, (i, some r) ∈ l → q.record hash = p.record hash) (results : Finalized) :
    finalizeTx X q hash l results = finalizeTx X p hash l results := by
  induction l with
  | nil => rfl
  | cons e l ih =>
      obtain ⟨i, _ | r⟩ := e
      · exact ih fun j s hs => h j s (List.mem_cons_of_mem _ hs)
      · rw [finalizeTx, finalizeTx, h i r List.mem_cons_self]

theorem txsComplete_congr {l : List (Sigma fun _ : TxHash => TxResults)}
    (h : ∀ e ∈ l, ∀ i r, (i, some r) ∈ e.2.toList → q.record e.1 = p.record e.1) :
    q.txsComplete l = p.txsComplete l := by
  induction l with
  | nil => rfl
  | cons e l ih =>
      have hfirst : q.txComplete e.1 (e.2.toList.map Prod.snd) true
          = p.txComplete e.1 (e.2.toList.map Prod.snd) true := by
        refine txComplete_congr (fun r hr => ?_) true
        obtain ⟨⟨i, o⟩, hi, rfl⟩ := List.mem_map.mp hr
        exact h e List.mem_cons_self i r hi
      rw [txsComplete, txsComplete, hfirst, ih fun d hd => h d (List.mem_cons_of_mem e hd)]

theorem finalizeTxs_congr (X : Crates) {l : List (Sigma fun _ : TxHash => TxResults)}
    (h : ∀ e ∈ l, ∀ i r, (i, some r) ∈ e.2.toList → q.record e.1 = p.record e.1) :
    ∀ results : Finalized, finalizeTxs X q l results = finalizeTxs X p l results := by
  induction l with
  | nil => intro _; rfl
  | cons e l ih =>
      intro results
      rw [finalizeTxs, finalizeTxs, finalizeTx_congr X (h e List.mem_cons_self)]
      cases finalizeTx X p e.1 e.2.toList results with
      | error err => rfl
      | ok results' => exact ih (fun d hd => h d (List.mem_cons_of_mem e hd)) results'

/-- A slot read with the same records of the transactions executed in it gives
the same answers. -/
theorem answers_congr {slot : Slot} (hslot : q.resultsBySlot[slot]? = p.resultsBySlot[slot]?)
    (h : ∀ hash i r, p.resultAt slot hash i = some (some r) → q.record hash = p.record hash)
    (X : Crates) : q.isSlotComplete slot = p.isSlotComplete slot ∧
      q.finalizeSlot X slot = p.finalizeSlot X slot := by
  rw [isSlotComplete, isSlotComplete, finalizeSlot, finalizeSlot, hslot]
  cases hp : p.resultsBySlot[slot]? with
  | none => exact ⟨rfl, rfl⟩
  | some slotTxs =>
      have hentries : ∀ e ∈ slotTxs.entries, ∀ i r, (i, some r) ∈ e.2.toList →
          q.record e.1 = p.record e.1 :=
        fun e he i r hr => h e.1 i r (resultAt_of_entry hp he hr)
      refine ⟨txsComplete_congr hentries, ?_⟩
      simp only [finalizeTxs_congr X hentries]

end

/-! ## The error of a transaction that is not found -/

def notFound (hash : TxHash) : String := "Tx " ++ hashDebug hash ++ " not found by hash"

def notComplete (hash : TxHash) : String := "Tx " ++ hashDebug hash ++ " data is not complete "

theorem hashDebug_eq (hash : TxHash) : hashDebug hash = H256.debug hash := rfl

theorem hashDebug_injective {hash hash' : TxHash} (h : hashDebug hash = hashDebug hash') :
    hash = hash' := by
  have hlist := congrArg String.toList h
  rw [hashDebug_eq, hashDebug_eq, H256.toList_debug, H256.toList_debug] at hlist
  have hread := congrArg Texts.readHex (List.cons.inj (List.cons.inj hlist).2).2
  rw [Texts.readHex_hexDigits, Texts.readHex_hexDigits] at hread
  rw [← H256.fromSlice_beBytes hash, ← H256.fromSlice_beBytes hash', Option.some.inj hread]

theorem notFound_injective {hash hash' : TxHash} (h : notFound hash = notFound hash') :
    hash = hash' := by
  have hlist := congrArg String.toList h
  simp only [notFound, String.toList_append] at hlist
  exact hashDebug_injective
    (String.toList_inj.mp (List.append_cancel_left (List.append_cancel_right hlist)))

theorem notComplete_ne_notFound (hash hash' : TxHash) : notComplete hash ≠ notFound hash' := by
  intro h
  have hlength := congrArg (fun text => text.toList.length) h
  simp only [notFound, notComplete, String.toList_append, List.length_append, hashDebug_eq,
    H256.length_debug] at hlength
  exact absurd hlength (by decide)

section

variable {X : Crates} {p : DefaultTxParser}

theorem finalizeTx_lost {hash : TxHash} (hnone : p.record hash = none)
    {l : List (Nat × Option TxResult)} {i : Nat} {r : TxResult} (hmem : (i, some r) ∈ l)
    (results : Finalized) :
    finalizeTx X p hash l results = .error (.custom (notFound hash)) := by
  induction l with
  | nil => cases hmem
  | cons e l ih =>
      obtain ⟨j, _ | s⟩ := e
      · rcases List.mem_cons.mp hmem with heq | hmem
        · cases heq
        · exact ih hmem
      · rw [finalizeTx, hnone]
        rfl

/-- Which message a hash fails with. -/
theorem finalizeTx_message {hash : TxHash} {l : List (Nat × Option TxResult)} {results : Finalized}
    {message : String} (h : finalizeTx X p hash l results = .error (.custom message)) :
    (p.record hash = none ∧ message = notFound hash) ∨ message = notComplete hash := by
  induction l with
  | nil => cases h
  | cons e l ih =>
      obtain ⟨j, _ | s⟩ := e
      · exact ih h
      · rw [finalizeTx] at h
        cases hrec : p.record hash with
        | none =>
            rw [hrec] at h
            cases h
            exact Or.inl ⟨rfl, rfl⟩
        | some tx =>
            rw [hrec] at h
            cases hdone : tx.isDataComplete with
            | false =>
                simp only [hdone] at h
                cases h
                exact Or.inr rfl
            | true =>
                simp only [hdone, if_true] at h
                cases hbuild : tx.build X with
                | ok t => rw [hbuild] at h; cases h
                | error err =>
                    rw [hbuild] at h
                    cases h
                    exact absurd rfl (build_error hbuild message)

theorem finalizeTxs_message {l : List (Sigma fun _ : TxHash => TxResults)} {message : String} :
    ∀ {results : Finalized}, finalizeTxs X p l results = .error (.custom message) →
      ∃ e ∈ l, (p.record e.1 = none ∧ message = notFound e.1) ∨ message = notComplete e.1 := by
  induction l with
  | nil => intro _ h; cases h
  | cons e l ih =>
      intro results h
      rw [finalizeTxs] at h
      cases hfirst : finalizeTx X p e.1 e.2.toList results with
      | error err =>
          rw [hfirst] at h
          cases h
          exact ⟨e, List.mem_cons_self, finalizeTx_message hfirst⟩
      | ok results₁ =>
          rw [hfirst] at h
          obtain ⟨d, hd, hmessage⟩ := ih h
          exact ⟨d, List.mem_cons_of_mem e hd, hmessage⟩

end

/-! ## A transaction that is lost -/

/-- The parser whose iteration of a slot comes to `hash` first. -/
def listedFirst (p : DefaultTxParser) (slot : Slot) (slotTxs : SlotResults) (hash : TxHash)
    (results : TxResults) : DefaultTxParser :=
  { p with resultsBySlot := p.resultsBySlot.insert slot (AList.insert hash results slotTxs) }

section

variable {p : DefaultTxParser} {slot : Slot} {slotTxs : SlotResults} {hash : TxHash}
  {results : TxResults} (hslot : p.resultsBySlot[slot]? = some slotTxs)
  (hlookup : slotTxs.lookup hash = some results)

include hslot hlookup

theorem listedFirst_same : p.Same (p.listedFirst slot slotTxs hash results) := by
  refine ⟨HashMap.Same.refl _, fun s => ?_⟩
  rw [listedFirst, BTreeMap.get?_insert]
  by_cases hs : slot = s
  · subst hs
    rw [if_pos rfl, hslot]
    refine .some (HashMap.same_of_lookup fun h => ?_)
    rw [HashMap.lookup_insert']
    split
    · next hh => rw [← hh, hlookup]
    · rfl
  · rw [if_neg hs]
    exact rel_of_lookup rfl fun _ => rfl

/-- With the lost transaction first, what `finalize_slot` returns after pruning is not
what it returned before. -/
theorem finalizeSlot_lost (X : Crates) {fromSlot : Slot} (hkept : fromSlot ≤ slot) {i : Nat}
    {r : TxResult} (hexec : p.resultAt slot hash i = some (some r))
    (hknown : (p.record hash).isSome = true) (hbelow : p.ListedBelow fromSlot hash) :
    ((p.listedFirst slot slotTxs hash results).retainFromSlot fromSlot).finalizeSlot X slot
      ≠ (p.listedFirst slot slotTxs hash results).finalizeSlot X slot := by
  have hsame := listedFirst_same hslot hlookup
  have hfirst : (p.listedFirst slot slotTxs hash results).resultsBySlot[slot]?
      = some (AList.insert hash results slotTxs) := by
    rw [listedFirst, BTreeMap.get?_insert, if_pos rfl]
  have hmem : (i, some r) ∈ results.toList := by
    rw [BTreeMap.mem_toList, ← resultAt_of_lookup hslot hlookup]
    exact hexec
  have hlost : ((p.listedFirst slot slotTxs hash results).retainFromSlot fromSlot).record hash
      = none := by
    rw [record_retainFromSlot, if_pos (hsame.listedBelow.mp hbelow)]
  have hafter : ((p.listedFirst slot slotTxs hash results).retainFromSlot fromSlot).finalizeSlot X
      slot = .error (.custom (notFound hash)) := by
    rw [finalizeSlot, slot_retainFromSlot _ hkept, hfirst]
    simp only [AList.entries_insert, finalizeTxs, finalizeTx_lost hlost hmem]
  rw [hafter]
  intro heq
  rw [finalizeSlot, hfirst] at heq
  cases hrun : finalizeTxs X (p.listedFirst slot slotTxs hash results)
      (AList.insert hash results slotTxs).entries ∅ with
  | ok out =>
      simp only [hrun] at heq
      cases heq
  | error e =>
      simp only [hrun] at heq
      cases heq
      obtain ⟨d, hd, ⟨hnone, hmessage⟩ | hmessage⟩ := finalizeTxs_message hrun
      · rw [← notFound_injective hmessage, ← hsame.record] at hnone
        rw [hnone] at hknown
        cases hknown
      · exact notComplete_ne_notFound d.1 hash hmessage.symm

end

/-- The answers of a slot that is kept are the same after pruning, in every order of
the hash maps, if and only if no transaction executed in it with a record is listed
below the cut. -/
theorem pruning_keeps_answers_iff {p : DefaultTxParser} {fromSlot slot : Slot} (X : Crates)
    (hkept : fromSlot ≤ slot) :
    (∀ p' : DefaultTxParser, p.Same p' →
      (p'.retainFromSlot fromSlot).isSlotComplete slot = p'.isSlotComplete slot ∧
        (p'.retainFromSlot fromSlot).finalizeSlot X slot = p'.finalizeSlot X slot) ↔
    ∀ hash i r, p.resultAt slot hash i = some (some r) → (p.record hash).isSome = true →
      ¬ p.ListedBelow fromSlot hash := by
  constructor
  · intro h hash i r hexec hknown hbelow
    obtain ⟨slotTxs, results, hslot, hlookup, _⟩ := resultAt_eq_some.mp hexec
    exact finalizeSlot_lost hslot hlookup X hkept hexec hknown hbelow
      (h _ (listedFirst_same hslot hlookup)).2
  · intro h p' hsame
    refine answers_congr (slot_retainFromSlot p' hkept) (fun hash i r hexec => ?_) X
    rw [← hsame.resultAt] at hexec
    rw [record_retainFromSlot]
    split
    · next hbelow =>
      cases hrec : p'.record hash with
      | none => rfl
      | some tx =>
          rw [← hsame.record] at hrec
          exact absurd (hsame.listedBelow.mpr hbelow) (h hash i r hexec (by rw [hrec]; rfl))
    · rfl

/-! A holder transaction whose chunk was sent in slot 5 and which was executed in slot 6,
beside a transaction of slot 6 alone. -/

def chunkBelow : DefaultTxParser :=
  (new.registerSlotTransactions 5 (ParsedTxs.addStep ∅ 1 0 (.transmitTx 0 [42]))).1

def executedAbove : DefaultTxParser :=
  (chunkBelow.registerSlotTransactions 6 (ParsedTxs.addStep ∅ 1 0 (.bigTx (some .default)))).1

theorem executedAbove_run : ∃ tr, Machine.Run freshParser tr executedAbove :=
  ⟨_, parserFrom_register (parserFrom_register (.start rfl) 5 _ (by decide)) 6 _ (by decide)⟩

theorem pruning_loses_record :
    ¬ ∀ p, (∃ tr, Machine.Run freshParser tr p) → ∀ fromSlot slot, fromSlot ≤ slot → ∀ X,
      (p.retainFromSlot fromSlot).isSlotComplete slot = p.isSlotComplete slot ∧
        (p.retainFromSlot fromSlot).finalizeSlot X slot = p.finalizeSlot X slot := by
  intro h
  have hbefore : executedAbove.isSlotComplete 6 = .ok true := by decide
  have hafter := (h executedAbove executedAbove_run 6 6 (Nat.le_refl 6) standIns).1.trans hbefore
  have hexec : (executedAbove.retainFromSlot 6).resultAt 6 1 0 = some (some .default) := by
    rw [resultAt, slot_retainFromSlot _ (Nat.le_refl 6), ← resultAt]
    decide
  have hlost : (executedAbove.retainFromSlot 6).record 1 = none := by
    rw [record_retainFromSlot, if_pos ⟨5, by decide, by decide⟩]
  obtain ⟨tx, hrecord, _⟩ := isSlotComplete_iff.mp hafter 1 0 .default hexec
  rw [hlost] at hrecord
  cases hrecord

theorem pruning_keeps_answers_of_one : afterOne.isSlotComplete 5 = .ok true ∧
    ∀ p', afterOne.Same p' →
      (p'.retainFromSlot 5).isSlotComplete 5 = p'.isSlotComplete 5 ∧
        (p'.retainFromSlot 5).finalizeSlot standIns 5 = p'.finalizeSlot standIns 5 := by
  refine ⟨by decide, (pruning_keeps_answers_iff standIns (Nat.le_refl 5)).mpr ?_⟩
  rintro hash _ _ _ _ ⟨slot, hlt, hlisted⟩
  have hnone : afterOne.resultsBySlot[slot]? = none := by
    rw [afterOne, registerSlotTransactions_other _ _ _ (Nat.ne_of_gt hlt)]
    rfl
  rw [resultsOf, hnone] at hlisted
  cases hlisted

end DefaultTxParser

end RomeSdk
