import RomeSdk.Proofs.ParserRuns
import RomeSdk.Proofs.StandIns

/-!
# Finalizing a slot

`isSlotComplete` and `finalizeSlot` run over the results of a slot hash by hash.
Both look at the hashes with a result that is there, the executed ones, and
`finalizeSlot` takes of each the result of the smallest index. It files them in
a map by that index alone, so two hashes with the same one share an entry.
-/

namespace RomeSdk

namespace DefaultTxParser

/-! ## The executed transactions of a slot -/

/-- `hash` has a result in the slot, and the one of the smallest index is `txResult`
at `txIdx`. -/
structure Executed (p : DefaultTxParser) (slot : Slot) (hash : TxHash) (txIdx : Nat)
    (txResult : TxResult) : Prop where
  result : p.resultAt slot hash txIdx = some (some txResult)
  first : ∀ i r, p.resultAt slot hash i = some (some r) → txIdx ≤ i

theorem Executed.unique {p : DefaultTxParser} {slot : Slot} {hash : TxHash} {i j : Nat}
    {r s : TxResult} (h : Executed p slot hash i r) (h' : Executed p slot hash j s) :
    i = j ∧ r = s := by
  have h1 := h.first j s h'.result
  have h2 := h'.first i r h.result
  have hij : i = j := by omega
  subst hij
  have hr := h.result
  rw [h'.result] at hr
  cases hr
  exact ⟨rfl, rfl⟩

/-- The first result that is there. -/
def firstResult : List (Nat × Option TxResult) → Option (Nat × TxResult)
  | [] => none
  | (_, none) :: rest => firstResult rest
  | (txIdx, some txResult) :: _ => some (txIdx, txResult)

theorem firstResult_eq_some {l : List (Nat × Option TxResult)}
    (hasc : l.Pairwise fun a b => a.1 < b.1) {i : Nat} {r : TxResult} :
    firstResult l = some (i, r) ↔ (i, some r) ∈ l ∧ ∀ j s, (j, some s) ∈ l → i ≤ j := by
  induction l with
  | nil => simp [firstResult]
  | cons e l ih =>
      obtain ⟨k, o⟩ := e
      obtain ⟨hhead, htail⟩ := List.pairwise_cons.mp hasc
      cases o with
      | none =>
          rw [firstResult, ih htail]
          simp
      | some s =>
          rw [firstResult]
          constructor
          · intro h
            cases h
            refine ⟨List.mem_cons_self .., ?_⟩
            intro j s' hmem
            rcases List.mem_cons.mp hmem with heq | hmem
            · cases heq
              exact Nat.le_refl _
            · have hlt : i < j := hhead _ hmem
              omega
          · intro ⟨hmem, hleast⟩
            have hle := hleast k s (List.mem_cons_self ..)
            rcases List.mem_cons.mp hmem with heq | hmem
            · cases heq
              rfl
            · have hlt : k < i := hhead _ hmem
              omega

theorem firstResult_eq_none {l : List (Nat × Option TxResult)} :
    firstResult l = none ↔ ∀ j s, (j, some s) ∉ l := by
  induction l with
  | nil => simp [firstResult]
  | cons e l ih =>
      obtain ⟨k, _ | r⟩ := e
      · simp [firstResult, ih]
      · constructor
        · intro h
          cases h
        · intro h
          exact absurd (List.mem_cons_self ..) (h k r)

theorem resultAt_of_lookup {p : DefaultTxParser} {slot : Slot} {slotTxs : SlotResults}
    {hash : TxHash} {results : TxResults} (hslot : p.resultsBySlot[slot]? = some slotTxs)
    (hlookup : slotTxs.lookup hash = some results) (i : Nat) :
    p.resultAt slot hash i = results[i]? := by
  rw [resultAt, hslot, Option.bind_some, hlookup, Option.bind_some]

theorem resultAt_of_entry {p : DefaultTxParser} {slot : Slot} {slotTxs : SlotResults}
    (hslot : p.resultsBySlot[slot]? = some slotTxs) {e : Sigma fun _ : TxHash => TxResults}
    (he : e ∈ slotTxs.entries) {i : Nat} {r : Option TxResult} (hr : (i, r) ∈ e.2.toList) :
    p.resultAt slot e.1 i = some r := by
  rw [resultAt_of_lookup hslot ((HashMap.mem_entries slotTxs e.1 e.2).mp he)]
  exact (BTreeMap.mem_toList e.2 i r).mp hr

/-- The entry of a hash, read through its ascending list. -/
theorem executed_iff {p : DefaultTxParser} {slot : Slot} {slotTxs : SlotResults} {hash : TxHash}
    {results : TxResults} (hslot : p.resultsBySlot[slot]? = some slotTxs)
    (hlookup : slotTxs.lookup hash = some results) {i : Nat} {r : TxResult} :
    firstResult results.toList = some (i, r) ↔ Executed p slot hash i r := by
  have hat := resultAt_of_lookup hslot hlookup
  rw [firstResult_eq_some (BTreeMap.toList_ascending results), BTreeMap.mem_toList]
  constructor
  · intro ⟨hi, hleast⟩
    refine ⟨by rw [hat, hi], ?_⟩
    intro j s hj
    rw [hat] at hj
    exact hleast j s ((BTreeMap.mem_toList results j _).mpr hj)
  · intro hex
    refine ⟨by rw [← hat]; exact hex.result, ?_⟩
    intro j s hj
    exact hex.first j s (by rw [hat]; exact (BTreeMap.mem_toList results j _).mp hj)

/-! ## Completeness of a slot -/

theorem txComplete_iff (p : DefaultTxParser) (hash : TxHash) (l : List (Option TxResult)) :
    ∀ {slotComplete : Bool}, p.txComplete hash l slotComplete = .ok true ↔
      slotComplete = true ∧ ∀ r, some r ∈ l →
        ∃ tx, p.record hash = some tx ∧ tx.isDataComplete = true := by
  induction l with
  | nil =>
      intro slotComplete
      rw [txComplete]
      simp
  | cons o l ih =>
      intro slotComplete
      cases o with
      | none =>
          rw [txComplete, ih]
          simp
      | some s =>
          rw [txComplete]
          cases hrec : p.record hash with
          | none =>
              constructor
              · intro h
                cases h
              · intro ⟨_, h⟩
                obtain ⟨tx, htx, _⟩ := h s (List.mem_cons_self ..)
                cases htx
          | some tx =>
              simp only
              rw [ih, Bool.and_eq_true, hrec]
              constructor
              · intro ⟨⟨hc, hcomplete⟩, _⟩
                exact ⟨hc, fun _ _ => ⟨tx, rfl, hcomplete⟩⟩
              · intro ⟨hc, h⟩
                obtain ⟨tx', htx', hcomplete⟩ := h s (List.mem_cons_self ..)
                cases htx'
                exact ⟨⟨hc, hcomplete⟩, fun _ _ => ⟨tx, rfl, hcomplete⟩⟩

theorem txsComplete_iff (p : DefaultTxParser) (l : List (Sigma fun _ : TxHash => TxResults)) :
    p.txsComplete l = .ok true ↔
      ∀ e ∈ l, p.txComplete e.1 (e.2.toList.map Prod.snd) true = .ok true := by
  induction l with
  | nil => simp [txsComplete]
  | cons e l ih =>
      rw [txsComplete, List.forall_mem_cons, ← ih]
      split
      · next err herr => simp [herr]
      · next hfalse => simp [hfalse]
      · next htrue => simp [htrue]

/-- A slot is complete when every transaction executed in it has a complete record. -/
theorem isSlotComplete_iff {p : DefaultTxParser} {slot : Slot} :
    p.isSlotComplete slot = .ok true ↔
      ∀ hash i r, p.resultAt slot hash i = some (some r) →
        ∃ tx, p.record hash = some tx ∧ tx.isDataComplete = true := by
  rw [isSlotComplete]
  cases hslot : p.resultsBySlot[slot]? with
  | none =>
      refine ⟨fun _ hash i r hr => ?_, fun _ => rfl⟩
      rw [resultAt, hslot] at hr
      cases hr
  | some slotTxs =>
      simp only
      rw [txsComplete_iff]
      constructor
      · intro hall hash i r hr
        rw [resultAt, hslot, Option.bind_some] at hr
        cases hlookup : slotTxs.lookup hash with
        | none =>
            rw [hlookup] at hr
            cases hr
        | some results =>
            rw [hlookup, Option.bind_some] at hr
            have hdone := hall _ ((HashMap.mem_entries slotTxs hash results).mpr hlookup)
            refine ((txComplete_iff p hash _).mp hdone).2 r (List.mem_map.mpr ⟨(i, some r), ?_, rfl⟩)
            exact (BTreeMap.mem_toList results i _).mpr hr
      · intro hall e hmem
        obtain ⟨hash, results⟩ := e
        refine (txComplete_iff p hash _).mpr ⟨rfl, ?_⟩
        intro r hr
        obtain ⟨⟨i, o⟩, hi, heq⟩ := List.mem_map.mp hr
        change o = some r at heq
        subst heq
        exact hall hash i r (resultAt_of_entry hslot hmem hi)

/-! ## What `finalizeSlot` files -/

/-- What is filed for one hash. -/
structure FinalEntry where
  hash : TxHash
  txIdx : Nat
  transaction : Transaction
  txResult : TxResult

def FinalEntry.filed (e : FinalEntry) : Nat × (Transaction × TxResult) :=
  (e.txIdx, (e.transaction, e.txResult))

/-- The transaction of a hash that can be had of its record. -/
def Builds (X : Crates) (p : DefaultTxParser) (hash : TxHash) (t : Transaction) : Prop :=
  ∃ tx, p.record hash = some tx ∧ tx.build X = .ok t

theorem Builds.unique {X : Crates} {p : DefaultTxParser} {hash : TxHash} {t t' : Transaction}
    (h : Builds X p hash t) (h' : Builds X p hash t') : t = t' := by
  obtain ⟨tx, hrec, hbuild⟩ := h
  obtain ⟨tx', hrec', hbuild'⟩ := h'
  rw [hrec] at hrec'
  cases hrec'
  rw [hbuild] at hbuild'
  cases hbuild'
  rfl

theorem finalizeTx_none {X : Crates} {p : DefaultTxParser} {hash : TxHash}
    {l : List (Nat × Option TxResult)} {results : Finalized} (h : firstResult l = none) :
    finalizeTx X p hash l results = .ok results := by
  induction l with
  | nil => rfl
  | cons e l ih =>
      obtain ⟨k, _ | s⟩ := e
      · exact ih h
      · cases h

theorem finalizeTx_some {X : Crates} {p : DefaultTxParser} {hash : TxHash}
    {l : List (Nat × Option TxResult)} {results : Finalized} {i : Nat} {r : TxResult}
    {tx : EvmTx} {t : Transaction} (h : firstResult l = some (i, r))
    (hrec : p.record hash = some tx) (hcomplete : tx.isDataComplete = true)
    (hbuild : tx.build X = .ok t) :
    finalizeTx X p hash l results = .ok (results.insert i (t, r)) := by
  induction l with
  | nil => cases h
  | cons e l ih =>
      obtain ⟨k, _ | s⟩ := e
      · exact ih h
      · cases h
        simp only [finalizeTx, hrec, hcomplete, if_true, hbuild]

/-- With every executed transaction complete and decodable, the loop files one
entry for each of them, in the order of the hash map. -/
theorem finalizeTxs_eq {X : Crates} {p : DefaultTxParser} {slot : Slot} {slotTxs : SlotResults}
    (hslot : p.resultsBySlot[slot]? = some slotTxs)
    (hcomplete : p.isSlotComplete slot = .ok true)
    (hdecode : ∀ hash i r, p.resultAt slot hash i = some (some r) → ∃ t, Builds X p hash t)
    (l : List (Sigma fun _ : TxHash => TxResults)) :
    l.Sublist slotTxs.entries → ∀ results : Finalized, ∃ entries : List FinalEntry,
      finalizeTxs X p l results = .ok (results.insertAll (entries.map FinalEntry.filed)) ∧
      (entries.map FinalEntry.hash).Sublist (l.map Sigma.fst) ∧
      ∀ e : FinalEntry, e ∈ entries ↔ e.hash ∈ l.map Sigma.fst ∧
        Executed p slot e.hash e.txIdx e.txResult ∧ Builds X p e.hash e.transaction := by
  induction l with
  | nil =>
      intro _ results
      exact ⟨[], rfl, .slnil, by simp⟩
  | cons a l ih =>
      intro hsub results
      obtain ⟨hash, txResults⟩ := a
      have hlookup : slotTxs.lookup hash = some txResults :=
        (HashMap.mem_entries slotTxs hash txResults).mp (hsub.subset (List.mem_cons_self ..))
      have hrest : l.Sublist slotTxs.entries := (List.sublist_cons_self _ _).trans hsub
      have hex : ∀ {i r}, firstResult txResults.toList = some (i, r) ↔
          Executed p slot hash i r := executed_iff hslot hlookup
      have hnotin : hash ∉ l.map Sigma.fst := by
        have hkeys := (List.nodupKeys_iff_pairwise.mp slotTxs.nodupKeys).sublist hsub
        intro hin
        obtain ⟨b, hb, heq⟩ := List.mem_map.mp hin
        exact (List.pairwise_cons.mp hkeys).1 b hb heq.symm
      cases hfirst : firstResult txResults.toList with
      | none =>
          obtain ⟨entries, hrun, hkeys, hmem⟩ := ih hrest results
          refine ⟨entries, ?_, hkeys.trans (List.sublist_cons_self _ _), ?_⟩
          · simp only [finalizeTxs, finalizeTx_none hfirst]
            exact hrun
          · intro e
            rw [hmem, List.map_cons, List.mem_cons]
            refine ⟨fun ⟨hin, hboth⟩ => ⟨Or.inr hin, hboth⟩, ?_⟩
            rintro ⟨heq | hin, hexec, hbuild⟩
            · rw [show e.hash = hash from heq, ← hex, hfirst] at hexec
              cases hexec
            · exact ⟨hin, hexec, hbuild⟩
      | some ir =>
          obtain ⟨i, r⟩ := ir
          have hexec := hex.mp hfirst
          obtain ⟨tx, hrec, hdone⟩ := isSlotComplete_iff.mp hcomplete hash i r hexec.result
          obtain ⟨t, hbuilds⟩ := hdecode hash i r hexec.result
          have hbuild : tx.build X = .ok t := by
            obtain ⟨tx', hrec', hbuild⟩ := hbuilds
            rw [hrec] at hrec'
            cases hrec'
            exact hbuild
          obtain ⟨entries, hrun, hkeys, hmem⟩ := ih hrest (results.insert i (t, r))
          refine ⟨⟨hash, i, t, r⟩ :: entries, ?_, hkeys.cons_cons _, ?_⟩
          · simp only [finalizeTxs, finalizeTx_some hfirst hrec hdone hbuild]
            exact hrun
          · intro e
            rw [List.mem_cons, hmem, List.map_cons, List.mem_cons]
            constructor
            · rintro (rfl | ⟨hin, hboth⟩)
              · exact ⟨Or.inl rfl, hexec, hbuilds⟩
              · exact ⟨Or.inr hin, hboth⟩
            · rintro ⟨heq | hin, hexec', hbuilds'⟩
              · obtain ⟨hash', i', t', r'⟩ := e
                change hash' = hash at heq
                subst heq
                obtain ⟨rfl, rfl⟩ := hexec.unique hexec'
                cases hbuilds.unique hbuilds'
                exact Or.inl rfl
              · exact Or.inr ⟨hin, hexec', hbuilds'⟩

/-- What `finalizeSlot` should return: an entry for every executed hash, with the
transaction its record builds, in the order of the indices. -/
def FinalizesAll (X : Crates) (p : DefaultTxParser) (slot : Slot) : Prop :=
  ∃ entries : List FinalEntry, (entries.map FinalEntry.hash).Nodup ∧
    (entries.Pairwise fun e e' => e.txIdx ≤ e'.txIdx) ∧
    (∀ e : FinalEntry, e ∈ entries ↔
      Executed p slot e.hash e.txIdx e.txResult ∧ Builds X p e.hash e.transaction) ∧
    p.finalizeSlot X slot = .ok (entries.map fun e => (e.transaction, e.txResult))

/-- No two hashes of the slot have their first results at the same index. -/
def IndicesDiffer (p : DefaultTxParser) (slot : Slot) : Prop :=
  ∀ hash hash' i r r', Executed p slot hash i r → Executed p slot hash' i r' → hash = hash'

theorem executed_mem {p : DefaultTxParser} {slot : Slot} {slotTxs : SlotResults} {hash : TxHash}
    {i : Nat} {r : TxResult} (hslot : p.resultsBySlot[slot]? = some slotTxs)
    (h : Executed p slot hash i r) : hash ∈ slotTxs.entries.map Sigma.fst := by
  have hr := h.result
  rw [resultAt, hslot, Option.bind_some] at hr
  cases hlookup : slotTxs.lookup hash with
  | none =>
      rw [hlookup] at hr
      cases hr
  | some results =>
      exact List.mem_map.mpr ⟨_, (HashMap.mem_entries slotTxs hash results).mpr hlookup, rfl⟩

/-- All entries of a slot, once the loop has gone through, and the map they are
filed in. -/
theorem finalizeSlot_eq {X : Crates} {p : DefaultTxParser} {slot : Slot}
    (hcomplete : p.isSlotComplete slot = .ok true)
    (hdecode : ∀ hash i r, p.resultAt slot hash i = some (some r) → ∃ t, Builds X p hash t) :
    ∃ entries : List FinalEntry, (entries.map FinalEntry.hash).Nodup ∧
      (∀ e : FinalEntry, e ∈ entries ↔
        Executed p slot e.hash e.txIdx e.txResult ∧ Builds X p e.hash e.transaction) ∧
      p.finalizeSlot X slot = .ok
        ((BTreeMap.insertAll ∅ (entries.map FinalEntry.filed)).toList.map Prod.snd) := by
  cases hslot : p.resultsBySlot[slot]? with
  | none =>
      refine ⟨[], List.nodup_nil, ?_, ?_⟩
      · intro e
        refine ⟨fun h => absurd h List.not_mem_nil, fun h => ?_⟩
        have hr := h.1.result
        rw [resultAt, hslot] at hr
        cases hr
      · simp only [finalizeSlot, hslot]
        rfl
  | some slotTxs =>
      obtain ⟨entries, hrun, hkeys, hmem⟩ :=
        finalizeTxs_eq hslot hcomplete hdecode slotTxs.entries (List.Sublist.refl _) ∅
      refine ⟨entries, ?_, ?_, ?_⟩
      · exact (List.pairwise_map.mpr
          (List.nodupKeys_iff_pairwise.mp slotTxs.nodupKeys)).sublist hkeys
      · intro e
        rw [hmem]
        exact ⟨And.right, fun h => ⟨executed_mem hslot h.1, h⟩⟩
      · simp only [finalizeSlot, hslot, hrun]

theorem map_filed_fst (entries : List FinalEntry) :
    (entries.map FinalEntry.filed).map Prod.fst = entries.map FinalEntry.txIdx := by
  rw [List.map_map]
  rfl

/-- Entries with distinct indices are filed in the order of their indices. -/
theorem exists_inOrder {entries : List FinalEntry}
    (hdistinct : (entries.map FinalEntry.txIdx).Nodup) :
    ∃ listed : List FinalEntry, listed.Perm entries ∧
      listed.Pairwise (fun e e' => e.txIdx ≤ e'.txIdx) ∧
      (BTreeMap.insertAll ∅ (entries.map FinalEntry.filed)).toList
        = listed.map FinalEntry.filed := by
  let inOrder (e e' : FinalEntry) : Bool := decide (e.txIdx ≤ e'.txIdx)
  have hperm : (entries.mergeSort inOrder).Perm entries := List.mergeSort_perm _ _
  have hsorted : (entries.mergeSort inOrder).Pairwise fun e e' => e.txIdx ≤ e'.txIdx := by
    have hle : (entries.mergeSort inOrder).Pairwise fun e e' => inOrder e e' = true := by
      refine List.pairwise_mergeSort ?_ ?_ entries
      · intro a b c hab hbc
        simp only [inOrder, decide_eq_true_eq] at *
        omega
      · intro a b
        simp only [inOrder, Bool.or_eq_true, decide_eq_true_eq]
        omega
    exact hle.imp of_decide_eq_true
  have hstrict : ((entries.mergeSort inOrder).map FinalEntry.filed).Pairwise
      fun a b => a.1 < b.1 := by
    have hne : ((entries.mergeSort inOrder).map FinalEntry.txIdx).Nodup :=
      (hperm.map FinalEntry.txIdx).nodup_iff.mpr hdistinct
    rw [List.Nodup, List.pairwise_map] at hne
    rw [List.pairwise_map]
    exact hsorted.imp₂ (fun a b hle hne => Nat.lt_of_le_of_ne hle hne) hne
  refine ⟨entries.mergeSort inOrder, hperm, hsorted, BTreeMap.toList_eq_of_ascending hstrict ?_⟩
  intro k v
  rw [← map_filed_fst] at hdistinct
  rw [BTreeMap.get?_insertAll _ hdistinct, (hperm.map FinalEntry.filed).mem_iff,
    Std.ExtTreeMap.getElem?_empty]
  simp

/-- No transaction is lost at finalization, and each is returned once and in
order, if and only if no two of the slot share their first index. -/
theorem finalizeSlot_all_iff {X : Crates} {p : DefaultTxParser} {slot : Slot}
    (hcomplete : p.isSlotComplete slot = .ok true)
    (hdecode : ∀ hash i r, p.resultAt slot hash i = some (some r) → ∃ t, Builds X p hash t) :
    FinalizesAll X p slot ↔ IndicesDiffer p slot := by
  obtain ⟨entries, hnodup, hmem, hrun⟩ := finalizeSlot_eq hcomplete hdecode
  -- both sides say that the indices under which entries are filed are distinct
  have hentry : ∀ {hash i r}, Executed p slot hash i r →
      ∃ t, (⟨hash, i, t, r⟩ : FinalEntry) ∈ entries := by
    intro hash i r hex
    obtain ⟨t, ht⟩ := hdecode hash i r hex.result
    exact ⟨t, (hmem ⟨hash, i, t, r⟩).mpr ⟨hex, ht⟩⟩
  constructor
  · intro ⟨listed, hnodup', _, hmem', hrun'⟩
    have hperm : listed.Perm entries := by
      rw [List.perm_ext_iff_of_nodup (List.Nodup.of_map _ hnodup') (List.Nodup.of_map _ hnodup)]
      intro e
      rw [hmem', hmem]
    have hlength : (BTreeMap.insertAll ∅ (entries.map FinalEntry.filed)).toList.length
        = (entries.map FinalEntry.filed).length := by
      rw [hrun] at hrun'
      have heq := congrArg List.length (Except.ok.inj hrun')
      rw [List.length_map, List.length_map] at heq
      rw [heq, List.length_map, hperm.length_eq]
    have hdistinct := BTreeMap.nodup_of_length_insertAll hlength
    rw [map_filed_fst] at hdistinct
    intro hash hash' i r r' hex hex'
    obtain ⟨t, ht⟩ := hentry hex
    obtain ⟨t', ht'⟩ := hentry hex'
    exact congrArg FinalEntry.hash (List.inj_on_of_nodup_map hdistinct ht ht' rfl)
  · intro hdiffer
    have hdistinct : (entries.map FinalEntry.txIdx).Nodup := by
      refine (List.nodup_map_iff_inj_on (List.Nodup.of_map _ hnodup)).mpr ?_
      intro e he e' he' heq
      have hex := ((hmem e).mp he).1
      have hex' := ((hmem e').mp he').1
      rw [← heq] at hex'
      have hhash := hdiffer _ _ _ _ _ hex hex'
      exact List.inj_on_of_nodup_map hnodup he he' hhash
    obtain ⟨listed, hperm, hsorted, hlisted⟩ := exists_inOrder hdistinct
    refine ⟨listed, ?_, hsorted, ?_, ?_⟩
    · exact (hperm.map FinalEntry.hash).nodup_iff.mpr hnodup
    · intro e
      rw [hperm.mem_iff, hmem]
    · rw [hrun, hlisted, List.map_map]
      rfl

/-! Two transactions executed by instructions of one Solana transaction, the one
with index 0. -/

def twoInOne : ParsedTxs :=
  (ParsedTxs.addStep ∅ 1 0 (.smallTx (bareTx 1) (some .default))).addStep 2 0
    (.smallTx (bareTx 2) (some .default))

def afterTwoInOne : DefaultTxParser := (new.registerSlotTransactions 5 twoInOne).1

theorem finalizeSlot_loses_one : (∃ tr, Machine.Run freshParser tr afterTwoInOne) ∧
    afterTwoInOne.isSlotComplete 5 = .ok true ∧
    (∀ hash i r, afterTwoInOne.resultAt 5 hash i = some (some r) →
      ∃ t, Builds standIns afterTwoInOne hash t) ∧
    ¬ FinalizesAll standIns afterTwoInOne 5 := by
  have hrun : ∃ tr, Machine.Run freshParser tr afterTwoInOne :=
    ⟨_, parserFrom_register (.start rfl) 5 twoInOne (by decide)⟩
  have hcomplete : afterTwoInOne.isSlotComplete 5 = .ok true := by decide
  have hbuilds : ∀ hash, afterTwoInOne.record hash = some (.smallEvmTx (bareTx hash)) →
      Builds standIns afterTwoInOne hash (bareTx hash) := fun hash hrec => ⟨_, hrec, rfl⟩
  have hex : ∀ hash, afterTwoInOne.resultAt 5 hash 0 = some (some .default) →
      Executed afterTwoInOne 5 hash 0 .default := fun hash hr => ⟨hr, fun i _ _ => Nat.zero_le i⟩
  refine ⟨hrun, hcomplete, ?_, ?_⟩
  · intro hash i r hr
    obtain ⟨tx, hrec, _⟩ := isSlotComplete_iff.mp hcomplete hash i r hr
    have hkeys : afterTwoInOne.transactionsByHash.keys = [1, 2] := by decide
    have hin : hash ∈ afterTwoInOne.transactionsByHash.keys := by
      rw [← AList.mem_keys, ← AList.lookup_isSome]
      exact Option.isSome_iff_exists.mpr ⟨tx, hrec⟩
    rw [hkeys] at hin
    simp only [List.mem_cons, List.not_mem_nil, or_false] at hin
    rcases hin with rfl | rfl
    · exact ⟨_, hbuilds 1 (by rfl)⟩
    · exact ⟨_, hbuilds 2 (by rfl)⟩
  · intro ⟨entries, _, _, hmem, hfinal⟩
    have hlength : entries.length = 1 := by
      have hone : (afterTwoInOne.finalizeSlot standIns 5).toOption.map List.length = some 1 := by
        decide
      rw [hfinal] at hone
      simpa [Except.toOption] using hone
    have h1 := (hmem ⟨1, 0, bareTx 1, .default⟩).mpr
      ⟨hex 1 (by decide), hbuilds 1 (by rfl)⟩
    have h2 := (hmem ⟨2, 0, bareTx 2, .default⟩).mpr
      ⟨hex 2 (by decide), hbuilds 2 (by rfl)⟩
    obtain ⟨e, rfl⟩ := List.length_eq_one_iff.mp hlength
    rw [List.mem_singleton] at h1 h2
    rw [← h2] at h1
    exact absurd (congrArg FinalEntry.hash h1) (by decide)

def afterOne : DefaultTxParser :=
  (new.registerSlotTransactions 5
    (ParsedTxs.addStep ∅ 1 0 (.smallTx (bareTx 1) (some .default)))).1

theorem finalizeSlot_all_one : FinalizesAll standIns afterOne 5 := by
  have hexec : ∀ hash i r, afterOne.resultAt 5 hash i = some (some r) → hash = 1 := by
    intro hash i r hr
    by_contra hne
    rw [resultAt] at hr
    have hkeys : (afterOne.resultsBySlot[5]?).map AList.keys = some [1] := by decide
    cases hslot : afterOne.resultsBySlot[5]? with
    | none =>
        rw [hslot] at hkeys
        cases hkeys
    | some slotTxs =>
        rw [hslot] at hkeys hr
        have hnone : AList.lookup hash slotTxs = none := by
          rw [AList.lookup_eq_none, AList.mem_keys, Option.some.inj hkeys]
          simpa using hne
        rw [Option.bind_some, hnone] at hr
        cases hr
  refine (finalizeSlot_all_iff (by decide) ?_).mpr ?_
  · intro hash i r hr
    cases hexec hash i r hr
    exact ⟨bareTx 1, .smallEvmTx (bareTx 1), by rfl, rfl⟩
  · intro hash hash' i r r' hex hex'
    rw [hexec _ _ _ hex.result, hexec _ _ _ hex'.result]

end DefaultTxParser

end RomeSdk
