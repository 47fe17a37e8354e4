import RomeSdk.Proofs.RegistrationOutcome

/-!
# The record of a transaction over calls and runs

A record comes into being with the first step of its hash and is a small or a
big one from then on; of all later steps only chunks change it. So what a call
leaves of a record is `updateAll` over the chunks the call lists for the hash
(`run_eq_updateAll`), and what is known about sequences of chunks carries over to
calls and to runs of the parser.
-/

namespace RomeSdk

namespace DefaultTxParser

/-- The chunks among the steps of a hash. -/
def chunksOf (steps : List ParsedTxStep) : List (Nat × Bytes) :=
  steps.filterMap fun step =>
    match step with
    | .transmitTx offset data => some (offset, data)
    | _ => none

/-- The record the steps of a hash work on: the one there is, or the one the
first of them makes. -/
def firstRecord : Option EvmTx → List ParsedTxStep → Option EvmTx
  | some tx, _ => some tx
  | none, [] => none
  | none, .smallTx tx _ :: _ => some (.newSmallTx tx)
  | none, _ :: _ => some .newBigTx

theorem forTry_firstRecord {o : Option EvmTx} {steps : List ParsedTxStep} (h : steps ≠ []) :
    forTry recordStep steps o = forTry recordStep steps (firstRecord o steps) := by
  cases o with
  | some tx => rfl
  | none =>
      cases steps with
      | nil => exact absurd rfl h
      | cons step steps => cases step <;> rfl

/-- Steps that go through leave what their chunks make of the record. -/
theorem run_eq_updateAll (steps : List ParsedTxStep) : ∀ {tx : EvmTx} {o' : Option EvmTx},
    forTry recordStep steps (some tx) = (o', .ok ()) →
      ∃ tx', tx.updateAll (chunksOf steps) = .ok tx' ∧ o' = some tx' := by
  induction steps with
  | nil =>
      intro tx o' h
      cases h
      exact ⟨tx, rfl, rfl⟩
  | cons step steps ih =>
      intro tx o' h
      obtain ⟨o₁, hstep, hrest⟩ := forTry_cons_inv h
      rcases recordStep_cases hstep with ⟨t, r, rfl, rfl⟩ | ⟨r, rfl, rfl⟩ |
        ⟨offset, data, updated, rfl, hup, rfl⟩
      · exact ih hrest
      · exact ih hrest
      · obtain ⟨tx', hall, ho'⟩ := ih hrest
        exact ⟨tx', by rw [← hall]; exact EvmTx.updateAll_cons_ok hup, ho'⟩

/-- And steps whose chunks are accepted go through. -/
theorem run_of_updateAll (steps : List ParsedTxStep) : ∀ {tx tx' : EvmTx},
    tx.updateAll (chunksOf steps) = .ok tx' →
      forTry recordStep steps (some tx) = (some tx', .ok ()) := by
  induction steps with
  | nil =>
      intro tx tx' h
      cases h
      rfl
  | cons step steps ih =>
      intro tx tx' h
      cases step with
      | smallTx t r => exact ih h
      | bigTx r => exact ih h
      | transmitTx offset data =>
          change tx.updateAll ((offset, data) :: chunksOf steps) = .ok tx' at h
          cases hup : tx.updateTxHolder offset data with
          | error e =>
              rw [EvmTx.updateAll, List.foldlM_cons, hup] at h
              cases h
          | ok tx₁ =>
              rw [EvmTx.updateAll_cons_ok hup] at h
              have hstep : recordStep (some tx) (.transmitTx offset data) = (some tx₁, .ok ()) := by
                simp only [recordStep, Option.getD_some, hup]
              rw [forTry_cons_ok hstep]
              exact ih h

theorem chunksOf_done {done steps : List ParsedTxStep} (h : done <+: steps) :
    chunksOf done <+: chunksOf steps := by
  obtain ⟨rest, rfl⟩ := h
  rw [chunksOf, chunksOf, List.filterMap_append]
  exact List.prefix_append _ _

theorem isSmall_updateAll (chunks : List (Nat × Bytes)) : ∀ {tx tx' : EvmTx},
    tx.updateAll chunks = .ok tx' → isSmall (some tx) = true → tx' = tx := by
  cases chunks with
  | nil =>
      intro tx tx' h _
      cases h
      rfl
  | cons c chunks =>
      intro tx tx' h hsmall
      cases tx with
      | bigEvmTx buffer pieces => cases hsmall
      | smallEvmTx t => cases h

/-! ## A transaction executed directly -/

/-- A record from which `tx` can be had once these chunks are filed: the small
one of `tx`, or a holder whose pieces then have no gap and decode to `tx`. -/
def Available (X : Crates) (tx : Transaction) (chunks : List (Nat × Bytes)) : EvmTx → Prop
  | .smallEvmTx t => t = tx
  | .bigEvmTx holderData pieces =>
      ∃ whole, (EvmTx.bigEvmTx holderData pieces).updateAll chunks = .ok whole ∧
        (∃ b, Tiles whole.pieces.toList 0 b ∧ b ≠ 0) ∧
          decodeTransactionFromRlp X whole.holderData = .ok tx

theorem exists_firstRecord {steps : List ParsedTxStep} (h : steps ≠ []) (o : Option EvmTx) :
    ∃ start, firstRecord o steps = some start := by
  cases o with
  | some t => exact ⟨t, rfl⟩
  | none =>
      cases steps with
      | nil => exact absurd rfl h
      | cons step steps => cases step <;> exact ⟨_, rfl⟩

/-- Steps that go through leave a record from which `tx` is built just if it could be had from
the record they started with. -/
theorem built_iff_available {X : Crates} {tx : Transaction} {steps : List ParsedTxStep}
    {start whole : EvmTx} (hrun : forTry recordStep steps (some start) = (some whole, .ok ())) :
    (whole.isDataComplete = true ∧ whole.build X = .ok tx) ↔
      Available X tx (chunksOf steps) start := by
  obtain ⟨whole', hall, heq⟩ := run_eq_updateAll steps hrun
  cases heq
  cases start with
  | smallEvmTx t =>
      have hwhole := isSmall_updateAll _ hall rfl
      subst hwhole
      constructor
      · intro ⟨_, hbuild⟩
        cases hbuild
        exact rfl
      · intro havail
        change t = tx at havail
        subst havail
        exact ⟨rfl, rfl⟩
  | bigEvmTx buffer pieces =>
      cases whole with
      | smallEvmTx t =>
          have hkind := isSmall_of_run_some steps hrun
          cases hkind
      | bigEvmTx buffer' pieces' =>
          constructor
          · intro ⟨hcomplete, hbuild⟩
            exact ⟨_, hall, EvmTx.isDataComplete_iff_ends.mp hcomplete, hbuild⟩
          · intro ⟨whole', hall', hends, hdecode⟩
            rw [hall] at hall'
            cases hall'
            exact ⟨EvmTx.isDataComplete_iff_ends.mpr hends, hdecode⟩

def partlySent : DefaultTxParser :=
  (new.registerSlotTransactions 7 (ParsedTxs.addStep ∅ 1 0 (.transmitTx 5 [1]))).1

def sentDirectly : ParsedTxs := ParsedTxs.addStep ∅ 1 0 (.smallTx (bareTx 1) (some .default))

/-- The chunks a call lists for a hash are harmless for its record. Forgetting
slots takes the record away and is left out. -/
def RegistersHarmless (X : Crates) (hash : TxHash) (p : DefaultTxParser) (op : ParserOp) : Prop :=
  match op with
  | .register _ slotTxs =>
      ∀ tx, p.record hash = some tx →
        EvmTx.HarmlessAll X tx (chunksOf (stepsOf hash slotTxs.inOrder))
  | .retainFromSlot _ => False
  | .rehash => True

/-- A complete holder record: exactly the harmless chunks leave it alone, one by
one or in sequence, and a run of the parser that lists only such chunks for its
hash never changes what was complete. -/
theorem complete_record_kept {X : Crates} {tx : EvmTx} (hbuilt : EvmTx.Built tx)
    (hcomplete : tx.isDataComplete = true) :
    (∀ offset data, (∃ tx', tx.updateTxHolder offset data = .ok tx' ∧ EvmTx.Kept X tx tx') ↔
      EvmTx.Harmless X tx offset data) ∧
    (∀ chunks, (∀ done, done <+: chunks →
        ∃ tx', tx.updateAll done = .ok tx' ∧ EvmTx.Kept X tx tx') ↔
      EvmTx.HarmlessAll X tx chunks) ∧
    ∀ hash p, p.record hash = some tx → ∀ tr q, Machine.Run (parserFrom p) tr q →
      Machine.Meets (RegistersHarmless X hash) tr →
        ∀ s ∈ Machine.visited tr q, ∃ tx', s.record hash = some tx' ∧ EvmTx.Kept X tx tx' := by
  refine ⟨fun offset data => EvmTx.kept_update_iff offset data hbuilt hcomplete,
    fun chunks => EvmTx.kept_updateAll_iff chunks hbuilt hcomplete, ?_⟩
  intro hash p hrecord tr q hrun hmeets s hs
  have hinv := hrun.invariant_always
    (I := fun s => ∃ tx', s.record hash = some tx' ∧ EvmTx.Built tx' ∧ EvmTx.Kept X tx tx')
    ?_ ?_ hmeets s hs
  · obtain ⟨tx', hrec, _, hkept⟩ := hinv
    exact ⟨tx', hrec, hkept⟩
  · intro s hinit
    cases hinit
    exact ⟨tx, hrecord, hbuilt, .refl hcomplete⟩
  · intro s op s' ⟨tx₁, hrec, hbuilt₁, hkept₁⟩ hop hstep
    cases op with
    | retainFromSlot fromSlot => exact hop.elim
    | rehash =>
        change DefaultTxParser.Same s s' at hstep
        exact ⟨tx₁, by rw [← hstep.record]; exact hrec, hbuilt₁, hkept₁⟩
    | register slot slotTxs =>
        obtain ⟨_, rfl⟩ := hstep
        obtain ⟨done, hdone, hafter, _⟩ := registerSlotTransactions_record s slot slotTxs hash
        have hharm := (hop tx₁ hrec).of_done (chunksOf_done hdone)
        obtain ⟨tx₂, hall, hbuilt₂, hkept₂⟩ :=
          EvmTx.HarmlessAll.kept _ hbuilt₁ hkept₁.complete hharm
        refine ⟨tx₂, ?_, hbuilt₂, hkept₁.trans hkept₂⟩
        rw [hafter, hrec, run_of_updateAll _ hall]

/-! A complete record of two bytes, and a stray byte sent to its middle. -/

def twoBytes : EvmTx := .bigEvmTx [1, 2] ((∅ : BTreeMap Nat Nat).insert 0 2)

theorem twoBytes_built : EvmTx.Built twoBytes :=
  EvmTx.Built.newBigTx.update
    (show EvmTx.newBigTx.updateTxHolder 0 [1, 2] = .ok twoBytes from by rfl)

theorem stray_chunk_breaks : EvmTx.Built twoBytes ∧ twoBytes.isDataComplete = true ∧
    ((twoBytes.updateTxHolder 1 [9]).toOption.map EvmTx.isDataComplete) = some false :=
  ⟨twoBytes_built, by decide, by decide⟩

theorem known_chunk_kept :
    ∃ tx', twoBytes.updateTxHolder 0 [7] = .ok tx' ∧ EvmTx.Kept standIns twoBytes tx' :=
  ((complete_record_kept twoBytes_built (by decide)).1 0 [7]).mpr (Or.inl (by decide))

/-! ## A transaction transmitted in chunks -/

/-- Calls that list nothing under `hash` but chunks of `C`. Steps of other
transactions may be listed with them as long as the call succeeds. -/
def Transmits (hash : TxHash) (C : List (Nat × Bytes)) (p : DefaultTxParser) (op : ParserOp) :
    Prop :=
  match op with
  | .register slot slotTxs =>
      (∀ step ∈ stepsOf hash slotTxs.inOrder, ∃ c ∈ C, step = .transmitTx c.1 c.2) ∧
        ((∀ e ∈ slotTxs.inOrder, e.1 = hash) ∨
          (p.registerSlotTransactions slot slotTxs).2 = .ok ())
  | .retainFromSlot _ => False
  | .rehash => True

/-- The chunks a run listed under a hash. -/
def delivered (hash : TxHash) (tr : List (DefaultTxParser × ParserOp)) : List (Nat × Bytes) :=
  tr.flatMap fun e =>
    match e.2 with
    | .register _ slotTxs => chunksOf (stepsOf hash slotTxs.inOrder)
    | _ => []

theorem delivered_register (hash : TxHash) (tr : List (DefaultTxParser × ParserOp))
    (p : DefaultTxParser) (slot : Slot) (slotTxs : ParsedTxs) :
    delivered hash (tr ++ [(p, .register slot slotTxs)])
      = delivered hash tr ++ chunksOf (stepsOf hash slotTxs.inOrder) := by
  simp [delivered]

theorem delivered_rehash (hash : TxHash) (tr : List (DefaultTxParser × ParserOp))
    (p : DefaultTxParser) : delivered hash (tr ++ [(p, .rehash)]) = delivered hash tr := by
  simp [delivered]

/-- The record with which the chunks `S` have been delivered; with none there may
be no record. -/
structure Receives (rlp : Bytes) (C S : List (Nat × Bytes)) (o : Option EvmTx) : Prop where
  listed : ∀ c ∈ S, c ∈ C
  tracks : EvmTx.Tracks S (o.getD .newBigTx)
  carries : EvmTx.Carries rlp (o.getD .newBigTx)

theorem mem_chunksOf {steps : List ParsedTxStep} {C : List (Nat × Bytes)}
    (h : ∀ step ∈ steps, ∃ c ∈ C, step = .transmitTx c.1 c.2) : ∀ c ∈ chunksOf steps, c ∈ C := by
  intro c hc
  obtain ⟨step, hstep, hsome⟩ := List.mem_filterMap.mp hc
  obtain ⟨c', hc', rfl⟩ := h step hstep
  cases hsome
  exact hc'

/-- Chunks of the cutting go through and are added to those delivered. -/
theorem Receives.run {rlp : Bytes} {C S : List (Nat × Bytes)} {o : Option EvmTx}
    {steps : List ParsedTxStep} (hC : TransmitTx.Cuts rlp C) (hsize : rlp.length ≤ isizeMax)
    (h : Receives rlp C S o) (hsteps : ∀ step ∈ steps, ∃ c ∈ C, step = .transmitTx c.1 c.2) :
    ∃ o', forTry recordStep steps o = (o', .ok ()) ∧
      Receives rlp C (S ++ chunksOf steps) o' := by
  have hchunks := mem_chunksOf hsteps
  obtain ⟨tx', hall, htracks, hcarries⟩ :=
    EvmTx.updateAll_chunks hC hsize (chunksOf steps) h.tracks h.carries h.listed hchunks
  have hlisted : ∀ c ∈ S ++ chunksOf steps, c ∈ C := by
    intro c hc
    rcases List.mem_append.mp hc with hc | hc
    · exact h.listed c hc
    · exact hchunks c hc
  cases steps with
  | nil =>
      refine ⟨o, rfl, hlisted, ?_, h.carries⟩
      rw [show chunksOf [] = [] from rfl, List.append_nil]
      exact h.tracks
  | cons step steps =>
      refine ⟨some tx', ?_, hlisted, htracks, hcarries⟩
      obtain ⟨c, _, rfl⟩ := hsteps step (List.mem_cons_self ..)
      have hfirst : firstRecord o (.transmitTx c.1 c.2 :: steps) = some (o.getD .newBigTx) := by
        cases o <;> rfl
      rw [forTry_firstRecord (by simp), hfirst]
      exact run_of_updateAll _ hall

/-- A call that lists the steps of one hash only succeeds if they go through. -/
theorem Receives.register {rlp : Bytes} {C S : List (Nat × Bytes)} {p : DefaultTxParser}
    {slot : Slot} {slotTxs : ParsedTxs} {hash : TxHash} (hC : TransmitTx.Cuts rlp C)
    (hsize : rlp.length ≤ isizeMax) (h : Receives rlp C S (p.record hash))
    (hop : Transmits hash C p (.register slot slotTxs)) :
    (p.registerSlotTransactions slot slotTxs).2 = .ok () ∧
      Receives rlp C (S ++ chunksOf (stepsOf hash slotTxs.inOrder))
        ((p.registerSlotTransactions slot slotTxs).1.record hash) := by
  obtain ⟨hsteps, honly⟩ := hop
  obtain ⟨o', hrun, hreceives⟩ := h.run hC hsize hsteps
  have hok : (p.registerSlotTransactions slot slotTxs).2 = .ok () := by
    rcases honly with honly | hok
    · refine registerSlotTransactions_ok_iff.mpr fun h => ?_
      by_cases hh : h = hash
      · subst hh
        rw [hashRun, hrun]
      · rw [hashRun, stepsOf_eq_nil fun e he heq => hh (heq.symm.trans (honly e he))]
        rfl
    · exact hok
  refine ⟨hok, ?_⟩
  obtain ⟨done, _, hafter, hall⟩ := registerSlotTransactions_record p slot slotTxs hash
  rw [(hall hok).1] at hafter
  rw [hafter, hrun]
  exact hreceives

theorem Receives.of_run {rlp : Bytes} {C : List (Nat × Bytes)} {hash : TxHash}
    (hC : TransmitTx.Cuts rlp C) (hsize : rlp.length ≤ isizeMax)
    {tr : List (DefaultTxParser × ParserOp)} {q : DefaultTxParser}
    (hrun : Machine.Run freshParser tr q) (hmeets : Machine.Meets (Transmits hash C) tr) :
    Receives rlp C (delivered hash tr) (q.record hash) := by
  induction hrun with
  | start hinit =>
      cases hinit
      refine ⟨?_, .newBigTx, .newBigTx rlp⟩
      intro c hc
      cases hc
  | @next tr s t op hrun hstep ih =>
      obtain ⟨htr, hop⟩ := Machine.meets_append.mp hmeets
      have hreceives := ih htr
      cases op with
      | retainFromSlot fromSlot => exact hop.elim
      | rehash =>
          change DefaultTxParser.Same s t at hstep
          rw [← hstep.record, delivered_rehash]
          exact hreceives
      | register slot slotTxs =>
          obtain ⟨_, rfl⟩ := hstep
          rw [delivered_register]
          exact (hreceives.register hC hsize hop).2

/-- The instructions `ixs` sends carry the chunks it cuts, and whenever all of
them have been listed under the hash, in whatever order, number and grouping,
the holder record is the rlp again. -/
theorem transmit_reassemble {X : Crates} (hargs : X.romeEvm.InvertsLayout) {t : TransmitTx}
    {batches : List (List Instruction)} (hixs : t.ixs X = .ok batches) (hne : t.rlp ≠ [])
    (hsize : t.rlp.length ≤ isizeMax) :
    ∃ C, t.chunks = .ok C ∧
      batches.map (List.map fun ix => X.romeEvm.transmitTxArgs (ix.data.drop 1))
        = C.map (fun c => [.ok (c.1, t.hash, t.txBuilder.chainId.toNat, c.2)]) ∧
      ∀ tr q, Machine.Run freshParser tr q → Machine.Meets (Transmits t.hash C) tr →
        (∀ slot slotTxs, Transmits t.hash C q (.register slot slotTxs) →
          (q.registerSlotTransactions slot slotTxs).2 = .ok ()) ∧
        ((∀ c ∈ C, c ∈ delivered t.hash tr) →
          ∃ tx, q.record t.hash = some tx ∧ tx.holderData = t.rlp ∧ tx.isDataComplete = true ∧
            tx.build X = decodeTransactionFromRlp X t.rlp) := by
  obtain ⟨C, hchunks, hC⟩ := t.chunks_cuts
  obtain ⟨C', emulation, hchunks', hbatches⟩ := TransmitTx.ixs_eq hixs
  rw [hchunks] at hchunks'
  cases hchunks'
  refine ⟨C, hchunks, ?_, ?_⟩
  · rw [hbatches, List.map_map]
    refine List.map_congr_left ?_
    intro c hc
    have hfits := (hC.slices c hc).fits
    have hmax : isizeMax < usizeMax := by decide
    exact congrArg (fun r => [r]) (hargs _ _ _ _ _ (by omega))
  · intro tr q hrun hmeets
    have hreceives := Receives.of_run hC hsize hrun hmeets
    refine ⟨fun slot slotTxs hop => (hreceives.register hC hsize hop).1, ?_⟩
    intro hall
    obtain ⟨hdata, hcomplete⟩ :=
      hreceives.tracks.whole hC hreceives.carries hreceives.listed hall (hC.ne_nil hne)
    cases hrec : q.record t.hash with
    | none =>
        rw [hrec] at hdata
        exact absurd hdata.symm hne
    | some tx =>
        rw [hrec] at hdata hcomplete
        refine ⟨tx, rfl, hdata, hcomplete, ?_⟩
        have hbuilt : EvmTx.Built tx := by
          have := hreceives.tracks.built
          rwa [hrec] at this
        rw [← (show tx.holderData = t.rlp from hdata), hbuilt.big]
        rfl

theorem transmit_reassemble_one_byte :
    ∃ tx, (new.registerSlotTransactions 5
        (ParsedTxs.addStep ∅ 9 0 (.transmitTx 0 [42]))).1.record 9 = some tx ∧
      tx.holderData = [42] ∧ tx.isDataComplete = true ∧
      tx.build standIns = decodeTransactionFromRlp standIns [42] := by
  obtain ⟨C, hchunks, _, hruns⟩ := transmit_reassemble (t := transmitOf [42])
    standIns_invertsLayout rfl (by decide) (by decide)
  have hC : C = [(0, [42])] := by
    have : (transmitOf [42]).chunks = .ok [(0, [42])] := rfl
    rw [this] at hchunks
    cases hchunks
    rfl
  subst hC
  have hsteps : stepsOf 9 (ParsedTxs.addStep ∅ 9 0 (.transmitTx 0 [42])).inOrder
      = [.transmitTx 0 [42]] := by decide
  refine (hruns _ _ (parserFrom_register (.start rfl) 5
    (ParsedTxs.addStep ∅ 9 0 (.transmitTx 0 [42])) (by decide)) ?_).2 ?_
  · intro e he
    cases List.mem_singleton.mp he
    refine ⟨?_, Or.inr (by decide)⟩
    rw [show (transmitOf [42]).hash = 9 from rfl, hsteps]
    intro step hstep
    exact ⟨(0, [42]), List.mem_singleton.mpr rfl, List.mem_singleton.mp hstep⟩
  · intro c hc
    rw [delivered_register, show (transmitOf [42]).hash = 9 from rfl, hsteps]
    exact hc

end DefaultTxParser

end RomeSdk
