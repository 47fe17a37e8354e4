import RomeSdk.Indexer.ReorgRun
import RomeSdk.Proofs.ReorgCoverage
import RomeSdk.Proofs.RecheckedSlots

/-!
# The way of a reorg event

A stored eth block is stale when the Solana block at its slot is no longer the one
it was parsed from. While both services run, a stale block is on its way out: an
event for its slot or a lower one is about to be sent, queued, or about to be
worked off (`OnItsWay`). That event is in memory, and a restart, or an indexer
that ends, loses it. The loader has stored the new blocks before it sends, so a
recheck finds them equal to the chain and sends nothing again (`Differs`): the
stale blocks stay.

The order of calls the steps assume is that of the services: a loader sends after
an update and sends its lowest slot (`recheck_calls`), and an indexer cleans for an
event it has taken, or registers what it has just parsed (`runRound_calls`).
-/

open Std.Do

set_option mvcgen.warning false

namespace RomeSdk

/-! ## The calls of the loader -/

namespace SolanaBlockLoader

variable {σ γ : Type} {f : σ → γ}

theorem preserves_liftOutcome {α : Type} (r : Outcome α) :
    EStateM.Preserves f (liftOutcome r : Eff σ α) := by
  cases r with
  | ok a => exact .pure a
  | error e => exact .throw e

/-- The queries of a client leave the part `f` of the world alone. -/
structure ClientPreserves (C : SolanaClient σ) (f : σ → γ) : Prop where
  transaction : ∀ signature commitment retries,
    EStateM.Preserves f (C.getTransactionWithConfig signature commitment retries)
  signatures : ∀ address config,
    EStateM.Preserves f (C.getSignaturesForAddressWithConfig address config)
  block : ∀ slot config retries, EStateM.Preserves f (C.getBlockWithConfig slot config retries)

variable {X : Crates} {L : SolanaBlockLoader σ}

theorem preserves_loadBlock (hC : ClientPreserves L.client f) (commitment : CommitmentLevel)
    (slot : Slot) : EStateM.Preserves f (L.loadBlock X commitment slot) := by
  have htransaction : ∀ signature, EStateM.Preserves f (L.loadTransaction signature commitment) := by
    intro signature
    refine .bind (hC.transaction _ _ _) fun tx => ?_
    cases tx with
    | none => exact .pure _
    | some tx => exact .bind (preserves_liftOutcome _) fun found => .pure _
  refine .bind (hC.block _ _ _) fun block => ?_
  cases block with
  | none => exact .pure _
  | some block =>
      refine .bind ?_ fun block => .pure _
      rw [loadBlockTransactions]
      split
      · exact .pure _
      · refine .bind (hC.signatures _ _) fun statuses => ?_
        refine .bind ?_ fun transactions => .pure _
        refine .bind (RollupIndexer.preserves_joinAll htransaction _) fun results => ?_
        exact .bind (RollupIndexer.preserves_ofResult _) fun txs => .pure _

theorem preserves_recheck (hC : ClientPreserves L.client f) (slot : Slot)
    (block : UiConfirmedBlock) : EStateM.Preserves f (L.recheckFinalizedBlock X slot block) := by
  refine .bind (RollupIndexer.preserves_attempt (hC.block _ _ _)) fun header => ?_
  match header with
  | .ok (some b) =>
      show EStateM.Preserves f (if b.blockhash ≠ block.blockhash then
        L.loadBlock X .finalized slot else pure none)
      split
      · exact preserves_loadBlock hC _ _
      · exact .pure _
  | .ok none => exact .pure _
  | .error e => exact .throw _

theorem recording_client (L : SolanaBlockLoader σ) :
    ClientPreserves L.recording.client (Prod.snd : σ × List LoaderCall → List LoaderCall) where
  transaction _ _ _ := EStateM.preserves_unrecorded _
  signatures _ _ := EStateM.preserves_unrecorded _
  block _ _ _ := EStateM.preserves_unrecorded _

/-- The calls of a recheck: an update, and then at most the event for its lowest slot. -/
def RecheckCalls (calls : List LoaderCall) : Prop :=
  calls = [] ∨ ∃ blocks, calls = [.updated blocks] ∨
    ∃ slot, firstSlot blocks = some slot ∧ calls = [.updated blocks, .sent slot]

theorem recheck_calls (X : Crates) (L : SolanaBlockLoader σ)
    (blocks : BTreeMap Slot UiConfirmedBlock) (reorgEventTx : ReorgSender σ)
    (s : σ × List LoaderCall) :
    ∃ calls, RecheckCalls calls ∧
      ((L.recording.recheckFinalizedBlocks X blocks (recordingSender reorgEventTx)).after s).2 =
        s.2 ++ calls := by
  have hjoin := RollupIndexer.preserves_joinAll (fun e : Slot × UiConfirmedBlock =>
    preserves_recheck (X := X) (recording_client L) e.1 e.2) blocks.toList s
  simp only [EStateM.after, recheckFinalizedBlocks, bind, EStateM.bind] at hjoin ⊢
  cases hresults : RollupIndexer.joinAll
      (fun e : Slot × UiConfirmedBlock => L.recording.recheckFinalizedBlock X e.1 e.2)
      blocks.toList s with
  | error e t =>
      rw [hresults] at hjoin
      exact ⟨[], Or.inl rfl, hjoin.trans (List.append_nil _).symm⟩
  | ok results t =>
      rw [hresults] at hjoin
      have hlog : t.2 = s.2 := hjoin
      cases hupdated : updatedBlocks ((blocks.toList.map Prod.fst).zip results) ∅ with
      | error e =>
          refine ⟨[], Or.inl rfl, ?_⟩
          simp only [hupdated, Eff.ofResult, throw, throwThe, MonadExceptOf.throw, EStateM.throw_apply]
          exact hlog.trans (List.append_nil _).symm
      | ok updated =>
          simp only [hupdated, Eff.ofResult, pure, EStateM.pure, recording, recordingStorage,
            EStateM.recorded]
          cases hupdate : L.solanaBlockStorage.updateFinalizedBlocks updated t.1 with
          | error e u =>
              exact ⟨[], Or.inl rfl, hlog.trans (List.append_nil _).symm⟩
          | ok a u =>
              simp only [Option.toList]
              cases hfirst : firstSlot updated with
              | none =>
                  refine ⟨[.updated updated], Or.inr ⟨updated, Or.inl rfl⟩, ?_⟩
                  simp only [sendReorg, pure, EStateM.pure, hlog]
              | some slot =>
                  simp only [sendReorg, bind, EStateM.bind, Eff.attempt, recordingSender,
                    EStateM.recorded]
                  cases hsend : reorgEventTx slot u with
                  | ok b v =>
                      refine ⟨[.updated updated, .sent slot],
                        Or.inr ⟨updated, Or.inr ⟨slot, hfirst, rfl⟩⟩, ?_⟩
                      simp only [pure, EStateM.pure, Option.toList, hlog, List.append_assoc,
                        List.singleton_append]
                  | error e v =>
                      refine ⟨[.updated updated], Or.inr ⟨updated, Or.inl rfl⟩, ?_⟩
                      cases e <;> simp only [pure, EStateM.pure, hlog]

end SolanaBlockLoader

/-! ## The calls of the indexer -/

/-- The calls parse slots and do nothing else. -/
def ParsesOnly (calls : List Call) : Prop := ∀ c ∈ calls, ∃ slot r, c = .parsed slot r

/-- Each of the results was parsed. -/
def AllParsed (results : BTreeMap Slot BlockParseResult) (calls : List Call) : Prop :=
  ∀ (slot : Slot) (parseResult : BlockParseResult), results[slot]? = some parseResult →
    .parsed slot (some parseResult) ∈ calls

/-- Batch after batch: slots are parsed, and then their results registered. -/
inductive Batches : List Call → Prop
  | nil : Batches []
  | batch {parses rest : List Call} {results : BTreeMap Slot BlockParseResult} :
      ParsesOnly parses → AllParsed results parses → Batches rest →
        Batches (parses ++ .registered results :: rest)

theorem Batches.append {calls calls' : List Call} (h : Batches calls) (h' : Batches calls') :
    Batches (calls ++ calls') := by
  induction h with
  | nil => exact h'
  | batch hparses hresults _ ih =>
      rw [List.append_assoc, List.cons_append]
      exact .batch hparses hresults ih

/-- Batches, and at most a last one whose results are not registered. -/
def Unfinished (calls : List Call) : Prop :=
  ∃ done parses, calls = done ++ parses ∧ Batches done ∧ ParsesOnly parses

theorem Batches.unfinished {calls calls' : List Call} (h : Batches calls) (h' : Unfinished calls') :
    Unfinished (calls ++ calls') := by
  obtain ⟨done, parses, rfl, hdone, hparses⟩ := h'
  exact ⟨calls ++ done, parses, (List.append_assoc ..).symm, h.append hdone, hparses⟩

theorem parsesOnly_nil : ParsesOnly [] := fun _ hc => absurd hc (List.not_mem_nil)

theorem ParsesOnly.cons {slot : Slot} {r : Option BlockParseResult} {calls : List Call}
    (h : ParsesOnly calls) : ParsesOnly (.parsed slot r :: calls) := by
  intro c hc
  rcases List.mem_cons.mp hc with rfl | hc
  · exact ⟨slot, r, rfl⟩
  · exact h c hc

theorem ParsesOnly.unfinished {calls : List Call} (h : ParsesOnly calls) : Unfinished calls :=
  ⟨[], calls, rfl, .nil, h⟩

theorem unfinished_nil : Unfinished [] := parsesOnly_nil.unfinished

theorem Batches.failed {calls : List Call} (h : Batches calls) : Unfinished calls := by
  have hall := h.unfinished unfinished_nil
  rwa [List.append_nil] at hall

/-- What was recorded after `log` is of the kind `kind`. -/
def RecordedAfter (kind : List Call → Prop) (log calls : List Call) : Prop :=
  ∃ extra, calls = log ++ extra ∧ kind extra

theorem RecordedAfter.none {kind : List Call → Prop} {log calls : List Call} (hkind : kind [])
    (h : calls = log) : RecordedAfter kind log calls :=
  ⟨[], by rw [h, List.append_nil], hkind⟩

theorem RecordedAfter.imp {kind kind' : List Call → Prop} {log calls : List Call}
    (h : RecordedAfter kind log calls) (himp : ∀ extra, kind extra → kind' extra) :
    RecordedAfter kind' log calls := by
  obtain ⟨extra, hcalls, hextra⟩ := h
  exact ⟨extra, hcalls, himp extra hextra⟩

theorem RecordedAfter.trans {kind kind' kind'' : List Call → Prop} {log calls calls' : List Call}
    (h : RecordedAfter kind log calls) (h' : RecordedAfter kind' calls calls')
    (happend : ∀ extra extra', kind extra → kind' extra' → kind'' (extra ++ extra')) :
    RecordedAfter kind'' log calls' := by
  obtain ⟨extra, rfl, hextra⟩ := h
  obtain ⟨extra', rfl, hextra'⟩ := h'
  exact ⟨extra ++ extra', List.append_assoc .., happend extra extra' hextra hextra'⟩

theorem RecordedAfter.cons {kind kind' : List Call → Prop} {c : Call} {log calls : List Call}
    (h : RecordedAfter kind (log ++ [c]) calls) (hcons : ∀ extra, kind extra → kind' (c :: extra)) :
    RecordedAfter kind' log calls := by
  obtain ⟨extra, rfl, hextra⟩ := h
  exact ⟨c :: extra, List.append_cons .. ▸ rfl, hcons extra hextra⟩

theorem RecordedAfter.snoc {kind kind' : List Call → Prop} {c : Call} {log calls calls' : List Call}
    (h : RecordedAfter kind log calls) (hcalls : calls' = calls ++ [c])
    (hsnoc : ∀ extra, kind extra → kind' (extra ++ [c])) : RecordedAfter kind' log calls' := by
  obtain ⟨extra, rfl, hextra⟩ := h
  exact ⟨extra ++ [c], by rw [hcalls, List.append_assoc], hsnoc extra hextra⟩

/-- The calls of a round, on what the channel answered: a cleaning, or batches. -/
def RoundCalls : Except RollupIndexer.TryRecvError Slot → List Call → Prop
  | .ok reorgSlot, calls => calls = [.cleaned reorgSlot]
  | .error .empty, calls => Batches calls
  | .error .disconnected, calls => calls = []

/-- The calls of a round that fails. -/
def FailedRoundCalls : Except RollupIndexer.TryRecvError Slot → List Call → Prop
  | .error .empty, calls => Unfinished calls
  | _, calls => calls = []

namespace RollupIndexer

variable {σ : Type} {I : RollupIndexer σ}

/-- The calls that turn the results given into the results at the end. -/
def ParsesTo (given results : BTreeMap Slot BlockParseResult) (calls : List Call) : Prop :=
  ParsesOnly calls ∧ ∀ (slot : Slot) (parseResult : BlockParseResult),
    results[slot]? = some parseResult →
      given[slot]? = some parseResult ∨ .parsed slot (some parseResult) ∈ calls

theorem ParsesTo.nil (given : BTreeMap Slot BlockParseResult) : ParsesTo given given [] :=
  ⟨parsesOnly_nil, fun _ _ => Or.inl⟩

theorem ParsesTo.cons {given results : BTreeMap Slot BlockParseResult} {slot : Slot}
    {r : Option BlockParseResult} {calls : List Call}
    (h : ParsesTo (match r with | some p => given.insert slot p | none => given) results calls) :
    ParsesTo given results (.parsed slot r :: calls) := by
  obtain ⟨hparses, hresults⟩ := h
  refine ⟨hparses.cons, ?_⟩
  intro s parseResult hs
  rcases hresults s parseResult hs with hgiven | hextra
  · cases r with
    | none => exact Or.inl hgiven
    | some p =>
        have hget := BTreeMap.get?_insert given slot s p
        rw [show (given.insert slot p)[s]? = some parseResult from hgiven] at hget
        split at hget
        · next heq =>
            cases hget
            subst heq
            exact Or.inr (List.mem_cons_self ..)
        · exact Or.inl hget.symm
  · exact Or.inr (List.mem_cons_of_mem _ hextra)

theorem parseSlots_parses (slots : List Slot) :
    ∀ (given : BTreeMap Slot BlockParseResult) (log : List Call),
    ⦃fun st => ⌜st.2 = log⌝⦄ I.recording.parseSlots slots given
    ⦃post⟨fun results st => ⌜RecordedAfter (ParsesTo given results) log st.2⌝,
      fun _ st => ⌜RecordedAfter ParsesOnly log st.2⌝⟩⦄ := by
  induction slots with
  | nil =>
      intro given log
      rw [parseSlots]
      mvcgen
      next hlog => exact .none (.nil given) hlog
  | cons slot slots ih =>
      intro given log
      have hone := parse_spec (I := I) slot maxParseBehind log
      have hsome := fun p => ih (given.insert slot p) (log ++ [.parsed slot (some p)])
      have hnone := ih given (log ++ [.parsed slot none])
      have hcons : ∀ r extra, ParsesOnly extra → ParsesOnly (.parsed slot r :: extra) :=
        fun r extra hextra => hextra.cons
      rw [parseSlots]
      mvcgen [hone, hsome, hnone]
      · next r _ p _ _ _ results _ => exact fun hu => hu.cons fun extra hextra => .cons hextra
      · next r _ p _ _ _ e u => exact fun hu => hu.cons (hcons _)
      · next r _ _ _ _ results _ => exact fun hu => hu.cons fun extra hextra => .cons hextra
      · next r _ _ _ _ e u => exact fun hu => hu.cons (hcons _)
      · next e u => exact fun hu => .none parsesOnly_nil hu

theorem parseBlocksBatch_parses (fromSlot maxSlot batchSize : Slot) (log : List Call) :
    ⦃fun st => ⌜st.2 = log⌝⦄ I.recording.parseBlocksBatch fromSlot maxSlot batchSize
    ⦃post⟨fun r st => ⌜RecordedAfter (ParsesTo ∅ r.2) log st.2⌝,
      fun _ st => ⌜RecordedAfter ParsesOnly log st.2⌝⟩⦄ := by
  have hparse := parseSlots_parses (I := I) (List.range' fromSlot
    (fromSlot + min (maxSlot - fromSlot) batchSize - fromSlot)) ∅ log
  rw [parseBlocksBatch]
  mvcgen [hparse]

/-- A parsed batch whose results are registered. -/
theorem ParsesTo.batch {results : BTreeMap Slot BlockParseResult} {calls : List Call}
    (h : ParsesTo ∅ results calls) : Batches (calls ++ [.registered results]) := by
  refine .batch h.1 (fun slot parseResult hslot => ?_) .nil
  rcases h.2 slot parseResult hslot with hempty | hparsed
  · cases hempty
  · exact hparsed

theorem syncRound_calls (toSlot batchSize currentSlot : Slot) (log : List Call) :
    ⦃fun st => ⌜st.2 = log⌝⦄ I.recording.syncRound toSlot batchSize currentSlot
    ⦃post⟨fun _ st => ⌜RecordedAfter Batches log st.2⌝,
      fun _ st => ⌜RecordedAfter Unfinished log st.2⌝⟩⦄ := by
  rw [syncRound]
  mvcgen [parseBlocksBatch_parses, registerParseResults_spec, restoreOrProduceBlocks_spec,
    retainStorages_spec]
  · next s hs r t ht _ u hu _ v hv _ w hw =>
    rw [hs] at ht
    exact ht.snoc (by rw [hw, hv, hu]) fun extra hextra => hextra.batch
  · next s hs r t ht _ u hu _ v hv _ w =>
    intro hw
    rw [hs] at ht
    exact ht.snoc (by rw [hw, hv, hu]) fun extra hextra => hextra.batch.failed
  · next s hs r t ht _ u hu _ v =>
    intro hv
    rw [hs] at ht
    exact ht.snoc (by rw [hv, hu]) fun extra hextra => hextra.batch.failed
  · next s hs r t ht _ u =>
    intro hu
    rw [hs] at ht
    rw [hu]
    exact ht.imp fun extra hextra => hextra.1.unfinished
  · next s hs _ t =>
    intro ht
    rw [hs] at ht
    exact ht.imp fun extra hextra => hextra.unfinished

theorem syncLoop_calls (toSlot batchSize : Slot) (log : List Call) (rounds : Nat) :
    ∀ currentSlot : Slot,
    ⦃fun st => ⌜RecordedAfter Batches log st.2⌝⦄
    I.recording.syncLoop toSlot batchSize rounds currentSlot
    ⦃post⟨fun _ st => ⌜RecordedAfter Batches log st.2⌝,
      fun _ st => ⌜RecordedAfter Unfinished log st.2⌝⟩⦄ := by
  induction rounds with
  | zero =>
      intro currentSlot
      unfold syncLoop
      mvcgen
      next hst => exact hst.imp fun extra hextra => hextra.failed
  | succ rounds ih =>
      intro currentSlot
      unfold syncLoop
      mvcgen [syncRound_calls]
      · next s hs slot =>
        intro t ht
        exact ih slot t (hs.trans ht fun _ _ => Batches.append)
      · next s hs e t =>
        intro ht
        exact hs.trans ht fun _ _ => Batches.unfinished

theorem restoreOrProduceUntilInSync_calls (fromSlot batchSize : Slot) (log : List Call) :
    ⦃fun st => ⌜st.2 = log⌝⦄ I.recording.restoreOrProduceUntilInSync fromSlot batchSize
    ⦃post⟨fun _ st => ⌜RecordedAfter Batches log st.2⌝,
      fun _ st => ⌜RecordedAfter Unfinished log st.2⌝⟩⦄ := by
  have hlast := getLastSlot_spec (I := I) log
  have hloop := fun toSlot => syncLoop_calls (I := I) toSlot batchSize log
  rw [restoreOrProduceUntilInSync]
  mvcgen [hlast, hloop]
  · next hs => exact .none .nil hs
  · next hs => exact .none .nil hs
  · next hs => exact .none .nil hs
  · next hs => exact .none .nil hs
  · exact fun ht => .none unfinished_nil ht

theorem runRound_calls (fromSlot batchSize : Slot) (event : Except TryRecvError Slot)
    (log : List Call) :
    ⦃fun st => ⌜st.2 = log⌝⦄ I.recording.runRound fromSlot batchSize event
    ⦃post⟨fun _ st => ⌜RecordedAfter (RoundCalls event) log st.2⌝,
      fun _ st => ⌜RecordedAfter (FailedRoundCalls event) log st.2⌝⟩⦄ := by
  match event with
  | .ok reorgSlot =>
      have hclean := cleanFromSlot_spec (I := I) reorgSlot log
      rw [runRound]
      mvcgen [hclean]
      · next hs => exact ⟨_, hs, rfl⟩
      · exact fun hs => .none rfl hs
  | .error .empty =>
      have hsync := restoreOrProduceUntilInSync_calls (I := I) fromSlot batchSize log
      rw [runRound]
      mvcgen [hsync]
  | .error .disconnected =>
      rw [runRound]
      mvcgen
      next hs => exact .none rfl hs

end RollupIndexer

/-! ## The events in a run -/

/-- An event for the slot is about to be sent, queued, or about to be worked off. -/
def OnItsWay (s : ReorgState) (slot : Slot) : Prop :=
  slot ∈ s.reorgEvents ∨ s.sending = some slot ∨ s.cleaning = some slot

/-- A recheck of the slot finds another block on the chain, and sends an event. -/
def Differs (chain : Slot → Option UiConfirmedBlock) (s : ReorgState) (slot : Slot) : Prop :=
  ∃ block stored, chain slot = some block ∧ s.solanaBlocks slot = some stored ∧ stored ≠ block

/-- An event for the slot is about to be sent, or will be. -/
def ToBeSent (chain : Slot → Option UiConfirmedBlock) (s : ReorgState) (slot : Slot) : Prop :=
  s.sending = some slot ∨ Differs chain s slot

/-- Every stored eth block was parsed from the Solana block stored at its slot, or
there is an event, of the kind `Event`, for the slot or a lower one. -/
def CurrentUnless (Event : ReorgState → Slot → Prop) (s : ReorgState) : Prop :=
  ∀ id origin, s.ethBlocks id = some origin →
    s.solanaBlocks id.1 = some origin ∨ ∃ slot ≤ id.1, Event s slot

/-- No reorg is lost: an event is on its way, or will be sent by a recheck. -/
def NoReorgLost (chain : Slot → Option UiConfirmedBlock) : ReorgState → Prop :=
  CurrentUnless fun s slot => OnItsWay s slot ∨ Differs chain s slot

/-- Events are lost only where they are not needed. -/
def LossAllowed (chain : Slot → Option UiConfirmedBlock) (s : ReorgState) : ReorgAction → Prop
  | .restarted | .sendFailed => CurrentUnless (Differs chain) s
  | .indexerEnded => CurrentUnless (ToBeSent chain) s
  | _ => True

/-- What holds in every run: a result in hand is current, or an event that comes after
it is on its way; and an indexer that has ended holds nothing. -/
structure InHand (s : ReorgState) : Prop where
  batch : ∀ p ∈ s.batch, s.solanaBlocks p.slotNumber = some p.origin ∨
    ∃ slot ≤ p.slotNumber, slot ∈ s.reorgEvents ∨ s.sending = some slot
  ended : s.indexing = false → s.reorgEvents = [] ∧ s.cleaning = none ∧ s.batch = []

theorem Differs.keep {chain : Slot → Option UiConfirmedBlock} {s t : ReorgState} {slot : Slot}
    (h : Differs chain s slot)
    (hblocks : ∀ stored, s.solanaBlocks slot = some stored → t.solanaBlocks slot = some stored) :
    Differs chain t slot := by
  obtain ⟨block, stored, hchain, hstored, hne⟩ := h
  exact ⟨block, stored, hchain, hblocks stored hstored, hne⟩

theorem CurrentUnless.keep {Event Event' : ReorgState → Slot → Prop} {s t : ReorgState}
    (h : CurrentUnless Event s) (hblocks : t.solanaBlocks = s.solanaBlocks)
    (hkept : ∀ id origin, t.ethBlocks id = some origin → s.ethBlocks id = some origin)
    (hevent : ∀ id origin, t.ethBlocks id = some origin →
      ∀ slot ≤ id.1, Event s slot → Event' t slot) : CurrentUnless Event' t := by
  intro id origin hid
  rw [hblocks]
  refine (h id origin (hkept id origin hid)).imp_right ?_
  rintro ⟨slot, hle, hslot⟩
  exact ⟨slot, hle, hevent id origin hid slot hle hslot⟩

/-- A block stays as it is stored, or the event for a slot at or below it is sent. -/
theorem same_or_sent (s : ReorgState) (blocks : BTreeMap Slot UiConfirmedBlock) (slot : Slot) :
    (blocks[slot]? <|> s.solanaBlocks slot) = s.solanaBlocks slot ∨
      ∃ first ≤ slot, SolanaBlockLoader.firstSlot blocks = some first := by
  cases hget : blocks[slot]? with
  | none => exact Or.inl (by simp)
  | some block =>
      have hmem : slot ∈ blocks := Std.ExtTreeMap.isSome_getElem?_iff_mem.mp (by rw [hget]; rfl)
      cases hfirst : SolanaBlockLoader.firstSlot blocks with
      | none => exact absurd hmem (SolanaBlockLoader.firstSlot_eq_none hfirst slot)
      | some first =>
          exact Or.inr ⟨first, (SolanaBlockLoader.firstSlot_eq_some hfirst).2 slot hmem, rfl⟩

theorem InHand.of_nil {s : ReorgState} (hbatch : s.batch = [])
    (hended : s.indexing = false → s.reorgEvents = [] ∧ s.cleaning = none) : InHand s := by
  refine ⟨fun p hp => ?_, fun h => ⟨(hended h).1, (hended h).2, hbatch⟩⟩
  rw [hbatch] at hp
  cases hp

theorem inHand_step {chain : Slot → Option UiConfirmedBlock} {s t : ReorgState} {a : ReorgAction}
    (hs : InHand s) (hst : (reorgMachine chain).step s a t) : InHand t := by
  cases a with
  | loader call =>
      cases call with
      | stored blocks =>
          obtain ⟨_, rfl⟩ := hst
          refine ⟨fun p hp => ?_, hs.ended⟩
          refine (hs.batch p hp).imp_left fun hcurrent => ?_
          simp only [hcurrent, Option.orElse_eq_orElse, Option.orElse_some]
      | updated blocks =>
          obtain ⟨hsending, _, rfl⟩ := hst
          refine ⟨fun p hp => ?_, hs.ended⟩
          rcases same_or_sent s blocks p.slotNumber with hsame | ⟨first, hle, hfirst⟩
          · refine (hs.batch p hp).imp hsame.trans ?_
            rintro ⟨slot, hle, hqueued | hslot⟩
            · exact ⟨slot, hle, Or.inl hqueued⟩
            · rw [hsending] at hslot
              cases hslot
          · exact Or.inr ⟨first, hle, Or.inr hfirst⟩
      | sent slotNumber => 
          obtain ⟨hsending, hindexing, rfl⟩ := hst
          refine ⟨fun p hp => ?_, fun hended => ?_⟩
          · refine (hs.batch p hp).imp_right ?_
            rintro ⟨slot, hle, hqueued | hslot⟩
            · exact ⟨slot, hle, Or.inl (List.mem_append_left _ hqueued)⟩
            · rw [hsending] at hslot
              cases hslot
              exact ⟨slotNumber, hle, Or.inl (List.mem_append_right _ (List.mem_cons_self ..))⟩
          · exact absurd (hindexing.symm.trans hended) (by decide)
  | sendFailed =>
      obtain ⟨hended, rfl⟩ := hst
      obtain ⟨hqueue, hcleaning, hbatch⟩ := hs.ended hended
      exact .of_nil hbatch fun _ => ⟨hqueue, hcleaning⟩
  | received =>
      obtain ⟨hindexing, _, hbatch, slotNumber, rest, hqueue, rfl⟩ := hst
      exact .of_nil hbatch fun hended => absurd (hindexing.symm.trans hended) (by decide)
  | indexer call =>
      cases call with
      | cleaned fromSlot =>
          obtain ⟨hcleaning, rfl⟩ := hst
          exact ⟨hs.batch, fun hended => ⟨(hs.ended hended).1, rfl, (hs.ended hended).2.2⟩⟩
      | parsed slotNumber r =>
          cases r with
          | none =>
              obtain ⟨_, _, rfl⟩ := hst
              exact hs
          | some parseResult =>
              obtain ⟨hindexing, _, origin, horigin, rfl⟩ := hst
              refine ⟨fun p hp => ?_, fun hended => ?_⟩
              · rcases List.mem_append.mp hp with hp | hp
                · exact hs.batch p hp
                · rw [List.mem_singleton] at hp
                  subst hp
                  exact Or.inl horigin
              · exact absurd (hindexing.symm.trans hended) (by decide)
      | registered results =>
          obtain ⟨_, rfl⟩ := hst
          exact .of_nil rfl fun hended => ⟨(hs.ended hended).1, (hs.ended hended).2.1⟩
  | indexerEnded =>
      cases hst
      exact .of_nil rfl fun _ => ⟨rfl, rfl⟩
  | restarted =>
      cases hst
      exact .of_nil rfl fun hended => nomatch hended

/-- A stored block was stored before, or is one of the results in hand. -/
theorem registerAll_cases {s : ReorgState} {results : BTreeMap Slot BlockParseResult}
    {id : EthBlockId} {origin : UiConfirmedBlock} (h : s.registerAll results id = some origin) :
    s.ethBlocks id = some origin ∨ ∃ p ∈ s.batch, p.slotNumber = id.1 ∧ p.origin = origin := by
  rw [ReorgState.registerAll] at h
  cases hid : s.ethBlocks id with
  | some stored =>
      rw [hid] at h
      exact Or.inl h
  | none =>
      simp only [hid] at h
      split at h
      · cases h
      · split at h
        · obtain ⟨p, hfind, rfl⟩ := Option.map_eq_some_iff.mp h
          have hp := List.find?_some hfind
          rw [decide_eq_true_eq] at hp
          exact Or.inr ⟨p, List.mem_of_find?_eq_some hfind, hp.1, rfl⟩
        · cases h

theorem noReorgLost_loader {chain : Slot → Option UiConfirmedBlock} {s t : ReorgState}
    {call : LoaderCall} (hs : NoReorgLost chain s)
    (hst : (reorgMachine chain).step s (.loader call) t) : NoReorgLost chain t := by
  cases call with
  | stored blocks =>
      obtain ⟨_, rfl⟩ := hst
      have hkeep : ∀ slot origin, s.solanaBlocks slot = some origin →
          (s.solanaBlocks slot <|> blocks[slot]?) = some origin := by
        intro slot origin hslot
        simp only [hslot, Option.orElse_eq_orElse, Option.orElse_some]
      intro id origin hid
      refine (hs id origin hid).imp (hkeep id.1 origin) ?_
      rintro ⟨slot, hle, hway | hdiffers⟩
      · exact ⟨slot, hle, Or.inl hway⟩
      · exact ⟨slot, hle, Or.inr (hdiffers.keep (hkeep slot))⟩
  | updated blocks =>
      obtain ⟨hsending, _, rfl⟩ := hst
      intro id origin hid
      rcases same_or_sent s blocks id.1 with hsame | ⟨first, hle, hfirst⟩
      · refine (hs id origin hid).imp hsame.trans ?_
        rintro ⟨slot, hle, (hqueued | hslot | hcleaning) | hdiffers⟩
        · exact ⟨slot, hle, Or.inl (Or.inl hqueued)⟩
        · rw [hsending] at hslot
          cases hslot
        · exact ⟨slot, hle, Or.inl (Or.inr (Or.inr hcleaning))⟩
        · -- the block that differs stays, or is replaced and sent
          rcases same_or_sent s blocks slot with hsame | ⟨first, hfirstLe, hfirst⟩
          · exact ⟨slot, hle, Or.inr (hdiffers.keep fun stored => hsame.trans)⟩
          · exact ⟨first, Nat.le_trans hfirstLe hle, Or.inl (Or.inr (Or.inl hfirst))⟩
      · exact Or.inr ⟨first, hle, Or.inl (Or.inr (Or.inl hfirst))⟩
  | sent slotNumber =>
      obtain ⟨hsending, _, rfl⟩ := hst
      refine hs.keep rfl (fun _ _ => id) fun _ _ _ slot _ => ?_
      refine Or.imp_left ?_
      rintro (hqueued | hslot | hcleaning)
      · exact Or.inl (List.mem_append_left _ hqueued)
      · rw [hsending] at hslot
        cases hslot
        exact Or.inl (List.mem_append_right _ (List.mem_cons_self ..))
      · exact Or.inr (Or.inr hcleaning)

theorem noReorgLost_indexer {chain : Slot → Option UiConfirmedBlock} {s t : ReorgState}
    {call : Call} (hinHand : InHand s) (hs : NoReorgLost chain s)
    (hst : (reorgMachine chain).step s (.indexer call) t) : NoReorgLost chain t := by
  cases call with
  | cleaned fromSlot =>
      obtain ⟨hcleaning, rfl⟩ := hst
      have hkept : ∀ (id : EthBlockId) origin,
          (if fromSlot ≤ id.1 then none else s.ethBlocks id) = some origin →
            ¬ fromSlot ≤ id.1 ∧ s.ethBlocks id = some origin := by
        intro id origin hid
        split at hid
        · cases hid
        · next hlt => exact ⟨hlt, hid⟩
      refine hs.keep rfl (fun id origin hid => (hkept id origin hid).2)
        fun id origin hid slot hle => ?_
      refine Or.imp_left ?_
      rintro (hqueued | hslot | hslot)
      · exact Or.inl hqueued
      · exact Or.inr (Or.inl hslot)
      · -- the event that is worked off is for the blocks that went
        rw [hcleaning] at hslot
        cases hslot
        exact absurd hle (hkept id origin hid).1
  | parsed slotNumber r =>
      cases r with
      | none =>
          obtain ⟨_, _, rfl⟩ := hst
          exact hs
      | some parseResult =>
          obtain ⟨_, _, origin, _, rfl⟩ := hst
          exact hs
  | registered results =>
      obtain ⟨_, rfl⟩ := hst
      intro id origin hid
      rcases registerAll_cases hid with hstored | ⟨p, hp, hslot, rfl⟩
      · exact hs id origin hstored
      · rw [← hslot]
        refine (hinHand.batch p hp).imp_right ?_
        rintro ⟨slot, hle, hqueued | hsending⟩
        · exact ⟨slot, hle, Or.inl (Or.inl hqueued)⟩
        · exact ⟨slot, hle, Or.inl (Or.inr (Or.inl hsending))⟩

theorem noReorgLost_step {chain : Slot → Option UiConfirmedBlock} {s t : ReorgState}
    {a : ReorgAction} (hinHand : InHand s) (hs : NoReorgLost chain s)
    (hst : (reorgMachine chain).step s a t) : NoReorgLost chain t ↔ LossAllowed chain s a := by
  cases a with
  | loader call => exact iff_of_true (noReorgLost_loader hs hst) trivial
  | indexer call => exact iff_of_true (noReorgLost_indexer hinHand hs hst) trivial
  | received =>
      obtain ⟨_, hcleaning, _, slotNumber, rest, hqueue, rfl⟩ := hst
      refine iff_of_true (hs.keep rfl (fun _ _ => id) fun _ _ _ slot _ => ?_) trivial
      refine Or.imp_left ?_
      rintro (hqueued | hsending | hslot)
      · rw [hqueue] at hqueued
        rcases List.mem_cons.mp hqueued with rfl | hrest
        · exact Or.inr (Or.inr rfl)
        · exact Or.inl hrest
      · exact Or.inr (Or.inl hsending)
      · rw [hcleaning] at hslot
        cases hslot
  | sendFailed =>
      obtain ⟨hended, rfl⟩ := hst
      obtain ⟨hqueue, hcleaning, _⟩ := hinHand.ended hended
      refine ⟨fun ht => ?_, fun hloss => ?_⟩
      · refine CurrentUnless.keep ht rfl (fun _ _ => id) fun _ _ _ slot _ => ?_
        rintro ((hqueued | hsending | hslot) | hdiffers)
        · rw [show s.reorgEvents = [] from hqueue] at hqueued
          cases hqueued
        · cases hsending
        · rw [show s.cleaning = none from hcleaning] at hslot
          cases hslot
        · exact hdiffers
      · exact hloss.keep rfl (fun _ _ => id) fun _ _ _ slot _ => Or.inr
  | indexerEnded =>
      cases hst
      refine ⟨fun ht => ?_, fun hloss => ?_⟩
      · refine CurrentUnless.keep ht rfl (fun _ _ => id) fun _ _ _ slot _ => ?_
        rintro ((hqueued | hsending | hslot) | hdiffers)
        · cases hqueued
        · exact Or.inl hsending
        · cases hslot
        · exact Or.inr hdiffers
      · refine hloss.keep rfl (fun _ _ => id) fun _ _ _ slot _ => ?_
        exact Or.imp_left fun hsending => Or.inr (Or.inl hsending)
  | restarted =>
      cases hst
      refine ⟨fun ht => ?_, fun hloss => ?_⟩
      · refine CurrentUnless.keep ht rfl (fun _ _ => id) fun _ _ _ slot _ => ?_
        rintro ((hqueued | hsending | hslot) | hdiffers)
        · cases hqueued
        · cases hsending
        · cases hslot
        · exact hdiffers
      · exact hloss.keep rfl (fun _ _ => id) fun _ _ _ slot _ => Or.inr

def confirmedAtSeven : UiConfirmedBlock := RollupIndexer.emptyBlock 7

def finalizedAtSeven : UiConfirmedBlock := { confirmedAtSeven with blockhash := "finalized" }

def chainAtSeven (slot : Slot) : Option UiConfirmedBlock :=
  if slot = 7 then some finalizedAtSeven else none

/-- The result of the confirmed block. -/
def parsedAtSeven : BlockParseResult := ⟨7, 0, 0, some 0, [], [EthBlock.new (some 0) [] 0 none]⟩

def atSeven {α : Type} (a : α) : BTreeMap Slot α := (∅ : BTreeMap Slot α).insert 7 a

theorem atSeven_eq_some {α : Type} {a b : α} {slot : Slot} (h : (atSeven a)[slot]? = some b) :
    slot = 7 ∧ b = a := by
  have hget := BTreeMap.get?_insert ∅ 7 slot a
  rw [show (Std.ExtTreeMap.insert ∅ 7 a)[slot]? = some b from h] at hget
  split at hget
  · next heq =>
      cases hget
      exact ⟨heq.symm, rfl⟩
  · cases hget

/-- The confirmed block is stored and parsed. -/
def parsedInHand : ReorgState where
  solanaBlocks slot := (none : Option UiConfirmedBlock) <|> (atSeven confirmedAtSeven)[slot]?
  ethBlocks _ := none
  reorgEvents := []
  sending := none
  cleaning := none
  batch := [⟨7, parsedAtSeven, confirmedAtSeven⟩]
  indexing := true

/-- The result is registered. -/
def registeredAtSeven : ReorgState :=
  { parsedInHand with ethBlocks := parsedInHand.registerAll (atSeven parsedAtSeven), batch := [] }

theorem run_registeredAtSeven :
    ∃ tr, Machine.Run (reorgMachine chainAtSeven) tr registeredAtSeven ∧
      Machine.Meets (LossAllowed chainAtSeven) tr := by
  have hstored := Machine.Run.next (M := reorgMachine chainAtSeven)
    (t := { parsedInHand with batch := [] })
    (a := ReorgAction.loader (.stored (atSeven confirmedAtSeven))) (.start rfl) ⟨rfl, rfl⟩
  have hparsed := hstored.next (t := parsedInHand)
    (a := ReorgAction.indexer (.parsed 7 (some parsedAtSeven)))
    ⟨rfl, rfl, confirmedAtSeven, by rfl, rfl⟩
  have hregistered := hparsed.next (t := registeredAtSeven)
    (a := ReorgAction.indexer (.registered (atSeven parsedAtSeven)))
    ⟨fun slot parseResult hslot => ?_, rfl⟩
  · refine ⟨_, hregistered, ?_⟩
    simp only [Machine.meets_append]
    exact ⟨⟨⟨nofun, trivial⟩, trivial⟩, trivial⟩
  · obtain ⟨rfl, rfl⟩ := atSeven_eq_some hslot
    exact ⟨_, List.mem_cons_self .., rfl, rfl⟩

/-- The loader has replaced the block, and is about to send the event. -/
def updatedAtSeven : ReorgState :=
  { registeredAtSeven with
    solanaBlocks := fun slot =>
      (atSeven finalizedAtSeven)[slot]? <|> registeredAtSeven.solanaBlocks slot
    sending := SolanaBlockLoader.firstSlot (atSeven finalizedAtSeven) }

theorem run_updatedAtSeven :
    ∃ tr, Machine.Run (reorgMachine chainAtSeven) tr updatedAtSeven ∧
      Machine.Meets (LossAllowed chainAtSeven) tr := by
  obtain ⟨tr, hrun, hmeets⟩ := run_registeredAtSeven
  have hupdated := hrun.next (a := ReorgAction.loader (.updated (atSeven finalizedAtSeven)))
    (t := updatedAtSeven) ⟨rfl, fun slot block hslot => ?_, rfl⟩
  · exact ⟨_, hupdated, Machine.meets_append.mpr ⟨hmeets, trivial⟩⟩
  · obtain ⟨rfl, rfl⟩ := atSeven_eq_some hslot
    exact ⟨rfl, by decide⟩

end RomeSdk
