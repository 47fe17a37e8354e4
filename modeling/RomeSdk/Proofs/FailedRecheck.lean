import RomeSdk.Proofs.FinalizedFork
import RomeSdk.Proofs.StandIns

/-!
# A recheck that fails

`set_finalized_slot` commits the new status of the slots it returns before any of
them is compared with the chain. When one comparison fails, the call ends with
its error, and the loop of the loader calls `set_finalized_slot` again; but the
slots are finalized by now, so none of them is ever returned again.

The node is given by its answers, `NodeAnswers`: for each slot the header it
shows and the block that is loaded from it. Either may be an error.
-/

namespace RomeSdk

namespace SolanaBlockLoader

section

variable {σ : Type} {X : Crates} {L : SolanaBlockLoader σ}

/-! ## The answers of a node -/

structure NodeAnswers where
  header : Slot → Outcome (Option RpcBlock)
  reload : Slot → Outcome (Option UiConfirmedBlock)

/-- The loader's queries for finalized blocks are answered so. -/
structure Answering (X : Crates) (L : SolanaBlockLoader σ) (A : NodeAnswers) : Prop where
  header : ∀ slot s, L.client.getBlockWithConfig slot ⟨none, .finalized⟩ L.blockRetries s =
    (liftOutcome (A.header slot) : Eff σ _) s
  reload : ∀ slot s, L.loadBlock X .finalized slot s = (liftOutcome (A.reload slot) : Eff σ _) s

/-- What a recheck of a block comes to. -/
def NodeAnswers.recheck (A : NodeAnswers) (slot : Slot) (block : UiConfirmedBlock) :
    Outcome (Option UiConfirmedBlock) :=
  match A.header slot with
  | .ok (some finalizedBlock) =>
      if finalizedBlock.blockhash ≠ block.blockhash then A.reload slot else .ok none
  | .ok none => .ok none
  | .error (.err e) => .error (.err (.custom
      ("Failed to recheck block " ++ toString slot ++ ": " ++ e.debug)))
  | .error (.panic message) => .error (.panic message)

theorem recheckFinalizedBlock_eq {A : NodeAnswers} (hA : Answering X L A) (slot : Slot)
    (block : UiConfirmedBlock) (s : σ) :
    L.recheckFinalizedBlock X slot block s = (liftOutcome (A.recheck slot block) : Eff σ _) s := by
  simp only [recheckFinalizedBlock, bind, EStateM.bind, Eff.attempt, hA.header, NodeAnswers.recheck]
  cases A.header slot with
  | error e => cases e <;> rfl
  | ok r =>
      cases r with
      | none => rfl
      | some finalizedBlock =>
          show (if finalizedBlock.blockhash ≠ block.blockhash then L.loadBlock X .finalized slot
            else pure none : Eff σ _) s = _
          dsimp only
          split
          · exact hA.reload slot s
          · rfl

/-! ## Joining calls that only answer -/

/-- A result to be looked at later; a panic does not wait. -/
def settle {α : Type} : Outcome α → Outcome (ProgramResult α)
  | .ok a => .ok (.ok a)
  | .error (.err e) => .ok (.error e)
  | .error (.panic message) => .error (.panic message)

theorem settle_ok {α : Type} {r : Outcome α} {result : ProgramResult α}
    (h : settle r = .ok result) : result.toOutcome = r := by
  cases r with
  | ok a => cases h; rfl
  | error e =>
      cases e with
      | err e => cases h; rfl
      | panic message => cases h

/-- The answers of a `join_all`. -/
def joinOutcomes {α β : Type} (g : α → Outcome β) : List α → Outcome (List (ProgramResult β))
  | [] => .ok []
  | a :: l =>
      match settle (g a) with
      | .error e => .error e
      | .ok result => (joinOutcomes g l).map fun results => result :: results

theorem joinAll_eq {α β : Type} {f : α → Eff σ β} {g : α → Outcome β}
    (h : ∀ a s, f a s = (liftOutcome (g a) : Eff σ β) s) (l : List α) (s : σ) :
    RollupIndexer.joinAll f l s = (liftOutcome (joinOutcomes g l) : Eff σ _) s := by
  induction l with
  | nil => rfl
  | cons a l ih =>
      have hattempt : (f a).attempt s = (liftOutcome (settle (g a)) : Eff σ _) s := by
        rw [Eff.attempt, h]
        cases g a with
        | ok b => rfl
        | error e => cases e <;> rfl
      simp only [RollupIndexer.joinAll, bind, EStateM.bind, hattempt, joinOutcomes]
      cases settle (g a) with
      | error e => rfl
      | ok result =>
          simp only [liftOutcome, pure, EStateM.pure, ih]
          cases joinOutcomes g l <;> rfl

/-- Without a panic there is a result for each call. -/
theorem joinOutcomes_ok {α β : Type} {g : α → Outcome β} (l : List α) :
    ∀ {results : List (ProgramResult β)}, joinOutcomes g l = .ok results →
      results.map ProgramResult.toOutcome = l.map g := by
  induction l with
  | nil =>
      intro results h
      cases h
      rfl
  | cons a l ih =>
      intro results h
      rw [joinOutcomes] at h
      cases hsettle : settle (g a) with
      | error e =>
          rw [hsettle] at h
          cases h
      | ok result =>
          rw [hsettle] at h
          cases hrest : joinOutcomes g l with
          | error e =>
              rw [hrest] at h
              cases h
          | ok rest =>
              rw [hrest] at h
              cases h
              rw [List.map_cons, List.map_cons, settle_ok hsettle, ih hrest]

theorem joinOutcomes_answers {α β : Type} (g : α → β) (l : List α) :
    joinOutcomes (fun a => .ok (g a)) l = .ok (l.map fun a => .ok (g a)) := by
  induction l with
  | nil => rfl
  | cons a l ih =>
      rw [joinOutcomes, ih]
      rfl

theorem get?_loadedBlocks {chain : Slot → Option UiConfirmedBlock} (l : List Slot) (slot : Slot) :
    (loadedBlocks (l.map fun a => (a, .ok (chain a))))[slot]? =
      if slot ∈ l then chain slot else none := by
  induction l with
  | nil => simp [loadedBlocks]
  | cons a l ih =>
      rw [List.map_cons]
      cases hc : chain a with
      | none =>
          show (loadedBlocks (l.map fun a => (a, .ok (chain a))))[slot]? = _
          rw [ih]
          by_cases ha : slot = a
          · subst ha
            simp [hc]
          · simp [ha]
      | some c =>
          show ((loadedBlocks (l.map fun a => (a, .ok (chain a)))).insert a c)[slot]? = _
          rw [BTreeMap.get?_insert, ih]
          by_cases ha : a = slot
          · subst ha
            simp [hc]
          · simp [ha, Ne.symm ha]

/-! ## The loop over the results -/

/-- The results of the rechecks, by slot. -/
def rechecks (A : NodeAnswers) (blocks : BTreeMap Slot UiConfirmedBlock) :
    Outcome (List (Slot × ProgramResult (Option UiConfirmedBlock))) :=
  (joinOutcomes (fun e => A.recheck e.1 e.2) blocks.toList).map
    fun results => (blocks.toList.map Prod.fst).zip results

theorem rechecks_ok {A : NodeAnswers} {blocks : BTreeMap Slot UiConfirmedBlock}
    {results : List (Slot × ProgramResult (Option UiConfirmedBlock))}
    (h : rechecks A blocks = .ok results) :
    results.map (Prod.map id ProgramResult.toOutcome) =
      blocks.toList.map fun e => (e.1, A.recheck e.1 e.2) := by
  rw [rechecks] at h
  cases hjoin : joinOutcomes (fun e => A.recheck e.1 e.2) blocks.toList with
  | error e =>
      rw [hjoin] at h
      cases h
  | ok rs =>
      rw [hjoin] at h
      cases h
      rw [← List.zip_map_right, joinOutcomes_ok _ hjoin, List.zip_map']

/-- The call, given the answers of the node. -/
theorem recheckFinalizedBlocks_eq {A : NodeAnswers} (hA : Answering X L A)
    (blocks : BTreeMap Slot UiConfirmedBlock) (reorgEventTx : ReorgSender σ) (s : σ) :
    L.recheckFinalizedBlocks X blocks reorgEventTx s =
      (do
        let results ← liftOutcome (rechecks A blocks)
        let updated ← Eff.ofResult (updatedBlocks results ∅)
        L.solanaBlockStorage.updateFinalizedBlocks updated
        sendReorg reorgEventTx (firstSlot updated) : Eff σ Unit) s := by
  have hjoin := joinAll_eq (f := fun e : Slot × UiConfirmedBlock => L.recheckFinalizedBlock X e.1 e.2)
    (fun e s => recheckFinalizedBlock_eq hA e.1 e.2 s) blocks.toList s
  simp only [recheckFinalizedBlocks, bind, EStateM.bind, hjoin, rechecks]
  cases joinOutcomes (fun e => A.recheck e.1 e.2) blocks.toList <;> rfl

/-- The sender's error is dropped. -/
theorem sendReorg_no_err (reorgEventTx : ReorgSender σ) (resetFromSlot : Option Slot) (s t : σ)
    (e : RomeEvmError) : sendReorg reorgEventTx resetFromSlot s ≠ .error (.err e) t := by
  cases resetFromSlot with
  | none => exact fun h => by cases h
  | some slot =>
      simp only [sendReorg, bind, EStateM.bind, Eff.attempt]
      cases reorgEventTx slot s with
      | ok a u => exact fun h => by cases h
      | error f u =>
          cases f with
          | err e => exact fun h => by cases h
          | panic message => exact fun h => by cases h

end

/-! ## The call of the loop -/

section

variable {X : Crates} {L : SolanaBlockLoader (Server UiConfirmedBlock)} {A : NodeAnswers}
  {w t : Server UiConfirmedBlock} {finalizedSlot : Slot}

/-- The blocks `update_finalized_slot` has rechecked: those `set_finalized_slot` returns. -/
def examined (w : Server UiConfirmedBlock) (finalizedSlot : Slot) :
    BTreeMap Slot UiConfirmedBlock :=
  match w.fault 0 with
  | none => (PgStorage.setFinalizedSlot finalizedSlot w.db).1
  | some _ => ∅

/-- The blockhash was compared, and what followed from it was loaded. -/
def Compared (A : NodeAnswers) (slot : Slot) (block : UiConfirmedBlock) : Prop :=
  ∃ r, A.recheck slot block = .ok r

/-- By stored parents `finalizedSlot` is reached from the slot. -/
inductive Descends (db : Db UiConfirmedBlock) (finalizedSlot : Slot) : Slot → Prop
  | refl : Descends db finalizedSlot finalizedSlot
  | child {slot : Slot} {row : SolSlot} : db.solSlot.lookup slot = some row →
      Descends db finalizedSlot row.parentSlot → Descends db finalizedSlot slot

/-- A later call for the finalized slot or a descendant returns the slot. -/
def Retried (db : Db UiConfirmedBlock) (finalizedSlot slot : Slot) : Prop :=
  ∃ db' f, PgStorage.Later db db' ∧ Descends db' finalizedSlot f ∧
    slot ∈ (PgStorage.setFinalizedSlot f db').1

/-- From `w` the call came to `t`, and what it did not compare is not lost. -/
structure RetriesUncompared (A : NodeAnswers) (w : Server UiConfirmedBlock) (finalizedSlot : Slot)
    (t : Server UiConfirmedBlock) : Prop where
  retried : ∀ (slot : Slot) (block : UiConfirmedBlock), (examined w finalizedSlot)[slot]? = some block →
    ¬ Compared A slot block → Retried t.db finalizedSlot slot
  notLost : ∀ slot, ¬ PgStorage.Finalized w.db slot →
    (∀ db, PgStorage.Later t.db db → PgStorage.Finalized db slot) →
    ∃ block, (examined w finalizedSlot)[slot]? = some block ∧ Compared A slot block

/-- No query of the rechecks is answered by an error: neither that for the header
of a block nor, where the blockhash is another one, those for the new block. -/
def QueriesAnswered (A : NodeAnswers) (blocks : BTreeMap Slot UiConfirmedBlock) : Prop :=
  ∀ (slot : Slot) (block : UiConfirmedBlock), blocks[slot]? = some block →
    ∃ header, A.header slot = .ok header ∧
      ∀ b, header = some b → b.blockhash ≠ block.blockhash → ∃ r, A.reload slot = .ok r

theorem compared_iff {slot : Slot} {block : UiConfirmedBlock} :
    Compared A slot block ↔ ∃ header, A.header slot = .ok header ∧
      ∀ b, header = some b → b.blockhash ≠ block.blockhash → ∃ r, A.reload slot = .ok r := by
  rw [Compared, NodeAnswers.recheck]
  cases A.header slot with
  | error e => cases e <;> simp
  | ok header =>
      cases header with
      | none => simp
      | some b =>
          by_cases hsame : b.blockhash = block.blockhash
          · simp [hsame]
          · simp [hsame]

/-- A call that returns an error leaves the tables alone. -/
theorem recheckFinalizedBlocks_err
    (hL : L.solanaBlockStorage = PgStorage.solanaBlockStorage Server.pool)
    (hA : Answering X L A) {blocks : BTreeMap Slot UiConfirmedBlock}
    {reorgEventTx : ReorgSender (Server UiConfirmedBlock)} {e : RomeEvmError}
    (h : L.recheckFinalizedBlocks X blocks reorgEventTx w = .error (.err e) t) : t.db = w.db := by
  rw [recheckFinalizedBlocks_eq hA] at h
  cases hresults : rechecks A blocks with
  | error f =>
      rw [hresults] at h
      cases h
      rfl
  | ok results =>
      cases hupdated : updatedBlocks results ∅ with
      | error f =>
          rw [hresults] at h
          simp only [liftOutcome, bind, EStateM.bind, pure, EStateM.pure, hupdated, Eff.ofResult,
            throw, throwThe, MonadExceptOf.throw, EStateM.throw_apply] at h
          cases h
          rfl
      | ok updated =>
          rw [hresults, hL] at h
          simp only [liftOutcome, bind, EStateM.bind, pure, EStateM.pure, hupdated, Eff.ofResult,
            PgStorage.solanaBlockStorage] at h
          split at h
          · exact absurd h (sendReorg_no_err _ _ _ _ _)
          · next hupdate =>
              cases h
              exact Server.transaction_err hupdate

/-- A call that returns an error has finalized the slots, or has done nothing. -/
theorem updateFinalizedSlot_err (hL : L.solanaBlockStorage = PgStorage.solanaBlockStorage Server.pool)
    (hA : Answering X L A) {reorgEventTx : ReorgSender (Server UiConfirmedBlock)} {e : RomeEvmError}
    (h : L.updateFinalizedSlot X finalizedSlot reorgEventTx w = .error (.err e) t) :
    (examined w finalizedSlot = ∅ ∧ t.db = w.db) ∨
      (examined w finalizedSlot = (PgStorage.setFinalizedSlot finalizedSlot w.db).1 ∧
        t.db = (PgStorage.setFinalizedSlot finalizedSlot w.db).2) := by
  rw [updateFinalizedSlot, hL] at h
  rw [examined]
  cases hfault : w.fault 0 with
  | some f =>
      have hset := Server.transaction_fault hfault fun db =>
        .ok (PgStorage.setFinalizedSlot finalizedSlot db)
      simp only [PgStorage.solanaBlockStorage, bind, EStateM.bind, hset] at h
      cases h
      exact Or.inl ⟨rfl, rfl⟩
  | none =>
      refine Or.inr ⟨rfl, ?_⟩
      have hset := Server.transaction_go hfault fun db =>
        .ok (PgStorage.setFinalizedSlot finalizedSlot db)
      simp only [PgStorage.solanaBlockStorage, bind, EStateM.bind, hset] at h
      exact recheckFinalizedBlocks_err hL hA h

/-- What was not compared is finalized all the same, so it does not come back. -/
theorem RetriesUncompared.answered
    (hL : L.solanaBlockStorage = PgStorage.solanaBlockStorage Server.pool) (hA : Answering X L A)
    {reorgEventTx : ReorgSender (Server UiConfirmedBlock)} {e : RomeEvmError}
    (h : L.updateFinalizedSlot X finalizedSlot reorgEventTx w = .error (.err e) t)
    (hretries : RetriesUncompared A w finalizedSlot t) :
    QueriesAnswered A (examined w finalizedSlot) := by
  intro slot block hblock
  rw [← compared_iff]
  by_contra hnot
  obtain ⟨db', f, hlater, _, hmem⟩ := hretries.retried slot block hblock hnot
  rcases updateFinalizedSlot_err hL hA h with ⟨hnone, _⟩ | ⟨hsome, ht⟩
  · rw [hnone, Std.ExtTreeMap.getElem?_empty] at hblock
    cases hblock
  · have hin : slot ∈ (PgStorage.setFinalizedSlot finalizedSlot w.db).1 := by
      rw [← hsome, Std.ExtTreeMap.mem_iff_isSome_getElem?, hblock]
      rfl
    have hfinal := PgStorage.finalized_of_mem hin
    rw [← ht] at hfinal
    exact (hlater.finalized_stays hfinal).not_returned hmem

theorem retriesUncompared_of_answered
    (hL : L.solanaBlockStorage = PgStorage.solanaBlockStorage Server.pool) (hA : Answering X L A)
    {reorgEventTx : ReorgSender (Server UiConfirmedBlock)} {e : RomeEvmError}
    (h : L.updateFinalizedSlot X finalizedSlot reorgEventTx w = .error (.err e) t)
    (hanswered : QueriesAnswered A (examined w finalizedSlot)) :
    RetriesUncompared A w finalizedSlot t := by
  have hcompared : ∀ (slot : Slot) (block : UiConfirmedBlock),
      (examined w finalizedSlot)[slot]? = some block → Compared A slot block :=
    fun slot block hblock => compared_iff.mpr (hanswered slot block hblock)
  refine ⟨fun slot block hblock hnot => absurd (hcompared slot block hblock) hnot, ?_⟩
  intro slot hbefore hafter
  have hfinal := hafter t.db (.refl _)
  rcases updateFinalizedSlot_err hL hA h with ⟨_, ht⟩ | ⟨hsome, ht⟩
  · rw [ht] at hfinal
    exact absurd hfinal hbefore
  · rw [ht] at hfinal
    have hin := PgStorage.mem_of_finalized hbefore hfinal
    rw [← hsome] at hin
    obtain ⟨block, hblock⟩ := Option.isSome_iff_exists.mp
      (Std.ExtTreeMap.mem_iff_isSome_getElem?.mp hin)
    exact ⟨block, hblock, hcompared slot block hblock⟩

/-- Slots that were not compared come back exactly when there are none: a failed
query is never made up for. -/
theorem update_finalized_slot_retries_iff
    (hL : L.solanaBlockStorage = PgStorage.solanaBlockStorage Server.pool) (hA : Answering X L A)
    {reorgEventTx : ReorgSender (Server UiConfirmedBlock)} {e : RomeEvmError}
    (h : L.updateFinalizedSlot X finalizedSlot reorgEventTx w = .error (.err e) t) :
    RetriesUncompared A w finalizedSlot t ↔ QueriesAnswered A (examined w finalizedSlot) :=
  ⟨fun hretries => hretries.answered hL hA h, retriesUncompared_of_answered hL hA h⟩

end

/-! ## A header query that fails -/

/-- A client of one node, which knows the headers and the blocks of slots. None of
the blocks has signatures, so no transaction is asked for. -/
def tableClient {σ : Type} (header : Slot → Outcome (Option RpcBlock))
    (blocks : Slot → Outcome (Option UiConfirmedBlock)) (latest : CommitmentLevel → Slot) :
    SolanaClient σ where
  getTransactionWithConfig _ _ _ := pure none
  getSignaturesForAddressWithConfig _ _ := pure []
  getBlockWithConfig slot config _ :=
    liftOutcome (if config.transactionDetails = none then header slot
      else (blocks slot).map fun b => b.map fun b => ⟨b, none⟩)
  getSlotWithCommitment level := pure (latest level)

def tableLoader {σ : Type} (storage : LoadingStorage σ) (header : Slot → Outcome (Option RpcBlock))
    (blocks : Slot → Outcome (Option UiConfirmedBlock)) (latest : CommitmentLevel → Slot) :
    SolanaBlockLoader σ :=
  ⟨storage, tableClient header blocks latest, .confirmed, 9, 10, 3, 3⟩

theorem loadBlock_tableLoader {σ : Type} (X : Crates) (storage : LoadingStorage σ)
    (header : Slot → Outcome (Option RpcBlock))
    (blocks : Slot → Outcome (Option UiConfirmedBlock)) (latest : CommitmentLevel → Slot)
    (commitment : CommitmentLevel) (slot : Slot) (s : σ) :
    (tableLoader storage header blocks latest).loadBlock X commitment slot s =
      (liftOutcome (blocks slot) : Eff σ _) s := by
  simp only [loadBlock, tableLoader, tableClient, bind, EStateM.bind, reduceCtorEq, if_false]
  cases blocks slot with
  | error e => rfl
  | ok b =>
      cases b with
      | none => rfl
      | some b => rfl

theorem answering_tableLoader {σ : Type} (X : Crates) (storage : LoadingStorage σ)
    (header : Slot → Outcome (Option RpcBlock))
    (blocks : Slot → Outcome (Option UiConfirmedBlock)) (latest : CommitmentLevel → Slot) :
    Answering X (tableLoader storage header blocks latest) ⟨header, blocks⟩ where
  header slot s := by simp [tableLoader, tableClient]
  reload slot s := loadBlock_tableLoader X storage header blocks latest .finalized slot s

/-- Slot 7, stored when it was confirmed. -/
def confirmedBlock : UiConfirmedBlock := ⟨"parent", "stored", 6, none, some 0⟩

def confirmedDb : Db UiConfirmedBlock :=
  PgStorage.setBlockWithStatus2 7 confirmedBlock .confirmed 0 Db.empty

def unhealthy : Failure := .err (.custom "Node is unhealthy")

/-- A node that does not answer. -/
def downLoader : SolanaBlockLoader (Server UiConfirmedBlock) :=
  tableLoader (PgStorage.solanaBlockStorage Server.pool) (fun _ => .error unhealthy)
    (fun _ => .error unhealthy) (fun _ => 7)

def noReceiver {σ : Type} : ReorgSender σ := fun _ => throw (.err (.custom "channel closed"))

def afterFailure : Server UiConfirmedBlock := ⟨(PgStorage.setFinalizedSlot 7 confirmedDb).2, []⟩

def downAnswers : NodeAnswers := ⟨fun _ => .error unhealthy, fun _ => .error unhealthy⟩

theorem downLoader_answering : Answering standIns downLoader downAnswers :=
  answering_tableLoader _ _ _ _ _

def recheckError : RomeEvmError :=
  .custom ("Failed to recheck block 7: " ++ (RomeEvmError.custom "Node is unhealthy").debug)

theorem downLoader_fails : downLoader.updateFinalizedSlot standIns 7 noReceiver ⟨confirmedDb, []⟩
    = .error (.err recheckError) afterFailure := by
  rfl

/-- The slot is finalized, was not compared, and no later call returns it. -/
theorem failed_recheck_lost :
    downLoader.updateFinalizedSlot standIns 7 noReceiver ⟨confirmedDb, []⟩
        = .error (.err recheckError) afterFailure ∧
      ¬ RetriesUncompared downAnswers ⟨confirmedDb, []⟩ 7 afterFailure := by
  refine ⟨downLoader_fails, fun hretries => ?_⟩
  have hanswered := hretries.answered rfl downLoader_answering downLoader_fails
  obtain ⟨header, hheader, _⟩ := hanswered 7 confirmedBlock (by decide)
  cases hheader

theorem update_finalized_slot_retries_down :
    RetriesUncompared downAnswers ⟨confirmedDb, []⟩ 7 afterFailure ↔
      QueriesAnswered downAnswers (examined ⟨confirmedDb, []⟩ 7) :=
  update_finalized_slot_retries_iff rfl downLoader_answering downLoader_fails

end SolanaBlockLoader

end RomeSdk
