import RomeSdk.Proofs.AltSteps
import RomeSdk.Tx.RetryRun

/-!
# A transaction that has ended was executed

`End` should mean that every batch of the transaction was handed out, whatever failed on
the way and however often the caller came back. Where the step is changed after the calls
that may fail, a failed call has changed nothing and the next one does the same again. The
holder machines change it before: their emulation fails once, and from then on they say that
they have ended, or ask for the confirmation of what was never sent. `AltTx` takes its keys
before the allocation is emulated and panics when they are asked for again.

So what has to be kept from happening is one thing for each of these machines, `Loses`. The
others have nothing of the kind. A caller that does not come back after it sees no `End` that
is not true, and no panic.
-/

namespace RomeSdk

open EStateM

/-- The batch that an answer hands out for execution. -/
def executedBy : Outcome IxExecStepBatch → Option IxExecStepBatch
  | .ok (.single batch version) => some (.single batch version)
  | .ok (.singleWithSigners batch signers) => some (.singleWithSigners batch signers)
  | .ok (.parallel batches version) => some (.parallel batches version)
  | .ok (.parallelUnchecked batches version) => some (.parallelUnchecked batches version)
  | _ => none

theorem ne_end_of_executedBy {step : IxExecStepBatch} (h : executedBy (.ok step) = some step) :
    step ≠ .end_ := by
  intro hend
  rw [hend] at h
  cases h

def executed (answers : List (Outcome IxExecStepBatch)) : List IxExecStepBatch :=
  answers.filterMap executedBy

theorem executed_concat (answers : List (Outcome IxExecStepBatch)) (a : Outcome IxExecStepBatch) :
    executed (answers ++ [a]) = executed answers ++ (executedBy a).toList := by
  rw [executed, List.filterMap_append, executed]
  cases h : executedBy a <;> simp [h]

/-- A machine as its caller may use it: how it is called, what its execution batches are,
what it has to be made with, and the calls after which it is no more what it was. -/
structure RetriedTx (τ : Type) where
  call : CallAnswers → EStateM Failure τ IxExecStepBatch
  Execution : τ → List IxExecStepBatch → Prop
  MadeWell : τ → Prop
  Loses : τ → CallAnswers → Prop

namespace RetriedTx

variable {τ : Type} {R : RetriedTx τ} {tx₀ tx : τ} {sent : List IxExecStepBatch}
  {e : CallAnswers} {Progress : τ → List IxExecStepBatch → Prop}

/-- No panic, and no `End` before all execution batches of `tx₀`. -/
def EndMeansExecuted (R : RetriedTx τ) (tx₀ : τ) : List (Outcome IxExecStepBatch) → Prop :=
  EachAnswer fun before a => (∀ message, a ≠ .error (.panic message)) ∧
    (a = .ok .end_ → R.Execution tx₀ (executed before))

/-- What a call may do to a transaction that has come as far as `sent`. -/
inductive Advances (R : RetriedTx τ) (tx₀ : τ) (Progress : τ → List IxExecStepBatch → Prop) (tx : τ)
    (sent : List IxExecStepBatch) (e : CallAnswers) : Prop
  | sends {step : IxExecStepBatch} {t : τ} : R.call e tx = .ok step t →
      executedBy (.ok step) = some step → Progress t (sent ++ [step]) →
      Advances R tx₀ Progress tx sent e
  | tells {step : IxExecStepBatch} {t : τ} : R.call e tx = .ok step t → step ≠ .end_ →
      executedBy (.ok step) = none → Progress t sent → Advances R tx₀ Progress tx sent e
  | ends {t : τ} : R.call e tx = .ok .end_ t → R.Execution tx₀ sent → Progress t sent →
      Advances R tx₀ Progress tx sent e
  | fails {f : RomeEvmError} {t : τ} : R.call e tx = .error (.err f) t →
      (¬ R.Loses tx e → Progress t sent) → Advances R tx₀ Progress tx sent e

/-- A transaction whose progress each call keeps, unless it loses, ends only when it is
executed. -/
theorem endMeansExecuted {finds : CallAnswers → Prop} (hstart : Progress tx₀ [])
    (hadvances : ∀ tx sent e, Progress tx sent → finds e → R.Advances tx₀ Progress tx sent e)
    {tr : List ((τ × List (Outcome IxExecStepBatch)) × CallAnswers)}
    {s : τ × List (Outcome IxExecStepBatch)} (hrun : Machine.Run (retrying R.call tx₀) tr s)
    (hfinds : Machine.Meets (fun _ e => finds e) tr)
    (hloses : Machine.Meets (fun s e => ¬ R.Loses s.1 e) tr.dropLast) :
    R.EndMeansExecuted tx₀ s.2 := by
  suffices hkeeps : Keeps R.call (fun tx answers => Progress tx (executed answers))
      (fun before a => (∀ message, a ≠ .error (.panic message)) ∧
        (a = .ok .end_ → R.Execution tx₀ (executed before))) (fun _ e => finds e) R.Loses from
    eachAnswer hstart hkeeps hrun hfinds hloses
  intro tx answers e hprogress he
  have hkeep : ∀ {a : Outcome IxExecStepBatch} {t : τ},
      Progress t (executed answers ++ (executedBy a).toList) →
      Progress t (executed (answers ++ [a])) := by
    intro a t h
    rw [executed_concat]
    exact h
  cases hadvances tx (executed answers) e hprogress he with
  | sends hcall hsent hnext =>
      refine ⟨_, _, goes_ok hcall, ⟨nofun, fun h => ?_⟩, fun _ => hkeep ?_⟩
      · rw [h] at hsent
        cases hsent
      · rw [hsent]
        exact hnext
  | tells hcall hne htold hnext =>
      refine ⟨_, _, goes_ok hcall, ⟨nofun, fun h => ?_⟩, fun _ => hkeep ?_⟩
      · exact absurd (Except.ok.inj h) hne
      · rw [htold, Option.toList_none, List.append_nil]
        exact hnext
  | ends hcall hexecuted hnext =>
      refine ⟨_, _, goes_ok hcall, ⟨nofun, fun _ => hexecuted⟩, fun _ => hkeep ?_⟩
      show Progress _ (executed answers ++ [])
      rw [List.append_nil]
      exact hnext
  | fails hcall hnext =>
      refine ⟨_, _, goes_error hcall, ⟨nofun, nofun⟩, fun hkept => hkeep ?_⟩
      show Progress _ (executed answers ++ [])
      rw [List.append_nil]
      exact hnext hkept

end RetriedTx

theorem CallAnswers.accounts_error {e : CallAnswers} {data : Bytes} {payer : Pubkey}
    {f : RomeEvmError} (h : e.accounts data payer = .error f) :
    e.emulate data payer = .error f := by
  rw [accounts] at h
  cases hemulate : e.emulate data payer with
  | error f' =>
      rw [hemulate] at h
      cases h
      rfl
  | ok emulation =>
      rw [hemulate] at h
      cases h

theorem CallAnswers.accounts_ok {e : CallAnswers} {data : Bytes} {payer : Pubkey}
    {accounts : List (Pubkey × Bool)} (h : e.accounts data payer = .ok accounts) :
    ∃ emulation, e.emulate data payer = .ok emulation := by
  rw [CallAnswers.accounts] at h
  cases hemulate : e.emulate data payer with
  | error f =>
      rw [hemulate] at h
      cases h
  | ok emulation => exact ⟨emulation, rfl⟩

variable {K : TxCrates}

/-! ## Transmitting -/

namespace SteppedTransmitTx

/-- The step of a batch. -/
def batchStep (batch : List AtomicIxBatch) : IxExecStepBatch := .parallel batch .legacy

def retried (K : TxCrates) : RetriedTx SteppedTransmitTx where
  call := call K
  Execution t sent := ∃ emulate batches,
    (t.toTransmitTx.emulatedBy emulate).batches K.crates = .ok batches ∧
      sent = batches.map batchStep
  MadeWell _ := True
  Loses _ _ := False

inductive Progress (K : TxCrates) (t₀ : TransmitTx) :
    SteppedTransmitTx → List IxExecStepBatch → Prop
  | init (emulate : Bytes → Pubkey → ProgramResult (List (Pubkey × Bool))) :
      Progress K t₀ ⟨t₀.emulatedBy emulate, .init⟩ []
  | execute {asked emulate : Bytes → Pubkey → ProgramResult (List (Pubkey × Bool))}
      {done rest : List (List AtomicIxBatch)} :
      (t₀.emulatedBy asked).batches K.crates = .ok (done ++ rest) →
      Progress K t₀ ⟨t₀.emulatedBy emulate, .execute rest.reverse⟩ (done.map batchStep)
  | complete {asked emulate : Bytes → Pubkey → ProgramResult (List (Pubkey × Bool))}
      {batches : List (List AtomicIxBatch)} :
      (t₀.emulatedBy asked).batches K.crates = .ok batches →
      Progress K t₀ ⟨t₀.emulatedBy emulate, .complete⟩ (batches.map batchStep)

/-- The transmission has its last batch behind it, or no batch at all. -/
def nothingLeft (X : Crates) (t : SteppedTransmitTx) : Bool :=
  match t.step with
  | .init =>
      t.rlp.isEmpty && (t.txBuilder.emulate (t.txData X 0 t.rlp) t.resource.payerKey).isOk
  | .execute batches => batches.isEmpty
  | .complete => true

theorem nothingLeft_of_end {X : Crates} {t u : SteppedTransmitTx} (h : advance X t = .ok .end_ u) :
    t.nothingLeft X = true := by
  cases hstep : t.step with
  | init =>
      rcases t.toTransmitTx.batches_cases X with ⟨f, _, hf⟩ | ⟨_, batches, hemulate, hbatches⟩
      · rw [advance_init_error hstep hf] at h
        cases h
      · rw [advance_init hstep hbatches] at h
        cases batches with
        | nil =>
            simp only [nothingLeft, hstep]
            rw [hemulate, TransmitTx.rlp_eq_nil hbatches]
            rfl
        | cons batch rest =>
            rw [advanceExecute_cons] at h
            cases h
  | execute batches =>
      rw [advance_of_execute hstep] at h
      rcases List.eq_nil_or_concat batches with rfl | ⟨front, batch, rfl⟩
      · simp only [nothingLeft, hstep]
        rfl
      · rw [advanceExecute, List.concat_eq_append, List.getLast?_concat] at h
        cases h
  | complete => simp only [nothingLeft, hstep]

/-- What the transmission does in a call, be it the caller's or that of the transaction which
reads the holder. -/
inductive Transmits (K : TxCrates) (t₀ : TransmitTx) (tx : SteppedTransmitTx)
    (sent : List IxExecStepBatch) (e : CallAnswers) : Prop
  | sends {step : IxExecStepBatch} {u : SteppedTransmitTx} : call K e tx = .ok step u →
      executedBy (.ok step) = some step → Progress K t₀ u (sent ++ [step]) →
      Transmits K t₀ tx sent e
  | ends {step : TransmitTx.Steps} : call K e tx = .ok .end_ ⟨t₀.emulatedBy e.accounts, step⟩ →
      (retried K).Execution ⟨t₀, .init⟩ sent →
      Progress K t₀ ⟨t₀.emulatedBy e.accounts, step⟩ sent → Transmits K t₀ tx sent e
  | fails {f : RomeEvmError} {u : SteppedTransmitTx} : call K e tx = .error (.err f) u →
      Progress K t₀ u sent → Transmits K t₀ tx sent e

theorem Progress.transmits_execute {t₀ : TransmitTx} {tx : SteppedTransmitTx} {e : CallAnswers}
    {asked : Bytes → Pubkey → ProgramResult (List (Pubkey × Bool))}
    {done rest : List (List AtomicIxBatch)}
    (hbatches : (t₀.emulatedBy asked).batches K.crates = .ok (done ++ rest))
    (hcall : call K e tx = advanceExecute rest.reverse
      ⟨t₀.emulatedBy e.accounts, .execute rest.reverse⟩) :
    Transmits K t₀ tx (done.map batchStep) e := by
  cases rest with
  | nil =>
      rw [List.append_nil] at hbatches
      exact .ends hcall ⟨asked, done, hbatches, rfl⟩ (.complete hbatches)
  | cons batch rest =>
      rw [advanceExecute_cons] at hcall
      refine .sends hcall rfl ?_
      rw [List.append_cons] at hbatches
      have hnext : Progress K t₀ ⟨t₀.emulatedBy e.accounts, .execute rest.reverse⟩
          ((done ++ [batch]).map batchStep) := .execute hbatches
      rw [List.map_append] at hnext
      exact hnext

theorem Progress.transmits {t₀ : TransmitTx} {tx : SteppedTransmitTx} {sent : List IxExecStepBatch}
    (h : Progress K t₀ tx sent) (e : CallAnswers) : Transmits K t₀ tx sent e := by
  cases h with
  | init emulate =>
      rcases (t₀.emulatedBy e.accounts).batches_cases K.crates with
        ⟨f, _, hf⟩ | ⟨_, batches, _, hbatches⟩
      · exact .fails (advance_init_error rfl hf) (.init e.accounts)
      · have hall : (t₀.emulatedBy e.accounts).batches K.crates = .ok ([] ++ batches) := hbatches
        exact transmits_execute hall (advance_init rfl hbatches)
  | execute hbatches => exact transmits_execute hbatches (advance_of_execute rfl)
  | @complete asked emulate batches hbatches =>
      exact .ends (advance_complete rfl) ⟨asked, batches, hbatches, rfl⟩ (.complete hbatches)

theorem Progress.advances {t₀ : TransmitTx} {tx : SteppedTransmitTx} {sent : List IxExecStepBatch}
    (h : Progress K t₀ tx sent) (e : CallAnswers) :
    (retried K).Advances ⟨t₀, .init⟩ (Progress K t₀) tx sent e := by
  cases h.transmits e with
  | sends hcall hsent hnext => exact .sends hcall hsent hnext
  | ends hcall hexecuted hnext => exact .ends hcall hexecuted hnext
  | fails hcall hnext => exact .fails hcall fun _ => hnext

theorem Progress.emulatedBy {t₀ : TransmitTx} {tx : SteppedTransmitTx}
    {sent : List IxExecStepBatch} (h : Progress K t₀ tx sent)
    (emulate : Bytes → Pubkey → ProgramResult (List (Pubkey × Bool))) :
    tx.toTransmitTx.emulatedBy emulate = t₀.emulatedBy emulate := by
  cases h <;> rfl

end SteppedTransmitTx

/-! ## Atomic transactions -/

namespace AtomicTx

def Builds (K : TxCrates) (tx : AtomicTx) (ix : AtomicIxBatch) : Prop :=
  ∃ accounts, ix = K.newComposibleOwned (tx.txBuilder.buildIx accounts (tx.txData K.crates))

def retried (K : TxCrates) : RetriedTx AtomicTx where
  call := call K
  Execution tx sent := ∃ ix, tx.Builds K ix ∧ sent = [.single ix .legacy]
  MadeWell _ := True
  Loses _ _ := False

inductive Progress (K : TxCrates) (tx₀ : AtomicTx) : AtomicTx → List IxExecStepBatch → Prop
  | execute {emulate : Bytes → Pubkey → ProgramResult (List (Pubkey × Bool))}
      {ix : Option AtomicIxBatch} {emulation : Option (List (Pubkey × Bool))} :
      (∀ batch, ix = some batch → tx₀.Builds K batch) →
      Progress K tx₀ { tx₀ with
        txBuilder := tx₀.txBuilder.emulatedBy emulate, ix, emulation, step := .execute } []
  | ended {emulate : Bytes → Pubkey → ProgramResult (List (Pubkey × Bool))} {ix : AtomicIxBatch}
      {emulation : Option (List (Pubkey × Bool))} : tx₀.Builds K ix →
      Progress K tx₀ { tx₀ with
        txBuilder := tx₀.txBuilder.emulatedBy emulate, ix := none, emulation, step := .end_ }
        [.single ix .legacy]

theorem Progress.advances {tx₀ tx : AtomicTx} {sent : List IxExecStepBatch}
    (h : Progress K tx₀ tx sent) (e : CallAnswers) :
    (retried K).Advances tx₀ (Progress K tx₀) tx sent e := by
  cases h with
  | @execute emulate ix emulation hix =>
      cases ix with
      | some ix => exact .sends (advance_built rfl rfl) rfl (.ended (hix ix rfl))
      | none =>
          cases hemulate : e.accounts (tx₀.txData K.crates) tx₀.resource.payerKey with
          | error f =>
              refine .fails (advance_failed rfl rfl hemulate) fun _ => ?_
              exact .execute nofun
          | ok accounts =>
              refine .sends (advance_emulated rfl rfl hemulate) rfl ?_
              exact .ended ⟨accounts, rfl⟩
  | @ended _ ix _ hix => exact .ends (advance_end rfl) ⟨ix, hix, rfl⟩ (.ended hix)

end AtomicTx

namespace AtomicTxHolder

/-- Whether the call is to execute the transaction. -/
def comesToExecution (X : Crates) (e : CallAnswers) (tx : AtomicTxHolder) : Bool :=
  match tx.step with
  | .transmit => (tx.transmitTx.emulatedBy e.accounts).nothingLeft X
  | .execute => true
  | .end_ => false

/-- The batches of the transmission, where there is one, and the instruction. -/
def retried (K : TxCrates) : RetriedTx AtomicTxHolder where
  call := call K
  Execution tx sent := ∃ transmitted accounts,
    (if tx.step = .transmit then (SteppedTransmitTx.retried K).Execution tx.transmitTx transmitted
      else transmitted = []) ∧
    sent = transmitted ++ [.single (K.newComposibleOwned
      (tx.transmitTx.txBuilder.buildIx accounts (tx.txData K.crates))) .legacy]
  MadeWell _ := True
  Loses tx e := tx.comesToExecution K.crates e = true ∧
    ∃ f, e.emulate (tx.txData K.crates) tx.transmitTx.resource.payerKey = .error f

/-- What is known of the holder before the execution, of a transaction that was made for
the transmission `t`. -/
inductive Progress (K : TxCrates) (t : TransmitTx) (fee : Bytes) (useAlt : Bool) :
    AtomicTxHolder → List IxExecStepBatch → Prop
  | transmit {transmitTx : SteppedTransmitTx} {sent : List IxExecStepBatch} : useAlt = false →
      SteppedTransmitTx.Progress K t transmitTx sent →
      Progress K t fee useAlt ⟨.transmit, transmitTx, fee⟩ sent
  | execute {emulate : Bytes → Pubkey → ProgramResult (List (Pubkey × Bool))} : useAlt = true →
      Progress K t fee useAlt ⟨.execute, ⟨t.emulatedBy emulate, .init⟩, fee⟩ []
  | ended {transmitTx : SteppedTransmitTx} {sent : List IxExecStepBatch} :
      (retried K).Execution (.new ⟨t, .init⟩ fee useAlt) sent →
      Progress K t fee useAlt ⟨.end_, transmitTx, fee⟩ sent

variable {t : TransmitTx} {fee : Bytes} {useAlt : Bool} {tx : AtomicTxHolder}
  {sent : List IxExecStepBatch} {e : CallAnswers}

/-- The execution, with the emulation it asks for. -/
theorem Progress.advances_execute {st : Steps} {step : TransmitTx.Steps}
    (hcall : call K e tx = advanceExecute K.crates K.toComputeBudget
      ⟨st, ⟨t.emulatedBy e.accounts, step⟩, fee⟩)
    (hcomes : tx.comesToExecution K.crates e = true)
    (hsame : tx.transmitTx.toTransmitTx.emulatedBy e.accounts = t.emulatedBy e.accounts)
    (hfee : tx.feeRecipient = fee)
    (htransmitted : if (new ⟨t, .init⟩ fee useAlt).step = .transmit then
      (SteppedTransmitTx.retried K).Execution ⟨t, .init⟩ sent else sent = []) :
    (retried K).Advances (new ⟨t, .init⟩ fee useAlt) (Progress K t fee useAlt) tx sent e := by
  subst hfee
  have hixs : ∀ result, e.accounts (txData K.crates ⟨st, ⟨t, .init⟩, tx.feeRecipient⟩)
      t.resource.payerKey = result →
      ixs K.crates K.toComputeBudget ⟨st, ⟨t.emulatedBy e.accounts, step⟩, tx.feeRecipient⟩ =
        (ProgramResult.toOutcome result).bind fun accounts => .ok (K.newComposibleOwned
          (t.txBuilder.buildIx accounts (txData K.crates ⟨st, ⟨t, .init⟩, tx.feeRecipient⟩))) := by
    rintro result rfl
    rfl
  cases hemulate : e.accounts (txData K.crates ⟨st, ⟨t, .init⟩, tx.feeRecipient⟩)
      t.resource.payerKey with
  | error f =>
      refine .fails (hcall.trans (advanceExecute_error (hixs _ hemulate))) fun hkept => ?_
      refine absurd ⟨hcomes, f, ?_⟩ hkept
      show e.emulate (txData K.crates
          ⟨tx.step, ⟨tx.transmitTx.toTransmitTx.emulatedBy e.accounts, .init⟩, tx.feeRecipient⟩)
        (tx.transmitTx.toTransmitTx.emulatedBy e.accounts).resource.payerKey = .error f
      rw [hsame]
      exact CallAnswers.accounts_error hemulate
  | ok accounts =>
      refine .sends (hcall.trans (advanceExecute_ok (hixs _ hemulate))) rfl ?_
      exact .ended ⟨sent, accounts, htransmitted, rfl⟩

theorem Progress.advances (h : Progress K t fee useAlt tx sent) (e : CallAnswers) :
    (retried K).Advances (new ⟨t, .init⟩ fee useAlt) (Progress K t fee useAlt) tx sent e := by
  cases h with
  | transmit huse htransmit =>
      subst huse
      cases htransmit.transmits e with
      | sends hcall hsent hnext =>
          have hne := ne_end_of_executedBy hsent
          exact .sends (advance_transmit rfl hcall hne) hsent (.transmit rfl hnext)
      | ends hcall hexecuted _ =>
          refine advances_execute (advance_transmitted rfl hcall)
            (SteppedTransmitTx.nothingLeft_of_end hcall) (htransmit.emulatedBy _) rfl ?_
          rw [new, if_neg Bool.false_ne_true, if_pos rfl]
          exact hexecuted
      | fails hcall hnext =>
          exact .fails (advance_transmit_error rfl hcall) fun _ => .transmit rfl hnext
  | execute huse =>
      subst huse
      refine advances_execute (advance_of_execute rfl) rfl rfl rfl ?_
      rfl
  | ended hexecuted => exact .ends (advance_end rfl) hexecuted (.ended hexecuted)

end AtomicTxHolder

/-! ## Iterative transactions -/

namespace IterativeTx

def retried (K : TxCrates) : RetriedTx IterativeTx where
  call := call K
  Execution tx sent := ∃ e ixs, tx.built K.crates (CallAnswers.iterativeCrates e K) = .ok ixs ∧
    sent = [.parallelUnchecked ixs .legacy]
  MadeWell _ := True
  Loses _ _ := False

inductive Progress (K : TxCrates) (tx₀ : IterativeTx) : IterativeTx → List IxExecStepBatch → Prop
  | execute {ixs : Option (List AtomicIxBatch)} :
      (∀ batches, ixs = some batches →
        ∃ e : CallAnswers, tx₀.built K.crates (e.iterativeCrates K) = .ok batches) →
      Progress K tx₀ { tx₀ with ixs, step := .execute } []
  | sent {e : CallAnswers} {ixs : List AtomicIxBatch} {step : Steps} : step ≠ .execute →
      tx₀.built K.crates (e.iterativeCrates K) = .ok ixs →
      Progress K tx₀ { tx₀ with ixs := none, step } [.parallelUnchecked ixs .legacy]

variable {tx₀ tx : IterativeTx} {sent : List IxExecStepBatch} {e : CallAnswers}

theorem Progress.advances (h : Progress K tx₀ tx sent) (hvm : e.ReportsVm K.crates) :
    (retried K).Advances tx₀ (Progress K tx₀) tx sent e := by
  cases h with
  | @execute ixs hixs =>
      cases ixs with
      | some ixs =>
          obtain ⟨e', hbuilt⟩ := hixs ixs rfl
          exact .sends (advance_built rfl rfl) rfl (.sent nofun hbuilt)
      | none =>
          cases hbuilt : tx₀.built K.crates (e.iterativeCrates K) with
          | error f =>
              obtain ⟨f', _, rfl⟩ := IterativeCrates.ixs_error
                (fun emulation => hvm .doTxIterative (by simp) _ _ emulation) hbuilt
              refine .fails (advance_failed rfl rfl hbuilt) fun _ => ?_
              exact .execute nofun
          | ok ixs => exact .sends (advance_emulated rfl rfl hbuilt) rfl (.sent nofun hbuilt)
  | @sent e' ixs step hstep hbuilt =>
      cases step with
      | execute => exact absurd rfl hstep
      | confirm =>
          cases hconfirm : (e.iterativeCrates K).confirm tx₀.txBuilder tx₀.resource tx₀.hash
              tx₀.session with
          | ok confirm =>
              exact .tells (advance_confirm rfl hconfirm) nofun rfl (.sent nofun hbuilt)
          | error f => exact .fails (advance_confirm_error rfl hconfirm) fun _ => .sent nofun hbuilt
      | complete => exact .ends (advance_complete rfl) ⟨e', ixs, hbuilt, rfl⟩ (.sent nofun hbuilt)

end IterativeTx

namespace IterativeTxHolder

/-- Whether the call is to execute the transaction. -/
def comesToExecution (X : Crates) (e : CallAnswers) (tx : IterativeTxHolder) : Bool :=
  match tx.step with
  | .transmit => (tx.transmitTx.emulatedBy e.accounts).nothingLeft X
  | .execute => true
  | .confirm => false
  | .end_ => false

/-- The batches of the transmission, where there is one, and the instructions. -/
def retried (K : TxCrates) : RetriedTx IterativeTxHolder where
  call := call K
  Execution tx sent := ∃ transmitted e ixs,
    (if tx.step = .transmit then (SteppedTransmitTx.retried K).Execution tx.transmitTx transmitted
      else transmitted = []) ∧
    tx.ixs K.crates (CallAnswers.iterativeCrates e K) = .ok ixs ∧
    sent = transmitted ++ [.parallelUnchecked ixs .legacy]
  MadeWell _ := True
  Loses tx e := tx.comesToExecution K.crates e = true ∧
    ∃ f, e.emulate (tx.emulationData K.crates) tx.transmitTx.resource.payerKey = .error f

inductive Progress (K : TxCrates) (t : TransmitTx) (session : UInt64) (fee : Bytes)
    (useAlt : Bool) : IterativeTxHolder → List IxExecStepBatch → Prop
  | transmit {transmitTx : SteppedTransmitTx} {sent : List IxExecStepBatch} : useAlt = false →
      SteppedTransmitTx.Progress K t transmitTx sent →
      Progress K t session fee useAlt ⟨transmitTx, .transmit, session, fee⟩ sent
  | execute {emulate : Bytes → Pubkey → ProgramResult (List (Pubkey × Bool))} : useAlt = true →
      Progress K t session fee useAlt ⟨⟨t.emulatedBy emulate, .init⟩, .execute, session, fee⟩ []
  | executed {transmitTx : SteppedTransmitTx} {sent : List IxExecStepBatch} {step : Steps} :
      step = .confirm ∨ step = .end_ →
      (retried K).Execution (.new ⟨t, .init⟩ session fee useAlt) sent →
      Progress K t session fee useAlt ⟨transmitTx, step, session, fee⟩ sent

variable {t : TransmitTx} {session : UInt64} {fee : Bytes} {useAlt : Bool} {tx : IterativeTxHolder}
  {sent : List IxExecStepBatch} {e : CallAnswers}

/-- The execution, with the emulation it asks for. -/
theorem Progress.advances_execute {st : Steps} {step : TransmitTx.Steps}
    (hvm : e.ReportsVm K.crates)
    (hcall : call K e tx = advanceExecute K.crates (e.iterativeCrates K)
      ⟨⟨t.emulatedBy e.accounts, step⟩, st, session, fee⟩)
    (hcomes : tx.comesToExecution K.crates e = true)
    (hsame : tx.transmitTx.toTransmitTx.emulatedBy e.accounts = t.emulatedBy e.accounts)
    (hfee : tx.feeRecipient = fee) (hsession : tx.session = session)
    (htransmitted : if (new ⟨t, .init⟩ session fee useAlt).step = .transmit then
      (SteppedTransmitTx.retried K).Execution ⟨t, .init⟩ sent else sent = []) :
    (retried K).Advances (new ⟨t, .init⟩ session fee useAlt) (Progress K t session fee useAlt) tx
      sent e := by
  subst hfee hsession
  cases hixs : ixs K.crates (e.iterativeCrates K)
      ⟨⟨t.emulatedBy e.accounts, step⟩, st, tx.session, tx.feeRecipient⟩ with
  | error f =>
      obtain ⟨f', hemulate, rfl⟩ := IterativeCrates.ixs_error
        (fun emulation => hvm .doTxHolderIterative (by simp) _ _ emulation) hixs
      refine .fails (hcall.trans (advanceExecute_error hixs)) fun hkept => ?_
      refine absurd ⟨hcomes, f', ?_⟩ hkept
      show e.emulate (emulationData K.crates ⟨⟨tx.transmitTx.toTransmitTx.emulatedBy e.accounts,
          .init⟩, tx.step, tx.session, tx.feeRecipient⟩)
        (tx.transmitTx.toTransmitTx.emulatedBy e.accounts).resource.payerKey = .error f'
      rw [hsame]
      exact hemulate
  | ok batches =>
      refine .sends (hcall.trans (advanceExecute_ok hixs)) rfl ?_
      exact .executed (.inl rfl) ⟨sent, e, batches, htransmitted, hixs, rfl⟩

theorem Progress.advances (h : Progress K t session fee useAlt tx sent)
    (hvm : e.ReportsVm K.crates) :
    (retried K).Advances (new ⟨t, .init⟩ session fee useAlt) (Progress K t session fee useAlt) tx
      sent e := by
  cases h with
  | transmit huse htransmit =>
      subst huse
      cases htransmit.transmits e with
      | sends hcall hsent hnext =>
          have hne := ne_end_of_executedBy hsent
          exact .sends (advance_transmit rfl hcall hne) hsent (.transmit rfl hnext)
      | ends hcall hexecuted _ =>
          refine advances_execute hvm (advance_transmitted rfl hcall)
            (SteppedTransmitTx.nothingLeft_of_end hcall) (htransmit.emulatedBy _) rfl rfl ?_
          rw [new, if_neg Bool.false_ne_true, if_pos rfl]
          exact hexecuted
      | fails hcall hnext =>
          exact .fails (advance_transmit_error rfl hcall) fun _ => .transmit rfl hnext
  | execute huse =>
      subst huse
      refine advances_execute hvm (advance_of_execute rfl) rfl rfl rfl rfl ?_
      rfl
  | @executed transmitTx _ step hstep hexecuted =>
      rcases hstep with rfl | rfl
      · have hcall : ∃ confirm, call K e ⟨transmitTx, .confirm, session, fee⟩
            = .ok (.confirmationIterativeTx confirm)
              ⟨transmitTx.emulatedBy e.accounts, .end_, session, fee⟩ := advance_confirm rfl
        obtain ⟨confirm, hconfirm⟩ := hcall
        exact .tells hconfirm nofun rfl (.executed (.inr rfl) hexecuted)
      · exact .ends (advance_end rfl) hexecuted (.executed (.inr rfl) hexecuted)

end IterativeTxHolder

/-! ## The lookup table -/

namespace AltTx

/-- The deallocation and the allocation of the keys the table is made with. -/
def retried (K : TxCrates) : RetriedTx AltTx where
  call := call K
  Execution alt sent := ∃ keys data dealloc alloc, alt.keys = some keys ∧
    alt.allocData K.toAltCrates keys = .ok data ∧
    sent = [.parallel (K.newComposibleOwned
        (alt.txBuilder.buildIx dealloc (alt.txDataDealloc K.toAltCrates)) ::
      data.map fun x => [alt.txBuilder.buildIx alloc x]) .legacy]
  MadeWell alt := alt.keys ≠ some []
  Loses alt e := alt.step = .execute ∧
    (∃ emulation, e.emulate (alt.txDataDealloc K.toAltCrates) alt.resource.payerKey
      = .ok emulation) ∧
    ∃ keys data last f, alt.keys = some keys ∧ alt.allocData K.toAltCrates keys = .ok data ∧
      data.getLast? = some last ∧ e.emulate last alt.resource.payerKey = .error f

inductive Progress (K : TxCrates) (alt₀ : AltTx) : AltTx → List IxExecStepBatch → Prop
  | execute {emulate : Bytes → Pubkey → ProgramResult (List (Pubkey × Bool))} :
      alt₀.step = .execute →
      Progress K alt₀ { alt₀ with txBuilder := alt₀.txBuilder.emulatedBy emulate } []
  | sent {alt : AltTx} {sent : List IxExecStepBatch} : alt.step ≠ .execute →
      (retried K).Execution alt₀ sent → Progress K alt₀ alt sent

variable {alt₀ alt : AltTx} {sent : List IxExecStepBatch} {e : CallAnswers}

theorem Progress.advances (h : Progress K alt₀ alt sent) {keys : List Pubkey}
    (hkeys : alt₀.keys = some keys) (hsome : keys ≠ []) :
    (retried K).Advances alt₀ (Progress K alt₀) alt sent e := by
  cases h with
  | execute hstep =>
      obtain ⟨data, hdata⟩ := allocData_returns K.toAltCrates alt₀ keys
      have hne : data ≠ [] := fun hnil => hsome ((allocData_eq_nil_iff hdata).mp hnil)
      have hlast : data.getLast? = some (data.getLast hne) := List.getLast?_eq_getLast_of_ne_nil hne
      cases hdealloc : e.accounts (alt₀.txDataDealloc K.toAltCrates) alt₀.resource.payerKey with
      | error f =>
          refine .fails (advance_dealloc_error hstep (ixDealloc_error hdealloc)) fun _ => ?_
          exact .execute hstep
      | ok dealloc =>
          cases halloc : e.accounts (data.getLast hne) alt₀.resource.payerKey with
          | error f =>
              refine .fails (advance_alloc_error hstep (ixDealloc_ok hdealloc)
                (ixsAlloc_error hkeys hdata hlast halloc)) fun hkept => ?_
              refine absurd ⟨hstep, CallAnswers.accounts_ok hdealloc, keys, data,
                data.getLast hne, f, hkeys, hdata, hlast, CallAnswers.accounts_error halloc⟩ hkept
          | ok alloc =>
              refine .sends (advance_allocated hstep (ixDealloc_ok hdealloc)
                (ixsAlloc_ok hkeys hdata hlast halloc)) rfl ?_
              exact .sent nofun ⟨keys, data, dealloc, alloc, hkeys, hdata, rfl⟩
  | sent hstep hexecuted =>
      have hstep' : ({ alt with txBuilder := alt.txBuilder.emulatedBy e.accounts } : AltTx).step
        = alt.step := rfl
      cases hat : alt.step with
      | execute => exact absurd hat hstep
      | waitNextSlot =>
          rcases advance_wait_cases (A := e.altCrates K) (hstep'.trans hat) with
            ⟨slot, u, hcall, hend⟩ | ⟨f, u, hcall, hend⟩
          · refine .tells hcall nofun rfl (.sent ?_ hexecuted)
            rw [hend]
            nofun
          · refine .fails hcall fun _ => .sent ?_ hexecuted
            rw [hend]
            nofun
      | end_ =>
          refine .ends (advance_end (hstep'.trans hat)) hexecuted (.sent ?_ hexecuted)
          rw [hstep', hat]
          nofun

end AltTx

/-! ## All of them -/

/-- The machines, each as it comes from its `new`, or from the function that builds its
instructions in advance. -/
inductive NewTx (K : TxCrates) : {τ : Type} → RetriedTx τ → τ → Prop
  | atomicTx (txBuilder : TxBuilder) (rlp : Bytes) (resource : Resource) (fee : Bytes) :
      NewTx K (AtomicTx.retried K) (.new txBuilder rlp resource fee)
  | atomicTxBuilt {txBuilder : TxBuilder} {rlp : Bytes} {resource : Resource} {fee : Bytes}
      {tx : AtomicTx} : AtomicTx.emulateIx K.crates K.toComputeBudget
        (.new txBuilder rlp resource fee) = .ok () tx → NewTx K (AtomicTx.retried K) tx
  | atomicTxHolder (t : TransmitTx) (fee : Bytes) (useAlt : Bool) :
      NewTx K (AtomicTxHolder.retried K) (.new ⟨t, .init⟩ fee useAlt)
  | iterativeTx (txBuilder : TxBuilder) (resource : Resource) (fee rlp : Bytes)
      (session : UInt64) :
      NewTx K (IterativeTx.retried K) (.new K.crates txBuilder resource fee rlp session)
  | iterativeTxBuilt {txBuilder : TxBuilder} {resource : Resource} {fee rlp : Bytes}
      {session : UInt64} {e : CallAnswers} {tx : IterativeTx} :
      IterativeTx.emulateIxs K.crates (e.iterativeCrates K)
        (.new K.crates txBuilder resource fee rlp session) = .ok () tx →
      NewTx K (IterativeTx.retried K) tx
  | iterativeTxHolder (t : TransmitTx) (session : UInt64) (fee : Bytes) (useAlt : Bool) :
      NewTx K (IterativeTxHolder.retried K) (.new ⟨t, .init⟩ session fee useAlt)
  | altTx (txBuilder : TxBuilder) (resource : Resource) (session : UInt64) (keys : List Pubkey)
      (recentSlot : UInt64) : NewTx K (AltTx.retried K)
        ⟨txBuilder, resource, session, some keys, recentSlot, .execute, none⟩
  | transmitTx (t : TransmitTx) : NewTx K (SteppedTransmitTx.retried K) ⟨t, .init⟩

namespace RetriedTx

/-- However its calls fail, a machine ends only when its batches were handed out, and does
not panic, as long as nothing is asked of it after a call that loses. -/
theorem end_means_executed {τ : Type} {R : RetriedTx τ} {tx : τ} (hnew : NewTx K R tx)
    (hwell : R.MadeWell tx) {tr : List ((τ × List (Outcome IxExecStepBatch)) × CallAnswers)}
    {s : τ × List (Outcome IxExecStepBatch)} (hrun : Machine.Run (retrying R.call tx) tr s)
    (hvm : Machine.Meets (fun _ e => e.ReportsVm K.crates) tr)
    (hkept : Machine.Meets (fun s e => ¬ R.Loses s.1 e) tr.dropLast) :
    R.EndMeansExecuted tx s.2 := by
  cases hnew with
  | atomicTx txBuilder rlp resource fee =>
      have hstart : AtomicTx.Progress K (.new txBuilder rlp resource fee)
          (.new txBuilder rlp resource fee) [] := .execute nofun
      exact endMeansExecuted hstart (fun _ _ e h _ => h.advances e) hrun hvm hkept
  | @atomicTxBuilt txBuilder rlp resource fee tx hbuilt =>
      have hstart : AtomicTx.Progress K tx tx [] := by
        cases hemulate : txBuilder.emulate
            (AtomicTx.txData K.crates (.new txBuilder rlp resource fee)) resource.payerKey with
        | error f => cases (AtomicTx.emulateIx_error hemulate).symm.trans hbuilt
        | ok accounts =>
            cases (AtomicTx.emulateIx_ok hemulate).symm.trans hbuilt
            refine .execute fun batch hbatch => ?_
            cases hbatch
            exact ⟨accounts, rfl⟩
      exact endMeansExecuted hstart (fun _ _ e h _ => h.advances e) hrun hvm hkept
  | atomicTxHolder t fee useAlt =>
      have hstart : AtomicTxHolder.Progress K t fee useAlt (.new ⟨t, .init⟩ fee useAlt) [] := by
        cases useAlt with
        | false => exact .transmit rfl (.init t.txBuilder.emulate)
        | true => exact .execute rfl
      exact endMeansExecuted hstart (fun _ _ e h _ => h.advances e) hrun hvm hkept
  | iterativeTx txBuilder resource fee rlp session =>
      have hstart : IterativeTx.Progress K (.new K.crates txBuilder resource fee rlp session)
          (.new K.crates txBuilder resource fee rlp session) [] := .execute nofun
      exact endMeansExecuted hstart (fun _ _ e h => h.advances) hrun hvm hkept
  | @iterativeTxBuilt txBuilder resource fee rlp session e tx hbuilt =>
      have hstart : IterativeTx.Progress K tx tx [] := by
        cases hixs : IterativeTx.built K.crates (e.iterativeCrates K)
            (.new K.crates txBuilder resource fee rlp session) with
        | error f => cases (IterativeTx.emulateIxs_error hixs).symm.trans hbuilt
        | ok ixs =>
            cases (IterativeTx.emulateIxs_ok hixs).symm.trans hbuilt
            refine .execute fun batches hbatches => ?_
            cases hbatches
            exact ⟨e, hixs⟩
      exact endMeansExecuted hstart (fun _ _ e h => h.advances) hrun hvm hkept
  | iterativeTxHolder t session fee useAlt =>
      have hstart : IterativeTxHolder.Progress K t session fee useAlt
          (.new ⟨t, .init⟩ session fee useAlt) [] := by
        cases useAlt with
        | false => exact .transmit rfl (.init t.txBuilder.emulate)
        | true => exact .execute rfl
      exact endMeansExecuted hstart (fun _ _ e h => h.advances) hrun hvm hkept
  | altTx txBuilder resource session keys recentSlot =>
      have hsome : keys ≠ [] := fun hnil => hwell (congrArg some hnil)
      have hstart : AltTx.Progress K
          ⟨txBuilder, resource, session, some keys, recentSlot, .execute, none⟩
          ⟨txBuilder, resource, session, some keys, recentSlot, .execute, none⟩ [] := .execute rfl
      exact endMeansExecuted hstart (fun _ _ e h _ => h.advances rfl hsome) hrun hvm hkept
  | transmitTx t =>
      have hstart : SteppedTransmitTx.Progress K t ⟨t, .init⟩ [] := .init t.txBuilder.emulate
      exact endMeansExecuted hstart (fun _ _ e h _ => h.advances e) hrun hvm hkept

/-! A caller that comes back after each failure, and what the emulator tells it. -/

def txStandIns : TxCrates where
  toAltCrates := AltComposedHolder.altStandIns
  crates := standIns
  multipleIterations count := count

/-- Nothing is answered. -/
def unanswered : CallAnswers :=
  ⟨fun _ _ => .error (.custom "timeout"), fun _ _ _ => .error (.custom "timeout"),
    fun _ => .error (.custom "timeout"), fun _ _ _ _ _ _ => .error (.custom "timeout")⟩

def answered : CallAnswers :=
  ⟨fun _ _ => .ok ⟨[], some 5, []⟩, fun _ _ _ => .ok (some 9),
    fun _ => .ok (AltComposedHolder.tableAccount 100 [11]), fun _ _ _ _ _ _ => .ok true⟩

theorem reportsVm_unanswered : unanswered.ReportsVm standIns := by
  intro tag _ data payer emulation h
  cases h

theorem reportsVm_answered : answered.ReportsVm standIns := by
  intro tag _ data payer emulation h
  cases h
  nofun

/-- A deallocation that is emulated, and an allocation that is not. -/
def unallocated : CallAnswers :=
  { answered with emulate := fun data payer =>
      if data.head? = some 21 then .error (.custom "timeout") else answered.emulate data payer }

/-- A transaction of one byte that is read from its holder. -/
def holderTx (useAlt : Bool) : AtomicTxHolder := .new ⟨transmitOf [1], .init⟩ [0] useAlt

/-- The emulation of the transmission fails, and the caller comes back until the end. -/
theorem end_means_executed_holder :
    (AtomicTxHolder.retried txStandIns).EndMeansExecuted (holderTx false)
      ([unanswered, answered, answered, answered].foldl
        (retry (AtomicTxHolder.retried txStandIns).call) (holderTx false, [])).2 := by
  refine end_means_executed (.atomicTxHolder (transmitOf [1]) [0] false) trivial
    (run_retries [unanswered, answered, answered, answered] (.start rfl)) ?_ ?_
  · intro st hst
    simp only [retries, List.nil_append, List.mem_cons, List.not_mem_nil, or_false] at hst
    rcases hst with rfl | rfl | rfl | rfl
    · exact reportsVm_unanswered
    · exact reportsVm_answered
    · exact reportsVm_answered
    · exact reportsVm_answered
  · have hanswered : ∀ tx, ¬ (AtomicTxHolder.retried txStandIns).Loses tx answered := by
      intro tx hloses
      obtain ⟨_, f, hf⟩ := hloses
      cases hf
    intro st hst
    simp only [retries, List.nil_append, List.dropLast, List.mem_cons, List.not_mem_nil,
      or_false] at hst
    rcases hst with rfl | rfl | rfl
    · intro hloses
      cases hloses.1
    · exact hanswered _
    · exact hanswered _

/-- The emulation of the execution fails once, and the next call says that the transaction
has ended; the allocation of a table is asked for a second time, and the call panics. -/
theorem ended_unexecuted :
    (∃ tr s, Machine.Run (retrying (AtomicTxHolder.retried txStandIns).call (holderTx true)) tr s ∧
      s.2 = [.error (.err (.custom "timeout")), .ok .end_] ∧
      ¬ (AtomicTxHolder.retried txStandIns).EndMeansExecuted (holderTx true) s.2) ∧
    ∃ tr s, Machine.Run
        (retrying (AltTx.retried txStandIns).call (AltComposedHolder.altOf [1]).altTx) tr s ∧
      s.2 = [.error (.err (.custom "timeout")), .error (.panic "accounts expected")] ∧
      ¬ (AltTx.retried txStandIns).EndMeansExecuted (AltComposedHolder.altOf [1]).altTx s.2 := by
  refine ⟨⟨_, _, run_retries [unanswered, answered] (.start rfl), rfl, fun hend => ?_⟩,
    _, _, run_retries [unallocated, answered] (.start rfl), rfl, fun hend => ?_⟩
  · have hexecuted := (hend [.error (.err (.custom "timeout"))] (.ok .end_) [] rfl).2 rfl
    obtain ⟨transmitted, accounts, _, hsent⟩ := hexecuted
    cases transmitted <;> cases hsent
  · exact (hend [.error (.err (.custom "timeout"))] (.error (.panic "accounts expected")) [] rfl).1
      "accounts expected" rfl

end RetriedTx

end RomeSdk
