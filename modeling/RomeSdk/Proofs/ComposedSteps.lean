import RomeSdk.Proofs.EndMeansExecuted
import RomeSdk.Proofs.StepOrder
import RomeSdk.Tx.Builder

/-!
# Composed transactions, call by call

A transaction with a lookup table is one machine behind another. What such a composition
hands out is what its parts hand out, one after the other, so it is enough to count the
batches: `Hands` says that a call hands out the next ones, ends when they are all there, or
fails, and a composition of machines that do this does it too.

The version a boxed transaction is asked for changes none of its batches. The table and the
chunks of a holder go out in lockstep, those of the table before the first chunks.
-/

namespace RomeSdk

open EStateM

/-- What a call of a transaction does that has handed out `sent`: where `Whole` is what it has
to hand out in all, and `P` what is known of it in between. -/
inductive Hands {τ : Type} (x : EStateM Failure τ IxExecStepBatch)
    (Whole : List AtomicIxBatch → Prop) (P : τ → List AtomicIxBatch → Prop) (tx : τ)
    (sent : List AtomicIxBatch) : Prop
  | goes {step : IxExecStepBatch} {t : τ} : x tx = .ok step t → step ≠ .end_ →
      P t (sent ++ step.sent) → Hands x Whole P tx sent
  | ends {t : τ} : x tx = .ok .end_ t → Whole sent → P t sent → Hands x Whole P tx sent
  | fails {f : RomeEvmError} {t : τ} : x tx = .error (.err f) t → Hands x Whole P tx sent

theorem sent_of_told {step : IxExecStepBatch} (h : executedBy (.ok step) = none) :
    step.sent = [] := by
  cases step <;> first | rfl | cases h

/-- The batches of the steps. -/
def batchesOf (steps : List IxExecStepBatch) : List AtomicIxBatch :=
  steps.flatMap IxExecStepBatch.sent

theorem batchesOf_append (steps steps' : List IxExecStepBatch) :
    batchesOf (steps ++ steps') = batchesOf steps ++ batchesOf steps' := List.flatMap_append

theorem batchesOf_concat (steps : List IxExecStepBatch) (step : IxExecStepBatch) :
    batchesOf (steps ++ [step]) = batchesOf steps ++ step.sent := by
  rw [batchesOf_append]
  exact congrArg (batchesOf steps ++ ·) (List.flatMap_singleton ..)

namespace Hands

variable {σ τ : Type} {x y : EStateM Failure τ IxExecStepBatch}
  {Whole Whole' : List AtomicIxBatch → Prop} {P P' : τ → List AtomicIxBatch → Prop} {tx : τ}
  {sent : List AtomicIxBatch}

/-- A machine that advances hands out the batches of its execution. -/
theorem of_advances {R : RetriedTx τ} {tx₀ : τ} {Progress : τ → List IxExecStepBatch → Prop}
    {steps : List IxExecStepBatch} {e : CallAnswers} (h : R.Advances tx₀ Progress tx steps e) :
    Hands (R.call e) (fun sent => ∃ steps, R.Execution tx₀ steps ∧ batchesOf steps = sent)
      (fun tx sent => ∃ steps, Progress tx steps ∧ batchesOf steps = sent) tx (batchesOf steps) := by
  cases h with
  | sends hcall hsent hnext =>
      exact .goes hcall (ne_end_of_executedBy hsent) ⟨_, hnext, batchesOf_concat _ _⟩
  | tells hcall hne htold hnext =>
      refine .goes hcall hne ⟨_, hnext, ?_⟩
      rw [sent_of_told htold, List.append_nil]
  | ends hcall hexecuted hnext => exact .ends hcall ⟨_, hexecuted, rfl⟩ ⟨_, hnext, rfl⟩
  | fails hcall _ => exact .fails hcall

theorem mono (h : Hands x Whole P tx sent) (hwhole : ∀ sent, Whole sent → Whole' sent)
    (hP : ∀ t sent, P t sent → P' t sent) : Hands x Whole' P' tx sent := by
  cases h with
  | goes hcall hne hnext => exact .goes hcall hne (hP _ _ hnext)
  | ends hcall hw hnext => exact .ends hcall (hwhole _ hw) (hP _ _ hnext)
  | fails hcall => exact .fails hcall

/-- The version that is asked for is another, the transactions are the same. -/
theorem withVersion (h : Hands x Whole P tx sent) (version : TxVersion) :
    Hands (advanceWithVersion x version) Whole P tx sent := by
  cases h with
  | @goes step t hcall hne hnext =>
      cases step with
      | single batch v =>
          have hcall' : advanceWithVersion x version tx = .ok (.single batch version) t := by
            rw [advanceWithVersion, bind_of_ok hcall]
            rfl
          exact .goes hcall' (by simp) hnext
      | end_ => exact absurd rfl hne
      | _ =>
          refine .goes (t := t) ?_ hne hnext
          rw [advanceWithVersion, bind_of_ok hcall]
          rfl
  | @ends t hcall hwhole hnext =>
      refine .ends (t := t) ?_ hwhole hnext
      rw [advanceWithVersion, bind_of_ok hcall]
      rfl
  | @fails f t hcall =>
      refine .fails (f := f) (t := t) ?_
      rw [advanceWithVersion, bind_of_error hcall]

theorem withVersionIt (h : Hands x Whole P tx sent) (version : TxVersion) :
    Hands (advanceWithVersionIt x version) Whole P tx sent := by
  cases h with
  | @goes step t hcall hne hnext =>
      cases step with
      | parallelUnchecked batches v =>
          have hcall' : advanceWithVersionIt x version tx
              = .ok (.parallelUnchecked batches version) t := by
            rw [advanceWithVersionIt, bind_of_ok hcall]
            rfl
          exact .goes hcall' (by simp) hnext
      | end_ => exact absurd rfl hne
      | _ =>
          refine .goes (t := t) ?_ hne hnext
          rw [advanceWithVersionIt, bind_of_ok hcall]
          rfl
  | @ends t hcall hwhole hnext =>
      refine .ends (t := t) ?_ hwhole hnext
      rw [advanceWithVersionIt, bind_of_ok hcall]
      rfl
  | @fails f t hcall =>
      refine .fails (f := f) (t := t) ?_
      rw [advanceWithVersionIt, bind_of_error hcall]

/-- The variant of a transaction does what the transaction does. -/
theorem variant {x : EStateM Failure σ IxExecStepBatch} {P : σ → List AtomicIxBatch → Prop}
    {s : σ} {wrap : σ → τ} {Q : τ → List AtomicIxBatch → Prop} (h : Hands x Whole P s sent)
    (hcall : y (wrap s) = within wrap x s) (hQ : ∀ t sent, P t sent → Q (wrap t) sent) :
    Hands y Whole Q (wrap s) sent := by
  cases h with
  | goes hx hne hnext =>
      rw [within, hx] at hcall
      exact .goes hcall hne (hQ _ _ hnext)
  | ends hx hwhole hnext =>
      rw [within, hx] at hcall
      exact .ends hcall hwhole (hQ _ _ hnext)
  | fails hx =>
      rw [within, hx] at hcall
      exact .fails hcall

end Hands

/-! ## The lookup table -/

namespace AltTx

variable {K : TxCrates} {alt₀ alt : AltTx} {sent table : List AtomicIxBatch} {e : CallAnswers}

/-- The deallocation of the table and the allocation of its keys. -/
def Whole (K : TxCrates) (alt : AltTx) (table : List AtomicIxBatch) : Prop :=
  ∃ steps, (retried K).Execution alt steps ∧ batchesOf steps = table

/-- How far the table is. Once it has ended its account is there, and is a table. -/
inductive Stage (K : TxCrates) (alt₀ : AltTx) : AltTx → List AtomicIxBatch → Prop
  | execute (emulate : Bytes → Pubkey → ProgramResult (List (Pubkey × Bool))) :
      alt₀.step = .execute → Stage K alt₀ (alt₀.emulatedBy emulate) []
  | waitNextSlot {alt : AltTx} {table : List AtomicIxBatch} : alt.step = .waitNextSlot →
      alt₀.Whole K table → Stage K alt₀ alt table
  | ended {alt : AltTx} {table : List AtomicIxBatch} {key : Pubkey} {acc : Bytes}
      {state : AddressLookupTable} : alt.step = .end_ → alt.altRawAccount = some (key, acc) →
      K.deserialize acc = .ok state → alt₀.Whole K table → Stage K alt₀ alt table

theorem Stage.emulatedBy (h : Stage K alt₀ alt sent)
    (emulate : Bytes → Pubkey → ProgramResult (List (Pubkey × Bool))) :
    Stage K alt₀ (alt.emulatedBy emulate) sent := by
  cases h with
  | execute _ hstep => exact .execute emulate hstep
  | waitNextSlot hstep hwhole => exact .waitNextSlot hstep hwhole
  | ended hstep hacc hstate hwhole => exact .ended hstep hacc hstate hwhole

/-- What the table does in a call, with the answers of this call in it already. -/
inductive Moves (K : TxCrates) (alt₀ alt : AltTx) (sent : List AtomicIxBatch)
    (e : CallAnswers) : Prop
  /-- the first step, with all that the table has to hand out -/
  | allocates {t : AltTx} {table : List AtomicIxBatch} : alt.step = .execute → sent = [] →
      advance (e.altCrates K) alt = .ok (.parallel table .legacy) t → t.step = .waitNextSlot →
      alt₀.Whole K table → Moves K alt₀ alt sent e
  | waits {t : AltTx} {slot : Slot} : alt.step ≠ .execute →
      advance (e.altCrates K) alt = .ok (.waitNextSlot slot) t → Stage K alt₀ t sent →
      alt₀.Whole K sent → t.step ≠ .execute → Moves K alt₀ alt sent e
  | ends {table : AddressLookupTableAccount} : alt.step ≠ .execute →
      advance (e.altCrates K) alt = .ok .end_ alt → alt.altAccount (e.altCrates K) = .ok table →
      Stage K alt₀ alt sent → alt₀.Whole K sent → Moves K alt₀ alt sent e
  | fails {f : RomeEvmError} {t : AltTx} : advance (e.altCrates K) alt = .error (.err f) t →
      Moves K alt₀ alt sent e

theorem moves_execute {keys : List Pubkey} (hstep : alt₀.step = .execute)
    (hkeys : alt₀.keys = some keys) (hsome : keys ≠ []) (e : CallAnswers) :
    Moves K alt₀ (alt₀.emulatedBy e.accounts) [] e := by
  obtain ⟨data, hdata⟩ := allocData_returns K.toAltCrates alt₀ keys
  have hne : data ≠ [] := fun hnil => hsome ((allocData_eq_nil_iff hdata).mp hnil)
  have hlast : data.getLast? = some (data.getLast hne) := List.getLast?_eq_getLast_of_ne_nil hne
  cases hdealloc : e.accounts (alt₀.txDataDealloc K.toAltCrates) alt₀.resource.payerKey with
  | error f => exact .fails (advance_dealloc_error hstep (ixDealloc_error hdealloc))
  | ok dealloc =>
      cases halloc : e.accounts (data.getLast hne) alt₀.resource.payerKey with
      | error f =>
          exact .fails (advance_alloc_error hstep (ixDealloc_ok hdealloc)
            (ixsAlloc_error hkeys hdata hlast halloc))
      | ok alloc =>
          have hadvance : ∃ t, advance (e.altCrates K) (alt₀.emulatedBy e.accounts)
              = .ok (.parallel (K.newComposibleOwned
                  (alt₀.txBuilder.buildIx dealloc (alt₀.txDataDealloc K.toAltCrates)) ::
                data.map fun x => [alt₀.txBuilder.buildIx alloc x]) .legacy) t ∧
                t.step = .waitNextSlot :=
            ⟨_, advance_allocated hstep (ixDealloc_ok hdealloc)
              (ixsAlloc_ok hkeys hdata hlast halloc), rfl⟩
          obtain ⟨t, hadvance, hnext⟩ := hadvance
          refine .allocates hstep rfl hadvance hnext ?_
          exact ⟨_, ⟨keys, data, dealloc, alloc, hkeys, hdata, rfl⟩, List.flatMap_singleton ..⟩

theorem moves_waitNextSlot (hstep : alt.step = .waitNextSlot) (hwhole : alt₀.Whole K sent)
    (e : CallAnswers) : Moves K alt₀ alt sent e := by
  cases hread : alt.readAltRawAccount (e.altCrates K) with
  | error f =>
      have hadvance : advance (e.altCrates K) alt = .error (.err f) { alt with step := .end_ } := by
        rw [advance, get_bind]
        simp only [hstep]
        rw [set_bind, hread]
        rfl
      exact .fails hadvance
  | ok account =>
      cases hstate : K.deserialize account.2 with
      | error f =>
          have hstate' : (e.altCrates K).deserialize account.2 = .error f := hstate
          have hadvance : advance (e.altCrates K) alt
              = .error (.err f) { alt with step := .end_, altRawAccount := some account } := by
            rw [advance, get_bind]
            simp only [hstep]
            rw [set_bind, hread, ProgramResult.toOutcome, ofExcept_bind, modify_bind, get_bind]
            simp only [lastExtendedSlot, hstate']
            rfl
          exact .fails hadvance
      | ok state =>
          have hstate' : (e.altCrates K).deserialize account.2 = .ok state := hstate
          have hadvance : advance (e.altCrates K) alt = .ok (.waitNextSlot state.lastExtendedSlot)
              { alt with step := .end_, altRawAccount := some account } := by
            rw [advance, get_bind]
            simp only [hstep]
            rw [set_bind, hread, ProgramResult.toOutcome, ofExcept_bind, modify_bind, get_bind]
            simp only [lastExtendedSlot, hstate']
            rfl
          have hne : alt.step ≠ .execute := by simp [hstep]
          exact .waits hne hadvance (.ended rfl rfl hstate hwhole) hwhole (by simp)

/-- A table with keys never panics. -/
theorem Stage.moves {keys : List Pubkey} (hkeys : alt₀.keys = some keys) (hsome : keys ≠ [])
    (h : Stage K alt₀ alt sent) (e : CallAnswers) :
    Moves K alt₀ (alt.emulatedBy e.accounts) sent e := by
  cases h with
  | execute emulate hstep => exact moves_execute hstep hkeys hsome e
  | waitNextSlot hstep hwhole =>
      have hstep' : (alt.emulatedBy e.accounts).step = .waitNextSlot := hstep
      exact moves_waitNextSlot hstep' hwhole e
  | @ended _ _ key acc state hstep hacc hstate hwhole =>
      have hstep' : (alt.emulatedBy e.accounts).step = .end_ := hstep
      have hacc' : (alt.emulatedBy e.accounts).altRawAccount = some (key, acc) := hacc
      have hstate' : (e.altCrates K).deserialize acc = .ok state := hstate
      have haccount : altAccount (e.altCrates K) (alt.emulatedBy e.accounts)
          = .ok ⟨key, state.addresses⟩ := by
        simp only [altAccount, hacc', hstate']
        rfl
      have hne : (alt.emulatedBy e.accounts).step ≠ .execute := by simp [hstep']
      exact .ends hne (advance_end hstep') haccount (.ended hstep' hacc' hstate hwhole) hwhole

end AltTx

/-! ## Without a holder -/

namespace AltComposed

variable {K : TxCrates} {e : CallAnswers} {Whole : List AtomicIxBatch → Prop}
  {P : Iterable → List AtomicIxBatch → Prop} {alt₀ : AltTx} {tx : AltComposed Iterable}
  {sent : List AtomicIxBatch}

/-- The table first, then what the boxed transaction hands out. -/
def Composed (K : TxCrates) (alt₀ : AltTx) (Whole : List AtomicIxBatch → Prop)
    (sent : List AtomicIxBatch) : Prop :=
  ∃ table payload, alt₀.Whole K table ∧ Whole payload ∧ sent = table ++ payload

/-- How far the two are. -/
inductive Stage (K : TxCrates) (alt₀ : AltTx) (P : Iterable → List AtomicIxBatch → Prop) :
    AltComposed Iterable → List AtomicIxBatch → Prop
  | alt {alt : AltTx} {inner : Iterable} {table : List AtomicIxBatch} :
      AltTx.Stage K alt₀ alt table → P inner [] → Stage K alt₀ P ⟨alt, inner, .alt⟩ table
  | execute {alt : AltTx} {inner : Iterable} {version : TxVersion}
      {table payload : List AtomicIxBatch} : alt₀.Whole K table → P inner payload →
      Stage K alt₀ P ⟨alt, inner, .execute version⟩ (table ++ payload)

section

variable {alt alt' : AltTx} {inner : Iterable} {step : IxExecStepBatch}

theorem call_of_alt
    (h : AltTx.advance (e.altCrates K) (alt.emulatedBy e.accounts) = .ok step alt')
    (hne : step ≠ .end_) : call K e ⟨alt, inner, .alt⟩ = .ok step ⟨alt', inner, .alt⟩ := by
  have hzoom : (AltTx.advance (e.altCrates K)).zoom altTx (fun tx altTx => { tx with altTx })
      (⟨alt.emulatedBy e.accounts, inner, .alt⟩ : AltComposed Iterable)
      = .ok step ⟨alt', inner, .alt⟩ := zoom_ok h
  rw [call, advance, get_bind]
  simp only
  rw [bind_of_ok hzoom, if_neg hne]
  rfl

theorem call_of_ended {table : AddressLookupTableAccount}
    (h : AltTx.advance (e.altCrates K) (alt.emulatedBy e.accounts) = .ok .end_ alt')
    (htable : alt'.altAccount (e.altCrates K) = .ok table) :
    call K e ⟨alt, inner, .alt⟩ = advanceExecute (Iterable.advanceTx K e) (.v0 [table])
      ⟨alt', inner, .execute (.v0 [table])⟩ := by
  have hzoom : (AltTx.advance (e.altCrates K)).zoom altTx (fun tx altTx => { tx with altTx })
      (⟨alt.emulatedBy e.accounts, inner, .alt⟩ : AltComposed Iterable)
      = .ok .end_ ⟨alt', inner, .alt⟩ := zoom_ok h
  rw [call, advance, get_bind]
  simp only
  rw [bind_of_ok hzoom, if_pos rfl, get_bind, htable, ofExcept_bind, modify_bind]

theorem call_of_alt_error {f : Failure}
    (h : AltTx.advance (e.altCrates K) (alt.emulatedBy e.accounts) = .error f alt') :
    call K e ⟨alt, inner, .alt⟩ = .error f ⟨alt', inner, .alt⟩ := by
  have hzoom : (AltTx.advance (e.altCrates K)).zoom altTx (fun tx altTx => { tx with altTx })
      (⟨alt.emulatedBy e.accounts, inner, .alt⟩ : AltComposed Iterable)
      = .error f ⟨alt', inner, .alt⟩ := zoom_error h
  rw [call, advance, get_bind]
  simp only
  exact bind_of_error hzoom _

end

/-- The boxed transaction, behind a table that is there. -/
theorem hands_execute {y : EStateM Failure (AltComposed Iterable) IxExecStepBatch} (alt : AltTx)
    {inner : Iterable} {version : TxVersion} {table payload : List AtomicIxBatch}
    (hwhole : alt₀.Whole K table)
    (hinner : Hands (Iterable.callWithVersion K e version) Whole P inner payload)
    (hcall : y tx = advanceExecute (Iterable.advanceTx K e) version
      ⟨alt, inner, .execute version⟩) :
    Hands y (Composed K alt₀ Whole) (Stage K alt₀ P) tx (table ++ payload) := by
  rw [advanceExecute] at hcall
  cases hinner with
  | goes hx hne hnext =>
      refine .goes (hcall.trans (zoom_ok hx)) hne ?_
      rw [List.append_assoc]
      exact .execute hwhole hnext
  | ends hx hpayload hnext =>
      exact .ends (hcall.trans (zoom_ok hx)) ⟨table, payload, hwhole, hpayload, rfl⟩
        (.execute hwhole hnext)
  | fails hx => exact .fails (hcall.trans (zoom_error hx))

theorem Stage.hands {keys : List Pubkey} (hkeys : alt₀.keys = some keys) (hsome : keys ≠ [])
    (hinner : ∀ version inner payload, P inner payload →
      Hands (Iterable.callWithVersion K e version) Whole P inner payload)
    (h : Stage K alt₀ P tx sent) :
    Hands (call K e) (Composed K alt₀ Whole) (Stage K alt₀ P) tx sent := by
  cases h with
  | @execute alt inner version table payload hwhole hP =>
      refine hands_execute (alt.emulatedBy e.accounts) hwhole (hinner version _ _ hP) ?_
      rw [call, advance, get_bind]
  | @alt alt inner table halt hP =>
      cases halt.moves hkeys hsome e with
      | allocates _ hsent hcall hstep hwhole =>
          subst hsent
          exact .goes (call_of_alt hcall (by simp)) (by simp) (.alt (.waitNextSlot hstep hwhole) hP)
      | waits _ hcall hstage _ _ =>
          refine .goes (call_of_alt hcall (by simp)) (by simp) ?_
          show Stage K alt₀ P _ (sent ++ [])
          rw [List.append_nil]
          exact .alt hstage hP
      | @ends account _ hcall haccount hstage hwhole =>
          have hgoes := hands_execute (alt.emulatedBy e.accounts) hwhole
            (hinner (.v0 [account]) _ _ hP) (call_of_ended hcall haccount)
          rw [List.append_nil] at hgoes
          exact hgoes
      | fails hcall => exact .fails (call_of_alt_error hcall)

end AltComposed

/-! ## With a holder -/

namespace AltComposedHolder

variable {K : TxCrates} {e : CallAnswers} {Whole : List AtomicIxBatch → Prop}
  {P : Iterable → List AtomicIxBatch → Prop} {alt₀ : AltTx} {t₀ : TransmitTx}
  {tx : AltComposedHolder Iterable} {sent : List AtomicIxBatch}

/-- All chunks of the transmission. -/
def Chunks (K : TxCrates) (t₀ : TransmitTx) (chunks : List AtomicIxBatch) : Prop :=
  ∃ steps, (SteppedTransmitTx.retried K).Execution ⟨t₀, .init⟩ steps ∧ batchesOf steps = chunks

/-- The table, the chunks, and then what the boxed transaction hands out. -/
def Composed (K : TxCrates) (alt₀ : AltTx) (t₀ : TransmitTx) (Whole : List AtomicIxBatch → Prop)
    (sent : List AtomicIxBatch) : Prop :=
  ∃ table chunks payload, alt₀.Whole K table ∧ Chunks K t₀ chunks ∧ Whole payload ∧
    sent = table ++ chunks ++ payload

/-- How far the three are. The table is allocated in the round of the first chunks. -/
inductive Stage (K : TxCrates) (alt₀ : AltTx) (t₀ : TransmitTx)
    (P : Iterable → List AtomicIxBatch → Prop) :
    AltComposedHolder Iterable → List AtomicIxBatch → Prop
  | first {alt : AltTx} {transmit : SteppedTransmitTx} {inner : Iterable} :
      alt.step = .execute → AltTx.Stage K alt₀ alt [] →
      SteppedTransmitTx.Progress K t₀ transmit [] → P inner [] →
      Stage K alt₀ t₀ P ⟨alt, transmit, inner, .altAndTransmit⟩ []
  | altAndTransmit {alt : AltTx} {transmit : SteppedTransmitTx} {inner : Iterable}
      {table : List AtomicIxBatch} {steps : List IxExecStepBatch} : alt.step ≠ .execute →
      AltTx.Stage K alt₀ alt table → alt₀.Whole K table →
      SteppedTransmitTx.Progress K t₀ transmit steps → P inner [] →
      Stage K alt₀ t₀ P ⟨alt, transmit, inner, .altAndTransmit⟩ (table ++ batchesOf steps)
  | execute {alt : AltTx} {transmit : SteppedTransmitTx} {inner : Iterable} {version : TxVersion}
      {table chunks payload : List AtomicIxBatch} : alt₀.Whole K table → Chunks K t₀ chunks →
      P inner payload →
      Stage K alt₀ t₀ P ⟨alt, transmit, inner, .execute version⟩ (table ++ chunks ++ payload)

theorem hands_execute {y : EStateM Failure (AltComposedHolder Iterable) IxExecStepBatch}
    (alt : AltTx) (transmit : SteppedTransmitTx) {inner : Iterable} {version : TxVersion}
    {table chunks payload : List AtomicIxBatch} (hwhole : alt₀.Whole K table)
    (hchunks : Chunks K t₀ chunks)
    (hinner : Hands (Iterable.callWithVersion K e version) Whole P inner payload)
    (hcall : y tx = advanceExecute (Iterable.advanceTx K e) version
      ⟨alt, transmit, inner, .execute version⟩) :
    Hands y (Composed K alt₀ t₀ Whole) (Stage K alt₀ t₀ P) tx (table ++ chunks ++ payload) := by
  rw [advanceExecute] at hcall
  cases hinner with
  | goes hx hne hnext =>
      refine .goes (hcall.trans (zoom_ok hx)) hne ?_
      rw [List.append_assoc]
      exact .execute hwhole hchunks hnext
  | ends hx hpayload hnext =>
      exact .ends (hcall.trans (zoom_ok hx)) ⟨table, chunks, payload, hwhole, hchunks, hpayload, rfl⟩
        (.execute hwhole hchunks hnext)
  | fails hx => exact .fails (hcall.trans (zoom_error hx))

section

variable {alt alt' : AltTx} {transmit transmit' : SteppedTransmitTx} {inner : Iterable}
  {altIx transmitIx ix : IxExecStepBatch}

/-- A round in which the two hand something out. -/
theorem call_of_joined
    (halt : AltTx.advance (e.altCrates K) (alt.emulatedBy e.accounts) = .ok altIx alt')
    (htransmit : SteppedTransmitTx.call K e transmit = .ok transmitIx transmit')
    (hjoin : joinParallel altIx transmitIx = .ok ix) (hne : ix ≠ .end_) :
    call K e ⟨alt, transmit, inner, .altAndTransmit⟩
      = .ok ix ⟨alt', transmit', inner, .altAndTransmit⟩ :=
  advance_of_joined rfl halt htransmit hjoin hne

theorem call_of_ended {table : AddressLookupTableAccount}
    (halt : AltTx.advance (e.altCrates K) (alt.emulatedBy e.accounts) = .ok .end_ alt')
    (htransmit : SteppedTransmitTx.call K e transmit = .ok .end_ transmit')
    (htable : alt'.altAccount (e.altCrates K) = .ok table) :
    call K e ⟨alt, transmit, inner, .altAndTransmit⟩
      = advanceExecute (Iterable.advanceTx K e) (.v0 [table])
          ⟨alt', transmit', inner, .execute (.v0 [table])⟩ :=
  advance_of_ended rfl halt htransmit htable

theorem call_of_alt_error {f : Failure} (transmit : SteppedTransmitTx) (inner : Iterable)
    (halt : AltTx.advance (e.altCrates K) (alt.emulatedBy e.accounts) = .error f alt') :
    ∃ t, call K e ⟨alt, transmit, inner, .altAndTransmit⟩ = .error f t :=
  ⟨_, advance_of_error rfl halt⟩

theorem call_of_transmit_error {f : Failure} (inner : Iterable)
    (halt : AltTx.advance (e.altCrates K) (alt.emulatedBy e.accounts) = .ok altIx alt')
    (htransmit : SteppedTransmitTx.call K e transmit = .error f transmit') :
    ∃ t, call K e ⟨alt, transmit, inner, .altAndTransmit⟩ = .error f t := by
  have halt' : advanceAlt (e.altCrates K)
      (⟨alt.emulatedBy e.accounts, transmit.emulatedBy e.accounts, inner, .altAndTransmit⟩ :
        AltComposedHolder Iterable)
      = .ok altIx ⟨alt', transmit.emulatedBy e.accounts, inner, .altAndTransmit⟩ := zoom_ok halt
  have htransmit' : advanceTransmit K.crates
      (⟨alt', transmit.emulatedBy e.accounts, inner, .altAndTransmit⟩ : AltComposedHolder Iterable)
      = .error f ⟨alt', transmit', inner, .altAndTransmit⟩ := zoom_error htransmit
  refine ⟨⟨alt', transmit', inner, .altAndTransmit⟩, ?_⟩
  rw [call, advance, get_bind]
  simp only
  rw [bind_of_ok halt']
  exact bind_of_error htransmit' _

end

theorem Stage.hands {keys : List Pubkey} (hkeys : alt₀.keys = some keys) (hsome : keys ≠ [])
    (hinner : ∀ version inner payload, P inner payload →
      Hands (Iterable.callWithVersion K e version) Whole P inner payload)
    (h : Stage K alt₀ t₀ P tx sent) :
    Hands (call K e) (Composed K alt₀ t₀ Whole) (Stage K alt₀ t₀ P) tx sent := by
  cases h with
  | @execute alt transmit inner version table chunks payload hwhole hchunks hP =>
      refine hands_execute (alt.emulatedBy e.accounts) (transmit.emulatedBy e.accounts) hwhole
        hchunks (hinner version _ _ hP) ?_
      rw [call, advance, get_bind]
  | @first alt transmit inner hstep halt htransmit hP =>
      cases halt.moves hkeys hsome e with
      | @allocates t table _ _ hcall hstep' hwhole =>
          cases htransmit.transmits e with
          | @sends step u hsends hsent hnext =>
              obtain ⟨batch, rfl, _⟩ | ⟨rfl, _⟩ := SteppedTransmitTx.advance_ok_cases hsends
              · refine .goes (call_of_joined hcall hsends rfl (by simp)) (by simp) ?_
                have hstage : Stage K alt₀ t₀ P ⟨t, u, inner, .altAndTransmit⟩
                    (table ++ batchesOf ([] ++ [.parallel batch .legacy])) :=
                  .altAndTransmit (by simp [hstep']) (.waitNextSlot hstep' hwhole) hwhole
                    hnext hP
                rw [batchesOf_concat] at hstage
                exact hstage
              · cases hsent
          | ends hends _ hnext =>
              refine .goes (call_of_joined hcall hends rfl (by simp)) (by simp) ?_
              have hstage : Stage K alt₀ t₀ P _ (table ++ batchesOf []) :=
                .altAndTransmit (by simp [hstep']) (.waitNextSlot hstep' hwhole) hwhole
                  hnext hP
              rw [batchesOf, List.flatMap_nil, List.append_nil] at hstage
              exact hstage
          | fails hfails _ =>
              obtain ⟨t, ht⟩ := call_of_transmit_error inner hcall hfails
              exact .fails ht
      | waits hne _ _ _ _ => exact absurd hstep hne
      | ends hne _ _ _ _ => exact absurd hstep hne
      | fails hcall =>
          obtain ⟨t, ht⟩ := call_of_alt_error transmit inner hcall
          exact .fails ht
  | @altAndTransmit alt transmit inner table steps hstep halt hwhole htransmit hP =>
      cases halt.moves hkeys hsome e with
      | allocates hexecute _ _ _ _ => exact absurd hexecute hstep
      | fails hcall =>
          obtain ⟨t, ht⟩ := call_of_alt_error transmit inner hcall
          exact .fails ht
      | waits _ hcall hstage _ hne =>
          cases htransmit.transmits e with
          | @sends step u hsends hsent hnext =>
              obtain ⟨batch, rfl, _⟩ | ⟨rfl, _⟩ := SteppedTransmitTx.advance_ok_cases hsends
              · refine .goes (call_of_joined hcall hsends rfl (by simp)) (by simp) ?_
                rw [List.append_assoc, ← batchesOf_concat]
                exact .altAndTransmit hne hstage hwhole hnext hP
              · cases hsent
          | ends hends _ hnext =>
              refine .goes (call_of_joined hcall hends rfl (by simp)) (by simp) ?_
              show Stage K alt₀ t₀ P _ (table ++ batchesOf steps ++ [])
              rw [List.append_nil]
              exact .altAndTransmit hne hstage hwhole hnext hP
          | fails hfails _ =>
              obtain ⟨t, ht⟩ := call_of_transmit_error inner hcall hfails
              exact .fails ht
      | @ends account hne hcall haccount hstage _ =>
          cases htransmit.transmits e with
          | @sends step u hsends hsent hnext =>
              obtain ⟨batch, rfl, _⟩ | ⟨rfl, _⟩ := SteppedTransmitTx.advance_ok_cases hsends
              · refine .goes (call_of_joined hcall hsends rfl (by simp)) (by simp) ?_
                rw [List.append_assoc, ← batchesOf_concat]
                exact .altAndTransmit hne hstage hwhole hnext hP
              · cases hsent
          | ends hends hexecuted _ =>
              have hgoes := hands_execute _ _ hwhole ⟨steps, hexecuted, rfl⟩
                (hinner (.v0 [account]) _ _ hP) (call_of_ended hcall hends haccount)
              rw [List.append_nil] at hgoes
              exact hgoes
          | fails hfails _ =>
              obtain ⟨t, ht⟩ := call_of_transmit_error inner hcall hfails
              exact .fails ht

end AltComposedHolder

end RomeSdk
