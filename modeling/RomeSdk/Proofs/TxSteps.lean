import RomeSdk.Tx.AtomicTx
import RomeSdk.Tx.AtomicTxHolder
import RomeSdk.Tx.IterativeTx

/-!
# What one `advance` does

One lemma for each arm of each machine and each way the call in it may end. A machine
that reads a holder has one more arm, the transmission, whose step it hands on, and
whose end it takes for its own turn.
-/

namespace RomeSdk

open EStateM

namespace AtomicTx

variable {X : Crates} {B : ComputeBudget} {tx : AtomicTx} {ix : AtomicIxBatch}
  {accounts : List (Pubkey × Bool)}

theorem emulateIx_ok
    (h : tx.txBuilder.emulate (tx.txData X) tx.resource.payerKey = .ok accounts) :
    emulateIx X B tx = .ok () { tx with
      emulation := some accounts
      ix := some (B.newComposibleOwned (tx.txBuilder.buildIx accounts (tx.txData X))) } := by
  rw [emulateIx, get_bind, h]
  rfl

theorem emulateIx_error {f : RomeEvmError}
    (h : tx.txBuilder.emulate (tx.txData X) tx.resource.payerKey = .error f) :
    emulateIx X B tx = .error (.err f) tx := by
  rw [emulateIx, get_bind, h]
  rfl

theorem takeIx_ok (hix : tx.ix = some ix) :
    takeIx tx = .ok (.single ix .legacy) { tx with ix := none, step := .end_ } := by
  rw [takeIx, get_bind]
  simp only [hix]
  rfl

theorem advance_built (hstep : tx.step = .execute) (hix : tx.ix = some ix) :
    advance X B tx = .ok (.single ix .legacy) { tx with ix := none, step := .end_ } := by
  rw [advance, get_bind]
  simp only [hstep]
  rw [hix, Option.isNone_some, if_neg Bool.false_ne_true]
  exact takeIx_ok hix

theorem advance_emulated (hstep : tx.step = .execute) (hix : tx.ix = none)
    (h : tx.txBuilder.emulate (tx.txData X) tx.resource.payerKey = .ok accounts) :
    advance X B tx =
      .ok (.single (B.newComposibleOwned (tx.txBuilder.buildIx accounts (tx.txData X))) .legacy)
        { tx with emulation := some accounts, ix := none, step := .end_ } := by
  rw [advance, get_bind]
  simp only [hstep]
  rw [hix, Option.isNone_none, if_pos rfl, bind_of_ok (emulateIx_ok h)]
  exact takeIx_ok rfl

theorem advance_failed {f : RomeEvmError} (hstep : tx.step = .execute) (hix : tx.ix = none)
    (h : tx.txBuilder.emulate (tx.txData X) tx.resource.payerKey = .error f) :
    advance X B tx = .error (.err f) tx := by
  rw [advance, get_bind]
  simp only [hstep]
  rw [hix, Option.isNone_none, if_pos rfl, bind_of_error (emulateIx_error h)]

theorem advance_end (hstep : tx.step = .end_) : advance X B tx = .ok .end_ tx := by
  rw [advance, get_bind]
  simp only [hstep]
  rfl

end AtomicTx

namespace AtomicTxHolder

variable {X : Crates} {B : ComputeBudget} {tx : AtomicTxHolder} {ix : AtomicIxBatch}
  {step : IxExecStepBatch} {u : SteppedTransmitTx} {f : Failure}

theorem advanceExecute_ok (hixs : tx.ixs X B = .ok ix) :
    advanceExecute X B tx = .ok (.single ix .legacy) { tx with step := .end_ } := by
  have hixs' : ixs X B { tx with step := .end_ } = .ok ix := hixs
  rw [advanceExecute, modify_bind, get_bind, hixs', ofExcept_bind]
  rfl

theorem advanceExecute_error (hixs : tx.ixs X B = .error f) :
    advanceExecute X B tx = .error f { tx with step := .end_ } := by
  have hixs' : ixs X B { tx with step := .end_ } = .error f := hixs
  rw [advanceExecute, modify_bind, get_bind, hixs']
  rfl

theorem advance_of_execute (hstep : tx.step = .execute) :
    advance X B tx = advanceExecute X B tx := by
  rw [advance, get_bind]
  simp only [hstep]

theorem advance_end (hstep : tx.step = .end_) : advance X B tx = .ok .end_ tx := by
  rw [advance, get_bind]
  simp only [hstep]
  rfl

theorem advance_transmit (hstep : tx.step = .transmit)
    (h : SteppedTransmitTx.advance X tx.transmitTx = .ok step u) (hne : step ≠ .end_) :
    advance X B tx = .ok step { tx with transmitTx := u } := by
  rw [advance, get_bind]
  simp only [hstep]
  rw [bind_of_ok (zoom_ok h), if_neg hne, hstep]
  rfl

theorem advance_transmitted (hstep : tx.step = .transmit)
    (h : SteppedTransmitTx.advance X tx.transmitTx = .ok .end_ u) :
    advance X B tx = advanceExecute X B { tx with transmitTx := u } := by
  rw [advance, get_bind]
  simp only [hstep]
  rw [bind_of_ok (zoom_ok h), if_pos rfl, hstep]

theorem advance_transmit_error (hstep : tx.step = .transmit)
    (h : SteppedTransmitTx.advance X tx.transmitTx = .error f u) :
    advance X B tx = .error f { tx with transmitTx := u } := by
  rw [advance, get_bind]
  simp only [hstep]
  rw [bind_of_error (zoom_error h), hstep]

end AtomicTxHolder

/-- The instructions of an iterative transaction, of which the emulation only may fail. -/
theorem IterativeCrates.ixs_error {I : IterativeCrates} {b : TxBuilder} {payer : Pubkey}
    {emulationData : Bytes} {txData : Emulation → Nat → Bytes} {f : Failure}
    (hvm : ∀ emulation, I.emulate emulationData payer = .ok emulation → emulation.vm ≠ none)
    (h : I.ixs b payer emulationData txData = .error f) :
    ∃ e, I.emulate emulationData payer = .error e ∧ f = .err e := by
  rw [ixs] at h
  cases hemulate : I.emulate emulationData payer with
  | error e =>
      rw [hemulate] at h
      cases h
      exact ⟨e, rfl, rfl⟩
  | ok emulation =>
      obtain ⟨n, hn⟩ := Option.ne_none_iff_exists'.mp (hvm emulation hemulate)
      rw [hemulate, ProgramResult.toOutcome] at h
      simp only [Bind.bind, Except.bind, hn] at h
      cases h

namespace IterativeTx

variable {X : Crates} {I : IterativeCrates} {tx : IterativeTx} {ixs : List AtomicIxBatch}
  {f : Failure}

/-- What the function `ixs` fills the field with. -/
def built (X : Crates) (I : IterativeCrates) (tx : IterativeTx) : Outcome (List AtomicIxBatch) :=
  I.ixs tx.txBuilder tx.resource.payerKey (tx.emulationData X) (tx.txData X)

theorem emulateIxs_ok (h : tx.built X I = .ok ixs) :
    emulateIxs X I tx = .ok () { tx with ixs := some ixs } := by
  rw [built] at h
  rw [emulateIxs, get_bind, h]
  rfl

theorem emulateIxs_error (h : tx.built X I = .error f) : emulateIxs X I tx = .error f tx := by
  rw [built] at h
  rw [emulateIxs, get_bind, h]
  rfl

theorem takeIxs_ok (hixs : tx.ixs = some ixs) :
    takeIxs tx = .ok (.parallelUnchecked ixs .legacy)
      { tx with step := .confirm, ixs := none } := by
  rw [takeIxs, modify_bind, get_bind]
  simp only [hixs]
  rfl

theorem advance_built (hstep : tx.step = .execute) (hixs : tx.ixs = some ixs) :
    advance X I tx = .ok (.parallelUnchecked ixs .legacy)
      { tx with step := .confirm, ixs := none } := by
  rw [advance, get_bind]
  simp only [hstep]
  rw [hixs, Option.isNone_some, if_neg Bool.false_ne_true]
  exact takeIxs_ok hixs

theorem advance_emulated (hstep : tx.step = .execute) (hixs : tx.ixs = none)
    (h : tx.built X I = .ok ixs) :
    advance X I tx = .ok (.parallelUnchecked ixs .legacy)
      { tx with step := .confirm, ixs := none } := by
  rw [advance, get_bind]
  simp only [hstep]
  rw [hixs, Option.isNone_none, if_pos rfl, bind_of_ok (emulateIxs_ok h)]
  exact takeIxs_ok rfl

theorem advance_failed (hstep : tx.step = .execute) (hixs : tx.ixs = none)
    (h : tx.built X I = .error f) : advance X I tx = .error f tx := by
  rw [advance, get_bind]
  simp only [hstep]
  rw [hixs, Option.isNone_none, if_pos rfl, bind_of_error (emulateIxs_error h)]

theorem advance_confirm {confirm : Bool} (hstep : tx.step = .confirm)
    (h : I.confirm tx.txBuilder tx.resource tx.hash tx.session = .ok confirm) :
    advance X I tx = .ok (.confirmationIterativeTx confirm) { tx with step := .complete } := by
  rw [advance, get_bind]
  simp only [hstep]
  rw [set_bind, h]
  rfl

theorem advance_confirm_error {e : RomeEvmError} (hstep : tx.step = .confirm)
    (h : I.confirm tx.txBuilder tx.resource tx.hash tx.session = .error e) :
    advance X I tx = .error (.err e) { tx with step := .complete } := by
  rw [advance, get_bind]
  simp only [hstep]
  rw [set_bind, h]
  rfl

theorem advance_complete (hstep : tx.step = .complete) : advance X I tx = .ok .end_ tx := by
  rw [advance, get_bind]
  simp only [hstep]
  rfl

end IterativeTx

namespace IterativeTxHolder

variable {X : Crates} {I : IterativeCrates} {tx : IterativeTxHolder} {ixs : List AtomicIxBatch}
  {step : IxExecStepBatch} {u : SteppedTransmitTx} {f : Failure}

theorem advanceExecute_ok (h : tx.ixs X I = .ok ixs) :
    advanceExecute X I tx = .ok (.parallelUnchecked ixs .legacy) { tx with step := .confirm } := by
  have h' : IterativeTxHolder.ixs X I { tx with step := .confirm } = .ok ixs := h
  rw [advanceExecute, modify_bind, get_bind, h', ofExcept_bind]
  rfl

theorem advanceExecute_error (h : tx.ixs X I = .error f) :
    advanceExecute X I tx = .error f { tx with step := .confirm } := by
  have h' : IterativeTxHolder.ixs X I { tx with step := .confirm } = .error f := h
  rw [advanceExecute, modify_bind, get_bind, h']
  rfl

theorem advance_of_execute (hstep : tx.step = .execute) :
    advance X I tx = advanceExecute X I tx := by
  rw [advance, get_bind]
  simp only [hstep]

/-- Where the chain gives no answer the transaction counts as not confirmed. -/
theorem advance_confirm (hstep : tx.step = .confirm) : ∃ confirm,
    advance X I tx = .ok (.confirmationIterativeTx confirm) { tx with step := .end_ } := by
  cases hconfirm : I.confirm tx.transmitTx.txBuilder tx.transmitTx.resource tx.transmitTx.hash
      tx.session with
  | ok confirm =>
      refine ⟨confirm, ?_⟩
      rw [advance, get_bind]
      simp only [hstep]
      rw [set_bind, hconfirm]
      rfl
  | error e =>
      refine ⟨false, ?_⟩
      rw [advance, get_bind]
      simp only [hstep]
      rw [set_bind, hconfirm]
      rfl

theorem advance_end (hstep : tx.step = .end_) : advance X I tx = .ok .end_ tx := by
  rw [advance, get_bind]
  simp only [hstep]
  rfl

theorem advance_transmit (hstep : tx.step = .transmit)
    (h : SteppedTransmitTx.advance X tx.transmitTx = .ok step u) (hne : step ≠ .end_) :
    advance X I tx = .ok step { tx with transmitTx := u } := by
  rw [advance, get_bind]
  simp only [hstep]
  rw [bind_of_ok (zoom_ok h), if_neg hne, hstep]
  rfl

theorem advance_transmitted (hstep : tx.step = .transmit)
    (h : SteppedTransmitTx.advance X tx.transmitTx = .ok .end_ u) :
    advance X I tx = advanceExecute X I { tx with transmitTx := u } := by
  rw [advance, get_bind]
  simp only [hstep]
  rw [bind_of_ok (zoom_ok h), if_pos rfl, hstep]

theorem advance_transmit_error (hstep : tx.step = .transmit)
    (h : SteppedTransmitTx.advance X tx.transmitTx = .error f u) :
    advance X I tx = .error f { tx with transmitTx := u } := by
  rw [advance, get_bind]
  simp only [hstep]
  rw [bind_of_error (zoom_error h), hstep]

end IterativeTxHolder

end RomeSdk
