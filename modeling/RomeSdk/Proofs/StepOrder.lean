import RomeSdk.Proofs.AltSteps
import RomeSdk.Tx.AltComposed
import RomeSdk.Tx.CrossTx
import RomeSdk.Tx.IterativeTx

/-!
# The order of the steps

Who sends the steps of a transaction keeps the results of an unchecked batch until the step
that confirms it. So the confirmation has to come next, and no transaction may end before
it. `Follows` is this order, and `Disciplined` says of a machine that it keeps it.

`Standing` also notes whether something was sent that has to succeed. A transaction with
a lookup table sends the instructions of the table first, so what the boxed machine does
behind them does not matter.
-/

namespace RomeSdk

open EStateM

/-- What is known of a transaction between two steps. -/
structure Standing where
  /-- the results of the last batch wait for the confirmation -/
  waiting : Bool
  /-- something was sent that had to succeed -/
  checked : Bool

/-- The order of the steps. -/
inductive Follows : Standing → IxExecStepBatch → Standing → Prop
  | single {c c' : Bool} (batch : AtomicIxBatch) (version : TxVersion) :
      Follows ⟨false, c⟩ (.single batch version) ⟨false, c'⟩
  | singleWithSigners {c c' : Bool} (batch : AtomicIxBatch) (signers : List Pubkey) :
      Follows ⟨false, c⟩ (.singleWithSigners batch signers) ⟨false, c'⟩
  | parallel {c c' : Bool} {batches : List AtomicIxBatch} (version : TxVersion) :
      (c' = true → c = true ∨ batches ≠ []) →
      Follows ⟨false, c⟩ (.parallel batches version) ⟨false, c'⟩
  | parallelUnchecked {c : Bool} (batches : List AtomicIxBatch) (version : TxVersion) :
      Follows ⟨false, c⟩ (.parallelUnchecked batches version) ⟨true, c⟩
  | confirmationIterativeTx {c : Bool} (confirm : Bool) :
      Follows ⟨true, c⟩ (.confirmationIterativeTx confirm) ⟨false, c⟩
  | waitNextSlot {c : Bool} (slot : Slot) : Follows ⟨false, c⟩ (.waitNextSlot slot) ⟨false, c⟩

/-- What was sent before does not disturb the order. -/
theorem Follows.checked {w c w' c' : Bool} {step : IxExecStepBatch}
    (h : Follows ⟨w, c⟩ step ⟨w', c'⟩) : Follows ⟨w, true⟩ step ⟨w', true⟩ := by
  cases h with
  | single batch version => exact .single batch version
  | singleWithSigners batch signers => exact .singleWithSigners batch signers
  | parallel version _ => exact .parallel version fun _ => .inl rfl
  | parallelUnchecked batches version => exact .parallelUnchecked batches version
  | confirmationIterativeTx confirm => exact .confirmationIterativeTx confirm
  | waitNextSlot slot => exact .waitNextSlot slot

/-- A machine in the standing `R` keeps the order, and ends only when no results are waiting
and, if it `must`, something had to succeed. -/
def Disciplined {τ : Type} (advance : EStateM Failure τ IxExecStepBatch) (must : Prop)
    (R : τ → Standing → Prop) : Prop :=
  ∀ s z step t, R s z → advance s = .ok step t →
    (step = .end_ ∧ z.waiting = false ∧ (must → z.checked = true)) ∨
      ∃ z', Follows z step z' ∧ R t z'

namespace Disciplined

variable {τ : Type} {advance : EStateM Failure τ IxExecStepBatch} {must : Prop}
  {R : τ → Standing → Prop} {s t : τ} {step : IxExecStepBatch} {version : TxVersion}

theorem weaken {must' : Prop} (h : Disciplined advance must R) (himp : must' → must) :
    Disciplined advance must' R := by
  intro s z step t hR hadvance
  refine (h s z step t hR hadvance).imp_left fun ⟨hend, hwaiting, hchecked⟩ => ?_
  exact ⟨hend, hwaiting, fun hmust => hchecked (himp hmust)⟩

/-- A machine with one step, which has to succeed. -/
theorem once {D : τ → Prop} (h : ∀ s step t, advance s = .ok step t →
    (∀ c, Follows ⟨false, c⟩ step ⟨false, true⟩) ∨ (D s ∧ step = .end_)) :
    Disciplined advance True fun s z => z.waiting = false ∧ (D s → z.checked = true) := by
  intro s ⟨w, c⟩ step t ⟨hwaiting, hchecked⟩ hadvance
  obtain rfl : w = false := hwaiting
  rcases h s step t hadvance with hfollows | ⟨hdone, hend⟩
  · exact .inr ⟨⟨false, true⟩, hfollows c, rfl, fun _ => rfl⟩
  · exact .inl ⟨hend, rfl, fun _ => hchecked hdone⟩

/-- As a boxed machine, behind something that had to succeed. -/
theorem boxed (h : Disciplined advance must R) {w : Bool} (hR : ∃ c, R s ⟨w, c⟩)
    (hadvance : advance s = .ok step t) :
    (step = .end_ ∧ w = false) ∨
      ∃ w', Follows ⟨w, true⟩ step ⟨w', true⟩ ∧ ∃ c, R t ⟨w', c⟩ := by
  obtain ⟨c, hR⟩ := hR
  rcases h s _ step t hR hadvance with ⟨hend, hwaiting, _⟩ | ⟨⟨w', c'⟩, hfollows, hR'⟩
  · exact .inl ⟨hend, hwaiting⟩
  · exact .inr ⟨w', hfollows.checked, c', hR'⟩

theorem withVersion (h : Disciplined advance must R) (version : TxVersion) :
    Disciplined (advanceWithVersion advance version) must R := by
  intro s z step t hR hadvance
  obtain ⟨step', t', hstep', hrest⟩ := bind_ok hadvance
  have hcases := h s z step' t' hR hstep'
  cases step' with
  | single batch version' =>
      cases hrest
      rcases hcases with ⟨hend, _⟩ | ⟨z', hfollows, hR'⟩
      · cases hend
      · cases hfollows
        exact .inr ⟨_, .single batch version, hR'⟩
  | _ =>
      cases hrest
      exact hcases

theorem withVersionIt (h : Disciplined advance must R) (version : TxVersion) :
    Disciplined (advanceWithVersionIt advance version) must R := by
  intro s z step t hR hadvance
  obtain ⟨step', t', hstep', hrest⟩ := bind_ok hadvance
  have hcases := h s z step' t' hR hstep'
  cases step' with
  | parallelUnchecked batches version' =>
      cases hrest
      rcases hcases with ⟨hend, _⟩ | ⟨z', hfollows, hR'⟩
      · cases hend
      · cases hfollows
        exact .inr ⟨_, .parallelUnchecked batches version, hR'⟩
  | _ =>
      cases hrest
      exact hcases

end Disciplined

/-! ## The atomic transactions -/

namespace AtomicTx

variable {X : Crates} {B : ComputeBudget} {tx t : AtomicTx} {step : IxExecStepBatch}

theorem advance_ok_cases (h : advance X B tx = .ok step t) :
    (tx.step = .execute ∧ t.step = .end_ ∧ ∃ ix, step = .single ix .legacy) ∨
      (tx.step = .end_ ∧ t = tx ∧ step = .end_) := by
  cases hstep : tx.step with
  | execute =>
      cases hix : tx.ix with
      | some ix =>
          rw [advance_built hstep hix] at h
          cases h
          exact .inl ⟨rfl, rfl, ix, rfl⟩
      | none =>
          cases hemulate : tx.txBuilder.emulate (tx.txData X) tx.resource.payerKey with
          | error f =>
              rw [advance_failed hstep hix hemulate] at h
              cases h
          | ok accounts =>
              rw [advance_emulated hstep hix hemulate] at h
              cases h
              exact .inl ⟨rfl, rfl, _, rfl⟩
  | end_ =>
      rw [advance_end hstep] at h
      cases h
      exact .inr ⟨rfl, rfl, rfl⟩

def Stands (tx : AtomicTx) (z : Standing) : Prop :=
  z.waiting = false ∧ (tx.step = .end_ → z.checked = true)

theorem stands_execute (hstep : tx.step = .execute) : Stands tx ⟨false, false⟩ :=
  ⟨rfl, by simp [hstep]⟩

theorem disciplined : Disciplined (advance X B) True Stands := by
  refine Disciplined.once fun tx step t h => ?_
  rcases advance_ok_cases h with ⟨_, _, ix, rfl⟩ | ⟨hend, _, rfl⟩
  · exact .inl fun c => .single ix .legacy
  · exact .inr ⟨hend, rfl⟩

end AtomicTx

namespace AtomicSvm

variable {X : Crates} {B : ComputeBudget}

def Stands (tx : AtomicSvm) (z : Standing) : Prop :=
  z.waiting = false ∧ (tx.step = .execute → tx.atomicTx.step = .execute) ∧
    (tx.step = .end_ → z.checked = true)

theorem advance_ok_cases {tx t : AtomicSvm} {step : IxExecStepBatch}
    (h : advance X B tx = .ok step t) :
    (tx.step = .execute ∧ t.step = .end_ ∧
      (tx.atomicTx.step = .execute → ∃ ix version, step = .single ix version)) ∨
      (tx.step = .end_ ∧ step = .end_) := by
  rw [advance, get_bind] at h
  cases hstep : tx.step with
  | end_ =>
      simp only [hstep] at h
      cases h
      exact .inr ⟨rfl, rfl⟩
  | execute =>
      simp only [hstep] at h
      rw [modify_bind] at h
      refine .inl ⟨rfl, ?_⟩
      cases halts : tx.alts with
      | none =>
          simp only [halts] at h
          obtain ⟨u, hatomic, rfl⟩ := ok_of_zoom h
          refine ⟨rfl, fun hexecute => ?_⟩
          rcases AtomicTx.advance_ok_cases hatomic with ⟨_, _, ix, rfl⟩ | ⟨hend, _⟩
          · exact ⟨ix, _, rfl⟩
          · rw [hexecute] at hend
            cases hend
      | some alts =>
          simp only [halts] at h
          rw [modify_bind] at h
          obtain ⟨u, hatomic, rfl⟩ := ok_of_zoom h
          refine ⟨rfl, fun hexecute => ?_⟩
          obtain ⟨step', u', hstep', hversion⟩ := bind_ok hatomic
          rcases AtomicTx.advance_ok_cases hstep' with ⟨_, _, ix, rfl⟩ | ⟨hend, _⟩
          · cases hversion
            exact ⟨ix, _, rfl⟩
          · rw [hexecute] at hend
            cases hend

theorem disciplined : Disciplined (advance X B) True Stands := by
  intro tx ⟨w, c⟩ step t ⟨hwaiting, hexecute, hchecked⟩ h
  obtain rfl : w = false := hwaiting
  rcases advance_ok_cases h with ⟨hstep, hend, hsingle⟩ | ⟨hend, rfl⟩
  · obtain ⟨ix, version, rfl⟩ := hsingle (hexecute hstep)
    refine .inr ⟨⟨false, true⟩, .single ix version, rfl, fun hne => ?_, fun _ => rfl⟩
    rw [hend] at hne
    cases hne
  · exact .inl ⟨rfl, rfl, fun _ => hchecked hend⟩

end AtomicSvm

theorem CrossRollupTx.disciplined : Disciplined CrossRollupTx.advance True
    fun tx z => z.waiting = false ∧ (tx.complete = true → z.checked = true) := by
  refine Disciplined.once fun tx step t h => ?_
  rw [advance, get_bind] at h
  by_cases hcomplete : tx.complete = true
  · rw [if_pos hcomplete] at h
    cases h
    exact .inr ⟨hcomplete, rfl⟩
  · rw [if_neg hcomplete] at h
    cases h
    exact .inl fun c => .single tx.instructions .legacy

theorem CrossChainTx.disciplined : Disciplined CrossChainTx.advance True
    fun tx z => z.waiting = false ∧ (tx.complete = true → z.checked = true) := by
  refine Disciplined.once fun tx step t h => ?_
  rw [advance, get_bind] at h
  by_cases hcomplete : tx.complete = true
  · rw [if_pos hcomplete] at h
    cases h
    exact .inr ⟨hcomplete, rfl⟩
  · rw [if_neg hcomplete] at h
    cases h
    exact .inl fun c => .singleWithSigners tx.instructions tx.signers

/-! ## The iterative one -/

namespace IterativeTx

variable {X : Crates} {I : IterativeCrates}

def Stands (tx : IterativeTx) (z : Standing) : Prop := z.waiting = true ↔ tx.step = .confirm

theorem stands_execute {tx : IterativeTx} (hstep : tx.step = .execute) :
    Stands tx ⟨false, false⟩ := by
  simp [Stands, hstep]

/-- Nothing it hands out has to succeed. -/
theorem disciplined : Disciplined (advance X I) False Stands := by
  intro tx ⟨w, c⟩ step t hstands h
  cases hstep : tx.step with
  | execute =>
      obtain rfl : w = false := by simpa [Stands, hstep] using hstands
      cases hixs : tx.ixs with
      | some ixs =>
          rw [advance_built hstep hixs] at h
          cases h
          exact .inr ⟨_, .parallelUnchecked ixs .legacy, by simp [Stands]⟩
      | none =>
          cases hbuilt : tx.built X I with
          | error f =>
              rw [advance_failed hstep hixs hbuilt] at h
              cases h
          | ok ixs =>
              rw [advance_emulated hstep hixs hbuilt] at h
              cases h
              exact .inr ⟨_, .parallelUnchecked ixs .legacy, by simp [Stands]⟩
  | confirm =>
      obtain rfl : w = true := hstands.mpr hstep
      cases hconfirm : I.confirm tx.txBuilder tx.resource tx.hash tx.session with
      | error e =>
          rw [advance_confirm_error hstep hconfirm] at h
          cases h
      | ok confirm =>
          rw [advance_confirm hstep hconfirm] at h
          cases h
          exact .inr ⟨_, .confirmationIterativeTx confirm, by simp [Stands]⟩
  | complete =>
      obtain rfl : w = false := by simpa [Stands, hstep] using hstands
      rw [advance_complete hstep] at h
      cases h
      exact .inl ⟨rfl, rfl, nofun⟩

end IterativeTx

/-! ## With a holder -/

namespace SteppedTransmitTx

variable {X : Crates} {t u : SteppedTransmitTx} {step : IxExecStepBatch}

/-- The first step sends something, unless there is nothing to send. -/
theorem advance_ok_cases (h : advance X t = .ok step u) :
    (∃ batch, step = .parallel batch .legacy ∧ (t.step = .init → batch ≠ [])) ∨
      (step = .end_ ∧ (t.step = .init → t.rlp = [])) := by
  cases hstep : t.step with
  | init =>
      cases hbatches : t.batches X with
      | error f =>
          rw [advance_init_error hstep hbatches] at h
          cases h
      | ok batches =>
          cases batches with
          | nil =>
              obtain ⟨u', hu, _⟩ := advance_nil (.init hstep hbatches)
              rw [hu] at h
              cases h
              exact .inr ⟨rfl, fun _ => TransmitTx.rlp_eq_nil hbatches⟩
          | cons batch rest =>
              obtain ⟨u', hu, _⟩ := advance_cons (.init hstep hbatches)
              rw [hu] at h
              cases h
              refine .inl ⟨batch, rfl, fun _ => ?_⟩
              obtain ⟨ixs, _, hcut⟩ := Except.ok_of_bind hbatches
              rw [intoChunks, if_neg (by decide)] at hcut
              have hmem : batch ∈ intoChunksLoop TransmitTx.limit ixs.length ixs := by
                rw [Except.ok.inj hcut]
                exact List.mem_cons_self
              exact intoChunksLoop_ne_nil (by decide) _ _ batch hmem
  | execute batches =>
      have hremaining : Remaining X t batches.reverse :=
        .execute (by rw [List.reverse_reverse, hstep])
      cases hrest : batches.reverse with
      | nil =>
          obtain ⟨u', hu, _⟩ := advance_nil (hrest ▸ hremaining)
          rw [hu] at h
          cases h
          exact .inr ⟨rfl, by simp⟩
      | cons batch rest =>
          obtain ⟨u', hu, _⟩ := advance_cons (hrest ▸ hremaining)
          rw [hu] at h
          cases h
          exact .inl ⟨batch, rfl, by simp⟩
  | complete =>
      rw [advance_complete hstep] at h
      cases h
      exact .inr ⟨rfl, by simp⟩

end SteppedTransmitTx

namespace AtomicTxHolder

variable {X : Crates} {B : ComputeBudget} {tx t : AtomicTxHolder} {step : IxExecStepBatch}

def Stands (tx : AtomicTxHolder) (z : Standing) : Prop :=
  z.waiting = false ∧ (tx.step = .end_ → z.checked = true)

theorem stands_new (t : SteppedTransmitTx) (fee : Bytes) (useAlt : Bool) :
    Stands (.new t fee useAlt) ⟨false, false⟩ :=
  ⟨rfl, by cases useAlt <;> simp [new]⟩

theorem advanceExecute_ok_cases (h : advanceExecute X B tx = .ok step t) :
    t.step = .end_ ∧ ∃ ix, step = .single ix .legacy := by
  cases hixs : tx.ixs X B with
  | error f =>
      rw [advanceExecute_error hixs] at h
      cases h
  | ok ix =>
      rw [advanceExecute_ok hixs] at h
      cases h
      exact ⟨rfl, ix, rfl⟩

theorem advance_ok_cases (h : advance X B tx = .ok step t) :
    (∃ batch, step = .parallel batch .legacy ∧ t.step = tx.step ∧ tx.step = .transmit) ∨
      (∃ ix, step = .single ix .legacy ∧ t.step = .end_) ∨
      (step = .end_ ∧ tx.step = .end_) := by
  cases hstep : tx.step with
  | transmit =>
      cases htransmit : SteppedTransmitTx.advance X tx.transmitTx with
      | error f u =>
          rw [advance_transmit_error hstep htransmit] at h
          cases h
      | ok ix u =>
          rcases SteppedTransmitTx.advance_ok_cases htransmit with ⟨batch, rfl, _⟩ | ⟨rfl, _⟩
          · rw [advance_transmit hstep htransmit nofun] at h
            cases h
            exact .inl ⟨batch, rfl, hstep, rfl⟩
          · rw [advance_transmitted hstep htransmit] at h
            obtain ⟨hend, ix, rfl⟩ := advanceExecute_ok_cases h
            exact .inr (.inl ⟨ix, rfl, hend⟩)
  | execute =>
      rw [advance_of_execute hstep] at h
      obtain ⟨hend, ix, rfl⟩ := advanceExecute_ok_cases h
      exact .inr (.inl ⟨ix, rfl, hend⟩)
  | end_ =>
      rw [advance_end hstep] at h
      cases h
      exact .inr (.inr ⟨rfl, rfl⟩)

theorem disciplined : Disciplined (advance X B) True Stands := by
  intro tx ⟨w, c⟩ step t ⟨hwaiting, hchecked⟩ h
  obtain rfl : w = false := hwaiting
  rcases advance_ok_cases h with ⟨batch, rfl, hsame, htransmit⟩ | ⟨ix, rfl, _⟩ | ⟨rfl, hend⟩
  · refine .inr ⟨⟨false, c⟩, .parallel .legacy .inl, rfl, fun hend => ?_⟩
    rw [hsame, htransmit] at hend
    cases hend
  · exact .inr ⟨⟨false, true⟩, .single ix .legacy, rfl, fun _ => rfl⟩
  · exact .inl ⟨rfl, rfl, fun _ => hchecked hend⟩

end AtomicTxHolder

namespace IterativeTxHolder

variable {X : Crates} {I : IterativeCrates} {must : Prop} {tx t : IterativeTxHolder}
  {step : IxExecStepBatch}

/-- If it `must` send something that has to succeed, it has something to transmit. -/
structure Stands (must : Prop) (tx : IterativeTxHolder) (z : Standing) : Prop where
  waiting : z.waiting = true ↔ tx.step = .confirm
  first : must → z.checked = false →
    tx.step = .transmit ∧ tx.transmitTx.step = .init ∧ tx.transmitTx.rlp ≠ []

theorem stands_new {t : SteppedTransmitTx} {useAlt : Bool} (session : UInt64) (fee : Bytes)
    (h : must → useAlt = false ∧ t.step = .init ∧ t.rlp ≠ []) :
    Stands must (.new t session fee useAlt) ⟨false, false⟩ := by
  refine ⟨by cases useAlt <;> simp [new], fun hmust _ => ?_⟩
  obtain ⟨rfl, hinit, hrlp⟩ := h hmust
  exact ⟨rfl, hinit, hrlp⟩

theorem advanceExecute_ok_cases (h : advanceExecute X I tx = .ok step t) :
    t.step = .confirm ∧ ∃ ixs, step = .parallelUnchecked ixs .legacy := by
  cases hixs : tx.ixs X I with
  | error f =>
      rw [advanceExecute_error hixs] at h
      cases h
  | ok ixs =>
      rw [advanceExecute_ok hixs] at h
      cases h
      exact ⟨rfl, ixs, rfl⟩

namespace Stands

variable {z : Standing}

theorem of_checked (hwaiting : z.waiting = true ↔ tx.step = .confirm)
    (hchecked : must → z.checked = true) : Stands must tx z := by
  refine ⟨hwaiting, fun hmust hunchecked => ?_⟩
  rw [hchecked hmust] at hunchecked
  cases hunchecked

theorem checked (h : Stands must tx z)
    (hne : ¬(tx.step = .transmit ∧ tx.transmitTx.step = .init ∧ tx.transmitTx.rlp ≠ []))
    (hmust : must) : z.checked = true := by
  cases hchecked : z.checked with
  | true => rfl
  | false => exact absurd (h.first hmust hchecked) hne

end Stands

theorem disciplined : Disciplined (advance X I) must (Stands must) := by
  intro tx ⟨w, c⟩ step t hstands h
  have hwaiting := hstands.waiting
  cases hstep : tx.step with
  | transmit =>
      obtain rfl : w = false := by simpa [hstep] using hwaiting
      cases htransmit : SteppedTransmitTx.advance X tx.transmitTx with
      | error f u =>
          rw [advance_transmit_error hstep htransmit] at h
          cases h
      | ok ix u =>
          rcases SteppedTransmitTx.advance_ok_cases htransmit with ⟨batch, rfl, hbatch⟩ |
            ⟨rfl, hrlp⟩
          · rw [advance_transmit hstep htransmit nofun] at h
            cases h
            -- it is the first batch that counts
            by_cases hnil : batch = []
            · have hchecked := hstands.checked fun hfirst => hbatch hfirst.2.1 hnil
              exact .inr ⟨_, .parallel .legacy .inl, .of_checked (by simp [hstep]) hchecked⟩
            · exact .inr ⟨_, .parallel .legacy fun _ => .inr hnil,
                .of_checked (by simp [hstep]) fun _ => rfl⟩
          · rw [advance_transmitted hstep htransmit] at h
            obtain ⟨hconfirm, ixs, rfl⟩ := advanceExecute_ok_cases h
            have hchecked := hstands.checked fun hfirst => hfirst.2.2 (hrlp hfirst.2.1)
            exact .inr ⟨_, .parallelUnchecked ixs .legacy,
              .of_checked (by simp [hconfirm]) hchecked⟩
  | execute =>
      obtain rfl : w = false := by simpa [hstep] using hwaiting
      rw [advance_of_execute hstep] at h
      obtain ⟨hconfirm, ixs, rfl⟩ := advanceExecute_ok_cases h
      have hchecked := hstands.checked (by simp [hstep])
      exact .inr ⟨_, .parallelUnchecked ixs .legacy, .of_checked (by simp [hconfirm]) hchecked⟩
  | confirm =>
      obtain rfl : w = true := hwaiting.mpr hstep
      obtain ⟨confirm, hconfirm⟩ := advance_confirm (X := X) (I := I) hstep
      rw [hconfirm] at h
      cases h
      have hchecked := hstands.checked (by simp [hstep])
      exact .inr ⟨_, .confirmationIterativeTx confirm, .of_checked (by simp) hchecked⟩
  | end_ =>
      obtain rfl : w = false := by simpa [hstep] using hwaiting
      rw [advance_end hstep] at h
      cases h
      exact .inl ⟨rfl, rfl, hstands.checked (by simp [hstep])⟩

end IterativeTxHolder

/-! ## With a lookup table -/

namespace AltTx

variable {A : AltCrates} {alt t : AltTx} {step : IxExecStepBatch}

theorem advance_ok_cases (h : advance A alt = .ok step t) :
    (alt.step = .execute ∧ t.step = .waitNextSlot ∧
      ∃ batches, batches ≠ [] ∧ step = .parallel batches .legacy) ∨
      (alt.step = .waitNextSlot ∧ ∃ slot, step = .waitNextSlot slot) ∨
      (alt.step = .end_ ∧ step = .end_) := by
  cases hstep : alt.step with
  | execute =>
      cases hdealloc : alt.ixDealloc A with
      | error f =>
          rw [advance_dealloc_error hstep hdealloc] at h
          cases h
      | ok dealloc =>
          cases halloc : ixsAlloc A alt with
          | error f u =>
              rw [advance_alloc_error hstep hdealloc halloc] at h
              cases h
          | ok alloc u =>
              rw [advance_allocated hstep hdealloc halloc] at h
              cases h
              exact .inl ⟨rfl, rfl, dealloc :: alloc, nofun, rfl⟩
  | waitNextSlot =>
      rcases advance_wait_cases (A := A) hstep with ⟨slot, u, hu, _⟩ | ⟨f, u, hu, _⟩
      · rw [hu] at h
        cases h
        exact .inr (.inl ⟨rfl, slot, rfl⟩)
      · rw [hu] at h
        cases h
  | end_ =>
      rw [advance_end hstep] at h
      cases h
      exact .inr (.inr ⟨rfl, rfl⟩)

theorem ended (h : advance A alt = .ok .end_ t) : alt.step ≠ .execute := by
  rcases advance_ok_cases h with ⟨_, _, _, _, hstep⟩ | ⟨hwait, _⟩ | ⟨hend, _⟩
  · cases hstep
  · simp [hwait]
  · simp [hend]

end AltTx

/-- How an `AltTx` stands that has its table sent first of all. -/
structure AltTx.Stands (alt : AltTx) (z : Standing) : Prop where
  waiting : z.waiting = false
  first : z.checked = false → alt.step = .execute

theorem AltTx.Stands.checked {alt : AltTx} {z : Standing} (h : alt.Stands z)
    (hne : alt.step ≠ .execute) : z.checked = true := by
  cases hchecked : z.checked with
  | true => rfl
  | false => exact absurd (h.first hchecked) hne

namespace AltComposed

variable {τ : Type} {A : AltCrates} {I : AdvanceTx τ} {tx t : AltComposed τ}
  {step : IxExecStepBatch} {must : Prop} {R : τ → Standing → Prop}

/-- `R` is how the boxed machine stands. -/
structure Stands (R : τ → Standing → Prop) (tx : AltComposed τ) (z : Standing) : Prop where
  inner : ∃ c, R tx.iterableTx ⟨z.waiting, c⟩
  alt : tx.step = .alt → tx.altTx.Stands z
  execute : tx.step ≠ .alt → z.checked = true

theorem stands_new {alt : AltTx} {inner : τ} (halt : alt.step = .execute)
    (hinner : R inner ⟨false, false⟩) : Stands R (.new alt inner) ⟨false, false⟩ :=
  ⟨⟨false, hinner⟩, fun _ => ⟨rfl, fun _ => halt⟩, by simp [new]⟩

theorem advance_ok_cases (h : advance A I tx = .ok step t) :
    (tx.step = .alt ∧ step ≠ .end_ ∧
      ∃ alt, AltTx.advance A tx.altTx = .ok step alt ∧ t = { tx with altTx := alt }) ∨
      ((tx.step = .alt → ∃ alt, AltTx.advance A tx.altTx = .ok .end_ alt) ∧ t.step ≠ .alt ∧
        ∃ version inner, I.advanceWithVersion version tx.iterableTx = .ok step inner ∧
          t.iterableTx = inner) := by
  rw [advance, get_bind] at h
  cases hstep : tx.step with
  | alt =>
      simp only [hstep] at h
      obtain ⟨ix, u, hzoom, h⟩ := bind_ok h
      obtain ⟨alt, halt, rfl⟩ := ok_of_zoom hzoom
      by_cases hend : ix = .end_
      · subst hend
        rw [if_pos rfl, get_bind] at h
        cases haccount : alt.altAccount A with
        | error f =>
            rw [haccount] at h
            cases h
        | ok account =>
            rw [haccount, ofExcept_bind, modify_bind] at h
            obtain ⟨inner, hinner, rfl⟩ := ok_of_zoom h
            exact .inr ⟨fun _ => ⟨alt, halt⟩, by simp, _, inner, hinner, rfl⟩
      · rw [if_neg hend] at h
        cases h
        exact .inl ⟨rfl, hend, alt, halt, by rw [hstep]⟩
  | execute version =>
      simp only [hstep] at h
      obtain ⟨inner, hinner, rfl⟩ := ok_of_zoom h
      exact .inr ⟨by simp, by simp [hstep], version, inner, hinner, rfl⟩

theorem disciplined (h : ∀ version, Disciplined (I.advanceWithVersion version) must R) :
    Disciplined (advance A I) True (Stands R) := by
  intro tx ⟨w, c⟩ step t hstands hadvance
  rcases advance_ok_cases hadvance with ⟨hstep, hne, alt, halt, rfl⟩ | ⟨hended, hexecute, version,
    inner, hinner, rfl⟩
  · have halts := hstands.alt hstep
    obtain rfl : w = false := halts.waiting
    rcases AltTx.advance_ok_cases halt with ⟨_, _, batches, hbatches, rfl⟩ | ⟨hwait, slot, rfl⟩ |
      ⟨_, rfl⟩
    · exact .inr ⟨⟨false, true⟩, .parallel .legacy fun _ => .inr hbatches, hstands.inner,
        fun _ => ⟨rfl, nofun⟩, fun _ => rfl⟩
    · obtain rfl : c = true := halts.checked (by simp [hwait])
      exact .inr ⟨⟨false, true⟩, .waitNextSlot slot, hstands.inner, fun _ => ⟨rfl, nofun⟩,
        fun _ => rfl⟩
    · exact absurd rfl hne
  · obtain rfl : c = true := by
      by_cases hstep : tx.step = .alt
      · obtain ⟨alt, halt⟩ := hended hstep
        exact (hstands.alt hstep).checked (AltTx.ended halt)
      · exact hstands.execute hstep
    rcases (h version).boxed hstands.inner hinner with ⟨hend, hwaiting⟩ | ⟨w', hfollows, hinner⟩
    · exact .inl ⟨hend, hwaiting, fun _ => rfl⟩
    · exact .inr ⟨⟨w', true⟩, hfollows, hinner, fun halt => absurd halt hexecute, fun _ => rfl⟩

end AltComposed

theorem joinParallel_end {altIx transmitIx : IxExecStepBatch}
    (h : joinParallel altIx transmitIx = .ok .end_) : altIx = .end_ := by
  cases transmitIx <;> cases altIx <;> cases h
  rfl

namespace AltComposedHolder

variable {τ : Type} {X : Crates} {A : AltCrates} {I : AdvanceTx τ} {tx t : AltComposedHolder τ}
  {step : IxExecStepBatch} {must : Prop} {R : τ → Standing → Prop}

/-- `R` is how the boxed machine stands. -/
structure Stands (R : τ → Standing → Prop) (tx : AltComposedHolder τ) (z : Standing) : Prop where
  inner : ∃ c, R tx.iterableTx ⟨z.waiting, c⟩
  alt : tx.step = .altAndTransmit → tx.altTx.Stands z
  execute : tx.step ≠ .altAndTransmit → z.checked = true

theorem stands_new {alt : AltTx} {transmit : SteppedTransmitTx} {inner : τ}
    (halt : alt.step = .execute) (hinner : R inner ⟨false, false⟩) :
    Stands R (.new alt transmit inner) ⟨false, false⟩ :=
  ⟨⟨false, hinner⟩, fun _ => ⟨rfl, fun _ => halt⟩, by simp [new]⟩

theorem advance_ok_cases (h : advance X A I tx = .ok step t) :
    (tx.step = .altAndTransmit ∧ step ≠ .end_ ∧ ∃ altIx alt transmitIx transmit,
      AltTx.advance A tx.altTx = .ok altIx alt ∧
      SteppedTransmitTx.advance X tx.transmitTx = .ok transmitIx transmit ∧
      joinParallel altIx transmitIx = .ok step ∧
      t = { tx with altTx := alt, transmitTx := transmit }) ∨
      ((tx.step = .altAndTransmit → ∃ alt, AltTx.advance A tx.altTx = .ok .end_ alt) ∧
        t.step ≠ .altAndTransmit ∧
        ∃ version inner, I.advanceWithVersion version tx.iterableTx = .ok step inner ∧
          t.iterableTx = inner) := by
  rw [advance, get_bind] at h
  cases hstep : tx.step with
  | altAndTransmit =>
      simp only [hstep] at h
      obtain ⟨altIx, u, hzoom, h⟩ := bind_ok h
      obtain ⟨alt, halt, rfl⟩ := ok_of_zoom hzoom
      obtain ⟨transmitIx, u, hzoom, h⟩ := bind_ok h
      obtain ⟨transmit, htransmit, rfl⟩ := ok_of_zoom hzoom
      cases hjoin : joinParallel altIx transmitIx with
      | error f =>
          rw [hjoin] at h
          cases h
      | ok ix =>
          rw [hjoin, ofExcept_bind] at h
          by_cases hend : ix = .end_
          · subst hend
            rw [if_pos rfl, get_bind] at h
            cases haccount : alt.altAccount A with
            | error f =>
                rw [haccount] at h
                cases h
            | ok account =>
                rw [haccount, ofExcept_bind, modify_bind] at h
                obtain ⟨inner, hinner, rfl⟩ := ok_of_zoom h
                obtain rfl := joinParallel_end hjoin
                exact .inr ⟨fun _ => ⟨alt, halt⟩, by simp, _, inner, hinner, rfl⟩
          · rw [if_neg hend] at h
            cases h
            exact .inl ⟨rfl, hend, altIx, alt, transmitIx, transmit, halt, htransmit, hjoin,
              by rw [hstep]⟩
  | execute version =>
      simp only [hstep] at h
      obtain ⟨inner, hinner, rfl⟩ := ok_of_zoom h
      exact .inr ⟨by simp, by simp [hstep], version, inner, hinner, rfl⟩

/-- The first step of the two sends the table, and the others come behind it. -/
theorem follows_of_joined {altIx transmitIx : IxExecStepBatch} {alt alt' : AltTx}
    {transmit transmit' : SteppedTransmitTx} {c : Bool} (halts : alt.Stands ⟨false, c⟩)
    (halt : AltTx.advance A alt = .ok altIx alt')
    (htransmit : SteppedTransmitTx.advance X transmit = .ok transmitIx transmit')
    (hjoin : joinParallel altIx transmitIx = .ok step) (hne : step ≠ .end_) :
    Follows ⟨false, c⟩ step ⟨false, true⟩ := by
  rcases AltTx.advance_ok_cases halt with ⟨_, _, batches, hbatches, rfl⟩ | ⟨hwait, slot, rfl⟩ |
    ⟨hend, rfl⟩
  · rcases SteppedTransmitTx.advance_ok_cases htransmit with ⟨batch, rfl, _⟩ | ⟨rfl, _⟩
    · cases hjoin
      exact .parallel .legacy fun _ => .inr (by simp [hbatches])
    · cases hjoin
      exact .parallel .legacy fun _ => .inr hbatches
  · obtain rfl : c = true := halts.checked (by simp [hwait])
    rcases SteppedTransmitTx.advance_ok_cases htransmit with ⟨batch, rfl, _⟩ | ⟨rfl, _⟩
    · cases hjoin
      exact .parallel .legacy .inl
    · cases hjoin
      exact .waitNextSlot slot
  · obtain rfl : c = true := halts.checked (by simp [hend])
    rcases SteppedTransmitTx.advance_ok_cases htransmit with ⟨batch, rfl, _⟩ | ⟨rfl, _⟩
    · cases hjoin
      exact .parallel .legacy .inl
    · cases hjoin
      exact absurd rfl hne

theorem disciplined (h : ∀ version, Disciplined (I.advanceWithVersion version) must R) :
    Disciplined (advance X A I) True (Stands R) := by
  intro tx ⟨w, c⟩ step t hstands hadvance
  rcases advance_ok_cases hadvance with ⟨hstep, hne, altIx, alt, transmitIx, transmit, halt,
    htransmit, hjoin, rfl⟩ | ⟨hended, hexecute, version, inner, hinner, rfl⟩
  · have halts := hstands.alt hstep
    obtain rfl : w = false := halts.waiting
    have hfollows := follows_of_joined halts halt htransmit hjoin hne
    exact .inr ⟨⟨false, true⟩, hfollows, hstands.inner, fun _ => ⟨rfl, nofun⟩, fun _ => rfl⟩
  · obtain rfl : c = true := by
      by_cases hstep : tx.step = .altAndTransmit
      · obtain ⟨alt, halt⟩ := hended hstep
        exact (hstands.alt hstep).checked (AltTx.ended halt)
      · exact hstands.execute hstep
    rcases (h version).boxed hstands.inner hinner with ⟨hend, hwaiting⟩ | ⟨w', hfollows, hinner⟩
    · exact .inl ⟨hend, hwaiting, fun _ => rfl⟩
    · exact .inr ⟨⟨w', true⟩, hfollows, hinner, fun halt => absurd halt hexecute, fun _ => rfl⟩

end AltComposedHolder

end RomeSdk
