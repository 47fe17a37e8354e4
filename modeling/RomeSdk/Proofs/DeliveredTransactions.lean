import RomeSdk.Proofs.BuiltTransactions
import RomeSdk.Proofs.SentSignatures

/-!
# What is sent with success has landed

The tower asks a machine for its steps, sends what they hold and waits for it. Where it
returns signatures, the machine has come to its end, and each step before that is through:
a checked one is on the chain as a whole, before anything of the next one is sent, and an
unchecked one was confirmed. With the machines of the builder this is the whole transaction.

A call of the machine finds other answers each time, so they are a part of its state here.
The chain is whatever the client makes of it; all that is asked is that it only grows, and
that a batch the client has confirmed is on it. Others may write to it too.
-/

namespace RomeSdk

open EStateM

/-- The calls of a machine, each with what it finds. -/
def answering {τ : Type} (call : CallAnswers → EStateM Failure τ IxExecStepBatch) :
    EStateM Failure (τ × (Nat → CallAnswers)) IxExecStepBatch := fun s =>
  match call (s.2 0) s.1 with
  | .ok step tx => .ok step (tx, fun n => s.2 (n + 1))
  | .error f tx => .error f (tx, fun n => s.2 (n + 1))

section

variable {τ : Type} {call : CallAnswers → EStateM Failure τ IxExecStepBatch}
  {Whole : List AtomicIxBatch → Prop} {P : τ → List AtomicIxBatch → Prop} {tx : τ}
  {sent : List AtomicIxBatch} {es : Nat → CallAnswers}

theorem Hands.answering (h : Hands (call (es 0)) Whole P tx sent) :
    Hands (answering call) Whole (fun s sent => P s.1 sent ∧ s.2 = fun n => es (n + 1)) (tx, es)
      sent := by
  cases h with
  | @goes step t hcall hne hnext =>
      refine .goes (t := (t, fun n => es (n + 1))) ?_ hne ⟨hnext, rfl⟩
      simp only [RomeSdk.answering, hcall]
  | @ends t hcall hwhole hnext =>
      refine .ends (t := (t, fun n => es (n + 1))) ?_ hwhole ⟨hnext, rfl⟩
      simp only [RomeSdk.answering, hcall]
  | @fails f t hcall =>
      refine .fails (f := f) (t := (t, fun n => es (n + 1))) ?_
      simp only [RomeSdk.answering, hcall]

theorem Disciplined.answering {must : Prop} {R : τ → Standing → Prop}
    (h : ∀ e, Disciplined (call e) must R) :
    Disciplined (answering call) must fun s z => R s.1 z := by
  intro ⟨tx, es⟩ z step ⟨t, es'⟩ hR hcall
  rw [RomeSdk.answering] at hcall
  cases hstep : call (es 0) tx with
  | error f t => simp [hstep] at hcall
  | ok step' t' =>
      simp only [hstep] at hcall
      cases hcall
      exact h (es 0) tx z step t hR hstep

/-- The answers of a call do not change how a machine stands. -/
theorem Disciplined.emulated {advance : EStateM Failure τ IxExecStepBatch} {must : Prop}
    {R : τ → Standing → Prop} (h : Disciplined advance must R) {u : τ → τ}
    (hR : ∀ s z, R s z → R (u s) z) : Disciplined (fun s => advance (u s)) False R := by
  intro s z step t hs hadvance
  exact (h.weaken False.elim) (u s) z step t (hR s z hs) hadvance

end

/-! ## The order the builder's machines keep -/

theorem ok_of_within {σ τ : Type} {wrap : σ → τ} {x : EStateM Failure σ IxExecStepBatch} {s : σ}
    {step : IxExecStepBatch} {t : τ} (h : within wrap x s = .ok step t) :
    ∃ u, x s = .ok step u ∧ t = wrap u := by
  rw [within] at h
  cases hstep : x s with
  | error f u => simp [hstep] at h
  | ok step' u =>
      simp only [hstep] at h
      cases h
      exact ⟨u, rfl, rfl⟩

namespace Iterable

def Stands : Iterable → Standing → Prop
  | .atomicTx tx => tx.Stands
  | .atomicTxHolder tx => tx.Stands
  | .iterativeTx tx => tx.Stands
  | .iterativeTxHolder tx => tx.Stands False

/-- A variant keeps the order its transaction keeps. -/
theorem disciplined_callBy {K : TxCrates} {e : CallAnswers}
    {f g : ∀ τ : Type, EStateM Failure τ IxExecStepBatch → EStateM Failure τ IxExecStepBatch}
    (hf : ∀ τ (x : EStateM Failure τ IxExecStepBatch) R, Disciplined x False R →
      Disciplined (f τ x) False R)
    (hg : ∀ τ (x : EStateM Failure τ IxExecStepBatch) R, Disciplined x False R →
      Disciplined (g τ x) False R) : Disciplined (callBy K e f g) False Stands := by
  have hvariant : ∀ {σ : Type} {x : EStateM Failure σ IxExecStepBatch} {R : σ → Standing → Prop}
      {wrap : σ → Iterable} {s : σ} {z : Standing} {step : IxExecStepBatch} {t : Iterable},
      Disciplined x False R → (∀ s, Stands (wrap s) = R s) → R s z → within wrap x s = .ok step t →
      (step = .end_ ∧ z.waiting = false ∧ (False → z.checked = true)) ∨
        ∃ z', Follows z step z' ∧ Stands t z' := by
    intro σ x R wrap s z step t hx hwrap hR hwithin
    obtain ⟨u, hstep, rfl⟩ := ok_of_within hwithin
    rw [hwrap]
    exact hx s z step u hR hstep
  intro tx z step t hR hcall
  cases tx with
  | atomicTx tx =>
      have hx : Disciplined (AtomicTx.call K e) False AtomicTx.Stands :=
        AtomicTx.disciplined.emulated fun _ _ => id
      exact hvariant (hf _ _ _ hx) (fun _ => rfl) hR hcall
  | atomicTxHolder tx =>
      have hx : Disciplined (AtomicTxHolder.call K e) False AtomicTxHolder.Stands :=
        AtomicTxHolder.disciplined.emulated fun _ _ => id
      exact hvariant (hf _ _ _ hx) (fun _ => rfl) hR hcall
  | iterativeTx tx =>
      have hx : Disciplined (IterativeTx.call K e) False IterativeTx.Stands :=
        IterativeTx.disciplined
      exact hvariant (hg _ _ _ hx) (fun _ => rfl) hR hcall
  | iterativeTxHolder tx =>
      have hx : Disciplined (IterativeTxHolder.call K e) False (IterativeTxHolder.Stands False) :=
        IterativeTxHolder.disciplined.emulated fun _ _ h => ⟨h.waiting, False.elim⟩
      exact hvariant (hg _ _ _ hx) (fun _ => rfl) hR hcall

theorem disciplined {K : TxCrates} (e : CallAnswers) : Disciplined (call K e) False Stands := by
  rw [call_eq_callBy]
  exact disciplined_callBy (fun _ _ _ => id) fun _ _ _ => id

theorem disciplined_version {K : TxCrates} (e : CallAnswers) (version : TxVersion) :
    Disciplined (callWithVersion K e version) False Stands := by
  rw [callWithVersion_eq_callBy]
  exact disciplined_callBy (fun _ _ _ h => h.withVersion version)
    fun _ _ _ h => h.withVersionIt version

end Iterable

namespace BuiltTx

def Stands : BuiltTx → Standing → Prop
  | .iterable tx => tx.Stands
  | .altComposed tx => AltComposed.Stands Iterable.Stands tx
  | .altComposedHolder tx => AltComposedHolder.Stands Iterable.Stands tx

theorem disciplined {K : TxCrates} (e : CallAnswers) : Disciplined (call K e) False Stands := by
  intro tx z step t hR hcall
  cases tx with
  | iterable tx =>
      obtain ⟨u, hadvance, rfl⟩ := ok_of_within hcall
      exact Iterable.disciplined e tx z step u hR hadvance
  | altComposed tx =>
      obtain ⟨u, hadvance, rfl⟩ := ok_of_within hcall
      have hcomposed := AltComposed.disciplined (A := e.altCrates K) (I := Iterable.advanceTx K e)
        fun version => Iterable.disciplined_version e version
      refine (hcomposed.weaken False.elim) _ z step u ?_ hadvance
      exact ⟨hR.inner, fun halt => ⟨(hR.alt halt).waiting, (hR.alt halt).first⟩, hR.execute⟩
  | altComposedHolder tx =>
      obtain ⟨u, hadvance, rfl⟩ := ok_of_within hcall
      have hcomposed := AltComposedHolder.disciplined (X := K.crates) (A := e.altCrates K)
        (I := Iterable.advanceTx K e) fun version => Iterable.disciplined_version e version
      refine (hcomposed.weaken False.elim) _ z step u ?_ hadvance
      exact ⟨hR.inner, fun halt => ⟨(hR.alt halt).waiting, (hR.alt halt).first⟩, hR.execute⟩

end BuiltTx

/-! ## What has landed -/

/-- What `landed` tells of the chain only grows, and a batch that is confirmed is there. -/
structure TowerClient.Confirms {ω : Type} (T : TowerClient ω)
    (landed : ω → List AtomicIxBatch) : Prop where
  sent : ∀ {batch payer version chain sig chain'},
    T.sendAndConfirm batch payer version chain = .ok sig chain' →
      ∃ more, landed chain' = landed chain ++ more ∧ batch ∈ more
  gaveUp : ∀ {batch payer version chain e chain'},
    T.sendAndConfirm batch payer version chain = .error e chain' →
      ∃ more, landed chain' = landed chain ++ more
  sentWithSigners : ∀ {batch payer signers chain sig chain'},
    T.sendAndConfirmWithSigners batch payer signers chain = .ok sig chain' →
      ∃ more, landed chain' = landed chain ++ more ∧ batch ∈ more
  asked : ∀ {chain slot chain'}, T.getSlot chain = .ok slot chain' →
    ∃ more, landed chain' = landed chain ++ more

/-- The steps are through, one after the other, and `landed` is what is on the chain. -/
inductive Lands (before : List AtomicIxBatch) :
    List IxExecStepBatch → List AtomicIxBatch → Prop
  | start : Lands before [] before
  /-- something else, or a copy that is not looked at -/
  | grows {steps : List IxExecStepBatch} {landed : List AtomicIxBatch}
      (more : List AtomicIxBatch) : Lands before steps landed →
      Lands before steps (landed ++ more)
  | checked {steps : List IxExecStepBatch} {landed more : List AtomicIxBatch}
      {step : IxExecStepBatch} : Lands before steps landed → executedBy (.ok step) = some step →
      (∀ batches version, step ≠ .parallelUnchecked batches version) → step.sent ⊆ more →
      Lands before (steps ++ [step]) (landed ++ more)
  | confirmed {steps : List IxExecStepBatch} {landed : List AtomicIxBatch}
      (batches : List AtomicIxBatch) (version : TxVersion) : Lands before steps landed →
      Lands before
        (steps ++ [.parallelUnchecked batches version, .confirmationIterativeTx true]) landed
  | waited {steps : List IxExecStepBatch} {landed : List AtomicIxBatch} (slot : Slot) :
      Lands before steps landed → Lands before (steps ++ [.waitNextSlot slot]) landed

/-- The same, where an unchecked batch may wait for its confirmation. -/
structure Lands.So (before : List AtomicIxBatch) (z : Standing) (steps : List IxExecStepBatch)
    (landed : List AtomicIxBatch) : Prop where
  through : z.waiting = false → Lands before steps landed
  waiting : z.waiting = true → ∃ front batches version,
    steps = front ++ [.parallelUnchecked batches version] ∧ Lands before front landed

namespace TowerClient

variable {ω τ : Type} {T : TowerClient ω} {landed : ω → List AtomicIxBatch} {payer : Pubkey}

theorem Confirms.sendAll (h : T.Confirms landed) (payer : Pubkey) (version : TxVersion)
    (batches : List AtomicIxBatch) : ∀ chain, ∃ more, landed (T.sendAll payer version batches chain).2 = landed chain ++ more ∧
      ∀ sigs, (T.sendAll payer version batches chain).1.mapM id = .ok sigs → batches ⊆ more := by
  induction batches with
  | nil =>
      intro chain
      exact ⟨[], (List.append_nil _).symm, fun _ _ => List.nil_subset _⟩
  | cons batch batches ih =>
      intro chain
      cases hsent : T.sendAndConfirm batch payer version chain with
      | error e chain' =>
          obtain ⟨more, hmore⟩ := h.gaveUp hsent
          obtain ⟨rest, hrest, _⟩ := ih chain'
          refine ⟨more ++ rest, ?_, fun sigs hsigs => ?_⟩
          · rw [TowerClient.sendAll, hsent, ← List.append_assoc, ← hmore]
            exact hrest
          · rw [TowerClient.sendAll, hsent] at hsigs
            cases hsigs
      | ok sig chain' =>
          obtain ⟨more, hmore, hbatch⟩ := h.sent hsent
          obtain ⟨rest, hrest, hall⟩ := ih chain'
          refine ⟨more ++ rest, ?_, fun sigs hsigs => ?_⟩
          · rw [TowerClient.sendAll, hsent, ← List.append_assoc, ← hmore]
            exact hrest
          · rw [TowerClient.sendAll, hsent] at hsigs
            show batch :: batches ⊆ more ++ rest
            rw [List.mapM_cons] at hsigs
            obtain ⟨_, _, hsigs⟩ := Except.ok_of_bind hsigs
            obtain ⟨sigs', hsigs', _⟩ := Except.ok_of_bind hsigs
            refine List.cons_subset.mpr ⟨List.mem_append_left _ hbatch, ?_⟩
            exact fun b hb => List.mem_append_right _ (hall sigs' hsigs' hb)

theorem Confirms.waitNextSlot (h : T.Confirms landed) {slot : Slot} (fuel : Nat) :
    ∀ {chain chain' : ω}, T.waitNextSlot slot fuel chain = some (.ok (), chain') →
      ∃ more, landed chain' = landed chain ++ more := by
  induction fuel with
  | zero =>
      intro chain chain' hwait
      cases hwait
  | succ fuel ih =>
      intro chain chain' hwait
      rw [TowerClient.waitNextSlot] at hwait
      cases hasked : T.getSlot chain with
      | error e chain₁ => simp [hasked] at hwait
      | ok current chain₁ =>
          obtain ⟨more, hmore⟩ := h.asked hasked
          simp only [hasked] at hwait
          by_cases hlt : slot < current
          · rw [if_pos hlt] at hwait
            cases hwait
            exact ⟨more, hmore⟩
          · rw [if_neg hlt] at hwait
            obtain ⟨rest, hrest⟩ := ih hwait
            exact ⟨more ++ rest, by rw [hrest, hmore, List.append_assoc]⟩

variable {advance : EStateM Failure τ IxExecStepBatch} {R : τ → Standing → Prop}
  {Whole : List AtomicIxBatch → Prop} {P : τ → List AtomicIxBatch → Prop}
  {before : List AtomicIxBatch}

/-- When the call ends well, all steps are through. -/
theorem sendLoop_lands (hconfirms : T.Confirms landed) (hdisciplined : Disciplined advance False R)
    (hhands : ∀ tx sent, P tx sent → Hands advance Whole P tx sent) (fuel : Nat) :
    ∀ {s s' : SendState ω τ} {z : Standing} {steps : List IxExecStepBatch} {sigs : List Signature},
      R s.tx z → P s.tx (batchesOf steps) → Lands.So before z steps (landed s.chain) →
      T.sendLoop advance payer fuel s = (some (.ok sigs), s') →
      ∃ steps', Lands before steps' (landed s'.chain) ∧ Whole (batchesOf steps') := by
  induction fuel with
  | zero =>
      intro s s' z steps sigs _ _ _ hsend
      cases hsend
  | succ fuel ih =>
      intro s s' z steps sigs hR hP hlands hsend
      rw [sendLoop] at hsend
      cases hhands s.tx (batchesOf steps) hP with
      | @fails f tx hadvance =>
          simp only [hadvance] at hsend
          cases hsend
      | @ends tx hadvance hwhole _ =>
          simp only [hadvance] at hsend
          cases hsend
          rcases hdisciplined s.tx z _ tx hR hadvance with ⟨_, hwaiting, _⟩ | ⟨z', hfollows, _⟩
          · exact ⟨steps, hlands.through hwaiting, hwhole⟩
          · cases hfollows
      | @goes step tx hadvance hne hnext =>
          rw [← batchesOf_concat] at hnext
          simp only [hadvance] at hsend
          rcases hdisciplined s.tx z step tx hR hadvance with ⟨hend, _⟩ | ⟨z', hfollows, hR'⟩
          · exact absurd hend hne
          · cases hfollows with
            | single batch version =>
                cases hsent : T.sendAndConfirm batch payer version s.chain with
                | error e chain =>
                    simp only [hsent] at hsend
                    cases hsend
                | ok sig chain =>
                    simp only [hsent] at hsend
                    obtain ⟨more, hmore, hbatch⟩ := hconfirms.sent hsent
                    refine ih hR' hnext ⟨fun _ => ?_, by simp⟩ hsend
                    show Lands before _ (landed chain)
                    rw [hmore]
                    exact (hlands.through rfl).checked rfl (by simp) (by simpa [IxExecStepBatch.sent])
            | singleWithSigners batch signers =>
                cases hsent : T.sendAndConfirmWithSigners batch payer signers s.chain with
                | error e chain =>
                    simp only [hsent] at hsend
                    cases hsend
                | ok sig chain =>
                    simp only [hsent] at hsend
                    obtain ⟨more, hmore, hbatch⟩ := hconfirms.sentWithSigners hsent
                    refine ih hR' hnext ⟨fun _ => ?_, by simp⟩ hsend
                    show Lands before _ (landed chain)
                    rw [hmore]
                    exact (hlands.through rfl).checked rfl (by simp) (by simpa [IxExecStepBatch.sent])
            | @parallel _ _ batches version hchecked =>
                obtain ⟨more, hmore, hall⟩ := hconfirms.sendAll payer version batches s.chain
                cases hcollect : (T.sendAll payer version batches s.chain).1.mapM id with
                | error e =>
                    simp only [hcollect] at hsend
                    cases hsend
                | ok batchSigs =>
                    simp only [hcollect] at hsend
                    refine ih hR' hnext ⟨fun _ => ?_, by simp⟩ hsend
                    show Lands before _ (landed (T.sendAll payer version batches s.chain).2)
                    rw [hmore]
                    exact (hlands.through rfl).checked rfl (by simp) (hall batchSigs hcollect)
            | parallelUnchecked batches version =>
                obtain ⟨more, hmore, _⟩ := hconfirms.sendAll payer version batches s.chain
                refine ih hR' hnext ⟨by simp, fun _ => ?_⟩ hsend
                refine ⟨steps, batches, version, rfl, ?_⟩
                show Lands before steps (landed (T.sendAll payer version batches s.chain).2)
                rw [hmore]
                exact (hlands.through rfl).grows more
            | confirmationIterativeTx confirm =>
                cases confirm with
                | false => cases hsend
                | true =>
                    obtain ⟨front, batches, version, rfl, hfront⟩ := hlands.waiting rfl
                    refine ih hR' hnext ⟨fun _ => ?_, by simp⟩ hsend
                    rw [List.append_assoc]
                    exact hfront.confirmed batches version
            | waitNextSlot slot =>
                cases hwait : T.waitNextSlot slot fuel s.chain with
                | none =>
                    simp only [hwait] at hsend
                    cases hsend
                | some waited =>
                    obtain ⟨_ | _, chain⟩ := waited
                    · simp only [hwait] at hsend
                      cases hsend
                    · simp only [hwait] at hsend
                      obtain ⟨more, hmore⟩ := hconfirms.waitNextSlot fuel hwait
                      refine ih hR' hnext ⟨fun _ => ?_, by simp⟩ hsend
                      show Lands before _ (landed chain)
                      rw [hmore]
                      exact ((hlands.through rfl).grows more).waited slot

end TowerClient

namespace TxBuilder

variable {C : BuilderCrates} {a : BuildAnswers} {b : TxBuilder} {resource : Resource}
  {fee rlp : Bytes} {hash : TxHash}

theorem Plain.stands {tx : Iterable} (h : Plain C b resource fee rlp tx) :
    tx.Stands ⟨false, false⟩ := by
  cases h with
  | @atomicTx emulate tx hbuilt =>
      cases hemulate : emulate (AtomicTx.txData C.crates (.new b rlp resource fee))
          resource.payerKey with
      | error f => cases (AtomicTx.emulateIx_error hemulate).symm.trans hbuilt
      | ok found =>
          cases (AtomicTx.emulateIx_ok hemulate).symm.trans hbuilt
          exact AtomicTx.stands_execute rfl
  | @iterativeTx e session tx hbuilt =>
      cases hixs : IterativeTx.built C.crates (e.iterativeCrates C.toTxCrates)
          (.new C.crates b resource fee rlp session) with
      | error f => cases (IterativeTx.emulateIxs_error hixs).symm.trans hbuilt
      | ok ixs =>
          cases (IterativeTx.emulateIxs_ok hixs).symm.trans hbuilt
          exact IterativeTx.stands_execute rfl

theorem Held.stands {t : TransmitTx} {useAlt : Bool} {tx : Iterable} (h : Held t fee useAlt tx) :
    tx.Stands ⟨false, false⟩ := by
  cases h with
  | atomicTxHolder => exact AtomicTxHolder.stands_new _ fee useAlt
  | iterativeTxHolder session => exact IterativeTxHolder.stands_new session fee False.elim

theorem Makes.stands {tx : BuiltTx} (h : Makes C a b resource fee rlp hash tx) :
    tx.Stands ⟨false, false⟩ := by
  cases h with
  | plain hplain => exact hplain.stands
  | held hheld => exact hheld.stands
  | altPlain _ hplain => exact AltComposed.stands_new rfl hplain.stands
  | altHeld _ hheld => exact AltComposedHolder.stands_new rfl hheld.stands

/-- What the tower sends with success has landed, step by step and as a whole. -/
theorem delivered {ω : Type} {T : TowerClient ω} {landed : ω → List AtomicIxBatch}
    (hconfirms : T.Confirms landed) {tx : BuiltTx}
    (hbuilt : buildTx C a b resource fee rlp hash = .ok tx) {es : Nat → CallAnswers}
    (hvm : ∀ n, (es n).ReportsVm C.crates) {payer : Pubkey} {fuel : Nat} {chain : ω}
    {sigs : List Signature} {s : SendState ω (BuiltTx × (Nat → CallAnswers))}
    (hsend : T.sendAndConfirmTxIterable (answering (BuiltTx.call C.toTxCrates)) payer fuel (tx, es)
      chain = (some (.ok sigs), s)) :
    ∃ steps, Lands (landed chain) steps (landed s.chain) ∧
      Brings C.toTxCrates b resource fee rlp hash (batchesOf steps) := by
  have hmakes := buildTx_ok hbuilt
  have hhands : ∀ (s : BuiltTx × (Nat → CallAnswers)) sent,
      (BuiltTx.Stage C.toTxCrates tx s.1 sent ∧ ∀ n, (s.2 n).ReportsVm C.crates) →
      Hands (answering (BuiltTx.call C.toTxCrates)) (tx.Whole C.toTxCrates)
        (fun s sent => BuiltTx.Stage C.toTxCrates tx s.1 sent ∧ ∀ n, (s.2 n).ReportsVm C.crates) s
        sent := by
    intro ⟨tx', es'⟩ sent ⟨hstage, hvm'⟩
    refine (hstage.hands (hvm' 0)).answering.mono (fun _ => id) fun s sent hnext => ?_
    refine ⟨hnext.1, fun n => ?_⟩
    rw [hnext.2]
    exact hvm' (n + 1)
  have hstart : Lands.So (landed chain) ⟨false, false⟩ [] (landed chain) :=
    ⟨fun _ => .start, by simp⟩
  obtain ⟨steps, hlands, hwhole⟩ := TowerClient.sendLoop_lands hconfirms
    (Disciplined.answering BuiltTx.disciplined) hhands fuel hmakes.stands ⟨hmakes.stage, hvm⟩
    hstart hsend
  exact ⟨steps, hlands, hmakes.brings hwhole⟩

/-- A chain that takes all it is sent, with its slot. -/
def takesAll : TowerClient (List AtomicIxBatch × Slot) where
  sendAndConfirm batch _ _ := fun chain => .ok [] (chain.1 ++ [batch], chain.2)
  sendAndConfirmWithSigners batch _ _ := fun chain => .ok [] (chain.1 ++ [batch], chain.2)
  getSlot := fun chain => .ok chain.2 (chain.1, chain.2 + 1)

theorem takesAll_confirms : takesAll.Confirms Prod.fst where
  sent h := by
    cases h
    exact ⟨_, rfl, List.mem_singleton_self _⟩
  gaveUp h := by cases h
  sentWithSigners h := by
    cases h
    exact ⟨_, rfl, List.mem_singleton_self _⟩
  asked h := by
    cases h
    exact ⟨[], (List.append_nil _).symm⟩

/-- Thirty accounts, and a request that is too long, on a chain that has to wait two slots for
the table. -/
theorem delivered_table_and_holder : ∃ tx sigs s, buildTx builderStandIns
      (emulatedWith (List.replicate 30 (11, false))) (transmitOf []).txBuilder
      (transmitOf []).resource [0] [42, 43] 9 = .ok tx ∧
    takesAll.sendAndConfirmTxIterable (answering (BuiltTx.call RetriedTx.txStandIns)) 3 10
      (tx, fun _ => RetriedTx.answered) ([], 99) = (some (.ok sigs), s) ∧ sigs.length = 5 ∧
    ∃ steps, Lands [] steps s.chain.1 ∧
      Brings RetriedTx.txStandIns (transmitOf []).txBuilder (transmitOf []).resource [0] [42, 43] 9
        (batchesOf steps) :=
  ⟨_, _, _, rfl, rfl, rfl, delivered (C := builderStandIns)
    (a := emulatedWith (List.replicate 30 (11, false))) takesAll_confirms rfl
    (fun _ => RetriedTx.reportsVm_answered)
    (show takesAll.sendAndConfirmTxIterable _ 3 10 (_, fun _ => RetriedTx.answered) ([], 99) = _
      from rfl)⟩

end TxBuilder

end RomeSdk
