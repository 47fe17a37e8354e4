import RomeSdk.Proofs.StepOrder
import RomeSdk.Sdk.Rome

/-!
# Which signatures a sent transaction has

What a step sends comes to its signatures in two ways. A batch whose transactions have to
succeed gives them at once, or ends the call; the results of an unchecked one are put aside
until the transaction is confirmed. So nothing is lost as long as a confirmation follows each
unchecked batch before anything else is handed out, and the machines keep this order.

The list is empty only where nothing had to succeed. All machines hand out something that
has to before they end, except the iterative ones that have neither a lookup table nor
anything to transmit: the chain may say that they are through when every send was given up.
-/

namespace RomeSdk

open EStateM

/-! ## What the tower makes of the steps -/

theorem signatures_append (l l' : List (ClientResult Signature)) :
    signatures (l ++ l') = signatures l ++ signatures l' := List.filterMap_append

theorem mem_signatures {l : List (ClientResult Signature)} {sig : Signature} :
    sig ∈ signatures l ↔ .ok sig ∈ l := by
  induction l with
  | nil => simp [signatures]
  | cons result l ih =>
      have hcons := signatures_append [result] l
      rw [List.singleton_append] at hcons
      rw [hcons, List.mem_append, ih, List.mem_cons]
      cases result <;> simp [signatures, Except.toOption]

/-- A batch without an error is as many signatures. -/
theorem eq_map_ok {results : List (ClientResult Signature)} :
    ∀ {sigs : List Signature}, results.mapM id = .ok sigs → results = sigs.map Except.ok := by
  induction results with
  | nil =>
      intro sigs h
      cases h
      rfl
  | cons result results ih =>
      intro sigs h
      rw [List.mapM_cons] at h
      obtain ⟨sig, hsig, h⟩ := Except.ok_of_bind h
      obtain ⟨rest, hrest, h⟩ := Except.ok_of_bind h
      cases h
      rw [List.map_cons, ← ih hrest]
      exact congrArg (· :: results) hsig

theorem signatures_map_ok (sigs : List Signature) : signatures (sigs.map Except.ok) = sigs := by
  induction sigs with
  | nil => rfl
  | cons sig sigs ih =>
      show sig :: signatures (sigs.map Except.ok) = sig :: sigs
      rw [ih]

namespace TowerClient

variable {ω : Type} {T : TowerClient ω} {payer : Pubkey} {version : TxVersion}
  {batches : List AtomicIxBatch} {chain : ω}

theorem length_sendAll :
    (T.sendAll payer version batches chain).1.length = batches.length := by
  induction batches generalizing chain with
  | nil => rfl
  | cons batch batches ih =>
      rw [sendAll]
      cases T.sendAndConfirm batch payer version chain with
      | ok sig chain => exact congrArg (· + 1) ih
      | error e chain => exact congrArg (· + 1) ih

theorem sendAll_ne_nil {sigs : List Signature}
    (h : (T.sendAll payer version batches chain).1.mapM id = .ok sigs) (hne : batches ≠ []) :
    sigs ≠ [] := by
  intro hnil
  have hresults : (T.sendAll payer version batches chain).1 = [] := by
    rw [eq_map_ok h, hnil, List.map_nil]
  have hlength := congrArg List.length hresults
  rw [length_sendAll] at hlength
  exact hne (List.eq_nil_of_length_eq_zero hlength)

end TowerClient

/-- The signatures are those of what was sent, but for the results that wait. -/
structure Collected {ω τ : Type} (z : Standing) (s : SendState ω τ) : Prop where
  complete : z.waiting = false → s.sigs = signatures s.sent
  waiting : z.waiting = true → s.sigs ++ signatures s.uncheckedSigs = signatures s.sent
  nonempty : z.checked = true → s.sigs ≠ []

namespace Collected

variable {ω τ : Type} {s : SendState ω τ} {c c' : Bool} {results : List (ClientResult Signature)}
  {sigs : List Signature}

theorem begin (chain : ω) (tx : τ) : Collected ⟨false, false⟩ ⟨chain, tx, [], [], []⟩ :=
  ⟨fun _ => rfl, nofun, nofun⟩

/-- The signatures of a batch that went through. -/
theorem went (h : Collected ⟨false, c⟩ s) (hc : c' = true → c = true ∨ sigs ≠ []) (tx : τ)
    (chain : ω) : Collected ⟨false, c'⟩
      { s with
        tx, chain
        sigs := s.sigs ++ sigs
        sent := s.sent ++ sigs.map Except.ok } := by
  refine ⟨fun _ => ?_, nofun, fun hchecked hempty => ?_⟩
  · show s.sigs ++ sigs = signatures (s.sent ++ sigs.map Except.ok)
    rw [signatures_append, signatures_map_ok, h.complete rfl]
  · obtain ⟨hbefore, hnow⟩ := List.append_eq_nil_iff.mp hempty
    rcases hc hchecked with hchecked | hne
    · exact h.nonempty hchecked hbefore
    · exact hne hnow

/-- The results of an unchecked batch are put aside. -/
theorem putAside (h : Collected ⟨false, c⟩ s) (tx : τ) (chain : ω) : Collected ⟨true, c⟩
    { s with
      tx, chain
      uncheckedSigs := results
      sent := s.sent ++ results } := by
  refine ⟨nofun, fun _ => ?_, h.nonempty⟩
  show s.sigs ++ signatures results = signatures (s.sent ++ results)
  rw [signatures_append, h.complete rfl]

theorem confirmed (h : Collected ⟨true, c⟩ s) (tx : τ) : Collected ⟨false, c⟩
    { s with
      tx
      sigs := s.sigs ++ signatures s.uncheckedSigs } := by
  refine ⟨fun _ => h.waiting rfl, nofun, fun hchecked hempty => ?_⟩
  exact h.nonempty hchecked (List.append_eq_nil_iff.mp hempty).1

theorem waited (h : Collected ⟨false, c⟩ s) (tx : τ) (chain : ω) :
    Collected ⟨false, c⟩ { s with tx, chain } :=
  ⟨h.complete, nofun, h.nonempty⟩

end Collected

namespace TowerClient

variable {ω τ : Type} {T : TowerClient ω} {payer : Pubkey}
  {advance : EStateM Failure τ IxExecStepBatch} {must : Prop} {R : τ → Standing → Prop}

/-- When the call ends well, the signatures are those of all that was sent successfully. -/
theorem sendLoop_collected (h : Disciplined advance must R) (fuel : Nat) :
    ∀ {s s' : SendState ω τ} {z : Standing} {sigs : List Signature}, R s.tx z → Collected z s →
      T.sendLoop advance payer fuel s = (some (.ok sigs), s') →
      sigs = signatures s'.sent ∧ (must → sigs ≠ []) := by
  induction fuel with
  | zero =>
      intro s s' z sigs _ _ hsend
      cases hsend
  | succ fuel ih =>
      intro s s' z sigs hR hcollected hsend
      cases hadvance : advance s.tx with
      | error failure tx =>
          rw [sendLoop, hadvance] at hsend
          cases hsend
      | ok step tx =>
          rcases h s.tx z step tx hR hadvance with ⟨rfl, hwaiting, hmust⟩ | ⟨z', hfollows, hR'⟩
          · rw [sendLoop, hadvance] at hsend
            cases hsend
            exact ⟨hcollected.complete hwaiting, fun hm => hcollected.nonempty (hmust hm)⟩
          · rw [sendLoop, hadvance] at hsend
            cases hfollows with
            | single batch version =>
                cases hsent : T.sendAndConfirm batch payer version s.chain with
                | error e chain =>
                    simp only [hsent] at hsend
                    cases hsend
                | ok sig chain =>
                    simp only [hsent] at hsend
                    exact ih hR' (hcollected.went (by simp) tx chain) hsend
            | singleWithSigners batch signers =>
                cases hsent : T.sendAndConfirmWithSigners batch payer signers s.chain with
                | error e chain =>
                    simp only [hsent] at hsend
                    cases hsend
                | ok sig chain =>
                    simp only [hsent] at hsend
                    exact ih hR' (hcollected.went (by simp) tx chain) hsend
            | @parallel _ _ batches version hchecked =>
                cases hcollect : (T.sendAll payer version batches s.chain).1.mapM id with
                | error e =>
                    simp only [hcollect] at hsend
                    cases hsend
                | ok batchSigs =>
                    simp only [hcollect] at hsend
                    have hnonempty := sendAll_ne_nil hcollect
                    rw [eq_map_ok hcollect] at hsend
                    refine ih hR' (hcollected.went (fun hc => ?_) tx _) hsend
                    exact (hchecked hc).imp_right hnonempty
            | parallelUnchecked batches version => exact ih hR' (hcollected.putAside tx _) hsend
            | confirmationIterativeTx confirm =>
                cases confirm with
                | false => cases hsend
                | true => exact ih hR' (hcollected.confirmed tx) hsend
            | waitNextSlot slot =>
                cases hwait : T.waitNextSlot slot fuel s.chain with
                | none =>
                    simp only [hwait] at hsend
                    cases hsend
                | some waited =>
                    obtain ⟨_ | _, chain⟩ := waited
                    · simp only [hwait] at hsend
                      cases hsend
                    · simp only [hwait] at hsend
                      exact ih hR' (hcollected.waited tx chain) hsend

end TowerClient

/-! ## The machines -/

/-- All that is sent are the copies `ixs`, and nobody looks at how they end. -/
def SendsOnly {τ : Type} (advance : EStateM Failure τ IxExecStepBatch) (tx : τ)
    (ixs : List AtomicIxBatch) : Prop :=
  ∃ t, advance tx = .ok (.parallelUnchecked ixs .legacy) t ∧ ∀ step u, advance t = .ok step u →
    (∃ confirm, step = .confirmationIterativeTx confirm) ∧ advance u = .ok .end_ u

namespace IterativeTx

variable {X : Crates} {I : IterativeCrates} {tx : IterativeTx} {ixs : List AtomicIxBatch}

/-- The copies of the instruction, which may have been built in advance. -/
def copies (X : Crates) (I : IterativeCrates) (tx : IterativeTx) : Outcome (List AtomicIxBatch) :=
  match tx.ixs with
  | some ixs => .ok ixs
  | none => tx.built X I

theorem confirms (hstep : tx.step = .confirm) (step : IxExecStepBatch) (u : IterativeTx)
    (h : advance X I tx = .ok step u) :
    (∃ confirm, step = .confirmationIterativeTx confirm) ∧ advance X I u = .ok .end_ u := by
  cases hconfirm : I.confirm tx.txBuilder tx.resource tx.hash tx.session with
  | error e =>
      rw [advance_confirm_error hstep hconfirm] at h
      cases h
  | ok confirm =>
      rw [advance_confirm hstep hconfirm] at h
      cases h
      exact ⟨⟨confirm, rfl⟩, advance_complete rfl⟩

theorem sendsOnly (hstep : tx.step = .execute) :
    (∃ ixs, tx.copies X I = .ok ixs ∧ SendsOnly (advance X I) tx ixs) ∨
      ∃ f t, advance X I tx = .error f t := by
  cases hixs : tx.ixs with
  | some ixs =>
      refine .inl ⟨ixs, by rw [copies, hixs], _, advance_built hstep hixs, confirms rfl⟩
  | none =>
      cases hbuilt : tx.built X I with
      | error f => exact .inr ⟨f, tx, advance_failed hstep hixs hbuilt⟩
      | ok ixs =>
          refine .inl ⟨ixs, ?_, _, advance_emulated hstep hixs hbuilt, confirms rfl⟩
          rw [copies, hixs]
          exact hbuilt

end IterativeTx

namespace IterativeTxHolder

variable {X : Crates} {I : IterativeCrates} {tx : IterativeTxHolder}

theorem confirms (hstep : tx.step = .confirm) (step : IxExecStepBatch) (u : IterativeTxHolder)
    (h : advance X I tx = .ok step u) :
    (∃ confirm, step = .confirmationIterativeTx confirm) ∧ advance X I u = .ok .end_ u := by
  obtain ⟨confirm, hconfirm⟩ := advance_confirm (X := X) (I := I) hstep
  rw [hconfirm] at h
  cases h
  exact ⟨⟨confirm, rfl⟩, advance_end rfl⟩

/-- With nothing to transmit it is as if there were no holder. -/
theorem sendsOnly (hstep : tx.step = .transmit) (hinit : tx.transmitTx.step = .init)
    (hrlp : tx.transmitTx.rlp = []) :
    (∃ ixs, tx.ixs X I = .ok ixs ∧ SendsOnly (advance X I) tx ixs) ∨
      ∃ f t, advance X I tx = .error f t := by
  cases hbatches : tx.transmitTx.batches X with
  | error f =>
      have herror := SteppedTransmitTx.advance_init_error hinit hbatches
      exact .inr ⟨f, _, advance_transmit_error hstep herror⟩
  | ok batches =>
      obtain rfl := TransmitTx.batches_eq_nil hrlp hbatches
      have hend : SteppedTransmitTx.advance X tx.transmitTx
          = .ok .end_ { tx.transmitTx with step := .complete } := by
        rw [SteppedTransmitTx.advance_init hinit hbatches]
        rfl
      have hadvance := advance_transmitted (I := I) hstep hend
      cases hixs : tx.ixs X I with
      | error f => exact .inr ⟨f, _, hadvance.trans (advanceExecute_error hixs)⟩
      | ok ixs => exact .inl ⟨ixs, rfl, _, hadvance.trans (advanceExecute_ok hixs), confirms rfl⟩

end IterativeTxHolder

/-- The machines the SDK builds, each before its first step. The last argument is there where
nothing has to succeed: the copies of the instruction that are sent then. -/
inductive Built (X : Crates) (A : AltCrates) (I : IterativeCrates) :
    {τ : Type} → EStateM Failure τ IxExecStepBatch → τ → Option (Outcome (List AtomicIxBatch)) →
      Prop
  | atomicTx {tx : AtomicTx} : tx.step = .execute →
      Built X A I (AtomicTx.advance X A.toComputeBudget) tx none
  | iterativeTx {tx : IterativeTx} : tx.step = .execute →
      Built X A I (IterativeTx.advance X I) tx (some (tx.copies X I))
  | atomicTxHolder (t : TransmitTx) (fee : Bytes) :
      Built X A I (AtomicTxHolder.advance X A.toComputeBudget) (.new ⟨t, .init⟩ fee false) none
  | iterativeTxHolder {t : TransmitTx} (session : UInt64) (fee : Bytes) : t.rlp ≠ [] →
      Built X A I (IterativeTxHolder.advance X I) (.new ⟨t, .init⟩ session fee false) none
  | iterativeTxHolderNil {t : TransmitTx} (session : UInt64) (fee : Bytes) : t.rlp = [] →
      Built X A I (IterativeTxHolder.advance X I) (.new ⟨t, .init⟩ session fee false)
        (some (IterativeTxHolder.ixs X I (.new ⟨t, .init⟩ session fee false)))
  | altAtomicTx {alt : AltTx} {tx : AtomicTx} : alt.step = .execute → tx.step = .execute →
      Built X A I (AltComposed.advance A (AtomicTx.advanceTx X A.toComputeBudget))
        (.new alt tx) none
  | altIterativeTx {alt : AltTx} {tx : IterativeTx} : alt.step = .execute → tx.step = .execute →
      Built X A I (AltComposed.advance A (IterativeTx.advanceTx X I)) (.new alt tx) none
  | altAtomicTxHolder {alt : AltTx} (t : TransmitTx) (fee : Bytes) : alt.step = .execute →
      Built X A I (AltComposedHolder.advance X A (AtomicTxHolder.advanceTx X A.toComputeBudget))
        (.new alt ⟨t, .init⟩ (.new ⟨t, .init⟩ fee true)) none
  | altIterativeTxHolder {alt : AltTx} (t : TransmitTx) (session : UInt64) (fee : Bytes) :
      alt.step = .execute →
      Built X A I (AltComposedHolder.advance X A (IterativeTxHolder.advanceTx X I))
        (.new alt ⟨t, .init⟩ (.new ⟨t, .init⟩ session fee true)) none
  | atomicSvm {tx : AtomicSvm} : tx.step = .execute → tx.atomicTx.step = .execute →
      Built X A I (AtomicSvm.advance X A.toComputeBudget) tx none
  | crossRollupTx (instructions : AtomicIxBatch) (payer : Pubkey) :
      Built X A I CrossRollupTx.advance (.new instructions payer) none
  | crossChainTx (instructions : AtomicIxBatch) (payer : Pubkey) (signers : List Pubkey) :
      Built X A I CrossChainTx.advance (.new instructions payer signers) none

namespace Built

variable {τ : Type} {X : Crates} {A : AltCrates} {I : IterativeCrates}
  {advance : EStateM Failure τ IxExecStepBatch} {tx : τ}
  {copies : Option (Outcome (List AtomicIxBatch))}

theorem disciplined (h : Built X A I advance tx copies) :
    ∃ R, Disciplined advance (copies = none) R ∧ R tx ⟨false, false⟩ := by
  cases h with
  | atomicTx hstep =>
      exact ⟨_, AtomicTx.disciplined.weaken fun _ => trivial, AtomicTx.stands_execute hstep⟩
  | iterativeTx hstep =>
      exact ⟨_, IterativeTx.disciplined.weaken (by simp), IterativeTx.stands_execute hstep⟩
  | atomicTxHolder t fee =>
      exact ⟨_, AtomicTxHolder.disciplined.weaken fun _ => trivial,
        AtomicTxHolder.stands_new _ fee false⟩
  | iterativeTxHolder session fee hrlp =>
      exact ⟨_, IterativeTxHolder.disciplined,
        IterativeTxHolder.stands_new session fee fun _ => ⟨rfl, rfl, hrlp⟩⟩
  | iterativeTxHolderNil session fee hrlp =>
      exact ⟨_, IterativeTxHolder.disciplined, IterativeTxHolder.stands_new session fee (by simp)⟩
  | altAtomicTx halt hstep =>
      refine ⟨AltComposed.Stands AtomicTx.Stands, ?_,
        AltComposed.stands_new halt (AtomicTx.stands_execute hstep)⟩
      exact (AltComposed.disciplined fun version =>
        AtomicTx.disciplined.withVersion version).weaken fun _ => trivial
  | altIterativeTx halt hstep =>
      refine ⟨AltComposed.Stands IterativeTx.Stands, ?_,
        AltComposed.stands_new halt (IterativeTx.stands_execute hstep)⟩
      exact (AltComposed.disciplined fun version =>
        IterativeTx.disciplined.withVersionIt version).weaken fun _ => trivial
  | altAtomicTxHolder t fee halt =>
      refine ⟨AltComposedHolder.Stands AtomicTxHolder.Stands, ?_,
        AltComposedHolder.stands_new halt (AtomicTxHolder.stands_new _ fee true)⟩
      exact (AltComposedHolder.disciplined fun version =>
        AtomicTxHolder.disciplined.withVersion version).weaken fun _ => trivial
  | altIterativeTxHolder t session fee halt =>
      refine ⟨AltComposedHolder.Stands (IterativeTxHolder.Stands False), ?_,
        AltComposedHolder.stands_new halt (IterativeTxHolder.stands_new session fee False.elim)⟩
      exact (AltComposedHolder.disciplined fun version =>
        IterativeTxHolder.disciplined.withVersionIt version).weaken fun _ => trivial
  | atomicSvm hstep hatomic =>
      exact ⟨_, AtomicSvm.disciplined.weaken fun _ => trivial, rfl, fun _ => hatomic,
        by simp [hstep]⟩
  | crossRollupTx instructions payer =>
      exact ⟨_, CrossRollupTx.disciplined.weaken fun _ => trivial, rfl,
        by simp [CrossRollupTx.new]⟩
  | crossChainTx instructions payer signers =>
      exact ⟨_, CrossChainTx.disciplined.weaken fun _ => trivial, rfl, by simp [CrossChainTx.new]⟩

/-- Where nothing has to succeed the copies are all that is sent. -/
theorem sendsOnly {c : Outcome (List AtomicIxBatch)} (h : Built X A I advance tx (some c)) :
    (∃ ixs, c = .ok ixs ∧ SendsOnly advance tx ixs) ∨ ∃ f t, advance tx = .error f t := by
  cases h with
  | iterativeTx hstep => exact IterativeTx.sendsOnly hstep
  | iterativeTxHolderNil session fee hrlp => exact IterativeTxHolder.sendsOnly rfl rfl hrlp

end Built

/-! ## A send that ends well -/

namespace TowerClient

variable {ω τ : Type} {T : TowerClient ω} {payer : Pubkey} {fuel : Nat} {chain : ω}
  {advance : EStateM Failure τ IxExecStepBatch} {tx : τ} {sigs : List Signature}
  {s : SendState ω τ}

/-- A call that ends well has seen the copies and their confirmation. -/
theorem sent_of_sendsOnly {ixs : List AtomicIxBatch} (h : SendsOnly advance tx ixs)
    (hsend : T.sendAndConfirmTxIterable advance payer fuel tx chain = (some (.ok sigs), s)) :
    s.sent = (T.sendAll payer .legacy ixs chain).1 := by
  obtain ⟨t, hixs, hconfirms⟩ := h
  rw [sendAndConfirmTxIterable] at hsend
  match fuel with
  | 0 => cases hsend
  | 1 =>
      rw [sendLoop, hixs] at hsend
      cases hsend
  | fuel + 2 =>
      rw [sendLoop, hixs] at hsend
      simp only [sendLoop] at hsend
      cases hadvance : advance t with
      | error f u =>
          rw [hadvance] at hsend
          cases hsend
      | ok step u =>
          obtain ⟨⟨confirm, rfl⟩, hend⟩ := hconfirms step u hadvance
          simp only [hadvance] at hsend
          cases confirm with
          | false => cases hsend
          | true =>
              rw [if_pos rfl] at hsend
              cases fuel with
              | zero => cases hsend
              | succ fuel =>
                  rw [sendLoop] at hsend
                  simp only [hend] at hsend
                  cases hsend
                  rfl

variable {X : Crates} {A : AltCrates} {I : IterativeCrates}

theorem sent_of_built {c : Outcome (List AtomicIxBatch)} (hbuilt : Built X A I advance tx (some c))
    (hsend : T.sendAndConfirmTxIterable advance payer fuel tx chain = (some (.ok sigs), s)) :
    ∃ ixs, c = .ok ixs ∧ s.sent = (T.sendAll payer .legacy ixs chain).1 := by
  rcases hbuilt.sendsOnly with ⟨ixs, hixs, honly⟩ | ⟨f, t, hfails⟩
  · exact ⟨ixs, hixs, sent_of_sendsOnly honly hsend⟩
  · rw [sendAndConfirmTxIterable] at hsend
    cases fuel with
    | zero => cases hsend
    | succ fuel =>
        rw [sendLoop] at hsend
        simp only [hfails] at hsend
        cases hsend

/-- A call that ends well has the signatures of all that was sent successfully, in its order,
and there is one to hand on, just if one of the copies that are sent unchecked goes through,
where it is these only that are sent. -/
theorem sent_signatures_iff {copies : Option (Outcome (List AtomicIxBatch))}
    (hbuilt : Built X A I advance tx copies)
    (hsend : T.sendAndConfirmTxIterable advance payer fuel tx chain = (some (.ok sigs), s)) :
    (sigs ≠ [] ∧ sigs = signatures s.sent ∧
      ∃ sig, Rome.sendAndConfirm T advance payer fuel tx chain = some (.ok sig)) ↔
    ∀ ixs, copies = some (.ok ixs) → ∃ sig, .ok sig ∈ (T.sendAll payer .legacy ixs chain).1 := by
  obtain ⟨R, hdisciplined, hR⟩ := hbuilt.disciplined
  obtain ⟨hsigs, hmust⟩ := sendLoop_collected hdisciplined fuel hR (.begin chain tx) hsend
  refine ⟨fun ⟨hne, _⟩ ixs hcopies => ?_, fun hsome => ?_⟩
  · subst hcopies
    obtain ⟨_, hixs, hsent⟩ := sent_of_built hbuilt hsend
    cases hixs
    rw [hsigs, hsent] at hne
    obtain ⟨sig, hsig⟩ := List.exists_mem_of_ne_nil _ hne
    exact ⟨sig, mem_signatures.mp hsig⟩
  · have hne : sigs ≠ [] := by
      cases copies with
      | none => exact hmust rfl
      | some c =>
          obtain ⟨ixs, hixs, hsent⟩ := sent_of_built hbuilt hsend
          obtain ⟨sig, hsig⟩ := hsome ixs (congrArg some hixs)
          rw [hsigs, hsent]
          exact List.ne_nil_of_mem (mem_signatures.mpr hsig)
    refine ⟨hne, hsigs, sigs.getLast hne, ?_⟩
    rw [Rome.sendAndConfirm, hsend]
    simp [List.getLast?_eq_getLast_of_ne_nil hne]

/-- A chain that counts the transactions it is sent. -/
def towerStandIn (goesThrough : Nat → Bool) : TowerClient Nat where
  sendAndConfirm _ _ _ n :=
    if goesThrough n then .ok [UInt8.ofNat n] (n + 1)
    else .error "unable to confirm transaction" (n + 1)
  sendAndConfirmWithSigners _ _ _ n := .ok [UInt8.ofNat n] (n + 1)
  getSlot n := .ok n n

/-- An emulation that asks for two copies, and an answer that the transaction is through. -/
def iterativeStandIns : IterativeCrates where
  toComputeBudget := AltComposedHolder.altStandIns.toComputeBudget
  emulate _ _ := .ok ⟨[], some 2, []⟩
  multipleIterations count := count
  confirmTxIterative _ _ _ _ _ _ := .ok true

def iterativeOf (rlp : Bytes) : IterativeTx :=
  .new standIns (transmitOf rlp).txBuilder (transmitOf rlp).resource [0] rlp 7

/-- The first copy is given up, the second one goes through. -/
theorem sent_signatures_second : ∃ sigs s,
    (towerStandIn (· = 1)).sendAndConfirmTxIterable
        (IterativeTx.advance standIns iterativeStandIns) 5 4 (iterativeOf [1]) 0
      = (some (.ok sigs), s) ∧
    sigs ≠ [] ∧ sigs = signatures s.sent ∧
      ∃ sig, Rome.sendAndConfirm (towerStandIn (· = 1))
        (IterativeTx.advance standIns iterativeStandIns) 5 4 (iterativeOf [1]) 0
          = some (.ok sig) := by
  refine ⟨[[1]], _, rfl, ?_⟩
  have hbuilt : Built standIns AltComposedHolder.altStandIns iterativeStandIns
      (IterativeTx.advance standIns iterativeStandIns) (iterativeOf [1]) _ := .iterativeTx rfl
  refine (sent_signatures_iff hbuilt rfl).mpr fun ixs hixs => ⟨[1], ?_⟩
  cases hixs
  decide

/-- Both copies are given up, and still the chain says that the transaction is through. -/
theorem no_signature :
    (∃ copies, Built standIns AltComposedHolder.altStandIns iterativeStandIns
      (IterativeTx.advance standIns iterativeStandIns) (iterativeOf [1]) copies) ∧
    ∃ s, (towerStandIn fun _ => false).sendAndConfirmTxIterable
        (IterativeTx.advance standIns iterativeStandIns) 5 4 (iterativeOf [1]) 0
      = (some (.ok []), s) ∧
    Rome.sendAndConfirm (towerStandIn fun _ => false)
        (IterativeTx.advance standIns iterativeStandIns) 5 4 (iterativeOf [1]) 0
      = some (.error (.panic "called `Option::unwrap()` on a `None` value")) :=
  ⟨⟨_, .iterativeTx rfl⟩, _, rfl, rfl⟩

end TowerClient

end RomeSdk
