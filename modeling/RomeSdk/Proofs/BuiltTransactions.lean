import RomeSdk.Proofs.ComposedSteps

/-!
# What the builder builds, brings the transaction

Whichever machine `build_tx` picks, it brings the rlp it was given to the program: in one
instruction, in numbered copies of one, or in chunks that are put into the holder before an
instruction that names their hash. A lookup table only puts its own instructions before
these. `Brings` says so of a list of batches, and `built_brings` of the machine: a caller
that does not come back after a failure sees no panic, and no `End` before all of it was
handed out.
-/

namespace RomeSdk

open EStateM

/-! ## The machines that may be boxed -/

namespace Iterable

/-- What the transaction hands out in all. -/
def Whole (K : TxCrates) (tx : Iterable) (sent : List AtomicIxBatch) : Prop :=
  ∃ steps, batchesOf steps = sent ∧ match tx with
    | .atomicTx tx => (AtomicTx.retried K).Execution tx steps
    | .atomicTxHolder tx => (AtomicTxHolder.retried K).Execution tx steps
    | .iterativeTx tx => (IterativeTx.retried K).Execution tx steps
    | .iterativeTxHolder tx => (IterativeTxHolder.retried K).Execution tx steps

/-- How far it is. -/
inductive Stage (K : TxCrates) : Iterable → Iterable → List AtomicIxBatch → Prop
  | atomicTx {tx₀ tx : AtomicTx} {steps : List IxExecStepBatch} :
      AtomicTx.Progress K tx₀ tx steps →
      Stage K (.atomicTx tx₀) (.atomicTx tx) (batchesOf steps)
  | atomicTxHolder {t : TransmitTx} {fee : Bytes} {useAlt : Bool} {tx : AtomicTxHolder}
      {steps : List IxExecStepBatch} : AtomicTxHolder.Progress K t fee useAlt tx steps →
      Stage K (.atomicTxHolder (.new ⟨t, .init⟩ fee useAlt)) (.atomicTxHolder tx) (batchesOf steps)
  | iterativeTx {tx₀ tx : IterativeTx} {steps : List IxExecStepBatch} :
      IterativeTx.Progress K tx₀ tx steps →
      Stage K (.iterativeTx tx₀) (.iterativeTx tx) (batchesOf steps)
  | iterativeTxHolder {t : TransmitTx} {session : UInt64} {fee : Bytes} {useAlt : Bool}
      {tx : IterativeTxHolder} {steps : List IxExecStepBatch} :
      IterativeTxHolder.Progress K t session fee useAlt tx steps →
      Stage K (.iterativeTxHolder (.new ⟨t, .init⟩ session fee useAlt)) (.iterativeTxHolder tx)
        (batchesOf steps)

variable {K : TxCrates} {tx₀ tx : Iterable} {sent : List AtomicIxBatch} {e : CallAnswers}

/-- A call in which `f` is done to the call of an atomic transaction and `g` to that of an
iterative one. -/
def callBy (K : TxCrates) (e : CallAnswers)
    (f g : ∀ τ : Type, EStateM Failure τ IxExecStepBatch → EStateM Failure τ IxExecStepBatch) :
    EStateM Failure Iterable IxExecStepBatch
  | .atomicTx tx => within .atomicTx (f _ (AtomicTx.call K e)) tx
  | .atomicTxHolder tx => within .atomicTxHolder (f _ (AtomicTxHolder.call K e)) tx
  | .iterativeTx tx => within .iterativeTx (g _ (IterativeTx.call K e)) tx
  | .iterativeTxHolder tx => within .iterativeTxHolder (g _ (IterativeTxHolder.call K e)) tx

theorem call_eq_callBy : call K e = callBy K e (fun _ x => x) fun _ x => x := by
  funext tx
  cases tx <;> rfl

theorem callWithVersion_eq_callBy (version : TxVersion) : callWithVersion K e version
    = callBy K e (fun _ x => advanceWithVersion x version)
        fun _ x => advanceWithVersionIt x version := by
  funext tx
  cases tx <;> rfl

/-- What keeps `Hands` of the single calls keeps it of all. -/
theorem Stage.hands_callBy (h : Stage K tx₀ tx sent) (hvm : e.ReportsVm K.crates)
    {f g : ∀ τ : Type, EStateM Failure τ IxExecStepBatch → EStateM Failure τ IxExecStepBatch}
    (hf : ∀ τ x Whole P (tx : τ) sent, Hands x Whole P tx sent → Hands (f τ x) Whole P tx sent)
    (hg : ∀ τ x Whole P (tx : τ) sent, Hands x Whole P tx sent → Hands (g τ x) Whole P tx sent) :
    Hands (callBy K e f g) (tx₀.Whole K) (Stage K tx₀) tx sent := by
  cases h with
  | atomicTx hprogress =>
      have hhands := hf _ _ _ _ _ _ (Hands.of_advances (hprogress.advances e))
      refine (hhands.mono (fun sent hw => ?_) fun _ _ => id).variant rfl fun t sent hP => ?_
      · obtain ⟨steps, hexecution, rfl⟩ := hw
        exact ⟨steps, rfl, hexecution⟩
      · obtain ⟨steps, hnext, rfl⟩ := hP
        exact .atomicTx hnext
  | atomicTxHolder hprogress =>
      have hhands := hf _ _ _ _ _ _ (Hands.of_advances (hprogress.advances e))
      refine (hhands.mono (fun sent hw => ?_) fun _ _ => id).variant rfl fun t sent hP => ?_
      · obtain ⟨steps, hexecution, rfl⟩ := hw
        exact ⟨steps, rfl, hexecution⟩
      · obtain ⟨steps, hnext, rfl⟩ := hP
        exact .atomicTxHolder hnext
  | iterativeTx hprogress =>
      have hhands := hg _ _ _ _ _ _ (Hands.of_advances (hprogress.advances hvm))
      refine (hhands.mono (fun sent hw => ?_) fun _ _ => id).variant rfl fun t sent hP => ?_
      · obtain ⟨steps, hexecution, rfl⟩ := hw
        exact ⟨steps, rfl, hexecution⟩
      · obtain ⟨steps, hnext, rfl⟩ := hP
        exact .iterativeTx hnext
  | iterativeTxHolder hprogress =>
      have hhands := hg _ _ _ _ _ _ (Hands.of_advances (hprogress.advances hvm))
      refine (hhands.mono (fun sent hw => ?_) fun _ _ => id).variant rfl fun t sent hP => ?_
      · obtain ⟨steps, hexecution, rfl⟩ := hw
        exact ⟨steps, rfl, hexecution⟩
      · obtain ⟨steps, hnext, rfl⟩ := hP
        exact .iterativeTxHolder hnext

theorem Stage.hands (h : Stage K tx₀ tx sent) (hvm : e.ReportsVm K.crates) :
    Hands (call K e) (tx₀.Whole K) (Stage K tx₀) tx sent := by
  rw [call_eq_callBy]
  exact h.hands_callBy hvm (fun _ _ _ _ _ _ => id) fun _ _ _ _ _ _ => id

theorem Stage.hands_version (h : Stage K tx₀ tx sent) (hvm : e.ReportsVm K.crates)
    (version : TxVersion) :
    Hands (callWithVersion K e version) (tx₀.Whole K) (Stage K tx₀) tx sent := by
  rw [callWithVersion_eq_callBy]
  exact h.hands_callBy hvm (fun _ _ _ _ _ _ h => h.withVersion version)
    fun _ _ _ _ _ _ h => h.withVersionIt version

end Iterable

/-! ## What is boxed in what -/

namespace BuiltTx

/-- What the transaction hands out in all. -/
def Whole (K : TxCrates) : BuiltTx → List AtomicIxBatch → Prop
  | .iterable tx => tx.Whole K
  | .altComposed tx => AltComposed.Composed K tx.altTx (tx.iterableTx.Whole K)
  | .altComposedHolder tx =>
      AltComposedHolder.Composed K tx.altTx tx.transmitTx.toTransmitTx (tx.iterableTx.Whole K)

/-- How far it is. -/
inductive Stage (K : TxCrates) : BuiltTx → BuiltTx → List AtomicIxBatch → Prop
  | iterable {tx₀ tx : Iterable} {sent : List AtomicIxBatch} : Iterable.Stage K tx₀ tx sent →
      Stage K (.iterable tx₀) (.iterable tx) sent
  | altComposed {tx₀ tx : AltComposed Iterable} {keys : List Pubkey} {sent : List AtomicIxBatch} :
      tx₀.altTx.keys = some keys → keys ≠ [] →
      AltComposed.Stage K tx₀.altTx (Iterable.Stage K tx₀.iterableTx) tx sent →
      Stage K (.altComposed tx₀) (.altComposed tx) sent
  | altComposedHolder {tx₀ tx : AltComposedHolder Iterable} {keys : List Pubkey}
      {sent : List AtomicIxBatch} : tx₀.altTx.keys = some keys → keys ≠ [] →
      AltComposedHolder.Stage K tx₀.altTx tx₀.transmitTx.toTransmitTx
        (Iterable.Stage K tx₀.iterableTx) tx sent →
      Stage K (.altComposedHolder tx₀) (.altComposedHolder tx) sent

variable {K : TxCrates} {tx₀ tx : BuiltTx} {sent : List AtomicIxBatch} {e : CallAnswers}

theorem Stage.hands (h : Stage K tx₀ tx sent) (hvm : e.ReportsVm K.crates) :
    Hands (call K e) (tx₀.Whole K) (Stage K tx₀) tx sent := by
  cases h with
  | iterable hstage => exact (hstage.hands hvm).variant rfl fun _ _ => .iterable
  | altComposed hkeys hsome hstage =>
      refine (hstage.hands hkeys hsome fun version _ _ h => ?_).variant rfl
        fun _ _ => .altComposed hkeys hsome
      exact h.hands_version hvm version
  | altComposedHolder hkeys hsome hstage =>
      refine (hstage.hands hkeys hsome fun version _ _ h => ?_).variant rfl
        fun _ _ => .altComposedHolder hkeys hsome
      exact h.hands_version hvm version

end BuiltTx

/-! ## Runs -/

/-- The batches of the answers. -/
def handed (answers : List (Outcome IxExecStepBatch)) : List AtomicIxBatch :=
  answers.flatMap fun a => match a with
    | .ok step => step.sent
    | .error _ => []

theorem handed_concat_ok (answers : List (Outcome IxExecStepBatch)) (step : IxExecStepBatch) :
    handed (answers ++ [.ok step]) = handed answers ++ step.sent := by
  rw [handed, List.flatMap_append]
  exact congrArg (handed answers ++ ·) (List.flatMap_singleton ..)

/-- No panic, and no `End` before all of it was handed out. -/
def EndMeansHanded (Whole : List AtomicIxBatch → Prop) : List (Outcome IxExecStepBatch) → Prop :=
  EachAnswer fun before a => (∀ message, a ≠ .error (.panic message)) ∧
    (a = .ok .end_ → Whole (handed before))

/-- A transaction that hands out its batches call by call, until a call fails. -/
theorem endMeansHanded {τ : Type} {call : CallAnswers → EStateM Failure τ IxExecStepBatch}
    {Whole : List AtomicIxBatch → Prop} {P : τ → List AtomicIxBatch → Prop} {tx₀ : τ}
    {finds : CallAnswers → Prop} (hstart : P tx₀ [])
    (hhands : ∀ tx sent e, P tx sent → finds e → Hands (call e) Whole P tx sent)
    {tr : List ((τ × List (Outcome IxExecStepBatch)) × CallAnswers)}
    {s : τ × List (Outcome IxExecStepBatch)} (hrun : Machine.Run (retrying call tx₀) tr s)
    (hfinds : Machine.Meets (fun _ e => finds e) tr)
    (hkept : Machine.Meets (fun s e => ¬ ∃ f t, call e s.1 = .error f t) tr.dropLast) :
    EndMeansHanded Whole s.2 := by
  suffices hkeeps : Keeps call (fun tx answers => P tx (handed answers))
      (fun before a => (∀ message, a ≠ .error (.panic message)) ∧
        (a = .ok .end_ → Whole (handed before))) (fun _ e => finds e)
      (fun tx e => ∃ f t, call e tx = .error f t) from
    eachAnswer hstart hkeeps hrun hfinds hkept
  intro tx answers e hP he
  cases hhands tx (handed answers) e hP he with
  | @goes step t hcall hne hnext =>
      refine ⟨_, _, goes_ok hcall, ⟨by simp, fun h => absurd (Except.ok.inj h) hne⟩, fun _ => ?_⟩
      show P t (handed (answers ++ [.ok step]))
      rw [handed_concat_ok]
      exact hnext
  | @ends t hcall hwhole hnext =>
      refine ⟨_, _, goes_ok hcall, ⟨by simp, fun _ => hwhole⟩, fun _ => ?_⟩
      show P t (handed (answers ++ [.ok .end_]))
      rw [handed_concat_ok]
      show P t (handed answers ++ [])
      rw [List.append_nil]
      exact hnext
  | fails hcall =>
      exact ⟨_, _, goes_error hcall, ⟨by simp, by simp⟩, fun hkept => absurd ⟨_, _, hcall⟩ hkept⟩

/-! ## What the builder makes -/

/-- The transaction itself, in batches for the program. -/
inductive Carries (K : TxCrates) (b : TxBuilder) (resource : Resource) (fee rlp : Bytes)
    (hash : TxHash) : List AtomicIxBatch → Prop
  /-- in one instruction -/
  | doTx (accounts : List (Pubkey × Bool)) : Carries K b resource fee rlp hash
      [K.newComposibleOwned (b.buildIx accounts (K.crates.romeEvm.tag .doTx :: (fee ++ rlp)))]
  /-- in numbered copies of one -/
  | doTxIterative (session : UInt64) (emulation : Emulation) (copies : UInt64) :
      Carries K b resource fee rlp hash ((List.range copies.toNat).map fun unique =>
        K.newComposibleOwned (b.buildIx emulation.accounts
          ((IterativeTx.new K.crates b resource fee rlp session).txData K.crates emulation unique)))
  /-- in chunks for the holder, before one instruction that names their hash -/
  | doTxHolder {C : List (Nat × Bytes)} (chunkAccounts accounts : List (Pubkey × Bool)) :
      TransmitTx.Cuts rlp C → Carries K b resource fee rlp hash
        (C.map (fun c => [b.buildIx chunkAccounts
            (TransmitTx.txData K.crates ⟨b, rlp, hash, resource⟩ c.1 c.2)]) ++
          [K.newComposibleOwned (b.buildIx accounts
            ((AtomicTxHolder.new ⟨⟨b, rlp, hash, resource⟩, .init⟩ fee true).txData K.crates))])
  /-- in chunks for the holder, before numbered copies of one that names their hash -/
  | doTxHolderIterative {C : List (Nat × Bytes)} (chunkAccounts : List (Pubkey × Bool))
      (session : UInt64) (emulation : Emulation) (copies : UInt64) :
      TransmitTx.Cuts rlp C → Carries K b resource fee rlp hash
        (C.map (fun c => [b.buildIx chunkAccounts
            (TransmitTx.txData K.crates ⟨b, rlp, hash, resource⟩ c.1 c.2)]) ++
          (List.range copies.toNat).map fun unique =>
            K.newComposibleOwned (b.buildIx emulation.accounts
              ((IterativeTxHolder.new ⟨⟨b, rlp, hash, resource⟩, .init⟩ session fee true).txData
                K.crates emulation unique)))

/-- The transaction, behind the instructions of a lookup table where there is one. -/
def Brings (K : TxCrates) (b : TxBuilder) (resource : Resource) (fee rlp : Bytes) (hash : TxHash)
    (sent : List AtomicIxBatch) : Prop :=
  Carries K b resource fee rlp hash sent ∨
    ∃ session keys slot table carried, sent = table ++ carried ∧
      AltTx.Whole K ⟨b, resource, session, some keys, slot, .execute, none⟩ table ∧
      Carries K b resource fee rlp hash carried

theorem IterativeCrates.ixs_ok {I : IterativeCrates} {b : TxBuilder} {payer : Pubkey}
    {emulationData : Bytes} {txData : Emulation → Nat → Bytes} {batches : List AtomicIxBatch}
    (h : I.ixs b payer emulationData txData = .ok batches) :
    ∃ (emulation : Emulation) (copies : UInt64), batches = (List.range copies.toNat).map
      fun unique => I.newComposibleOwned (b.buildIx emulation.accounts (txData emulation unique)) := by
  obtain ⟨emulation, _, hrest⟩ := Except.ok_of_bind h
  cases hvm : emulation.vm with
  | none =>
      rw [hvm] at hrest
      cases hrest
  | some count =>
      rw [hvm] at hrest
      cases hrest
      exact ⟨emulation, I.multipleIterations count, rfl⟩

/-- The chunks of a transmission, whoever sends them. -/
theorem AltComposedHolder.Chunks.eq_map {K : TxCrates} {t : TransmitTx}
    {chunks : List AtomicIxBatch} (h : Chunks K t chunks) :
    ∃ (C : List (Nat × Bytes)) (accounts : List (Pubkey × Bool)), TransmitTx.Cuts t.rlp C ∧
      chunks = C.map fun c => [t.txBuilder.buildIx accounts (t.txData K.crates c.1 c.2)] := by
  obtain ⟨steps, ⟨emulate, batches, hbatches, rfl⟩, rfl⟩ := h
  obtain ⟨ixs, hixs, hcut⟩ := Except.ok_of_bind hbatches
  obtain ⟨C, accounts, hC, rfl⟩ := TransmitTx.ixs_eq hixs
  obtain ⟨C', hC', hcuts⟩ := (t.emulatedBy emulate).chunks_cuts
  cases hC.symm.trans hC'
  refine ⟨C, accounts, hcuts, ?_⟩
  have hsteps : batchesOf (batches.map SteppedTransmitTx.batchStep) = batches.flatten := by
    rw [batchesOf, List.flatMap_map]
    exact List.flatMap_id'
  rw [hsteps]
  rw [intoChunks, if_neg (by decide)] at hcut
  cases hcut
  exact intoChunksLoop_flatten (by decide) _ _ (Nat.le_refl _)

namespace TxBuilder

variable {C : BuilderCrates} {a : BuildAnswers} {b : TxBuilder} {resource : Resource}
  {fee rlp : Bytes} {hash : TxHash}

/-- A transaction without a holder, with its instructions in it. -/
inductive Plain (C : BuilderCrates) (b : TxBuilder) (resource : Resource) (fee rlp : Bytes) :
    Iterable → Prop
  | atomicTx {emulate : Bytes → Pubkey → ProgramResult (List (Pubkey × Bool))} {tx : AtomicTx} :
      AtomicTx.emulateIx C.crates C.toComputeBudget
        (.new (b.emulatedBy emulate) rlp resource fee) = .ok () tx →
      Plain C b resource fee rlp (.atomicTx tx)
  | iterativeTx {e : CallAnswers} {session : UInt64} {tx : IterativeTx} :
      IterativeTx.emulateIxs C.crates (e.iterativeCrates C.toTxCrates)
        (.new C.crates b resource fee rlp session) = .ok () tx →
      Plain C b resource fee rlp (.iterativeTx tx)

/-- A transaction that is read from the holder. -/
inductive Held (t : TransmitTx) (fee : Bytes) (useAlt : Bool) : Iterable → Prop
  | atomicTxHolder : Held t fee useAlt (.atomicTxHolder (.new ⟨t, .init⟩ fee useAlt))
  | iterativeTxHolder (session : UInt64) :
      Held t fee useAlt (.iterativeTxHolder (.new ⟨t, .init⟩ session fee useAlt))

/-- The transactions of the builder. -/
inductive Makes (C : BuilderCrates) (a : BuildAnswers) (b : TxBuilder) (resource : Resource)
    (fee rlp : Bytes) (hash : TxHash) : BuiltTx → Prop
  | plain {tx : Iterable} : Plain C b resource fee rlp tx →
      Makes C a b resource fee rlp hash (.iterable tx)
  | held {tx : Iterable} : Held ⟨b, rlp, hash, resource⟩ fee false tx →
      Makes C a b resource fee rlp hash (.iterable tx)
  | altPlain {tx : Iterable} {keys : List Pubkey} {slot : UInt64} : keys ≠ [] →
      Plain C b resource fee rlp tx → Makes C a b resource fee rlp hash
        (.altComposed (.new ⟨b, resource, a.altSession, some keys, slot, .execute, none⟩ tx))
  | altHeld {tx : Iterable} {keys : List Pubkey} {slot : UInt64} : keys ≠ [] →
      Held ⟨b, rlp, hash, resource⟩ fee true tx → Makes C a b resource fee rlp hash
        (.altComposedHolder (.new ⟨b, resource, a.altSession, some keys, slot, .execute, none⟩
          ⟨⟨b, rlp, hash, resource⟩, .init⟩ tx))

theorem ne_nil_of_useAlt {keys : List Pubkey} (h : useAlt keys = true) : keys ≠ [] := by
  rintro rfl
  cases h

theorem altTx_new_ok {keys : List Pubkey} {alt : AltTx} (h : AltTx.new a b resource keys = .ok alt) :
    ∃ slot, alt = ⟨b, resource, a.altSession, some keys, slot, .execute, none⟩ := by
  obtain ⟨slot, _, hrest⟩ := Except.ok_of_bind h
  by_cases hlt : slot < RECENT_SLOT_OFFSET
  · rw [if_pos hlt] at hrest
    cases hrest
  · rw [if_neg hlt] at hrest
    cases hrest
    exact ⟨_, rfl⟩

theorem composeIterable_ok {ix : AtomicIxBatch} {iterable : Iterable} {isAtomic : Bool}
    {tx : BuiltTx} (hplain : Plain C b resource fee rlp iterable)
    (h : composeIterable C a b ix resource fee rlp hash iterable isAtomic = .ok tx) :
    Makes C a b resource fee rlp hash tx := by
  obtain ⟨holder, _, hrest⟩ := Except.ok_of_bind h
  cases holder with
  | true =>
      rw [if_pos rfl] at hrest
      have hheld : Held ⟨b, rlp, hash, resource⟩ fee (RomeSdk.useAlt (txKeys ix))
          (if isAtomic then
            .atomicTxHolder (.new ⟨⟨b, rlp, hash, resource⟩, .init⟩ fee (RomeSdk.useAlt (txKeys ix)))
          else .iterativeTxHolder (.new ⟨⟨b, rlp, hash, resource⟩, .init⟩ a.holderSession fee
            (RomeSdk.useAlt (txKeys ix)))) := by
        cases isAtomic with
        | true => exact .atomicTxHolder
        | false => exact .iterativeTxHolder a.holderSession
      cases huse : RomeSdk.useAlt (txKeys ix) with
      | true =>
          rw [huse] at hrest hheld
          obtain ⟨alt, halt, hmade⟩ := Except.ok_of_bind hrest
          obtain ⟨slot, rfl⟩ := altTx_new_ok halt
          cases hmade
          exact .altHeld (ne_nil_of_useAlt huse) hheld
      | false =>
          rw [huse] at hrest hheld
          cases hrest
          exact .held hheld
  | false =>
      rw [if_neg Bool.false_ne_true] at hrest
      cases huse : RomeSdk.useAlt (txKeys ix) with
      | true =>
          rw [huse] at hrest
          obtain ⟨alt, halt, hmade⟩ := Except.ok_of_bind hrest
          obtain ⟨slot, rfl⟩ := altTx_new_ok halt
          cases hmade
          exact .altPlain (ne_nil_of_useAlt huse) hplain
      | false =>
          rw [huse] at hrest
          cases hrest
          exact .plain hplain

theorem buildTx_ok {tx : BuiltTx} (h : buildTx C a b resource fee rlp hash = .ok tx) :
    Makes C a b resource fee rlp hash tx := by
  obtain ⟨emulation, _, hrest⟩ := Except.ok_of_bind h
  cases hix : AtomicTx.emulateIx C.crates C.toComputeBudget
      (.new (b.emulatedBy (a.call C).accounts) rlp resource fee) with
  | error f t =>
      simp only [hix] at hrest
      cases hrest
  | ok _ atomicTx =>
      simp only [hix] at hrest
      cases hatomic : emulation.isAtomic with
      | true =>
          rw [hatomic, if_pos rfl] at hrest
          cases hbatch : atomicTx.ix with
          | none =>
              simp only [hbatch] at hrest
              cases hrest
          | some ix =>
              simp only [hbatch] at hrest
              exact composeIterable_ok (.atomicTx hix) hrest
      | false =>
          rw [hatomic, if_neg Bool.false_ne_true] at hrest
          cases hixs : IterativeTx.emulateIxs C.crates ((a.call C).iterativeCrates C.toTxCrates)
              (.new C.crates b resource fee rlp a.session) with
          | error f t =>
              simp only [hixs] at hrest
              cases hrest
          | ok _ iterativeTx =>
              simp only [hixs] at hrest
              cases hlast : iterativeTx.ixs.bind List.getLast? with
              | none =>
                  simp only [hlast] at hrest
                  cases hrest
              | some ix =>
                  simp only [hlast] at hrest
                  exact composeIterable_ok (.iterativeTx hixs) hrest

/-! ## What it hands out -/

variable {tx : Iterable} {carried chunks : List AtomicIxBatch}

theorem Plain.carries (h : Plain C b resource fee rlp tx) (hwhole : tx.Whole C.toTxCrates carried) :
    Carries C.toTxCrates b resource fee rlp hash carried := by
  obtain ⟨steps, rfl, hexecution⟩ := hwhole
  cases h with
  | @atomicTx emulate tx hbuilt =>
      obtain ⟨ix, ⟨accounts, rfl⟩, rfl⟩ := hexecution
      cases hemulate : emulate (AtomicTx.txData C.crates (.new b rlp resource fee))
          resource.payerKey with
      | error f => cases (AtomicTx.emulateIx_error hemulate).symm.trans hbuilt
      | ok found =>
          cases (AtomicTx.emulateIx_ok hemulate).symm.trans hbuilt
          exact .doTx accounts
  | @iterativeTx e session tx hbuilt =>
      obtain ⟨e', batches, hbatches, rfl⟩ := hexecution
      cases hixs : IterativeTx.built C.crates (e.iterativeCrates C.toTxCrates)
          (.new C.crates b resource fee rlp session) with
      | error f => cases (IterativeTx.emulateIxs_error hixs).symm.trans hbuilt
      | ok ixs =>
          cases (IterativeTx.emulateIxs_ok hixs).symm.trans hbuilt
          obtain ⟨emulation, copies, rfl⟩ := IterativeCrates.ixs_ok hbatches
          have hcarries : Carries C.toTxCrates b resource fee rlp hash _ :=
            .doTxIterative session emulation copies
          rw [batchesOf, List.flatMap_singleton]
          exact hcarries

/-- Behind the chunks, whoever sent them. -/
theorem Held.carries (h : Held ⟨b, rlp, hash, resource⟩ fee true tx)
    (hchunks : AltComposedHolder.Chunks C.toTxCrates ⟨b, rlp, hash, resource⟩ chunks)
    (hwhole : tx.Whole C.toTxCrates carried) :
    Carries C.toTxCrates b resource fee rlp hash (chunks ++ carried) := by
  obtain ⟨steps, rfl, hexecution⟩ := hwhole
  obtain ⟨C', chunkAccounts, hcuts, rfl⟩ := hchunks.eq_map
  cases h with
  | atomicTxHolder =>
      obtain ⟨_, accounts, rfl, rfl⟩ := hexecution
      exact .doTxHolder chunkAccounts accounts hcuts
  | iterativeTxHolder session =>
      obtain ⟨_, e, ixs, rfl, hixs, rfl⟩ := hexecution
      obtain ⟨emulation, copies, rfl⟩ := IterativeCrates.ixs_ok hixs
      rw [List.nil_append, batchesOf, List.flatMap_singleton]
      exact .doTxHolderIterative chunkAccounts session emulation copies hcuts

/-- A transaction that transmits itself sends what it sends behind the chunks of another. -/
theorem Held.whole_cases (h : Held ⟨b, rlp, hash, resource⟩ fee false tx)
    (hwhole : tx.Whole C.toTxCrates carried) : ∃ chunks payload tx',
      carried = chunks ++ payload ∧ Held ⟨b, rlp, hash, resource⟩ fee true tx' ∧
      AltComposedHolder.Chunks C.toTxCrates ⟨b, rlp, hash, resource⟩ chunks ∧
      tx'.Whole C.toTxCrates payload := by
  obtain ⟨steps, rfl, hexecution⟩ := hwhole
  cases h with
  | atomicTxHolder =>
      obtain ⟨transmitted, accounts, htransmitted, rfl⟩ := hexecution
      exact ⟨_, _, _, batchesOf_append _ _, .atomicTxHolder, ⟨transmitted, htransmitted, rfl⟩,
        _, rfl, [], accounts, rfl, rfl⟩
  | iterativeTxHolder session =>
      obtain ⟨transmitted, e, ixs, htransmitted, hixs, rfl⟩ := hexecution
      exact ⟨_, _, _, batchesOf_append _ _, .iterativeTxHolder session,
        ⟨transmitted, htransmitted, rfl⟩, _, rfl, [], e, ixs, rfl, hixs, rfl⟩

theorem Makes.brings {tx : BuiltTx} {sent : List AtomicIxBatch}
    (h : Makes C a b resource fee rlp hash tx) (hwhole : tx.Whole C.toTxCrates sent) :
    Brings C.toTxCrates b resource fee rlp hash sent := by
  cases h with
  | plain hplain => exact .inl (hplain.carries hwhole)
  | held hheld =>
      obtain ⟨chunks, payload, tx', rfl, hheld', hchunks, hpayload⟩ := hheld.whole_cases hwhole
      exact .inl (hheld'.carries hchunks hpayload)
  | altPlain _ hplain =>
      obtain ⟨table, carried, htable, hcarried, rfl⟩ := hwhole
      exact .inr ⟨_, _, _, table, carried, rfl, htable, hplain.carries hcarried⟩
  | altHeld _ hheld =>
      obtain ⟨table, chunks, carried, htable, hchunks, hcarried, rfl⟩ := hwhole
      exact .inr ⟨_, _, _, table, _, List.append_assoc .., htable, hheld.carries hchunks hcarried⟩

theorem Plain.stage (h : Plain C b resource fee rlp tx) :
    Iterable.Stage C.toTxCrates tx tx [] := by
  cases h with
  | @atomicTx emulate tx hbuilt =>
      have hstart : AtomicTx.Progress C.toTxCrates tx tx [] := by
        cases hemulate : emulate (AtomicTx.txData C.crates (.new b rlp resource fee))
            resource.payerKey with
        | error f => cases (AtomicTx.emulateIx_error hemulate).symm.trans hbuilt
        | ok found =>
            cases (AtomicTx.emulateIx_ok hemulate).symm.trans hbuilt
            refine .execute fun batch hbatch => ?_
            cases hbatch
            exact ⟨found, rfl⟩
      exact .atomicTx hstart
  | @iterativeTx e session tx hbuilt =>
      have hstart : IterativeTx.Progress C.toTxCrates tx tx [] := by
        cases hixs : IterativeTx.built C.crates (e.iterativeCrates C.toTxCrates)
            (.new C.crates b resource fee rlp session) with
        | error f => cases (IterativeTx.emulateIxs_error hixs).symm.trans hbuilt
        | ok ixs =>
            cases (IterativeTx.emulateIxs_ok hixs).symm.trans hbuilt
            refine .execute fun batches hbatches => ?_
            cases hbatches
            exact ⟨e, hixs⟩
      exact .iterativeTx hstart

theorem Held.stage {t : TransmitTx} {useAlt : Bool} (h : Held t fee useAlt tx) (K : TxCrates) :
    Iterable.Stage K tx tx [] := by
  cases h with
  | atomicTxHolder =>
      have hstart : AtomicTxHolder.Progress K t fee useAlt (.new ⟨t, .init⟩ fee useAlt) [] := by
        cases useAlt with
        | false => exact .transmit rfl (.init t.txBuilder.emulate)
        | true => exact .execute rfl
      exact .atomicTxHolder hstart
  | iterativeTxHolder session =>
      have hstart : IterativeTxHolder.Progress K t session fee useAlt
          (.new ⟨t, .init⟩ session fee useAlt) [] := by
        cases useAlt with
        | false => exact .transmit rfl (.init t.txBuilder.emulate)
        | true => exact .execute rfl
      exact .iterativeTxHolder hstart

theorem Makes.stage {tx : BuiltTx} (h : Makes C a b resource fee rlp hash tx) :
    BuiltTx.Stage C.toTxCrates tx tx [] := by
  cases h with
  | plain hplain => exact .iterable hplain.stage
  | held hheld => exact .iterable (hheld.stage _)
  | altPlain hsome hplain =>
      exact .altComposed rfl hsome (.alt (.execute b.emulate rfl) hplain.stage)
  | altHeld hsome hheld =>
      exact .altComposedHolder rfl hsome
        (.first rfl (.execute b.emulate rfl) (.init b.emulate) (hheld.stage _))

/-- Every request is too long to be sent. -/
def builderStandIns : BuilderCrates where
  toTxCrates := RetriedTx.txStandIns
  REVERT_ERROR := [8, 195, 121, 160]
  REVERT_PANIC := [78, 72, 123, 113]
  decodeString _ := none
  decodeUint _ := none
  requestLen _ _ _ := .ok 1200

/-- An atomic transaction with `accounts`. -/
def emulatedWith (accounts : List (Pubkey × Bool)) : BuildAnswers where
  emulate _ _ := .ok ⟨accounts, true, some ⟨.succeed, none, 1⟩, []⟩
  getSlot := .ok 100
  session := 5
  holderSession := 6
  altSession := 77

end TxBuilder

end RomeSdk
