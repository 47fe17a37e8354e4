import Mathlib.Data.List.Perm.Subperm
import RomeSdk.Proofs.StandIns
import RomeSdk.Proofs.TxSteps
import RomeSdk.Tx.AltComposedHolder

/-!
# The steps of a transaction with a lookup table and a holder

The lookup table has two steps, its instructions and the wait for the next slot;
the transmission has one step for each of its batches. The two go in lockstep, so
the wait comes in the round of the second batch, and where there is one the round
has room for the batch only. From then on the table says that it has ended, and
nobody asks for the wait again.

So the wait is handed out if and only if the transaction fits into one batch. That
the table has keys at all is the other condition: without one there is no
allocation, and the first round panics.
-/

namespace RomeSdk

open EStateM

/-- Every emulation succeeds, with these accounts. -/
def TxBuilder.Emulates (b : TxBuilder) (accounts : Bytes → Pubkey → List (Pubkey × Bool)) : Prop :=
  ∀ data payer, b.emulate data payer = .ok (accounts data payer)

namespace AltTx

/-- The instruction that deallocates the table and those that allocate it, one for
each piece of `data`. -/
def tableBatches (A : AltCrates) (alt : AltTx) (accounts : Bytes → Pubkey → List (Pubkey × Bool))
    (data : List Bytes) : List AtomicIxBatch :=
  let payer := alt.resource.payerKey
  let dealloc := alt.txDataDealloc A
  A.newComposibleOwned (alt.txBuilder.buildIx (accounts dealloc payer) dealloc) ::
    data.map fun x => [alt.txBuilder.buildIx (accounts (data.getLast?.getD []) payer) x]

/-- The table that is found once it is allocated, and the slot it was last extended in. -/
def FindsTable (A : AltCrates) (alt : AltTx) (table : AddressLookupTableAccount) (slot : Slot) :
    Prop :=
  ∃ acc, alt.readAltRawAccount A = .ok (table.key, acc) ∧
    A.deserialize acc = .ok ⟨slot, table.addresses⟩

variable {A : AltCrates} {alt : AltTx} {accounts : Bytes → Pubkey → List (Pubkey × Bool)}
  {emulation : List (Pubkey × Bool)} {keys : List Pubkey} {data : List Bytes} {last : Bytes}
  {table : AddressLookupTableAccount} {slot : Slot}

/-- There is an allocation if and only if there are keys. -/
theorem allocData_eq_nil_iff (h : alt.allocData A keys = .ok data) : data = [] ↔ keys = [] := by
  have hflat : (intoChunksLoop ALT_CHUNK_SIZE keys.length keys).flatten = keys :=
    intoChunksLoop_flatten (by decide) _ _ (Nat.le_refl _)
  rw [allocData, intoChunks, if_neg (by decide)] at h
  cases h
  rw [List.map_eq_nil_iff, List.map_eq_nil_iff]
  constructor
  · intro hnil
    rw [hnil] at hflat
    exact hflat.symm
  · intro hnil
    subst hnil
    rfl

theorem allocData_returns (A : AltCrates) (alt : AltTx) (keys : List Pubkey) :
    ∃ data, alt.allocData A keys = .ok data := by
  rw [allocData, intoChunks, if_neg (by decide)]
  exact ⟨_, rfl⟩

theorem ixDealloc_ok
    (h : alt.txBuilder.emulate (alt.txDataDealloc A) alt.resource.payerKey = .ok emulation) :
    alt.ixDealloc A
      = .ok (A.newComposibleOwned (alt.txBuilder.buildIx emulation (alt.txDataDealloc A))) := by
  rw [ixDealloc, h]
  rfl

theorem ixDealloc_error {f : RomeEvmError}
    (h : alt.txBuilder.emulate (alt.txDataDealloc A) alt.resource.payerKey = .error f) :
    alt.ixDealloc A = .error (.err f) := by
  rw [ixDealloc, h]
  rfl

theorem txDataAlloc_ok (hkeys : alt.keys = some keys) (hdata : alt.allocData A keys = .ok data) :
    txDataAlloc A alt = .ok data { alt with keys := none } := by
  rw [txDataAlloc, get_bind]
  simp only [hkeys]
  rw [set_bind, hdata]
  rfl

theorem ixsAlloc_ok (hkeys : alt.keys = some keys) (hdata : alt.allocData A keys = .ok data)
    (hlast : data.getLast? = some last)
    (h : alt.txBuilder.emulate last alt.resource.payerKey = .ok emulation) :
    ixsAlloc A alt = .ok (data.map fun x => [alt.txBuilder.buildIx emulation x])
      { alt with keys := none } := by
  rw [ixsAlloc, bind_of_ok (txDataAlloc_ok hkeys hdata), get_bind]
  simp only [hlast]
  rw [h]
  rfl

/-- The keys are gone although nothing was allocated. -/
theorem ixsAlloc_error {f : RomeEvmError} (hkeys : alt.keys = some keys)
    (hdata : alt.allocData A keys = .ok data) (hlast : data.getLast? = some last)
    (h : alt.txBuilder.emulate last alt.resource.payerKey = .error f) :
    ixsAlloc A alt = .error (.err f) { alt with keys := none } := by
  rw [ixsAlloc, bind_of_ok (txDataAlloc_ok hkeys hdata), get_bind]
  simp only [hlast]
  rw [h]
  rfl

theorem advance_dealloc_error {f : Failure} (hstep : alt.step = .execute)
    (h : alt.ixDealloc A = .error f) : advance A alt = .error f alt := by
  rw [advance, get_bind]
  simp only [hstep]
  rw [h]
  rfl

theorem advance_alloc_error {f : Failure} {dealloc : AtomicIxBatch} {t : AltTx}
    (hstep : alt.step = .execute) (hdealloc : alt.ixDealloc A = .ok dealloc)
    (h : ixsAlloc A alt = .error f t) : advance A alt = .error f t := by
  rw [advance, get_bind]
  simp only [hstep]
  rw [hdealloc, ofExcept_bind, bind_of_error h]

theorem advance_allocated {dealloc : AtomicIxBatch} {alloc : List AtomicIxBatch} {t : AltTx}
    (hstep : alt.step = .execute) (hdealloc : alt.ixDealloc A = .ok dealloc)
    (h : ixsAlloc A alt = .ok alloc t) :
    advance A alt
      = .ok (.parallel (dealloc :: alloc) .legacy) { t with step := .waitNextSlot } := by
  rw [advance, get_bind]
  simp only [hstep]
  rw [hdealloc, ofExcept_bind, bind_of_ok h, modify_bind]
  rfl

theorem advance_execute (hstep : alt.step = .execute) (hkeys : alt.keys = some keys)
    (hdata : alt.allocData A keys = .ok data) (hne : data ≠ [])
    (h : alt.txBuilder.Emulates accounts) :
    advance A alt = .ok (.parallel (alt.tableBatches A accounts data) .legacy)
      { alt with keys := none, step := .waitNextSlot } := by
  have hlast : data.getLast? = some (data.getLast hne) := List.getLast?_eq_getLast_of_ne_nil hne
  have hadvance := advance_allocated hstep (ixDealloc_ok (h _ _))
    (ixsAlloc_ok hkeys hdata hlast (h _ _))
  rw [tableBatches, hlast]
  exact hadvance

/-- Without keys there is no last instruction to emulate. -/
theorem advance_panics (hstep : alt.step = .execute) (hkeys : alt.keys = some [])
    (h : alt.txBuilder.Emulates accounts) :
    ∃ message t, advance A alt = .error (.panic message) t := by
  obtain ⟨data, hdata⟩ := allocData_returns A alt []
  have hnil : data = [] := (allocData_eq_nil_iff hdata).mpr rfl
  subst hnil
  have halloc : ixsAlloc A alt = .error (.panic "called `Option::unwrap()` on a `None` value")
      { alt with keys := none } := by
    rw [ixsAlloc, bind_of_ok (txDataAlloc_ok hkeys hdata), get_bind]
    rfl
  exact ⟨_, _, advance_alloc_error hstep (ixDealloc_ok (h _ _)) halloc⟩

theorem advance_wait (hstep : alt.step = .waitNextSlot) (h : alt.FindsTable A table slot) :
    ∃ t, advance A alt = .ok (.waitNextSlot slot) t ∧ t.step = .end_ ∧
      t.altAccount A = .ok table := by
  obtain ⟨acc, hread, hstate⟩ := h
  refine ⟨{ alt with step := .end_, altRawAccount := some (table.key, acc) }, ?_, rfl, ?_⟩
  · rw [advance, get_bind]
    simp only [hstep]
    rw [set_bind, hread, ProgramResult.toOutcome, ofExcept_bind, modify_bind, get_bind]
    simp only [lastExtendedSlot, hstate]
    rfl
  · simp only [altAccount, hstate]
    rfl

/-- The table may not be found, but the step is over. -/
theorem advance_wait_cases (hstep : alt.step = .waitNextSlot) :
    (∃ slot t, advance A alt = .ok (.waitNextSlot slot) t ∧ t.step = .end_) ∨
      ∃ f t, advance A alt = .error (.err f) t ∧ t.step = .end_ := by
  cases hread : alt.readAltRawAccount A with
  | error f =>
      refine .inr ⟨f, { alt with step := .end_ }, ?_, rfl⟩
      rw [advance, get_bind]
      simp only [hstep]
      rw [set_bind, hread]
      rfl
  | ok account =>
      cases hstate : A.deserialize account.2 with
      | error f =>
          refine .inr ⟨f, { alt with step := .end_, altRawAccount := some account }, ?_, rfl⟩
          rw [advance, get_bind]
          simp only [hstep]
          rw [set_bind, hread, ProgramResult.toOutcome, ofExcept_bind, modify_bind, get_bind]
          simp only [lastExtendedSlot, hstate]
          rfl
      | ok state =>
          have hfinds : alt.FindsTable A ⟨account.1, state.addresses⟩ state.lastExtendedSlot :=
            ⟨account.2, hread, hstate⟩
          obtain ⟨t, hwait, hend, _⟩ := advance_wait hstep hfinds
          exact .inl ⟨_, t, hwait, hend⟩

theorem advance_end (hstep : alt.step = .end_) : advance A alt = .ok .end_ alt := by
  rw [advance, get_bind]
  simp only [hstep]
  rfl

end AltTx

namespace SteppedTransmitTx

variable {X : Crates} {t : SteppedTransmitTx} {batch : List AtomicIxBatch}
  {batches rest : List (List AtomicIxBatch)}

/-- What is left to send. -/
inductive Remaining (X : Crates) : SteppedTransmitTx → List (List AtomicIxBatch) → Prop
  | init {t : SteppedTransmitTx} {batches : List (List AtomicIxBatch)} :
      t.step = .init → t.batches X = .ok batches → Remaining X t batches
  | execute {t : SteppedTransmitTx} {batches : List (List AtomicIxBatch)} :
      t.step = .execute batches.reverse → Remaining X t batches
  | complete {t : SteppedTransmitTx} : t.step = .complete → Remaining X t []

theorem advance_init (hstep : t.step = .init) (hbatches : t.batches X = .ok batches) :
    advance X t = advanceExecute batches.reverse { t with step := .execute batches.reverse } := by
  rw [advance, get_bind]
  simp only [hstep]
  rw [hbatches, ofExcept_bind, modify_bind]

theorem advance_init_error {f : Failure} (hstep : t.step = .init) (h : t.batches X = .error f) :
    advance X t = .error f t := by
  rw [advance, get_bind]
  simp only [hstep]
  rw [h]
  rfl

theorem advance_of_execute (hstep : t.step = .execute batches) :
    advance X t = advanceExecute batches t := by
  rw [advance, get_bind]
  simp only [hstep]

theorem advance_complete (hstep : t.step = .complete) : advance X t = .ok .end_ t := by
  rw [advance, get_bind]
  simp only [hstep]
  rfl

theorem advanceExecute_cons : advanceExecute (batch :: rest).reverse t
    = .ok (.parallel batch .legacy) { t with step := .execute rest.reverse } := by
  rw [advanceExecute, List.reverse_cons, List.getLast?_concat, List.dropLast_concat]
  rfl

theorem advance_cons (h : Remaining X t (batch :: rest)) :
    ∃ u, advance X t = .ok (.parallel batch .legacy) u ∧ Remaining X u rest := by
  cases h with
  | init hstep hbatches =>
      rw [advance_init hstep hbatches, advanceExecute_cons]
      exact ⟨_, rfl, .execute rfl⟩
  | execute hstep =>
      rw [advance_of_execute hstep, advanceExecute_cons]
      exact ⟨_, rfl, .execute rfl⟩

theorem advance_nil (h : Remaining X t []) :
    ∃ u, advance X t = .ok .end_ u ∧ Remaining X u [] := by
  cases h with
  | init hstep hbatches =>
      rw [advance_init hstep hbatches]
      exact ⟨_, rfl, .complete rfl⟩
  | execute hstep =>
      rw [advance_of_execute hstep]
      exact ⟨_, rfl, .complete rfl⟩
  | complete hstep => exact ⟨t, advance_complete hstep, .complete hstep⟩

end SteppedTransmitTx

namespace AtomicTxHolder

variable {X : Crates} {B : ComputeBudget} {tx : AtomicTxHolder} {ix : AtomicIxBatch}

theorem advanceWithVersion_execute (hstep : tx.step = .execute) (hixs : tx.ixs X B = .ok ix)
    (version : TxVersion) :
    advanceWithVersion X B version tx = .ok (.single ix version) { tx with step := .end_ } := by
  have hadvance := (advance_of_execute hstep).trans (advanceExecute_ok hixs)
  rw [advanceWithVersion, bind_of_ok hadvance]
  rfl

theorem advanceWithVersion_end (hstep : tx.step = .end_) (version : TxVersion) :
    advanceWithVersion X B version tx = .ok .end_ tx := by
  rw [advanceWithVersion, bind_of_ok (advance_end hstep)]
  rfl

/-- Where a table is used it has one step, in the version it is asked for. -/
theorem yields (hstep : tx.step = .execute) (hixs : tx.ixs X B = .ok ix) (version : TxVersion) :
    Yields ((advanceTx X B).advanceWithVersion version) tx [.single ix version] .end_ := by
  have hone : Answers ((advanceTx X B).advanceWithVersion version) [.single ix version] tx
      { tx with step := .end_ } := .cons (advanceWithVersion_execute hstep hixs version) rfl
  exact hone.yields (yields_of_fixed (advanceWithVersion_end rfl version))

end AtomicTxHolder

/-! ## The two in lockstep -/

namespace AltComposedHolder

variable {τ : Type} {X : Crates} {A : AltCrates} {I : AdvanceTx τ} {tx : AltComposedHolder τ}
  {altIx transmitIx ix : IxExecStepBatch} {alt : AltTx} {transmit : SteppedTransmitTx}
  {table : AddressLookupTableAccount} {inner : τ} {steps : List IxExecStepBatch}
  {batches rest : List (List AtomicIxBatch)}

theorem advance_of_joined (hstep : tx.step = .altAndTransmit)
    (halt : AltTx.advance A tx.altTx = .ok altIx alt)
    (htransmit : SteppedTransmitTx.advance X tx.transmitTx = .ok transmitIx transmit)
    (hjoin : joinParallel altIx transmitIx = .ok ix) (hne : ix ≠ .end_) :
    advance X A I tx = .ok ix { tx with altTx := alt, transmitTx := transmit } := by
  have halt' : advanceAlt A tx = .ok altIx { tx with altTx := alt } := zoom_ok halt
  have htransmit' : advanceTransmit X { tx with altTx := alt }
      = .ok transmitIx { tx with altTx := alt, transmitTx := transmit } := zoom_ok htransmit
  rw [advance, get_bind]
  simp only [hstep]
  rw [bind_of_ok halt', bind_of_ok htransmit', hjoin, ofExcept_bind, if_neg hne, hstep]
  rfl

/-- Both have ended, and the table is there. -/
theorem advance_of_ended (hstep : tx.step = .altAndTransmit)
    (halt : AltTx.advance A tx.altTx = .ok .end_ alt)
    (htransmit : SteppedTransmitTx.advance X tx.transmitTx = .ok .end_ transmit)
    (htable : alt.altAccount A = .ok table) :
    advance X A I tx = advanceExecute I (.v0 [table])
      { tx with altTx := alt, transmitTx := transmit, step := .execute (.v0 [table]) } := by
  have halt' : advanceAlt A tx = .ok .end_ { tx with altTx := alt } := zoom_ok halt
  have htransmit' : advanceTransmit X { tx with altTx := alt }
      = .ok .end_ { tx with altTx := alt, transmitTx := transmit } := zoom_ok htransmit
  rw [advance, get_bind]
  simp only [hstep]
  rw [bind_of_ok halt', bind_of_ok htransmit', joinParallel, ofExcept_bind, if_pos rfl, get_bind,
    htable, ofExcept_bind, modify_bind]

theorem advance_of_error {e : Failure} (hstep : tx.step = .altAndTransmit)
    (halt : AltTx.advance A tx.altTx = .error e alt) :
    advance X A I tx = .error e { tx with altTx := alt } := by
  have halt' : advanceAlt A tx = .error e { tx with altTx := alt } := zoom_error halt
  rw [advance, get_bind]
  simp only [hstep]
  rw [bind_of_error halt', hstep]

theorem advance_of_execute {version : TxVersion} (hstep : tx.step = .execute version) :
    advance X A I tx = advanceExecute I version tx := by
  rw [advance, get_bind]
  simp only [hstep]

/-- Once it is in its second part the transaction answers what the boxed one does. -/
theorem answerAt_of_execute {version : TxVersion} (hstep : tx.step = .execute version) (n : Nat) :
    (advance X A I).answerAt tx n = (I.advanceWithVersion version).answerAt tx.iterableTx n := by
  have hsame : ∀ s : τ, advance X A I { tx with iterableTx := s }
      = advanceExecute I version { tx with iterableTx := s } := fun s => advance_of_execute hstep
  refine answerAt_of_semiconj (f := fun s => { tx with iterableTx := s }) ?_ ?_ n tx.iterableTx
  · intro s
    rw [answer, answer, hsame, advanceExecute, zoom]
    cases I.advanceWithVersion version s <;> rfl
  · intro s
    rw [after, after, hsame, advanceExecute, zoom]
    cases I.advanceWithVersion version s <;> rfl

/-- The table has said its last word, `rest` is left to transmit, and then the boxed
transaction has its turn. -/
structure Draining (X : Crates) (A : AltCrates) (table : AddressLookupTableAccount) (inner : τ)
    (tx : AltComposedHolder τ) (rest : List (List AtomicIxBatch)) : Prop where
  step : tx.step = .altAndTransmit
  ended : tx.altTx.step = .end_
  table : tx.altTx.altAccount A = .ok table
  iterable : tx.iterableTx = inner
  remaining : SteppedTransmitTx.Remaining X tx.transmitTx rest

theorem Draining.answers (h : Draining X A table inner tx rest) :
    ∃ t, Answers (advance X A I) (rest.map fun batch => .parallel batch .legacy) tx t ∧
      Draining X A table inner t [] := by
  induction rest generalizing tx with
  | nil => exact ⟨tx, rfl, h⟩
  | cons batch rest ih =>
      obtain ⟨u, hu, hremaining⟩ := SteppedTransmitTx.advance_cons h.remaining
      have hround := advance_of_joined (A := A) (I := I) h.step (AltTx.advance_end h.ended) hu rfl
        nofun
      have hrest : Draining X A table inner { tx with transmitTx := u } rest :=
        ⟨h.step, h.ended, h.table, h.iterable, hremaining⟩
      obtain ⟨t, hanswers, hdrained⟩ := ih hrest
      exact ⟨t, .cons hround hanswers, hdrained⟩

theorem Draining.yields (h : Draining X A table inner tx [])
    (hinner : Yields (I.advanceWithVersion (.v0 [table])) inner steps .end_) :
    Yields (advance X A I) tx steps .end_ := by
  obtain ⟨u, hu, _⟩ := SteppedTransmitTx.advance_nil h.remaining
  have hturn := advance_of_ended (I := I) h.step (AltTx.advance_end h.ended) hu h.table
  intro i
  rw [← hinner i, ← h.iterable]
  exact (answerAt_congr (hturn.trans (advance_of_execute rfl).symm) i).trans
    (answerAt_of_execute rfl i)

/-- No step has been asked for yet. -/
structure Created (tx : AltComposedHolder τ) (keys : List Pubkey) : Prop where
  step : tx.step = .altAndTransmit
  altStep : tx.altTx.step = .execute
  keys : tx.altTx.keys = some keys
  transmitStep : tx.transmitTx.step = .init

/-- What is handed out before the steps of the boxed transaction. -/
def firstSteps (tableBatches : List AtomicIxBatch) (slot : Slot) :
    List (List AtomicIxBatch) → List IxExecStepBatch
  | [] => [.parallel tableBatches .legacy, .waitNextSlot slot]
  | [batch] => [.parallel (tableBatches ++ batch) .legacy, .waitNextSlot slot]
  | batch :: second :: rest =>
      .parallel (tableBatches ++ batch) .legacy ::
        (second :: rest).map fun batch => .parallel batch .legacy

variable {accounts : Bytes → Pubkey → List (Pubkey × Bool)} {keys : List Pubkey}
  {data : List Bytes} {slot : Slot}

/-- The table is allocated, `rest` is left to transmit, and the wait is the table's next
step. -/
structure Waiting (X : Crates) (A : AltCrates) (table : AddressLookupTableAccount) (slot : Slot)
    (inner : τ) (tx : AltComposedHolder τ) (rest : List (List AtomicIxBatch)) : Prop where
  step : tx.step = .altAndTransmit
  waits : tx.altTx.step = .waitNextSlot
  table : tx.altTx.FindsTable A table slot
  iterable : tx.iterableTx = inner
  remaining : SteppedTransmitTx.Remaining X tx.transmitTx rest

/-- In the first round the instructions of the table go with the first batch. -/
theorem first_round (hnew : tx.Created keys) (hdata : tx.altTx.allocData A keys = .ok data)
    (hne : data ≠ []) (hemulate : tx.altTx.txBuilder.Emulates accounts)
    (hbatches : tx.transmitTx.batches X = .ok batches)
    (htable : tx.altTx.FindsTable A table slot) :
    ∃ t, advance X A I tx = .ok (.parallel
        (tx.altTx.tableBatches A accounts data ++ batches.head?.getD []) .legacy) t ∧
      Waiting X A table slot tx.iterableTx t batches.tail := by
  have halt := AltTx.advance_execute hnew.altStep hnew.keys hdata hne hemulate
  have hremaining : SteppedTransmitTx.Remaining X tx.transmitTx batches :=
    .init hnew.transmitStep hbatches
  cases batches with
  | nil =>
      obtain ⟨u, hu, hnone⟩ := SteppedTransmitTx.advance_nil hremaining
      refine ⟨_, advance_of_joined hnew.step halt hu ?_ nofun, ⟨hnew.step, rfl, htable, rfl, hnone⟩⟩
      rw [List.head?_nil, Option.getD_none, List.append_nil]
      rfl
  | cons batch rest =>
      obtain ⟨u, hu, hrest⟩ := SteppedTransmitTx.advance_cons hremaining
      exact ⟨_, advance_of_joined hnew.step halt hu rfl nofun,
        ⟨hnew.step, rfl, htable, rfl, hrest⟩⟩

/-- In the second round the table waits, and says nothing more. There is room for the
wait only if no batch is left. -/
theorem second_round (h : Waiting X A table slot inner tx batches) :
    ∃ t, advance X A I tx = .ok ((batches.head?.map fun batch => .parallel batch .legacy).getD
        (.waitNextSlot slot)) t ∧
      Draining X A table inner t batches.tail := by
  obtain ⟨alt, hwait, hended, haccount⟩ := AltTx.advance_wait h.waits h.table
  have hremaining := h.remaining
  cases batches with
  | nil =>
      obtain ⟨u, hu, hnone⟩ := SteppedTransmitTx.advance_nil hremaining
      exact ⟨_, advance_of_joined h.step hwait hu rfl nofun,
        ⟨h.step, hended, haccount, h.iterable, hnone⟩⟩
  | cons batch rest =>
      obtain ⟨u, hu, hrest⟩ := SteppedTransmitTx.advance_cons hremaining
      exact ⟨_, advance_of_joined h.step hwait hu rfl nofun,
        ⟨h.step, hended, haccount, h.iterable, hrest⟩⟩

/-- Every step of the transaction: the first ones, those of the boxed transaction, and then
the end forever. -/
theorem yields_firstSteps (hnew : tx.Created keys)
    (hdata : tx.altTx.allocData A keys = .ok data) (hne : data ≠ [])
    (hemulate : tx.altTx.txBuilder.Emulates accounts)
    (hbatches : tx.transmitTx.batches X = .ok batches)
    (htable : tx.altTx.FindsTable A table slot)
    (hinner : Yields (I.advanceWithVersion (.v0 [table])) tx.iterableTx steps .end_) :
    Yields (advance X A I) tx
      (firstSteps (tx.altTx.tableBatches A accounts data) slot batches ++ steps) .end_ := by
  obtain ⟨u, hfirst, hwaiting⟩ := first_round (I := I) hnew hdata hne hemulate hbatches htable
  obtain ⟨v, hsecond, hdraining⟩ := second_round (I := I) hwaiting
  obtain ⟨t, hrest, hdrained⟩ := hdraining.answers (I := I)
  have hall := (Answers.cons hfirst (.cons hsecond hrest)).yields (hdrained.yields hinner)
  cases batches with
  | nil =>
      rw [List.head?_nil, Option.getD_none, List.append_nil] at hall
      exact hall
  | cons batch rest =>
      cases rest with
      | nil => exact hall
      | cons second rest => exact hall

/-! ## What is handed out -/

end AltComposedHolder

/-- The transactions a step has sent. -/
def IxExecStepBatch.sent : IxExecStepBatch → List AtomicIxBatch
  | .single batch _ => [batch]
  | .singleWithSigners batch _ => [batch]
  | .parallel batches _ => batches
  | .parallelUnchecked batches _ => batches
  | _ => []

/-- A step whose transactions use a lookup table. -/
def IxExecStepBatch.UsesV0 : IxExecStepBatch → Prop
  | .single _ version => ∃ tables, version = .v0 tables
  | .parallel _ version => ∃ tables, version = .v0 tables
  | .parallelUnchecked _ version => ∃ tables, version = .v0 tables
  | _ => False

/-- The steps `prelude` send the instructions of the table and those of all batches, each
once and the batches in order, and wait for the slot to end once the table is allocated
and before one is used. -/
structure RunsAllSteps (tableBatches : List AtomicIxBatch) (batches : List (List AtomicIxBatch))
    (slot : Slot) (prelude : List IxExecStepBatch) : Prop where
  once : (prelude.flatMap IxExecStepBatch.sent).Perm (tableBatches ++ batches.flatten)
  inOrder : batches.flatten.Sublist (prelude.flatMap IxExecStepBatch.sent)
  waits : ∃ before after, prelude = before ++ .waitNextSlot slot :: after ∧
    tableBatches.Subperm (before.flatMap IxExecStepBatch.sent) ∧ ∀ step ∈ before, ¬ step.UsesV0
  goesOn : .end_ ∉ prelude

/-- The wait is there if there is at most one batch. -/
theorem runsAllSteps_firstSteps {tableBatches : List AtomicIxBatch}
    {batches : List (List AtomicIxBatch)} (slot : Slot) (h : batches.length ≤ 1) :
    RunsAllSteps tableBatches batches slot
      (AltComposedHolder.firstSteps tableBatches slot batches) := by
  have hfirst : AltComposedHolder.firstSteps tableBatches slot batches
      = [.parallel (tableBatches ++ batches.flatten) .legacy, .waitNextSlot slot] := by
    cases batches with
    | nil => simp [AltComposedHolder.firstSteps]
    | cons batch rest =>
        have hnil : rest = [] := by
          rw [List.length_cons] at h
          exact List.length_eq_zero_iff.mp (by omega)
        subst hnil
        simp [AltComposedHolder.firstSteps]
  rw [hfirst]
  refine ⟨?_, ?_, ⟨[.parallel (tableBatches ++ batches.flatten) .legacy], [], rfl, ?_, ?_⟩, ?_⟩
  · simp [IxExecStepBatch.sent]
  · simp [IxExecStepBatch.sent]
  · simpa [IxExecStepBatch.sent] using (List.sublist_append_left ..).subperm
  · intro step hstep
    rw [List.mem_singleton.mp hstep]
    rintro ⟨tables, hversion⟩
    cases hversion
  · simp

/-- With two batches or more it is not. -/
theorem waitNextSlot_notMem {tableBatches : List AtomicIxBatch}
    {batches : List (List AtomicIxBatch)} {slot : Slot} (h : 1 < batches.length) :
    IxExecStepBatch.waitNextSlot slot ∉
      AltComposedHolder.firstSteps tableBatches slot batches := by
  match batches with
  | [] => simp at h
  | [_] => simp at h
  | batch :: second :: rest => simp [AltComposedHolder.firstSteps]

theorem RunsAllSteps.waits_mem {tableBatches : List AtomicIxBatch}
    {batches : List (List AtomicIxBatch)} {slot : Slot} {prelude : List IxExecStepBatch}
    (h : RunsAllSteps tableBatches batches slot prelude) : .waitNextSlot slot ∈ prelude := by
  obtain ⟨before, after, rfl, _⟩ := h.waits
  exact List.mem_append_right _ (List.mem_cons_self ..)

/-! ## How many batches there are -/

namespace TransmitTx

variable {X : Crates} {t : TransmitTx} {batches : List (List AtomicIxBatch)}

theorem length_chunks {C : List (Nat × Bytes)} (h : t.chunks = .ok C) :
    C.length = (t.rlp.length + TRANSMIT_TX_SIZE - 1) / TRANSMIT_TX_SIZE := by
  rw [chunks, intoChunks, if_neg (by decide)] at h
  cases h
  rw [length_cut, intoChunksLoop_length (by decide) _ _ (Nat.le_refl _)]

theorem batches_length (h : t.batches X = .ok batches) :
    batches.length ≤ 1 ↔ t.rlp.length ≤ limit * TRANSMIT_TX_SIZE := by
  obtain ⟨ixs, hixs, hcut⟩ := Except.ok_of_bind h
  obtain ⟨C, emulation, hC, rfl⟩ := ixs_eq hixs
  rw [intoChunks, if_neg (by decide)] at hcut
  cases hcut
  rw [intoChunksLoop_length (by decide) _ _ (Nat.le_refl _), List.length_map, length_chunks hC]
  have hlimit : limit = 12 := by decide
  have hsize : TRANSMIT_TX_SIZE = 800 := rfl
  rw [hlimit, hsize]
  omega

/-- The batches are there if the emulation succeeds. -/
theorem batches_cases (X : Crates) (t : TransmitTx) :
    (∃ f, t.txBuilder.emulate (t.txData X 0 t.rlp) t.resource.payerKey = .error f ∧
      t.batches X = .error (.err f)) ∨
    ∃ emulation batches, t.txBuilder.emulate (t.txData X 0 t.rlp) t.resource.payerKey
        = .ok emulation ∧ t.batches X = .ok batches := by
  obtain ⟨C, hC, _⟩ := t.chunks_cuts
  cases hemulate : t.txBuilder.emulate (t.txData X 0 t.rlp) t.resource.payerKey with
  | error f =>
      rw [batches, ixs, hemulate]
      exact .inl ⟨f, rfl, rfl⟩
  | ok emulation =>
      rw [batches, ixs, hemulate, hC]
      exact .inr ⟨emulation, _, rfl, rfl⟩

theorem batches_returns {accounts : Bytes → Pubkey → List (Pubkey × Bool)}
    (h : t.txBuilder.Emulates accounts) : ∃ batches, t.batches X = .ok batches := by
  rcases batches_cases X t with ⟨f, hf, _⟩ | ⟨_, batches, _, hbatches⟩
  · rw [h] at hf
    cases hf
  · exact ⟨batches, hbatches⟩

/-- Without batches there was nothing to send. -/
theorem rlp_eq_nil (h : t.batches X = .ok []) : t.rlp = [] := by
  obtain ⟨ixs, hixs, hcut⟩ := Except.ok_of_bind h
  obtain ⟨C, emulation, hC, rfl⟩ := ixs_eq hixs
  obtain ⟨C', hC', hcuts⟩ := t.chunks_cuts
  rw [hC] at hC'
  cases hC'
  rw [intoChunks, if_neg (by decide)] at hcut
  have hlimit : 0 < limit := by decide
  have hflatten := intoChunksLoop_flatten hlimit _
    (C.map fun c => [t.txBuilder.buildIx emulation (t.txData X c.1 c.2)]) (Nat.le_refl _)
  rw [Except.ok.inj hcut] at hflatten
  refine Classical.byContradiction fun hne => hcuts.ne_nil hne ?_
  exact List.map_eq_nil_iff.mp hflatten.symm

theorem batches_eq_nil (hrlp : t.rlp = []) (h : t.batches X = .ok batches) : batches = [] := by
  obtain ⟨ixs, hixs, hcut⟩ := Except.ok_of_bind h
  obtain ⟨C, emulation, hC, rfl⟩ := ixs_eq hixs
  have hlength := length_chunks hC
  rw [hrlp] at hlength
  obtain rfl : C = [] := List.eq_nil_of_length_eq_zero hlength
  cases hcut
  rfl

end TransmitTx

/-! ## When it waits -/

namespace AltComposedHolder

variable {τ : Type} {X : Crates} {A : AltCrates} {I : AdvanceTx τ} {tx : AltComposedHolder τ}
  {accounts : Bytes → Pubkey → List (Pubkey × Bool)} {keys : List Pubkey} {data : List Bytes}
  {batches : List (List AtomicIxBatch)} {table : AddressLookupTableAccount} {slot : Slot}
  {steps : List IxExecStepBatch}

/-- However the steps before those of the boxed transaction are told from them. -/
theorem not_runsAllSteps (hnew : tx.Created keys)
    (hemulate : tx.altTx.txBuilder.Emulates accounts)
    (hdata : tx.altTx.allocData A keys = .ok data) (hne : keys ≠ [])
    (hbatches : tx.transmitTx.batches X = .ok batches) (hmany : 1 < batches.length)
    (htable : tx.altTx.FindsTable A table slot)
    (hinner : Yields (I.advanceWithVersion (.v0 [table])) tx.iterableTx steps .end_) :
    ¬ ∃ prelude, Yields (advance X A I) tx (prelude ++ steps) .end_ ∧
      RunsAllSteps (tx.altTx.tableBatches A accounts data) batches slot prelude := by
  rintro ⟨prelude, hyields, hruns⟩
  have hfirst := yields_firstSteps hnew hdata
    (fun hnil => hne ((AltTx.allocData_eq_nil_iff hdata).mp hnil)) hemulate hbatches htable hinner
  have hwait : .waitNextSlot slot ∉
      firstSteps (tx.altTx.tableBatches A accounts data) slot batches := waitNextSlot_notMem hmany
  rcases Nat.le_total prelude.length
    (firstSteps (tx.altTx.tableBatches A accounts data) slot batches).length with hle | hle
  · obtain ⟨d, hd⟩ := hfirst.eq_append_replicate hyields hle
    refine hwait ?_
    rw [hd]
    exact List.mem_append_left _ hruns.waits_mem
  · obtain ⟨d, hd⟩ := hyields.eq_append_replicate hfirst hle
    have hmem := hruns.waits_mem
    rw [hd] at hmem
    rcases List.mem_append.mp hmem with hmem | hmem
    · exact hwait hmem
    · cases List.eq_of_mem_replicate hmem

/-- With all emulations succeeding, the transaction hands out all its steps and waits in
between if and only if there are keys and it fits into one batch. -/
theorem runs_all_steps_iff (hnew : tx.Created keys)
    (hemulate : tx.altTx.txBuilder.Emulates accounts)
    (hdata : tx.altTx.allocData A keys = .ok data)
    (hbatches : tx.transmitTx.batches X = .ok batches)
    (htable : tx.altTx.FindsTable A table slot)
    (hinner : Yields (I.advanceWithVersion (.v0 [table])) tx.iterableTx steps .end_) :
    (∃ prelude, Yields (advance X A I) tx (prelude ++ steps) .end_ ∧
      RunsAllSteps (tx.altTx.tableBatches A accounts data) batches slot prelude) ↔
      keys ≠ [] ∧ tx.transmitTx.rlp.length ≤ TransmitTx.limit * TRANSMIT_TX_SIZE := by
  constructor
  · intro hruns
    have hne : keys ≠ [] := by
      rintro rfl
      obtain ⟨prelude, hyields, _⟩ := hruns
      obtain ⟨message, alt, hpanic⟩ := AltTx.advance_panics hnew.altStep hnew.keys hemulate
      have hzero := hyields 0
      rw [answerAt, Function.iterate_zero_apply, answer, advance_of_error hnew.step hpanic] at hzero
      cases hzero
    refine ⟨hne, (TransmitTx.batches_length hbatches).mp ?_⟩
    refine Nat.le_of_not_lt fun hmany => ?_
    exact not_runsAllSteps hnew hemulate hdata hne hbatches hmany htable hinner hruns
  · rintro ⟨hne, hfits⟩
    have hdata' : data ≠ [] := fun hnil => hne ((AltTx.allocData_eq_nil_iff hdata).mp hnil)
    exact ⟨_, yields_firstSteps hnew hdata hdata' hemulate hbatches htable hinner,
      runsAllSteps_firstSteps slot ((TransmitTx.batches_length hbatches).mpr hfits)⟩

/-! ## Two transactions -/

/-- A table account with the layout of the program: the slot behind 12 bytes, the addresses
behind 56. -/
def tableAccount (lastExtendedSlot : Slot) (addresses : List Pubkey) : Bytes :=
  leBytes 4 1 ++ leBytes 8 (2 ^ 64 - 1) ++ leBytes 8 lastExtendedSlot ++ List.replicate 36 0 ++
    (addresses.map Pubkey.toBytes).flatten

def readTable (data : Bytes) : ProgramResult AddressLookupTable :=
  if data.length < 56 then .error (.custom "InvalidAccountData")
  else .ok ⟨leNat ((data.drop 12).take 8),
    (intoChunksLoop 32 data.length (data.drop 56)).map fun key => BitVec.ofNat 256 (beNat key)⟩

def altStandIns : AltCrates where
  altAlloc := 21
  altDealloc := 22
  setComputeUnitLimit units := ⟨4, [], 2 :: leBytes 4 units⟩
  requestHeapFrame bytes := ⟨4, [], 1 :: leBytes 4 bytes⟩
  getAlt _ _ _ := .ok (some 9)
  getAccount _ := .ok (tableAccount 100 [11])
  deserialize := readTable

def altHolder : AdvanceTx AtomicTxHolder :=
  AtomicTxHolder.advanceTx standIns altStandIns.toComputeBudget

/-- The transaction in the holder, which an atomic one reads, with a table of one key. -/
def altOf (rlp : Bytes) : AltComposedHolder AtomicTxHolder :=
  .new ⟨(transmitOf rlp).txBuilder, (transmitOf rlp).resource, 77, some [11], 95, .execute, none⟩
    ⟨transmitOf rlp, .init⟩ (.new ⟨transmitOf rlp, .init⟩ [0] true)

theorem altOf_created (rlp : Bytes) : (altOf rlp).Created [11] := ⟨rfl, rfl, rfl, rfl⟩

theorem altOf_findsTable (rlp : Bytes) :
    (altOf rlp).altTx.FindsTable altStandIns ⟨9, [11]⟩ 100 :=
  ⟨tableAccount 100 [11], rfl, rfl⟩

/-- The run of a transaction of one byte. -/
theorem one_batch_waits : ∃ data batches ix,
    (altOf [1]).altTx.allocData altStandIns [11] = .ok data ∧
    (altOf [1]).transmitTx.batches standIns = .ok batches ∧
    (altOf [1]).iterableTx.ixs standIns altStandIns.toComputeBudget = .ok ix ∧
    ∃ prelude, Yields (advance standIns altStandIns altHolder) (altOf [1])
        (prelude ++ [.single ix (.v0 [⟨9, [11]⟩])]) .end_ ∧
      RunsAllSteps ((altOf [1]).altTx.tableBatches altStandIns (fun _ _ => []) data) batches 100
        prelude :=
  ⟨_, _, _, rfl, rfl, rfl, (runs_all_steps_iff (altOf_created [1]) (fun _ _ => rfl) rfl rfl
    (altOf_findsTable [1]) (AtomicTxHolder.yields rfl rfl _)).mpr ⟨by decide, by decide⟩⟩

/-- A transaction one byte longer than one batch is sent without a wait. -/
theorem second_batch_drops_wait : ∃ data batches ix,
    (altOf (List.replicate 9601 0)).altTx.allocData altStandIns [11] = .ok data ∧
    (altOf (List.replicate 9601 0)).transmitTx.batches standIns = .ok batches ∧
    (altOf (List.replicate 9601 0)).iterableTx.ixs standIns altStandIns.toComputeBudget = .ok ix ∧
    ¬ ∃ prelude, Yields (advance standIns altStandIns altHolder) (altOf (List.replicate 9601 0))
        (prelude ++ [.single ix (.v0 [⟨9, [11]⟩])]) .end_ ∧
      RunsAllSteps ((altOf (List.replicate 9601 0)).altTx.tableBatches altStandIns
        (fun _ _ => []) data) batches 100 prelude := by
  have hemulate : (transmitOf (List.replicate 9601 0)).txBuilder.Emulates fun _ _ => [] :=
    fun _ _ => rfl
  obtain ⟨batches, hbatches⟩ := TransmitTx.batches_returns (X := standIns) hemulate
  have hmany : 1 < batches.length := by
    refine Nat.lt_of_not_le fun hle => ?_
    have hfits := (TransmitTx.batches_length hbatches).mp hle
    rw [transmitOf, List.length_replicate] at hfits
    exact absurd hfits (by decide)
  exact ⟨_, batches, _, rfl, hbatches, rfl, not_runsAllSteps (altOf_created _) hemulate rfl
    (by decide) hbatches hmany (altOf_findsTable _) (AtomicTxHolder.yields rfl rfl _)⟩

end AltComposedHolder

end RomeSdk
