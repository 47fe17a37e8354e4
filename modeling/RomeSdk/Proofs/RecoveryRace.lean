import RomeSdk.Indexer.StandaloneIndexer
import RomeSdk.PgStorage.EthereumBlockStorage
import RomeSdk.Proofs.LogIndices

/-!
# What a recovery that reports success has applied

The events are received in the order they are sent, so at any time the events
sent are those `clean_from_slot` was called for, those in the channel and those
that were dropped with it (`Accounted`). The reorg processor ends well only when
there is nothing in the channel and nobody sends any more. The checker ends
without looking at the channel at all.
-/

namespace RomeSdk

namespace StandaloneIndexer

variable {σ : Type} {S : EthereumBlockStorage σ} {s t : RecoveryState σ}

/-- Where every event is, and what an ended task says about the channel. -/
structure Accounted (s : RecoveryState σ) : Prop where
  sent : s.sent = s.called ++ s.queue ++ s.dropped
  running : (∀ result, s.processor ≠ .ended result) → s.dropped = []
  ended : ∀ result, s.processor = .ended result → s.queue = []
  drained : s.processor = .ended (.ok ()) → s.dropped = [] ∧ s.checker.isSome
  joined : s.joined = some (.ok ()) → s.checker.isSome

theorem accounted_init (h : (recoveryMachine S).init s) : Accounted s := by
  obtain ⟨world, rfl⟩ := h
  exact ⟨rfl, fun _ => rfl, fun _ h => (by cases h), fun h => (by cases h), fun h => (by cases h)⟩

theorem Accounted.send (h : Accounted s) {slot : Slot} (hchecker : s.checker = none) :
    Accounted (afterSend s slot) := by
  have hnotOk : s.processor ≠ .ended (.ok ()) := by
    intro hended
    have hsome := (h.drained hended).2
    rw [hchecker] at hsome
    cases hsome
  rw [afterSend]
  split
  · next result hended =>
      refine ⟨?_, fun hrunning => absurd hended (hrunning result), h.ended, ?_, h.joined⟩
      · show s.sent ++ [slot] = s.called ++ s.queue ++ (s.dropped ++ [slot])
        rw [h.sent, List.append_assoc]
      · exact fun hok => absurd hok hnotOk
  · next hrunning =>
      have hdropped := h.running fun result => hrunning result
      refine ⟨?_, fun _ => hdropped, fun result hended => absurd hended (hrunning result),
        fun hok => absurd hok hnotOk, h.joined⟩
      show s.sent ++ [slot] = s.called ++ (s.queue ++ [slot]) ++ s.dropped
      rw [h.sent, hdropped]
      simp

theorem Accounted.clean (h : Accounted s) {updatedSlot : Slot}
    (hcleaning : s.processor = .cleaning updatedSlot) : Accounted (afterClean S s updatedSlot) := by
  have hdropped := h.running fun result hended => by rw [hcleaning] at hended; cases hended
  rw [afterClean]
  split
  · exact ⟨h.sent, fun _ => hdropped, fun _ hended => (by cases hended), fun hok => (by cases hok),
      h.joined⟩
  · next e w _ =>
      refine ⟨?_, fun hrunning => absurd rfl (hrunning (.error e)), fun _ _ => rfl,
        fun hok => (by cases hok), h.joined⟩
      show s.sent = s.called ++ [] ++ (s.dropped ++ s.queue)
      rw [h.sent, hdropped]
      simp

theorem accounted_step {a : RecoveryAction σ} (h : Accounted s)
    (hstep : (recoveryMachine S).step s a t) : Accounted t := by
  cases a with
  | send slot =>
      obtain ⟨hchecker, rfl⟩ := hstep
      exact h.send hchecker
  | checkerEnds result =>
      obtain ⟨hchecker, rfl⟩ := hstep
      exact ⟨h.sent, h.running, h.ended, fun hok => ⟨(h.drained hok).1, rfl⟩, fun _ => rfl⟩
  | receive =>
      obtain ⟨hreceiving, updatedSlot, rest, hqueue, rfl⟩ := hstep
      have hdropped := h.running fun result hended => by rw [hreceiving] at hended; cases hended
      refine ⟨?_, fun _ => hdropped, fun _ hended => (by cases hended), fun hok => (by cases hok),
        h.joined⟩
      show s.sent = s.called ++ [updatedSlot] ++ rest ++ s.dropped
      rw [h.sent, hqueue]
      simp
  | cleaned =>
      obtain ⟨updatedSlot, hcleaning, rfl⟩ := hstep
      exact h.clean hcleaning
  | channelClosed =>
      obtain ⟨hreceiving, hqueue, hchecker, rfl⟩ := hstep
      have hdropped := h.running fun result hended => by rw [hreceiving] at hended; cases hended
      exact ⟨h.sent, fun _ => hdropped, fun _ _ => hqueue, fun _ => ⟨hdropped, hchecker⟩, h.joined⟩
  | takeChecker =>
      obtain ⟨_, result, hchecker, rfl⟩ := hstep
      exact ⟨h.sent, h.running, h.ended, h.drained, fun _ => by rw [hchecker]; rfl⟩
  | takeProcessor =>
      obtain ⟨_, result, hended, rfl⟩ := hstep
      refine ⟨h.sent, h.running, h.ended, h.drained, fun hok => ?_⟩
      cases hok
      exact (h.drained hended).2
  | change world =>
      subst hstep
      exact ⟨h.sent, h.running, h.ended, h.drained, h.joined⟩

/-- What is asked of a recovery: if it reports success, `clean_from_slot` was called
for every event, in the order they were sent. -/
def AppliedAll (s : RecoveryState σ) : Prop := s.joined = some (.ok ()) → s.called = s.sent

/-- When the checker's success is taken, no event is waiting in the channel, and none
was dropped with it. -/
def NothingWaiting (s : RecoveryState σ) : RecoveryAction σ → Prop
  | .takeChecker => s.checker = some (.ok ()) → s.queue = [] ∧ s.dropped = []
  | _ => True

theorem Accounted.called_eq_sent_iff (h : Accounted s) :
    s.called = s.sent ↔ s.queue = [] ∧ s.dropped = [] := by
  rw [h.sent, List.append_assoc, List.self_eq_append_right, List.append_eq_nil_iff]

/-- A step keeps it exactly when it takes no success too early. -/
theorem appliedAll_step_iff {a : RecoveryAction σ} (h : Accounted s) (happlied : AppliedAll s)
    (hstep : (recoveryMachine S).step s a t) : AppliedAll t ↔ NothingWaiting s a := by
  -- the checker has ended when the result is there
  have hended : s.checker = none → s.joined ≠ some (.ok ()) := by
    intro hchecker hjoined
    have hsome := h.joined hjoined
    rw [hchecker] at hsome
    cases hsome
  cases a with
  | send slot =>
      obtain ⟨hchecker, rfl⟩ := hstep
      refine iff_of_true (fun hjoined => ?_) trivial
      refine absurd ?_ (hended hchecker)
      rw [afterSend] at hjoined
      split at hjoined
      · exact hjoined
      · exact hjoined
  | checkerEnds result =>
      obtain ⟨_, rfl⟩ := hstep
      exact iff_of_true happlied trivial
  | receive =>
      obtain ⟨hreceiving, updatedSlot, rest, hqueue, rfl⟩ := hstep
      refine iff_of_true (fun hjoined => ?_) trivial
      have hempty := (h.called_eq_sent_iff.mp (happlied hjoined)).1
      rw [hqueue] at hempty
      cases hempty
  | cleaned =>
      obtain ⟨updatedSlot, hcleaning, rfl⟩ := hstep
      refine iff_of_true ?_ trivial
      rw [afterClean]
      split
      · exact happlied
      · exact happlied
  | channelClosed =>
      obtain ⟨_, _, _, rfl⟩ := hstep
      exact iff_of_true happlied trivial
  | takeChecker =>
      obtain ⟨_, result, hchecker, rfl⟩ := hstep
      show (some result = some (.ok ()) → s.called = s.sent) ↔
        (s.checker = some (.ok ()) → s.queue = [] ∧ s.dropped = [])
      rw [hchecker, h.called_eq_sent_iff]
  | takeProcessor =>
      obtain ⟨_, result, hprocessor, rfl⟩ := hstep
      refine iff_of_true (fun hjoined => ?_) trivial
      cases hjoined
      exact h.called_eq_sent_iff.mpr ⟨h.ended _ hprocessor, (h.drained hprocessor).1⟩
  | change world =>
      subst hstep
      exact iff_of_true happlied trivial

/-- In a run of the recovery a reported success is right throughout exactly when it was
never taken from the checker while an event was waiting. -/
theorem recovery_applies_all_iff {tr : List (RecoveryState σ × RecoveryAction σ)}
    (h : (recoveryMachine S).Run tr s) :
    (∀ u ∈ Machine.visited tr s, AppliedAll u) ↔ Machine.Meets NothingWaiting tr := by
  refine h.always_iff (fun _ => accounted_init) (fun _ _ _ => accounted_step) ?_
    (fun _ _ _ => appliedAll_step_iff)
  intro u hinit hjoined
  obtain ⟨world, rfl⟩ := hinit
  cases hjoined

/-! ## A success that is taken too early -/

/-- The events are in the channel, and the processor has received none. -/
def waiting (world : σ) (events : List Slot) : RecoveryState σ :=
  ⟨world, events, events, [], [], none, .receiving, none⟩

theorem waiting_run (world : σ) (events : List Slot) :
    ∃ tr, (recoveryMachine S).Run tr (waiting world events) := by
  induction events using List.reverseRecOn with
  | nil => exact ⟨[], .start ⟨world, rfl⟩⟩
  | append_singleton events slot ih =>
      obtain ⟨tr, hrun⟩ := ih
      have hsend : (recoveryMachine S).step (waiting world events) (.send slot)
          (waiting world (events ++ [slot])) := ⟨rfl, rfl⟩
      exact ⟨_, hrun.next hsend⟩

/-- Whatever the events are, success may be reported before one of them is received. -/
theorem success_before_events (world : σ) (events : List Slot) :
    ∃ tr s, (recoveryMachine S).Run tr s ∧ s.joined = some (.ok ()) ∧ s.sent = events ∧
      s.called = [] := by
  obtain ⟨tr, hrun⟩ := waiting_run (S := S) world events
  let ended : RecoveryState σ := { waiting world events with checker := some (.ok ()) }
  have hends : (recoveryMachine S).step (waiting world events) (.checkerEnds (.ok ())) ended :=
    ⟨rfl, rfl⟩
  have htake : (recoveryMachine S).step ended .takeChecker { ended with joined := some (.ok ()) } :=
    ⟨rfl, .ok (), rfl, rfl⟩
  exact ⟨_, _, (hrun.next hends).next htake, rfl, rfl, rfl⟩

/-- Only a recovery without events is safe however its tasks are scheduled. -/
theorem applied_whatever_the_schedule_iff [Nonempty σ] (events : List Slot) :
    (∀ tr s, (recoveryMachine S).Run tr s → s.sent = events → AppliedAll s) ↔ events = [] := by
  constructor
  · intro hall
    obtain ⟨world⟩ := ‹Nonempty σ›
    obtain ⟨tr, s, hrun, hjoined, hsent, hcalled⟩ := success_before_events (S := S) world events
    rw [← hsent, ← hall tr s hrun hsent hjoined, hcalled]
  · rintro rfl tr s hrun hsent _
    have haccounted : Accounted s :=
      hrun.invariant (G := fun _ _ => True) (fun _ => accounted_init)
        (fun _ _ _ h _ => accounted_step h) (fun _ _ => trivial)
    have hsplit := haccounted.sent
    rw [hsent, List.append_assoc, eq_comm, List.append_eq_nil_iff] at hsplit
    rw [hsplit.1, hsent]

/-- The database the recovery cleans is that of the indexer. -/
abbrev recoveryStorage : EthereumBlockStorage (Server Unit) :=
  PgStorage.ethereumBlockStorage TransactionStorage.storageStandIns Server.pool

/-- The checker has sent one event and ended well; its success is taken at once. -/
theorem early_success :
    ∃ tr s, (recoveryMachine recoveryStorage).Run tr s ∧ s.sent = [7] ∧
      s.joined = some (.ok ()) ∧ 7 ∉ s.called := by
  obtain ⟨tr, s, hrun, hjoined, hsent, hcalled⟩ :=
    success_before_events (S := recoveryStorage) ⟨Db.empty, []⟩ [7]
  refine ⟨tr, s, hrun, hsent, hjoined, ?_⟩
  rw [hcalled]
  exact List.not_mem_nil

def emptyServer : Server Unit := ⟨Db.empty, []⟩

/-- The processor cleans from slot 7 on before the checker ends, and sees the channel closed. -/
def patientTrace : List (RecoveryState (Server Unit) × RecoveryAction (Server Unit)) :=
  [(waiting emptyServer [], .send 7),
   (waiting emptyServer [7], .receive),
   (⟨emptyServer, [7], [], [], [7], none, .cleaning 7, none⟩, .cleaned),
   (⟨emptyServer, [7], [], [], [7], none, .receiving, none⟩, .checkerEnds (.ok ())),
   (⟨emptyServer, [7], [], [], [7], some (.ok ()), .receiving, none⟩, .takeChecker)]

def patientState : RecoveryState (Server Unit) :=
  ⟨emptyServer, [7], [], [], [7], some (.ok ()), .receiving, some (.ok ())⟩

theorem patient_run : (recoveryMachine recoveryStorage).Run patientTrace patientState := by
  have hstart : (recoveryMachine recoveryStorage).Run [] (waiting emptyServer []) :=
    .start ⟨emptyServer, rfl⟩
  have hsend : (recoveryMachine recoveryStorage).step (waiting emptyServer []) (.send 7)
      (waiting emptyServer [7]) := ⟨rfl, rfl⟩
  have hreceive : (recoveryMachine recoveryStorage).step (waiting emptyServer [7]) .receive
      ⟨emptyServer, [7], [], [], [7], none, .cleaning 7, none⟩ := ⟨rfl, 7, [], rfl, rfl⟩
  have hcleaned : (recoveryMachine recoveryStorage).step
      ⟨emptyServer, [7], [], [], [7], none, .cleaning 7, none⟩ .cleaned
      ⟨emptyServer, [7], [], [], [7], none, .receiving, none⟩ := ⟨7, rfl, rfl⟩
  have hends : (recoveryMachine recoveryStorage).step
      ⟨emptyServer, [7], [], [], [7], none, .receiving, none⟩ (.checkerEnds (.ok ()))
      ⟨emptyServer, [7], [], [], [7], some (.ok ()), .receiving, none⟩ := ⟨rfl, rfl⟩
  have htake : (recoveryMachine recoveryStorage).step
      ⟨emptyServer, [7], [], [], [7], some (.ok ()), .receiving, none⟩ .takeChecker
      patientState := ⟨rfl, .ok (), rfl, rfl⟩
  exact ((((hstart.next hsend).next hreceive).next hcleaned).next hends).next htake

theorem patient_waits_for_nothing : Machine.Meets NothingWaiting patientTrace := by
  intro e he
  simp only [patientTrace, List.mem_cons, List.not_mem_nil, or_false] at he
  rcases he with rfl | rfl | rfl | rfl | rfl
  · trivial
  · trivial
  · trivial
  · trivial
  · exact fun _ => ⟨rfl, rfl⟩

theorem patient_applies_all : Machine.Meets NothingWaiting patientTrace ∧
    ∀ u ∈ Machine.visited patientTrace patientState, AppliedAll u :=
  ⟨patient_waits_for_nothing,
    (recovery_applies_all_iff patient_run).mpr patient_waits_for_nothing⟩

end StandaloneIndexer

end RomeSdk
