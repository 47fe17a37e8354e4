import RomeSdk.Solana.BlockIndexer

/-!
# How often a block is delivered

The service runner starts a task of `index_blocks` again after it has sent its block, so
what counts is how many of the requests made until the runner gives up are answered. A
run is followed by the requests it made (`requested`): each has been made once, and these
are the first ones of every task, up to where the runner gives up (`Tracked`).

Whatever the order of the steps, no block is sent twice exactly when for no slot two such
requests are answered (`delivered_once_iff`).
-/

/-- Of a list without repetitions at most one element is counted exactly when any two that
are counted are the same. -/
theorem List.Nodup.countP_le_one {α : Type} {P : α → Bool} {l : List α} (h : l.Nodup) :
    l.countP P ≤ 1 ↔ ∀ a ∈ l, ∀ b ∈ l, P a = true → P b = true → a = b := by
  induction l with
  | nil => simp
  | cons x l ih =>
      obtain ⟨hx, hl⟩ := List.nodup_cons.mp h
      by_cases hPx : P x = true
      · rw [List.countP_cons_of_pos hPx, Nat.succ_le_succ_iff, Nat.le_zero, List.countP_eq_zero]
        constructor
        · intro hnone a ha b hb hPa hPb
          rcases List.mem_cons.mp ha with rfl | ha
          · rcases List.mem_cons.mp hb with rfl | hb
            · rfl
            · exact absurd hPb (hnone b hb)
          · exact absurd hPa (hnone a ha)
        · intro hall a ha hPa
          have heq := hall x (List.mem_cons_self ..) a (List.mem_cons_of_mem x ha) hPx hPa
          exact hx (heq ▸ ha)
      · rw [List.countP_cons_of_neg hPx, ih hl]
        constructor
        · intro hall a ha b hb hPa hPb
          rcases List.mem_cons.mp ha with rfl | ha
          · exact absurd hPa hPx
          · rcases List.mem_cons.mp hb with rfl | hb
            · exact absurd hPb hPx
            · exact hall a ha b hb hPa hPb
        · intro hall a ha b hb
          exact hall a (List.mem_cons_of_mem x ha) b (List.mem_cons_of_mem x hb)

namespace RomeSdk

namespace SolanaBlockIndexer

variable {I : SolanaBlockIndexer} {requests : Requests} {slots : List Slot}

/-! ## The steps -/

theorem receive_next {s t : BlocksState} (h : I.blocksNext requests s .receive = some t) :
    ∃ slot slotRx, s.slotRx = slot :: slotRx ∧ permits s.tasks < I.getBlockConcurrency ∧
      t = { s with slotRx := slotRx, tasks := s.tasks ++ [⟨slot, some .start⟩] } := by
  rw [blocksNext] at h
  split at h
  · cases h
  · next slot slotRx hrx =>
      split at h
      · next hpermit =>
          cases h
          exact ⟨slot, slotRx, hrx, hpermit, rfl⟩
      · cases h

theorem request_next {s t : BlocksState} {i : Nat}
    (h : I.blocksNext requests s (.request i) = some t) :
    ∃ slot c, s.tasks[i]? = some ⟨slot, some c⟩ ∧
      t = { s with
        tasks := s.tasks.set i ⟨slot, I.serviceRunner.exited c (requests i c.retries).elapsed⟩
        sent := s.sent ++ delivered slot (requests i c.retries).answer } := by
  rw [blocksNext] at h
  split at h
  · next slot c htask =>
      cases h
      exact ⟨slot, c, htask, rfl⟩
  · cases h

/-! ## The requests of a run -/

/-- The request that ends with the step: the place of its slot, and its number. -/
def requestOf (e : BlocksState × BlocksAction) : Option (Nat × Nat) :=
  match e.2 with
  | .receive => none
  | .request i => (e.1.tasks[i]?.bind SlotTask.retries).map fun c => (i, c.retries)

def requested (tr : List (BlocksState × BlocksAction)) : List (Nat × Nat) :=
  tr.filterMap requestOf

def isAnswered (requests : Requests) (p : Nat × Nat) : Bool :=
  match (requests p.1 p.2).answer with
  | .ok _ => true
  | .error _ => false

def answered (requests : Requests) (tr : List (BlocksState × BlocksAction)) : List (Nat × Nat) :=
  (requested tr).filter (isAnswered requests)

/-- How long the attempts of a task take. -/
def elapsed (requests : Requests) (i n : Nat) : Nat := (requests i n).elapsed

/-- What the steps of a run have come to, told by its requests. -/
structure Tracked (I : SolanaBlockIndexer) (requests : Requests) (slots : List Slot)
    (tr : List (BlocksState × BlocksAction)) (s : BlocksState) : Prop where
  queue : s.tasks.map SlotTask.slot ++ s.slotRx = slots
  counters : ∀ i slot c, s.tasks[i]? = some ⟨slot, some c⟩ →
    I.serviceRunner.afterExits (elapsed requests i) c.retries = some c
  nodup : (requested tr).Nodup
  mem : ∀ i n, (i, n) ∈ requested tr ↔ ∃ task, s.tasks[i]? = some task ∧
    I.serviceRunner.Tried (elapsed requests i) task.retries n
  sent : s.sent.map (fun d => some d.1) = (answered requests tr).map fun p => slots[p.1]?

theorem Tracked.slot_at {tr : List (BlocksState × BlocksAction)} {s : BlocksState}
    (h : Tracked I requests slots tr s) {i : Nat} {task : SlotTask}
    (htask : s.tasks[i]? = some task) : slots[i]? = some task.slot := by
  obtain ⟨hi, _⟩ := List.getElem?_eq_some_iff.mp htask
  rw [← h.queue, List.getElem?_append_left (by rwa [List.length_map]), List.getElem?_map, htask]
  rfl

theorem Tracked.receive {tr : List (BlocksState × BlocksAction)} {s t : BlocksState}
    (h : Tracked I requests slots tr s) (hnext : I.blocksNext requests s .receive = some t) :
    Tracked I requests slots (tr ++ [(s, .receive)]) t := by
  obtain ⟨slot, slotRx, hrx, _, rfl⟩ := receive_next hnext
  have hrequested : requested (tr ++ [(s, .receive)]) = requested tr := by
    rw [requested, List.filterMap_append]
    exact List.append_nil _
  have hspawned : ∀ {i : Nat} {task : SlotTask},
      (s.tasks ++ [⟨slot, some .start⟩])[i]? = some task →
      s.tasks[i]? = some task ∨ i = s.tasks.length ∧ task = ⟨slot, some .start⟩ := by
    intro i task htask
    rcases Nat.lt_trichotomy i s.tasks.length with hi | rfl | hi
    · rw [List.getElem?_append_left hi] at htask
      exact Or.inl htask
    · rw [List.getElem?_concat_length] at htask
      exact Or.inr ⟨rfl, (Option.some.inj htask).symm⟩
    · rw [List.getElem?_eq_none (by rw [List.length_append]; exact hi)] at htask
      cases htask
  refine ⟨?_, ?_, ?_, ?_, ?_⟩
  · rw [← h.queue, hrx, List.map_append, List.append_assoc]
    rfl
  · intro i slot' c htask
    rcases hspawned htask with htask | ⟨_, heq⟩
    · exact h.counters i slot' c htask
    · cases heq
      rfl
  · rw [hrequested]
    exact h.nodup
  · intro i n
    rw [hrequested, h.mem]
    constructor
    · rintro ⟨task, htask, hmade⟩
      obtain ⟨hi, _⟩ := List.getElem?_eq_some_iff.mp htask
      exact ⟨task, by rw [List.getElem?_append_left hi, htask], hmade⟩
    · rintro ⟨task, htask, htried⟩
      rcases hspawned htask with htask | ⟨_, rfl⟩
      · exact ⟨task, htask, htried⟩
      · exact absurd (ServiceRunner.tried_some.mp htried).2 (Nat.not_lt_zero n)
  · rw [answered, hrequested]
    exact h.sent

theorem requested_request {tr : List (BlocksState × BlocksAction)} {s : BlocksState} {i : Nat}
    {slot : Slot} {c : Retries} (htask : s.tasks[i]? = some ⟨slot, some c⟩) :
    requested (tr ++ [(s, .request i)]) = requested tr ++ [(i, c.retries)] := by
  rw [requested, List.filterMap_append]
  simp only [requestOf, List.filterMap_cons, htask, Option.bind_some, Option.map_some,
    List.filterMap_nil]
  rfl

/-- What the requests of the task are before and after the step. -/
theorem Tracked.mem_request {tr : List (BlocksState × BlocksAction)} {s : BlocksState} {i : Nat}
    (h : Tracked I requests slots tr s) {slot : Slot} {c : Retries}
    (htask : s.tasks[i]? = some ⟨slot, some c⟩) (j n : Nat) :
    (j, n) ∈ requested tr ++ [(i, c.retries)] ↔ ∃ task,
      (s.tasks.set i ⟨slot, I.serviceRunner.exited c (requests i c.retries).elapsed⟩)[j]?
        = some task ∧ I.serviceRunner.Tried (elapsed requests j) task.retries n := by
  rw [List.mem_append, List.mem_singleton, h.mem]
  by_cases hj : i = j
  · subst hj
    have hexited := ServiceRunner.tried_exited (h.counters i slot c htask) (n := n)
    rw [List.getElem?_set_self (List.getElem?_eq_some_iff.mp htask).1, htask]
    constructor
    · rintro (⟨task, heq, htried⟩ | heq)
      · cases heq
        exact ⟨_, rfl, hexited.mpr (Or.inl htried)⟩
      · cases heq
        exact ⟨_, rfl, hexited.mpr (Or.inr rfl)⟩
    · rintro ⟨task, heq, htried⟩
      cases heq
      rcases hexited.mp htried with htried | rfl
      · exact Or.inl ⟨_, rfl, htried⟩
      · exact Or.inr rfl
  · rw [List.getElem?_set_ne hj]
    constructor
    · rintro (hmade | heq)
      · exact hmade
      · exact absurd (congrArg Prod.fst heq).symm hj
    · exact Or.inl

theorem Tracked.request {tr : List (BlocksState × BlocksAction)} {s t : BlocksState} {i : Nat}
    (h : Tracked I requests slots tr s) (hnext : I.blocksNext requests s (.request i) = some t) :
    Tracked I requests slots (tr ++ [(s, .request i)]) t := by
  obtain ⟨slot, c, htask, rfl⟩ := request_next hnext
  have hcounters := h.counters i slot c htask
  have hrequested : requested (tr ++ [(s, .request i)]) = requested tr ++ [(i, c.retries)] :=
    requested_request htask
  refine ⟨?_, ?_, ?_, ?_, ?_⟩
  · rw [List.map_set, ← h.queue]
    congr 1
    have hslot : (s.tasks.map SlotTask.slot)[i]? = some slot := by
      rw [List.getElem?_map, htask]
      rfl
    obtain ⟨hlt, rfl⟩ := List.getElem?_eq_some_iff.mp hslot
    exact List.set_getElem_self hlt
  · intro j slot' c' htask'
    by_cases hj : i = j
    · subst hj
      rw [List.getElem?_set_self (List.getElem?_eq_some_iff.mp htask).1] at htask'
      obtain ⟨rfl, hc'⟩ := SlotTask.mk.inj (Option.some.inj htask')
      rw [(ServiceRunner.exited_some hc').1, ServiceRunner.afterExits, hcounters]
      exact hc'
    · rw [List.getElem?_set_ne hj] at htask'
      exact h.counters j slot' c' htask'
  · rw [hrequested]
    refine List.nodup_append.mpr ⟨h.nodup, List.nodup_singleton _, ?_⟩
    intro p hp q hq heq
    rw [heq, List.mem_singleton.mp hq, h.mem] at hp
    obtain ⟨task, heq', htried⟩ := hp
    rw [htask] at heq'
    cases heq'
    exact Nat.lt_irrefl _ (ServiceRunner.tried_some.mp htried).2
  · intro j n
    rw [hrequested]
    exact h.mem_request htask j n
  · rw [List.map_append, h.sent, answered, answered, hrequested, List.filter_append,
      List.map_append]
    congr 1
    rw [List.filter_singleton, isAnswered]
    cases hanswer : (requests i c.retries).answer with
    | ok block => exact congrArg (fun o => [o]) (h.slot_at htask).symm
    | error e => rfl

theorem tracked {tr : List (BlocksState × BlocksAction)} {s : BlocksState}
    (h : Machine.Run (I.blocksMachine requests slots) tr s) : Tracked I requests slots tr s := by
  induction h with
  | start hinit =>
      cases hinit
      exact ⟨rfl, fun i slot c htask => (by cases htask), List.nodup_nil,
        fun i n => ⟨fun hmem => (by cases hmem), fun ⟨task, htask, _⟩ => (by cases htask)⟩, rfl⟩
  | @next tr s t a _ hstep ih =>
      cases a with
      | receive => exact ih.receive hstep
      | request i => exact ih.request hstep

/-! ## Delivered once -/

def deliveries (s : BlocksState) (slot : Slot) : Nat := s.sent.countP fun d => d.1 = slot

/-- One of the attempts the run made for the slot has succeeded. -/
def Succeeded (requests : Requests) (slots : List Slot) (tr : List (BlocksState × BlocksAction))
    (slot : Slot) : Prop :=
  ∃ p ∈ answered requests tr, slots[p.1]? = some slot

/-- The block of no slot was sent twice, and it was sent if an attempt has succeeded. -/
def DeliveredOnce (requests : Requests) (slots : List Slot)
    (tr : List (BlocksState × BlocksAction)) (s : BlocksState) : Prop :=
  ∀ slot, deliveries s slot ≤ 1 ∧ (Succeeded requests slots tr slot → deliveries s slot = 1)

theorem Tracked.deliveries_eq {tr : List (BlocksState × BlocksAction)} {s : BlocksState}
    (h : Tracked I requests slots tr s) (slot : Slot) :
    deliveries s slot = (answered requests tr).countP fun p => slots[p.1]? = some slot := by
  have hcount := congrArg (List.countP fun o => o = some slot) h.sent
  rw [List.countP_map, List.countP_map] at hcount
  calc deliveries s slot
      = s.sent.countP ((fun o => o = some slot) ∘ fun d => some d.1) := by
        refine List.countP_congr fun d _ => ?_
        simp only [Function.comp_apply, decide_eq_true_eq, Option.some.injEq]
    _ = _ := hcount

theorem Tracked.deliveredOnce_iff {tr : List (BlocksState × BlocksAction)} {s : BlocksState}
    (h : Tracked I requests slots tr s) :
    DeliveredOnce requests slots tr s ↔ ∀ slot, ∀ p ∈ answered requests tr,
      ∀ q ∈ answered requests tr, slots[p.1]? = some slot → slots[q.1]? = some slot → p = q := by
  have hle : ∀ slot, deliveries s slot ≤ 1 ↔ ∀ p ∈ answered requests tr,
      ∀ q ∈ answered requests tr, slots[p.1]? = some slot → slots[q.1]? = some slot → p = q := by
    intro slot
    have hnodup : (answered requests tr).Nodup := h.nodup.filter _
    rw [h.deliveries_eq, hnodup.countP_le_one]
    simp only [decide_eq_true_eq]
  constructor
  · intro honce slot
    exact (hle slot).mp (honce slot).1
  · intro hall slot
    refine ⟨(hle slot).mpr (hall slot), fun ⟨p, hp, hslot⟩ => ?_⟩
    refine Nat.le_antisymm ((hle slot).mpr (hall slot)) ?_
    rw [h.deliveries_eq]
    exact List.countP_pos_iff.mpr ⟨p, hp, decide_eq_true hslot⟩

/-! ## A run to the end -/

/-- A task can be run to where its runner gives up. -/
theorem task_ends (left : Nat) : ∀ {tr : List (BlocksState × BlocksAction)} {s : BlocksState}
    {i : Nat} {slot : Slot} {c : Retries},
    Machine.Run (I.blocksMachine requests slots) tr s → s.tasks[i]? = some ⟨slot, some c⟩ →
    I.serviceRunner.maxRetries ≤ c.retries + left →
    ∃ tr' s', Machine.Run (I.blocksMachine requests slots) tr' s' ∧ s'.slotRx = s.slotRx ∧
      s'.tasks = s.tasks.set i ⟨slot, none⟩ := by
  induction left with
  | zero =>
      intro tr s i slot c hrun htask hleft
      have hnext : I.blocksNext requests s (.request i) = some { s with
          tasks := s.tasks.set i ⟨slot, none⟩
          sent := s.sent ++ delivered slot (requests i c.retries).answer } := by
        have hend : I.serviceRunner.exited c (requests i c.retries).elapsed = none :=
          if_pos (Or.inr (Nat.le_succ_of_le hleft))
        rw [blocksNext, htask]
        dsimp only
        rw [hend]
      exact ⟨_, _, hrun.next hnext, rfl, rfl⟩
  | succ left ih =>
      intro tr s i slot c hrun htask hleft
      have hnext : I.blocksNext requests s (.request i) = some { s with
          tasks := s.tasks.set i
            ⟨slot, I.serviceRunner.exited c (requests i c.retries).elapsed⟩
          sent := s.sent ++ delivered slot (requests i c.retries).answer } := by
        rw [blocksNext, htask]
      cases hexit : I.serviceRunner.exited c (requests i c.retries).elapsed with
      | none =>
          rw [hexit] at hnext
          exact ⟨_, _, hrun.next hnext, rfl, rfl⟩
      | some c' =>
          rw [hexit] at hnext
          have hi := (List.getElem?_eq_some_iff.mp htask).1
          obtain ⟨tr', s', hrun', hrx, htasks⟩ :=
            ih (hrun.next hnext) (List.getElem?_set_self hi)
              (by rw [(ServiceRunner.exited_some hexit).1]; omega)
          exact ⟨tr', s', hrun', hrx, by rw [htasks, List.set_set]⟩

/-- With a permit all slots are received and all runners give up at last. -/
theorem all_end (I : SolanaBlockIndexer) (requests : Requests) (slots : List Slot)
    (hpermit : 0 < I.getBlockConcurrency) (k : Nat) (hk : k ≤ slots.length) :
    ∃ tr s, Machine.Run (I.blocksMachine requests slots) tr s ∧ s.slotRx = slots.drop k ∧
      s.tasks.length = k ∧ ∀ task ∈ s.tasks, task.retries = none := by
  induction k with
  | zero => exact ⟨[], _, .start rfl, rfl, rfl, fun task htask => (by cases htask)⟩
  | succ k ih =>
      obtain ⟨tr, s, hrun, hrx, hlength, hover⟩ := ih (Nat.le_of_succ_le hk)
      rw [List.drop_eq_getElem_cons (Nat.lt_of_succ_le hk)] at hrx
      have hnone : permits s.tasks = 0 := by
        rw [permits, List.countP_eq_zero]
        intro task htask
        rw [hover task htask]
        exact Bool.false_ne_true
      have hnext : I.blocksNext requests s .receive = some { s with
          slotRx := slots.drop (k + 1)
          tasks := s.tasks ++ [⟨slots[k], some .start⟩] } := by
        rw [blocksNext, hrx]
        dsimp only
        rw [if_pos (by rwa [hnone])]
      obtain ⟨tr', s', hrun', hrx', htasks⟩ := task_ends I.serviceRunner.maxRetries
        (hrun.next hnext) (List.getElem?_concat_length (l := s.tasks)) (Nat.le_add_left ..)
      rw [List.set_append_right _ _ (Nat.le_refl _), Nat.sub_self] at htasks
      refine ⟨tr', s', hrun', hrx', ?_, ?_⟩
      · rw [htasks, List.length_append, hlength]
        rfl
      · intro task htask
        rw [htasks] at htask
        rcases List.mem_append.mp htask with htask | htask
        · exact hover task htask
        · rw [List.mem_singleton.mp htask]

/-! ## Exactly when -/

/-- The request is answered and its runner has not given up before it. -/
def Delivers (I : SolanaBlockIndexer) (requests : Requests) (p : Nat × Nat) : Prop :=
  isAnswered requests p = true ∧
    ¬ I.serviceRunner.GaveUpBy (fun n => (requests p.1 n).elapsed) p.2

/-- For no slot two requests are answered before the runners give up. -/
def OneAnswer (I : SolanaBlockIndexer) (requests : Requests) (slots : List Slot) : Prop :=
  ∀ slot p q, slots[p.1]? = some slot → slots[q.1]? = some slot →
    Delivers I requests p → Delivers I requests q → p = q

/-- Where the runner has more than one try of either kind, it asks again for a block it got
at the first request. -/
theorem not_oneAnswer (hunhealthy : 2 ≤ I.serviceRunner.unhealthyRetries)
    (hmax : 2 ≤ I.serviceRunner.maxRetries) {i : Nat} {slot : Slot} (hslot : slots[i]? = some slot)
    (hfirst : isAnswered requests (i, 0) = true) (hsecond : isAnswered requests (i, 1) = true) :
    ¬ OneAnswer I requests slots := by
  intro hcond
  have hone : Delivers I requests (i, 1) :=
    ⟨hsecond, ServiceRunner.not_gaveUpBy_one hunhealthy hmax⟩
  have hzero : Delivers I requests (i, 0) :=
    ⟨hfirst, fun h => ServiceRunner.not_gaveUpBy_one hunhealthy hmax (h.mono (Nat.zero_le 1))⟩
  cases hcond slot (i, 0) (i, 1) hslot hslot hzero hone

/-- With no permit at all no task is spawned. -/
theorem no_task {tr : List (BlocksState × BlocksAction)} {s : BlocksState}
    (h : Machine.Run (I.blocksMachine requests slots) tr s) (hpermit : I.getBlockConcurrency = 0) :
    s.tasks = [] := by
  induction h with
  | start hinit =>
      cases hinit
      rfl
  | @next tr s t a _ hstep ih =>
      cases a with
      | receive =>
          obtain ⟨_, _, _, hlt, _⟩ := receive_next hstep
          rw [hpermit] at hlt
          exact absurd hlt (Nat.not_lt_zero _)
      | request i =>
          obtain ⟨_, _, htask, _⟩ := request_next hstep
          rw [ih] at htask
          cases htask

/-- In every run each block is delivered once exactly when there is no permit, or for no
slot two requests are answered before the runners give up. -/
theorem delivered_once_iff (I : SolanaBlockIndexer) (requests : Requests) (slots : List Slot) :
    (∀ tr s, Machine.Run (I.blocksMachine requests slots) tr s →
      DeliveredOnce requests slots tr s) ↔
    I.getBlockConcurrency = 0 ∨ OneAnswer I requests slots := by
  constructor
  · intro hall
    refine (Nat.eq_zero_or_pos I.getBlockConcurrency).imp id fun hpermit => ?_
    obtain ⟨tr, s, hrun, _, hlength, hover⟩ := all_end I requests slots hpermit _ (Nat.le_refl _)
    have h := tracked hrun
    have honce := h.deliveredOnce_iff.mp (hall tr s hrun)
    have hmade : ∀ {slot : Slot} {p : Nat × Nat}, slots[p.1]? = some slot →
        Delivers I requests p → p ∈ answered requests tr := by
      intro slot p hslot hp
      refine List.mem_filter.mpr ⟨(h.mem p.1 p.2).mpr ?_, hp.1⟩
      have hlt : p.1 < s.tasks.length := by
        rw [hlength]
        exact (List.getElem?_eq_some_iff.mp hslot).1
      refine ⟨_, List.getElem?_eq_getElem hlt, hp.2, fun c hc => ?_⟩
      rw [hover _ (List.getElem_mem hlt)] at hc
      cases hc
    intro slot p q hp hq hp' hq'
    exact honce slot p (hmade hp hp') q (hmade hq hq') hp hq
  · intro hcond tr s hrun
    have h := tracked hrun
    refine h.deliveredOnce_iff.mpr fun slot p hp q hq hpslot hqslot => ?_
    have hmade : ∀ p ∈ answered requests tr, Delivers I requests p ∧ s.tasks ≠ [] := by
      intro p hp
      obtain ⟨hp, hanswered⟩ := List.mem_filter.mp hp
      obtain ⟨task, htask, hgoes, _⟩ := (h.mem p.1 p.2).mp hp
      exact ⟨⟨hanswered, hgoes⟩, List.ne_nil_of_mem (List.mem_of_getElem? htask)⟩
    rcases hcond with hpermit | hcond
    · exact absurd (no_task hrun hpermit) (hmade p hp).2
    · exact hcond slot p q hpslot hqslot (hmade p hp).1 (hmade q hq).1

/-! ## A block that is delivered twice -/

/-- Ten tries at most, and five quick ones in a row. -/
def tenTries : SolanaBlockIndexer := ⟨⟨5, 5000, 10⟩, 10⟩

def someBlock : UiConfirmedBlock := ⟨"parent", "block", 6, none, some 0⟩

/-- Every request is answered at once. -/
def promptRequests : Requests := fun _ _ => ⟨0, .ok someBlock⟩

/-- The runs in which slot 7 is received and its requests come to their ends. -/
def promptMachine : Machine BlocksState BlocksAction :=
  tenTries.blocksMachine promptRequests [7]

theorem tenTries_goes_on (n : Nat) (hn : n < 4) :
    tenTries.serviceRunner.exited ⟨n, n⟩ 0 = some ⟨n + 1, n + 1⟩ := by
  have hquick : tenTries.serviceRunner.tooQuick 0 = true := decide_eq_true (by decide)
  rw [ServiceRunner.exited, if_pos hquick]
  refine if_neg ?_
  simp only [tenTries]
  omega

theorem asked_twice : ∃ tr, Machine.Run promptMachine tr
    ⟨[], [⟨7, some ⟨2, 2⟩⟩], [(7, someBlock), (7, someBlock)]⟩ := by
  have hreceive : promptMachine.step ⟨[7], [], []⟩ .receive ⟨[], [⟨7, some ⟨0, 0⟩⟩], []⟩ := rfl
  have hfirst : promptMachine.step ⟨[], [⟨7, some ⟨0, 0⟩⟩], []⟩ (.request 0)
      ⟨[], [⟨7, some ⟨1, 1⟩⟩], [(7, someBlock)]⟩ := by
    rw [← tenTries_goes_on 0 (by decide)]
    rfl
  have hsecond : promptMachine.step ⟨[], [⟨7, some ⟨1, 1⟩⟩], [(7, someBlock)]⟩ (.request 0)
      ⟨[], [⟨7, some ⟨2, 2⟩⟩], [(7, someBlock), (7, someBlock)]⟩ := by
    rw [← tenTries_goes_on 1 (by decide)]
    rfl
  exact ⟨_, ((Machine.Run.start rfl).next hreceive).next hfirst |>.next hsecond⟩

/-- The request for slot 7 is answered, and made again. -/
theorem answered_request_made_again :
    ¬ ∀ (I : SolanaBlockIndexer) (requests : Requests) (slots : List Slot),
      2 ≤ I.serviceRunner.unhealthyRetries → 2 ≤ I.serviceRunner.maxRetries →
      ∀ tr s, Machine.Run (I.blocksMachine requests slots) tr s →
        DeliveredOnce requests slots tr s := by
  intro hall
  obtain ⟨tr, hrun⟩ := asked_twice
  have hle := (hall tenTries promptRequests [7] (by decide) (by decide) tr _ hrun 7).1
  exact absurd hle (by decide)

end SolanaBlockIndexer

end RomeSdk
