import RomeSdk.Solana.BlockIndexer

/-!
# The stream of slots across restarts

An attempt of `index_slots` goes on from slot to slot by itself: what it asks for next is
just above what it sent last. Where it is started again it begins from the slot that was
given, or from what `get_slot` answers by then, whatever has been sent. So the stream has
no gap and no repetition exactly when each start that brings slots `Continues` what was
sent (`no_gap_iff`); with a start slot given this is when nothing was sent yet
(`continues_given_iff`).
-/

namespace RomeSdk

namespace SolanaBlockIndexer

variable {I : SolanaBlockIndexer} {startSlot : Option Slot} {s t : SlotsState}

theorem mem_getBlocks {chain : List Slot} {slot b : Slot} :
    b ∈ getBlocks chain slot ↔ b ∈ chain ∧ slot ≤ b := by
  rw [getBlocks, List.mem_filter, decide_eq_true_eq]

theorem nextSlot_of_getLast? {slot last : Slot} {blocks : List Slot}
    (h : blocks.getLast? = some last) : nextSlot slot blocks = last + 1 := by
  rw [nextSlot, h]

/-! ## The steps -/

theorem grow_next {slots : List Slot} (h : I.slotsNext startSlot s (.grow slots) = some t) :
    (s.chain ++ slots).Pairwise (· < ·) ∧ t = { s with chain := s.chain ++ slots } := by
  rw [slotsNext] at h
  split at h
  · next hchain =>
      cases h
      exact ⟨hchain, rfl⟩
  · cases h

theorem start_next {answer : Slot} (h : I.slotsNext startSlot s (.start answer) = some t) :
    t = { s with
      slot := some (startSlot.getD answer)
      starts := s.starts ++ [startSlot.getD answer] } := by
  rw [slotsNext] at h
  split at h
  · cases h
    rfl
  · cases h

theorem getBlocks_next (h : I.slotsNext startSlot s .getBlocks = some t) :
    ∃ slot, s.slot = some slot ∧ t = { s with
      slot := some (nextSlot slot (getBlocks s.chain slot))
      sent := s.sent ++ getBlocks s.chain slot } := by
  rw [slotsNext] at h
  split at h
  · next slot hslot =>
      cases h
      exact ⟨slot, hslot, rfl⟩
  · cases h

theorem fail_next {elapsed : Nat} (h : I.slotsNext startSlot s (.fail elapsed) = some t) :
    ∃ retries, t = { s with slot := none, retries := retries } := by
  rw [slotsNext] at h
  split at h
  · split at h
    · cases h
    · cases h
      exact ⟨_, rfl⟩
  · cases h

/-! ## What holds of every run -/

/-- An attempt asks from its start, or from just above the last slot sent. -/
structure Streaming (s : SlotsState) : Prop where
  ascending : s.chain.Pairwise (· < ·)
  known : ∀ b ∈ s.sent, b ∈ s.chain
  started : ∀ slot, s.slot = some slot → s.starts ≠ []
  unsent : s.starts = [] → s.sent = []
  asks : ∀ slot, s.slot = some slot →
    s.starts.getLast? = some slot ∨ ∃ last, s.sent.getLast? = some last ∧ slot = last + 1

theorem streaming_init (h : (I.slotsMachine startSlot).init s) : Streaming s := by
  obtain ⟨hchain, hslot, _, hstarts, hsent⟩ := h
  refine ⟨hchain, ?_, ?_, fun _ => hsent, ?_⟩
  · rw [hsent]
    intro b hb
    cases hb
  · rw [hslot]
    intro slot heq
    cases heq
  · rw [hslot]
    intro slot heq
    cases heq

theorem Streaming.getBlocks {slot : Slot} (h : Streaming s) (hslot : s.slot = some slot) :
    Streaming { s with
      slot := some (nextSlot slot (getBlocks s.chain slot))
      sent := s.sent ++ SolanaBlockIndexer.getBlocks s.chain slot } where
  ascending := h.ascending
  known := by
    intro b hb
    rcases List.mem_append.mp hb with hb | hb
    · exact h.known b hb
    · exact (mem_getBlocks.mp hb).1
  started _ _ := h.started slot hslot
  unsent hnone := absurd hnone (h.started slot hslot)
  asks := by
    intro next hnext
    cases hlast : (SolanaBlockIndexer.getBlocks s.chain slot).getLast? with
    | none =>
        rw [List.getLast?_eq_none_iff] at hlast
        rw [hlast] at hnext ⊢
        cases hnext
        rw [List.append_nil]
        exact h.asks slot hslot
    | some last =>
        rw [nextSlot_of_getLast? hlast] at hnext
        cases hnext
        refine Or.inr ⟨last, ?_, rfl⟩
        rw [List.getLast?_append, hlast]
        rfl

theorem Streaming.step {a : SlotsAction} (h : Streaming s)
    (hstep : (I.slotsMachine startSlot).step s a t) : Streaming t := by
  cases a with
  | grow slots =>
      obtain ⟨hchain, rfl⟩ := grow_next hstep
      exact ⟨hchain, fun b hb => List.mem_append_left slots (h.known b hb), h.started, h.unsent,
        h.asks⟩
  | start answer =>
      cases start_next hstep
      refine ⟨h.ascending, h.known, fun _ _ => List.concat_ne_nil _ _, fun hnone => ?_, ?_⟩
      · exact absurd hnone (List.concat_ne_nil _ _)
      · intro slot hslot
        cases hslot
        exact Or.inl List.getLast?_concat
  | getBlocks =>
      obtain ⟨slot, hslot, rfl⟩ := getBlocks_next hstep
      exact h.getBlocks hslot
  | fail elapsed =>
      obtain ⟨retries, rfl⟩ := fail_next hstep
      exact ⟨h.ascending, h.known, fun _ heq => (by cases heq), h.unsent,
        fun _ heq => (by cases heq)⟩

/-! ## No gap and no repetition -/

/-- The slots sent are strictly ascending, and from the first start up to the last of them no
slot with a block is missing. -/
def Gapless (s : SlotsState) : Prop :=
  s.sent.Pairwise (· < ·) ∧ ∀ first last, s.starts.head? = some first →
    s.sent.getLast? = some last → ∀ b ∈ s.chain, first ≤ b → b ≤ last → b ∈ s.sent

/-- All that was sent is below the slot, and it is every slot with a block from the first
start up to there. -/
def Continues (s : SlotsState) (start : Slot) : Prop :=
  (∀ b ∈ s.sent, b < start) ∧
    ∀ first, s.starts.head? = some first → ∀ b ∈ s.chain, first ≤ b → b < start → b ∈ s.sent

/-- An attempt that asks from its own start and gets slots continues what was sent. -/
def Resumes (s : SlotsState) : SlotsAction → Prop
  | .getBlocks => ∀ start, s.slot = some start → s.starts.getLast? = some start →
      getBlocks s.chain start ≠ [] → Continues s start
  | _ => True

theorem getLast?_of_mem {l : List Slot} (hl : l.Pairwise (· < ·)) {b last : Slot} (hb : b ∈ l)
    (hlast : l.getLast? = some last) : b ≤ last := by
  obtain ⟨init, rfl⟩ := List.getLast?_eq_some_iff.mp hlast
  rcases List.mem_append.mp hb with hb | hb
  · exact Nat.le_of_lt ((List.pairwise_append.mp hl).2.2 b hb last (List.mem_singleton.mpr rfl))
  · exact Nat.le_of_eq (List.mem_singleton.mp hb)

/-- What an answer from the slot on adds keeps the stream gapless exactly when the slot
continues it. -/
theorem gapless_append_iff (h : Streaming s) (hs : s.sent.Pairwise (· < ·)) {slot : Slot}
    {next : Option Slot} (hsome : getBlocks s.chain slot ≠ []) :
    Gapless { s with slot := next, sent := s.sent ++ getBlocks s.chain slot } ↔
      Continues s slot := by
  have hanswer : (getBlocks s.chain slot).Pairwise (· < ·) := h.ascending.filter _
  obtain ⟨last, hlast⟩ : ∃ last, (getBlocks s.chain slot).getLast? = some last :=
    ⟨_, List.getLast?_eq_some_getLast hsome⟩
  have hlast_mem := mem_getBlocks.mp (List.mem_of_getLast? hlast)
  have hlast' : (s.sent ++ getBlocks s.chain slot).getLast? = some last := by
    rw [List.getLast?_append, hlast]
    rfl
  constructor
  · rintro ⟨hsorted, hfull⟩
    have hcross := (List.pairwise_append.mp hsorted).2.2
    constructor
    · intro b hb
      by_contra hge
      have hb' := mem_getBlocks.mpr ⟨h.known b hb, Nat.le_of_not_lt hge⟩
      exact Nat.lt_irrefl b (hcross b hb b hb')
    · intro first hfirst b hb hlo hlt
      have hle : b ≤ last := Nat.le_trans (Nat.le_of_lt hlt) hlast_mem.2
      rcases List.mem_append.mp (hfull first last hfirst hlast' b hb hlo hle) with hb' | hb'
      · exact hb'
      · exact absurd (mem_getBlocks.mp hb').2 (Nat.not_le_of_lt hlt)
  · rintro ⟨hbelow, hfull⟩
    refine ⟨List.pairwise_append.mpr ⟨hs, hanswer, fun b hb c hc => ?_⟩, ?_⟩
    · exact Nat.lt_of_lt_of_le (hbelow b hb) (mem_getBlocks.mp hc).2
    · intro first _ hfirst _ b hb hlo _
      rcases Nat.lt_or_ge b slot with hlt | hge
      · exact List.mem_append_left _ (hfull first hfirst b hb hlo hlt)
      · exact List.mem_append_right _ (mem_getBlocks.mpr ⟨hb, hge⟩)

/-- What was sent so far is continued just above the last slot. -/
theorem Gapless.continues (hs : Gapless s) {last : Slot} (hlast : s.sent.getLast? = some last) :
    Continues s (last + 1) :=
  ⟨fun _ hb => Nat.lt_succ_of_le (getLast?_of_mem hs.1 hb hlast),
    fun first hfirst b hb hlo hlt => hs.2 first last hfirst hlast b hb hlo (Nat.le_of_lt_succ hlt)⟩

theorem gapless_getBlocks_iff (h : Streaming s) (hs : Gapless s) {slot : Slot}
    (hslot : s.slot = some slot) :
    Gapless { s with
      slot := some (nextSlot slot (getBlocks s.chain slot))
      sent := s.sent ++ getBlocks s.chain slot } ↔ Resumes s .getBlocks := by
  by_cases hnone : getBlocks s.chain slot = []
  · rw [hnone, List.append_nil]
    refine iff_of_true hs fun start hstart _ hsome => ?_
    rw [hslot] at hstart
    cases hstart
    exact absurd hnone hsome
  · rw [gapless_append_iff h hs.1 hnone]
    constructor
    · intro hcontinues start hstart _ _
      rw [hslot] at hstart
      cases hstart
      exact hcontinues
    · intro hresumes
      rcases h.asks slot hslot with hstart | ⟨last, hlast, rfl⟩
      · exact hresumes slot hslot hstart hnone
      · exact hs.continues hlast

theorem gapless_step_iff {a : SlotsAction} (h : Streaming s) (hs : Gapless s)
    (hstep : (I.slotsMachine startSlot).step s a t) : Gapless t ↔ Resumes s a := by
  cases a with
  | grow slots =>
      obtain ⟨hchain, rfl⟩ := grow_next hstep
      refine iff_of_true ⟨hs.1, fun first last hfirst hlast b hb hlo hle => ?_⟩ trivial
      rcases List.mem_append.mp hb with hb | hb
      · exact hs.2 first last hfirst hlast b hb hlo hle
      · have hknown := h.known last (List.mem_of_getLast? hlast)
        exact absurd hle (Nat.not_le_of_lt ((List.pairwise_append.mp hchain).2.2 _ hknown b hb))
  | start answer =>
      cases start_next hstep
      refine iff_of_true ⟨hs.1, fun first last hfirst hlast b hb hlo hle => ?_⟩ trivial
      cases hstarts : s.starts with
      | nil =>
          rw [h.unsent hstarts] at hlast
          cases hlast
      | cons start starts =>
          rw [hstarts] at hfirst
          exact hs.2 first last (by rw [hstarts]; exact hfirst) hlast b hb hlo hle
  | getBlocks =>
      obtain ⟨slot, hslot, rfl⟩ := getBlocks_next hstep
      exact gapless_getBlocks_iff h hs hslot
  | fail elapsed =>
      obtain ⟨retries, rfl⟩ := fail_next hstep
      exact iff_of_true hs trivial

/-- The stream is gapless throughout a run exactly when every attempt that asks from its own
start and gets slots continues what was sent. -/
theorem no_gap_iff {tr : List (SlotsState × SlotsAction)}
    (h : Machine.Run (I.slotsMachine startSlot) tr s) :
    (∀ t ∈ Machine.visited tr s, Gapless t) ↔ Machine.Meets Resumes tr :=
  Machine.Run.always_iff (fun _ hinit => streaming_init hinit)
    (fun _ _ _ hs hstep => hs.step hstep)
    (fun _ hinit => by
      obtain ⟨_, _, _, _, hsent⟩ := hinit
      refine ⟨by rw [hsent]; exact .nil, fun first last _ hlast => ?_⟩
      rw [hsent] at hlast
      cases hlast)
    (fun _ _ _ hs hgapless hstep => gapless_step_iff hs hgapless hstep) h

/-! ## Two runs with a restart -/

/-- No attempt is too quick, and ten are made. -/
def patientIndexer : SolanaBlockIndexer := ⟨⟨5, 0, 10⟩, 10⟩

/-- The chain has blocks at 5 and 6. -/
def twoSlots (slot : Option Slot) (retries : Nat) (starts sent : List Slot) : SlotsState :=
  ⟨[5, 6], slot, some ⟨retries, 0⟩, starts, sent⟩

/-- The first failure is followed by another attempt. -/
theorem fails_once (startSlot : Option Slot) (slot : Slot) (starts sent : List Slot) :
    (patientIndexer.slotsMachine startSlot).step (twoSlots (some slot) 0 starts sent) (.fail 1)
      (twoSlots none 1 starts sent) := by
  have hslow : patientIndexer.serviceRunner.tooQuick 1 = false := decide_eq_false (by decide)
  have hexit : patientIndexer.serviceRunner.exited ⟨0, 0⟩ 1 = some ⟨1, 0⟩ := by
    rw [ServiceRunner.exited, hslow]
    exact if_neg (by decide)
  show some { twoSlots (some slot) 0 starts sent with
    slot := none, retries := patientIndexer.serviceRunner.exited ⟨0, 0⟩ 1 } = some _
  rw [hexit]
  rfl

/-- Without a start slot, and with a failure before any slot was sent. -/
def earlyFailure : List (SlotsState × SlotsAction) :=
  [(twoSlots none 0 [] [], .start 5), (twoSlots (some 5) 0 [5] [], .fail 1),
    (twoSlots none 1 [5] [], .start 5), (twoSlots (some 5) 1 [5, 5] [], .getBlocks)]

theorem earlyFailure_run : Machine.Run (patientIndexer.slotsMachine none) earlyFailure
    (twoSlots (some 7) 1 [5, 5] [5, 6]) := by
  have hinit : (patientIndexer.slotsMachine none).init (twoSlots none 0 [] []) :=
    ⟨by decide, rfl, rfl, rfl, rfl⟩
  have h₁ : (patientIndexer.slotsMachine none).step (twoSlots none 0 [] []) (.start 5)
      (twoSlots (some 5) 0 [5] []) := rfl
  have h₂ := fails_once none 5 [5] []
  have h₃ : (patientIndexer.slotsMachine none).step (twoSlots none 1 [5] []) (.start 5)
      (twoSlots (some 5) 1 [5, 5] []) := rfl
  have h₄ : (patientIndexer.slotsMachine none).step (twoSlots (some 5) 1 [5, 5] []) .getBlocks
      (twoSlots (some 7) 1 [5, 5] [5, 6]) := rfl
  exact ((((Machine.Run.start hinit).next h₁).next h₂).next h₃).next h₄

theorem earlyFailure_resumes : Machine.Meets Resumes earlyFailure := by
  intro e he
  rcases List.mem_cons.mp he with rfl | he
  · trivial
  rcases List.mem_cons.mp he with rfl | he
  · trivial
  rcases List.mem_cons.mp he with rfl | he
  · trivial
  cases List.mem_singleton.mp he
  intro start hstart _ _
  cases hstart
  refine ⟨fun b hb => (by cases hb), fun first hfirst b _ hlo hlt => ?_⟩
  cases hfirst
  exact absurd hlo (Nat.not_le_of_lt hlt)

theorem no_gap_after_early_failure : Machine.Meets Resumes earlyFailure ∧
    ∀ t ∈ Machine.visited earlyFailure (twoSlots (some 7) 1 [5, 5] [5, 6]), Gapless t :=
  ⟨earlyFailure_resumes, (no_gap_iff earlyFailure_run).mpr earlyFailure_resumes⟩

/-- The slots 5 and 6 are sent, the next request fails, and they are sent again. -/
theorem slots_sent_again :
    ¬ ∀ (I : SolanaBlockIndexer) (startSlot : Option Slot) (tr : List (SlotsState × SlotsAction))
      (s : SlotsState), Machine.Run (I.slotsMachine startSlot) tr s → Gapless s := by
  intro hall
  have hinit : (patientIndexer.slotsMachine (some 5)).init (twoSlots none 0 [] []) :=
    ⟨by decide, rfl, rfl, rfl, rfl⟩
  have h₁ : (patientIndexer.slotsMachine (some 5)).step (twoSlots none 0 [] []) (.start 0)
      (twoSlots (some 5) 0 [5] []) := rfl
  have h₂ : (patientIndexer.slotsMachine (some 5)).step (twoSlots (some 5) 0 [5] []) .getBlocks
      (twoSlots (some 7) 0 [5] [5, 6]) := rfl
  have h₃ := fails_once (some 5) 7 [5] [5, 6]
  have h₄ : (patientIndexer.slotsMachine (some 5)).step (twoSlots none 1 [5] [5, 6]) (.start 0)
      (twoSlots (some 5) 1 [5, 5] [5, 6]) := rfl
  have h₅ : (patientIndexer.slotsMachine (some 5)).step (twoSlots (some 5) 1 [5, 5] [5, 6])
      .getBlocks (twoSlots (some 7) 1 [5, 5] [5, 6, 5, 6]) := rfl
  have hrun := (((((Machine.Run.start hinit).next h₁).next h₂).next h₃).next h₄).next h₅
  have hsorted : [5, 6, 5, 6].Pairwise (· < ·) := (hall _ _ _ _ hrun).1
  exact absurd hsorted (by decide)

/-! ## With a start slot given -/

/-- No attempt of such a run asks or sends below the start slot. -/
def From (v : Slot) (s : SlotsState) : Prop :=
  (∀ start ∈ s.starts, start = v) ∧ (∀ b ∈ s.sent, v ≤ b) ∧ ∀ slot, s.slot = some slot → v ≤ slot

theorem le_nextSlot (chain : List Slot) (slot : Slot) :
    slot ≤ nextSlot slot (getBlocks chain slot) := by
  cases hlast : (getBlocks chain slot).getLast? with
  | none =>
      rw [nextSlot, hlast]
  | some last =>
      rw [nextSlot_of_getLast? hlast]
      exact Nat.le_succ_of_le (mem_getBlocks.mp (List.mem_of_getLast? hlast)).2

theorem from_step {v : Slot} {a : SlotsAction} (h : From v s)
    (hstep : (I.slotsMachine (some v)).step s a t) : From v t := by
  obtain ⟨hstarts, hsent, hslot⟩ := h
  cases a with
  | grow slots =>
      obtain ⟨_, rfl⟩ := grow_next hstep
      exact ⟨hstarts, hsent, hslot⟩
  | start answer =>
      cases start_next hstep
      refine ⟨fun start hstart => ?_, hsent, fun slot heq => ?_⟩
      · exact (List.mem_append.mp hstart).elim (hstarts start) List.mem_singleton.mp
      · cases heq
        exact Nat.le_refl v
  | getBlocks =>
      obtain ⟨slot, heq, rfl⟩ := getBlocks_next hstep
      have hle := hslot slot heq
      refine ⟨hstarts, fun b hb => ?_, fun next hnext => ?_⟩
      · rcases List.mem_append.mp hb with hb | hb
        · exact hsent b hb
        · exact Nat.le_trans hle (mem_getBlocks.mp hb).2
      · cases hnext
        exact Nat.le_trans hle (le_nextSlot s.chain slot)
  | fail elapsed =>
      obtain ⟨retries, rfl⟩ := fail_next hstep
      exact ⟨hstarts, hsent, fun _ heq => (by cases heq)⟩

/-- With a start slot given, an attempt that begins continues the stream only if nothing has
been sent. -/
theorem continues_given_iff {v start : Slot} {tr : List (SlotsState × SlotsAction)}
    (h : Machine.Run (I.slotsMachine (some v)) tr s) (hstart : s.starts.getLast? = some start) :
    Continues s start ↔ s.sent = [] := by
  have hfrom : From v s := by
    refine Machine.Run.invariant (G := fun _ _ => True) ?_ (fun _ _ _ hs _ => from_step hs) h
      fun _ _ => trivial
    rintro u ⟨_, hslot, _, hstarts, hsent⟩
    refine ⟨?_, ?_, ?_⟩
    · rw [hstarts]
      exact fun _ hb => (by cases hb)
    · rw [hsent]
      exact fun _ hb => (by cases hb)
    · rw [hslot]
      exact fun _ heq => (by cases heq)
  have hv : start = v := hfrom.1 start (List.mem_of_getLast? hstart)
  constructor
  · intro hcontinues
    refine List.eq_nil_iff_forall_not_mem.mpr fun b hb => ?_
    have hlt := hcontinues.1 b hb
    rw [hv] at hlt
    exact Nat.not_le_of_lt hlt (hfrom.2.1 b hb)
  · intro hsent
    refine ⟨?_, fun first hfirst b _ hlo hlt => ?_⟩
    · rw [hsent]
      exact fun _ hb => (by cases hb)
    · rw [hfrom.1 first (List.mem_of_head? hfirst)] at hlo
      rw [hv] at hlt
      exact absurd hlo (Nat.not_le_of_lt hlt)

end SolanaBlockIndexer

end RomeSdk
