import RomeSdk.Proofs.IndexedTransactions

/-!
# How far back a slot is parsed

A holder's chunks may be in slots before the one that executes it, so `parse` registers the
ancestors of a slot, one after the other, until the parser says that the slot is complete. Over
the blocks of a chain whose instructions come from senders, from a parser that has walked over
any of its slots, this is said here in terms of what was sent: `parse` stops at the first
ancestor with which the chunks of every holder executed in the slot look complete.
-/

namespace RomeSdk

open DefaultTxParser

/-! ## When a slot looks complete -/

/-- The chunks of the client that were seen are the first so many of those it cuts, at least
one. -/
def FirstChunks (X : Crates) (programId : Pubkey) (chainId : Nat)
    (blocks : BTreeMap Slot UiConfirmedBlock) (registered : Slot → Prop) (c : Client) : Prop :=
  ∃ C k, c.transmitTx.chunks = .ok C ∧ 0 < k ∧ ∀ chunk,
    (chunk ∈ C ∧ c.Seen X programId chainId blocks registered chunk) ↔ chunk ∈ C.take k

/-- The chunks of every holder that the block executes look complete. -/
def LooksComplete (X : Crates) (programId : Pubkey) (chainId : Nat)
    (senders : TxHash → Option Sender) (blocks : BTreeMap Slot UiConfirmedBlock)
    (block : UiConfirmedBlock) (registered : Slot → Prop) : Prop :=
  ∀ v ∈ block.visits, ∀ hash r c, v.Ran X programId chainId senders hash r →
    senders hash = some (.client c) → c.held = true →
      FirstChunks X programId chainId blocks registered c

section

variable {X : Crates} {programId : Pubkey} {chainId : Nat} {senders : TxHash → Option Sender}
  {blocks : BTreeMap Slot UiConfirmedBlock} {slot : Slot} {block : UiConfirmedBlock} {v : Visit}
  {hash : TxHash} {tr : List (DefaultTxParser × ParserOp)}
  {p : DefaultTxParser}

/-- What ran in a slot that was registered has a record, which is complete where the chunks
of its holder look so. -/
theorem Visit.Ran.record_iff {r : TxResult} (hran : v.Ran X programId chainId senders hash r)
    (h : Traffic X programId chainId senders blocks) (hreads : X.romeEvm.ReadsTxData)
    (hwalked : DefaultTxParser.Walked (slotSteps X programId chainId blocks) tr p)
    (hblock : blocks[slot]? = some block) (hslot : Registered tr slot) (hv : v ∈ block.visits) :
    ∃ tx, p.record hash = some tx ∧ (tx.isDataComplete = true ↔
      ∀ c, senders hash = some (.client c) → c.held = true →
        FirstChunks X programId chainId blocks (Registered tr) c) := by
  obtain ⟨step, hseen⟩ := hran.seenIn h hreads hblock hslot hv
  obtain ⟨s, cargo, hs, hof, _⟩ := hran
  by_cases hheld : s.held = true
  · cases s with
    | deposit tx => cases hheld
    | client c =>
        obtain rfl : c.hash = hash := h.hashes hash _ hs
        have hhonest : c.Honest X chainId := by
          cases hof.writes with
          | client hhonest _ => exact hhonest
        obtain ⟨C, hchunks, hcuts⟩ := c.transmitTx.chunks_cuts
        obtain ⟨tx, L, hrecord, _, htracks, hmem⟩ := h.tracks hreads hwalked hs hheld hchunks hseen
        have hiff := htracks.isDataComplete_iff hcuts
          (fun chunk hchunk => ((hmem chunk).mp hchunk).1) (hcuts.ne_nil hhonest.nonempty)
        simp only [hmem] at hiff
        refine ⟨tx, hrecord, hiff.trans ⟨?_, ?_⟩⟩
        · intro ⟨k, hk, hfirst⟩ c' hc' _
          cases hs.symm.trans hc'
          exact ⟨C, k, hchunks, hk, hfirst⟩
        · intro hlooks
          obtain ⟨C', k, hchunks', hk, hfirst⟩ := hlooks c hs hheld
          cases hchunks.symm.trans hchunks'
          exact ⟨k, hk, hfirst⟩
  · refine ⟨_, h.direct hreads hwalked hs hheld hseen, fun _ c hc hheld' => ?_, fun _ => rfl⟩
    cases hs.symm.trans hc
    exact absurd hheld' hheld

/-- The parser says that a slot is complete where it looks so, and it always answers. -/
theorem Traffic.isSlotComplete_eq (h : Traffic X programId chainId senders blocks)
    (hreads : X.romeEvm.ReadsTxData)
    (hwalked : DefaultTxParser.Walked (slotSteps X programId chainId blocks) tr p)
    (hblock : blocks[slot]? = some block) (hslot : Registered tr slot) :
    ∃ answer, p.isSlotComplete slot = .ok answer ∧ (answer = true ↔
      LooksComplete X programId chainId senders blocks block (Registered tr)) := by
  have hrecorded : p.Recorded slot := by
    intro hash i r hr
    obtain ⟨v, hv, _, hran⟩ := (h.result_iff hreads hwalked hblock hslot).mp hr
    obtain ⟨tx, hrecord, _⟩ := hran.record_iff h hreads hwalked hblock hslot hv
    exact ⟨tx, hrecord⟩
  obtain ⟨answer, hanswer⟩ := isSlotComplete_returns hrecorded
  have hiff : answer = true ↔ p.isSlotComplete slot = .ok true := by simp [hanswer]
  refine ⟨answer, hanswer, hiff.trans (isSlotComplete_iff.trans ⟨?_, ?_⟩)⟩
  · intro hcomplete v hv hash r c hran
    obtain ⟨tx, hrecord, htx⟩ := hcomplete hash v.txIdx r
      ((h.result_iff hreads hwalked hblock hslot).mpr ⟨v, hv, rfl, hran⟩)
    obtain ⟨tx', hrecord', hiff'⟩ := hran.record_iff h hreads hwalked hblock hslot hv
    cases hrecord.symm.trans hrecord'
    exact hiff'.mp htx c
  · intro hlooks hash i r hr
    obtain ⟨v, hv, _, hran⟩ := (h.result_iff hreads hwalked hblock hslot).mp hr
    obtain ⟨tx, hrecord, hiff'⟩ := hran.record_iff h hreads hwalked hblock hslot hv
    exact ⟨tx, hrecord, hiff'.mpr fun c => hlooks v hv hash r c hran⟩

/-! ## The way back -/

/-- The slot `n` blocks before a slot. -/
def ancestor (blocks : BTreeMap Slot UiConfirmedBlock) (slot : Slot) : Nat → Option Slot
  | 0 => some slot
  | n + 1 => (ancestor blocks slot n).bind fun s => blocks[s]?.map (·.parentSlot)

/-- The slots that were known, and the first `n` from a slot on back. -/
def Reached (blocks : BTreeMap Slot UiConfirmedBlock) (known : Slot → Prop) (slot : Slot)
    (n : Nat) (s : Slot) : Prop :=
  known s ∨ ∃ m < n, ancestor blocks slot m = some s

/-- The storage serves the blocks of the chain. It may fail at times. -/
structure BlockParser.Serves (bp : BlockParser) (blocks : BTreeMap Slot UiConfirmedBlock) :
    Prop where
  sound : ∀ slot n block, bp.getBlock slot n = .ok (some block) → blocks[slot]? = some block
  served : ∀ slot block, blocks[slot]? = some block →
    ∃ n < BlockParser.getBlockRetries, bp.getBlock slot n = .ok (some block)

variable {bp : BlockParser}

theorem BlockParser.Serves.loop (h : bp.Serves blocks) (slot : Slot) : ∀ n,
    (∀ block, bp.getBlockWithRetriesLoop slot n = .ok block → blocks[slot]? = some block) ∧
    (∀ e, bp.getBlockWithRetriesLoop slot n = .error e →
      e = .custom ("Unable to load block for slot " ++ toString slot) ∧
        ∀ m < n, ∀ block, bp.getBlock slot (getBlockRetries - (m + 1)) ≠ .ok (some block)) := by
  intro n
  induction n with
  | zero =>
      refine ⟨fun block hblock => (by cases hblock), fun e he => ?_⟩
      cases he
      exact ⟨rfl, fun m hm => absurd hm (by omega)⟩
  | succ n ih =>
      rw [BlockParser.getBlockWithRetriesLoop]
      split
      · next block hblock =>
          refine ⟨fun block' hsame => ?_, fun e he => (by cases he)⟩
          cases hsame
          exact h.sound slot _ block hblock
      · next hnone =>
          refine ⟨ih.1, fun e he => ⟨(ih.2 e he).1, fun m hm block hblock => ?_⟩⟩
          rcases Nat.lt_succ_iff_lt_or_eq.mp hm with hlt | rfl
          · exact (ih.2 e he).2 m hlt block hblock
          · exact hnone block hblock

/-- What the retries bring is the block of the chain, if there is one. -/
theorem BlockParser.Serves.getBlockWithRetries (h : bp.Serves blocks) (slot : Slot) :
    bp.getBlockWithRetries slot = (blocks[slot]?).elim
      (.error (.custom ("Unable to load block for slot " ++ toString slot))) .ok := by
  obtain ⟨hok, herror⟩ := h.loop slot getBlockRetries
  rw [BlockParser.getBlockWithRetries]
  cases hloop : bp.getBlockWithRetriesLoop slot getBlockRetries with
  | ok block =>
      rw [hok block hloop]
      rfl
  | error e =>
      obtain ⟨rfl, hnone⟩ := herror e hloop
      cases hblock : blocks[slot]? with
      | none => rfl
      | some block =>
          obtain ⟨n, hn, hserved⟩ := h.served slot block hblock
          refine absurd ?_ (hnone (getBlockRetries - (n + 1)) (by omega) block)
          rw [show getBlockRetries - (getBlockRetries - (n + 1) + 1) = n by omega]
          exact hserved

/-- A block of the chain is registered with the steps of its slot. -/
theorem Traffic.registerBlock (h : Traffic X bp.programId bp.chainId senders blocks)
    (hreads : X.romeEvm.ReadsTxData)
    (hwalk : DefaultTxParser.Walk (slotSteps X bp.programId bp.chainId blocks) tr p)
    (hblock : blocks[slot]? = some block) :
    ∃ q slotTxs, bp.registerBlock X slot block p = (q, .ok ()) ∧
      DefaultTxParser.Walk (slotSteps X bp.programId bp.chainId blocks)
        (tr ++ [(p, .register slot slotTxs)]) q := by
  have hsteps := (h.slotSteps_eq_some hreads).mpr ⟨block, hblock, rfl⟩
  obtain ⟨q, hregister, hwalk'⟩ := hwalk.register (h.holderSlots hreads) hsteps
  refine ⟨q, _, ?_, hwalk'⟩
  rw [BlockParser.registerBlock,
    parseSolanaBlock_steps bp.chainId fun v hv => h.returns hreads hblock hv]
  simp only [hregister]

/-- Where `parse` stops when it goes back from a slot, and what it returns there. -/
inductive Stops (X : Crates) (senders : TxHash → Option Sender)
    (blocks : BTreeMap Slot UiConfirmedBlock) (known : Slot → Prop) (bp : BlockParser)
    (finalSlot : Slot) (finalBlock : UiConfirmedBlock) (maxBlocks n : Nat) (q : DefaultTxParser) :
    Outcome (Option BlockParseResult) → Prop
  | complete : LooksComplete X bp.programId bp.chainId senders blocks finalBlock
        (Reached blocks known finalSlot n) →
      Stops X senders blocks known bp finalSlot finalBlock maxBlocks n q
        ((BlockParseResult.new X finalSlot finalBlock q bp.parseMode bp.enableDepositSlot).map some)
  | bound : ¬ LooksComplete X bp.programId bp.chainId senders blocks finalBlock
        (Reached blocks known finalSlot n) → maxBlocks ≤ n →
      Stops X senders blocks known bp finalSlot finalBlock maxBlocks n q
        (.error (.err (.custom (toString maxBlocks ++ " blocks parsed. Slot "
          ++ toString finalSlot ++ " is not complete"))))
  | missing {s : Slot} : ¬ LooksComplete X bp.programId bp.chainId senders blocks finalBlock
        (Reached blocks known finalSlot n) → ancestor blocks finalSlot n = some s →
      blocks[s]? = none → Stops X senders blocks known bp finalSlot finalBlock maxBlocks n q
        (.error (.err (.custom ("Unable to load block for slot " ++ toString s))))

theorem Stops.of_complete {known : Slot → Prop} {finalSlot : Slot} {finalBlock : UiConfirmedBlock}
    {maxBlocks n : Nat} {q : DefaultTxParser} {out : Outcome (Option BlockParseResult)}
    (h : Stops X senders blocks known bp finalSlot finalBlock maxBlocks n q out)
    (hlooks : LooksComplete X bp.programId bp.chainId senders blocks finalBlock
      (Reached blocks known finalSlot n)) :
    out = (BlockParseResult.new X finalSlot finalBlock q bp.parseMode
      bp.enableDepositSlot).map some := by
  cases h with
  | complete _ => rfl
  | bound hnot _ => exact absurd hlooks hnot
  | missing hnot _ _ => exact absurd hlooks hnot

theorem reached_succ {known : Slot → Prop} {finalSlot s : Slot} {n : Nat}
    (hs : ancestor blocks finalSlot n = some slot) :
    Reached blocks known finalSlot (n + 1) s ↔ Reached blocks known finalSlot n s ∨ s = slot := by
  constructor
  · intro hreached
    rcases hreached with hknown | ⟨m, hm, hancestor⟩
    · exact .inl (.inl hknown)
    · rcases Nat.lt_succ_iff_lt_or_eq.mp hm with hlt | rfl
      · exact .inl (.inr ⟨m, hlt, hancestor⟩)
      · rw [hs] at hancestor
        cases hancestor
        exact .inr rfl
  · intro hreached
    rcases hreached with (hknown | ⟨m, hm, hancestor⟩) | rfl
    · exact .inl hknown
    · exact .inr ⟨m, by omega, hancestor⟩
    · exact .inr ⟨n, by omega, hs⟩

theorem Traffic.parseLoop (h : Traffic X bp.programId bp.chainId senders blocks)
    (hreads : X.romeEvm.ReadsTxData) (hserves : bp.Serves blocks) (known : Slot → Prop)
    {finalSlot : Slot} {finalBlock : UiConfirmedBlock} (maxBlocks : Nat)
    (hfinal : blocks[finalSlot]? = some finalBlock) (fuel : Nat) :
    ∀ {k : Nat} {slot : Slot} {block : UiConfirmedBlock} {tr : List (DefaultTxParser × ParserOp)}
      {p : DefaultTxParser}, maxBlocks + 1 ≤ fuel + k → k = 0 ∨ k < maxBlocks →
      ancestor blocks finalSlot k = some slot → blocks[slot]? = some block →
      DefaultTxParser.Walk (slotSteps X bp.programId bp.chainId blocks) tr p →
      (∀ s, Registered tr s ↔ Reached blocks known finalSlot k s) →
      ∃ n q tr', k < n ∧ n ≤ max 1 maxBlocks ∧
        DefaultTxParser.Walk (slotSteps X bp.programId bp.chainId blocks) tr' q ∧
        (∀ s, Registered tr' s ↔ Reached blocks known finalSlot n s) ∧
        (∀ m, k < m → m < n → ¬ LooksComplete X bp.programId bp.chainId senders blocks finalBlock
          (Reached blocks known finalSlot m)) ∧
        (bp.parseLoop X finalSlot finalBlock maxBlocks fuel k slot block p).1 = q ∧
        Stops X senders blocks known bp finalSlot finalBlock maxBlocks n q
          (bp.parseLoop X finalSlot finalBlock maxBlocks fuel k slot block p).2 := by
  induction fuel with
  | zero =>
      intro k slot block tr p hfuel hk
      omega
  | succ fuel ih =>
      intro k slot block tr p hfuel hk hancestor hblock hwalk hregistered
      obtain ⟨q, slotTxs, hregister, hwalk'⟩ := h.registerBlock hreads hwalk hblock
      have hregistered' : ∀ s, Registered (tr ++ [(p, .register slot slotTxs)]) s ↔
          Reached blocks known finalSlot (k + 1) s := by
        intro s
        rw [registered_append, reached_succ hancestor, hregistered]
        simp [eq_comm]
      have hfinalSlot : Registered (tr ++ [(p, .register slot slotTxs)]) finalSlot :=
        (hregistered' finalSlot).mpr (.inr ⟨0, by omega, rfl⟩)
      obtain ⟨answer, hanswer, hiff⟩ := h.isSlotComplete_eq hreads
        (hwalk'.walked (h.holderSlots hreads)) hfinal hfinalSlot
      rw [funext fun s => propext (hregistered' s)] at hiff
      rw [BlockParser.parseLoop, hregister]
      simp only [hanswer]
      cases answer with
      | true =>
          refine ⟨k + 1, q, _, by omega, by omega, hwalk', hregistered', fun m _ _ => by omega,
            rfl, ?_⟩
          exact .complete (hiff.mp rfl)
      | false =>
          have hlooks : ¬ LooksComplete X bp.programId bp.chainId senders blocks finalBlock
              (Reached blocks known finalSlot (k + 1)) := fun hlooks => by cases hiff.mpr hlooks
          by_cases hbound : maxBlocks ≤ k + 1
          · simp only [if_pos hbound]
            refine ⟨k + 1, q, _, by omega, by omega, hwalk', hregistered', fun m _ _ => by omega,
              rfl, ?_⟩
            exact .bound hlooks hbound
          · simp only [if_neg hbound]
            have hparent : ancestor blocks finalSlot (k + 1) = some block.parentSlot := by
              rw [ancestor, hancestor, Option.bind_some, hblock]
              rfl
            rw [hserves.getBlockWithRetries]
            cases hnext : blocks[block.parentSlot]? with
            | none =>
                refine ⟨k + 1, q, _, by omega, by omega, hwalk', hregistered',
                  fun m _ _ => by omega, rfl, ?_⟩
                exact .missing hlooks hparent hnext
            | some next =>
                obtain ⟨n, q', tr', hn, hmax, hwalk'', hregistered'', hbefore, hq, hstops⟩ :=
                  ih (by omega) (.inr (by omega)) hparent hnext hwalk' hregistered'
                refine ⟨n, q', tr', by omega, hmax, hwalk'', hregistered'', fun m hm hlt => ?_, hq,
                  hstops⟩
                by_cases heq : m = k + 1
                · rw [heq]
                  exact hlooks
                · exact hbefore m (by omega) hlt

/-- Chunks that were all seen look complete. -/
theorem ChunksSeen.looksComplete {known : Slot → Prop}
    (hseen : ChunksSeen X programId chainId senders blocks block known) :
    LooksComplete X programId chainId senders blocks block known := by
  intro v hv hash r c hran hc hheld
  obtain ⟨s, cargo, hs, hof, hresult⟩ := id hran
  cases hc.symm.trans hs
  have hhonest : c.Honest X chainId := by
    cases hof.writes with
    | client hhonest _ => exact hhonest
  obtain ⟨C, hchunks, hcuts⟩ := c.transmitTx.chunks_cuts
  refine ⟨C, C.length, hchunks,
    List.length_pos_iff.mpr (hcuts.ne_nil hhonest.nonempty), fun chunk => ?_⟩
  rw [List.take_length]
  exact ⟨And.left, fun hchunk => ⟨hchunk, hseen v hv hash r c C hran hc hheld hchunks chunk hchunk⟩⟩

end

def sentParser : BlockParser where
  getBlock slot _ := .ok sentChain[slot]?
  programId := 7
  chainId := 1001
  parseMode := .engineApi
  enableDepositSlot := none

theorem sentParser_serves : sentParser.Serves sentChain where
  sound slot _ block h := Except.ok.inj h
  served slot block h := ⟨0, by decide, congrArg Except.ok h⟩

theorem reportedResult_okMeta : reportedResult readingStandIns okMeta =
    some ⟨⟨0, "ok", []⟩, [], ⟨0, 0, none⟩⟩ := by
  decide

/-- Slot 7 alone has no chunk of what it executes. -/
theorem sentChain_not_looksComplete : ¬ LooksComplete readingStandIns 7 1001 someSenders sentChain
    (sentBlock 5 [heldCall, directCall]) (Reached sentChain (Registered []) 7 1) := by
  intro hlooks
  have hcall : (sentVisit heldCall 0).Of readingStandIns 7 1001 (.client (someClient 42 true))
      (.big 42) := sentVisit_of (someClient_honest (by decide) true) heldCall_writes
  have hcall' (i : Nat) : (sentVisit directCall i).Of readingStandIns 7 1001
      (.client (someClient 43 false)) (.small (someClient 43 false).transaction) :=
    sentVisit_of (someClient_honest (by decide) false) directCall_writes
  obtain ⟨C, k, hC, hk, hfirst⟩ := hlooks (sentVisit heldCall 0)
    (mem_visits_sentBlock.mpr ⟨heldCall, 0, rfl, rfl⟩) 42 _ (someClient 42 true)
    ⟨_, _, rfl, hcall, reportedResult_okMeta⟩ rfl rfl
  have hcut : (someClient 42 true).transmitTx.chunks = .ok [(0, [42])] := rfl
  cases hcut.symm.trans hC
  have hin : (0, [42]) ∈ [((0 : Nat), ([42] : Bytes))].take k := by
    obtain ⟨k, rfl⟩ := Nat.exists_eq_succ_of_ne_zero (Nat.pos_iff_ne_zero.mp hk)
    simp
  obtain ⟨_, slot, block, hslot, hblock, v, hv, hof⟩ := (hfirst _).mpr hin
  obtain rfl : slot = 7 := by
    rcases hslot with ⟨_, _, hnone⟩ | ⟨m, hm, hancestor⟩
    · cases hnone
    · obtain rfl : m = 0 := by omega
      cases hancestor
      rfl
  rcases sentChain_eq_some hblock with ⟨_, rfl⟩ | ⟨hslot, _⟩
  · obtain ⟨data, i, hi, rfl⟩ := mem_visits_sentBlock.mp hv
    have hread := hof.reading readingStandIns_readsTxData
    rcases List.mem_pair.mp (List.mem_of_getElem? hi) with rfl | rfl
    · have hcalled := hcall.reading readingStandIns_readsTxData
      rw [show (sentVisit heldCall 0).reading readingStandIns 7 =
        (sentVisit heldCall i).reading readingStandIns 7 from rfl, hread] at hcalled
      cases hcalled
    · rw [(hcall' i).reading readingStandIns_readsTxData] at hread
      cases hread
  · cases hslot

end RomeSdk
