import RomeSdk.Indexer.InMemory
import RomeSdk.Proofs.WalkBack

/-!
# Batches of slots are indexed

An indexer that goes forwards has walked over the slots before. Where a holder's chunks are in
slots that it has seen by then, `parse` looks no further back, and `parse_blocks_batch` takes
each slot of its range once: the result of a slot is made of what ran in it, and the only thing
that ends the batch early is a result that cannot be made.
-/

namespace RomeSdk

open DefaultTxParser

/-! ## One slot -/

/-- The result of a slot is made of what ran in it. -/
def Indexes (X : Crates) (bp : BlockParser) (senders : TxHash → Option Sender) (slot : Slot)
    (block : UiConfirmedBlock) (out : Outcome BlockParseResult) : Prop :=
  ∃ q txs, BlockParseResult.new X slot block q bp.parseMode bp.enableDepositSlot = out ∧
    q.finalizeSlot X slot = .ok txs ∧ RanIn X bp.programId bp.chainId senders block txs

section

variable {X : Crates} {senders : TxHash → Option Sender}
  {blocks : BTreeMap Slot UiConfirmedBlock} {slot : Slot} {block : UiConfirmedBlock}
  {tr : List (DefaultTxParser × ParserOp)} {p : DefaultTxParser} {bp : BlockParser}

theorem ChunksSeen.mono {programId : Pubkey} {chainId : Nat} {known known' : Slot → Prop}
    (hseen : ChunksSeen X programId chainId senders blocks block known)
    (h : ∀ s, s ∈ blocks → known s → known' s) :
    ChunksSeen X programId chainId senders blocks block known' := by
  intro v hv hash r c C hran hc hheld hchunks chunk hchunk
  obtain ⟨s, b, hs, hb, hvisit⟩ := hseen v hv hash r c C hran hc hheld hchunks chunk hchunk
  refine ⟨s, b, h s ?_ hs, hb, hvisit⟩
  rw [Std.ExtTreeMap.mem_iff_isSome_getElem?, hb]
  rfl

variable (bp) in
/-- A slot whose chunks have been seen is parsed without going back. -/
theorem Traffic.parse_seen (h : Traffic X bp.programId bp.chainId senders blocks)
    (hreads : X.romeEvm.ReadsTxData)
    (hwalk : DefaultTxParser.Walk (slotSteps X bp.programId bp.chainId blocks) tr p)
    (hblock : blocks[slot]? = some block) (hfinal : bp.getBlock slot 0 = .ok (some block))
    (hseen : ChunksSeen X bp.programId bp.chainId senders blocks block
      fun s => Registered tr s ∨ s = slot) (maxBlocks : Nat) :
    ∃ q slotTxs out, bp.parse X slot maxBlocks p = (q, out.map some) ∧
      DefaultTxParser.Walk (slotSteps X bp.programId bp.chainId blocks)
        (tr ++ [(p, .register slot slotTxs)]) q ∧
      Indexes X bp senders slot block out := by
  obtain ⟨q, slotTxs, hregister, hwalk'⟩ := h.registerBlock hreads hwalk hblock
  have hregistered : ∀ s, Registered (tr ++ [(p, .register slot slotTxs)]) s ↔
      Registered tr s ∨ s = slot := by
    intro s
    rw [registered_append]
    simp [eq_comm]
  rw [← funext fun s => propext (hregistered s)] at hseen
  obtain ⟨hcomplete, txs, hfinalize, hran⟩ := h.finalized hreads
    (hwalk'.walked (h.holderSlots hreads)) hblock ((hregistered slot).mpr (.inr rfl)) hseen
  refine ⟨q, slotTxs, _, ?_, hwalk', q, txs, rfl, hfinalize, hran⟩
  rw [BlockParser.parse]
  simp only [hfinal]
  rw [BlockParser.parseLoop, hregister]
  simp only [hcomplete]

end

/-! ## A batch -/

/-- The parser over a table of blocks. -/
def tableParser (blocks : BTreeMap Slot UiConfirmedBlock) (programId : Pubkey) (chainId : Nat)
    (parseMode : BlockParseMode) (enableDepositSlot : Option Slot) : BlockParser where
  getBlock := fun slot _ => .ok blocks[slot]?
  programId := programId
  chainId := chainId
  parseMode := parseMode
  enableDepositSlot := enableDepositSlot

/-- What a call that has parsed comes to: its answer, and a state with the records it leaves. -/
inductive ParsedTo {σ : Type} (txParser : σ → DefaultTxParser) (Good : σ → Prop) :
    DefaultTxParser × Outcome (Option BlockParseResult) →
      EStateM.Result Failure σ (Option BlockParseResult) → Prop
  | ok {w : σ} {parseResult : Option BlockParseResult} : Good w →
      ParsedTo txParser Good (txParser w, .ok parseResult) (.ok parseResult w)
  | error {w : σ} {e : Failure} : Good w →
      ParsedTo txParser Good (txParser w, .error e) (.error e w)

theorem ParsedTo.of_ok {σ : Type} {txParser : σ → DefaultTxParser} {Good : σ → Prop}
    {q : DefaultTxParser} {parseResult : Option BlockParseResult}
    {r : EStateM.Result Failure σ (Option BlockParseResult)}
    (h : ParsedTo txParser Good (q, .ok parseResult) r) :
    ∃ w, r = .ok parseResult w ∧ Good w ∧ txParser w = q := by
  cases h with
  | ok hgood => exact ⟨_, rfl, hgood, rfl⟩

theorem ParsedTo.of_error {σ : Type} {txParser : σ → DefaultTxParser} {Good : σ → Prop}
    {q : DefaultTxParser} {e : Failure}
    {r : EStateM.Result Failure σ (Option BlockParseResult)}
    (h : ParsedTo txParser Good (q, .error e) r) :
    ∃ w, r = .error e w ∧ Good w ∧ txParser w = q := by
  cases h with
  | error hgood => exact ⟨_, rfl, hgood, rfl⟩

/-- The indexer parses with this parser. A read of a settled slot answers with its block, or it
fails, where reads may fail. -/
structure ParsesWith {σ : Type} (X : Crates) (blocks : BTreeMap Slot UiConfirmedBlock)
    (bp : BlockParser) (I : RollupIndexer σ) (txParser : σ → DefaultTxParser) (Good : σ → Prop)
    (Settled : Slot → Prop) (mayFail : Prop) : Prop where
  parse : ∀ slot n w, Good w → Settled slot → ∃ getBlock,
    (getBlock slot 0 = .ok blocks[slot]? ∨ mayFail ∧ ∃ e, getBlock slot 0 = .error e) ∧
    ParsedTo txParser Good
      (BlockParser.parse X { bp with getBlock := getBlock } slot n (txParser w)) (I.parse slot n w)

theorem parsesWith_table (X : Crates) (blocks : BTreeMap Slot UiConfirmedBlock)
    (programId : Pubkey) (chainId : Nat) (parseMode : BlockParseMode)
    (enableDepositSlot maxSlotHistory : Option Slot) :
    ParsesWith X blocks (tableParser blocks programId chainId parseMode enableDepositSlot)
      (InMemory.rollupIndexer X programId chainId parseMode enableDepositSlot maxSlotHistory)
      InMemory.World.txParser (fun w => w.solBlock = blocks) (fun _ => True) False where
  parse slot n w hgood _ := by
    refine ⟨fun slot _ => .ok blocks[slot]?, .inl rfl, ?_⟩
    show ParsedTo _ _ _ (InMemory.parse X programId chainId parseMode enableDepositSlot slot n w)
    simp only [InMemory.parse, hgood, tableParser]
    obtain ⟨q, out⟩ := BlockParser.parse X _ slot n w.txParser
    cases out with
    | ok parseResult => exact @ParsedTo.ok _ _ _ (⟨blocks, q⟩ : InMemory.World) _ rfl
    | error e => exact @ParsedTo.error _ _ _ (⟨blocks, q⟩ : InMemory.World) _ rfl

/-- What a batch has for a slot. -/
inductive IndexedAt (X : Crates) (bp : BlockParser) (senders : TxHash → Option Sender)
    (blocks : BTreeMap Slot UiConfirmedBlock) (slot : Slot) : Option BlockParseResult → Prop
  | missing : blocks[slot]? = none → IndexedAt X bp senders blocks slot none
  | indexed {block : UiConfirmedBlock} {result : BlockParseResult} : blocks[slot]? = some block →
      Indexes X bp senders slot block (.ok result) →
      IndexedAt X bp senders blocks slot (some result)

/-- The chunks of the holders that a slot of the range executes were known or are in its slots
up to this one. -/
def CarriedIn (X : Crates) (programId : Pubkey) (chainId : Nat)
    (senders : TxHash → Option Sender) (blocks : BTreeMap Slot UiConfirmedBlock)
    (known : Slot → Prop) (fromSlot toSlot : Nat) : Prop :=
  ∀ (slot : Nat) block, fromSlot ≤ slot → slot < toSlot → blocks[slot]? = some block →
    ChunksSeen X programId chainId senders blocks block
      fun s : Nat => known s ∨ fromSlot ≤ s ∧ s ≤ slot

section

variable {σ : Type} {X : Crates} {senders : TxHash → Option Sender}
  {blocks : BTreeMap Slot UiConfirmedBlock} {tr : List (DefaultTxParser × ParserOp)}
  {p : DefaultTxParser} {bp : BlockParser} {I : RollupIndexer σ} {txParser : σ → DefaultTxParser}
  {Good : σ → Prop} {Settled : Slot → Prop} {mayFail : Prop} {w : σ}

/-- One slot of the range, and the slots after it. -/
theorem Traffic.parseSlot (h : Traffic X bp.programId bp.chainId senders blocks)
    (hreads : X.romeEvm.ReadsTxData) (hI : ParsesWith X blocks bp I txParser Good Settled mayFail)
    (hgood : Good w)
    (hwalk : DefaultTxParser.Walk (slotSteps X bp.programId bp.chainId blocks) tr (txParser w))
    {slot : Nat} (hsettled : Settled slot)
    (hseen : ∀ block, blocks[slot]? = some block → ChunksSeen X bp.programId bp.chainId senders
      blocks block fun s => Registered tr s ∨ s = slot) (slots : List Slot)
    {results : BTreeMap Slot BlockParseResult} (hnone : results[slot]? = none) :
    (∃ w' tr' results',
      I.parseSlots (slot :: slots) results w = I.parseSlots slots results' w' ∧ Good w' ∧
      DefaultTxParser.Walk (slotSteps X bp.programId bp.chainId blocks) tr' (txParser w') ∧
      (∀ s, Registered tr' s ↔ Registered tr s ∨ s = slot ∧ s ∈ blocks) ∧
      IndexedAt X bp senders blocks slot results'[slot]? ∧
      ∀ s, s ≠ slot → results'[s]? = results[s]?) ∨
    ∃ e w', I.parseSlots (slot :: slots) results w = .error e w' ∧ Good w' ∧ (mayFail ∨
      ∃ block, blocks[slot]? = some block ∧ Indexes X bp senders slot block (.error e)) := by
  rw [RollupIndexer.parseSlots]
  obtain ⟨getBlock, hread, hparsed⟩ := hI.parse slot maxParseBehind w hgood hsettled
  rcases hread with hread | ⟨hfail, e, hread⟩
  · cases hblock : blocks[slot]? with
    | none =>
        have hcall : BlockParser.parse X { bp with getBlock := getBlock } slot maxParseBehind
            (txParser w) = (txParser w, .ok none) := by
          rw [BlockParser.parse]
          simp only [hread, hblock]
        rw [hcall] at hparsed
        obtain ⟨w', hparse, hgood', hrecords⟩ := hparsed.of_ok
        rw [EStateM.bind_of_ok hparse]
        refine .inl ⟨w', tr, results, rfl, hgood', hrecords ▸ hwalk,
          fun s => ⟨.inl, fun hs => ?_⟩, hnone ▸ .missing hblock, fun _ _ => rfl⟩
        rcases hs with hs | ⟨rfl, hmem⟩
        · exact hs
        · rw [Std.ExtTreeMap.mem_iff_isSome_getElem?, hblock] at hmem
          cases hmem
    | some block =>
        have hmem : slot ∈ blocks := by
          rw [Std.ExtTreeMap.mem_iff_isSome_getElem?, hblock]
          rfl
        obtain ⟨q, slotTxs, out, hcall, hwalk', hindexes⟩ :=
          h.parse_seen { bp with getBlock := getBlock } hreads hwalk hblock
            (hread.trans (congrArg Except.ok hblock)) (hseen block hblock) maxParseBehind
        rw [hcall] at hparsed
        cases out with
        | error e =>
            obtain ⟨w', hparse, hgood', _⟩ := hparsed.of_error
            rw [EStateM.bind_of_error hparse]
            exact .inr ⟨e, w', rfl, hgood', .inr ⟨block, rfl, hindexes⟩⟩
        | ok result =>
            obtain ⟨w', hparse, hgood', rfl⟩ := hparsed.of_ok
            rw [EStateM.bind_of_ok hparse]
            refine .inl ⟨w', _, results.insert slot result, rfl, hgood', hwalk', fun s => ?_, ?_,
              fun s hs => ?_⟩
            · rw [registered_append]
              refine or_congr_right ⟨fun hs => ?_, fun hs => ⟨slotTxs, by rw [hs.1]⟩⟩
              obtain ⟨_, hs⟩ := hs
              cases hs
              exact ⟨rfl, hmem⟩
            · rw [BTreeMap.get?_insert, if_pos rfl]
              exact .indexed hblock hindexes
            · rw [BTreeMap.get?_insert, if_neg (Ne.symm hs)]
  · have hcall : BlockParser.parse X { bp with getBlock := getBlock } slot maxParseBehind
        (txParser w) = (txParser w, .error (.err e)) := by
      rw [BlockParser.parse]
      simp only [hread]
    rw [hcall] at hparsed
    obtain ⟨w', hparse, hgood', _⟩ := hparsed.of_error
    rw [EStateM.bind_of_error hparse]
    exact .inr ⟨_, w', rfl, hgood', .inl hfail⟩

theorem Traffic.parseSlots (h : Traffic X bp.programId bp.chainId senders blocks)
    (hreads : X.romeEvm.ReadsTxData) (hI : ParsesWith X blocks bp I txParser Good Settled mayFail)
    (n : Nat) :
    ∀ {fromSlot : Nat} {tr : List (DefaultTxParser × ParserOp)} {w : σ}
      (results : BTreeMap Slot BlockParseResult), Good w →
      DefaultTxParser.Walk (slotSteps X bp.programId bp.chainId blocks) tr (txParser w) →
      (∀ slot : Nat, fromSlot ≤ slot → slot < fromSlot + n → Settled slot) →
      CarriedIn X bp.programId bp.chainId senders blocks (Registered tr) fromSlot (fromSlot + n) →
      (∀ slot : Nat, fromSlot ≤ slot → results[slot]? = none) →
      (∃ w' tr' results',
        I.parseSlots (List.range' fromSlot n) results w = .ok results' w' ∧ Good w' ∧
        DefaultTxParser.Walk (slotSteps X bp.programId bp.chainId blocks) tr' (txParser w') ∧
        (∀ s : Nat, Registered tr' s ↔
          Registered tr s ∨ fromSlot ≤ s ∧ s < fromSlot + n ∧ s ∈ blocks) ∧
        (∀ slot : Nat, fromSlot ≤ slot → slot < fromSlot + n →
          IndexedAt X bp senders blocks slot results'[slot]?) ∧
        ∀ slot : Nat, ¬ (fromSlot ≤ slot ∧ slot < fromSlot + n) →
          results'[slot]? = results[slot]?) ∨
      ∃ e w', ∃ slot : Nat,
        I.parseSlots (List.range' fromSlot n) results w = .error e w' ∧ Good w' ∧
        fromSlot ≤ slot ∧ slot < fromSlot + n ∧ (mayFail ∨
          ∃ block, blocks[slot]? = some block ∧ Indexes X bp senders slot block (.error e)) := by
  induction n with
  | zero =>
      intro fromSlot tr w results hgood hwalk _ _ _
      refine .inl ⟨w, tr, results, rfl, hgood, hwalk, fun s => ⟨.inl, fun hs => ?_⟩,
        fun slot _ _ => by omega, fun _ _ => rfl⟩
      rcases hs with hs | ⟨_, _, _⟩
      · exact hs
      · omega
  | succ n ih =>
      intro fromSlot tr w results hgood hwalk hsettled hcarried hnone
      rw [List.range'_succ]
      have hseen : ∀ block, blocks[fromSlot]? = some block → ChunksSeen X bp.programId bp.chainId
          senders blocks block fun s => Registered tr s ∨ s = fromSlot := by
        intro block hblock
        refine (hcarried fromSlot block (by omega) (by omega) hblock).mono fun s _ hs => ?_
        rcases hs with hs | ⟨hle, hge⟩
        · exact .inl hs
        · exact .inr (Nat.le_antisymm hge hle)
      rcases h.parseSlot hreads hI hgood hwalk (hsettled fromSlot (by omega) (by omega)) hseen
        (List.range' (fromSlot + 1) n) (hnone fromSlot (by omega)) with
        hok | ⟨e, w', hparse, hgood', hfails⟩
      · obtain ⟨w', tr', results', hparse, hgood', hwalk', hregistered, hindexed, hkept⟩ := hok
        have hsettled' : ∀ slot : Nat, fromSlot + 1 ≤ slot → slot < fromSlot + 1 + n →
            Settled slot := fun slot hle hlt => hsettled slot (by omega) (by omega)
        have hcarried' : CarriedIn X bp.programId bp.chainId senders blocks (Registered tr')
            (fromSlot + 1) (fromSlot + 1 + n) := by
          intro slot block hle hlt hblock
          refine (hcarried slot block (by omega) (by omega) hblock).mono fun s hmem hs => ?_
          rcases hs with hs | ⟨hle', hge⟩
          · exact .inl ((hregistered s).mpr (.inl hs))
          · by_cases heq : s = fromSlot
            · exact .inl ((hregistered s).mpr (.inr ⟨heq, hmem⟩))
            · exact .inr ⟨Nat.lt_of_le_of_ne hle' (Ne.symm heq), hge⟩
        have hnone' : ∀ slot : Nat, fromSlot + 1 ≤ slot → results'[slot]? = none := by
          intro slot hle
          have hne : slot ≠ fromSlot := by omega
          rw [hkept slot hne]
          exact hnone slot (by omega)
        rw [hparse]
        rcases ih results' hgood' hwalk' hsettled' hcarried' hnone' with hrest | hrest
        · obtain ⟨w'', tr'', results'', hparse', hgood'', hwalk'', hregistered', hindexed',
            hkept'⟩ := hrest
          refine .inl ⟨w'', tr'', results'', hparse', hgood'', hwalk'', fun s => ?_,
            fun slot hle hlt => ?_, fun slot hnot => ?_⟩
          · rw [hregistered', hregistered]
            constructor
            · intro hs
              rcases hs with (hs | ⟨rfl, hmem⟩) | ⟨hle, hlt, hmem⟩
              · exact .inl hs
              · exact .inr ⟨by omega, by omega, hmem⟩
              · exact .inr ⟨by omega, by omega, hmem⟩
            · intro hs
              rcases hs with hs | ⟨hle, hlt, hmem⟩
              · exact .inl (.inl hs)
              · by_cases heq : s = fromSlot
                · exact .inl (.inr ⟨heq, hmem⟩)
                · exact .inr ⟨by omega, by omega, hmem⟩
          · by_cases heq : slot = fromSlot
            · rw [heq, hkept' fromSlot (by omega)]
              exact hindexed
            · exact hindexed' slot (by omega) (by omega)
          · rw [hkept' slot (by omega)]
            exact hkept slot (by omega)
        · obtain ⟨e, w'', slot, hparse', hgood'', hle, hlt, hfails⟩ := hrest
          exact .inr ⟨e, w'', slot, hparse', hgood'', by omega, by omega, hfails⟩
      · exact .inr ⟨e, w', fromSlot, hparse, hgood', by omega, by omega, hfails⟩

end

/-- The call returned. -/
def endsWell {ε σ α : Type} : EStateM.Result ε σ α → Bool
  | .ok _ _ => true
  | .error _ _ => false

end RomeSdk
