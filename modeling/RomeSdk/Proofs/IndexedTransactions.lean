import RomeSdk.Proofs.ClientTraffic
import RomeSdk.Proofs.WalkingOrder

/-!
# What was sent is indexed

The blocks of a chain whose instructions come from senders, walked in whatever order. Where
a slot has been registered, and with it the slots with the chunks of the holders it executes,
the slot is complete, and it is finalized to the transactions that ran in it: each once, as
its sender meant it, with the result of the first Solana transaction that reported one, and in
the order of these.
-/

namespace RomeSdk

open DefaultTxParser

/-! ## The steps of senders -/

def Sender.purpose (s : Sender) : Purpose :=
  match s with
  | .client c => if c.held then .holder c.rlp else .direct c.transaction
  | .deposit tx => .direct tx

/-- The result that the logs of a Solana transaction report. -/
def reportedResult (X : Crates) (txMeta : UiTransactionStatusMeta) : Option TxResult :=
  match parseTransactionMeta X txMeta with
  | .ok r => r
  | .error _ => none

/-- The result of what one of its instructions carries. -/
def Cargo.result (X : Crates) (txMeta : UiTransactionStatusMeta) : Cargo → Option TxResult
  | .small _ => reportedResult X txMeta
  | .big _ => reportedResult X txMeta
  | .deposit _ => some .default
  | .chunk _ _ _ => none

section

variable {X : Crates} {chainId : Nat} {s : Sender} {data : Bytes} {cargo : Cargo}
  {txMeta : UiTransactionStatusMeta} {hash : TxHash} {step : ParsedTxStep}

theorem executedEffect_filed {stepOf : Option TxResult → ParsedTxStep} {h : TxHash}
    (heffect : executedEffect X h stepOf txMeta = .filed hash step) :
    h = hash ∧ step = stepOf (reportedResult X txMeta) := by
  rw [executedEffect] at heffect
  rw [reportedResult]
  cases hmeta : parseTransactionMeta X txMeta with
  | error e => simp [hmeta] at heffect
  | ok r =>
      simp only [hmeta] at heffect
      cases heffect
      exact ⟨rfl, rfl⟩

theorem executedEffect_of_result {stepOf : Option TxResult → ParsedTxStep} {r : TxResult}
    (h : TxHash) (hresult : reportedResult X txMeta = some r) :
    executedEffect X h stepOf txMeta = .filed h (stepOf (some r)) := by
  rw [reportedResult] at hresult
  rw [executedEffect]
  cases hmeta : parseTransactionMeta X txMeta with
  | error e => simp [hmeta] at hresult
  | ok r' =>
      simp only [hmeta] at hresult
      rw [hresult]

theorem Sender.Writes.filed (h : s.Writes X chainId data cargo)
    (heffect : cargo.effect X txMeta = .filed hash step) : s.hash = hash ∧
      s.purpose.Allows step ∧ step.result = cargo.result X txMeta := by
  cases h with
  | @client c _ _ hhonest hwrites =>
      cases hwrites with
      | doTx hheld =>
          obtain ⟨hhash, rfl⟩ := executedEffect_filed heffect
          refine ⟨hhonest.hash.symm.trans hhash, ?_, rfl⟩
          rw [Sender.purpose, if_neg (by simp [hheld])]
          rfl
      | doTxIterative _ hheld _ _ =>
          obtain ⟨hhash, rfl⟩ := executedEffect_filed heffect
          refine ⟨hhonest.hash.symm.trans hhash, ?_, rfl⟩
          rw [Sender.purpose, if_neg (by simp [hheld])]
          rfl
      | chunk hheld hchunks hmem =>
          cases heffect
          obtain ⟨C', hchunks', hcuts⟩ := c.transmitTx.chunks_cuts
          cases hchunks.symm.trans hchunks'
          refine ⟨rfl, ?_, rfl⟩
          rw [Sender.purpose, if_pos hheld]
          exact ⟨hcuts.slices _ hmem, hhonest.size⟩
      | doTxHolder hheld =>
          obtain ⟨hhash, rfl⟩ := executedEffect_filed heffect
          refine ⟨hhash, ?_, rfl⟩
          rw [Sender.purpose, if_pos hheld]
          trivial
      | doTxHolderIterative _ hheld _ =>
          obtain ⟨hhash, rfl⟩ := executedEffect_filed heffect
          refine ⟨hhash, ?_, rfl⟩
          rw [Sender.purpose, if_pos hheld]
          trivial
  | deposit _ =>
      cases heffect
      exact ⟨rfl, rfl, rfl⟩

/-- A result is filed, under the hash of the sender. -/
theorem Sender.Writes.filed_of_result {r : TxResult} (h : s.Writes X chainId data cargo)
    (hresult : cargo.result X txMeta = some r) :
    ∃ step, cargo.effect X txMeta = .filed s.hash step ∧ step.result = some r := by
  cases h with
  | @client c _ _ hhonest hwrites =>
      cases hwrites with
      | doTx _ =>
          rw [Sender.hash, ← hhonest.hash]
          exact ⟨_, executedEffect_of_result _ hresult, rfl⟩
      | doTxIterative _ _ _ _ =>
          rw [Sender.hash, ← hhonest.hash]
          exact ⟨_, executedEffect_of_result _ hresult, rfl⟩
      | chunk _ _ _ => cases hresult
      | doTxHolder _ => exact ⟨_, executedEffect_of_result _ hresult, rfl⟩
      | doTxHolderIterative _ _ _ => exact ⟨_, executedEffect_of_result _ hresult, rfl⟩
  | deposit _ =>
      cases hresult
      exact ⟨_, rfl, rfl⟩

end

/-! ## The slots of a chain -/

/-- The steps that are read of every slot. -/
def slotSteps (X : Crates) (programId : Pubkey) (chainId : Nat)
    (blocks : BTreeMap Slot UiConfirmedBlock) : BTreeMap Slot ParsedTxs :=
  blocks.map fun _ block => (parseSolanaBlock X block programId chainId).1

section

variable {X : Crates} {programId : Pubkey} {chainId : Nat} {senders : TxHash → Option Sender}
  {blocks : BTreeMap Slot UiConfirmedBlock} {slot : Slot} {block : UiConfirmedBlock} {v : Visit}
  {hash : TxHash} {i : Nat} {step : ParsedTxStep} {slotTxs : ParsedTxs}

theorem Traffic.returns (h : Traffic X programId chainId senders blocks)
    (hreads : X.romeEvm.ReadsTxData) (hblock : blocks[slot]? = some block)
    (hv : v ∈ block.visits) : v.Returns X programId := by
  rcases h.visits slot block hblock v hv with ⟨hreturns, _⟩ | ⟨_, _, _, _, hof⟩
  · exact hreturns
  · exact hof.returns hreads

theorem Traffic.slotSteps_eq_some (h : Traffic X programId chainId senders blocks)
    (hreads : X.romeEvm.ReadsTxData) :
    (slotSteps X programId chainId blocks)[slot]? = some slotTxs ↔
      ∃ block, blocks[slot]? = some block ∧
        appliedAll X programId chainId block.visits ∅ = slotTxs := by
  rw [slotSteps, Std.ExtTreeMap.getElem?_map, Option.map_eq_some_iff]
  refine exists_congr fun block => and_congr_right fun hblock => ?_
  rw [parseSolanaBlock_steps chainId fun v hv => h.returns hreads hblock hv]

/-- A step that is filed at a place is the one of the only instruction there. -/
theorem Traffic.stepAt_iff (h : Traffic X programId chainId senders blocks)
    (hblock : blocks[slot]? = some block) :
    (appliedAll X programId chainId block.visits ∅).stepAt hash i = some step ↔
      ∃ v ∈ block.visits, v.txIdx = i ∧ v.effect X programId chainId = .filed hash step := by
  rw [stepAt_block]
  refine ⟨fun hfound => ?_, ?_⟩
  · obtain ⟨v, hv, hfiled⟩ := List.exists_of_findSome?_eq_some hfound
    obtain ⟨heffect, hidx⟩ := Visit.filedAt_eq_some.mp hfiled
    exact ⟨v, hv, hidx, heffect⟩
  · intro ⟨v, hv, hidx, heffect⟩
    have hfiled := Visit.filedAt_eq_some.mpr ⟨heffect, hidx⟩
    have hsome : (block.visits.findSome? (Visit.filedAt X programId chainId hash i)).isSome := by
      rw [List.findSome?_isSome_iff]
      exact ⟨v, hv, by rw [hfiled]; rfl⟩
    obtain ⟨step', hfound⟩ := Option.isSome_iff_exists.mp hsome
    obtain ⟨v', hv', hfiled'⟩ := List.exists_of_findSome?_eq_some hfound
    obtain ⟨heffect', hidx'⟩ := Visit.filedAt_eq_some.mp hfiled'
    obtain rfl := h.alone slot block hblock v hv v' hv' (hidx.trans hidx'.symm)
      (by simp [heffect]) (by simp [heffect'])
    rw [hfound, ← hfiled', hfiled]

/-- What is filed is filed by the sender of its hash. -/
theorem Traffic.sender (h : Traffic X programId chainId senders blocks)
    (hreads : X.romeEvm.ReadsTxData) (hblock : blocks[slot]? = some block) (hv : v ∈ block.visits)
    (heffect : v.effect X programId chainId = .filed hash step) :
    ∃ s cargo, senders hash = some s ∧ v.Of X programId chainId s cargo ∧
      s.purpose.Allows step ∧ step.result = cargo.result X v.txMeta := by
  rcases h.visits slot block hblock v hv with ⟨_, hnothing⟩ | ⟨hash', s, cargo, hs, hof⟩
  · rw [hnothing] at heffect
    cases heffect
  · rw [hof.effect hreads] at heffect
    obtain ⟨hhash, hallows, hresult⟩ := hof.writes.filed heffect
    obtain rfl : hash' = hash := (h.hashes hash' s hs).symm.trans hhash
    exact ⟨s, cargo, hs, hof, hallows, hresult⟩

theorem Traffic.lists (h : Traffic X programId chainId senders blocks)
    (hreads : X.romeEvm.ReadsTxData)
    (hlists : Lists (slotSteps X programId chainId blocks) hash step) :
    ∃ (slot : Slot) (block : UiConfirmedBlock) (v : Visit) (s : Sender) (cargo : Cargo),
      blocks[slot]? = some block ∧ v ∈ block.visits ∧ senders hash = some s ∧
      v.Of X programId chainId s cargo ∧ cargo.effect X v.txMeta = .filed hash step ∧
      s.purpose.Allows step := by
  obtain ⟨slot, slotTxs, i, hslot, hstep⟩ := hlists
  obtain ⟨block, hblock, rfl⟩ := (h.slotSteps_eq_some hreads).mp hslot
  obtain ⟨v, hv, _, heffect⟩ := (h.stepAt_iff hblock).mp hstep
  obtain ⟨s, cargo, hs, hof, hallows, _⟩ := h.sender hreads hblock hv heffect
  exact ⟨slot, block, v, s, cargo, hblock, hv, hs, hof, (hof.effect hreads) ▸ heffect, hallows⟩

/-- A chunk is one of those the client of its hash cuts. -/
theorem Visit.Of.chunk {s : Sender} {cargo : Cargo} {offset : Nat} {data : Bytes}
    (h : v.Of X programId chainId s cargo)
    (heffect : cargo.effect X v.txMeta = .filed hash (.transmitTx offset data)) :
    ∃ c C, s = .client c ∧ c.transmitTx.chunks = .ok C ∧ (offset, data) ∈ C ∧
      c.Honest X chainId ∧ cargo = .chunk c.hash offset data := by
  have hwrites := h.writes
  generalize v.instr.data = bytes at hwrites
  cases hwrites with
  | @client c _ _ hhonest hwrites =>
      cases hwrites with
      | chunk _ hchunks hmem =>
          cases heffect
          exact ⟨c, _, rfl, hchunks, hmem, hhonest, rfl⟩
      | doTx _ => exact absurd (executedEffect_filed heffect).2 (by simp)
      | doTxIterative _ _ _ _ => exact absurd (executedEffect_filed heffect).2 (by simp)
      | doTxHolder _ => exact absurd (executedEffect_filed heffect).2 (by simp)
      | doTxHolderIterative _ _ _ => exact absurd (executedEffect_filed heffect).2 (by simp)
  | deposit _ => cases heffect

theorem Traffic.holderSlots (h : Traffic X programId chainId senders blocks)
    (hreads : X.romeEvm.ReadsTxData) : HolderSlots (slotSteps X programId chainId blocks) where
  kinds hash := by
    cases hs : senders hash with
    | none =>
        refine .inl fun step hlists => ?_
        obtain ⟨_, _, _, _, _, _, _, hs', _⟩ := h.lists hreads hlists
        rw [hs] at hs'
        cases hs'
    | some s =>
        have hallows : ∀ step, Lists (slotSteps X programId chainId blocks) hash step →
            s.purpose.Allows step := by
          intro step hlists
          obtain ⟨_, _, _, s', _, _, _, hs', _, _, hallows⟩ := h.lists hreads hlists
          rw [hs] at hs'
          cases hs'
          exact hallows
        cases hpurpose : s.purpose with
        | direct tx =>
            refine .inr ⟨tx, fun step hlists => ?_⟩
            have hstep := hallows step hlists
            rw [hpurpose] at hstep
            cases step with
            | smallTx tx' r => exact ⟨r, by rw [show tx' = tx from hstep]⟩
            | bigTx r => exact hstep.elim
            | transmitTx offset data => exact hstep.elim
        | holder payload =>
            refine .inl fun step hlists => ?_
            have hstep := hallows step hlists
            rw [hpurpose] at hstep
            cases step with
            | smallTx tx' r => exact hstep.elim
            | bigTx r => exact .inl ⟨r, rfl⟩
            | transmitTx offset data => exact .inr ⟨offset, data, rfl⟩
  payload hash := by
    by_cases hany : ∃ offset data,
        Lists (slotSteps X programId chainId blocks) hash (.transmitTx offset data)
    · obtain ⟨offset, data, hlists⟩ := hany
      obtain ⟨_, _, v, s, cargo, _, _, hs, hof, heffect, _⟩ := h.lists hreads hlists
      obtain ⟨c, _, rfl, _, _, hhonest, _⟩ := hof.chunk heffect
      refine ⟨c.rlp, hhonest.size, fun offset data hlists => ?_⟩
      obtain ⟨_, _, v, s, cargo, _, _, hs', hof, heffect, _⟩ := h.lists hreads hlists
      rw [hs] at hs'
      cases hs'
      obtain ⟨c', C, hc, hchunks, hmem, _, _⟩ := hof.chunk heffect
      cases hc
      obtain ⟨C', hchunks', hcuts⟩ := c.transmitTx.chunks_cuts
      cases hchunks.symm.trans hchunks'
      exact hcuts.slices _ hmem
    · exact ⟨[], Nat.zero_le _, fun offset data hlists => absurd ⟨offset, data, hlists⟩ hany⟩
  chunks hash offset data data' hlists hlists' := by
    obtain ⟨_, _, v, s, cargo, _, _, hs, hof, heffect, _⟩ := h.lists hreads hlists
    obtain ⟨c, C, rfl, hchunks, hmem, _, _⟩ := hof.chunk heffect
    obtain ⟨_, _, v', s', cargo', _, _, hs', hof', heffect', _⟩ := h.lists hreads hlists'
    rw [hs] at hs'
    cases hs'
    obtain ⟨c', C', hc, hchunks', hmem', _, _⟩ := hof'.chunk heffect'
    cases hc
    cases hchunks.symm.trans hchunks'
    obtain ⟨C'', hchunks'', hcuts⟩ := c.transmitTx.chunks_cuts
    cases hchunks.symm.trans hchunks''
    exact congrArg Prod.snd (hcuts.unique hmem hmem' rfl)
  indices slot slotTxs hash hash' i step step' hslot hstep hstep' := by
    obtain ⟨block, hblock, rfl⟩ := (h.slotSteps_eq_some hreads).mp hslot
    obtain ⟨v, hv, hidx, heffect⟩ := (h.stepAt_iff hblock).mp hstep
    obtain ⟨v', hv', hidx', heffect'⟩ := (h.stepAt_iff hblock).mp hstep'
    obtain rfl := h.alone slot block hblock v hv v' hv' (hidx.trans hidx'.symm)
      (by simp [heffect]) (by simp [heffect'])
    rw [heffect] at heffect'
    cases heffect'
    rfl

/-! ## The transactions of a slot -/

/-- The instruction ran, with this result. -/
def Visit.Ran (X : Crates) (programId : Pubkey) (chainId : Nat)
    (senders : TxHash → Option Sender) (hash : TxHash) (r : TxResult) (v : Visit) : Prop :=
  ∃ s cargo, senders hash = some s ∧ v.Of X programId chainId s cargo ∧
    cargo.result X v.txMeta = some r

/-- A chunk of the client is in a slot that has been registered. -/
def Client.Seen (X : Crates) (programId : Pubkey) (chainId : Nat)
    (blocks : BTreeMap Slot UiConfirmedBlock) (registered : Slot → Prop) (c : Client)
    (chunk : Nat × Bytes) : Prop :=
  ∃ (slot : Slot) (block : UiConfirmedBlock), registered slot ∧ blocks[slot]? = some block ∧
    ∃ v ∈ block.visits, v.Of X programId chainId (.client c) (.chunk c.hash chunk.1 chunk.2)

/-- The first instruction of the block that ran the transaction of the hash. -/
structure FirstRan (X : Crates) (programId : Pubkey) (chainId : Nat)
    (senders : TxHash → Option Sender) (block : UiConfirmedBlock) (e : FinalEntry) : Prop where
  ran : ∃ v ∈ block.visits, v.txIdx = e.txIdx ∧ v.Ran X programId chainId senders e.hash e.txResult
  first : ∀ v ∈ block.visits, ∀ r, v.Ran X programId chainId senders e.hash r → e.txIdx ≤ v.txIdx
  transaction : ∃ s, senders e.hash = some s ∧ e.transaction = s.transaction

/-- The transactions that ran in the block: each once, as its sender meant it, with its first
result, and in the order of these. -/
def RanIn (X : Crates) (programId : Pubkey) (chainId : Nat) (senders : TxHash → Option Sender)
    (block : UiConfirmedBlock) (txs : List (Transaction × TxResult)) : Prop :=
  ∃ entries : List FinalEntry, (entries.map FinalEntry.hash).Nodup ∧
    (entries.Pairwise fun e e' => e.txIdx < e'.txIdx) ∧
    (∀ e, e ∈ entries ↔ FirstRan X programId chainId senders block e) ∧
    txs = entries.map fun e => (e.transaction, e.txResult)

theorem Visit.Ran.filed {r : TxResult} (h : Traffic X programId chainId senders blocks)
    (hreads : X.romeEvm.ReadsTxData) (hran : v.Ran X programId chainId senders hash r) :
    ∃ step, v.effect X programId chainId = .filed hash step ∧ step.result = some r := by
  obtain ⟨s, cargo, hs, hof, hresult⟩ := hran
  obtain ⟨step, heffect, hstep⟩ := hof.writes.filed_of_result hresult
  refine ⟨step, ?_, hstep⟩
  rw [hof.effect hreads, heffect, h.hashes hash s hs]

variable {tr : List (DefaultTxParser × ParserOp)} {p : DefaultTxParser}

/-- The result of a slot is the one of the instruction that ran. -/
theorem Traffic.result_iff (h : Traffic X programId chainId senders blocks)
    (hreads : X.romeEvm.ReadsTxData)
    (hwalked : DefaultTxParser.Walked (slotSteps X programId chainId blocks) tr p)
    (hblock : blocks[slot]? = some block) (hslot : Registered tr slot) {r : TxResult} :
    p.resultAt slot hash i = some (some r) ↔
      ∃ v ∈ block.visits, v.txIdx = i ∧ v.Ran X programId chainId senders hash r := by
  rw [hwalked.results slot _ hslot ((h.slotSteps_eq_some hreads).mpr ⟨block, hblock, rfl⟩),
    Option.map_eq_some_iff]
  constructor
  · intro ⟨step, hstep, hresult⟩
    obtain ⟨v, hv, hidx, heffect⟩ := (h.stepAt_iff hblock).mp hstep
    obtain ⟨s, cargo, hs, hof, _, hsame⟩ := h.sender hreads hblock hv heffect
    exact ⟨v, hv, hidx, s, cargo, hs, hof, hsame.symm.trans hresult⟩
  · intro ⟨v, hv, hidx, hran⟩
    obtain ⟨step, heffect, hresult⟩ := hran.filed h hreads
    exact ⟨step, (h.stepAt_iff hblock).mpr ⟨v, hv, hidx, heffect⟩, hresult⟩

/-- Which chunks the steps of a hash come from. -/
theorem Traffic.seenIn_chunk (h : Traffic X programId chainId senders blocks)
    (hreads : X.romeEvm.ReadsTxData) {c : Client} (hc : senders c.hash = some (.client c))
    {C : List (Nat × Bytes)} (hchunks : c.transmitTx.chunks = .ok C) {offset : Nat} {data : Bytes} :
    SeenIn (slotSteps X programId chainId blocks) tr c.hash (.transmitTx offset data) ↔
      (offset, data) ∈ C ∧ c.Seen X programId chainId blocks (Registered tr) (offset, data) := by
  constructor
  · intro ⟨slot, slotTxs, i, hslot, hsteps, hstep⟩
    obtain ⟨block, hblock, rfl⟩ := (h.slotSteps_eq_some hreads).mp hsteps
    obtain ⟨v, hv, _, heffect⟩ := (h.stepAt_iff hblock).mp hstep
    obtain ⟨s, cargo, hs, hof, _, _⟩ := h.sender hreads hblock hv heffect
    rw [hc] at hs
    cases hs
    rw [hof.effect hreads] at heffect
    obtain ⟨c', C', hc', hchunks', hmem, _, rfl⟩ := hof.chunk heffect
    cases hc'
    cases hchunks.symm.trans hchunks'
    exact ⟨hmem, slot, block, hslot, hblock, v, hv, hof⟩
  · intro ⟨_, slot, block, hslot, hblock, v, hv, hof⟩
    refine ⟨slot, _, v.txIdx, hslot, (h.slotSteps_eq_some hreads).mpr ⟨block, hblock, rfl⟩, ?_⟩
    exact (h.stepAt_iff hblock).mpr ⟨v, hv, rfl, hof.effect hreads⟩

/-- The record of a client's holder has received the chunks that were seen. -/
theorem Traffic.tracks (h : Traffic X programId chainId senders blocks)
    (hreads : X.romeEvm.ReadsTxData)
    (hwalked : DefaultTxParser.Walked (slotSteps X programId chainId blocks) tr p) {c : Client}
    (hc : senders c.hash = some (.client c)) (hheld : c.held = true)
    {C : List (Nat × Bytes)} (hchunks : c.transmitTx.chunks = .ok C)
    (hseen : SeenIn (slotSteps X programId chainId blocks) tr c.hash step) :
    ∃ tx L, p.record c.hash = some tx ∧ EvmTx.Carries c.rlp tx ∧ EvmTx.Tracks L tx ∧
      ∀ chunk, chunk ∈ L ↔
        chunk ∈ C ∧ c.Seen X programId chainId blocks (Registered tr) chunk := by
  classical
  have hpurpose : ∀ step, Lists (slotSteps X programId chainId blocks) c.hash step →
      (Purpose.holder c.rlp).Allows step := by
    intro step hlists
    obtain ⟨_, _, _, s, _, _, _, hs, _, _, hallows⟩ := h.lists hreads hlists
    rw [hc] at hs
    cases hs
    rw [Sender.purpose, if_pos hheld] at hallows
    exact hallows
  obtain ⟨tx, hrecord, hreceived⟩ := (hwalked.records c.hash _ hpurpose).seen step hseen
  refine ⟨tx, C.filter fun chunk => c.Seen X programId chainId blocks (Registered tr) chunk,
    hrecord, hreceived.carries, ⟨hreceived.carries.built, fun o n => ?_⟩, fun chunk => by simp⟩
  rw [hreceived.pieces, EvmTx.mem_shape]
  simp only [h.seenIn_chunk hreads hc hchunks, List.mem_filter, decide_eq_true_eq]

/-- A transaction that is not held is recorded as its sender meant it. -/
theorem Traffic.direct (h : Traffic X programId chainId senders blocks)
    (hreads : X.romeEvm.ReadsTxData)
    (hwalked : DefaultTxParser.Walked (slotSteps X programId chainId blocks) tr p) {s : Sender}
    (hs : senders hash = some s) (hheld : s.held ≠ true)
    (hstep : SeenIn (slotSteps X programId chainId blocks) tr hash step) :
    p.record hash = some (.smallEvmTx s.transaction) := by
  have hdirect : s.purpose = .direct s.transaction := by
    cases s with
    | client c => exact if_neg hheld
    | deposit tx => rfl
  have hpurpose : ∀ step, Lists (slotSteps X programId chainId blocks) hash step →
      (Purpose.direct s.transaction).Allows step := by
    intro step hlists
    obtain ⟨_, _, _, s', _, _, _, hs', _, _, hallows⟩ := h.lists hreads hlists
    rw [hs] at hs'
    cases hs'
    rw [hdirect] at hallows
    exact hallows
  exact (hwalked.records hash _ hpurpose).seen step hstep

/-- The record of an executed transaction builds what its sender meant. -/
theorem Traffic.builds (h : Traffic X programId chainId senders blocks)
    (hreads : X.romeEvm.ReadsTxData)
    (hwalked : DefaultTxParser.Walked (slotSteps X programId chainId blocks) tr p) {s : Sender}
    {cargo : Cargo}
    (hs : senders hash = some s) (hof : v.Of X programId chainId s cargo)
    (hstep : SeenIn (slotSteps X programId chainId blocks) tr hash step)
    (hseen : ∀ c C, s = .client c → c.held = true → c.transmitTx.chunks = .ok C →
      ∀ chunk ∈ C, c.Seen X programId chainId blocks (Registered tr) chunk) :
    ∃ tx, p.record hash = some tx ∧ tx.isDataComplete = true ∧ tx.build X = .ok s.transaction := by
  by_cases hheld : s.held = true
  · cases s with
    | deposit tx => cases hheld
    | client c =>
        obtain rfl : c.hash = hash := h.hashes hash _ hs
        obtain ⟨C, hchunks, hcuts⟩ := c.transmitTx.chunks_cuts
        obtain ⟨tx, L, hrecord, hcarries, htracks, hmem⟩ :=
          h.tracks hreads hwalked hs hheld hchunks hstep
        have hhonest : c.Honest X chainId := by
          cases hof.writes with
          | client hhonest _ => exact hhonest
        obtain ⟨hdata, hcomplete⟩ := htracks.whole hcuts hcarries
          (fun chunk hchunk => ((hmem chunk).mp hchunk).1)
          (fun chunk hchunk => (hmem chunk).mpr ⟨hchunk, hseen c C rfl hheld hchunks chunk hchunk⟩)
          (hcuts.ne_nil hhonest.nonempty)
        refine ⟨tx, hrecord, hcomplete, ?_⟩
        rw [htracks.built.big]
        show decodeTransactionFromRlp X tx.holderData = _
        rw [hdata]
        exact hhonest.decodes
  · exact ⟨_, h.direct hreads hwalked hs hheld hstep, rfl, rfl⟩

/-- What ran in a slot that was registered was seen. -/
theorem Visit.Ran.seenIn {r : TxResult} (hran : v.Ran X programId chainId senders hash r)
    (h : Traffic X programId chainId senders blocks) (hreads : X.romeEvm.ReadsTxData)
    (hblock : blocks[slot]? = some block) (hslot : Registered tr slot) (hv : v ∈ block.visits) :
    ∃ step, SeenIn (slotSteps X programId chainId blocks) tr hash step := by
  obtain ⟨step, heffect, _⟩ := hran.filed h hreads
  refine ⟨step, slot, _, v.txIdx, hslot, (h.slotSteps_eq_some hreads).mpr ⟨block, hblock, rfl⟩, ?_⟩
  exact (h.stepAt_iff hblock).mpr ⟨v, hv, rfl, heffect⟩

/-- The chunks of the holders that the block executes are in slots that were registered. -/
def ChunksSeen (X : Crates) (programId : Pubkey) (chainId : Nat)
    (senders : TxHash → Option Sender) (blocks : BTreeMap Slot UiConfirmedBlock)
    (block : UiConfirmedBlock) (registered : Slot → Prop) : Prop :=
  ∀ v ∈ block.visits, ∀ hash r c C, v.Ran X programId chainId senders hash r →
    senders hash = some (.client c) → c.held = true → c.transmitTx.chunks = .ok C →
    ∀ chunk ∈ C, c.Seen X programId chainId blocks registered chunk

theorem Traffic.executed_iff (h : Traffic X programId chainId senders blocks)
    (hreads : X.romeEvm.ReadsTxData)
    (hwalked : DefaultTxParser.Walked (slotSteps X programId chainId blocks) tr p)
    (hblock : blocks[slot]? = some block) (hslot : Registered tr slot)
    (hbuilds : ∀ hash i r, p.resultAt slot hash i = some (some r) →
      ∃ s tx, senders hash = some s ∧ p.record hash = some tx ∧ tx.build X = .ok s.transaction)
    (e : FinalEntry) :
    Executed p slot e.hash e.txIdx e.txResult ∧ Builds X p e.hash e.transaction ↔
      FirstRan X programId chainId senders block e := by
  constructor
  · intro ⟨hexecuted, hbuilt⟩
    refine ⟨(h.result_iff hreads hwalked hblock hslot).mp hexecuted.result,
      fun v hv r hran => ?_, ?_⟩
    · exact hexecuted.first _ r ((h.result_iff hreads hwalked hblock hslot).mpr ⟨v, hv, rfl, hran⟩)
    · obtain ⟨s, tx, hs, hrecord, hbuild⟩ := hbuilds _ _ _ hexecuted.result
      exact ⟨s, hs, hbuilt.unique ⟨tx, hrecord, hbuild⟩⟩
  · intro hfirst
    have hresult := (h.result_iff hreads hwalked hblock hslot).mpr hfirst.ran
    refine ⟨⟨hresult, fun i r hr => ?_⟩, ?_⟩
    · obtain ⟨v, hv, hidx, hran⟩ := (h.result_iff hreads hwalked hblock hslot).mp hr
      rw [← hidx]
      exact hfirst.first v hv r hran
    · obtain ⟨s, tx, hs, hrecord, hbuild⟩ := hbuilds _ _ _ hresult
      obtain ⟨s', hs', htx⟩ := hfirst.transaction
      rw [hs] at hs'
      cases hs'
      exact ⟨tx, hrecord, htx ▸ hbuild⟩

/-- A slot that was registered with the chunks it needs is complete, and is finalized to what
ran in it. -/
theorem Traffic.finalized (h : Traffic X programId chainId senders blocks)
    (hreads : X.romeEvm.ReadsTxData)
    (hwalked : DefaultTxParser.Walked (slotSteps X programId chainId blocks) tr p)
    (hblock : blocks[slot]? = some block) (hslot : Registered tr slot)
    (hchunks : ChunksSeen X programId chainId senders blocks block (Registered tr)) :
    p.isSlotComplete slot = .ok true ∧ ∃ txs, p.finalizeSlot X slot = .ok txs ∧
      RanIn X programId chainId senders block txs := by
  have hbuilds : ∀ hash i r, p.resultAt slot hash i = some (some r) → ∃ s tx,
      senders hash = some s ∧ p.record hash = some tx ∧ tx.isDataComplete = true ∧
      tx.build X = .ok s.transaction := by
    intro hash i r hr
    obtain ⟨v, hv, hidx, hran⟩ := (h.result_iff hreads hwalked hblock hslot).mp hr
    obtain ⟨step, hseen⟩ := hran.seenIn h hreads hblock hslot hv
    obtain ⟨s, cargo, hs, hof, hresult⟩ := hran
    obtain ⟨tx, hrecord, hcomplete, hbuild⟩ := h.builds hreads hwalked hs hof hseen
      fun c C hc hheld => hchunks v hv hash r c C ⟨s, cargo, hs, hof, hresult⟩ (hc ▸ hs) hheld
    exact ⟨s, tx, hs, hrecord, hcomplete, hbuild⟩
  have hcomplete : p.isSlotComplete slot = .ok true := by
    refine isSlotComplete_iff.mpr fun hash i r hr => ?_
    obtain ⟨_, tx, _, hrecord, hcomplete, _⟩ := hbuilds hash i r hr
    exact ⟨tx, hrecord, hcomplete⟩
  have hexecuted := h.executed_iff hreads hwalked hblock hslot fun hash i r hr => by
    obtain ⟨s, tx, hs, hrecord, _, hbuild⟩ := hbuilds hash i r hr
    exact ⟨s, tx, hs, hrecord, hbuild⟩
  have hdiffer : IndicesDiffer p slot := by
    intro hash hash' i r r' hexec hexec'
    obtain ⟨v, hv, hidx, hran⟩ := (h.result_iff hreads hwalked hblock hslot).mp hexec.result
    obtain ⟨v', hv', hidx', hran'⟩ := (h.result_iff hreads hwalked hblock hslot).mp hexec'.result
    obtain ⟨step, heffect, _⟩ := hran.filed h hreads
    obtain ⟨step', heffect', _⟩ := hran'.filed h hreads
    obtain rfl := h.alone slot block hblock v hv v' hv' (hidx.trans hidx'.symm)
      (by simp [heffect]) (by simp [heffect'])
    rw [heffect] at heffect'
    cases heffect'
    rfl
  have hall : FinalizesAll X p slot := by
    refine (finalizeSlot_all_iff hcomplete fun hash i r hr => ?_).mpr hdiffer
    obtain ⟨s, tx, _, hrecord, _, hbuild⟩ := hbuilds hash i r hr
    exact ⟨s.transaction, tx, hrecord, hbuild⟩
  obtain ⟨entries, hnodup, hsorted, hmem, hfinal⟩ := hall
  refine ⟨hcomplete, _, hfinal, entries, hnodup, ?_, fun e => (hmem e).trans (hexecuted e), rfl⟩
  -- two entries with one index would be of one hash
  have hdistinct : entries.Pairwise fun e e' => e.hash ≠ e'.hash := List.pairwise_map.mp hnodup
  refine (hsorted.and hdistinct).imp_of_mem fun {e e'} he he' hboth => ?_
  refine Nat.lt_of_le_of_ne hboth.1 fun heq => hboth.2 ?_
  have hexec := ((hmem e).mp he).1
  rw [heq] at hexec
  exact hdiffer _ _ _ _ _ hexec ((hmem e').mp he').1

/-- A walk can go on to any slot of the chain. -/
theorem DefaultTxParser.Walk.register {slots : BTreeMap Slot ParsedTxs} (hslots : HolderSlots slots)
    (h : Walk slots tr p) (hslot : slots[slot]? = some slotTxs) :
    ∃ q, p.registerSlotTransactions slot slotTxs = (q, .ok ()) ∧
      Walk slots (tr ++ [(p, .register slot slotTxs)]) q := by
  obtain ⟨q, hregister, _⟩ := (h.walked hslots).register hslots hslot (.refl slotTxs)
  refine ⟨q, hregister, h.1.next ?_, Machine.meets_append.mpr ⟨h.2, slotTxs, hslot, .refl _⟩⟩
  refine ⟨?_, ?_⟩
  · rw [hregister]
    rfl
  · rw [hregister]

/-- What was sent is indexed, in whatever order the slots are walked. -/
theorem Traffic.indexed (h : Traffic X programId chainId senders blocks)
    (hreads : X.romeEvm.ReadsTxData) (hwalk : Walk (slotSteps X programId chainId blocks) tr p)
    (hblock : blocks[slot]? = some block) (hslot : Registered tr slot)
    (hchunks : ChunksSeen X programId chainId senders blocks block (Registered tr)) :
    p.isSlotComplete slot = .ok true ∧ ∃ txs, p.finalizeSlot X slot = .ok txs ∧
      RanIn X programId chainId senders block txs :=
  h.finalized hreads (hwalk.walked (h.holderSlots hreads)) hblock hslot hchunks

end

/-! ## A transaction from a holder

The chunk is in slot 5. It is executed in slot 7, with another one that is sent at once. -/

/-- The bytes after a fee recipient. -/
def readFee : Bytes → Except String Bytes
  | 0 :: rest => .ok rest
  | 1 :: rest => .ok (rest.drop 20)
  | _ => .error "InvalidInstructionData"

theorem readFee_append {fee : Bytes} (h : IsFeeRecipient fee) (rest : Bytes) :
    readFee (fee ++ rest) = .ok rest := by
  rcases h with rfl | ⟨address, rfl⟩
  · rfl
  · show Except.ok ((beBytes 20 address.toNat ++ rest).drop 20) = _
    rw [List.drop_left' (length_beBytes 20 _)]

/-- A hash and the number after it. -/
def readHash (data : Bytes) : TxHash × Nat :=
  (H256.fromSlice (data.take 32), leNat ((data.drop 32).take 8))

theorem readHash_append (hash : TxHash) (chainId : UInt64) (rest : Bytes) :
    readHash (beBytes 32 hash.toNat ++ (leBytes 8 chainId.toNat ++ rest)) =
      (hash, chainId.toNat) := by
  have hlength : (beBytes 32 hash.toNat).length = 32 := length_beBytes 32 _
  have hlt := chainId.toNat_lt
  have hpow : (256 : Nat) ^ 8 = 2 ^ 64 := rfl
  rw [readHash, List.take_left' hlength, List.drop_left' hlength,
    List.take_left' (length_leBytes 8 _), leNat_leBytes, H256.fromSlice_beBytes,
    Nat.mod_eq_of_lt (by omega)]

/-- What `readingStandIns` decodes: a deposit begins with its type. -/
def readTx : Bytes → Except String Transaction
  | [] => .error "RlpIsTooShort"
  | byte :: rest =>
      if byte = 0x7E then
        .ok { bareTx (digest (byte :: rest)) with transactionType := some 0x7E, isSystemTx := true }
      else .ok { bareTx (digest (byte :: rest)) with chainId := some 1001 }

/-- Crates that read every layout. -/
def readingStandIns : Crates := { standIns with
  ethers := { standIns.ethers with
    decode := readTx
    recoverFrom := fun tx =>
      if tx.transactionType = some 0x7E then .error "InvalidSignature" else .ok 0
    depositRlp := fun tx => 0x7E :: tx.data }
  romeEvm := { standIns.romeEvm with
    splitFee := readFee
    depositArgs := fun b => .ok (leNat (b.take 8), b.drop 8)
    doTxIterativeArgs := fun b => do
      let rest ← readFee (b.drop 24)
      .ok ((rest.drop 8).drop (leNat (rest.take 8)))
    doTxHolderArgs := fun b => .ok (readHash (b.drop 8))
    doTxHolderIterativeArgs := fun b => .ok (readHash (b.drop 24)) } }

theorem readingStandIns_readsTxData : readingStandIns.romeEvm.ReadsTxData where
  tags instr instr' h := by
    cases instr <;> cases instr' <;> first | rfl | exact absurd h (by decide)
  transmitTx := standIns_invertsLayout
  doTx fee rlp hfee := readFee_append hfee rlp
  doTxIterative unique session holder fee overrides rlp _ hfee hoverrides := by
    have hhead : (leBytes 8 unique ++ leBytes 8 session.toNat ++
        leBytes 8 holder.toNat).length = 24 := by
      simp [length_leBytes]
    have hpow : (256 : Nat) ^ 8 = 2 ^ 64 := rfl
    show (readFee (List.drop 24 _) >>= _) = _
    rw [List.append_assoc, List.append_assoc, List.append_assoc, List.drop_left' hhead,
      readFee_append hfee]
    show Except.ok (List.drop (leNat (List.take 8 _)) (List.drop 8 _)) = _
    rw [List.take_left' (length_leBytes 8 _), List.drop_left' (length_leBytes 8 _),
      leNat_leBytes, Nat.mod_eq_of_lt (by omega), List.drop_left]
  doTxHolder holder hash chainId fee _ := by
    show Except.ok (readHash (List.drop 8 _)) = _
    rw [List.append_assoc, List.append_assoc, List.drop_left' (length_leBytes 8 _),
      readHash_append]
  doTxHolderIterative unique session holder hash chainId fee overrides _ _ := by
    have hhead : (leBytes 8 unique ++ leBytes 8 session.toNat ++
        leBytes 8 holder.toNat).length = 24 := by
      simp [length_leBytes]
    show Except.ok (readHash (List.drop 24 _)) = _
    rw [List.append_assoc, List.append_assoc, List.append_assoc, List.drop_left' hhead,
      readHash_append]

def someClient (byte : UInt8) (held : Bool) : Client where
  txBuilder := ⟨1001, 7, fun _ _ => .ok []⟩
  resource := ⟨0, 3⟩
  feeRecipient := [0]
  rlp := [byte]
  hash := digest [byte]
  transaction := { bareTx (digest [byte]) with chainId := some 1001 }
  held := held

theorem someClient_honest {byte : UInt8} (hbyte : byte ≠ 0x7E) (held : Bool) :
    (someClient byte held).Honest readingStandIns 1001 where
  chain := rfl
  fee := .inl rfl
  decodes := by
    have hread : readTx [byte] = .ok { bareTx (digest [byte]) with chainId := some 1001 } :=
      if_neg hbyte
    show decodeTransactionFromRlp readingStandIns [byte] = _
    rw [decodeTransactionFromRlp, show readingStandIns.ethers.decode = readTx from rfl, hread]
    rfl
  hash := rfl
  chainId := ⟨_, rfl, rfl⟩
  nonempty := by simp [someClient]
  size := by
    show 1 ≤ isizeMax
    decide

def someSenders (hash : TxHash) : Option Sender :=
  if hash = 42 then some (.client (someClient 42 true))
  else if hash = 43 then some (.client (someClient 43 false))
  else none

def okMeta : UiTransactionStatusMeta where
  err := none
  logMessages := some ["Program data: RVhJVF9SRUFTT04= AA== AAAAAAAAAAA= b2s="]

def sentVisit (data : Bytes) (txIdx : Nat) : Visit where
  txIdx := txIdx
  transaction := ⟨[[]], [7], [⟨0, data⟩]⟩
  txMeta := okMeta
  instr := ⟨0, data⟩

/-- A block with a Solana transaction for each instruction. -/
def sentBlock (parentSlot : Slot) (instrs : List Bytes) : UiConfirmedBlock where
  previousBlockhash := "previous blockhash of 32 letters"
  blockhash := "the slot's blockhash, 32 letters"
  parentSlot := parentSlot
  transactions := some (instrs.map fun data => (some ⟨[[]], [7], [⟨0, data⟩]⟩, some okMeta))
  blockTime := some 0

theorem mem_visits_sentBlock {parentSlot : Slot} {instrs : List Bytes} {v : Visit} :
    v ∈ (sentBlock parentSlot instrs).visits ↔
      ∃ data i, instrs[i]? = some data ∧ v = sentVisit data i := by
  have hvisits : (sentBlock parentSlot instrs).visits =
      instrs.zipIdx.flatMap fun e => [sentVisit e.1 e.2] := by
    rw [UiConfirmedBlock.visits, sentBlock, Option.getD_some, List.zipIdx_map, List.flatMap_map]
    rfl
  simp only [hvisits, List.mem_flatMap, List.mem_singleton, Prod.exists,
    List.mem_zipIdx_iff_getElem?]

/-- The instructions of the two clients. -/
def heldChunk : Bytes := (someClient 42 true).transmitTx.txData readingStandIns 0 [42]

def heldCall : Bytes := (AtomicTxHolder.new ⟨(someClient 42 true).transmitTx, .init⟩ [0]
  true).txData readingStandIns

def directCall : Bytes := (AtomicTx.new (someClient 43 false).txBuilder [43] ⟨0, 3⟩ [0]).txData
  readingStandIns

theorem heldChunk_writes : (someClient 42 true).Writes readingStandIns heldChunk
    (.chunk 42 0 [42]) :=
  .chunk (C := [(0, [42])]) rfl rfl (List.mem_singleton_self _)

theorem heldCall_writes : (someClient 42 true).Writes readingStandIns heldCall (.big 42) :=
  .doTxHolder rfl

theorem directCall_writes : (someClient 43 false).Writes readingStandIns directCall
    (.small (someClient 43 false).transaction) :=
  .doTx rfl

theorem sentVisit_of {c : Client} {data : Bytes} {cargo : Cargo} {i : Nat}
    (hhonest : c.Honest readingStandIns 1001) (hwrites : c.Writes readingStandIns data cargo) :
    (sentVisit data i).Of readingStandIns 7 1001 (.client c) cargo :=
  ⟨rfl, by simp [sentVisit], .client hhonest hwrites⟩

def sentChain : BTreeMap Slot UiConfirmedBlock :=
  ((∅ : BTreeMap Slot UiConfirmedBlock).insert 5 (sentBlock 4 [heldChunk])).insert 7
    (sentBlock 5 [heldCall, directCall])

theorem sentChain_eq_some {slot : Slot} {block : UiConfirmedBlock}
    (h : sentChain[slot]? = some block) :
    slot = 7 ∧ block = sentBlock 5 [heldCall, directCall] ∨
      slot = 5 ∧ block = sentBlock 4 [heldChunk] := by
  simp only [sentChain, BTreeMap.get?_insert, Std.ExtTreeMap.getElem?_empty] at h
  split at h
  · next hslot =>
      cases h
      exact .inl ⟨hslot.symm, rfl⟩
  · split at h
    · next hslot =>
        cases h
        exact .inr ⟨hslot.symm, rfl⟩
    · cases h

theorem sentChain_traffic : Traffic readingStandIns 7 1001 someSenders sentChain where
  hashes hash s hs := by
    rw [someSenders] at hs
    split at hs
    · next h =>
        cases hs
        exact h.symm
    · split at hs
      · next h =>
          cases hs
          exact h.symm
      · cases hs
  visits slot block hblock v hv := by
    refine .inr ?_
    rcases sentChain_eq_some hblock with ⟨_, rfl⟩ | ⟨_, rfl⟩
    · obtain ⟨data, i, hi, rfl⟩ := mem_visits_sentBlock.mp hv
      rcases List.mem_pair.mp (List.mem_of_getElem? hi) with rfl | rfl
      · exact ⟨42, _, _, rfl, sentVisit_of (someClient_honest (by decide) true) heldCall_writes⟩
      · exact ⟨43, _, _, rfl, sentVisit_of (someClient_honest (by decide) false) directCall_writes⟩
    · obtain ⟨data, i, hi, rfl⟩ := mem_visits_sentBlock.mp hv
      obtain rfl := List.mem_singleton.mp (List.mem_of_getElem? hi)
      exact ⟨42, _, _, rfl, sentVisit_of (someClient_honest (by decide) true) heldChunk_writes⟩
  alone slot block hblock v hv v' hv' hidx _ _ := by
    rcases sentChain_eq_some hblock with ⟨_, rfl⟩ | ⟨_, rfl⟩
    · obtain ⟨data, i, hi, rfl⟩ := mem_visits_sentBlock.mp hv
      obtain ⟨data', i', hi', rfl⟩ := mem_visits_sentBlock.mp hv'
      obtain rfl : i = i' := hidx
      cases hi.symm.trans hi'
      rfl
    · obtain ⟨data, i, hi, rfl⟩ := mem_visits_sentBlock.mp hv
      obtain ⟨data', i', hi', rfl⟩ := mem_visits_sentBlock.mp hv'
      obtain rfl : i = i' := hidx
      cases hi.symm.trans hi'
      rfl

/-- The chunk of the held client is in slot 5. -/
theorem sentChain_chunksSeen {block : UiConfirmedBlock} {registered : Slot → Prop}
    (h : registered 5) :
    ChunksSeen readingStandIns 7 1001 someSenders sentChain block registered := by
  intro v _ hash r c C _ hc hheld hchunks chunk hchunk
  have hheldClient : c = someClient 42 true := by
    rw [someSenders] at hc
    split at hc
    · cases hc
      rfl
    · split at hc
      · cases hc
        cases hheld
      · cases hc
  subst hheldClient
  have hcut : (someClient 42 true).transmitTx.chunks = .ok [(0, [42])] := rfl
  cases hcut.symm.trans hchunks
  obtain rfl := List.mem_singleton.mp hchunk
  exact ⟨5, _, h, rfl, _, mem_visits_sentBlock.mpr ⟨heldChunk, 0, rfl, rfl⟩,
    sentVisit_of (someClient_honest (by decide) true) heldChunk_writes⟩

theorem indexed_held_and_direct : ∃ tr p, Walk (slotSteps readingStandIns 7 1001 sentChain) tr p ∧
    p.isSlotComplete 7 = .ok true ∧ ∃ txs, p.finalizeSlot readingStandIns 7 = .ok txs ∧
      RanIn readingStandIns 7 1001 someSenders (sentBlock 5 [heldCall, directCall]) txs := by
  have hslots := sentChain_traffic.holderSlots readingStandIns_readsTxData
  have hstart : Walk (slotSteps readingStandIns 7 1001 sentChain) [] .new :=
    ⟨.start rfl, fun _ hin => by cases hin⟩
  have hseven : ∃ steps, (slotSteps readingStandIns 7 1001 sentChain)[7]? = some steps := ⟨_, rfl⟩
  have hfive : ∃ steps, (slotSteps readingStandIns 7 1001 sentChain)[5]? = some steps := ⟨_, rfl⟩
  obtain ⟨_, hseven⟩ := hseven
  obtain ⟨_, hfive⟩ := hfive
  obtain ⟨q, _, hlast⟩ := hstart.register hslots hseven
  obtain ⟨p, _, hboth⟩ := hlast.register hslots hfive
  refine ⟨_, p, hboth, sentChain_traffic.indexed readingStandIns_readsTxData hboth rfl ?_ ?_⟩
  · exact ⟨_, _, List.mem_append_left _ (List.mem_singleton_self _)⟩
  · exact sentChain_chunksSeen ⟨_, _, List.mem_append_right _ (List.mem_singleton_self _)⟩

end RomeSdk
