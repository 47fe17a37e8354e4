import RomeSdk.Proofs.Instructions
import RomeSdk.Proofs.RegistrationOutcome
import RomeSdk.Proofs.StandIns

/-!
# What malformed input can do

Instruction data and log lines are chosen by whoever sends a Solana transaction.
An instruction that fails to parse files no step, so a block is read as if it
were not there. What is not contained are the panics: data without a first
byte, a chain id that is cast to 64 bits, and, once the steps are registered, a
chunk whose end no vector reaches.
-/

namespace RomeSdk

/-! ## Reading -/

/-- What the decoding of a Solana transaction checks: it is signed, and its instructions name
programs among its static keys. -/
def UiConfirmedBlock.Sanitized (block : UiConfirmedBlock) : Prop :=
  ∀ v ∈ block.visits, v.instr.programIdIndex < v.transaction.staticAccountKeys.length ∧
    v.transaction.signatures ≠ []

/-- The rlp of an instruction that brings its transaction with it. -/
def carriedRlp (X : Crates) : Bytes → Option Bytes
  | [] => none
  | tag :: instrData =>
      if tag = X.romeEvm.tag .doTx then (X.romeEvm.splitFee instrData).toOption
      else if tag = X.romeEvm.tag .transmitTx ∨ tag = X.romeEvm.tag .doTxHolder then none
      else if tag = X.romeEvm.tag .doTxIterative then
        (X.romeEvm.doTxIterativeArgs instrData).toOption
      else none

/-- Data the parsers do not panic on: there is a first byte, and a chain id fits into 64 bits. -/
structure SafeData (X : Crates) (data : Bytes) : Prop where
  nonempty : data ≠ []
  chainId : ∀ rlp tx chainId, carriedRlp X data = some rlp →
    decodeTransactionFromRlp X rlp = .ok tx → tx.chainId = some chainId →
      chainId.toNat ≤ usizeMax

theorem readSmallTx_returned_iff {X : Crates} {rlp : Bytes} :
    (readSmallTx X rlp).returned = true ↔ ∀ tx chainId, decodeTransactionFromRlp X rlp = .ok tx →
      tx.chainId = some chainId → chainId.toNat ≤ usizeMax := by
  simp only [readSmallTx]
  cases hdecode : decodeTransactionFromRlp X rlp with
  | error e => simp [Outcome.returned]
  | ok tx =>
      cases hchain : tx.chainId with
      | none =>
          simp only [hchain]
          refine ⟨fun _ tx' c htx hc => ?_, fun _ => rfl⟩
          cases htx
          rw [hchain] at hc
          cases hc
      | some c =>
          simp only [hchain]
          by_cases hbig : usizeMax < c.toNat
          · rw [if_pos hbig]
            refine ⟨fun h => (by cases h), fun h => ?_⟩
            have := h tx c rfl hchain
            omega
          · rw [if_neg hbig]
            refine ⟨fun _ tx' c' htx hc' => ?_, fun _ => rfl⟩
            cases htx
            rw [hchain] at hc'
            cases hc'
            omega

theorem programAnswer_bind_returned {α β : Type} {answer : Except String α} {f : α → Outcome β} :
    Outcome.returned (programAnswer answer >>= f) = true ↔
      ∀ a, answer = .ok a → (f a).returned = true := by
  cases answer with
  | error e => simp [programAnswer, Except.mapError, bind, Except.bind, Outcome.returned]
  | ok a => simp [programAnswer, Except.mapError, bind, Except.bind]

theorem toOption_eq_some {ε α : Type} {x : Except ε α} {a : α} :
    x.toOption = some a ↔ x = .ok a := by
  cases x <;> simp [Except.toOption]

theorem safeData_cons_iff {X : Crates} {tag : UInt8} {instrData : Bytes} :
    SafeData X (tag :: instrData) ↔ ∀ rlp, carriedRlp X (tag :: instrData) = some rlp →
      (readSmallTx X rlp).returned = true := by
  constructor
  · intro h rlp hrlp
    exact readSmallTx_returned_iff.mpr fun tx c => h.chainId rlp tx c hrlp
  · intro h
    refine ⟨List.cons_ne_nil _ _, ?_⟩
    intro rlp tx c hrlp
    exact readSmallTx_returned_iff.mp (h rlp hrlp) tx c

/-- Reading an instruction panics exactly on data that is not safe. -/
theorem readInstruction_returned_iff {X : Crates} {data : Bytes} :
    (readInstruction X data).returned = true ↔ SafeData X data := by
  cases data with
  | nil => exact ⟨fun h => (by cases h), fun h => absurd rfl h.nonempty⟩
  | cons tag instrData =>
      rw [safeData_cons_iff]
      simp only [readInstruction, carriedRlp]
      by_cases hDoTx : tag = X.romeEvm.tag .doTx
      · rw [if_pos hDoTx, if_pos hDoTx, programAnswer_bind_returned]
        simp only [toOption_eq_some]
      rw [if_neg hDoTx, if_neg hDoTx]
      by_cases hTransmitTx : tag = X.romeEvm.tag .transmitTx
      · rw [if_pos hTransmitTx, if_pos (Or.inl hTransmitTx), programAnswer_bind_returned]
        exact ⟨fun _ rlp h => (by cases h), fun _ a _ => rfl⟩
      rw [if_neg hTransmitTx]
      by_cases hDoTxHolder : tag = X.romeEvm.tag .doTxHolder
      · rw [if_pos hDoTxHolder, if_pos (Or.inr hDoTxHolder), programAnswer_bind_returned]
        exact ⟨fun _ rlp h => (by cases h), fun _ a _ => rfl⟩
      rw [if_neg hDoTxHolder, if_neg (not_or.mpr ⟨hTransmitTx, hDoTxHolder⟩)]
      by_cases hDoTxIterative : tag = X.romeEvm.tag .doTxIterative
      · rw [if_pos hDoTxIterative, if_pos hDoTxIterative, programAnswer_bind_returned]
        simp only [toOption_eq_some]
      rw [if_neg hDoTxIterative, if_neg hDoTxIterative]
      refine ⟨fun _ rlp h => (by cases h), fun _ => ?_⟩
      by_cases hHolderIterative : tag = X.romeEvm.tag .doTxHolderIterative
      · rw [if_pos hHolderIterative, programAnswer_bind_returned]
        exact fun a _ => rfl
      rw [if_neg hHolderIterative]
      by_cases hDeposit : tag = X.romeEvm.tag .deposit
      · rw [if_pos hDeposit, programAnswer_bind_returned]
        rintro ⟨c, rlp⟩ _
        cases decodeTransactionFromRlp X rlp <;> rfl
      rw [if_neg hDeposit]
      rfl

/-- An instruction of the program. -/
def Visit.OfProgram (programId : Pubkey) (v : Visit) : Prop :=
  v.transaction.staticAccountKeys[v.instr.programIdIndex]? = some programId

theorem Visit.returns_iff {X : Crates} {programId : Pubkey} {v : Visit}
    (hindex : v.instr.programIdIndex < v.transaction.staticAccountKeys.length)
    (hsigned : v.transaction.signatures ≠ []) :
    v.Returns X programId ↔ (v.OfProgram programId → SafeData X v.instr.data) := by
  rw [Returns, reading, OfProgram, List.getElem?_eq_getElem hindex]
  by_cases hkey : v.transaction.staticAccountKeys[v.instr.programIdIndex] = programId
  · simp only [hkey, forall_true_left]
    cases hsig : v.transaction.signatures with
    | nil => exact absurd hsig hsigned
    | cons _ _ => exact readInstruction_returned_iff
  · simp only [Option.some.injEq, hkey, false_implies, iff_true]
    rfl

/-! ## Registering -/

/-- The step that is filed first for a hash in a Solana transaction. -/
def leadingStep (X : Crates) (programId : Pubkey) (chainId : Nat) (block : UiConfirmedBlock)
    (hash : TxHash) (txIdx : Nat) : Option ParsedTxStep :=
  block.visits.findSome? (Visit.filedAt X programId chainId hash txIdx)

/-- The record of a hash is a small one, or the first of the steps makes it one. -/
def IsExecutedDirectly (o : Option EvmTx) (step : Nat → Option ParsedTxStep) : Prop :=
  DefaultTxParser.isSmall o = true ∨
    (o = none ∧ ∃ i tx r, step i = some (.smallTx tx r) ∧ ∀ j, j < i → step j = none)

/-- Every chunk is for an offset that is known by then, or ends where a vector can. -/
def ChunksWithin (o : Option EvmTx) (step : Nat → Option ParsedTxStep) : Prop :=
  ∀ i offset data, step i = some (.transmitTx offset data) →
    offset ∈ (o.getD .newBigTx).pieces ∨
      (∃ j d, j < i ∧ step j = some (.transmitTx offset d)) ∨
      offset + data.length ≤ isizeMax

theorem startsSmall_iff {o : Option EvmTx} {steps : TxSteps} :
    DefaultTxParser.startsSmall o (steps.toList.map Prod.snd) = true ↔
      IsExecutedDirectly o fun i => steps[i]? := by
  cases o with
  | some tx =>
      refine ⟨fun h => Or.inl h, ?_⟩
      rintro (h | ⟨hnone, _⟩)
      · exact h
      · cases hnone
  | none =>
      have hmem : ∀ i s, (i, s) ∈ steps.toList ↔ steps[i]? = some s := BTreeMap.mem_toList steps
      have hasc := BTreeMap.toList_ascending steps
      cases hl : steps.toList with
      | nil =>
          refine ⟨fun h => (by cases h), ?_⟩
          rintro (h | ⟨_, i, tx, r, hi, _⟩)
          · cases h
          · have := (hmem i _).mpr hi
            rw [hl] at this
            cases this
      | cons e rest =>
          obtain ⟨k, s⟩ := e
          rw [hl] at hasc
          have hk : steps[k]? = some s := (hmem k s).mp (by rw [hl]; exact List.mem_cons_self ..)
          have hleast : ∀ i s', steps[i]? = some s' → k ≤ i := by
            intro i s' hi
            have hin := (hmem i s').mpr hi
            rw [hl] at hin
            rcases List.mem_cons.mp hin with heq | hin
            · cases heq
              exact Nat.le_refl k
            · have hlt : k < i := (List.pairwise_cons.mp hasc).1 _ hin
              omega
          constructor
          · intro h
            cases s with
            | smallTx tx r =>
                refine Or.inr ⟨rfl, k, tx, r, hk, fun j hj => ?_⟩
                refine Option.eq_none_iff_forall_not_mem.mpr fun s' hs' => ?_
                have := hleast j s' hs'
                omega
            | bigTx r => cases h
            | transmitTx offset data => cases h
          · rintro (h | ⟨_, i, tx, r, hi, hbelow⟩)
            · cases h
            · change steps[i]? = _ at hi
              have hle := hleast i _ hi
              have heq : k = i := by
                by_contra hne
                have hnone : steps[k]? = none := hbelow k (by omega)
                rw [hk] at hnone
                cases hnone
              subst heq
              rw [hk] at hi
              cases hi
              rfl

theorem chunksFit_iff {o : Option EvmTx} {steps : TxSteps} :
    DefaultTxParser.ChunksFit (fun offset => offset ∈ (o.getD .newBigTx).pieces) steps.toList ↔
      ChunksWithin o fun i => steps[i]? := by
  simp only [DefaultTxParser.ChunksFit, ChunksWithin, BTreeMap.mem_toList]

/-- The entry of a hash holds the steps that lead for it. -/
theorem entry_getElem? {X : Crates} {block : UiConfirmedBlock} {programId : Pubkey}
    {chainId : Nat} (hash : TxHash) (i : Nat) :
    ((AList.lookup hash (appliedAll X programId chainId block.visits ∅)).getD ∅ : TxSteps)[i]?
      = leadingStep X programId chainId block hash i := by
  rw [leadingStep, ← stepAt_block]
  exact DefaultTxParser.getElem?_steps _ hash i

/-- `register_block` where the steps are registered in another order of their hash map. -/
def BlockParser.registerBlockIn (X : Crates) (bp : BlockParser) (order : ParsedTxs → ParsedTxs)
    (slotNumber : Slot) (solanaBlock : UiConfirmedBlock) (txParser : DefaultTxParser) :
    DefaultTxParser × Outcome Unit :=
  match parseSolanaBlock X solanaBlock bp.programId bp.chainId with
  | (_, .error e) => (txParser, .error e)
  | (parsedTxs, .ok ()) =>
      match txParser.registerSlotTransactions slotNumber (order parsedTxs) with
      | (txParser', .error (.panic message)) => (txParser', .error (.panic message))
      | (txParser', _) => (txParser', .ok ())

theorem BlockParser.registerBlockIn_id (X : Crates) (bp : BlockParser) (slotNumber : Slot)
    (solanaBlock : UiConfirmedBlock) (txParser : DefaultTxParser) :
    bp.registerBlockIn X id slotNumber solanaBlock txParser
      = bp.registerBlock X slotNumber solanaBlock txParser := rfl

theorem BlockParser.registerBlockIn_returned_iff {X : Crates} {bp : BlockParser}
    {order : ParsedTxs → ParsedTxs} {slot : Slot} {block : UiConfirmedBlock} {p : DefaultTxParser} :
    (bp.registerBlockIn X order slot block p).2.returned = true ↔
      (parseSolanaBlock X block bp.programId bp.chainId).2.returned = true ∧
        ((parseSolanaBlock X block bp.programId bp.chainId).2 = .ok () →
          (p.registerSlotTransactions slot
            (order (parseSolanaBlock X block bp.programId bp.chainId).1)).2.returned = true) := by
  rw [registerBlockIn]
  rcases parseSolanaBlock X block bp.programId bp.chainId with ⟨txs, e | ⟨⟨⟩⟩⟩
  · exact ⟨fun h => ⟨h, fun hok => (by cases hok)⟩, fun h => h.1⟩
  · simp only
    rcases p.registerSlotTransactions slot (order txs) with ⟨q, (e | message) | ⟨⟨⟩⟩⟩
    · exact ⟨fun _ => ⟨rfl, fun _ => rfl⟩, fun _ => rfl⟩
    · exact ⟨fun h => (by cases h), fun h => (by cases h.2 trivial)⟩
    · exact ⟨fun _ => ⟨rfl, fun _ => rfl⟩, fun _ => rfl⟩

/-! ## Taking an instruction out -/

def SolTransaction.removeInstruction (transaction : SolTransaction) (k : Nat) : SolTransaction :=
  { transaction with instructions := transaction.instructions.eraseIdx k }

/-- The block without the `k`-th instruction of a transaction. -/
def UiConfirmedBlock.removeInstruction (block : UiConfirmedBlock) (txIdx k : Nat) :
    UiConfirmedBlock :=
  { block with transactions := block.transactions.map fun transactions =>
      transactions.modify txIdx fun t => (t.1.map fun tx => tx.removeInstruction k, t.2) }

/-- The data of the instruction, or the logs it is read with, fail to parse. -/
def FailsToParse (X : Crates) (chainId txIdx : Nat) (txMeta : UiTransactionStatusMeta)
    (instr : CompiledInstruction) : Prop :=
  ∃ tag instrData parsedTxs e, instr.data = tag :: instrData ∧
    (processInstruction X chainId parsedTxs txIdx tag instrData txMeta).2 = .error (.err e)

theorem FailsToParse.filedAt {X : Crates} {chainId txIdx : Nat} {txMeta : UiTransactionStatusMeta}
    {instr : CompiledInstruction} (h : FailsToParse X chainId txIdx txMeta instr)
    (programId : Pubkey) (transaction : SolTransaction) (hash : TxHash) (i : Nat) :
    (Visit.mk txIdx transaction txMeta instr).filedAt X programId chainId hash i = none := by
  obtain ⟨tag, instrData, parsedTxs, e, hdata, herr⟩ := h
  refine Option.eq_none_iff_forall_not_mem.mpr fun step hstep => ?_
  obtain ⟨heffect, _⟩ := Visit.filedAt_eq_some.mp hstep
  have hnot := (does_processInstruction tag instrData).failed e herr hash step
  rw [Visit.effect, Visit.reading] at heffect
  simp only [hdata] at heffect
  cases hkey : transaction.staticAccountKeys[instr.programIdIndex]? with
  | none =>
      simp only [hkey] at heffect
      cases heffect
  | some key =>
      simp only [hkey] at heffect
      by_cases hprogram : key = programId
      · rw [if_pos hprogram] at heffect
        cases hsig : transaction.signatures with
        | nil =>
            simp only [hsig] at heffect
            cases heffect
        | cons _ _ =>
            simp only [hsig] at heffect
            split at heffect
            · next effect heq => exact hnot (by rw [heq, heffect])
            · cases heffect
      · rw [if_neg hprogram] at heffect
        cases heffect

/-- The instructions are those before the transaction, its own, and those after it. -/
theorem visits_split {block : UiConfirmedBlock}
    {before after : List (Option SolTransaction × Option UiTransactionStatusMeta)}
    {t : Option SolTransaction × Option UiTransactionStatusMeta}
    (h : block.transactions = some (before ++ t :: after)) :
    block.visits = before.zipIdx.flatMap visitsOf ++ (visitsOf (t, before.length)
      ++ (after.zipIdx (before.length + 1)).flatMap visitsOf) := by
  rw [UiConfirmedBlock.visits, h, Option.getD_some, List.zipIdx_append, List.zipIdx_cons,
    List.flatMap_append, List.flatMap_cons, Nat.zero_add]

theorem removeInstruction_transactions {block : UiConfirmedBlock}
    {before after : List (Option SolTransaction × Option UiTransactionStatusMeta)}
    {transaction : SolTransaction} {txMeta : Option UiTransactionStatusMeta} (k : Nat)
    (h : block.transactions = some (before ++ (some transaction, txMeta) :: after)) :
    (block.removeInstruction before.length k).transactions
      = some (before ++ (some (transaction.removeInstruction k), txMeta) :: after) := by
  simp only [UiConfirmedBlock.removeInstruction, h, Option.map_some]
  rw [List.modify_eq_take_cons_drop (by simp)]
  simp

theorem exists_split {α : Type} {l : List α} {i : Nat} {a : α} (h : l[i]? = some a) :
    ∃ before after, l = before ++ a :: after ∧ before.length = i := by
  obtain ⟨hi, rfl⟩ := List.getElem?_eq_some_iff.mp h
  refine ⟨l.take i, l.drop (i + 1), ?_, ?_⟩
  · rw [List.getElem_cons_drop, List.take_append_drop]
  · rw [List.length_take]
    omega

/-- The instructions of a transaction without one of them. -/
theorem visitsOf_removeInstruction {transaction : SolTransaction}
    {txMeta : UiTransactionStatusMeta} {before after : List CompiledInstruction}
    {instr : CompiledInstruction} (h : transaction.instructions = before ++ instr :: after)
    (herr : txMeta.err.isSome = false) (txIdx : Nat) :
    visitsOf ((some transaction, some txMeta), txIdx)
        = before.map (.mk txIdx transaction txMeta) ++ .mk txIdx transaction txMeta instr ::
          after.map (.mk txIdx transaction txMeta) ∧
      visitsOf ((some (transaction.removeInstruction before.length), some txMeta), txIdx)
        = (before ++ after).map
          (.mk txIdx (transaction.removeInstruction before.length) txMeta) := by
  simp only [visitsOf, herr, SolTransaction.removeInstruction, h]
  refine ⟨by simp, ?_⟩
  rw [List.eraseIdx_append_of_length_le (Nat.le_refl _), Nat.sub_self, List.eraseIdx_zero,
    List.tail_cons]
  rfl

/-- Without an instruction that fails to parse, a block is read to the same steps. -/
theorem removed_steps {X : Crates} {block : UiConfirmedBlock} {programId : Pubkey} {chainId : Nat}
    {transactions : List (Option SolTransaction × Option UiTransactionStatusMeta)} {txIdx k : Nat}
    {transaction : SolTransaction} {txMeta : UiTransactionStatusMeta} {instr : CompiledInstruction}
    (hreturns : ∀ v ∈ block.visits, v.Returns X programId)
    (hblock : block.transactions = some transactions)
    (ht : transactions[txIdx]? = some (some transaction, some txMeta))
    (hinstr : transaction.instructions[k]? = some instr)
    (hfails : FailsToParse X chainId txIdx txMeta instr) :
    (∀ v ∈ (block.removeInstruction txIdx k).visits, v.Returns X programId) ∧
      ∀ hash i, (block.removeInstruction txIdx k).visits.findSome?
          (Visit.filedAt X programId chainId hash i)
        = block.visits.findSome? (Visit.filedAt X programId chainId hash i) := by
  obtain ⟨before, after, rfl, rfl⟩ := exists_split ht
  obtain ⟨first, last, hsplit, rfl⟩ := exists_split hinstr
  rw [visits_split hblock] at hreturns ⊢
  rw [visits_split (removeInstruction_transactions first.length hblock)]
  cases herr : txMeta.err.isSome with
  | true =>
      -- the instructions of a failed transaction are not read
      have hnone : ∀ t, visitsOf ((some t, some txMeta), before.length) = [] := by
        intro t
        simp [visitsOf, herr]
      rw [hnone] at hreturns ⊢
      rw [hnone]
      exact ⟨hreturns, fun _ _ => rfl⟩
  | false =>
      obtain ⟨hvisits, hremoved⟩ := visitsOf_removeInstruction hsplit herr before.length
      rw [hvisits] at hreturns ⊢
      rw [hremoved]
      constructor
      · intro v hv
        simp only [List.mem_append, List.mem_map, List.mem_cons] at hv hreturns
        rcases hv with hv | ⟨x, hx, rfl⟩ | hv
        · exact hreturns v (Or.inl hv)
        · have hold : (Visit.mk before.length transaction txMeta x).Returns X programId := by
            refine hreturns _ (Or.inr (Or.inl ?_))
            rcases hx with hx | hx
            · exact Or.inl ⟨x, hx, rfl⟩
            · exact Or.inr (Or.inr ⟨x, hx, rfl⟩)
          exact hold
        · exact hreturns v (Or.inr (Or.inr hv))
      · intro hash i
        have hnone := hfails.filedAt programId transaction hash i
        have hsame : ∀ x, (Visit.mk before.length (transaction.removeInstruction first.length)
              txMeta x).filedAt X programId chainId hash i
            = (Visit.mk before.length transaction txMeta x).filedAt X programId chainId hash i :=
          fun x => rfl
        simp only [List.findSome?_append, List.findSome?_cons, List.findSome?_map, List.map_append,
          Function.comp_def, hsame, hnone]

/-- The steps of the block are those of the block without an instruction that fails to parse. -/
def Contained (X : Crates) (programId : Pubkey) (chainId : Nat) (block : UiConfirmedBlock) :
    Prop :=
  ∀ transactions txIdx k transaction txMeta instr, block.transactions = some transactions →
    transactions[txIdx]? = some (some transaction, some txMeta) →
    transaction.instructions[k]? = some instr → FailsToParse X chainId txIdx txMeta instr →
      (parseSolanaBlock X (block.removeInstruction txIdx k) programId chainId).2 = .ok () ∧
        ∀ hash i, (parseSolanaBlock X block programId chainId).1.stepAt hash i
          = (parseSolanaBlock X (block.removeInstruction txIdx k) programId chainId).1.stepAt
              hash i

theorem contained_of_returns {X : Crates} {block : UiConfirmedBlock} {programId : Pubkey}
    {chainId : Nat} (hreturns : ∀ v ∈ block.visits, v.Returns X programId) :
    Contained X programId chainId block := by
  intro transactions txIdx k transaction txMeta instr hblock ht hinstr hfails
  obtain ⟨hreturns', hsteps⟩ := removed_steps hreturns hblock ht hinstr hfails
  refine ⟨parseSolanaBlock_returns_iff.mpr hreturns', ?_⟩
  intro hash i
  rw [parseSolanaBlock_steps chainId hreturns, parseSolanaBlock_steps chainId hreturns',
    stepAt_block, stepAt_block, hsteps]

/-- For every block Solana has decoded: registering it panics in no order of its steps, and
contains the instructions that fail to parse, if and only if no instruction of the program
has unsafe data and the chunks for a holder fit into it. -/
theorem registerBlock_contained_iff {X : Crates} {bp : BlockParser} {slot : Slot}
    {block : UiConfirmedBlock} {p : DefaultTxParser} (hsane : block.Sanitized) :
    ((∀ order, (∀ parsedTxs, HashMap.Same parsedTxs (order parsedTxs)) →
        (bp.registerBlockIn X order slot block p).2.returned = true) ∧
      Contained X bp.programId bp.chainId block) ↔
    (∀ v ∈ block.visits, v.OfProgram bp.programId → SafeData X v.instr.data) ∧
      ∀ hash, IsExecutedDirectly (p.record hash)
          (leadingStep X bp.programId bp.chainId block hash) ∨
        ChunksWithin (p.record hash) (leadingStep X bp.programId bp.chainId block hash) := by
  have hreads : (∀ v ∈ block.visits, v.Returns X bp.programId) ↔
      ∀ v ∈ block.visits, v.OfProgram bp.programId → SafeData X v.instr.data :=
    forall₂_congr fun v hv => Visit.returns_iff (hsane v hv).1 (hsane v hv).2
  have hregisters := DefaultTxParser.registerSlotTransactions_returned_iff p slot
    (appliedAll X bp.programId bp.chainId block.visits ∅)
  simp only [startsSmall_iff, chunksFit_iff, entry_getElem?] at hregisters
  rw [← hreads, ← hregisters]
  constructor
  · rintro ⟨hreturned, _⟩
    have hreturns : ∀ v ∈ block.visits, v.Returns X bp.programId := by
      have h := hreturned id fun parsedTxs => .refl parsedTxs
      exact parseSolanaBlock_returns_iff.mp
        (parseSolanaBlock_returned (BlockParser.registerBlockIn_returned_iff.mp h).1)
    refine ⟨hreturns, ?_⟩
    intro slotTxs' hsame
    have hsteps := parseSolanaBlock_steps bp.chainId hreturns
    -- the order that turns the block's own steps into `slotTxs'`
    classical
    let order := fun parsedTxs =>
      if parsedTxs = appliedAll X bp.programId bp.chainId block.visits ∅ then slotTxs' else parsedTxs
    have horder : ∀ parsedTxs, HashMap.Same parsedTxs (order parsedTxs) := by
      intro parsedTxs
      by_cases heq : parsedTxs = appliedAll X bp.programId bp.chainId block.visits ∅
      · rw [show order parsedTxs = slotTxs' from if_pos heq, heq]
        exact hsame
      · rw [show order parsedTxs = parsedTxs from if_neg heq]
        exact .refl parsedTxs
    have h := (BlockParser.registerBlockIn_returned_iff.mp (hreturned order horder)).2
      (by rw [hsteps])
    rw [hsteps] at h
    rwa [show order (appliedAll X bp.programId bp.chainId block.visits ∅) = slotTxs' from
      if_pos rfl] at h
  · rintro ⟨hreturns, hregister⟩
    refine ⟨?_, contained_of_returns hreturns⟩
    intro order horder
    have hsteps := parseSolanaBlock_steps bp.chainId hreturns
    refine BlockParser.registerBlockIn_returned_iff.mpr ⟨by rw [hsteps]; rfl, fun _ => ?_⟩
    rw [hsteps]
    exact hregister _ (horder _)

/-! A successful Solana transaction that calls the program without data. -/

def rollup : BlockParser := ⟨fun _ _ => .ok none, 7, 0, .engineApi, none⟩

def oneInstruction (data : Bytes) : UiConfirmedBlock where
  previousBlockhash := ""
  blockhash := ""
  parentSlot := 0
  transactions := some [(some ⟨[[]], [7], [⟨0, data⟩]⟩, some ⟨none, none⟩)]
  blockTime := none

theorem oneInstruction_sanitized (data : Bytes) : (oneInstruction data).Sanitized := by
  intro v hv
  have hvisits : (oneInstruction data).visits
      = [⟨0, ⟨[[]], [7], [⟨0, data⟩]⟩, ⟨none, none⟩, ⟨0, data⟩⟩] := rfl
  rw [hvisits, List.mem_singleton] at hv
  subst hv
  exact ⟨Nat.one_pos, List.cons_ne_nil _ _⟩

theorem empty_data_panics : (oneInstruction []).Sanitized ∧
    (rollup.registerBlock standIns 5 (oneInstruction []) .new).2
      = .error (.panic "range start index 1 out of range for slice of length 0") :=
  ⟨oneInstruction_sanitized [], rfl⟩

theorem unknown_tag_contained :
    (∀ order, (∀ parsedTxs, HashMap.Same parsedTxs (order parsedTxs)) →
        (rollup.registerBlockIn standIns order 5 (oneInstruction [99]) .new).2.returned = true) ∧
      Contained standIns 7 0 (oneInstruction [99]) := by
  refine (registerBlock_contained_iff (oneInstruction_sanitized [99])).mpr ⟨?_, ?_⟩
  · intro v hv _
    have hvisits : (oneInstruction [99]).visits
        = [⟨0, ⟨[[]], [7], [⟨0, [99]⟩]⟩, ⟨none, none⟩, ⟨0, [99]⟩⟩] := rfl
    rw [hvisits, List.mem_singleton] at hv
    subst hv
    refine ⟨List.cons_ne_nil _ _, fun rlp tx c hrlp => ?_⟩
    cases hrlp
  · intro hash
    refine Or.inr fun i offset data hstep => ?_
    cases hstep

end RomeSdk
