import RomeSdk.Parsers.BlockParser

/-!
# What one instruction does to the steps of a block

`parse_solana_block` runs through the instructions of the successful Solana
transactions of a block. What an instruction is for (`readInstruction`) is in its
data alone, and what it does to the steps read so far (`InstrEffect`) does not
depend on them: nothing, or its hash is listed, or a step is filed under its hash
and the index of its transaction. A block is so the list of its effects, and the
step at a place is the first one filed there.
-/

namespace RomeSdk

/-! ## Reading an instruction -/

/-- What an instruction carries. -/
inductive Cargo where
  | small (tx : Transaction)
  | big (hash : TxHash)
  | deposit (tx : Transaction)
  | chunk (hash : TxHash) (offset : Nat) (data : Bytes)
  deriving DecidableEq, Repr

/-- The answer of an argument parser of the program. -/
def programAnswer {α : Type} (answer : Except String α) : Outcome α :=
  answer.mapError fun e => .err (.romeProgramError e)

def readSmallTx (X : Crates) (rlp : Bytes) : Outcome (Option (Nat × Cargo)) :=
  match decodeTransactionFromRlp X rlp with
  | .error e => .error (.err e)
  | .ok tx =>
      match tx.chainId with
      | none => .error (.err .noChainId)
      | some chainId =>
          if usizeMax < chainId.toNat then
            .error (.panic "Integer overflow when casting to u64")
          else .ok (some (chainId.toNat, .small tx))

/-- The chain an instruction is for and what it carries; `none` for a tag the
indexer does not read. -/
def readInstruction (X : Crates) : Bytes → Outcome (Option (Nat × Cargo))
  | [] => .error (.panic "range start index 1 out of range for slice of length 0")
  | tag :: instrData =>
      if tag = X.romeEvm.tag .doTx then do
        readSmallTx X (← programAnswer (X.romeEvm.splitFee instrData))
      else if tag = X.romeEvm.tag .transmitTx then do
        let (offset, hash, chainId, chunk) ← programAnswer (X.romeEvm.transmitTxArgs instrData)
        pure (some (chainId, .chunk hash offset chunk))
      else if tag = X.romeEvm.tag .doTxHolder then do
        let (hash, chainId) ← programAnswer (X.romeEvm.doTxHolderArgs instrData)
        pure (some (chainId, .big hash))
      else if tag = X.romeEvm.tag .doTxIterative then do
        readSmallTx X (← programAnswer (X.romeEvm.doTxIterativeArgs instrData))
      else if tag = X.romeEvm.tag .doTxHolderIterative then do
        let (hash, chainId) ← programAnswer (X.romeEvm.doTxHolderIterativeArgs instrData)
        pure (some (chainId, .big hash))
      else if tag = X.romeEvm.tag .deposit then do
        let (chainId, rlp) ← programAnswer (X.romeEvm.depositArgs instrData)
        let tx ← (decodeTransactionFromRlp X rlp).toOutcome
        pure (some (chainId, .deposit tx))
      else pure none

/-! ## The effect of an instruction -/

inductive InstrEffect where
  | nothing
  | listed (hash : TxHash)
  | filed (hash : TxHash) (step : ParsedTxStep)
  deriving DecidableEq, Repr

def InstrEffect.apply (txIdx : Nat) (parsedTxs : ParsedTxs) : InstrEffect → ParsedTxs
  | .nothing => parsedTxs
  | .listed hash => parsedTxs.touch hash
  | .filed hash step => parsedTxs.addStep hash txIdx step

def executedEffect (X : Crates) (hash : TxHash) (step : Option TxResult → ParsedTxStep)
    (txMeta : UiTransactionStatusMeta) : InstrEffect :=
  match parseTransactionMeta X txMeta with
  | .error _ => .listed hash
  | .ok txResult => .filed hash (step txResult)

def Cargo.effect (X : Crates) (txMeta : UiTransactionStatusMeta) : Cargo → InstrEffect
  | .small tx => executedEffect X tx.hash (.smallTx tx) txMeta
  | .big hash => executedEffect X hash .bigTx txMeta
  | .deposit tx => .filed tx.hash (.smallTx tx (some .default))
  | .chunk hash offset data => .filed hash (.transmitTx offset data)

/-- The effect of what was read, or the message of the panic. -/
def effectOf (X : Crates) (chainId : Nat) (txMeta : UiTransactionStatusMeta) :
    Outcome (Option (Nat × Cargo)) → Except String InstrEffect
  | .error (.panic message) => .error message
  | .error (.err _) => .ok .nothing
  | .ok none => .ok .nothing
  | .ok (some (c, cargo)) => .ok (if c = chainId then cargo.effect X txMeta else .nothing)

/-- The steps after an instruction with this effect. -/
def applied (txIdx : Nat) (parsedTxs : ParsedTxs) :
    Except String InstrEffect → ParsedTxs × Outcome Unit
  | .error message => (parsedTxs, .error (.panic message))
  | .ok effect => (effect.apply txIdx parsedTxs, .ok ())

/-- The errors of an instruction are logged and dropped. -/
def logged : ParsedTxs × Outcome Unit → ParsedTxs × Outcome Unit
  | (parsedTxs, .error (.panic message)) => (parsedTxs, .error (.panic message))
  | (parsedTxs, _) => (parsedTxs, .ok ())

/-- A call that reads an instruction does what its effect says, and files nothing
where it returns an error. -/
structure Does (txIdx : Nat) (parsedTxs : ParsedTxs) (call : ParsedTxs × Outcome Unit)
    (effect : Except String InstrEffect) : Prop where
  logged : logged call = applied txIdx parsedTxs effect
  failed : ∀ e, call.2 = .error (.err e) → ∀ hash step, effect ≠ .ok (.filed hash step)

section

variable {X : Crates} {chainId txIdx : Nat} {parsedTxs : ParsedTxs}
  {txMeta : UiTransactionStatusMeta}

theorem Does.nothing (result : ProgramResult Unit) :
    Does txIdx parsedTxs (parsedTxs, result.toOutcome) (.ok .nothing) := by
  refine ⟨?_, fun e _ hash step h => by cases h⟩
  rcases result with e | ⟨⟨⟩⟩ <;> rfl

theorem Does.filed (hash : TxHash) (step : ParsedTxStep) :
    Does txIdx parsedTxs (parsedTxs.addStep hash txIdx step, .ok ()) (.ok (.filed hash step)) :=
  ⟨rfl, fun e h => by cases h⟩

theorem does_addExecuted (hash : TxHash) (step : Option TxResult → ParsedTxStep) :
    Does txIdx parsedTxs (addExecuted X parsedTxs hash txIdx step txMeta)
      (.ok (executedEffect X hash step txMeta)) := by
  simp only [addExecuted, executedEffect]
  cases parseTransactionMeta X txMeta with
  | error e => exact ⟨rfl, fun e _ hash step h => by cases h⟩
  | ok txResult => exact .filed hash (step txResult)

theorem does_processSmallTx (rlp : Bytes) :
    Does txIdx parsedTxs (processSmallTx X chainId parsedTxs txIdx rlp txMeta)
      (effectOf X chainId txMeta (readSmallTx X rlp)) := by
  simp only [processSmallTx, readSmallTx]
  cases decodeTransactionFromRlp X rlp with
  | error e => exact .nothing (.error e)
  | ok tx =>
      cases hchain : tx.chainId with
      | none =>
          simp only [hchain]
          exact .nothing (.error .noChainId)
      | some c =>
          simp only [hchain]
          by_cases hbig : usizeMax < c.toNat
          · rw [if_pos hbig, if_pos hbig]
            exact ⟨rfl, fun e h => by cases h⟩
          · rw [if_neg hbig, if_neg hbig]
            simp only [effectOf]
            by_cases hc : c.toNat = chainId
            · rw [if_pos hc, if_pos hc]
              exact does_addExecuted tx.hash (.smallTx tx)
            · rw [if_neg hc, if_neg hc]
              exact .nothing (.ok ())

theorem does_processBigTx (args : Except String (TxHash × Nat)) :
    Does txIdx parsedTxs (processBigTx X chainId parsedTxs txIdx args txMeta)
      (effectOf X chainId txMeta (do
        let (hash, txChainId) ← programAnswer args
        pure (some (txChainId, .big hash)))) := by
  obtain e | ⟨hash, c⟩ := args
  · exact .nothing (.error (.romeProgramError e))
  · simp only [processBigTx, programAnswer, Except.mapError, bind, Except.bind, pure, Except.pure,
      effectOf]
    by_cases hc : c = chainId
    · rw [if_pos hc, if_pos hc]
      exact does_addExecuted hash .bigTx
    · rw [if_neg hc, if_neg hc]
      exact .nothing (.ok ())

theorem does_processTransmitTx (instrData : Bytes) :
    Does txIdx parsedTxs (processTransmitTx X chainId parsedTxs txIdx instrData)
      (effectOf X chainId txMeta (do
        let (offset, hash, c, chunk) ← programAnswer (X.romeEvm.transmitTxArgs instrData)
        pure (some (c, .chunk hash offset chunk)))) := by
  rw [processTransmitTx]
  rcases X.romeEvm.transmitTxArgs instrData with e | ⟨offset, hash, c, chunk⟩
  · exact .nothing (.error (.romeProgramError e))
  · simp only [programAnswer, Except.mapError, bind, Except.bind, pure, Except.pure, effectOf]
    by_cases hc : c = chainId
    · rw [if_pos hc, if_pos hc]
      exact .filed hash (.transmitTx offset chunk)
    · rw [if_neg hc, if_neg hc]
      exact .nothing (.ok ())

theorem does_processDepositTx (instrData : Bytes) :
    Does txIdx parsedTxs (processDepositTx X chainId parsedTxs txIdx instrData)
      (effectOf X chainId txMeta (do
        let (c, rlp) ← programAnswer (X.romeEvm.depositArgs instrData)
        let tx ← (decodeTransactionFromRlp X rlp).toOutcome
        pure (some (c, .deposit tx)))) := by
  rw [processDepositTx]
  rcases X.romeEvm.depositArgs instrData with e | ⟨c, rlp⟩
  · exact .nothing (.error (.romeProgramError e))
  · simp only [programAnswer, Except.mapError, bind, Except.bind, pure, Except.pure]
    by_cases hc : c = chainId
    · rw [if_pos hc]
      cases decodeTransactionFromRlp X rlp with
      | error e => exact .nothing (.error e)
      | ok tx =>
          simp only [ProgramResult.toOutcome, effectOf, if_pos hc]
          exact .filed tx.hash (.smallTx tx (some .default))
    · -- for another chain the rlp is not decoded
      rw [if_neg hc]
      cases decodeTransactionFromRlp X rlp with
      | error e => exact .nothing (.ok ())
      | ok tx =>
          simp only [ProgramResult.toOutcome, effectOf, if_neg hc]
          exact .nothing (.ok ())

theorem does_processInstruction (tag : UInt8) (instrData : Bytes) :
    Does txIdx parsedTxs (processInstruction X chainId parsedTxs txIdx tag instrData txMeta)
      (effectOf X chainId txMeta (readInstruction X (tag :: instrData))) := by
  simp only [processInstruction, readInstruction]
  by_cases hDoTx : tag = X.romeEvm.tag .doTx
  · rw [if_pos hDoTx, if_pos hDoTx, processDoTx]
    cases X.romeEvm.splitFee instrData with
    | error e => exact .nothing (.error (.romeProgramError e))
    | ok rlp => exact does_processSmallTx rlp
  rw [if_neg hDoTx, if_neg hDoTx]
  by_cases hTransmitTx : tag = X.romeEvm.tag .transmitTx
  · rw [if_pos hTransmitTx, if_pos hTransmitTx]
    exact does_processTransmitTx instrData
  rw [if_neg hTransmitTx, if_neg hTransmitTx]
  by_cases hDoTxHolder : tag = X.romeEvm.tag .doTxHolder
  · rw [if_pos hDoTxHolder, if_pos hDoTxHolder]
    exact does_processBigTx _
  rw [if_neg hDoTxHolder, if_neg hDoTxHolder]
  by_cases hDoTxIterative : tag = X.romeEvm.tag .doTxIterative
  · rw [if_pos hDoTxIterative, if_pos hDoTxIterative, processDoTxIterative]
    cases X.romeEvm.doTxIterativeArgs instrData with
    | error e => exact .nothing (.error (.romeProgramError e))
    | ok rlp => exact does_processSmallTx rlp
  rw [if_neg hDoTxIterative, if_neg hDoTxIterative]
  by_cases hHolderIterative : tag = X.romeEvm.tag .doTxHolderIterative
  · rw [if_pos hHolderIterative, if_pos hHolderIterative]
    exact does_processBigTx _
  rw [if_neg hHolderIterative, if_neg hHolderIterative]
  by_cases hDeposit : tag = X.romeEvm.tag .deposit
  · rw [if_pos hDeposit, if_pos hDeposit]
    exact does_processDepositTx instrData
  rw [if_neg hDeposit, if_neg hDeposit]
  exact .nothing (.ok ())

/-- What an instruction does is its effect, whatever was read before it. -/
theorem parseInstruction_eq (data : Bytes) :
    parseInstruction X chainId parsedTxs txIdx data txMeta
      = applied txIdx parsedTxs (effectOf X chainId txMeta (readInstruction X data)) := by
  cases data with
  | nil => rfl
  | cons tag instrData =>
      rw [← (does_processInstruction tag instrData).logged, parseInstruction]
      rcases processInstruction X chainId parsedTxs txIdx tag instrData txMeta with
        ⟨txs, (e | message) | ⟨⟨⟩⟩⟩ <;> rfl

end

/-! ## The instructions of a block -/

/-- An instruction of a successful Solana transaction, with the transaction, its
index and its metadata. -/
structure Visit where
  txIdx : Nat
  transaction : SolTransaction
  txMeta : UiTransactionStatusMeta
  instr : CompiledInstruction

def visitsOf (e : (Option SolTransaction × Option UiTransactionStatusMeta) × Nat) : List Visit :=
  match e with
  | ((some transaction, some txMeta), txIdx) =>
      if txMeta.err.isSome then [] else transaction.instructions.map (.mk txIdx transaction txMeta)
  | _ => []

def UiConfirmedBlock.visits (block : UiConfirmedBlock) : List Visit :=
  (block.transactions.getD []).zipIdx.flatMap visitsOf

namespace Visit

/-- What was read at a visit; `none` for an instruction of another program. -/
def reading (X : Crates) (programId : Pubkey) (v : Visit) : Outcome (Option (Nat × Cargo)) :=
  match v.transaction.staticAccountKeys[v.instr.programIdIndex]? with
  | none => .error (.panic "index out of bounds")
  | some key =>
      if key = programId then
        match v.transaction.signatures with
        | [] => .error (.panic "index out of bounds")
        | _ :: _ => readInstruction X v.instr.data
      else .ok none

def visit (X : Crates) (programId : Pubkey) (chainId : Nat) (parsedTxs : ParsedTxs) (v : Visit) :
    ParsedTxs × Outcome Unit :=
  visitInstruction X programId chainId v.txIdx v.transaction v.txMeta parsedTxs v.instr

theorem visit_eq (X : Crates) (programId : Pubkey) (chainId : Nat) (parsedTxs : ParsedTxs)
    (v : Visit) : v.visit X programId chainId parsedTxs
      = applied v.txIdx parsedTxs (effectOf X chainId v.txMeta (v.reading X programId)) := by
  rw [visit, visitInstruction, reading]
  cases v.transaction.staticAccountKeys[v.instr.programIdIndex]? with
  | none => rfl
  | some key =>
      simp only
      by_cases hkey : key = programId
      · rw [if_pos hkey, if_pos hkey]
        cases v.transaction.signatures with
        | nil => rfl
        | cons _ _ => exact parseInstruction_eq v.instr.data
      · rw [if_neg hkey, if_neg hkey]
        rfl

/-- The effect of a visit that does not panic. -/
def effect (X : Crates) (programId : Pubkey) (chainId : Nat) (v : Visit) : InstrEffect :=
  match effectOf X chainId v.txMeta (v.reading X programId) with
  | .ok effect => effect
  | .error _ => .nothing

/-- The instruction is read without a panic. -/
def Returns (X : Crates) (programId : Pubkey) (v : Visit) : Prop :=
  (v.reading X programId).returned = true

instance (X : Crates) (programId : Pubkey) (v : Visit) : Decidable (v.Returns X programId) :=
  inferInstanceAs (Decidable (_ = true))

theorem Returns.visit_eq {X : Crates} {programId : Pubkey} {v : Visit}
    (h : v.Returns X programId) (chainId : Nat) (parsedTxs : ParsedTxs) :
    v.visit X programId chainId parsedTxs
      = ((v.effect X programId chainId).apply v.txIdx parsedTxs, .ok ()) := by
  rw [Visit.visit_eq, effect]
  rw [Returns] at h
  rcases hread : v.reading X programId with (e | message) | (_ | ⟨c, cargo⟩)
  · rfl
  · rw [hread] at h
    cases h
  · rfl
  · rfl

theorem not_returns {X : Crates} {programId : Pubkey} {v : Visit}
    (h : ¬ v.Returns X programId) (chainId : Nat) (parsedTxs : ParsedTxs) :
    ∃ message, v.visit X programId chainId parsedTxs = (parsedTxs, .error (.panic message)) := by
  rw [Visit.visit_eq]
  rcases hread : v.reading X programId with (e | message) | (_ | ⟨c, cargo⟩)
  · exact absurd (by rw [Returns, hread]; rfl) h
  · exact ⟨message, rfl⟩
  · exact absurd (by rw [Returns, hread]; rfl) h
  · exact absurd (by rw [Returns, hread]; rfl) h

end Visit

theorem visitTransaction_eq (X : Crates) (programId : Pubkey) (chainId : Nat)
    (parsedTxs : ParsedTxs)
    (e : (Option SolTransaction × Option UiTransactionStatusMeta) × Nat) :
    visitTransaction X programId chainId parsedTxs e
      = forTry (Visit.visit X programId chainId) (visitsOf e) parsedTxs := by
  obtain ⟨⟨_ | transaction, _ | txMeta⟩, txIdx⟩ := e
  · rfl
  · rfl
  · rfl
  · simp only [visitTransaction, visitsOf]
    split
    · rfl
    · rw [forTry_map]
      rfl

/-- A block is read as one loop over its instructions. -/
theorem parseSolanaBlock_eq (X : Crates) (block : UiConfirmedBlock) (programId : Pubkey)
    (chainId : Nat) : parseSolanaBlock X block programId chainId
      = forTry (Visit.visit X programId chainId) block.visits ∅ := by
  rw [UiConfirmedBlock.visits, ← forTry_flatMap]
  have hbody : visitTransaction X programId chainId = fun parsedTxs e =>
      forTry (Visit.visit X programId chainId) (visitsOf e) parsedTxs := by
    funext parsedTxs e
    exact visitTransaction_eq X programId chainId parsedTxs e
  rw [parseSolanaBlock, hbody]
  cases block.transactions <;> rfl

/-! ## The steps of a block -/

/-- The steps after the visits, with their effects applied in order. -/
def appliedAll (X : Crates) (programId : Pubkey) (chainId : Nat) (visits : List Visit)
    (parsedTxs : ParsedTxs) : ParsedTxs :=
  visits.foldl (fun txs v => (v.effect X programId chainId).apply v.txIdx txs) parsedTxs

theorem forTry_visit {X : Crates} {programId : Pubkey} (chainId : Nat) {visits : List Visit}
    (h : ∀ v ∈ visits, v.Returns X programId) : ∀ parsedTxs,
      forTry (Visit.visit X programId chainId) visits parsedTxs
        = (appliedAll X programId chainId visits parsedTxs, .ok ()) := by
  induction visits with
  | nil => intro parsedTxs; rfl
  | cons v visits ih =>
      intro parsedTxs
      rw [forTry_cons_ok ((h v (List.mem_cons_self ..)).visit_eq chainId parsedTxs)]
      exact ih (fun w hw => h w (List.mem_cons_of_mem v hw)) _

/-- Reading a block panics exactly if reading one of its instructions does, and
otherwise applies the effects one after the other. -/
theorem parseSolanaBlock_returns_iff {X : Crates} {block : UiConfirmedBlock} {programId : Pubkey}
    {chainId : Nat} : (parseSolanaBlock X block programId chainId).2 = .ok () ↔
      ∀ v ∈ block.visits, v.Returns X programId := by
  rw [parseSolanaBlock_eq]
  constructor
  · intro hok v hv
    by_contra hnot
    have hrun : forTry (Visit.visit X programId chainId) block.visits ∅
        = ((forTry (Visit.visit X programId chainId) block.visits ∅).1, .ok ()) :=
      Prod.ext rfl hok
    obtain ⟨s, t, hbody⟩ := forTry_body_ok hrun v hv
    obtain ⟨message, hpanic⟩ := Visit.not_returns hnot chainId s
    rw [hpanic] at hbody
    cases hbody
  · intro h
    rw [forTry_visit chainId h]

/-- The errors of a block are panics. -/
theorem parseSolanaBlock_returned {X : Crates} {block : UiConfirmedBlock} {programId : Pubkey}
    {chainId : Nat} (h : (parseSolanaBlock X block programId chainId).2.returned = true) :
    (parseSolanaBlock X block programId chainId).2 = .ok () := by
  rw [parseSolanaBlock_eq] at h ⊢
  rcases forTry_split (Visit.visit X programId chainId) block.visits ∅ with
    ⟨txs, hrun⟩ | ⟨done, v, rest, s₁, s', e, _, _, hstop, hrun⟩
  · rw [hrun]
  · rw [hrun] at h
    by_cases hreturns : v.Returns X programId
    · rw [hreturns.visit_eq] at hstop
      cases hstop
    · obtain ⟨message, hpanic⟩ := Visit.not_returns hreturns chainId s₁
      rw [hpanic] at hstop
      cases hstop
      cases h

theorem parseSolanaBlock_steps {X : Crates} {block : UiConfirmedBlock} {programId : Pubkey}
    (chainId : Nat) (h : ∀ v ∈ block.visits, v.Returns X programId) :
    parseSolanaBlock X block programId chainId
      = (appliedAll X programId chainId block.visits ∅, .ok ()) := by
  rw [parseSolanaBlock_eq, forTry_visit chainId h]

/-- The step a visit files at a place. -/
def Visit.filedAt (X : Crates) (programId : Pubkey) (chainId : Nat) (hash : TxHash) (txIdx : Nat)
    (v : Visit) : Option ParsedTxStep :=
  match v.effect X programId chainId with
  | .filed h step => if h = hash ∧ v.txIdx = txIdx then some step else none
  | _ => none

theorem Visit.filedAt_eq_some {X : Crates} {programId : Pubkey} {chainId : Nat} {hash : TxHash}
    {txIdx : Nat} {v : Visit} {step : ParsedTxStep} :
    v.filedAt X programId chainId hash txIdx = some step ↔
      v.effect X programId chainId = .filed hash step ∧ v.txIdx = txIdx := by
  rw [filedAt]
  cases v.effect X programId chainId with
  | nothing => simp
  | listed h => simp
  | filed h s =>
      simp only [Option.ite_none_right_eq_some, Option.some.injEq, InstrEffect.filed.injEq]
      constructor
      · rintro ⟨⟨hh, hidx⟩, hs⟩
        exact ⟨⟨hh, hs⟩, hidx⟩
      · rintro ⟨⟨hh, hs⟩, hidx⟩
        exact ⟨⟨hh, hidx⟩, hs⟩

theorem stepAt_touch (txs : ParsedTxs) (hash h : TxHash) (i : Nat) :
    (txs.touch hash).stepAt h i = txs.stepAt h i := by
  simp only [ParsedTxs.stepAt, ParsedTxs.touch, HashMap.lookup_upsert]
  by_cases hh : hash = h
  · subst hh
    rw [if_pos rfl]
    cases AList.lookup hash txs <;> simp
  · rw [if_neg hh]

theorem stepAt_addStep (txs : ParsedTxs) (hash : TxHash) (txIdx : Nat) (step : ParsedTxStep)
    (h : TxHash) (i : Nat) : (txs.addStep hash txIdx step).stepAt h i
      = (txs.stepAt h i).or (if hash = h ∧ txIdx = i then some step else none) := by
  simp only [ParsedTxs.stepAt, ParsedTxs.addStep, HashMap.lookup_upsert]
  by_cases hh : hash = h
  · subst hh
    simp only [if_pos, Option.bind_some, BTreeMap.get?_insertIfNew, true_and]
    by_cases hi : txIdx = i
    · subst hi
      cases AList.lookup hash txs with
      | none => simp
      | some steps => cases hstep : steps[txIdx]? <;> simp [hstep]
    · cases AList.lookup hash txs <;> simp [hi]
  · simp [hh]

theorem stepAt_effect (X : Crates) (programId : Pubkey) (chainId : Nat) (v : Visit)
    (txs : ParsedTxs) (h : TxHash) (i : Nat) :
    ((v.effect X programId chainId).apply v.txIdx txs).stepAt h i
      = (txs.stepAt h i).or (v.filedAt X programId chainId h i) := by
  rw [Visit.filedAt]
  cases v.effect X programId chainId with
  | nothing => simp [InstrEffect.apply]
  | listed hash => simp [InstrEffect.apply, stepAt_touch]
  | filed hash step => exact stepAt_addStep txs hash v.txIdx step h i

/-- The step at a place is the one that was there, or else the first one filed there. -/
theorem stepAt_appliedAll (X : Crates) (programId : Pubkey) (chainId : Nat) (visits : List Visit)
    (h : TxHash) (i : Nat) : ∀ txs, (appliedAll X programId chainId visits txs).stepAt h i
      = (txs.stepAt h i).or (visits.findSome? (Visit.filedAt X programId chainId h i)) := by
  induction visits with
  | nil => intro txs; simp [appliedAll]
  | cons v visits ih =>
      intro txs
      rw [appliedAll, List.foldl_cons]
      refine (ih _).trans ?_
      rw [stepAt_effect, Option.or_assoc, List.findSome?_cons]
      cases v.filedAt X programId chainId h i <;> rfl

theorem stepAt_block (X : Crates) (programId : Pubkey) (chainId : Nat) (visits : List Visit)
    (h : TxHash) (i : Nat) : (appliedAll X programId chainId visits ∅).stepAt h i
      = visits.findSome? (Visit.filedAt X programId chainId h i) := by
  rw [stepAt_appliedAll]
  rfl

end RomeSdk
