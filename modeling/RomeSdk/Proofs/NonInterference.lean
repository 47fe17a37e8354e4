import Mathlib.Logic.Relation
import RomeSdk.Proofs.Instructions
import RomeSdk.Proofs.RegistrationOutcome
import RomeSdk.Proofs.WalkingOrder

/-!
# Rollups that share a program

A chain reads of a block the instructions that are for it. A Solana transaction with
none of them, for other chains or unreadable, leaves the steps of the block as they
are but for the indices: those behind it move by one. Indices count only by their
order, so the registration of the block ends as before, the slot is complete as
before, and it is finalized to the same list. The edit is one transaction; a block
that many edits lead to is reached by one edit after the other.
-/

namespace RomeSdk

/-- A Solana transaction of a block, as far as it can be decoded, with its metadata. -/
abbrev BlockEntry : Type := Option SolTransaction × Option UiTransactionStatusMeta

/-! ## Visits at other indices -/

namespace Visit

/-- The instruction is for the chain. -/
def isFor (X : Crates) (programId : Pubkey) (chainId : Nat) (v : Visit) : Bool :=
  match v.reading X programId with
  | .ok (some (c, _)) => c == chainId
  | _ => false

/-- The visit with its index moved. -/
def moved (f : Nat → Nat) (v : Visit) : Visit := { v with txIdx := f v.txIdx }

variable {X : Crates} {programId : Pubkey} {chainId : Nat} {v : Visit} {f : Nat → Nat}

theorem effect_moved :
    (v.moved f).effect X programId chainId = v.effect X programId chainId := rfl

/-- An instruction that is not for the chain has no effect. -/
theorem effect_nothing (h : v.isFor X programId chainId = false) :
    v.effect X programId chainId = .nothing := by
  rw [isFor] at h
  rw [effect]
  rcases hread : v.reading X programId with (e | message) | (_ | ⟨c, cargo⟩)
  · rfl
  · rfl
  · rfl
  · rw [hread] at h
    simp only [effectOf]
    rw [if_neg (fun heq => by simp [heq] at h)]

theorem isFor_of_filed {hash : TxHash} {i : Nat} {step : ParsedTxStep}
    (h : v.filedAt X programId chainId hash i = some step) : v.isFor X programId chainId = true := by
  cases hfor : v.isFor X programId chainId with
  | true => rfl
  | false =>
      have heffect := (filedAt_eq_some.mp h).1
      rw [effect_nothing hfor] at heffect
      cases heffect

theorem filedAt_moved (hf : ∀ i j, i < j → f i < f j) (hash : TxHash) (i : Nat) :
    (v.moved f).filedAt X programId chainId hash (f i) = v.filedAt X programId chainId hash i := by
  have hinj : f v.txIdx = f i ↔ v.txIdx = i := by
    constructor
    · intro heq
      rcases Nat.lt_trichotomy v.txIdx i with hlt | heq' | hlt
      · have := hf _ _ hlt
        omega
      · exact heq'
      · have := hf _ _ hlt
        omega
    · exact congrArg f
  rw [filedAt, filedAt, effect_moved]
  cases v.effect X programId chainId with
  | nothing => rfl
  | listed h => rfl
  | filed h step => simp only [moved, hinj]

end Visit

section

variable {X : Crates} {programId : Pubkey} {chainId : Nat}

/-- The steps of visits that are moved are the steps of the visits, moved. -/
theorem findSome?_moved {f : Nat → Nat} (hf : ∀ i j, i < j → f i < f j) (visits : List Visit)
    (hash : TxHash) (j : Nat) (step : ParsedTxStep) :
    (visits.map (Visit.moved f)).findSome? (Visit.filedAt X programId chainId hash j) = some step ↔
      ∃ i, f i = j ∧ visits.findSome? (Visit.filedAt X programId chainId hash i) = some step := by
  have hat : ∀ i, (visits.map (Visit.moved f)).findSome?
      (Visit.filedAt X programId chainId hash (f i))
        = visits.findSome? (Visit.filedAt X programId chainId hash i) := by
    intro i
    rw [List.findSome?_map]
    congr 1
    funext v
    exact Visit.filedAt_moved hf hash i
  constructor
  · intro h
    obtain ⟨w, hw, hfiled⟩ := List.exists_of_findSome?_eq_some h
    obtain ⟨v, _, rfl⟩ := List.mem_map.mp hw
    have hidx : f v.txIdx = j := (Visit.filedAt_eq_some.mp hfiled).2
    refine ⟨v.txIdx, hidx, ?_⟩
    rw [← hat, hidx]
    exact h
  · intro h
    obtain ⟨i, rfl, h⟩ := h
    rw [hat]
    exact h

/-! ## The visits of a list of transactions -/

def visitsFrom (k : Nat) (entries : List BlockEntry) : List Visit :=
  (entries.zipIdx k).flatMap visitsOf

theorem visits_eq (block : UiConfirmedBlock) :
    block.visits = visitsFrom 0 (block.transactions.getD []) := rfl

theorem visitsFrom_append (k : Nat) (before after : List BlockEntry) :
    visitsFrom k (before ++ after)
      = visitsFrom k before ++ visitsFrom (k + before.length) after := by
  rw [visitsFrom, List.zipIdx_append, List.flatMap_append]
  rfl

theorem visitsFrom_cons (k : Nat) (e : BlockEntry) (entries : List BlockEntry) :
    visitsFrom k (e :: entries) = visitsOf (e, k) ++ visitsFrom (k + 1) entries := rfl

/-- The instructions of a transaction do not depend on where it is. -/
theorem visitsOf_moved (e : BlockEntry) (f : Nat → Nat) (k : Nat) :
    visitsOf (e, f k) = (visitsOf (e, k)).map (Visit.moved f) := by
  obtain ⟨_ | transaction, _ | txMeta⟩ := e
  · rfl
  · rfl
  · rfl
  · simp only [visitsOf]
    split
    · rfl
    · rw [List.map_map]
      rfl

theorem visitsFrom_moved (entries : List BlockEntry) : ∀ (f : Nat → Nat) (k m : Nat),
    (∀ i, i < entries.length → f (k + i) = m + i) →
      visitsFrom m entries = (visitsFrom k entries).map (Visit.moved f) := by
  induction entries with
  | nil => intro f k m _; rfl
  | cons e entries ih =>
      intro f k m h
      have hhead : f k = m := h 0 (by simp)
      have htail : ∀ i, i < entries.length → f (k + 1 + i) = m + 1 + i := by
        intro i hi
        have := h (i + 1) (by simp only [List.length_cons]; omega)
        rw [show k + 1 + i = k + (i + 1) by omega, this]
        omega
      rw [visitsFrom_cons, visitsFrom_cons, List.map_append, ← visitsOf_moved, hhead,
        ih f (k + 1) (m + 1) htail]

theorem mem_visitsFrom {entries : List BlockEntry} : ∀ {k : Nat} {v : Visit},
    v ∈ visitsFrom k entries → ∃ e ∈ entries, ∃ i, entries[i]? = some e ∧ v.txIdx = k + i ∧
      v ∈ visitsOf (e, v.txIdx) := by
  induction entries with
  | nil => intro k v h; cases h
  | cons e entries ih =>
      intro k v h
      rw [visitsFrom_cons, List.mem_append] at h
      rcases h with h | h
      · have hidx : v.txIdx = k := by
          obtain ⟨_ | transaction, _ | txMeta⟩ := e
          · cases h
          · cases h
          · cases h
          · simp only [visitsOf] at h
            split at h
            · cases h
            · obtain ⟨instr, _, rfl⟩ := List.mem_map.mp h
              rfl
        exact ⟨e, List.mem_cons_self .., 0, rfl, by omega, hidx ▸ h⟩
      · obtain ⟨e', he', i, hi, hidx, hv⟩ := ih h
        exact ⟨e', List.mem_cons_of_mem e he', i + 1, hi, by omega, hv⟩

end

/-! ## Registrations with the same steps -/

namespace DefaultTxParser

/-- What a registration of the steps may end as, in some order of their hash map. -/
def MayEnd (p : DefaultTxParser) (slot : Slot) (slotTxs : ParsedTxs) (q : DefaultTxParser)
    (out : Outcome Unit) : Prop :=
  ∃ given, HashMap.Same slotTxs given ∧ p.registerSlotTransactions slot given = (q, out)

theorem MayEnd.ok_iff {p q : DefaultTxParser} {slot : Slot} {slotTxs : ParsedTxs}
    {out : Outcome Unit} (h : MayEnd p slot slotTxs q out) :
    out = .ok () ↔ ∀ hash, (p.hashRun slotTxs hash).2 = .ok () := by
  obtain ⟨given, hsame, hrun⟩ := h
  have hout : (p.registerSlotTransactions slot given).2 = out := by rw [hrun]
  rw [← hout, registerSlotTransactions_ok_iff]
  simp only [hashRun_same p hsame]

/-- Where every hash has the same run, a registration may end in the same ways. -/
theorem MayEnd.outcome {p q : DefaultTxParser} {slot : Slot} {slotTxs slotTxs' : ParsedTxs}
    {out : Outcome Unit} (hrun : ∀ hash, p.hashRun slotTxs hash = p.hashRun slotTxs' hash)
    (h : MayEnd p slot slotTxs q out) : ∃ q', MayEnd p slot slotTxs' q' out := by
  cases out with
  | ok u =>
      have hall := h.ok_iff.mp rfl
      have hok : (p.registerSlotTransactions slot slotTxs').2 = .ok () := by
        refine registerSlotTransactions_ok_iff.mpr fun hash => ?_
        rw [← hrun]
        exact hall hash
      exact ⟨_, slotTxs', HashMap.Same.refl _, Prod.ext rfl hok⟩
  | error e =>
      obtain ⟨given, hsame, hend⟩ := h
      obtain ⟨hash, herr⟩ := registerSlotTransactions_error (congrArg Prod.snd hend)
      rw [← hashRun_same p hsame, hrun] at herr
      obtain ⟨given', hsame', herr'⟩ := exists_order_error slot herr
      exact ⟨_, given', hsame', Prod.ext rfl herr'⟩

/-- A step that is taken leaves a record. -/
theorem exists_record_of_run {steps : List ParsedTxStep} {o o' : Option EvmTx}
    (hne : steps ≠ []) (h : forTry recordStep steps o = (o', .ok ())) : ∃ tx, o' = some tx := by
  obtain rfl | ⟨first, last, rfl⟩ := List.eq_nil_or_concat' steps
  · exact absurd rfl hne
  · obtain ⟨o₁, _, hlast⟩ := forTry_append_inv h
    obtain ⟨o₂, hstep, hend⟩ := forTry_cons_inv hlast
    cases hend
    rcases recordStep_cases hstep with ⟨tx, r, _, rfl⟩ | ⟨r, _, rfl⟩ | ⟨_, _, updated, _, _, rfl⟩
    · exact ⟨_, rfl⟩
    · exact ⟨_, rfl⟩
    · exact ⟨updated, rfl⟩

section

variable {p q : DefaultTxParser} {slot : Slot} {slotTxs : ParsedTxs}

theorem MayEnd.hashRun_eq (h : MayEnd p slot slotTxs q (.ok ())) (hash : TxHash) :
    p.hashRun slotTxs hash = (q.record hash, .ok ()) := by
  obtain ⟨given, hsame, hrun⟩ := h
  rw [hashRun_same p hsame]
  exact hashRun_of_ok hrun hash

theorem MayEnd.resultAt_eq (h : MayEnd p slot slotTxs q (.ok ())) (hash : TxHash) (i : Nat) :
    q.resultAt slot hash i = (slotTxs.stepAt hash i).map ParsedTxStep.result := by
  obtain ⟨given, hsame, hrun⟩ := h
  rw [stepAt_same hsame]
  exact registerSlotTransactions_results hrun hash i

theorem MayEnd.recorded (h : MayEnd p slot slotTxs q (.ok ())) : q.Recorded slot := by
  intro hash i r hr
  rw [h.resultAt_eq] at hr
  obtain ⟨step, hstep, _⟩ := Option.map_eq_some_iff.mp hr
  have hrun := h.hashRun_eq hash
  exact exists_record_of_run (List.ne_nil_of_mem (mem_stepsOf.mpr ⟨i, hstep⟩)) hrun

end

/-- The same steps at indices that ascend alike. -/
structure StepsRenamed (f : Nat → Nat) (slotTxs slotTxs' : ParsedTxs) : Prop where
  ascending : ∀ i j, i < j → f i < f j
  steps : ∀ hash j step, slotTxs'.stepAt hash j = some step ↔
    ∃ i, f i = j ∧ slotTxs.stepAt hash i = some step

section

variable {f : Nat → Nat} {slotTxs slotTxs' : ParsedTxs}

theorem StepsRenamed.hashRun_eq (h : StepsRenamed f slotTxs slotTxs') (p : DefaultTxParser)
    (hash : TxHash) : p.hashRun slotTxs hash = p.hashRun slotTxs' hash := by
  have hsteps : ∀ j step, ((slotTxs'.lookup hash).getD ∅ : TxSteps)[j]? = some step ↔
      ∃ i, f i = j ∧ ((slotTxs.lookup hash).getD ∅ : TxSteps)[i]? = some step := by
    intro j step
    rw [getElem?_steps, h.steps]
    simp only [getElem?_steps]
  have hlist := BTreeMap.toList_renamed h.ascending hsteps
  rw [hashRun, hashRun, stepsOf_inOrder, stepsOf_inOrder, hlist, List.map_map]
  rfl

/-- Parsers that took the steps well differ by the indices of the results. -/
theorem StepsRenamed.renamed {p q q' : DefaultTxParser} {slot : Slot}
    (h : StepsRenamed f slotTxs slotTxs') (hq : MayEnd p slot slotTxs q (.ok ()))
    (hq' : MayEnd p slot slotTxs' q' (.ok ())) :
    Renamed f q q' slot ∧ ∀ hash, q.record hash = q'.record hash := by
  refine ⟨⟨h.ascending, fun hash j r => ?_⟩, fun hash => ?_⟩
  · rw [hq'.resultAt_eq, Option.map_eq_some_iff]
    constructor
    · intro hr
      obtain ⟨step, hstep, hr⟩ := hr
      obtain ⟨i, hi, hstep⟩ := (h.steps hash j step).mp hstep
      refine ⟨i, hi, ?_⟩
      rw [hq.resultAt_eq, hstep, Option.map_some, hr]
    · intro hr
      obtain ⟨i, hi, hr⟩ := hr
      rw [hq.resultAt_eq, Option.map_eq_some_iff] at hr
      obtain ⟨step, hstep, hr⟩ := hr
      exact ⟨step, (h.steps hash j step).mpr ⟨i, hi, hstep⟩, hr⟩
  · have hrun := hq.hashRun_eq hash
    rw [h.hashRun_eq p hash, hq'.hashRun_eq hash] at hrun
    exact (congrArg Prod.fst hrun).symm

end

end DefaultTxParser

/-! ## A fresh parser and a block -/

/-- The message with which reading an instruction panics. -/
def Visit.panic (X : Crates) (programId : Pubkey) (v : Visit) : Option String :=
  match v.reading X programId with
  | .error (.panic message) => some message
  | _ => none

theorem Visit.returns_iff_panic {X : Crates} {programId : Pubkey} {v : Visit} :
    v.Returns X programId ↔ v.panic X programId = none := by
  rw [Returns, panic]
  rcases v.reading X programId with (e | message) | o
  · exact ⟨fun _ => rfl, fun _ => rfl⟩
  · exact ⟨fun h => (by cases h), fun h => (by cases h)⟩
  · exact ⟨fun _ => rfl, fun _ => rfl⟩

/-- What a fresh parser that is given the block may end as, and the outcome. -/
inductive FirstParse (X : Crates) (programId : Pubkey) (chainId : Nat) (slot : Slot)
    (block : UiConfirmedBlock) : DefaultTxParser → Outcome Unit → Prop where
  | unread {e : Failure} : (parseSolanaBlock X block programId chainId).2 = .error e →
      FirstParse X programId chainId slot block .new (.error e)
  | registered {parsedTxs : ParsedTxs} {p : DefaultTxParser} {out : Outcome Unit} :
      parseSolanaBlock X block programId chainId = (parsedTxs, .ok ()) →
      DefaultTxParser.MayEnd .new slot parsedTxs p out →
      FirstParse X programId chainId slot block p out

section

variable {X : Crates} {programId : Pubkey} {chainId : Nat} {slot : Slot}
  {block block' : UiConfirmedBlock}

theorem Visit.visit_outcome (v : Visit) (parsedTxs : ParsedTxs) :
    (v.visit X programId chainId parsedTxs).2
      = match v.panic X programId with
        | none => .ok ()
        | some message => .error (.panic message) := by
  rw [Visit.visit_eq, panic]
  rcases v.reading X programId with (e | message) | (_ | ⟨c, cargo⟩) <;> rfl

/-- The reading of a block ends with the first panic of its instructions. -/
theorem forTry_visit_outcome (visits : List Visit) : ∀ parsedTxs,
    (forTry (Visit.visit X programId chainId) visits parsedTxs).2
      = match visits.findSome? (Visit.panic X programId) with
        | none => .ok ()
        | some message => .error (.panic message) := by
  induction visits with
  | nil => intro parsedTxs; rfl
  | cons v visits ih =>
      intro parsedTxs
      have hout : (v.visit X programId chainId parsedTxs).2 = _ := v.visit_outcome parsedTxs
      rw [List.findSome?_cons]
      rcases hvisit : v.visit X programId chainId parsedTxs with ⟨txs, e | ⟨⟨⟩⟩⟩
      · rw [hvisit] at hout
        rw [forTry_cons_error hvisit]
        cases hpanic : v.panic X programId with
        | none =>
            rw [hpanic] at hout
            cases hout
        | some message =>
            rw [hpanic] at hout
            exact hout
      · rw [hvisit] at hout
        rw [forTry_cons_ok hvisit, ih]
        cases hpanic : v.panic X programId with
        | none => rfl
        | some message =>
            rw [hpanic] at hout
            cases hout

theorem FirstParse.of_ok (h : FirstParse X programId chainId slot block p (.ok ())) :
    (∀ v ∈ block.visits, v.Returns X programId) ∧ DefaultTxParser.MayEnd .new slot
      (appliedAll X programId chainId block.visits ∅) p (.ok ()) := by
  cases h with
  | registered hparse hend =>
      have hreturns := parseSolanaBlock_returns_iff.mp (congrArg Prod.snd hparse)
      rw [parseSolanaBlock_steps chainId hreturns] at hparse
      cases hparse
      exact ⟨hreturns, hend⟩

/-- Where one order of the hash map ends well, all do. -/
theorem FirstParse.ok_only {p q : DefaultTxParser} {out : Outcome Unit}
    (h : FirstParse X programId chainId slot block p (.ok ()))
    (h' : FirstParse X programId chainId slot block q out) : out = .ok () := by
  obtain ⟨hreturns, hend⟩ := h.of_ok
  have hparse := parseSolanaBlock_steps chainId hreturns
  cases h' with
  | unread herr =>
      rw [hparse] at herr
      cases herr
  | registered hparse' hend' =>
      rw [hparse] at hparse'
      cases hparse'
      exact hend'.ok_iff.mpr (hend.ok_iff.mp rfl)

/-- A block that cannot be read leaves the parser fresh. -/
theorem firstParse_of_error {e : Failure} {out : Outcome Unit}
    (h : (parseSolanaBlock X block programId chainId).2 = .error e) :
    (∃ p, FirstParse X programId chainId slot block p out) ↔ out = .error e := by
  constructor
  · intro hex
    obtain ⟨p, hp⟩ := hex
    cases hp with
    | unread herr =>
        rw [h] at herr
        cases herr
        rfl
    | registered hparse hend =>
        rw [hparse] at h
        cases h
  · rintro rfl
    exact ⟨.new, .unread h⟩

theorem firstParse_of_ok {out : Outcome Unit}
    (h : (parseSolanaBlock X block programId chainId).2 = .ok ()) :
    (∃ p, FirstParse X programId chainId slot block p out) ↔
      ∃ p, DefaultTxParser.MayEnd .new slot (appliedAll X programId chainId block.visits ∅)
        p out := by
  have hparse := parseSolanaBlock_steps chainId (parseSolanaBlock_returns_iff.mp h)
  constructor
  · intro hex
    obtain ⟨p, hp⟩ := hex
    cases hp with
    | unread herr =>
        rw [h] at herr
        cases herr
    | registered hparse' hend =>
        rw [hparse] at hparse'
        cases hparse'
        exact ⟨p, hend⟩
  · intro hex
    obtain ⟨p, hend⟩ := hex
    exact ⟨p, .registered hparse hend⟩

/-! ## One transaction more -/

/-- The instructions for the chain that a transaction brings. -/
def forChain (X : Crates) (programId : Pubkey) (chainId : Nat) (e : BlockEntry) : List Visit :=
  (visitsOf (e, 0)).filter (Visit.isFor X programId chainId)

/-- A transaction without an instruction for the chain, read without a panic. -/
structure Foreign (X : Crates) (programId : Pubkey) (chainId : Nat) (e : BlockEntry) : Prop where
  silent : forChain X programId chainId e = []
  returns : ∀ v ∈ visitsOf (e, 0), v.Returns X programId

/-- The second block has one foreign transaction more than the first. -/
inductive Inserted (X : Crates) (programId : Pubkey) (chainId : Nat)
    (block block' : UiConfirmedBlock) : Prop where
  | intro (before after : List BlockEntry) (e : BlockEntry) :
      block.transactions.getD [] = before ++ after →
      block'.transactions.getD [] = before ++ e :: after →
      Foreign X programId chainId e → Inserted X programId chainId block block'

/-- Every transaction of the block brings at most one instruction for the chain. -/
def OneEach (X : Crates) (programId : Pubkey) (chainId : Nat) (block : UiConfirmedBlock) : Prop :=
  ∀ e ∈ block.transactions.getD [], (forChain X programId chainId e).length ≤ 1

instance : Decidable (OneEach X programId chainId block) :=
  inferInstanceAs (Decidable (∀ e ∈ block.transactions.getD [], _))

/-- A foreign transaction comes in or goes. -/
def Edit (X : Crates) (programId : Pubkey) (chainId : Nat) (block block' : UiConfirmedBlock) :
    Prop :=
  Inserted X programId chainId block block' ∨ Inserted X programId chainId block' block

theorem Inserted.oneEach_iff (h : Inserted X programId chainId block block') :
    OneEach X programId chainId block ↔ OneEach X programId chainId block' := by
  obtain ⟨before, after, e, hblock, hblock', hforeign⟩ := h
  rw [OneEach, OneEach, hblock, hblock']
  simp only [List.mem_append, List.mem_cons]
  constructor
  · intro hone x hx
    rcases hx with hx | rfl | hx
    · exact hone x (Or.inl hx)
    · rw [hforeign.silent]
      exact Nat.zero_le 1
    · exact hone x (Or.inr hx)
  · intro hone x hx
    rcases hx with hx | hx
    · exact hone x (Or.inl hx)
    · exact hone x (Or.inr (Or.inr hx))

/-- The instructions keep their order, those behind the new transaction at an index higher. -/
theorem Inserted.visits (h : Inserted X programId chainId block block') :
    ∃ f, (∀ i j : Nat, i < j → f i < f j) ∧ ∃ before after new,
      block.visits = before ++ after ∧
      block'.visits = before.map (Visit.moved f) ++ (new ++ after.map (Visit.moved f)) ∧
      ∀ v ∈ new, v.isFor X programId chainId = false ∧ v.Returns X programId := by
  obtain ⟨before, after, e, hblock, hblock', hforeign⟩ := h
  let f : Nat → Nat := fun i => if i < before.length then i else i + 1
  refine ⟨f, ?_, visitsFrom 0 before, visitsFrom (0 + before.length) after,
    visitsOf (e, 0 + before.length), ?_, ?_, ?_⟩
  · intro i j hij
    simp only [f]
    split <;> split <;> omega
  · rw [visits_eq, hblock, visitsFrom_append]
  · rw [visits_eq, hblock', visitsFrom_append, visitsFrom_cons]
    congr 1
    · refine visitsFrom_moved before f 0 0 fun i hi => ?_
      simp only [f]
      rw [if_pos (by omega)]
    · congr 1
      refine visitsFrom_moved after f _ _ fun i _ => ?_
      simp only [f]
      rw [if_neg (by omega)]
      omega
  · intro v hv
    have hmoved := visitsOf_moved e (fun _ => 0 + before.length) 0
    rw [hmoved] at hv
    obtain ⟨w, hw, rfl⟩ := List.mem_map.mp hv
    refine ⟨?_, hforeign.returns w hw⟩
    have hnot := List.filter_eq_nil_iff.mp hforeign.silent w hw
    exact Bool.eq_false_iff.mpr hnot

theorem Inserted.parse_outcome (h : Inserted X programId chainId block block') :
    (parseSolanaBlock X block' programId chainId).2
      = (parseSolanaBlock X block programId chainId).2 := by
  obtain ⟨f, _, before, after, new, hvisits, hvisits', hnew⟩ := h.visits
  have hmoved : ∀ l : List Visit, (l.map (Visit.moved f)).findSome? (Visit.panic X programId)
      = l.findSome? (Visit.panic X programId) := by
    intro l
    rw [List.findSome?_map]
    rfl
  have hnone : new.findSome? (Visit.panic X programId) = none :=
    List.findSome?_eq_none_iff.mpr fun v hv => Visit.returns_iff_panic.mp (hnew v hv).2
  rw [parseSolanaBlock_eq, parseSolanaBlock_eq, forTry_visit_outcome, forTry_visit_outcome,
    hvisits, hvisits', List.findSome?_append, List.findSome?_append, List.findSome?_append,
    hmoved, hmoved, hnone, Option.none_or]

theorem Inserted.stepsRenamed (h : Inserted X programId chainId block block') :
    ∃ f, DefaultTxParser.StepsRenamed f (appliedAll X programId chainId block.visits ∅)
      (appliedAll X programId chainId block'.visits ∅) := by
  obtain ⟨f, hf, before, after, new, hvisits, hvisits', hnew⟩ := h.visits
  refine ⟨f, hf, fun hash j step => ?_⟩
  have hnone : new.findSome? (Visit.filedAt X programId chainId hash j) = none := by
    rw [List.findSome?_eq_none_iff]
    intro v hv
    rw [Option.eq_none_iff_forall_ne_some]
    intro step' hfiled
    exact absurd (Visit.isFor_of_filed hfiled) (by rw [(hnew v hv).1]; decide)
  have hmoved : _ ↔ ∃ i, f i = j ∧ (before ++ after).findSome?
      (Visit.filedAt X programId chainId hash i) = some step :=
    findSome?_moved hf (before ++ after) hash j step
  simp only [stepAt_block]
  rw [hvisits, ← hmoved, hvisits', List.map_append, List.findSome?_append, List.findSome?_append,
    hnone, Option.none_or, List.findSome?_append]

/-! ## What a chain sees of a block -/

/-- Transactions that bring one instruction each bring no two transactions of the chain. -/
theorem OneEach.indicesDiffer {p : DefaultTxParser} (hone : OneEach X programId chainId block)
    (h : FirstParse X programId chainId slot block p (.ok ())) :
    DefaultTxParser.IndicesDiffer p slot := by
  intro hash hash' i r r' hexec hexec'
  have hvisit : ∀ {hash r}, DefaultTxParser.Executed p slot hash i r → ∃ v step,
      v ∈ block.visits ∧ v.filedAt X programId chainId hash i = some step := by
    intro hash r hexec
    have hr := hexec.result
    rw [h.of_ok.2.resultAt_eq, stepAt_block] at hr
    obtain ⟨step, hstep, _⟩ := Option.map_eq_some_iff.mp hr
    obtain ⟨v, hv, hfiled⟩ := List.exists_of_findSome?_eq_some hstep
    exact ⟨v, step, hv, hfiled⟩
  obtain ⟨v, step, hv, hfiled⟩ := hvisit hexec
  obtain ⟨v', step', hv', hfiled'⟩ := hvisit hexec'
  obtain ⟨heffect, hidx⟩ := Visit.filedAt_eq_some.mp hfiled
  obtain ⟨heffect', hidx'⟩ := Visit.filedAt_eq_some.mp hfiled'
  obtain ⟨e, he, k, hk, hk', hin⟩ := mem_visitsFrom hv
  obtain ⟨e', _, k', hat, hat', hin'⟩ := mem_visitsFrom hv'
  rw [hidx] at hk' hin
  rw [hidx'] at hat' hin'
  obtain rfl : k' = k := by omega
  rw [hk] at hat
  cases hat
  -- both are the one instruction the transaction brings
  have hlength : ((visitsOf (e, i)).filter (Visit.isFor X programId chainId)).length ≤ 1 := by
    rw [visitsOf_moved e (fun _ => i) 0, List.filter_map, List.length_map]
    exact hone e he
  have hmem := List.mem_filter.mpr ⟨hin, Visit.isFor_of_filed hfiled⟩
  have hmem' := List.mem_filter.mpr ⟨hin', Visit.isFor_of_filed hfiled'⟩
  have hsame : v = v' := by
    rcases hfor : (visitsOf (e, i)).filter (Visit.isFor X programId chainId) with
      _ | ⟨w, _ | ⟨w', rest⟩⟩
    · rw [hfor] at hmem
      cases hmem
    · rw [hfor, List.mem_singleton] at hmem hmem'
      rw [hmem, hmem']
    · rw [hfor] at hlength
      simp at hlength
  subst hsame
  rw [heffect] at heffect'
  cases heffect'
  rfl

/-- A fresh parser may end alike for both blocks, and once it has taken one of them well it
answers for the slot as it does for the other. -/
structure Alike (X : Crates) (programId : Pubkey) (chainId : Nat) (slot : Slot)
    (block block' : UiConfirmedBlock) : Prop where
  outcomes : ∀ out, (∃ p, FirstParse X programId chainId slot block p out) ↔
    ∃ q, FirstParse X programId chainId slot block' q out
  answers : ∀ p q, FirstParse X programId chainId slot block p (.ok ()) →
    FirstParse X programId chainId slot block' q (.ok ()) →
      p.isSlotComplete slot = q.isSlotComplete slot ∧
        ∀ l, p.finalizeSlot X slot = .ok l ↔ q.finalizeSlot X slot = .ok l

namespace Alike

theorem symm (h : Alike X programId chainId slot block block') :
    Alike X programId chainId slot block' block where
  outcomes out := (h.outcomes out).symm
  answers p q hp hq := by
    obtain ⟨hcomplete, hfinal⟩ := h.answers q p hq hp
    exact ⟨hcomplete.symm, fun l => (hfinal l).symm⟩

theorem trans {block'' : UiConfirmedBlock} (h : Alike X programId chainId slot block block')
    (h' : Alike X programId chainId slot block' block'') :
    Alike X programId chainId slot block block'' where
  outcomes out := (h.outcomes out).trans (h'.outcomes out)
  answers p q hp hq := by
    obtain ⟨between, hbetween⟩ := (h.outcomes _).mp ⟨p, hp⟩
    obtain ⟨hcomplete, hfinal⟩ := h.answers p between hp hbetween
    obtain ⟨hcomplete', hfinal'⟩ := h'.answers between q hbetween hq
    exact ⟨hcomplete.trans hcomplete', fun l => (hfinal l).trans (hfinal' l)⟩

end Alike

/-- Two parsers given one block may have their hash maps in different orders. -/
theorem Alike.refl (hone : OneEach X programId chainId block) :
    Alike X programId chainId slot block block where
  outcomes _ := Iff.rfl
  answers p q hp hq := by
    have hrenamed : DefaultTxParser.StepsRenamed id
        (appliedAll X programId chainId block.visits ∅)
        (appliedAll X programId chainId block.visits ∅) := ⟨fun _ _ h => h, by simp⟩
    obtain ⟨h, hrecord⟩ := hrenamed.renamed hp.of_ok.2 hq.of_ok.2
    exact ⟨(h.isSlotComplete_eq hrecord hp.of_ok.2.recorded).symm,
      fun l => (h.finalizeSlot_iff hrecord (hone.indicesDiffer hp)).symm⟩

/-- One foreign transaction more makes no difference. -/
theorem Inserted.alike (h : Inserted X programId chainId block block')
    (hone : OneEach X programId chainId block) : Alike X programId chainId slot block block' := by
  obtain ⟨f, hsteps⟩ := h.stepsRenamed
  refine ⟨fun out => ?_, fun p q hp hq => ?_⟩
  · have hparse := h.parse_outcome
    cases hread : (parseSolanaBlock X block programId chainId).2 with
    | error e =>
        rw [hread] at hparse
        rw [firstParse_of_error hread, firstParse_of_error hparse]
    | ok u =>
        rw [hread] at hparse
        rw [firstParse_of_ok hread, firstParse_of_ok hparse]
        have hrun := hsteps.hashRun_eq .new
        exact ⟨fun ⟨_, hp⟩ => hp.outcome hrun, fun ⟨_, hq⟩ => hq.outcome fun hash => (hrun hash).symm⟩
  · obtain ⟨hrenamed, hrecord⟩ := hsteps.renamed hp.of_ok.2 hq.of_ok.2
    exact ⟨(hrenamed.isSlotComplete_eq hrecord hp.of_ok.2.recorded).symm,
      fun l => (hrenamed.finalizeSlot_iff hrecord (hone.indicesDiffer hp)).symm⟩

theorem Edit.oneEach_iff (h : Edit X programId chainId block block') :
    OneEach X programId chainId block ↔ OneEach X programId chainId block' := by
  rcases h with h | h
  · exact h.oneEach_iff
  · exact h.oneEach_iff.symm

theorem Edit.alike (h : Edit X programId chainId block block')
    (hone : OneEach X programId chainId block) : Alike X programId chainId slot block block' := by
  rcases h with h | h
  · exact h.alike hone
  · exact (h.alike (h.oneEach_iff.mpr hone)).symm

/-- However many foreign transactions come in or go. -/
theorem edits_alike (hone : OneEach X programId chainId block)
    (h : Relation.ReflTransGen (Edit X programId chainId) block block') :
    OneEach X programId chainId block' ∧ Alike X programId chainId slot block block' := by
  induction h with
  | refl => exact ⟨hone, .refl hone⟩
  | tail _ hedit ih => exact ⟨hedit.oneEach_iff.mp ih.1, ih.2.trans (hedit.alike ih.1)⟩

end

/-- The transactions of other rollups in a block change nothing for a chain. -/
theorem rollups_do_not_interfere (X : Crates) (programId : Pubkey) (chainId : Nat) (slot : Slot)
    {block block' : UiConfirmedBlock} (hone : OneEach X programId chainId block)
    (hedits : Relation.ReflTransGen (Edit X programId chainId) block block') :
    (∀ out, (∃ p, FirstParse X programId chainId slot block p out) ↔
      ∃ q, FirstParse X programId chainId slot block' q out) ∧
    ∀ p q out, FirstParse X programId chainId slot block p (.ok ()) →
      FirstParse X programId chainId slot block' q out →
        out = .ok () ∧ p.isSlotComplete slot = q.isSlotComplete slot ∧
          ∀ l, p.finalizeSlot X slot = .ok l ↔ q.finalizeSlot X slot = .ok l := by
  have halike : Alike X programId chainId slot block block' := (edits_alike hone hedits).2
  refine ⟨halike.outcomes, fun p q out hp hq => ?_⟩
  obtain ⟨q', hq'⟩ := (halike.outcomes _).mp ⟨p, hp⟩
  obtain rfl : out = .ok () := hq'.ok_only hq
  exact ⟨rfl, halike.answers p q hp hq⟩

/-! A deposit of chain 0, and behind two Solana transactions of which one transmits a
chunk for chain 1 and the other cannot be decoded. -/

def guests : List BlockEntry :=
  [(some ⟨[[]], [7], [⟨0, 1 :: TransmitTx.layout (leBytes 8 3) 0 9 1 [10]⟩]⟩, some ⟨none, none⟩),
    (none, none)]

def guestBlock : UiConfirmedBlock :=
  { depositBlock [[1]] with
    transactions := some (guests ++ (depositBlock [[1]]).transactions.getD []) }

theorem guests_unseen : ∃ q, FirstParse depositStandIns 7 0 5 guestBlock q (.ok ()) ∧
    q.isSlotComplete 5 = .ok true ∧
      q.finalizeSlot depositStandIns 5 = .ok [(decodedDeposit [1], .default)] := by
  let home : UiConfirmedBlock := depositBlock [[1]]
  let between : UiConfirmedBlock := { home with
    transactions := some (guests.tail ++ home.transactions.getD []) }
  have hone : OneEach depositStandIns 7 0 home := by decide +kernel
  have hforeign : ∀ e ∈ guests, Foreign depositStandIns 7 0 e := by
    intro e he
    rcases List.mem_cons.mp he with rfl | he
    · exact ⟨by decide +kernel, by decide +kernel⟩
    · rw [List.mem_singleton.mp he]
      exact ⟨by decide, by decide⟩
  have hsecond : Edit depositStandIns 7 0 home between :=
    Or.inl ⟨[], home.transactions.getD [], (none, none), rfl, rfl, hforeign _ (by decide)⟩
  have hfirst : Edit depositStandIns 7 0 between guestBlock :=
    Or.inl ⟨[], between.transactions.getD [], guests.head (by decide), rfl, rfl,
      hforeign _ (List.head_mem _)⟩
  have hstart : FirstParse depositStandIns 7 0 5 home (afterDeposits [[1]]) (.ok ()) :=
    .registered rfl ⟨_, .refl _, rfl⟩
  obtain ⟨houtcomes, hanswers⟩ := rollups_do_not_interfere depositStandIns 7 0 5 hone
    (.tail (.single hsecond) hfirst)
  obtain ⟨q, hq⟩ := (houtcomes (.ok ())).mp ⟨_, hstart⟩
  obtain ⟨_, hcomplete, hfinal⟩ := hanswers _ q _ hstart hq
  exact ⟨q, hq, hcomplete ▸ rfl, (hfinal _).mp rfl⟩

end RomeSdk
