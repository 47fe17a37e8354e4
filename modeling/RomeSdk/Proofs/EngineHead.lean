import RomeSdk.Geth.Engine

/-!
# The head of the engine

`advance_rollup_state` sends the engine four requests. The block it returns is the
payload it was given; the head it sets is the latest valid hash of the status that
came back for this payload. The two are one block if the engine found the payload
valid, and nothing looks at the status.
-/

namespace RomeSdk

open EngineApi (Exchange)

variable {σ : Type} {A : EngineApi σ} {H : HexCodec}

/-! ## A call that returns -/

theorem ofResult_ok {α : Type} {r : ProgramResult α} {a : α} {s t : σ}
    (h : (Eff.ofResult r : Eff σ α) s = .ok a t) : r = .ok a ∧ t = s := by
  cases r with
  | ok b =>
      cases h
      exact ⟨rfl, rfl⟩
  | error e => cases h

/-- A recorded call adds its line. -/
theorem recorded_ok {ρ α : Type} {x : Eff σ α} {line : α → ρ} {a : α} {s t : σ × List ρ}
    (h : x.recorded (fun a => some (line a)) s = .ok a t) : t.2 = s.2 ++ [line a] := by
  rw [EStateM.recorded] at h
  cases hx : x s.1 with
  | ok b u =>
      rw [hx] at h
      cases h
      rfl
  | error e u =>
      rw [hx] at h
      cases h

theorem fromValue_status {value : PayloadStatusV1} {status : PayloadStatus}
    (h : PayloadStatus.fromValue value = .ok status) :
    status.status = value.status ∧ value.latestValidHash = some status.latestValidHash := by
  rw [PayloadStatus.fromValue] at h
  cases hhash : value.latestValidHash with
  | none =>
      rw [hhash] at h
      cases h
  | some text =>
      rw [hhash] at h
      cases h
      exact ⟨rfl, rfl⟩

theorem parseBlockHash_ok {text : String} {hash : H256} (h : parseBlockHash H text = .ok hash) :
    H.fromStr text = some hash := by
  rw [parseBlockHash] at h
  cases hread : H.fromStr text with
  | none =>
      rw [hread] at h
      cases h
  | some read =>
      rw [hread] at h
      cases h
      rfl

section

variable {finalizedBlockhash parentHash hash : H256} {timestamp : U256}
  {transactions : List StateAdvanceTx} {gasRecipient : Option Address} {finalizeNewBlock : Bool}
  {number : Nat} {s t : σ} {log : List Exchange}

/-- The four requests of a call that returned. -/
theorem advanceRollupState_log
    (h : A.logged.advanceRollupState H finalizedBlockhash parentHash timestamp transactions
      gasRecipient finalizeNewBlock (s, []) = .ok (number, hash) (t, log)) :
    ∃ (first : ForkchoiceStateV1) (params : Option ForkchoiceUpdateParams)
      (started updated : ForkchoiceUpdatedV1) (payloadId : PayloadId)
      (payload : ExecutionPayloadV2) (answer : PayloadStatusV1) (gasUsed : Option (List Nat))
      (head : String),
      H.fromStr payload.blockHash = some hash ∧ payload.blockNumber = number ∧
      answer.latestValidHash = some head ∧
      log = [.forkchoiceUpdated first params started, .payload payloadId (some payload),
        .newPayload { payload with romeGasUsed := gasUsed } answer,
        .forkchoiceUpdated ⟨head, head, if finalizeNewBlock then head else finalizedBlockhash.debug⟩
          none updated] := by
  obtain ⟨started, u₁, hfirst, h⟩ := EStateM.bind_ok h
  obtain ⟨response, u₂, hresponse, h⟩ := EStateM.bind_ok h
  obtain ⟨answered, u₃, hget, h⟩ := EStateM.bind_ok h
  cases answered with
  | none => cases h
  | some payload =>
      obtain ⟨blockHash, u₄, hhash, h⟩ := EStateM.bind_ok h
      obtain ⟨answer, u₅, hsend, h⟩ := EStateM.bind_ok h
      obtain ⟨status, u₆, hstatus, h⟩ := EStateM.bind_ok h
      obtain ⟨updated, u₇, hlast, h⟩ := EStateM.bind_ok h
      cases h
      obtain ⟨_, hu₂⟩ := ofResult_ok hresponse
      obtain ⟨hhash, hu₄⟩ := ofResult_ok hhash
      obtain ⟨hstatus, hu₆⟩ := ofResult_ok hstatus
      have hlog₁ := recorded_ok hfirst
      have hlog₂ := recorded_ok hget
      have hlog₃ := recorded_ok hsend
      have hlog₄ := recorded_ok hlast
      rw [hu₂, hlog₁] at hlog₂
      rw [hu₄, hlog₂] at hlog₃
      rw [hu₆, hlog₃] at hlog₄
      exact ⟨_, _, started, updated, response.payloadId, payload, answer, _,
        status.latestValidHash, parseBlockHash_ok hhash, rfl, (fromValue_status hstatus).2, hlog₄⟩

theorem mem_log {first last : ForkchoiceStateV1} {params params' : Option ForkchoiceUpdateParams}
    {started updated : ForkchoiceUpdatedV1} {payloadId : PayloadId}
    {built : Option ExecutionPayloadV2} {payload payload' : ExecutionPayloadV2}
    {answer answer' : PayloadStatusV1} :
    Exchange.newPayload payload' answer' ∈ [.forkchoiceUpdated first params started,
      .payload payloadId built, .newPayload payload answer,
      .forkchoiceUpdated last params' updated] ↔ payload' = payload ∧ answer' = answer := by
  simp only [List.mem_cons, reduceCtorEq, List.not_mem_nil, or_false, false_or,
    Exchange.newPayload.injEq]

/-! ## The head that was set -/

/-- The last forkchoice update that was sent. -/
def lastForkchoice (log : List Exchange) : Option ForkchoiceStateV1 :=
  (log.filterMap fun e => match e with
    | .forkchoiceUpdated state _ _ => some state
    | _ => none).getLast?

/-- The block is the head the engine was told last, and the engine had reported the
payload with its hash as valid. -/
structure HeadReported (H : HexCodec) (finalizeNewBlock : Bool) (hash : H256)
    (log : List Exchange) : Prop where
  head : ∃ state, lastForkchoice log = some state ∧ H.fromStr state.headBlockHash = some hash ∧
    H.fromStr state.safeBlockHash = some hash ∧
    (finalizeNewBlock = true → H.fromStr state.finalizedBlockHash = some hash)
  valid : ∃ payload answer, .newPayload payload answer ∈ log ∧
    H.fromStr payload.blockHash = some hash ∧ answer.status = "VALID"

/-- Every payload that was sent was found valid, with its own hash for the latest valid one. -/
def FoundValid (H : HexCodec) (log : List Exchange) : Prop :=
  ∀ payload answer, .newPayload payload answer ∈ log → answer.status = "VALID" ∧
    ∀ head, answer.latestValidHash = some head → H.fromStr head = H.fromStr payload.blockHash

/-- The block that is returned is the head of the engine if the payload was found valid. -/
theorem head_is_reported_iff
    (h : A.logged.advanceRollupState H finalizedBlockhash parentHash timestamp transactions
      gasRecipient finalizeNewBlock (s, []) = .ok (number, hash) (t, log)) :
    HeadReported H finalizeNewBlock hash log ↔ FoundValid H log := by
  obtain ⟨first, params, started, updated, payloadId, payload, answer, gasUsed, head, hhash, _,
    hhead, rfl⟩ := advanceRollupState_log h
  constructor
  · intro hreported
    obtain ⟨state, hstate, hstateHead, _, _⟩ := hreported.head
    cases hstate
    obtain ⟨payload', answer', hmem, _, hvalid⟩ := hreported.valid
    obtain ⟨rfl, rfl⟩ := mem_log.mp hmem
    intro payload' answer'' hmem'
    obtain ⟨rfl, rfl⟩ := mem_log.mp hmem'
    refine ⟨hvalid, fun head' hhead' => ?_⟩
    rw [hhead] at hhead'
    cases hhead'
    rw [hhash]
    exact hstateHead
  · intro hfound
    obtain ⟨hvalid, hsame⟩ := hfound _ answer (mem_log.mpr ⟨rfl, rfl⟩)
    have hread : H.fromStr head = some hash := (hsame head hhead).trans hhash
    refine ⟨⟨_, rfl, hread, hread, fun hfinalize => ?_⟩,
      ⟨_, answer, mem_log.mpr ⟨rfl, rfl⟩, hhash, hvalid⟩⟩
    rw [hfinalize]
    exact hread

end

/-! ## An engine of values -/

theorem parseBlockHash_debug (hH : H.Documented) (hash : H256) :
    parseBlockHash H hash.debug = .ok hash := by
  rw [parseBlockHash, ← hH.written, hH.read]

/-- Over an engine whose hashes are values nothing is lost in the texts, and whatever
the status says, the answer is the same. -/
theorem advanceRollupState_toEngineApi (hH : H.Documented) (E : GethEngine σ) (status : String)
    (finalizedBlockhash parentHash : H256) (timestamp : U256) (transactions : List StateAdvanceTx)
    (gasRecipient : Option Address) (finalizeNewBlock : Bool) :
    (E.toEngineApi H status).advanceRollupState H finalizedBlockhash parentHash timestamp
        transactions gasRecipient finalizeNewBlock
      = E.advanceRollupState finalizedBlockhash parentHash timestamp transactions gasRecipient
        finalizeNewBlock := by
  have hread := parseBlockHash_debug hH
  have hforkchoice : ∀ (head safe finalized : H256) params,
      (E.toEngineApi H status).forkchoiceUpdatedV2 ⟨head.debug, safe.debug, finalized.debug⟩ params
        = (do
          let payloadId ← E.forkchoiceUpdatedV2 ⟨head, safe, finalized⟩ params
          pure ⟨⟨status, some head.debug, none⟩, payloadId⟩) := by
    intro head safe finalized params
    simp only [GethEngine.toEngineApi, hread, Eff.ofResult, pure_bind]
  have hnew : ∀ (payload : ExecutionPayload),
      (E.toEngineApi H status).newPayloadV2 ⟨payload.blockNumber, payload.blockHash.debug,
          payload.romeGasUsed, payload.body⟩
        = (do
          let latestValidHash ← E.newPayloadV2 payload
          pure ⟨status, some latestValidHash.debug, none⟩) := by
    intro payload
    simp only [GethEngine.toEngineApi, hread, Eff.ofResult, pure_bind]
  have hresponse : ∀ (head : String) (payloadId : PayloadId),
      (Eff.ofResult (ForkchoiceUpdateResponse.fromValue ⟨⟨status, some head, none⟩, some payloadId⟩)
        : Eff σ ForkchoiceUpdateResponse) = pure ⟨⟨status, head, none⟩, payloadId⟩ := fun _ _ => rfl
  have hstatus : ∀ head : String,
      (Eff.ofResult (PayloadStatus.fromValue ⟨status, some head, none⟩) : Eff σ PayloadStatus)
        = pure ⟨status, head, none⟩ := fun _ => rfl
  have hparse : ∀ hash : H256, (Eff.ofResult (parseBlockHash H hash.debug) : Eff σ H256)
      = pure hash := by
    intro hash
    rw [hread]
    rfl
  rw [EngineApi.advanceRollupState, GethEngine.advanceRollupState]
  simp only [hforkchoice, bind_assoc, pure_bind]
  refine bind_congr fun payloadId => ?_
  cases payloadId with
  | none => rfl
  | some payloadId =>
      simp only [hresponse, pure_bind]
      rw [show (E.toEngineApi H status).getPayloadV2 payloadId = (do
        let payload ← E.getPayloadV2 payloadId
        pure (payload.map fun p => ⟨p.blockNumber, p.blockHash.debug, p.romeGasUsed, p.body⟩))
        from rfl]
      simp only [bind_assoc, pure_bind]
      refine bind_congr fun payload => ?_
      cases payload with
      | none => rfl
      | some payload =>
          obtain ⟨blockNumber, blockHash, romeGasUsed, body⟩ := payload
          simp only [Option.map_some, hparse, pure_bind]
          rw [hnew ⟨blockNumber, blockHash, some (transactions.map StateAdvanceTx.gasUsed), body⟩]
          simp only [bind_assoc, pure_bind, hstatus]
          refine bind_congr fun head => ?_
          rw [show (if finalizeNewBlock = true then head.debug else finalizedBlockhash.debug)
            = (if finalizeNewBlock = true then head else finalizedBlockhash).debug
            from (apply_ite H256.debug _ _ _).symm, hforkchoice]
          simp only [bind_assoc, pure_bind]

/-! ## An engine that reports its block, or another one -/

namespace SmallEngine

def payload : ExecutionPayloadV2 := ⟨1, (2 : H256).debug, none, []⟩

/-- It builds the block 2 on the block 1, and is asked about it once. -/
def engine (answer : PayloadStatusV1) : EngineApi Unit where
  forkchoiceUpdatedV2 _ _ := pure ⟨⟨"VALID", some (1 : H256).debug, none⟩, some "first"⟩
  getPayloadV2 _ := pure (some payload)
  newPayloadV2 _ := pure answer

def log (answer : PayloadStatusV1) (head : String) : List Exchange :=
  [.forkchoiceUpdated ⟨(1 : H256).debug, (1 : H256).debug, (1 : H256).debug⟩
      (some ⟨[], [], [], 1, prevRandao, 0, [], true⟩)
      ⟨⟨"VALID", some (1 : H256).debug, none⟩, some "first"⟩,
    .payload "first" (some payload), .newPayload { payload with romeGasUsed := some [] } answer,
    .forkchoiceUpdated ⟨head, head, head⟩ none
      ⟨⟨"VALID", some (1 : H256).debug, none⟩, some "first"⟩]

theorem returns (answer : PayloadStatusV1) {head : String}
    (hhead : answer.latestValidHash = some head) :
    (engine answer).logged.advanceRollupState PlainHex.codec 1 1 1 [] none true ((), [])
      = .ok (1, 2) ((), log answer head) := by
  have hread : parseBlockHash PlainHex.codec (2 : H256).debug = .ok 2 :=
    parseBlockHash_debug PlainHex.codec_documented 2
  obtain ⟨status, latest, error⟩ := answer
  cases hhead
  simp only [EngineApi.advanceRollupState, EngineApi.logged, engine, payload, bind, EStateM.bind,
    EStateM.recorded, pure, EStateM.pure, hread]
  rfl

theorem valid_reported :
    HeadReported PlainHex.codec true 2 (log ⟨"VALID", some (2 : H256).debug, none⟩ (2 : H256).debug) ↔
      FoundValid PlainHex.codec (log ⟨"VALID", some (2 : H256).debug, none⟩ (2 : H256).debug) :=
  head_is_reported_iff (returns ⟨"VALID", some (2 : H256).debug, none⟩ rfl)

/-- The payload is invalid, and the last valid block is its parent: the call returns the
block all the same. -/
theorem invalid_returned :
    (engine ⟨"INVALID", some (1 : H256).debug, none⟩).logged.advanceRollupState PlainHex.codec 1 1 1
        [] none true ((), [])
      = .ok (1, 2) ((), log ⟨"INVALID", some (1 : H256).debug, none⟩ (1 : H256).debug) ∧
      ¬ HeadReported PlainHex.codec true 2
        (log ⟨"INVALID", some (1 : H256).debug, none⟩ (1 : H256).debug) := by
  refine ⟨returns _ rfl, fun h => ?_⟩
  obtain ⟨payload', answer, hmem, _, hvalid⟩ := h.valid
  obtain ⟨_, rfl⟩ := mem_log.mp hmem
  revert hvalid
  decide

end SmallEngine

end RomeSdk
