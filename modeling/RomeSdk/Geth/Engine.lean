import RomeSdk.HexCodec
import RomeSdk.Indexer.EngineApiBlockProducer

/-!
# The answers of the engine

`rome-geth/src/engine/mod.rs` and `engine/types/param.rs`, with the answers of the
Engine API as they come: hashes are texts, a payload status says whether the payload
is valid, and what may be null is an option. The structures an answer is read as have
no room for a null, so that reading it fails.

The producer works with a `GethEngine`, whose hashes are values and whose answers
have no status. `toEngineApi` is such an engine seen from here.
-/

namespace RomeSdk

/-! ## What goes over the wire -/

structure ForkchoiceStateV1 where
  headBlockHash : String
  safeBlockHash : String
  finalizedBlockHash : String
  deriving DecidableEq, Repr

structure PayloadStatusV1 where
  status : String
  latestValidHash : Option String
  validationError : Option String
  deriving DecidableEq, Repr

structure ForkchoiceUpdatedV1 where
  payloadStatus : PayloadStatusV1
  payloadId : Option PayloadId
  deriving DecidableEq, Repr

/-- An execution payload; the fields that are only sent back are in the body. -/
structure ExecutionPayloadV2 where
  blockNumber : Nat
  blockHash : String
  romeGasUsed : Option (List Nat)
  body : Bytes
  deriving DecidableEq, Repr

/-- The engine, call by call. -/
structure EngineApi (σ : Type) where
  forkchoiceUpdatedV2 :
    ForkchoiceStateV1 → Option ForkchoiceUpdateParams → Eff σ ForkchoiceUpdatedV1
  getPayloadV2 : PayloadId → Eff σ (Option ExecutionPayloadV2)
  newPayloadV2 : ExecutionPayloadV2 → Eff σ PayloadStatusV1

/-! ## What it is read as -/

structure PayloadStatus where
  status : String
  latestValidHash : String
  validationError : Option String
  deriving DecidableEq, Repr

structure ForkchoiceUpdateResponse where
  payloadStatus : PayloadStatus
  payloadId : PayloadId
  deriving DecidableEq, Repr

/-- `from_value` of a field that must be a text. -/
def requireText (text : Option String) : ProgramResult String :=
  match text with
  | some text => .ok text
  | none => .error (.custom "invalid type: null, expected a string")

def PayloadStatus.fromValue (value : PayloadStatusV1) : ProgramResult PayloadStatus := do
  let latestValidHash ← requireText value.latestValidHash
  pure ⟨value.status, latestValidHash, value.validationError⟩

def ForkchoiceUpdateResponse.fromValue (value : ForkchoiceUpdatedV1) :
    ProgramResult ForkchoiceUpdateResponse := do
  let payloadStatus ← PayloadStatus.fromValue value.payloadStatus
  let payloadId ← requireText value.payloadId
  pure ⟨payloadStatus, payloadId⟩

/-- `H256::from_str(..)?` -/
def parseBlockHash (H : HexCodec) (text : String) : ProgramResult H256 :=
  match H.fromStr text with
  | some hash => .ok hash
  | none => .error (.custom "Invalid input length")

namespace EngineApi

variable {σ : Type}

/-- `GethEngine::advance_rollup_state` -/
def advanceRollupState (A : EngineApi σ) (H : HexCodec) (finalizedBlockhash parentHash : H256)
    (timestamp : U256) (transactions : List StateAdvanceTx) (gasRecipient : Option Address)
    (finalizeNewBlock : Bool) : Eff σ (Nat × H256) := do
  let gasUsed := transactions.map StateAdvanceTx.gasUsed
  let forkchoiceParams : ForkchoiceUpdateParams := {
    transactions := transactions.map StateAdvanceTx.rlp
    timestamp := timestamp
    prevRandao := prevRandao
    suggestedFeeRecipient := gasRecipient.getD 0
    withdrawals := []
    noTxPool := true
    gasPrices := transactions.map StateAdvanceTx.gasPrice
    gasUsed := gasUsed }
  let fcu1Res ← A.forkchoiceUpdatedV2
    ⟨parentHash.debug, parentHash.debug, finalizedBlockhash.debug⟩ (some forkchoiceParams)
  let parsedFcuRes ← Eff.ofResult (ForkchoiceUpdateResponse.fromValue fcu1Res)
  match ← A.getPayloadV2 parsedFcuRes.payloadId with
  | none => throw (.panic "Failed to get execution payload")
  | some executionPayload =>
      let blockHash ← Eff.ofResult (parseBlockHash H executionPayload.blockHash)
      let sendPayloadRes ← A.newPayloadV2 { executionPayload with romeGasUsed := some gasUsed }
      let parsedSendPayloadRes ← Eff.ofResult (PayloadStatus.fromValue sendPayloadRes)
      let newBlockhash := parsedSendPayloadRes.latestValidHash
      let newFinalizedBlockhash :=
        if finalizeNewBlock then newBlockhash else finalizedBlockhash.debug
      let _ ← A.forkchoiceUpdatedV2 ⟨newBlockhash, newBlockhash, newFinalizedBlockhash⟩ none
      pure (executionPayload.blockNumber, blockHash)

/-! ## Requests and their answers -/

inductive Exchange where
  | forkchoiceUpdated (state : ForkchoiceStateV1) (params : Option ForkchoiceUpdateParams)
      (answer : ForkchoiceUpdatedV1)
  | payload (payloadId : PayloadId) (answer : Option ExecutionPayloadV2)
  | newPayload (payload : ExecutionPayloadV2) (answer : PayloadStatusV1)
  deriving DecidableEq, Repr

/-- The engine with a record of what it was asked and what it answered. -/
def logged (A : EngineApi σ) : EngineApi (σ × List Exchange) where
  forkchoiceUpdatedV2 state params :=
    (A.forkchoiceUpdatedV2 state params).recorded fun answer =>
      some (.forkchoiceUpdated state params answer)
  getPayloadV2 payloadId :=
    (A.getPayloadV2 payloadId).recorded fun answer => some (.payload payloadId answer)
  newPayloadV2 payload :=
    (A.newPayloadV2 payload).recorded fun answer => some (.newPayload payload answer)

end EngineApi

/-- An engine whose hashes are values, with its texts and a status. -/
def GethEngine.toEngineApi {σ : Type} (E : GethEngine σ) (H : HexCodec) (status : String) :
    EngineApi σ where
  forkchoiceUpdatedV2 state params := do
    let head ← Eff.ofResult (parseBlockHash H state.headBlockHash)
    let safe ← Eff.ofResult (parseBlockHash H state.safeBlockHash)
    let finalized ← Eff.ofResult (parseBlockHash H state.finalizedBlockHash)
    let payloadId ← E.forkchoiceUpdatedV2 ⟨head, safe, finalized⟩ params
    pure ⟨⟨status, some head.debug, none⟩, payloadId⟩
  getPayloadV2 payloadId := do
    let payload ← E.getPayloadV2 payloadId
    pure (payload.map fun p => ⟨p.blockNumber, p.blockHash.debug, p.romeGasUsed, p.body⟩)
  newPayloadV2 payload := do
    let blockHash ← Eff.ofResult (parseBlockHash H payload.blockHash)
    let latestValidHash ← E.newPayloadV2 ⟨payload.blockNumber, blockHash, payload.romeGasUsed,
      payload.body⟩
    pure ⟨status, some latestValidHash.debug, none⟩

end RomeSdk
