import RomeSdk.Indexer.RollupIndexer
import RomeSdk.Indexer.SolanaClient

/-!
# Producing blocks in op-geth

`rome-geth/src/engine/mod.rs` and `engine_api_block_producer.rs`. op-geth is a
service: the queries of its API (`GethApi`) and the methods of its engine
(`GethEngine`) are calls that change the world and may fail. Hashes and numbers
travel as hex texts and are kept as values here; the authentication of a request
is left out.
-/

namespace RomeSdk

/-! ## op-geth -/

/-- `ethers::types::Block`, with the fields the producer reads. A pending block has
neither a hash nor a number. -/
structure GethBlock where
  hash : Option H256
  parentHash : H256
  number : Option Nat
  timestamp : U256
  deriving DecidableEq, Repr

/-- `BlockId`, with `BlockNumber` spread out. -/
inductive BlockId where
  | hash (hash : H256)
  | latest
  | finalized
  | number (number : Nat)
  deriving DecidableEq, Repr

structure GethApi (σ : Type) where
  getBlock : BlockId → Eff σ (Option GethBlock)
  getBlockNumber : Eff σ Nat

structure ForkchoiceUpdateParams where
  transactions : List Bytes
  gasPrices : List Nat
  gasUsed : List Nat
  timestamp : U256
  prevRandao : String
  suggestedFeeRecipient : Address
  withdrawals : List Bytes
  noTxPool : Bool
  deriving DecidableEq, Repr

structure ForkchoiceState where
  headBlockHash : H256
  safeBlockHash : H256
  finalizedBlockHash : H256
  deriving DecidableEq, Repr

abbrev PayloadId := String

structure ExecutionPayload where
  blockNumber : Nat
  blockHash : H256
  romeGasUsed : Option (List Nat)
  /-- the fields that are only sent back -/
  body : Bytes
  deriving DecidableEq, Repr

/-- The methods of the engine. A fork choice update that starts no payload answers
with no id, and `engine_getPayloadV2` may answer without an execution payload. -/
structure GethEngine (σ : Type) where
  forkchoiceUpdatedV2 : ForkchoiceState → Option ForkchoiceUpdateParams → Eff σ (Option PayloadId)
  getPayloadV2 : PayloadId → Eff σ (Option ExecutionPayload)
  /-- The answer is the latest valid hash of the payload status. -/
  newPayloadV2 : ExecutionPayload → Eff σ H256

structure StateAdvanceTx where
  rlp : Bytes
  gasPrice : Nat
  gasUsed : Nat
  deriving DecidableEq, Repr

def prevRandao : String := "0xc130d5e63c61c935f6089e61140ca9136172677cf6aa5800dcc1cf0a02152a14"

def GethEngine.advanceRollupState {σ : Type} (engine : GethEngine σ) (finalizedBlockhash : H256)
    (parentHash : H256) (timestamp : U256) (transactions : List StateAdvanceTx)
    (gasRecipient : Option Address) (finalizeNewBlock : Bool) : Eff σ (Nat × H256) := do
  let gasUsed := transactions.map StateAdvanceTx.gasUsed
  let forkchoiceParams : ForkchoiceUpdateParams := {
    transactions := transactions.map StateAdvanceTx.rlp
    timestamp := timestamp
    prevRandao := prevRandao
    suggestedFeeRecipient := gasRecipient.getD 0
    withdrawals := []
    noTxPool := true
    gasPrices := transactions.map StateAdvanceTx.gasPrice
    gasUsed := gasUsed }
  match ← engine.forkchoiceUpdatedV2 ⟨parentHash, parentHash, finalizedBlockhash⟩
      (some forkchoiceParams) with
  | none => throw (.err (.custom "invalid type: null, expected a string"))
  | some payloadId =>
      match ← engine.getPayloadV2 payloadId with
      | none => throw (.panic "Failed to get execution payload")
      | some executionPayload =>
          let newBlockhash ←
            engine.newPayloadV2 { executionPayload with romeGasUsed := some gasUsed }
          let newFinalizedBlockhash := if finalizeNewBlock then newBlockhash else finalizedBlockhash
          let _ ← engine.forkchoiceUpdatedV2
            ⟨newBlockhash, newBlockhash, newFinalizedBlockhash⟩ none
          pure (executionPayload.blockNumber, executionPayload.blockHash)

/-! ## The producer -/

structure EngineAPIBlockProducer (σ : Type) where
  gethEngine : GethEngine σ
  gethApi : GethApi σ
  /-- `Transaction::rlp`, of the Ethereum types library -/
  rlp : Transaction → Bytes

/-- `as_u64`: it panics on a number that does not fit. -/
def U256.asU64 (x : U256) : Outcome Nat :=
  if x.toNat < 2 ^ 64 then .ok x.toNat
  else .error (.panic "Integer overflow when casting to u64")

namespace EngineAPIBlockProducer

variable {σ : Type}

def getFinalizedBlockhash (P : EngineAPIBlockProducer σ) (parentHash : Option H256) :
    Eff σ H256 := do
  if parentHash.isSome then
    match ← (P.gethApi.getBlock .finalized).attempt with
    | .ok (some block) =>
        match block.hash with
        | some hash => pure hash
        | none => throw (.err (.custom "Failed to get finalized blockhash"))
    | _ => throw (.err (.custom "Failed to get finalized block"))
  else
    match ← (P.gethApi.getBlock .latest).attempt with
    | .ok (some block) =>
        match block.hash with
        | some hash => pure hash
        | none => throw (.err (.custom "Failed to get latest blockhash"))
    | _ => throw (.err (.custom "Failed to get latest block"))

def lastProducedBlock (P : EngineAPIBlockProducer σ) : Eff σ Nat := P.gethApi.getBlockNumber

def getBlockParams (P : EngineAPIBlockProducer σ) (blockNumber : Nat) : Eff σ BlockParams := do
  match ← P.gethApi.getBlock (.number blockNumber) with
  | none => throw (.err (.custom ("Block " ++ toString blockNumber ++ " was not found")))
  | some block =>
      match block.hash, block.number with
      | some hash, some number => pure ⟨hash, some block.parentHash, number, block.timestamp⟩
      | _, _ => throw (.err (.custom
          ("Failed to get block " ++ toString blockNumber ++ " params")))

/-- The block the pending blocks go on top of. -/
def getParentBlock (P : EngineAPIBlockProducer σ) (parentHash : Option H256) : Eff σ GethBlock := do
  match parentHash with
  | some parentHash =>
      match ← (P.gethApi.getBlock (.hash parentHash)).attempt with
      | .ok (some block) => pure block
      | .ok none => throw (.panic ("Parent block " ++ parentHash.debug ++ " was not found"))
      | .error e => throw (.err (.custom ("produce_blocks: Failed to get block for "
          ++ parentHash.debug ++ ": " ++ e.debug)))
  | none =>
      match ← (P.gethApi.getBlock .latest).attempt with
      | .ok (some parentBlock) =>
          match parentBlock.number with
          | some blockNumber =>
              if blockNumber ≠ 0 then
                throw (.panic ("Unable to produce pending blocks with unknown parent. "
                  ++ "op-geth already has latest block with number " ++ toString blockNumber ++ "."))
              else pure parentBlock
          | none => throw (.panic "Block number is not set for latest block")
      | _ => throw (.err (.custom "produce_blocks: Failed to get latest block"))

/-- The transactions of a pending block, as the engine takes them. -/
def stateAdvanceTxs (P : EngineAPIBlockProducer σ) :
    List (Transaction × TxResult) → Outcome (List StateAdvanceTx)
  | [] => .ok []
  | (tx, txResult) :: txs => do
      let gasPrice ← txResult.gasReport.gasPrice.asU64
      let gasUsed ← txResult.gasReport.gasValue.asU64
      let rest ← P.stateAdvanceTxs txs
      pure (⟨P.rlp tx, gasPrice, gasUsed⟩ :: rest)

theorem asU64_ok_iff (x : U256) : (∃ n, x.asU64 = .ok n) ↔ x.toNat < 2 ^ 64 := by
  rw [U256.asU64]
  split
  · next hlt => exact iff_of_true ⟨_, rfl⟩ hlt
  · next hge => exact iff_of_false (fun ⟨n, h⟩ => (by cases h)) hge

theorem stateAdvanceTxs_ok_iff {P : EngineAPIBlockProducer σ} (txs : List (Transaction × TxResult)) :
    (∃ advances, P.stateAdvanceTxs txs = .ok advances) ↔ ∀ e ∈ txs,
      e.2.gasReport.gasPrice.toNat < 2 ^ 64 ∧ e.2.gasReport.gasValue.toNat < 2 ^ 64 := by
  induction txs with
  | nil => exact iff_of_true ⟨[], rfl⟩ fun e he => (by cases he)
  | cons e txs ih =>
      obtain ⟨tx, txResult⟩ := e
      rw [List.forall_mem_cons, ← ih, ← asU64_ok_iff, ← asU64_ok_iff, stateAdvanceTxs]
      constructor
      · intro h
        obtain ⟨advances, h⟩ := h
        obtain ⟨gasPrice, hprice, h⟩ := Except.ok_of_bind h
        obtain ⟨gasUsed, hused, h⟩ := Except.ok_of_bind h
        obtain ⟨rest, hrest, _⟩ := Except.ok_of_bind h
        exact ⟨⟨⟨gasPrice, hprice⟩, gasUsed, hused⟩, rest, hrest⟩
      · intro h
        obtain ⟨⟨⟨gasPrice, hprice⟩, gasUsed, hused⟩, rest, hrest⟩ := h
        refine ⟨⟨P.rlp tx, gasPrice, gasUsed⟩ :: rest, ?_⟩
        rw [hprice, hused, hrest]
        rfl

/-- The pending block is the one that is finalized next, or lies below it. -/
def finalizes (nextFinalized : Option EthBlockId) (slotNumber : Slot) (blockIdx : Nat) : Bool :=
  match nextFinalized with
  | some next => slotNumber < next.1 || slotNumber = next.1 && blockIdx ≤ next.2
  | none => false

def reached (limit : Option Nat) (producedBlocks : ProducedBlocks) : Bool :=
  match limit with
  | some limit => limit ≤ producedBlocks.len
  | none => false

/-- The loop of `produce_blocks`. -/
def produceLoop (P : EngineAPIBlockProducer σ) (nextFinalized : Option EthBlockId)
    (limit : Option Nat) :
    List (Slot × PendingL1Block × Nat × PendingL2Block) → H256 → H256 → ProducedBlocks →
      Eff σ ProductionResult
  | [], currentFinalized, _, producedBlocks => pure ⟨producedBlocks, currentFinalized⟩
  | (slotNumber, pendingL1Block, blockIdx, pendingL2Block) :: rest, currentFinalized, parentHash,
      producedBlocks => do
    let finalizeNewBlock := finalizes nextFinalized slotNumber blockIdx
    match P.stateAdvanceTxs (pendingL2Block.transactions.toList.map Prod.snd) with
    | .error e => throw e
    | .ok txs =>
        match ← (P.gethEngine.advanceRollupState currentFinalized parentHash
            pendingL1Block.timestamp txs pendingL2Block.gasRecipient finalizeNewBlock).attempt with
        | .ok (blockNumber, blockHash) =>
            let producedBlocks := producedBlocks.insert slotNumber blockIdx
              ⟨blockHash, some parentHash, blockNumber, pendingL1Block.timestamp⟩
            let currentFinalized := if finalizeNewBlock then blockHash else currentFinalized
            if reached limit producedBlocks then pure ⟨producedBlocks, currentFinalized⟩
            else P.produceLoop nextFinalized limit rest currentFinalized blockHash producedBlocks
        | .error err => throw (.err (.custom ("Failed to produce block in op-geth. ("
            ++ toString slotNumber ++ ", " ++ toString blockIdx ++ "): " ++ err.debug
            ++ "\nTake a look at op-geth logs for details.")))

/-- The block that is finalized before the first new one. -/
def firstFinalized (P : EngineAPIBlockProducer σ) (parentBlock : GethBlock)
    (parentHash : Option H256) : Eff σ H256 :=
  match parentBlock.number with
  | none => throw (.panic "Parent block has no number")
  | some parentNumber =>
      if parentNumber ≠ 0 then P.getFinalizedBlockhash parentHash
      else
        match parentBlock.hash with
        | some hash => pure hash
        | none => throw (.panic "Parent block has no hash")

/-- The error of the last line goes on with the parent block. -/
def produceBlocks (P : EngineAPIBlockProducer σ) (producerParams : ProducerParams)
    (limit : Option Nat) : Eff σ ProductionResult := do
  let parentBlock ← P.getParentBlock producerParams.parentHash
  let finalizedBlockhash ← P.firstFinalized parentBlock producerParams.parentHash
  let (currentFinalized, nextFinalized) :=
    match producerParams.finalizedBlock with
    | some (.produced finalizedBlockhash) => (finalizedBlockhash, none)
    | some (.pending blockId) => (finalizedBlockhash, some blockId)
    | none => (finalizedBlockhash, none)
  match parentBlock.hash with
  | some blockhash =>
      P.produceLoop nextFinalized limit producerParams.pendingBlocks.iter currentFinalized
        blockhash ∅
  | none => throw (.err (.custom "Unable to read parent block "))

def blockProducer (P : EngineAPIBlockProducer σ) : BlockProducer σ where
  lastProducedBlock := P.lastProducedBlock
  getBlockParams := P.getBlockParams
  produceBlocks := P.produceBlocks

end EngineAPIBlockProducer

end RomeSdk
