import RomeSdk.Parsers.DefaultTxParser
import RomeSdk.Parsers.L1Attributes

/-!
# The block parser

`block_parser.rs`, from a Solana block to the EVM blocks it contains. The
instructions of a block are read one by one into `ParsedTxs`; an error in one
of them is logged and the next one is read. `registerBlock` hands the result to
the transaction parser and drops that call's error as well. `parse` registers a
slot and then its ancestors until the slot is complete, and only then makes a
`BlockParseResult` of it.
-/

namespace RomeSdk

/-! ## Solana blocks, as the RPC client returns them -/

structure CompiledInstruction where
  programIdIndex : Nat
  data : Bytes
  deriving DecidableEq, Repr

/-- What `EncodedTransaction::decode` returns of a transaction. -/
structure SolTransaction where
  signatures : List Bytes
  staticAccountKeys : List Pubkey
  instructions : List CompiledInstruction
  deriving DecidableEq, Repr

structure UiTransactionStatusMeta where
  err : Option String
  logMessages : Option (List String)
  deriving DecidableEq, Repr

structure UiConfirmedBlock where
  previousBlockhash : String
  blockhash : String
  parentSlot : Slot
  transactions : Option (List (Option SolTransaction × Option UiTransactionStatusMeta))
  blockTime : Option Int
  deriving DecidableEq, Repr

/-! ## The results of a block -/

structure BlockParams where
  hash : H256
  parentHash : Option H256
  number : Nat
  timestamp : U256
  deriving DecidableEq, Repr

structure EthBlock where
  blockGasUsed : U256
  transactions : List TxHash
  gasRecipient : Option Address
  slotTimestamp : Option Int
  blockParams : Option BlockParams
  deriving DecidableEq, Repr

def EthBlock.new (timestamp : Option Int) (transactions : List TxHash) (blockGasUsed : U256)
    (gasRecipient : Option Address) : EthBlock where
  blockGasUsed := blockGasUsed
  transactions := transactions
  gasRecipient := gasRecipient
  slotTimestamp := timestamp
  blockParams := none

inductive BlockParseMode where
  | engineApi
  | singleState
  deriving DecidableEq, Repr

structure BlockParseResult where
  slotNumber : Slot
  solanaBlockhash : H256
  parentSolanaBlockhash : H256
  timestamp : Option Int
  transactions : List (Transaction × TxResult)
  ethBlocks : List EthBlock
  deriving DecidableEq, Repr

/-- The sum of two `U256`: it panics when it overflows. -/
def U256.checkedAdd (a b : U256) : Outcome U256 :=
  if a.toNat + b.toNat < 2 ^ 256 then .ok (a + b)
  else .error (.panic "arithmetic operation overflow")

/-! ## Reading the instructions -/

def parseTransactionMeta (X : Crates) (txMeta : UiTransactionStatusMeta) :
    ProgramResult (Option TxResult) :=
  match txMeta.logMessages with
  | none => .ok none
  | some logs =>
      match LogParser.new.parse X logs with
      | .error e => .error e
      | .ok parser =>
          .ok (parser.exitReason.map fun exitReason => {
            exitReason := exitReason
            logs := parser.events
            gasReport := {
              gasValue := parser.gasValue.getD 0
              gasPrice := parser.gasPrice.getD 0
              gasRecipient := parser.gasRecipient } })

/-- `add_small_tx` and `add_big_tx`: the hash is entered before the logs are
parsed and stays when that fails. -/
def addExecuted (X : Crates) (parsedTxs : ParsedTxs) (hash : TxHash) (txIdx : Nat)
    (step : Option TxResult → ParsedTxStep) (txMeta : UiTransactionStatusMeta) :
    ParsedTxs × Outcome Unit :=
  match parseTransactionMeta X txMeta with
  | .error e => (parsedTxs.touch hash, .error (.err e))
  | .ok txResult => (parsedTxs.addStep hash txIdx (step txResult), .ok ())

def addSmallTx (X : Crates) (parsedTxs : ParsedTxs) (txIdx : Nat) (tx : Transaction)
    (txMeta : UiTransactionStatusMeta) : ParsedTxs × Outcome Unit :=
  addExecuted X parsedTxs tx.hash txIdx (.smallTx tx) txMeta

def addBigTx (X : Crates) (parsedTxs : ParsedTxs) (txIdx : Nat) (txHash : TxHash)
    (txMeta : UiTransactionStatusMeta) : ParsedTxs × Outcome Unit :=
  addExecuted X parsedTxs txHash txIdx .bigTx txMeta

/-- `process_do_tx` and `process_do_tx_iterative` from their rlp on. -/
def processSmallTx (X : Crates) (chainId : Nat) (parsedTxs : ParsedTxs) (txIdx : Nat)
    (rlp : Bytes) (txMeta : UiTransactionStatusMeta) : ParsedTxs × Outcome Unit :=
  match decodeTransactionFromRlp X rlp with
  | .error e => (parsedTxs, .error (.err e))
  | .ok tx =>
      match tx.chainId with
      | none => (parsedTxs, .error (.err .noChainId))
      | some txChainId =>
          -- `as_u64`
          if usizeMax < txChainId.toNat then
            (parsedTxs, .error (.panic "Integer overflow when casting to u64"))
          else if txChainId.toNat = chainId then addSmallTx X parsedTxs txIdx tx txMeta
          else (parsedTxs, .ok ())

def processDoTx (X : Crates) (chainId : Nat) (parsedTxs : ParsedTxs) (txIdx : Nat)
    (instrData : Bytes) (txMeta : UiTransactionStatusMeta) : ParsedTxs × Outcome Unit :=
  match X.romeEvm.splitFee instrData with
  | .error e => (parsedTxs, .error (.err (.romeProgramError e)))
  | .ok rlp => processSmallTx X chainId parsedTxs txIdx rlp txMeta

def processDepositTx (X : Crates) (chainId : Nat) (parsedTxs : ParsedTxs) (txIdx : Nat)
    (instrData : Bytes) : ParsedTxs × Outcome Unit :=
  match X.romeEvm.depositArgs instrData with
  | .error e => (parsedTxs, .error (.err (.romeProgramError e)))
  | .ok (txChainId, rlp) =>
      if txChainId = chainId then
        match decodeTransactionFromRlp X rlp with
        | .error e => (parsedTxs, .error (.err e))
        | .ok tx => (parsedTxs.addStep tx.hash txIdx (.smallTx tx (some .default)), .ok ())
      else (parsedTxs, .ok ())

def processDoTxIterative (X : Crates) (chainId : Nat) (parsedTxs : ParsedTxs) (txIdx : Nat)
    (instrData : Bytes) (txMeta : UiTransactionStatusMeta) : ParsedTxs × Outcome Unit :=
  match X.romeEvm.doTxIterativeArgs instrData with
  | .error e => (parsedTxs, .error (.err (.romeProgramError e)))
  | .ok rlp => processSmallTx X chainId parsedTxs txIdx rlp txMeta

/-- `process_do_tx_holder` and `process_do_tx_holder_iterative` from their
arguments on. -/
def processBigTx (X : Crates) (chainId : Nat) (parsedTxs : ParsedTxs) (txIdx : Nat)
    (args : Except String (TxHash × Nat)) (txMeta : UiTransactionStatusMeta) :
    ParsedTxs × Outcome Unit :=
  match args with
  | .error e => (parsedTxs, .error (.err (.romeProgramError e)))
  | .ok (hash, txChainId) =>
      if txChainId = chainId then addBigTx X parsedTxs txIdx hash txMeta
      else (parsedTxs, .ok ())

def processDoTxHolder (X : Crates) (chainId : Nat) (parsedTxs : ParsedTxs) (txIdx : Nat)
    (instrData : Bytes) (txMeta : UiTransactionStatusMeta) : ParsedTxs × Outcome Unit :=
  processBigTx X chainId parsedTxs txIdx (X.romeEvm.doTxHolderArgs instrData) txMeta

def processDoTxHolderIterative (X : Crates) (chainId : Nat) (parsedTxs : ParsedTxs)
    (txIdx : Nat) (instrData : Bytes) (txMeta : UiTransactionStatusMeta) :
    ParsedTxs × Outcome Unit :=
  processBigTx X chainId parsedTxs txIdx (X.romeEvm.doTxHolderIterativeArgs instrData) txMeta

def processTransmitTx (X : Crates) (chainId : Nat) (parsedTxs : ParsedTxs) (txIdx : Nat)
    (instrData : Bytes) : ParsedTxs × Outcome Unit :=
  match X.romeEvm.transmitTxArgs instrData with
  | .error e => (parsedTxs, .error (.err (.romeProgramError e)))
  | .ok (offset, hash, txChainId, chunk) =>
      if txChainId = chainId then
        (parsedTxs.addStep hash txIdx (.transmitTx offset chunk), .ok ())
      else (parsedTxs, .ok ())

/-- The `match` on the first byte of the instruction data. -/
def processInstruction (X : Crates) (chainId : Nat) (parsedTxs : ParsedTxs) (txIdx : Nat)
    (tag : UInt8) (instrData : Bytes) (txMeta : UiTransactionStatusMeta) :
    ParsedTxs × Outcome Unit :=
  if tag = X.romeEvm.tag .doTx then processDoTx X chainId parsedTxs txIdx instrData txMeta
  else if tag = X.romeEvm.tag .transmitTx then
    processTransmitTx X chainId parsedTxs txIdx instrData
  else if tag = X.romeEvm.tag .doTxHolder then
    processDoTxHolder X chainId parsedTxs txIdx instrData txMeta
  else if tag = X.romeEvm.tag .doTxIterative then
    processDoTxIterative X chainId parsedTxs txIdx instrData txMeta
  else if tag = X.romeEvm.tag .doTxHolderIterative then
    processDoTxHolderIterative X chainId parsedTxs txIdx instrData txMeta
  else if tag = X.romeEvm.tag .deposit then
    processDepositTx X chainId parsedTxs txIdx instrData
  else (parsedTxs, .ok ())

/-- The closure `register_block` passes on: what goes wrong with an instruction
is logged, unless it is a panic. -/
def parseInstruction (X : Crates) (chainId : Nat) (parsedTxs : ParsedTxs) (txIdx : Nat)
    (data : Bytes) (txMeta : UiTransactionStatusMeta) : ParsedTxs × Outcome Unit :=
  match data with
  | [] => (parsedTxs, .error (.panic "range start index 1 out of range for slice of length 0"))
  | tag :: instrData =>
      match processInstruction X chainId parsedTxs txIdx tag instrData txMeta with
      | (parsedTxs', .error (.panic message)) => (parsedTxs', .error (.panic message))
      | (parsedTxs', _) => (parsedTxs', .ok ())

/-- The inner loop of `parse_solana_block`, one instruction. -/
def visitInstruction (X : Crates) (programId : Pubkey) (chainId : Nat) (txIdx : Nat)
    (transaction : SolTransaction) (txMeta : UiTransactionStatusMeta) (parsedTxs : ParsedTxs)
    (instr : CompiledInstruction) : ParsedTxs × Outcome Unit :=
  match transaction.staticAccountKeys[instr.programIdIndex]? with
  | none => (parsedTxs, .error (.panic "index out of bounds"))
  | some key =>
      if key = programId then
        match transaction.signatures with
        | [] => (parsedTxs, .error (.panic "index out of bounds"))
        | _ :: _ => parseInstruction X chainId parsedTxs txIdx instr.data txMeta
      else (parsedTxs, .ok ())

/-- The outer loop of `parse_solana_block`, one transaction with its index. -/
def visitTransaction (X : Crates) (programId : Pubkey) (chainId : Nat) (parsedTxs : ParsedTxs)
    (e : (Option SolTransaction × Option UiTransactionStatusMeta) × Nat) :
    ParsedTxs × Outcome Unit :=
  match e with
  | ((some transaction, some txMeta), txIdx) =>
      if txMeta.err.isSome then (parsedTxs, .ok ())
      else
        forTry (visitInstruction X programId chainId txIdx transaction txMeta)
          transaction.instructions parsedTxs
  | _ => (parsedTxs, .ok ())

def parseSolanaBlock (X : Crates) (block : UiConfirmedBlock) (programId : Pubkey)
    (chainId : Nat) : ParsedTxs × Outcome Unit :=
  match block.transactions with
  | none => (∅, .ok ())
  | some transactions =>
      forTry (visitTransaction X programId chainId) transactions.zipIdx ∅

/-! ## EVM blocks -/

/-- The variables of `create_eth_blocks`; `transactions` are those gone through,
as updated. -/
structure EthBlocksState where
  blockGasUsed : U256
  ethBlocks : List EthBlock
  blockTxs : List TxHash
  gasRecipient : Option Address
  blockLogIndex : U256
  transactions : List (Transaction × TxResult)
  deriving DecidableEq, Repr

def EthBlocksState.start : EthBlocksState := ⟨0, [], [], none, 0, []⟩

/-- The body of the loop in `create_eth_blocks`. -/
def EthBlocksState.add (X : Crates) (solanaBlockhash : H256) (timestamp : Option Int)
    (parseMode : BlockParseMode) (st : EthBlocksState) (e : Transaction × TxResult) :
    Outcome EthBlocksState := do
  let tx := updateIfUserDepositedTx X e.1 solanaBlockhash st.blockLogIndex
  let txResult := e.2
  let blockLogIndex ← U256.checkedAdd st.blockLogIndex (BitVec.ofNat 256 txResult.logs.length)
  let gas := txResult.gasReport
  let st := { st with
    blockLogIndex := blockLogIndex
    transactions := st.transactions ++ [(tx, txResult)] }
  match parseMode with
  | .singleState =>
      let blockGasUsed ← U256.checkedAdd st.blockGasUsed gas.gasValue
      pure { st with blockTxs := st.blockTxs ++ [tx.hash], blockGasUsed := blockGasUsed }
  | .engineApi =>
      if gas.gasRecipient = st.gasRecipient then
        -- Several transactions with the same gas recipient are included in a single block
        let blockGasUsed ← U256.checkedAdd st.blockGasUsed gas.gasValue
        pure { st with blockTxs := st.blockTxs ++ [tx.hash], blockGasUsed := blockGasUsed }
      else if st.blockTxs.isEmpty then
        -- First transaction with gas recipient other than previous (or default which is None)
        pure { st with
          blockTxs := [tx.hash]
          blockGasUsed := gas.gasValue
          gasRecipient := gas.gasRecipient }
      else
        pure { st with
          ethBlocks := st.ethBlocks ++
            [EthBlock.new timestamp st.blockTxs st.blockGasUsed st.gasRecipient]
          blockTxs := [tx.hash]
          blockGasUsed := gas.gasValue
          gasRecipient := gas.gasRecipient
          blockLogIndex := 0 }

/-- The blocks, and the transactions with their deposits updated. -/
def createEthBlocks (X : Crates) (solanaBlockhash : H256) (timestamp : Option Int)
    (transactions : List (Transaction × TxResult)) (parseMode : BlockParseMode) :
    Outcome (List EthBlock × List (Transaction × TxResult)) := do
  let st ← transactions.foldlM (EthBlocksState.add X solanaBlockhash timestamp parseMode) .start
  let last :=
    if st.blockTxs.isEmpty then []
    else [EthBlock.new timestamp st.blockTxs st.blockGasUsed st.gasRecipient]
  pure (st.ethBlocks ++ last, st.transactions)

/-- `H256::from_slice` of a decoded base58 text. -/
def decodeBlockhash (X : Crates) (text message : String) : Outcome H256 :=
  match X.bs58Decode text with
  | none => .error (.err (.custom message))
  | some bytes =>
      if bytes.length = 32 then .ok (H256.fromSlice bytes)
      else .error (.panic "assertion failed")

/-- `U256::from` of an `i64`. -/
def U256.fromTimestamp (t : Int) : Outcome U256 :=
  if 0 ≤ t then .ok (BitVec.ofNat 256 t.toNat)
  else .error (.panic "Unsigned integer can't be created from negative value")

namespace BlockParseResult

def parseTransactions (X : Crates) (slotNumber : Slot) (solanaBlockhash : H256)
    (solanaBlocktime : U256) (enableDepositsSlot : Option Slot) (txParser : DefaultTxParser) :
    Outcome (List (Transaction × TxResult)) := do
  let parsedTxs ← (txParser.finalizeSlot X slotNumber).toOutcome
  match enableDepositsSlot with
  | none => pure parsedTxs
  | some enableDepositsSlot =>
      if enableDepositsSlot ≤ slotNumber then
        let attributes ← createL1AttributesTx X slotNumber solanaBlockhash solanaBlocktime
        pure (attributes :: parsedTxs)
      else pure parsedTxs

def new (X : Crates) (slotNumber : Slot) (solanaBlock : UiConfirmedBlock)
    (txParser : DefaultTxParser) (parseMode : BlockParseMode)
    (enableDepositsSlot : Option Slot) : Outcome BlockParseResult := do
  let solanaBlockhash ← decodeBlockhash X solanaBlock.blockhash
    ("Solana block " ++ toString slotNumber ++ " invalid blockhash: " ++ solanaBlock.blockhash)
  let parentSolanaBlockhash ← decodeBlockhash X solanaBlock.previousBlockhash
    ("Solana block " ++ toString slotNumber ++ " invalid parent blockhash: "
      ++ solanaBlock.previousBlockhash)
  let solanaBlocktime ← match solanaBlock.blockTime with
    | some t => U256.fromTimestamp t
    | none => .error (.err (.custom
        ("Solana blocktime is not set for " ++ toString slotNumber)))
  let parsed ← parseTransactions X slotNumber solanaBlockhash solanaBlocktime
    enableDepositsSlot txParser
  let (ethBlocks, transactions) ← createEthBlocks X solanaBlockhash solanaBlock.blockTime parsed
    parseMode
  pure {
    slotNumber := slotNumber
    solanaBlockhash := solanaBlockhash
    parentSolanaBlockhash := parentSolanaBlockhash
    timestamp := solanaBlock.blockTime
    transactions := transactions
    ethBlocks := ethBlocks }

end BlockParseResult

/-! ## The block parser -/

/-- Each reading of the storage is an attempt of its own: `getBlock slot n` is
what the one numbered `n` answers. -/
structure BlockParser where
  getBlock : Slot → Nat → ProgramResult (Option UiConfirmedBlock)
  programId : Pubkey
  chainId : Nat
  parseMode : BlockParseMode
  enableDepositSlot : Option Slot

namespace BlockParser

/-- The error of `register_slot_transactions` is dropped in `commit`. -/
def registerBlock (X : Crates) (bp : BlockParser) (slotNumber : Slot)
    (solanaBlock : UiConfirmedBlock) (txParser : DefaultTxParser) :
    DefaultTxParser × Outcome Unit :=
  match parseSolanaBlock X solanaBlock bp.programId bp.chainId with
  | (_, .error e) => (txParser, .error e)
  | (parsedTxs, .ok ()) =>
      match txParser.registerSlotTransactions slotNumber parsedTxs with
      | (txParser', .error (.panic message)) => (txParser', .error (.panic message))
      | (txParser', _) => (txParser', .ok ())

def getBlockRetries : Nat := 10

/-- The loop of `get_block_with_retries`, `n` attempts being left. -/
def getBlockWithRetriesLoop (bp : BlockParser) (slotNumber : Slot) :
    Nat → ProgramResult UiConfirmedBlock
  | 0 => .error (.custom ("Unable to load block for slot " ++ toString slotNumber))
  | n + 1 =>
      match bp.getBlock slotNumber (getBlockRetries - (n + 1)) with
      | .ok (some block) => .ok block
      | _ => bp.getBlockWithRetriesLoop slotNumber n

def getBlockWithRetries (bp : BlockParser) (slotNumber : Slot) : ProgramResult UiConfirmedBlock :=
  bp.getBlockWithRetriesLoop slotNumber getBlockRetries

/-- The loop of `parse`. A round that does not end the loop has parsed fewer than
`maxBlocks` blocks, so `maxBlocks` rounds after the first are enough. -/
def parseLoop (X : Crates) (bp : BlockParser) (finalSlot : Slot) (finalBlock : UiConfirmedBlock)
    (maxBlocks : Nat) : Nat → Nat → Slot → UiConfirmedBlock → DefaultTxParser →
      DefaultTxParser × Outcome (Option BlockParseResult)
  | 0, _, _, _, txParser => (txParser, .error (.panic "unreachable"))
  | fuel + 1, blocksParsed, currentSlot, currentBlock, txParser =>
      match bp.registerBlock X currentSlot currentBlock txParser with
      | (txParser, .error e) => (txParser, .error e)
      | (txParser, .ok ()) =>
          match txParser.isSlotComplete finalSlot with
          | .error e => (txParser, .error e)
          | .ok true =>
              (txParser, (BlockParseResult.new X finalSlot finalBlock txParser bp.parseMode
                bp.enableDepositSlot).map some)
          | .ok false =>
              if maxBlocks ≤ blocksParsed + 1 then
                (txParser, .error (.err (.custom (toString maxBlocks ++ " blocks parsed. Slot "
                  ++ toString finalSlot ++ " is not complete"))))
              else
                match bp.getBlockWithRetries currentBlock.parentSlot with
                | .error e => (txParser, .error (.err e))
                | .ok block =>
                    bp.parseLoop X finalSlot finalBlock maxBlocks fuel (blocksParsed + 1)
                      currentBlock.parentSlot block txParser

def parse (X : Crates) (bp : BlockParser) (finalSlot : Slot) (maxBlocks : Nat)
    (txParser : DefaultTxParser) : DefaultTxParser × Outcome (Option BlockParseResult) :=
  let maxBlocks := min maxBlocks finalSlot
  match bp.getBlock finalSlot 0 with
  | .error e => (txParser, .error (.err e))
  | .ok none => (txParser, .ok none)
  | .ok (some finalBlock) =>
      bp.parseLoop X finalSlot finalBlock maxBlocks (maxBlocks + 1) 0 finalSlot finalBlock txParser

end BlockParser

end RomeSdk
