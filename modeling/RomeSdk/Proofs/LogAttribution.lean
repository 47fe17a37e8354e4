import RomeSdk.Parsers.BlockParser
import RomeSdk.Proofs.StandIns

/-!
# Which log lines a result is made of

The log of a Solana transaction is one list for all of its instructions, and
the block parser reads the whole list for each of them. Lines that are not
`Program data: ` lines play no part; of those that are, nothing asks which
instruction or program emitted them. So what is recorded of a block is a
function of its data lines, transaction by transaction, and of the data lines
of one instruction only where the others emit none.
-/

namespace RomeSdk

/-! ## The data lines of a transaction -/

/-- The metadata with nothing but the data lines left of its log. -/
def UiTransactionStatusMeta.dataOnly (txMeta : UiTransactionStatusMeta) :
    UiTransactionStatusMeta :=
  { txMeta with logMessages := txMeta.logMessages.map (List.filter isProgramData) }

def UiConfirmedBlock.dataOnly (block : UiConfirmedBlock) : UiConfirmedBlock :=
  { block with
    transactions := block.transactions.map fun transactions =>
      transactions.map fun t => (t.1, t.2.map UiTransactionStatusMeta.dataOnly) }

theorem parseTransactionMeta_dataOnly (X : Crates) (txMeta : UiTransactionStatusMeta) :
    parseTransactionMeta X txMeta.dataOnly = parseTransactionMeta X txMeta := by
  obtain ⟨err, logMessages⟩ := txMeta
  cases logMessages with
  | none => rfl
  | some logs =>
      simp only [parseTransactionMeta, UiTransactionStatusMeta.dataOnly, Option.map_some,
        parse_filter_programData]

/-- Of the metadata the readers of an instruction use what `parseTransactionMeta`
makes of it. -/
theorem processInstruction_congr {X : Crates} {m m' : UiTransactionStatusMeta}
    (h : parseTransactionMeta X m = parseTransactionMeta X m') (chainId : Nat)
    (parsedTxs : ParsedTxs) (txIdx : Nat) (tag : UInt8) (instrData : Bytes) :
    processInstruction X chainId parsedTxs txIdx tag instrData m
      = processInstruction X chainId parsedTxs txIdx tag instrData m' := by
  simp only [processInstruction, processDoTx, processDoTxIterative, processDoTxHolder,
    processDoTxHolderIterative, processSmallTx, processBigTx, addSmallTx, addBigTx, addExecuted, h]

theorem visitInstruction_dataOnly (X : Crates) (programId : Pubkey) (chainId txIdx : Nat)
    (transaction : SolTransaction) (txMeta : UiTransactionStatusMeta) :
    visitInstruction X programId chainId txIdx transaction txMeta.dataOnly
      = visitInstruction X programId chainId txIdx transaction txMeta := by
  funext parsedTxs instr
  have hprocess := processInstruction_congr (parseTransactionMeta_dataOnly X txMeta) chainId
    parsedTxs txIdx
  simp only [visitInstruction, parseInstruction, hprocess]

theorem visitTransaction_dataOnly (X : Crates) (programId : Pubkey) (chainId : Nat)
    (parsedTxs : ParsedTxs) (t : Option SolTransaction × Option UiTransactionStatusMeta)
    (txIdx : Nat) :
    visitTransaction X programId chainId parsedTxs
        ((t.1, t.2.map UiTransactionStatusMeta.dataOnly), txIdx)
      = visitTransaction X programId chainId parsedTxs (t, txIdx) := by
  obtain ⟨_ | transaction, _ | txMeta⟩ := t
  · rfl
  · rfl
  · rfl
  · simp only [visitTransaction, Option.map_some, visitInstruction_dataOnly]
    rfl

/-- What is recorded of a block is recorded of its data lines. -/
theorem parseSolanaBlock_dataOnly (X : Crates) (block : UiConfirmedBlock) (programId : Pubkey)
    (chainId : Nat) :
    parseSolanaBlock X block.dataOnly programId chainId
      = parseSolanaBlock X block programId chainId := by
  simp only [parseSolanaBlock, UiConfirmedBlock.dataOnly]
  cases block.transactions with
  | none => rfl
  | some transactions =>
      simp only [Option.map_some]
      rw [List.zipIdx_map, forTry_map]
      congr 1
      funext parsedTxs e
      exact visitTransaction_dataOnly X programId chainId parsedTxs e.1 e.2

/-! ## The data lines of an instruction

Solana brackets the log of an instruction, and of each call it makes, by an
`invoke` line and a `success` or `failed` line of the program. -/

inductive LogLine where
  | invoke (program : List Char)
  | leave
  | text
  deriving DecidableEq, Repr

/-- Program ids have no colon, which tells the brackets from logged texts. -/
def LogLine.classify (line : String) : LogLine :=
  match splitWhitespace line.toList with
  | word :: program :: event :: _ =>
      if word ≠ "Program".toList ∨ ':' ∈ program then .text
      else if event = "invoke".toList then .invoke program
      else if event = "success".toList ∨ event = "failed:".toList then .leave
      else .text
  | _ => .text

/-- The data lines `program` emits itself as the instruction number `k`: `stack`
are the programs being run, the innermost first, and `opened` counts the
instructions begun. -/
def ownLinesFrom (program : List Char) (k : Nat) :
    List (List Char) → Nat → List String → List String
  | _, _, [] => []
  | stack, opened, line :: rest =>
      match LogLine.classify line with
      | .invoke p =>
          ownLinesFrom program k (p :: stack) (if stack.isEmpty then opened + 1 else opened) rest
      | .leave => ownLinesFrom program k stack.tail opened rest
      | .text =>
          if isProgramData line ∧ stack = [program] ∧ opened = k + 1 then
            line :: ownLinesFrom program k stack opened rest
          else ownLinesFrom program k stack opened rest

def ownLines (program : List Char) (k : Nat) (logs : List String) : List String :=
  ownLinesFrom program k [] 0 logs

/-- The results recorded of a block, and of one log, depend on the data lines
alone; and if those of two logs are all emitted by the same instruction's own
invocation, on that instruction's lines alone. -/
theorem recorded_of_data_lines (X : Crates) :
    (∀ txMeta txMeta' : UiTransactionStatusMeta, txMeta.dataOnly = txMeta'.dataOnly →
      parseTransactionMeta X txMeta = parseTransactionMeta X txMeta') ∧
    (∀ (block block' : UiConfirmedBlock) programId chainId, block.dataOnly = block'.dataOnly →
      parseSolanaBlock X block programId chainId = parseSolanaBlock X block' programId chainId) ∧
    ∀ program k (logs logs' : List String) err err',
      logs.filter isProgramData = ownLines program k logs →
      logs'.filter isProgramData = ownLines program k logs' →
      ownLines program k logs = ownLines program k logs' →
        parseTransactionMeta X ⟨err, some logs⟩ = parseTransactionMeta X ⟨err', some logs'⟩ := by
  refine ⟨?_, ?_, ?_⟩
  · intro txMeta txMeta' h
    rw [← parseTransactionMeta_dataOnly, h, parseTransactionMeta_dataOnly]
  · intro block block' programId chainId h
    rw [← parseSolanaBlock_dataOnly, h, parseSolanaBlock_dataOnly]
  · intro program k logs logs' err err' hown hown' heq
    have hlines : logs.filter isProgramData = logs'.filter isProgramData := by
      rw [hown, hown', heq]
    rw [← parseTransactionMeta_dataOnly X ⟨err, some logs⟩,
      ← parseTransactionMeta_dataOnly X ⟨err', some logs'⟩]
    simp only [parseTransactionMeta, UiTransactionStatusMeta.dataOnly, Option.map_some, hlines]

/-! A Solana transaction of two instructions: the first executes the transaction
with hash 9 from its holder, the second is another call of the program. The
first logs the same in both logs, and is recorded with the exit reason of the
second in one of them. -/

def quietSecond : List String :=
  ["Program Rome111 invoke [1]", "Program data: RVhJVF9SRUFTT04= AA== AAAAAAAAAAA= b2s=",
    "Program Rome111 success", "Program Rome111 invoke [1]", "Program Rome111 success"]

def loudSecond : List String :=
  ["Program Rome111 invoke [1]", "Program data: RVhJVF9SRUFTT04= AA== AAAAAAAAAAA= b2s=",
    "Program Rome111 success", "Program Rome111 invoke [1]",
    "Program data: RVhJVF9SRUFTT04= AQ== AAAAAAAAAAA= bm8=", "Program Rome111 success"]

def twoInstructions (logs : List String) : UiConfirmedBlock where
  previousBlockhash := ""
  blockhash := ""
  parentSlot := 0
  transactions := some [(some ⟨[[]], [7], [⟨0, [2, 9]⟩, ⟨0, [99]⟩]⟩, some ⟨none, some logs⟩)]
  blockTime := none

theorem recorded_of_other_lines :
    ownLines "Rome111".toList 0 quietSecond = ownLines "Rome111".toList 0 loudSecond ∧
    (ownLines "Rome111".toList 0 loudSecond).length = 1 ∧
    (parseSolanaBlock standIns (twoInstructions quietSecond) 7 0).1.stepAt 9 0
      = some (.bigTx (some ⟨⟨0, "ok", []⟩, [], ⟨0, 0, none⟩⟩)) ∧
    (parseSolanaBlock standIns (twoInstructions loudSecond) 7 0).1.stepAt 9 0
      = some (.bigTx (some ⟨⟨1, "no", []⟩, [], ⟨0, 0, none⟩⟩)) :=
  ⟨by decide, by decide, by decide, by decide⟩

end RomeSdk
