import RomeSdk.Crates

/-!
# The log parser

`log_parser.rs`: five small state machines read the base64 tokens of one
`Program data: ` line each, and `LogParser::parse` collects what they found over
all lines of a Solana transaction. A machine is its state type, an `advance`
and a `found`; `consume` is the trait's one default method and drives any of
them.
-/

namespace RomeSdk

/-- `char::is_whitespace`, the Unicode `White_Space` property. -/
def isWhitespace (c : Char) : Bool :=
  let n := c.toNat
  (0x09 ≤ n && n ≤ 0x0D) || n == 0x20 || n == 0x85 || n == 0xA0 || n == 0x1680
    || (0x2000 ≤ n && n ≤ 0x200A) || n == 0x2028 || n == 0x2029 || n == 0x202F
    || n == 0x205F || n == 0x3000

/-- `str::split_whitespace`; `word` is the word being read, reversed. -/
def splitWhitespaceGo : List Char → List Char → List (List Char)
  | [], word => if word.isEmpty then [] else [word.reverse]
  | c :: cs, word =>
      if isWhitespace c then
        if word.isEmpty then splitWhitespaceGo cs []
        else word.reverse :: splitWhitespaceGo cs []
      else splitWhitespaceGo cs (c :: word)

def splitWhitespace (s : List Char) : List (List Char) := splitWhitespaceGo s []

structure Log where
  address : Address
  topics : List H256
  data : Bytes
  deriving DecidableEq, Repr

structure ExitReason where
  code : UInt8
  reason : String
  returnValue : Bytes
  deriving DecidableEq, Repr

structure GasReport where
  gasValue : U256
  gasPrice : U256
  gasRecipient : Option Address
  deriving DecidableEq, Repr

structure TxResult where
  exitReason : ExitReason
  logs : List Log
  gasReport : GasReport
  deriving DecidableEq, Repr

def TxResult.default : TxResult where
  exitReason := ⟨0, "", []⟩
  logs := []
  gasReport := ⟨0, 0, none⟩

def programData : List Char := "Program data: ".toList

def isProgramData (log : String) : Bool := programData.isPrefixOf log.toList

/-- `Parser::consume`, for a machine with this `advance`. -/
def consume (X : Crates) {σ : Type} (advance : σ → Bytes → ProgramResult σ) (st : σ)
    (log : String) : ProgramResult σ :=
  if isProgramData log then
    let step (st : σ) (encode : List Char) : ProgramResult σ :=
      match X.base64Decode encode with
      | .error e => .error (.base64DecodeError e)
      | .ok decode => advance st decode
    (splitWhitespace (log.toList.drop programData.length)).foldlM step st
  else .ok st

/-! ## The five machines -/

inductive EventState where
  | init
  | address
  | topicsLen
  | topics
  | data
  deriving DecidableEq, Repr

structure EventParser where
  state : EventState
  topicsLen : Nat
  event : Log
  deriving DecidableEq, Repr

def EventParser.default : EventParser := ⟨.init, 0, ⟨0, [], []⟩⟩

def EventParser.advance (X : Crates) (p : EventParser) (item : Bytes) :
    ProgramResult EventParser :=
  match p.state with
  | .init => .ok (if item = X.romeEvm.EVENT_LOG then { p with state := .address } else p)
  | .address =>
      if item.length ≠ 20 then .error (.logParserError "event log: address expected")
      else
        .ok { p with
          event := { p.event with address := Address.fromSlice item }
          state := .topicsLen }
  | .topicsLen =>
      match item with
      | [n] =>
          .ok { p with
            topicsLen := n.toNat
            state := if n.toNat > 0 then .topics else .data }
      | _ => .error (.logParserError "event log: topics_len expected")
  | .topics =>
      if item.length ≠ 32 then .error (.logParserError "event log: topic expected")
      else
        let topics := p.event.topics ++ [H256.fromSlice item]
        .ok { p with
          event := { p.event with topics := topics }
          state := if topics.length = p.topicsLen then .data else p.state }
  | .data => .ok { p with event := { p.event with data := item } }

def EventParser.found (p : EventParser) : Bool :=
  p.state == .topics || p.state == .data

inductive ExitReasonState where
  | init
  | code
  | reasonLen
  | reason
  | returnValue
  deriving DecidableEq, Repr

structure ExitReasonParser where
  state : ExitReasonState
  reasonLen : Nat
  exitReason : ExitReason
  deriving DecidableEq, Repr

def ExitReasonParser.default : ExitReasonParser := ⟨.init, 0, ⟨0, "", []⟩⟩

def ExitReasonParser.advance (X : Crates) (p : ExitReasonParser) (item : Bytes) :
    ProgramResult ExitReasonParser :=
  match p.state with
  | .init => .ok (if item = X.romeEvm.EXIT_REASON then { p with state := .code } else p)
  | .code =>
      match item with
      | [code] =>
          .ok { p with
            exitReason := { p.exitReason with code := code }
            state := .reasonLen }
      | _ => .error (.logParserError "exit reason: code expected")
  | .reasonLen =>
      if item.length ≠ 8 then .error (.logParserError "exit reason: topics_len expected")
      else .ok { p with reasonLen := leNat item, state := .reason }
  | .reason =>
      match String.fromUTF8? ⟨item.toArray⟩ with
      | none => .error (.logParserError "exit reason: msg convert error")
      | some reason =>
          .ok { p with
            exitReason := { p.exitReason with reason := reason }
            state := .returnValue }
  | .returnValue =>
      .ok { p with exitReason := { p.exitReason with returnValue := item } }

def ExitReasonParser.found (p : ExitReasonParser) : Bool :=
  p.state == .reason || p.state == .returnValue

/-- The states of the three gas machines; each uses its own tag, value and
found state. -/
inductive GasReportState where
  | init
  | value
  | found
  deriving DecidableEq, Repr

structure GasParser (α : Type) where
  state : GasReportState
  value : α
  deriving DecidableEq, Repr

/-- The one shape of the three gas machines: after `tag`, a word of `size`
bytes read by `read`. -/
def GasParser.advance {α : Type} (tag : Bytes) (size : Nat) (message : String)
    (read : Bytes → α) (p : GasParser α) (item : Bytes) : ProgramResult (GasParser α) :=
  match p.state with
  | .init => .ok (if item = tag then { p with state := .value } else p)
  | .value =>
      if item.length ≠ size then .error (.logParserError message)
      else .ok { p with value := read item, state := .found }
  | .found => .ok p

def GasParser.isFound {α : Type} (p : GasParser α) : Bool := p.state == .found

abbrev GasValueParser := GasParser U256

def GasValueParser.default : GasValueParser := ⟨.init, 0⟩

def GasValueParser.advance (X : Crates) : GasValueParser → Bytes → ProgramResult GasValueParser :=
  GasParser.advance X.romeEvm.GAS_VALUE 32 "Gas value: U256 expected" U256.fromBigEndian

abbrev GasPriceParser := GasParser U256

def GasPriceParser.default : GasPriceParser := ⟨.init, 0⟩

def GasPriceParser.advance (X : Crates) : GasPriceParser → Bytes → ProgramResult GasPriceParser :=
  GasParser.advance X.romeEvm.GAS_PRICE 32 "Gas price: U256 expected" U256.fromBigEndian

abbrev GasRecipientParser := GasParser (Option Address)

def GasRecipientParser.default : GasRecipientParser := ⟨.init, none⟩

def GasRecipientParser.advance (X : Crates) :
    GasRecipientParser → Bytes → ProgramResult GasRecipientParser :=
  GasParser.advance X.romeEvm.GAS_RECIPIENT 20 "Gas recipient: H160 expected"
    fun item => some (Address.fromSlice item)

/-! ## Collecting what the machines found -/

structure LogParser where
  events : List Log
  exitReason : Option ExitReason
  gasValue : Option U256
  gasPrice : Option U256
  gasRecipient : Option Address
  deriving DecidableEq, Repr

def LogParser.new : LogParser := ⟨[], none, none, none, none⟩

/-- The body of the loop in `LogParser::parse`: one line, five fresh machines. -/
def LogParser.parseLine (X : Crates) (p : LogParser) (log : String) :
    ProgramResult LogParser := do
  let event ← consume X (EventParser.advance X) .default log
  let reason ← consume X (ExitReasonParser.advance X) .default log
  let gasValue ← consume X (GasValueParser.advance X) .default log
  let gasPrice ← consume X (GasPriceParser.advance X) .default log
  let gasRecipient ← consume X (GasRecipientParser.advance X) .default log
  pure {
    events := if event.found then p.events ++ [event.event] else p.events
    exitReason := if reason.found then some reason.exitReason else p.exitReason
    gasValue := if gasValue.isFound then some gasValue.value else p.gasValue
    gasPrice := if gasPrice.isFound then some gasPrice.value else p.gasPrice
    gasRecipient := if gasRecipient.isFound then gasRecipient.value else p.gasRecipient }

def LogParser.parse (X : Crates) (p : LogParser) (logs : List String) :
    ProgramResult LogParser :=
  logs.foldlM (LogParser.parseLine X) p

/-! ## Lines that carry no program data -/

/-- A line without program data leaves every machine where it was. -/
theorem consume_of_not_programData {X : Crates} {σ : Type}
    {advance : σ → Bytes → ProgramResult σ} {st : σ} {log : String}
    (h : isProgramData log = false) : consume X advance st log = .ok st := by
  rw [consume, if_neg (by simp [h])]

/-- So `parse` passes over it. -/
theorem parseLine_of_not_programData {X : Crates} {p : LogParser} {log : String}
    (h : isProgramData log = false) : p.parseLine X log = .ok p := by
  simp only [LogParser.parseLine, consume_of_not_programData h]
  rfl

/-- `parse` reads a log through its program data lines, in order. -/
theorem parse_filter_programData (X : Crates) (logs : List String) :
    ∀ p : LogParser, p.parse X (logs.filter isProgramData) = p.parse X logs := by
  induction logs with
  | nil => intro p; rfl
  | cons log logs ih =>
      intro p
      cases h : isProgramData log with
      | false =>
          rw [List.filter_cons_of_neg (by simp [h]), ih p]
          simp only [LogParser.parse, List.foldlM_cons, parseLine_of_not_programData h]
          rfl
      | true =>
          rw [List.filter_cons_of_pos h]
          simp only [LogParser.parse, List.foldlM_cons]
          cases hp : p.parseLine X log with
          | error e => rfl
          | ok p' => exact ih p'

end RomeSdk
