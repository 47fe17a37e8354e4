import RomeSdk.Parsers.LogParser
import RomeSdk.Proofs.StandIns

/-!
# The log format is read back

A record is written to the log as one `Program data: ` line, the base64 texts of
its tag and its fields with a blank between two. An empty field leaves nothing
but the blanks around it, and only the last field of a record can be empty.

Every machine reads every line. The one whose tag begins the line reads the
fields. Each of the other four waits for its own tag, which only the last field
can be: the fields before it have other lengths, or are kept different, and with
the line at its end a machine that has seen no more than its tag has found
nothing.
-/

namespace RomeSdk

/-! ## Words of a line -/

theorem splitWhitespaceGo_append {word : List Char} (hword : ∀ c ∈ word, isWhitespace c = false)
    (rest : List Char) : ∀ acc : List Char,
      splitWhitespaceGo (word ++ rest) acc = splitWhitespaceGo rest (word.reverse ++ acc) := by
  induction word with
  | nil => intro acc; rfl
  | cons c word ih =>
      intro acc
      have hc := hword c List.mem_cons_self
      rw [List.cons_append, splitWhitespaceGo, hc,
        if_neg Bool.false_ne_true, ih fun d hd => hword d (List.mem_cons_of_mem c hd),
        List.reverse_cons, List.append_assoc]
      rfl

theorem splitWhitespace_cons {word : List Char} (hword : ∀ c ∈ word, isWhitespace c = false)
    (rest : List Char) :
    splitWhitespace (word ++ ' ' :: rest)
      = [word].filter (fun w => !w.isEmpty) ++ splitWhitespace rest := by
  rw [splitWhitespace, splitWhitespaceGo_append hword, List.append_nil, splitWhitespaceGo]
  have hblank : isWhitespace ' ' = true := by decide
  cases word with
  | nil => simp [hblank, splitWhitespace]
  | cons c word => simp [hblank, splitWhitespace]

theorem splitWhitespace_word {word : List Char} (hword : ∀ c ∈ word, isWhitespace c = false) :
    splitWhitespace word = [word].filter (fun w => !w.isEmpty) := by
  have hgo := splitWhitespaceGo_append hword [] []
  rw [List.append_nil, List.append_nil] at hgo
  rw [splitWhitespace, hgo, splitWhitespaceGo]
  cases word with
  | nil => rfl
  | cons c word => simp

/-- The words between single blanks, without the empty ones. -/
theorem splitWhitespace_intercalate {words : List (List Char)}
    (h : ∀ word ∈ words, ∀ c ∈ word, isWhitespace c = false) :
    splitWhitespace ([' '].intercalate words) = words.filter fun w => !w.isEmpty := by
  induction words with
  | nil => rfl
  | cons word words ih =>
      have hword := h word List.mem_cons_self
      have hwords := ih fun w hw => h w (List.mem_cons_of_mem word hw)
      cases words with
      | nil =>
          rw [show [' '].intercalate [word] = word by simp [List.intercalate]]
          exact splitWhitespace_word hword
      | cons next words =>
          have hjoin : [' '].intercalate (word :: next :: words)
              = word ++ ' ' :: [' '].intercalate (next :: words) := by
            simp [List.intercalate]
          rw [hjoin, splitWhitespace_cons hword, hwords, ← List.filter_append]
          rfl

theorem encode_not_blank (bytes : Bytes) : ∀ c ∈ Base64.encode bytes, isWhitespace c = false :=
  Base64.all_encode (by decide) (by decide) bytes

/-! ## Lines of fields -/

/-- The crate's documented law: what was written in the standard alphabet is read back. -/
def Crates.DecodesBase64 (X : Crates) : Prop :=
  ∀ bytes, X.base64Decode (Base64.encode bytes) = .ok bytes

def dataLine (fields : List Bytes) : String :=
  String.ofList (programData ++ [' '].intercalate (fields.map Base64.encode))

def present (fields : List Bytes) : List Bytes := fields.filter fun field => !field.isEmpty

theorem isProgramData_dataLine (fields : List Bytes) : isProgramData (dataLine fields) = true := by
  rw [isProgramData, dataLine, String.toList_ofList, List.isPrefixOf_iff_prefix]
  exact List.prefix_append _ _

/-- The words of a line are its fields, but for the empty ones. -/
theorem words_dataLine (fields : List Bytes) :
    splitWhitespace ((dataLine fields).toList.drop programData.length)
      = (present fields).map Base64.encode := by
  have hwords : (fields.map Base64.encode).filter (fun w => !w.isEmpty)
      = (present fields).map Base64.encode := by
    rw [present, List.filter_map]
    refine congrArg _ (List.filter_congr fun field _ => ?_)
    have hempty : (Base64.encode field).isEmpty = field.isEmpty := by
      rw [Bool.eq_iff_iff, List.isEmpty_iff, List.isEmpty_iff, Base64.encode_eq_nil]
    rw [Function.comp_apply, hempty]
  have hblank : ∀ word ∈ fields.map Base64.encode, ∀ c ∈ word, isWhitespace c = false := by
    intro word hword
    obtain ⟨field, _, rfl⟩ := List.mem_map.mp hword
    exact encode_not_blank field
  rw [dataLine, String.toList_ofList, List.drop_left, splitWhitespace_intercalate hblank, hwords]

/-- A machine reads a line field by field. -/
theorem consume_dataLine {X : Crates} (hdecode : X.DecodesBase64) {σ : Type}
    (advance : σ → Bytes → ProgramResult σ) (st : σ) (fields : List Bytes) :
    consume X advance st (dataLine fields) = (present fields).foldlM advance st := by
  rw [consume, if_pos (isProgramData_dataLine fields), words_dataLine, List.foldlM_map]
  simp only [hdecode _]

theorem present_cons {field : Bytes} (h : field ≠ []) (fields : List Bytes) :
    present (field :: fields) = field :: present fields := by
  rw [present, List.filter_cons_of_pos (by simpa using h)]
  rfl

theorem present_append (fields rest : List Bytes) :
    present (fields ++ rest) = present fields ++ present rest := List.filter_append _ _

theorem present_of_ne_nil {fields : List Bytes} (h : ∀ field ∈ fields, field ≠ []) :
    present fields = fields :=
  List.filter_eq_self.mpr fun field hfield => by simpa using h field hfield

theorem present_singleton (field : Bytes) :
    present [field] = [] ∧ field = [] ∨ present [field] = [field] := by
  cases field with
  | nil => exact Or.inl ⟨rfl, rfl⟩
  | cons b field => exact Or.inr rfl

/-! ## A machine whose tag does not begin the line -/

theorem advanced {σ : Type} {advance : σ → Bytes → ProgramResult σ} {st after : σ} {item : Bytes}
    (h : advance st item = .ok after) (items : List Bytes) :
    (item :: items).foldlM advance st = items.foldlM advance after := by
  rw [List.foldlM_cons, h]
  rfl

/-- In `st` the machine waits for `tag`, and the tag alone is not found. -/
structure Waits {σ : Type} (advance : σ → Bytes → ProgramResult σ) (found : σ → Bool)
    (tag : Bytes) (st : σ) : Prop where
  passes : ∀ item, item ≠ tag → advance st item = .ok st
  unfound : found st = false
  tagged : ∃ after, advance st tag = .ok after ∧ found after = false

theorem Waits.passes_all {σ : Type} {advance : σ → Bytes → ProgramResult σ} {found : σ → Bool}
    {tag : Bytes} {st : σ} (h : Waits advance found tag st) :
    ∀ {items : List Bytes}, tag ∉ items → items.foldlM advance st = .ok st := by
  intro items
  induction items with
  | nil => intro _; rfl
  | cons item items ih =>
      intro hmem
      have hne : item ≠ tag := fun heq => hmem (heq ▸ List.mem_cons_self)
      rw [advanced (h.passes item hne)]
      exact ih fun hin => hmem (List.mem_cons_of_mem item hin)

/-- A line with the tag nowhere before its last field is read without finding
anything. -/
theorem Waits.unfound_line {X : Crates} (hdecode : X.DecodesBase64) {σ : Type}
    {advance : σ → Bytes → ProgramResult σ} {found : σ → Bool} {tag : Bytes} {st : σ}
    (h : Waits advance found tag st) {fields : List Bytes} {last : Bytes} (hmem : tag ∉ fields) :
    ∃ after, consume X advance st (dataLine (fields ++ [last])) = .ok after ∧
      found after = false := by
  have hbefore : (present fields).foldlM advance st = .ok st :=
    h.passes_all fun hin => hmem (List.mem_of_mem_filter hin)
  rw [consume_dataLine hdecode, present_append, List.foldlM_append, hbefore]
  show ∃ after, (present [last]).foldlM advance st = .ok after ∧ found after = false
  rcases present_singleton last with ⟨hnil, _⟩ | hlast
  · rw [hnil]
    exact ⟨st, rfl, h.unfound⟩
  · rw [hlast]
    by_cases heq : last = tag
    · obtain ⟨after, hafter, hunfound⟩ := h.tagged
      refine ⟨after, ?_, hunfound⟩
      rw [heq, advanced hafter]
      rfl
    · refine ⟨st, ?_, h.unfound⟩
      rw [advanced (h.passes last heq)]
      rfl

theorem EventParser.waits (X : Crates) :
    Waits (EventParser.advance X) EventParser.found X.romeEvm.EVENT_LOG .default where
  passes item h := by
    simp only [EventParser.advance, EventParser.default, if_neg h]
  unfound := rfl
  tagged := ⟨{ EventParser.default with state := .address }, by
    simp only [EventParser.advance, EventParser.default, if_true], rfl⟩

theorem ExitReasonParser.waits (X : Crates) :
    Waits (ExitReasonParser.advance X) ExitReasonParser.found X.romeEvm.EXIT_REASON .default where
  passes item h := by
    simp only [ExitReasonParser.advance, ExitReasonParser.default, if_neg h]
  unfound := rfl
  tagged := ⟨{ ExitReasonParser.default with state := .code }, by
    simp only [ExitReasonParser.advance, ExitReasonParser.default, if_true], rfl⟩

theorem GasParser.waits {α : Type} (tag : Bytes) (size : Nat) (message : String)
    (read : Bytes → α) (value : α) :
    Waits (GasParser.advance tag size message read) GasParser.isFound tag ⟨.init, value⟩ where
  passes item h := by
    simp only [GasParser.advance, if_neg h]
  unfound := rfl
  tagged := ⟨⟨.value, value⟩, by simp only [GasParser.advance, if_true], rfl⟩

/-! ## The machine of the tag -/

/-- A gas machine finds the value behind its tag. -/
theorem GasParser.consume_own {X : Crates} (hdecode : X.DecodesBase64) {α : Type} {tag : Bytes}
    {size : Nat} (message : String) (read : Bytes → α) (value : α) {word : Bytes}
    (htag : tag ≠ []) (hword : word.length = size) (hsize : 0 < size) :
    consume X (GasParser.advance tag size message read) ⟨.init, value⟩ (dataLine [tag, word])
      = .ok ⟨.found, read word⟩ := by
  have hne : word ≠ [] := List.ne_nil_of_length_pos (hword ▸ hsize)
  rw [consume_dataLine hdecode, present_cons htag, present_cons hne]
  simp only [present, List.filter_nil, List.foldlM_cons, List.foldlM_nil, GasParser.advance, if_true,
    hword, ne_eq, not_true_eq_false, if_false]
  rfl

theorem Address.fromSlice_beBytes (a : Address) : Address.fromSlice (beBytes 20 a.toNat) = a := by
  rw [Address.fromSlice, beBytes, beNat_reverse, leNat_leBytes]
  apply BitVec.eq_of_toNat_eq
  have := a.isLt
  rw [BitVec.toNat_ofNat]
  omega

def topicBytes (topic : H256) : Bytes := beBytes 32 topic.toNat

/-- The topics still announced are read one by one, and then the machine waits
for the data. -/
theorem EventParser.read_topics (X : Crates) (address : Address) (data : Bytes) (n : Nat)
    (topics : List H256) : ∀ done : List H256, topics ≠ [] → done.length + topics.length = n →
      (topics.map topicBytes).foldlM (EventParser.advance X) ⟨.topics, n, ⟨address, done, data⟩⟩
        = .ok ⟨.data, n, ⟨address, done ++ topics, data⟩⟩ := by
  induction topics with
  | nil => intro _ h; exact absurd rfl h
  | cons topic topics ih =>
      intro done _ hn
      have hlength : (topicBytes topic).length = 32 := length_beBytes 32 _
      have hread : H256.fromSlice (topicBytes topic) = topic := H256.fromSlice_beBytes topic
      have hadvance : EventParser.advance X ⟨.topics, n, ⟨address, done, data⟩⟩ (topicBytes topic)
          = .ok ⟨if (done ++ [topic]).length = n then .data else .topics, n,
              ⟨address, done ++ [topic], data⟩⟩ := by
        simp only [EventParser.advance, hlength, ne_eq, not_true_eq_false, if_false, hread]
      rw [List.map_cons, advanced hadvance]
      rw [List.length_cons] at hn
      by_cases hlast : topics = []
      · subst hlast
        have hall : (done ++ [topic]).length = n := by
          rw [List.length_append, List.length_singleton]
          exact hn
        rw [if_pos hall]
        rfl
      · have hmore : ¬ (done ++ [topic]).length = n := by
          have := List.length_pos_iff.mpr hlast
          rw [List.length_append, List.length_singleton]
          omega
        have hrest := ih (done ++ [topic]) hlast (by
          rw [List.length_append, List.length_singleton]
          omega)
        rw [List.append_assoc] at hrest
        rw [if_neg hmore]
        exact hrest

/-- The fields of an event behind its tag, the data last. -/
def Log.header (log : Log) : List Bytes :=
  beBytes 20 log.address.toNat :: [UInt8.ofNat log.topics.length] :: log.topics.map topicBytes

theorem EventParser.read_header {X : Crates} {log : Log} (htopics : log.topics.length ≤ 255) :
    (X.romeEvm.EVENT_LOG :: log.header).foldlM (EventParser.advance X) .default
      = .ok ⟨.data, log.topics.length, ⟨log.address, log.topics, []⟩⟩ := by
  obtain ⟨address, topics, data⟩ := log
  have htag : EventParser.advance X .default X.romeEvm.EVENT_LOG
      = .ok ⟨.address, 0, ⟨0, [], []⟩⟩ := by
    simp only [EventParser.default, EventParser.advance, if_true]
  have haddress : EventParser.advance X ⟨.address, 0, ⟨0, [], []⟩⟩ (beBytes 20 address.toNat)
      = .ok ⟨.topicsLen, 0, ⟨address, [], []⟩⟩ := by
    simp only [EventParser.advance, length_beBytes, ne_eq, not_true_eq_false, if_false,
      Address.fromSlice_beBytes]
  have hbyte : (UInt8.ofNat topics.length).toNat = topics.length :=
    UInt8.toNat_ofNat_of_lt' (Nat.lt_succ_of_le htopics)
  have hcount : EventParser.advance X ⟨.topicsLen, 0, ⟨address, [], []⟩⟩ [UInt8.ofNat topics.length]
      = .ok ⟨if topics.length > 0 then .topics else .data, topics.length, ⟨address, [], []⟩⟩ := by
    simp only [EventParser.advance, hbyte]
  rw [advanced htag, Log.header, advanced haddress, advanced hcount]
  by_cases hnone : topics = []
  · subst hnone
    rfl
  · rw [if_pos (List.length_pos_iff.mpr hnone)]
    have htopics := EventParser.read_topics X address [] topics.length topics [] hnone (by
      rw [List.length_nil, Nat.zero_add])
    rw [List.nil_append] at htopics
    exact htopics

theorem topicBytes_ne_nil (topic : H256) : topicBytes topic ≠ [] :=
  List.ne_nil_of_length_pos (by rw [topicBytes, length_beBytes]; decide)

theorem Log.ne_nil_of_mem_header {log : Log} : ∀ field ∈ log.header, field ≠ [] := by
  intro field h
  rcases List.mem_cons.mp h with rfl | h
  · exact List.ne_nil_of_length_pos (by rw [length_beBytes]; decide)
  · rcases List.mem_cons.mp h with rfl | h
    · exact List.cons_ne_nil _ _
    · obtain ⟨topic, _, rfl⟩ := List.mem_map.mp h
      exact topicBytes_ne_nil topic

/-- The event machine finds the event behind its tag. -/
theorem EventParser.consume_own {X : Crates} (hdecode : X.DecodesBase64)
    (htag : X.romeEvm.EVENT_LOG ≠ []) {log : Log} (htopics : log.topics.length ≤ 255) :
    consume X (EventParser.advance X) .default
        (dataLine ((X.romeEvm.EVENT_LOG :: log.header) ++ [log.data]))
      = .ok ⟨.data, log.topics.length, log⟩ := by
  have hpresent : present (X.romeEvm.EVENT_LOG :: log.header)
      = X.romeEvm.EVENT_LOG :: log.header := by
    refine present_of_ne_nil fun field h => ?_
    rcases List.mem_cons.mp h with rfl | h
    · exact htag
    · exact Log.ne_nil_of_mem_header field h
  rw [consume_dataLine hdecode, present_append, hpresent, List.foldlM_append,
    EventParser.read_header htopics]
  show (present [log.data]).foldlM (EventParser.advance X) _ = _
  obtain ⟨address, topics, data⟩ := log
  rcases present_singleton data with ⟨hnone, hdata⟩ | hdata
  · rw [hnone, List.foldlM_nil, hdata]
    rfl
  · rw [hdata]
    rfl

/-- The bytes of a text, as `String::from_utf8` takes them. -/
def reasonBytes (reason : String) : Bytes := reason.toUTF8.data.toList

/-- The fields of an exit reason behind its tag, but for the return value. -/
def ExitReason.header (r : ExitReason) : List Bytes :=
  [[r.code], leBytes 8 (reasonBytes r.reason).length, reasonBytes r.reason]

theorem fromUTF8_reasonBytes (reason : String) :
    String.fromUTF8? ⟨(reasonBytes reason).toArray⟩ = some reason := by
  have hbytes : ByteArray.mk (reasonBytes reason).toArray = reason.toUTF8 := rfl
  rw [hbytes]
  simp only [String.fromUTF8?, String.toUTF8_eq_toByteArray, dif_pos reason.isValidUTF8]
  rfl

theorem reasonBytes_ne_nil {reason : String} (h : reason ≠ "") : reasonBytes reason ≠ [] := by
  intro hnil
  have hread := fromUTF8_reasonBytes reason
  rw [hnil] at hread
  have hempty : reasonBytes "" = [] := rfl
  have hblank := fromUTF8_reasonBytes ""
  rw [hempty, hread] at hblank
  exact h (Option.some.inj hblank)

/-- The exit reason machine finds the exit reason behind its tag. -/
theorem ExitReasonParser.consume_own {X : Crates} (hdecode : X.DecodesBase64)
    (htag : X.romeEvm.EXIT_REASON ≠ []) {r : ExitReason} (hreason : r.reason ≠ "") :
    ∃ p, consume X (ExitReasonParser.advance X) .default
        (dataLine ((X.romeEvm.EXIT_REASON :: r.header) ++ [r.returnValue])) = .ok p ∧
      p.found = true ∧ p.exitReason = r := by
  obtain ⟨code, reason, returnValue⟩ := r
  have hlength : (leBytes 8 (reasonBytes reason).length).length = 8 := length_leBytes 8 _
  have hpresent : present (X.romeEvm.EXIT_REASON :: ExitReason.header ⟨code, reason, returnValue⟩)
      = X.romeEvm.EXIT_REASON :: ExitReason.header ⟨code, reason, returnValue⟩ := by
    refine present_of_ne_nil fun field h => ?_
    simp only [ExitReason.header, List.mem_cons, List.not_mem_nil, or_false] at h
    rcases h with rfl | rfl | rfl | rfl
    · exact htag
    · exact List.cons_ne_nil _ _
    · exact List.ne_nil_of_length_pos (by omega)
    · exact reasonBytes_ne_nil hreason
  have hread : (X.romeEvm.EXIT_REASON :: ExitReason.header ⟨code, reason, returnValue⟩).foldlM
      (ExitReasonParser.advance X) .default
      = .ok ⟨.returnValue, leNat (leBytes 8 (reasonBytes reason).length), ⟨code, reason, []⟩⟩ := by
    simp only [ExitReason.header, List.foldlM_cons, List.foldlM_nil, ExitReasonParser.default,
      ExitReasonParser.advance, if_true, bind, Except.bind, hlength, ne_eq, not_true_eq_false,
      if_false, fromUTF8_reasonBytes]
    rfl
  rw [consume_dataLine hdecode, present_append, hpresent, List.foldlM_append, hread]
  show ∃ p, (present [returnValue]).foldlM (ExitReasonParser.advance X) _ = .ok p ∧ _
  rcases present_singleton returnValue with ⟨hnone, hvalue⟩ | hvalue
  · rw [hnone, hvalue]
    exact ⟨_, rfl, rfl, rfl⟩
  · rw [hvalue]
    exact ⟨_, rfl, rfl, rfl⟩

/-! ## Records -/

inductive LogRecord where
  | event (log : Log)
  | exitReason (r : ExitReason)
  | gasValue (value : U256)
  | gasPrice (price : U256)
  | gasRecipient (recipient : Address)

def RomeEvm.tags (R : RomeEvm) : List Bytes :=
  [R.EVENT_LOG, R.EXIT_REASON, R.GAS_VALUE, R.GAS_PRICE, R.GAS_RECIPIENT]

/-- The tags of the on-chain program can be told from one another, and from the
fields of a known length. -/
structure RomeEvm.TagsApart (R : RomeEvm) : Prop where
  distinct : R.tags.Nodup
  lengths : ∀ tag ∈ R.tags, tag.length ∉ [0, 1, 8, 20, 32]

namespace LogRecord

def tag (X : Crates) : LogRecord → Bytes
  | .event _ => X.romeEvm.EVENT_LOG
  | .exitReason _ => X.romeEvm.EXIT_REASON
  | .gasValue _ => X.romeEvm.GAS_VALUE
  | .gasPrice _ => X.romeEvm.GAS_PRICE
  | .gasRecipient _ => X.romeEvm.GAS_RECIPIENT

/-- The fields between the tag and the last one. -/
def middle : LogRecord → List Bytes
  | .event log => log.header
  | .exitReason r => r.header
  | _ => []

def last : LogRecord → Bytes
  | .event log => log.data
  | .exitReason r => r.returnValue
  | .gasValue value => beBytes 32 value.toNat
  | .gasPrice price => beBytes 32 price.toNat
  | .gasRecipient recipient => beBytes 20 recipient.toNat

def line (X : Crates) (r : LogRecord) : String :=
  dataLine ((r.tag X :: r.middle) ++ [r.last])

/-- What can be written so that it is read back: the number of topics fits its
byte, and the reason of an exit is there and is none of the tags. -/
def WellFormed (X : Crates) : LogRecord → Prop
  | .event log => log.topics.length ≤ 255
  | .exitReason r => r.reason ≠ "" ∧ reasonBytes r.reason ∉ X.romeEvm.tags
  | _ => True

def event? : LogRecord → Option Log
  | .event log => some log
  | _ => none

def exitReason? : LogRecord → Option ExitReason
  | .exitReason r => some r
  | _ => none

def gasValue? : LogRecord → Option U256
  | .gasValue value => some value
  | _ => none

def gasPrice? : LogRecord → Option U256
  | .gasPrice price => some price
  | _ => none

def gasRecipient? : LogRecord → Option Address
  | .gasRecipient recipient => some recipient
  | _ => none

theorem notMem_header {tag : Bytes} (h : tag.length ∉ [0, 1, 8, 20, 32]) (log : Log) :
    tag ∉ log.header := by
  simp only [List.mem_cons, List.not_mem_nil, or_false, not_or] at h
  obtain ⟨_, h1, _, h20, h32⟩ := h
  intro hmem
  rcases List.mem_cons.mp hmem with rfl | hmem
  · exact h20 (length_beBytes 20 _)
  · rcases List.mem_cons.mp hmem with rfl | hmem
    · exact h1 rfl
    · obtain ⟨topic, _, rfl⟩ := List.mem_map.mp hmem
      exact h32 (length_beBytes 32 _)

theorem notMem_middle {X : Crates} (hX : X.romeEvm.TagsApart) {r : LogRecord}
    (h : r.WellFormed X) {tag : Bytes} (htag : tag ∈ X.romeEvm.tags) : tag ∉ r.middle := by
  have hlength := hX.lengths tag htag
  cases r with
  | event log => exact notMem_header hlength log
  | exitReason r =>
      intro hmem
      simp only [middle, ExitReason.header, List.mem_cons, List.not_mem_nil, or_false] at hmem hlength
      rcases hmem with rfl | rfl | rfl
      · exact hlength (by simp)
      · exact hlength (by simp [length_leBytes])
      · exact h.2 htag
  | gasValue => exact List.not_mem_nil
  | gasPrice => exact List.not_mem_nil
  | gasRecipient => exact List.not_mem_nil

/-- A machine for another tag finds nothing in the line of a record. -/
theorem unfound {X : Crates} (hdecode : X.DecodesBase64) (hX : X.romeEvm.TagsApart)
    {r : LogRecord} (h : r.WellFormed X) {σ : Type} {advance : σ → Bytes → ProgramResult σ}
    {found : σ → Bool} {tag : Bytes} {st : σ} (hw : Waits advance found tag st)
    (htag : tag ∈ X.romeEvm.tags) (hne : tag ≠ r.tag X) :
    ∃ after, consume X advance st (r.line X) = .ok after ∧ found after = false := by
  refine hw.unfound_line hdecode fun hmem => ?_
  rcases List.mem_cons.mp hmem with heq | hmem
  · exact hne heq
  · exact notMem_middle hX h htag hmem

end LogRecord

/-- The parser after the line of a record. -/
def LogParser.add (p : LogParser) (r : LogRecord) : LogParser where
  events := p.events ++ r.event?.toList
  exitReason := r.exitReason?.or p.exitReason
  gasValue := r.gasValue?.or p.gasValue
  gasPrice := r.gasPrice?.or p.gasPrice
  gasRecipient := r.gasRecipient?.or p.gasRecipient

theorem LogParser.parseLine_eq {X : Crates} {log : String} {event : EventParser}
    {reason : ExitReasonParser} {gasValue : GasValueParser} {gasPrice : GasPriceParser}
    {gasRecipient : GasRecipientParser} (p : LogParser)
    (hevent : consume X (EventParser.advance X) .default log = .ok event)
    (hreason : consume X (ExitReasonParser.advance X) .default log = .ok reason)
    (hvalue : consume X (GasValueParser.advance X) .default log = .ok gasValue)
    (hprice : consume X (GasPriceParser.advance X) .default log = .ok gasPrice)
    (hrecipient : consume X (GasRecipientParser.advance X) .default log = .ok gasRecipient) :
    p.parseLine X log = .ok {
      events := if event.found then p.events ++ [event.event] else p.events
      exitReason := if reason.found then some reason.exitReason else p.exitReason
      gasValue := if gasValue.isFound then some gasValue.value else p.gasValue
      gasPrice := if gasPrice.isFound then some gasPrice.value else p.gasPrice
      gasRecipient := if gasRecipient.isFound then gasRecipient.value else p.gasRecipient } := by
  simp only [parseLine, hevent, hreason, hvalue, hprice, hrecipient]
  rfl

/-- The ten pairs of tags. -/
theorem RomeEvm.TagsApart.pairs {R : RomeEvm} (h : R.TagsApart) :
    (R.EVENT_LOG ≠ R.EXIT_REASON ∧ R.EVENT_LOG ≠ R.GAS_VALUE ∧ R.EVENT_LOG ≠ R.GAS_PRICE ∧
      R.EVENT_LOG ≠ R.GAS_RECIPIENT) ∧
    (R.EXIT_REASON ≠ R.GAS_VALUE ∧ R.EXIT_REASON ≠ R.GAS_PRICE ∧
      R.EXIT_REASON ≠ R.GAS_RECIPIENT) ∧
    (R.GAS_VALUE ≠ R.GAS_PRICE ∧ R.GAS_VALUE ≠ R.GAS_RECIPIENT) ∧
    R.GAS_PRICE ≠ R.GAS_RECIPIENT := by
  simpa [RomeEvm.tags] using h.distinct

theorem RomeEvm.TagsApart.ne_nil {R : RomeEvm} (h : R.TagsApart) {tag : Bytes}
    (htag : tag ∈ R.tags) : tag ≠ [] := by
  rintro rfl
  exact h.lengths [] htag (by decide)

namespace LogRecord

section Machines

variable {X : Crates} (hdecode : X.DecodesBase64) (hX : X.romeEvm.TagsApart) {r : LogRecord}
  (h : r.WellFormed X)

include hdecode hX h

theorem event_read : ∃ e, consume X (EventParser.advance X) .default (r.line X) = .ok e ∧
    (if e.found then some e.event else none) = r.event? := by
  obtain ⟨⟨h12, h13, h14, h15⟩, _⟩ := hX.pairs
  have htag : X.romeEvm.EVENT_LOG ∈ X.romeEvm.tags := by simp [RomeEvm.tags]
  have hother := unfound hdecode hX h (EventParser.waits X) htag
  cases r with
  | event log => exact ⟨_, EventParser.consume_own hdecode (hX.ne_nil htag) h, rfl⟩
  | exitReason => exact (hother h12).imp fun e he => ⟨he.1, by rw [he.2]; rfl⟩
  | gasValue => exact (hother h13).imp fun e he => ⟨he.1, by rw [he.2]; rfl⟩
  | gasPrice => exact (hother h14).imp fun e he => ⟨he.1, by rw [he.2]; rfl⟩
  | gasRecipient => exact (hother h15).imp fun e he => ⟨he.1, by rw [he.2]; rfl⟩

theorem exitReason_read :
    ∃ e, consume X (ExitReasonParser.advance X) .default (r.line X) = .ok e ∧
      (if e.found then some e.exitReason else none) = r.exitReason? := by
  obtain ⟨⟨h12, _⟩, ⟨h23, h24, h25⟩, _⟩ := hX.pairs
  have htag : X.romeEvm.EXIT_REASON ∈ X.romeEvm.tags := by simp [RomeEvm.tags]
  have hother := unfound hdecode hX h (ExitReasonParser.waits X) htag
  cases r with
  | exitReason r =>
      obtain ⟨e, he, hfound, hread⟩ := ExitReasonParser.consume_own hdecode (hX.ne_nil htag) h.1
      exact ⟨e, he, by rw [hfound, hread]; rfl⟩
  | event => exact (hother h12.symm).imp fun e he => ⟨he.1, by rw [he.2]; rfl⟩
  | gasValue => exact (hother h23).imp fun e he => ⟨he.1, by rw [he.2]; rfl⟩
  | gasPrice => exact (hother h24).imp fun e he => ⟨he.1, by rw [he.2]; rfl⟩
  | gasRecipient => exact (hother h25).imp fun e he => ⟨he.1, by rw [he.2]; rfl⟩

/-- A gas machine finds the value of a record with its tag, and nothing in the
line of another. -/
theorem gas_read {α : Type} (tag : Bytes) (htag : tag ∈ X.romeEvm.tags) (size : Nat)
    (hsize : 0 < size) (message : String) (read : Bytes → α) (value : α) {value? : Option α}
    (hkind : r.tag X = tag ∧ r.middle = [] ∧ r.last.length = size ∧ some (read r.last) = value? ∨
      tag ≠ r.tag X ∧ none = value?) :
    ∃ g, consume X (GasParser.advance tag size message read) ⟨.init, value⟩ (r.line X) = .ok g ∧
      (if g.isFound then some g.value else none) = value? := by
  rcases hkind with ⟨heq, hmiddle, hlast, rfl⟩ | ⟨hne, rfl⟩
  · rw [line, hmiddle, heq]
    exact ⟨_, GasParser.consume_own hdecode message read value (hX.ne_nil htag) hlast hsize, rfl⟩
  · obtain ⟨g, hg, hfound⟩ := unfound hdecode hX h (GasParser.waits tag size message read value)
      htag hne
    exact ⟨g, hg, by rw [hfound]; rfl⟩

theorem gasValue_read : ∃ g, consume X (GasValueParser.advance X) .default (r.line X) = .ok g ∧
    (if g.isFound then some g.value else none) = r.gasValue? := by
  obtain ⟨⟨_, h13, _⟩, ⟨h23, _⟩, ⟨h34, h35⟩, _⟩ := hX.pairs
  refine gas_read hdecode hX h X.romeEvm.GAS_VALUE (by simp [RomeEvm.tags]) 32 (by decide)
    "Gas value: U256 expected" U256.fromBigEndian 0 ?_
  cases r with
  | gasValue value =>
      exact Or.inl ⟨rfl, rfl, length_beBytes 32 _, congrArg some (H256.fromSlice_beBytes value)⟩
  | event => exact Or.inr ⟨h13.symm, rfl⟩
  | exitReason => exact Or.inr ⟨h23.symm, rfl⟩
  | gasPrice => exact Or.inr ⟨h34, rfl⟩
  | gasRecipient => exact Or.inr ⟨h35, rfl⟩

theorem gasPrice_read : ∃ g, consume X (GasPriceParser.advance X) .default (r.line X) = .ok g ∧
    (if g.isFound then some g.value else none) = r.gasPrice? := by
  obtain ⟨⟨_, _, h14, _⟩, ⟨_, h24, _⟩, ⟨h34, _⟩, h45⟩ := hX.pairs
  refine gas_read hdecode hX h X.romeEvm.GAS_PRICE (by simp [RomeEvm.tags]) 32 (by decide)
    "Gas price: U256 expected" U256.fromBigEndian 0 ?_
  cases r with
  | gasPrice price =>
      exact Or.inl ⟨rfl, rfl, length_beBytes 32 _, congrArg some (H256.fromSlice_beBytes price)⟩
  | event => exact Or.inr ⟨h14.symm, rfl⟩
  | exitReason => exact Or.inr ⟨h24.symm, rfl⟩
  | gasValue => exact Or.inr ⟨h34.symm, rfl⟩
  | gasRecipient => exact Or.inr ⟨h45, rfl⟩

theorem gasRecipient_read :
    ∃ g, consume X (GasRecipientParser.advance X) .default (r.line X) = .ok g ∧
      (if g.isFound then some g.value else none) = r.gasRecipient?.map some := by
  obtain ⟨⟨_, _, _, h15⟩, ⟨_, _, h25⟩, ⟨_, h35⟩, h45⟩ := hX.pairs
  refine gas_read hdecode hX h X.romeEvm.GAS_RECIPIENT (by simp [RomeEvm.tags]) 20 (by decide)
    "Gas recipient: H160 expected" (fun item => some (Address.fromSlice item)) none ?_
  cases r with
  | gasRecipient recipient =>
      exact Or.inl ⟨rfl, rfl, length_beBytes 20 _,
        congrArg (fun a => some (some a)) (Address.fromSlice_beBytes recipient)⟩
  | event => exact Or.inr ⟨h15.symm, rfl⟩
  | exitReason => exact Or.inr ⟨h25.symm, rfl⟩
  | gasValue => exact Or.inr ⟨h35.symm, rfl⟩
  | gasPrice => exact Or.inr ⟨h45.symm, rfl⟩

end Machines

end LogRecord

theorem kept_or_found {α β : Type} {found : Bool} {value : α} {value? : Option α}
    (h : (if found then some value else none) = value?) (f : α → β) (old : β) :
    (if found then f value else old) = (value?.map f).getD old := by
  subst h
  split <;> rfl

/-- The line of a record adds the record and nothing else. -/
theorem parseLine_record {X : Crates} (hdecode : X.DecodesBase64) (hX : X.romeEvm.TagsApart)
    {r : LogRecord} (h : r.WellFormed X) (p : LogParser) :
    p.parseLine X (r.line X) = .ok (p.add r) := by
  obtain ⟨event, hevent, he⟩ := LogRecord.event_read hdecode hX h
  obtain ⟨reason, hreason, hr⟩ := LogRecord.exitReason_read hdecode hX h
  obtain ⟨value, hvalue, hv⟩ := LogRecord.gasValue_read hdecode hX h
  obtain ⟨price, hprice, hp⟩ := LogRecord.gasPrice_read hdecode hX h
  obtain ⟨recipient, hrecipient, ht⟩ := LogRecord.gasRecipient_read hdecode hX h
  have hkept : (if recipient.isFound then recipient.value else p.gasRecipient)
      = ((r.gasRecipient?.map some).map id).getD p.gasRecipient :=
    kept_or_found ht id p.gasRecipient
  rw [LogParser.parseLine_eq p hevent hreason hvalue hprice hrecipient,
    kept_or_found he (fun event => p.events ++ [event]) p.events, kept_or_found hr some p.exitReason,
    kept_or_found hv some p.gasValue, kept_or_found hp some p.gasPrice, hkept]
  cases r <;> simp [LogParser.add, LogRecord.event?, LogRecord.exitReason?, LogRecord.gasValue?,
    LogRecord.gasPrice?, LogRecord.gasRecipient?]

/-! ## A whole log -/

/-- A line of a log: a record, or what somebody else logs. -/
abbrev LogEntry := LogRecord ⊕ String

def LogEntry.line (X : Crates) : LogEntry → String := Sum.elim (LogRecord.line X) id

/-- The records are well formed, and no other line begins like one. -/
def LogEntry.WellFormed (X : Crates) : LogEntry → Prop :=
  Sum.elim (LogRecord.WellFormed X) fun line => isProgramData line = false

def records (entries : List LogEntry) : List LogRecord := entries.filterMap Sum.getLeft?

theorem parse_entries {X : Crates} (hdecode : X.DecodesBase64) (hX : X.romeEvm.TagsApart)
    (entries : List LogEntry) : ∀ p : LogParser, (∀ e ∈ entries, LogEntry.WellFormed X e) →
      p.parse X (entries.map (LogEntry.line X)) = .ok ((records entries).foldl LogParser.add p) := by
  induction entries with
  | nil => intro p _; rfl
  | cons e entries ih =>
      intro p h
      have he := h e List.mem_cons_self
      have hrest := fun p => ih p fun d hd => h d (List.mem_cons_of_mem e hd)
      rw [List.map_cons, LogParser.parse, List.foldlM_cons]
      cases e with
      | inl r =>
          rw [LogEntry.line, Sum.elim_inl, parseLine_record hdecode hX he p]
          exact hrest (p.add r)
      | inr line =>
          rw [LogEntry.line, Sum.elim_inr, id, parseLine_of_not_programData he]
          exact hrest p

/-- Of the values written one after the other the last one stays. -/
theorem foldl_or {α β : Type} (value? : β → Option α) (rs : List β) : ∀ old : Option α,
    rs.foldl (fun o r => (value? r).or o) old = (rs.filterMap value?).getLast?.or old := by
  induction rs with
  | nil => intro old; rfl
  | cons r rs ih =>
      intro old
      rw [List.foldl_cons, ih]
      cases hr : value? r with
      | none => rw [List.filterMap_cons_none hr, Option.none_or]
      | some v =>
          rw [List.filterMap_cons_some hr, Option.some_or, List.getLast?_cons]
          cases (rs.filterMap value?).getLast? <;> rfl

theorem foldl_add (rs : List LogRecord) : ∀ p : LogParser,
    (rs.foldl LogParser.add p).events = p.events ++ rs.filterMap LogRecord.event? := by
  induction rs with
  | nil => intro p; exact (List.append_nil _).symm
  | cons r rs ih =>
      intro p
      rw [List.foldl_cons, ih, LogParser.add, List.append_assoc]
      cases hr : r.event? with
      | none => rw [List.filterMap_cons_none hr]; rfl
      | some log => rw [List.filterMap_cons_some hr]; rfl

/-- A log of well formed records, with any other lines between them, is read
back: the events in order, and of each other kind of record the last. -/
theorem parse_log {X : Crates} (hdecode : X.DecodesBase64) (hX : X.romeEvm.TagsApart)
    (entries : List LogEntry) (h : ∀ e ∈ entries, LogEntry.WellFormed X e) :
    LogParser.new.parse X (entries.map (LogEntry.line X)) = .ok {
      events := (records entries).filterMap LogRecord.event?
      exitReason := ((records entries).filterMap LogRecord.exitReason?).getLast?
      gasValue := ((records entries).filterMap LogRecord.gasValue?).getLast?
      gasPrice := ((records entries).filterMap LogRecord.gasPrice?).getLast?
      gasRecipient := ((records entries).filterMap LogRecord.gasRecipient?).getLast? } := by
  have hfield : ∀ {α : Type} (field : LogParser → Option α) (value? : LogRecord → Option α),
      (∀ p r, field (p.add r) = (value? r).or (field p)) → field .new = none →
      field ((records entries).foldl LogParser.add .new)
        = ((records entries).filterMap value?).getLast? := by
    intro α field value? hadd hnew
    have hhom : (records entries).foldl (fun o r => (value? r).or o) (field .new)
        = field ((records entries).foldl LogParser.add .new) :=
      List.foldl_hom field fun p r => (hadd p r).symm
    rw [← hhom, foldl_or, hnew, Option.or_none]
  have hevents := foldl_add (records entries) .new
  rw [LogParser.new, List.nil_append, ← LogParser.new] at hevents
  rw [parse_entries hdecode hX entries .new h]
  refine congrArg Except.ok ?_
  rw [← hevents, ← hfield LogParser.exitReason _ (fun _ _ => rfl) rfl,
    ← hfield LogParser.gasValue _ (fun _ _ => rfl) rfl,
    ← hfield LogParser.gasPrice _ (fun _ _ => rfl) rfl,
    ← hfield LogParser.gasRecipient _ (fun _ _ => rfl) rfl]

/-! An event without data, an exit reason whose return value is the tag of a gas
price, and two gas prices, with another line between them. -/

theorem standIns_decodesBase64 : standIns.DecodesBase64 := by
  intro bytes
  simp only [standIns, base64Groups_encode]

theorem standIns_tagsApart : standIns.romeEvm.TagsApart := ⟨by decide, by decide⟩

def mixedLog : List LogEntry :=
  [.inl (.event ⟨5, [9], []⟩), .inr "Program log: ok", .inl (.gasPrice 6),
    .inl (.exitReason ⟨1, "no", ascii "GAS_PRICE"⟩), .inl (.gasPrice 7)]

theorem mixedLog_wellFormed : ∀ e ∈ mixedLog, LogEntry.WellFormed standIns e := by
  intro e he
  simp only [mixedLog, List.mem_cons, List.not_mem_nil, or_false] at he
  rcases he with rfl | rfl | rfl | rfl | rfl
  · show (1 : Nat) ≤ 255
    decide
  · show isProgramData _ = false
    decide
  · trivial
  · exact ⟨by decide, by decide⟩
  · trivial

theorem parse_mixedLog :
    LogParser.new.parse standIns (mixedLog.map (LogEntry.line standIns)) = .ok {
      events := [⟨5, [9], []⟩]
      exitReason := some ⟨1, "no", ascii "GAS_PRICE"⟩
      gasValue := none
      gasPrice := some 7
      gasRecipient := none } :=
  parse_log standIns_decodesBase64 standIns_tagsApart mixedLog mixedLog_wellFormed

end RomeSdk
