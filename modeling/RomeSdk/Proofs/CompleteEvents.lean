import RomeSdk.Lib.Effect
import RomeSdk.Proofs.LogRoundTrip

/-!
# Which lines become events

The event machine reads an address, a number and the topics, and has found an event from the
number on: when the line ends among the topics, the event has those that were there. Behind
the topics each further token is taken for the data, and the last one stays. Any other line
is refused, or leaves the machine where nothing is found.

So a line whose record is cut off among its topics, or goes on behind its data, becomes an
event as well (`only_complete_iff`).
-/

namespace RomeSdk

/-! ## The tokens of a line -/

/-- What the tokens of a line are decoded to. -/
def readItems (X : Crates) (log : String) : Except String (List Bytes) :=
  (splitWhitespace (log.toList.drop programData.length)).mapM X.base64Decode

/-- A machine reads what the tokens are decoded to. -/
theorem consume_items {X : Crates} {σ : Type} {advance : σ → Bytes → ProgramResult σ} {st : σ}
    {log : String} {items : List Bytes} (hline : isProgramData log = true)
    (hitems : readItems X log = .ok items) :
    consume X advance st log = items.foldlM advance st := by
  rw [consume, if_pos hline]
  rw [readItems] at hitems
  generalize splitWhitespace (log.toList.drop programData.length) = words at hitems
  induction words generalizing st items with
  | nil =>
      cases hitems
      rfl
  | cons word words ih =>
      rw [List.mapM_cons] at hitems
      obtain ⟨item, hitem, hitems⟩ := Except.ok_of_bind hitems
      obtain ⟨rest, hrest, hitems⟩ := Except.ok_of_bind hitems
      cases hitems
      rw [List.foldlM_cons, List.foldlM_cons]
      simp only [hitem]
      cases advance st item with
      | error e => rfl
      | ok after => exact ih hrest

theorem readItems_dataLine {X : Crates} (hdecode : X.DecodesBase64) (fields : List Bytes) :
    readItems X (dataLine fields) = .ok (present fields) := by
  rw [readItems, words_dataLine]
  induction present fields with
  | nil => rfl
  | cons field fields ih =>
      rw [List.map_cons, List.mapM_cons, hdecode, ih]
      rfl

/-- What stands behind the first event tag, if there is one. -/
def behindTag (X : Crates) (items : List Bytes) : Option (List Bytes) :=
  if X.romeEvm.EVENT_LOG ∈ items then
    some ((items.dropWhile fun item => item ≠ X.romeEvm.EVENT_LOG).tail)
  else none

theorem behindTag_append {X : Crates} {before rest : List Bytes}
    (hbefore : X.romeEvm.EVENT_LOG ∉ before) :
    behindTag X (before ++ X.romeEvm.EVENT_LOG :: rest) = some rest := by
  rw [behindTag, if_pos (List.mem_append_right _ List.mem_cons_self),
    List.dropWhile_append_of_pos, List.dropWhile_cons_of_neg (by simp), List.tail_cons]
  intro item hitem
  simp only [ne_eq, decide_eq_true_eq]
  exact fun heq => hbefore (heq ▸ hitem)

theorem behindTag_cases (X : Crates) (items : List Bytes) :
    (behindTag X items = none ∧ X.romeEvm.EVENT_LOG ∉ items) ∨
      ∃ before rest, behindTag X items = some rest ∧ X.romeEvm.EVENT_LOG ∉ before ∧
        items = before ++ X.romeEvm.EVENT_LOG :: rest := by
  by_cases htag : X.romeEvm.EVENT_LOG ∈ items
  · obtain ⟨before, rest, hitems, hbefore⟩ := List.eq_append_cons_of_mem htag
    exact .inr ⟨before, rest, hitems ▸ behindTag_append hbefore, hbefore, hitems⟩
  · exact .inl ⟨if_neg htag, htag⟩

/-! ## The event machine behind its tag -/

namespace EventParser

variable {X : Crates}

/-- Behind the tag. -/
def tagged : EventParser := { EventParser.default with state := .address }

/-- Each further token is taken for the data. -/
theorem run_data (n : Nat) (more : List Bytes) : ∀ event : Log,
    ∃ data, more.foldlM (advance X) ⟨.data, n, event⟩ = .ok ⟨.data, n, { event with data := data }⟩ := by
  induction more with
  | nil => exact fun event => ⟨event.data, rfl⟩
  | cons item more ih =>
      intro event
      obtain ⟨data, hrun⟩ := ih { event with data := item }
      refine ⟨data, ?_⟩
      have hadvance : advance X ⟨.data, n, event⟩ item =
          .ok ⟨.data, n, { event with data := item }⟩ := rfl
      rw [advanced hadvance]
      exact hrun

theorem advance_topic {n : Nat} {address : Address} {done : List H256} {data item : Bytes}
    (hitem : item.length = 32) :
    advance X ⟨.topics, n, ⟨address, done, data⟩⟩ item =
      .ok ⟨if (done ++ [H256.fromSlice item]).length = n then .data else .topics, n,
        ⟨address, done ++ [H256.fromSlice item], data⟩⟩ := by
  simp only [advance, hitem, ne_eq, not_true_eq_false, if_false]

/-- The topics that are there are read, as far as they are announced. -/
theorem run_topics {n : Nat} {address : Address} {data : Bytes} (more : List Bytes) :
    ∀ done : List H256, done.length < n →
      (∀ topic ∈ more.take (n - done.length), topic.length = 32) →
        ∃ e, more.foldlM (advance X) ⟨.topics, n, ⟨address, done, data⟩⟩ = .ok e ∧
          e.found = true ∧ e.event.topics.length = min n (done.length + more.length) := by
  induction more with
  | nil =>
      intro done hdone _
      refine ⟨_, rfl, rfl, ?_⟩
      show done.length = min n (done.length + 0)
      omega
  | cons item more ih =>
      intro done hdone htopics
      obtain ⟨k, hk⟩ : ∃ k, n - done.length = k + 1 := ⟨n - done.length - 1, by omega⟩
      rw [hk, List.take_succ_cons, List.forall_mem_cons] at htopics
      have hlength : (done ++ [H256.fromSlice item]).length = done.length + 1 := by simp
      rw [advanced (advance_topic htopics.1), List.length_cons]
      by_cases hall : (done ++ [H256.fromSlice item]).length = n
      · rw [if_pos hall]
        obtain ⟨data', hrun⟩ :=
          run_data (X := X) n more ⟨address, done ++ [H256.fromSlice item], data⟩
        refine ⟨_, hrun, rfl, ?_⟩
        show (done ++ [H256.fromSlice item]).length = _
        omega
      · rw [if_neg hall]
        have hrest : n - (done ++ [H256.fromSlice item]).length = k := by omega
        obtain ⟨e, hrun, hfound, hcount⟩ := ih (done ++ [H256.fromSlice item]) (by omega)
          (hrest ▸ htopics.2)
        refine ⟨e, hrun, hfound, ?_⟩
        rw [hcount]
        omega

/-- A machine that comes to the end has read topics of the right length. -/
theorem run_topics_inv {n : Nat} {address : Address} {data : Bytes} (more : List Bytes) :
    ∀ {done : List H256} {e : EventParser}, done.length < n →
      more.foldlM (advance X) ⟨.topics, n, ⟨address, done, data⟩⟩ = .ok e →
        ∀ topic ∈ more.take (n - done.length), topic.length = 32 := by
  induction more with
  | nil => exact fun _ _ topic htopic => by simp at htopic
  | cons item more ih =>
      intro done e hdone hrun
      obtain ⟨k, hk⟩ : ∃ k, n - done.length = k + 1 := ⟨n - done.length - 1, by omega⟩
      have hlength : (done ++ [H256.fromSlice item]).length = done.length + 1 := by simp
      rw [hk, List.take_succ_cons, List.forall_mem_cons]
      by_cases hitem : item.length = 32
      · refine ⟨hitem, ?_⟩
        rw [advanced (advance_topic hitem)] at hrun
        by_cases hall : (done ++ [H256.fromSlice item]).length = n
        · rw [show k = 0 by omega, List.take_zero]
          exact fun topic htopic => by cases htopic
        · rw [if_neg hall] at hrun
          rw [show k = n - (done ++ [H256.fromSlice item]).length by omega]
          exact ih (by omega) hrun
      · rw [List.foldlM_cons] at hrun
        simp only [advance, ne_eq, hitem, not_false_eq_true, if_true] at hrun
        cases hrun

end EventParser

/-- Behind the tag stand an address, a number and as many topics as are there, if there are
no more of them than the number. -/
def Announces (rest : List Bytes) (n : Nat) (more : List Bytes) : Prop :=
  ∃ address byte, rest = address :: [byte] :: more ∧ address.length = 20 ∧ byte.toNat = n ∧
    ∀ topic ∈ more.take n, topic.length = 32

namespace EventParser

variable {X : Crates}

theorem advance_address {address : Bytes} (h : address.length = 20) :
    advance X tagged address = .ok ⟨.topicsLen, 0, ⟨Address.fromSlice address, [], []⟩⟩ := by
  simp only [advance, tagged, EventParser.default, h, ne_eq, not_true_eq_false, if_false]

theorem advance_byte (event : Log) (byte : UInt8) :
    advance X ⟨.topicsLen, 0, event⟩ [byte] =
      .ok ⟨if byte.toNat > 0 then .topics else .data, byte.toNat, event⟩ := rfl

/-- Whatever is announced so is found, with as many topics as are there. -/
theorem found_of_announces {rest more : List Bytes} {n : Nat} (h : Announces rest n more) :
    ∃ e, rest.foldlM (advance X) tagged = .ok e ∧ e.found = true ∧
      e.event.topics.length = min n more.length := by
  obtain ⟨address, byte, rfl, haddress, rfl, htopics⟩ := h
  rw [advanced (advance_address haddress), advanced (advance_byte _ byte)]
  by_cases hpos : byte.toNat > 0
  · rw [if_pos hpos]
    obtain ⟨e, hrun, hfound, hcount⟩ := run_topics (X := X) more [] hpos htopics
    exact ⟨e, hrun, hfound, by rw [hcount, List.length_nil, Nat.zero_add]⟩
  · rw [if_neg hpos]
    obtain ⟨data, hrun⟩ := run_data (X := X) byte.toNat more ⟨Address.fromSlice address, [], []⟩
    refine ⟨_, hrun, rfl, ?_⟩
    show 0 = min byte.toNat more.length
    omega

/-- Nothing else is found. -/
theorem announces_of_found {rest : List Bytes} {e : EventParser}
    (hrun : rest.foldlM (advance X) tagged = .ok e) (hfound : e.found = true) :
    ∃ n more, Announces rest n more := by
  cases rest with
  | nil =>
      cases hrun
      cases hfound
  | cons address rest =>
      by_cases haddress : address.length = 20
      · rw [advanced (advance_address haddress)] at hrun
        rcases rest with _ | ⟨_ | ⟨byte, _ | ⟨b, bytes⟩⟩, more⟩
        · cases hrun
          cases hfound
        · cases hrun
        · rw [advanced (advance_byte _ byte)] at hrun
          refine ⟨byte.toNat, more, address, byte, rfl, haddress, rfl, ?_⟩
          by_cases hpos : byte.toNat > 0
          · rw [if_pos hpos] at hrun
            exact run_topics_inv more hpos hrun
          · rw [show byte.toNat = 0 by omega, List.take_zero]
            exact fun topic htopic => by cases htopic
        · cases hrun
      · rw [List.foldlM_cons] at hrun
        simp only [advance, tagged, EventParser.default, ne_eq, haddress, not_false_eq_true,
          if_true] at hrun
        cases hrun

end EventParser

/-! ## A line -/

/-- One of the other four machines refuses the line. -/
def OthersRefuse (X : Crates) (log : String) : Prop :=
  (∃ e, consume X (ExitReasonParser.advance X) .default log = .error e) ∨
  (∃ e, consume X (GasValueParser.advance X) .default log = .error e) ∨
  (∃ e, consume X (GasPriceParser.advance X) .default log = .error e) ∨
  ∃ e, consume X (GasRecipientParser.advance X) .default log = .error e

theorem parse_single (X : Crates) (p : LogParser) (log : String) :
    p.parse X [log] = p.parseLine X log := by
  rw [LogParser.parse, List.foldlM_cons]
  cases p.parseLine X log <;> rfl

/-- A line that is parsed is refused by no machine. -/
theorem parseLine_inv {X : Crates} {p p' : LogParser} {log : String}
    (h : p.parseLine X log = .ok p') :
    ∃ event, consume X (EventParser.advance X) .default log = .ok event ∧
      p'.events = (if event.found then p.events ++ [event.event] else p.events) ∧
      ¬ OthersRefuse X log := by
  rw [LogParser.parseLine] at h
  obtain ⟨event, hevent, h⟩ := Except.ok_of_bind h
  obtain ⟨reason, hreason, h⟩ := Except.ok_of_bind h
  obtain ⟨value, hvalue, h⟩ := Except.ok_of_bind h
  obtain ⟨price, hprice, h⟩ := Except.ok_of_bind h
  obtain ⟨recipient, hrecipient, h⟩ := Except.ok_of_bind h
  cases h
  refine ⟨event, hevent, rfl, ?_⟩
  intro hrefuse
  rw [OthersRefuse, hreason, hvalue, hprice, hrecipient] at hrefuse
  simp at hrefuse

/-- And the other way round. -/
theorem parseLine_events {X : Crates} {log : String} {event : EventParser}
    (hevent : consume X (EventParser.advance X) .default log = .ok event)
    (hothers : ¬ OthersRefuse X log) (p : LogParser) :
    ∃ p', p.parseLine X log = .ok p' ∧
      p'.events = if event.found then p.events ++ [event.event] else p.events := by
  simp only [OthersRefuse, not_or, not_exists] at hothers
  obtain ⟨hreason, hvalue, hprice, hrecipient⟩ := hothers
  cases h1 : consume X (ExitReasonParser.advance X) .default log with
  | error e => exact absurd h1 (hreason e)
  | ok reason =>
      cases h2 : consume X (GasValueParser.advance X) .default log with
      | error e => exact absurd h2 (hvalue e)
      | ok value =>
          cases h3 : consume X (GasPriceParser.advance X) .default log with
          | error e => exact absurd h3 (hprice e)
          | ok price =>
              cases h4 : consume X (GasRecipientParser.advance X) .default log with
              | error e => exact absurd h4 (hrecipient e)
              | ok recipient => exact ⟨_, LogParser.parseLine_eq p hevent h1 h2 h3 h4, rfl⟩

theorem EventParser.run_items {X : Crates} {before rest : List Bytes}
    (hbefore : X.romeEvm.EVENT_LOG ∉ before) :
    (before ++ X.romeEvm.EVENT_LOG :: rest).foldlM (EventParser.advance X) .default =
      rest.foldlM (EventParser.advance X) EventParser.tagged := by
  have htag : EventParser.advance X .default X.romeEvm.EVENT_LOG = .ok EventParser.tagged := by
    simp only [EventParser.default, EventParser.advance, EventParser.tagged, if_true]
  rw [List.foldlM_append, (EventParser.waits X).passes_all hbefore]
  exact advanced htag rest

/-- The record is complete: an address of 20 bytes, one byte, that many topics of 32 bytes,
and at most one token for the data. -/
def Complete (rest : List Bytes) (n : Nat) : Prop :=
  ∃ address byte topics data, rest = address :: [byte] :: (topics ++ data) ∧
    address.length = 20 ∧ byte.toNat = n ∧ topics.length = n ∧
    (∀ topic ∈ topics, topic.length = 32) ∧ data.length ≤ 1

theorem complete_iff {rest : List Bytes} {n : Nat} :
    Complete rest n ↔ ∃ more, Announces rest n more ∧ n ≤ more.length ∧ more.length ≤ n + 1 := by
  constructor
  · intro ⟨address, byte, topics, data, hrest, haddress, hbyte, htopics, hall, hdata⟩
    refine ⟨topics ++ data, ⟨address, byte, hrest, haddress, hbyte, ?_⟩, ?_, ?_⟩
    · rw [← htopics, List.take_left]
      exact hall
    · rw [List.length_append]
      omega
    · rw [List.length_append]
      omega
  · intro ⟨more, ⟨address, byte, hrest, haddress, hbyte, hall⟩, hle, hge⟩
    refine ⟨address, byte, more.take n, more.drop n, ?_, haddress, hbyte, ?_, hall, ?_⟩
    · rw [List.take_append_drop, hrest]
    · rw [List.length_take]
      omega
    · rw [List.length_drop]
      omega

theorem Announces.unique {rest more more' : List Bytes} {n n' : Nat} (h : Announces rest n more)
    (h' : Announces rest n' more') : n = n' ∧ more = more' := by
  obtain ⟨address, byte, rfl, _, rfl, _⟩ := h
  obtain ⟨address', byte', hrest, _, rfl, _⟩ := h'
  cases hrest
  exact ⟨rfl, rfl⟩

/-- A line that adds an event has a complete record, and the event has its topics. -/
def OnlyComplete (X : Crates) (p : LogParser) (log : String) (items : List Bytes) : Prop :=
  ∀ p', p.parse X [log] = .ok p' → p'.events = p.events ∨
    ∃ event rest n, p'.events = p.events ++ [event] ∧ behindTag X items = some rest ∧
      Complete rest n ∧ event.topics.length = n

/-- The record is cut off among its topics, or goes on behind its data. -/
def Broken (X : Crates) (items : List Bytes) : Prop :=
  ∃ rest n more, behindTag X items = some rest ∧ Announces rest n more ∧
    (more.length < n ∨ n + 1 < more.length)

/-- A line becomes an event with a complete record only, exactly when its record is not one
that is cut off among the topics or goes on behind the data, or another machine refuses the
line. -/
theorem only_complete_iff {X : Crates} {log : String} {items : List Bytes}
    (hline : isProgramData log = true) (hitems : readItems X log = .ok items) (p : LogParser) :
    OnlyComplete X p log items ↔ ¬ Broken X items ∨ OthersRefuse X log := by
  have hread : consume X (EventParser.advance X) .default log =
      items.foldlM (EventParser.advance X) .default := consume_items hline hitems
  constructor
  · intro honly
    by_contra hnot
    simp only [not_or, not_not] at hnot
    obtain ⟨⟨rest, n, more, hbehind, hannounces, hlength⟩, hothers⟩ := hnot
    obtain ⟨e, hrun, hfound, _⟩ := EventParser.found_of_announces (X := X) hannounces
    rcases behindTag_cases X items with ⟨hnone, _⟩ | ⟨before, rest', hsome, hbefore, rfl⟩
    · rw [hnone] at hbehind
      cases hbehind
    · rw [hbehind] at hsome
      cases hsome
      rw [EventParser.run_items hbefore, hrun] at hread
      obtain ⟨p', hparse, hevents⟩ := parseLine_events hread hothers p
      rw [hfound, if_pos rfl] at hevents
      rcases honly p' (by rw [parse_single, hparse]) with hsame |
        ⟨event, rest', n', _, hsome, hcomplete, _⟩
      · have hlength := congrArg List.length (hevents.symm.trans hsame)
        simp at hlength
      · rw [hbehind] at hsome
        cases hsome
        obtain ⟨more', hannounces', hle, hge⟩ := complete_iff.mp hcomplete
        obtain ⟨rfl, rfl⟩ := hannounces.unique hannounces'
        omega
  · intro hcase p' hparse
    rw [parse_single] at hparse
    obtain ⟨e, he, hevents, hothers⟩ := parseLine_inv hparse
    have hwhole := hcase.resolve_right hothers
    rw [hread] at he
    by_cases hfound : e.found = true
    · rw [hfound, if_pos rfl] at hevents
      rcases behindTag_cases X items with ⟨_, htag⟩ | ⟨before, rest, hsome, hbefore, rfl⟩
      · rw [(EventParser.waits X).passes_all htag] at he
        cases he
        cases hfound
      · rw [EventParser.run_items hbefore] at he
        obtain ⟨n, more, hannounces⟩ := EventParser.announces_of_found he hfound
        obtain ⟨e', hrun, _, hcount⟩ := EventParser.found_of_announces (X := X) hannounces
        rw [he] at hrun
        cases hrun
        have hbounds : n ≤ more.length ∧ more.length ≤ n + 1 := by
          by_contra hnot
          exact hwhole ⟨rest, n, more, hsome, hannounces, by omega⟩
        refine .inr ⟨e.event, rest, n, hevents, hsome,
          complete_iff.mpr ⟨more, hannounces, hbounds⟩, ?_⟩
        rw [hcount]
        omega
    · rw [if_neg hfound] at hevents
      exact .inl hevents

/-! ## A record that is cut off -/

/-- Two topics are announced, and there is one. -/
def cutFields : List Bytes :=
  [standIns.romeEvm.EVENT_LOG, List.replicate 20 0, [2], List.replicate 32 0]

theorem readItems_cut : readItems standIns (dataLine cutFields) = .ok cutFields :=
  readItems_dataLine standIns_decodesBase64 cutFields

theorem parse_cut : LogParser.new.parse standIns [dataLine cutFields] =
    .ok { LogParser.new with events := [⟨0, [0], []⟩] } := by
  have hread : ∀ {σ : Type} (advance : σ → Bytes → ProgramResult σ) (st : σ),
      consume standIns advance st (dataLine cutFields) = cutFields.foldlM advance st :=
    fun _ _ => consume_items (isProgramData_dataLine cutFields) readItems_cut
  rw [parse_single]
  exact LogParser.parseLine_eq LogParser.new (hread _ _) (hread _ _) (hread _ _) (hread _ _)
    (hread _ _)

/-- The line becomes an event with one topic. -/
theorem cut_record_accepted :
    ¬ OnlyComplete standIns LogParser.new (dataLine cutFields) cutFields := by
  intro honly
  rcases honly _ parse_cut with hsame | ⟨event, rest, n, hevents, hbehind, hcomplete, hcount⟩
  · cases hsame
  · cases hevents
    have hrest : behindTag standIns cutFields = some cutFields.tail := by decide
    rw [hrest] at hbehind
    cases hbehind
    obtain ⟨address, byte, topics, data, hfields, _, hbyte, _⟩ := hcomplete
    have htwo : some [(2 : UInt8)] = some [byte] := congrArg (fun fields => fields[1]?) hfields
    cases htwo
    cases hbyte.trans hcount.symm

theorem only_complete_cut :
    OnlyComplete standIns LogParser.new (dataLine cutFields) cutFields ↔
      ¬ Broken standIns cutFields ∨ OthersRefuse standIns (dataLine cutFields) :=
  only_complete_iff (isProgramData_dataLine cutFields) readItems_cut LogParser.new

end RomeSdk
