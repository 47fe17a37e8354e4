import RomeSdk.PgStorage.BlockParamsText

/-!
# Block parameters written and read back

What `to_pg_literal` writes is taken apart again at its commas, since neither a hash
nor a number has one, and every item of it is read as what it was, except for the
one of a parent hash that is not there: its four letters are an item like any other,
and the hash they are read as is none.
-/

namespace RomeSdk

theorem comma_notMem_toString (n : Nat) : ',' ∉ (toString n).toList := by
  intro h
  have hdigit := Texts.isDigit_of_mem_toString h
  revert hdigit
  decide

namespace PgStorage

variable {H : HexCodec}

/-- How the hash of the parent is written, if there is one. -/
def parentText (H : HexCodec) (parentHash : Option H256) : String :=
  match parentHash with
  | some ph => H.encodeHex ph
  | none => "NULL"

theorem toList_parentText (hH : H.Documented) (parentHash : Option H256) :
    (parentText H parentHash).toList ≠ [] ∧ (parentText H parentHash).toList.length ≤ 66 ∧
      ',' ∉ (parentText H parentHash).toList := by
  cases parentHash with
  | none => exact ⟨by simp [parentText], by simp [parentText], by simp [parentText]⟩
  | some ph =>
      rw [parentText, hH.written]
      refine ⟨?_, Nat.le_of_eq ph.length_debug, ph.comma_notMem_debug⟩
      rw [H256.toList_debug]
      exact List.cons_ne_nil _ _

/-- The items of a text between parentheses. -/
theorem compositeItems_intercalate {items : List (List Char)} (hne : items ≠ [])
    (hcomma : ∀ item ∈ items, ',' ∉ item) :
    compositeItems ('(' :: ([','].intercalate items ++ [')']))
      = some (items.map fun item => if item = [] then none else some item) := by
  rw [compositeItems, List.getLast?_concat, if_pos rfl, List.dropLast_concat,
    List.splitOn_intercalate ',' hcomma hne]

theorem toList_toPgLiteral (p : BlockParams) :
    (p.toPgLiteral H).toList = '(' :: ([','].intercalate
      [(H.encodeHex p.hash).toList, (parentText H p.parentHash).toList, (toString p.number).toList,
        (toString p.timestamp.toNat).toList] ++ [')']) := by
  have hparens : "(".toList = ['('] ∧ ",".toList = [','] ∧ ")".toList = [')'] := by simp
  simp only [BlockParams.toPgLiteral, String.toList_append, hparens, List.intercalate,
    List.intersperse, List.flatten_cons, List.flatten_nil, List.append_assoc, List.cons_append,
    List.nil_append]
  rfl

theorem castBlockParams_toPgLiteral (hH : H.Documented) {p : BlockParams}
    (hnumber : p.number < 2 ^ 63) :
    castBlockParams (p.toPgLiteral H) = .ok ⟨some (H.encodeHex p.hash),
      some (parentText H p.parentHash), some p.number, some p.timestamp.toNat⟩ := by
  obtain ⟨hparent, hlength, hcomma⟩ := toList_parentText hH p.parentHash
  have hhash : (H.encodeHex p.hash).toList ≠ [] ∧ (H.encodeHex p.hash).toList.length ≤ 66 ∧
      ',' ∉ (H.encodeHex p.hash).toList := toList_parentText hH (some p.hash)
  have hitems : ∀ item ∈ [(H.encodeHex p.hash).toList, (parentText H p.parentHash).toList,
      (toString p.number).toList, (toString p.timestamp.toNat).toList], ',' ∉ item := by
    intro item hitem
    simp only [List.mem_cons, List.not_mem_nil, or_false] at hitem
    rcases hitem with rfl | rfl | rfl | rfl
    · exact hhash.2.2
    · exact hcomma
    · exact comma_notMem_toString _
    · exact comma_notMem_toString _
  rw [castBlockParams, toList_toPgLiteral,
    compositeItems_intercalate (List.cons_ne_nil _ _) hitems]
  simp only [List.map_cons, List.map_nil, if_neg hhash.1, if_neg hparent,
    if_neg (Texts.toString_ne_nil _), readVarchar, readBigint, readNumeric, if_pos hhash.2.1,
    if_pos hlength, Texts.readDecimal_toString, if_pos hnumber, String.ofList_toList]
  rfl

/-- Through the text the parameters come back as the columns are kept elsewhere. -/
theorem writeAndRead_eq (hH : H.Documented) (columns : HeaderColumns) {p : BlockParams}
    (hnumber : p.number < 2 ^ 63) :
    writeAndRead H columns p = fromBlockHeaderRow ⟨columns.blockGasUsed, columns.gasRecipient,
      columns.slotTimestamp, p.hash, p.parentHash, p.number⟩ := by
  obtain ⟨hash, parentHash, number, timestamp⟩ := p
  rw [writeAndRead, castBlockParams_toPgLiteral hH hnumber]
  simp only [bind, Except.bind, loadHeaderRow, fromBlockHeaderTextRow, fromBlockHeaderRow,
    parseHash, hH.read]
  cases parentHash with
  | none =>
      have hnull : H.fromStr "NULL" = none :=
        hH.rejects _ ⟨'N', by simp, by decide, by decide, by decide⟩
      simp only [parentText, hnull]
  | some ph =>
      simp only [parentText, hH.read]
      rfl

/-- The parameters of a block come back from the database if they name a parent. -/
theorem block_params_survive_iff (hH : H.Documented) (columns : HeaderColumns) {p : BlockParams}
    (hnumber : p.number < 2 ^ 63)
    (htime : columns.slotTimestamp.map U256.fromTimestamp = some (.ok p.timestamp)) :
    (∃ ethBlock, writeAndRead H columns p = .ok ethBlock ∧ ethBlock.blockParams = some p) ↔
      p.parentHash.isSome = true := by
  obtain ⟨time, hslot, htime⟩ := Option.map_eq_some_iff.mp htime
  rw [writeAndRead_eq hH columns hnumber, fromBlockHeaderRow]
  obtain ⟨hash, parentHash, number, timestamp⟩ := p
  cases parentHash with
  | none =>
      constructor
      · intro h
        obtain ⟨_, h, _⟩ := h
        cases h
      · intro h
        cases h
  | some ph =>
      refine ⟨fun _ => rfl, fun _ => ?_⟩
      simp only [bind, Except.bind, pure, Except.pure, hslot, expectTimestamp, htime]
      exact ⟨_, rfl, rfl⟩

end PgStorage

/-! ## Two blocks -/

namespace PlainHex

def columns : PgStorage.HeaderColumns := ⟨0, none, some 1⟩

theorem child_survives : (∃ ethBlock,
    PgStorage.writeAndRead codec columns ⟨3, some 2, 7, 1⟩ = .ok ethBlock ∧
      ethBlock.blockParams = some ⟨3, some 2, 7, 1⟩) ↔ (some 2 : Option H256).isSome = true :=
  PgStorage.block_params_survive_iff codec_documented columns (p := ⟨3, some 2, 7, 1⟩) (by decide) rfl

/-- The parameters of a first block cannot be read back. -/
theorem first_block_panics :
    PgStorage.writeAndRead codec columns ⟨3, none, 7, 1⟩
        = .error (.panic "DB data corrupted: Failed to parse parent_hash") ∧
      ¬ ∃ ethBlock, PgStorage.writeAndRead codec columns ⟨3, none, 7, 1⟩ = .ok ethBlock ∧
        ethBlock.blockParams = some ⟨3, none, 7, 1⟩ := by
  have hrun : PgStorage.writeAndRead codec columns ⟨3, none, 7, 1⟩
      = .error (.panic "DB data corrupted: Failed to parse parent_hash") :=
    PgStorage.writeAndRead_eq codec_documented columns (by decide)
  refine ⟨hrun, ?_⟩
  rintro ⟨ethBlock, h, _⟩
  rw [hrun] at h
  cases h

end PlainHex

end RomeSdk
