import RomeSdk.HexCodec
import RomeSdk.PgStorage.ReadMethods

/-!
# Block parameters as text

`eth_block.params` is a composite value. It is written as a text, which the
procedure `block_produced` casts to the type, and read back column by column. The
parameters of the tables are kept as values elsewhere; here is what they go through
on the way.
-/

namespace RomeSdk

/-- `to_pg_literal` -/
def BlockParams.toPgLiteral (H : HexCodec) (p : BlockParams) : String :=
  let parentHash := match p.parentHash with
    | some ph => H.encodeHex ph
    | none => "NULL"
  "(" ++ H.encodeHex p.hash ++ "," ++ parentHash ++ "," ++ toString p.number ++ ","
    ++ toString p.timestamp.toNat ++ ")"

namespace PgStorage

/-! ## The composite type -/

/-- The type `BlockParams` of the database. Each of its columns may be null. -/
structure PgBlockParams where
  blockhash : Option String
  parentHash : Option String
  number : Option Nat
  blockTimestamp : Option Nat
  deriving DecidableEq, Repr

/-- The items of the text of a composite value: they stand between parentheses,
separated by commas, and only the empty one is a null. -/
def compositeItems (text : List Char) : Option (List (Option (List Char))) :=
  match text with
  | '(' :: rest =>
      if rest.getLast? = some ')' then
        some ((rest.dropLast.splitOn ',').map fun item => if item = [] then none else some item)
      else none
  | _ => none

/-- An item as a `VARCHAR(66)`. -/
def readVarchar : Option (List Char) → Outcome (Option String)
  | none => .ok none
  | some item =>
      if item.length ≤ 66 then .ok (some (String.ofList item))
      else .error (.err (.dieselError "value too long for type character varying(66)"))

/-- An item as a `BIGINT`. -/
def readBigint : Option (List Char) → Outcome (Option Nat)
  | none => .ok none
  | some item =>
      match Texts.readDecimal item with
      | none => .error (.err (.dieselError "invalid input syntax for type bigint"))
      | some n =>
          if n < 2 ^ 63 then .ok (some n)
          else .error (.err (.dieselError "value is out of range for type bigint"))

/-- An item as a `NUMERIC`. -/
def readNumeric : Option (List Char) → Outcome (Option Nat)
  | none => .ok none
  | some item =>
      match Texts.readDecimal item with
      | none => .error (.err (.dieselError "invalid input syntax for type numeric"))
      | some n => .ok (some n)

/-- `params_val::blockparams` -/
def castBlockParams (text : String) : Outcome PgBlockParams :=
  match compositeItems text.toList with
  | some [blockhash, parentHash, number, blockTimestamp] => do
      let blockhash ← readVarchar blockhash
      let parentHash ← readVarchar parentHash
      let number ← readBigint number
      let blockTimestamp ← readNumeric blockTimestamp
      pure ⟨blockhash, parentHash, number, blockTimestamp⟩
  | _ => .error (.err (.dieselError "malformed record literal"))

/-! ## Reading a row -/

/-- The columns of `eth_block` beside `params`. -/
structure HeaderColumns where
  blockGasUsed : U256
  gasRecipient : Option Address
  slotTimestamp : Option Int
  deriving DecidableEq, Repr

/-- `BlockHeaderRow`, with the columns of `params` as the texts they are. -/
structure BlockHeaderTextRow extends HeaderColumns where
  blockhash : String
  parentHash : Option String
  number : Nat
  deriving DecidableEq, Repr

/-- A row of `get_block_header2` as the client loads it: two of its columns must not
be null. -/
def loadHeaderRow (columns : HeaderColumns) (params : PgBlockParams) : Outcome BlockHeaderTextRow :=
  match params.blockhash, params.number with
  | some blockhash, some number => .ok ⟨columns, blockhash, params.parentHash, number⟩
  | _, _ => .error (.err (.dieselError "Unexpected null for non-null column"))

def parseHash (H : HexCodec) (text message : String) : Outcome H256 :=
  match H.fromStr text with
  | some hash => .ok hash
  | none => .error (.panic message)

/-- `EthBlock::from_block_header_row` -/
def fromBlockHeaderTextRow (H : HexCodec) (row : BlockHeaderTextRow) : Outcome EthBlock := do
  let hash ← parseHash H row.blockhash "DB data corrupted: Failed to parse blockhash"
  let parentHash ← match row.parentHash with
    | some text => do
        let parentHash ← parseHash H text "DB data corrupted: Failed to parse parent_hash"
        pure (some parentHash)
    | none => pure none
  let timestamp ← expectTimestamp row.slotTimestamp
    ("DB data corrupted: slot timestamp is not set for block " ++ toString row.number)
  pure {
    blockGasUsed := row.blockGasUsed
    transactions := []
    gasRecipient := row.gasRecipient
    slotTimestamp := row.slotTimestamp
    blockParams := some ⟨hash, parentHash, row.number, timestamp⟩ }

/-- The parameters written to a row and read back with it. -/
def writeAndRead (H : HexCodec) (columns : HeaderColumns) (p : BlockParams) : Outcome EthBlock := do
  let params ← castBlockParams (p.toPgLiteral H)
  let row ← loadHeaderRow columns params
  fromBlockHeaderTextRow H row

end PgStorage

end RomeSdk
