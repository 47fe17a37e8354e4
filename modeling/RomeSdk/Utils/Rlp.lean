import Mathlib.Data.Nat.Size
import RomeSdk.Basic

/-!
# 256-bit numbers as RLP items

`rome-utils/src/rlp.rs`. A number is written as its big-endian bytes without the leading
zero bytes. It is read from the bytes of an item that has at most 32 and does not begin with
a zero byte.
-/

namespace RomeSdk

/-- `rlp::DecoderError`; what `decode_value` itself finds wrong with an item is kept as its
name. -/
inductive DecoderError where
  | rlpInvalidIndirection
  | rlpIsTooBig
  | other (name : String)
  deriving DecidableEq, Repr

/-- What is used of the `rlp` crate. -/
structure RlpCrate where
  /-- The item that `s.append(&buffer)` writes. -/
  append : Bytes → Bytes
  /-- The bytes of an item that `decode_value` calls its closure with. -/
  decodeValue : Bytes → Except DecoderError Bytes

namespace Rlp

/-- `leading_zeros` -/
def leadingZeros (x : U256) : Nat := 256 - Nat.size x.toNat

def u256RlpAppend (R : RlpCrate) (this : U256) : Bytes :=
  let leadingEmptyBytes := leadingZeros this / 8
  let buffer := (beBytes 32 this.toNat).drop leadingEmptyBytes
  R.append buffer

/-- The closure of `u256`. -/
def readU256 (bytes : Bytes) : Except DecoderError U256 :=
  if bytes.head? = some 0 then .error .rlpInvalidIndirection
  else if bytes.length ≤ 32 then
    .ok (U256.fromBigEndian (List.replicate (32 - bytes.length) 0 ++ bytes))
  else .error .rlpIsTooBig

def u256 (R : RlpCrate) (rlp : Bytes) : Except DecoderError U256 := do
  let bytes ← R.decodeValue rlp
  readU256 bytes

end Rlp

end RomeSdk
