import Mathlib.Data.BitVec

/-!
# Words, bytes, and how a call of the source ends

Hashes, addresses and 256-bit numbers are bit vectors; byte buffers are lists of
bytes; slots, `usize` offsets and block numbers are natural numbers, with the
two machine bounds named where the source can run into them.

A call of the source ends in one of three ways: a value, the error of a
`ProgramResult`, or a panic. `ProgramResult` is for the functions that cannot
panic, `Outcome` for those that can.
-/

namespace RomeSdk

abbrev Bytes := List UInt8
abbrev H256 := BitVec 256
abbrev TxHash := H256
abbrev Address := BitVec 160
abbrev U256 := BitVec 256
abbrev Slot := Nat

/-- `usize::MAX` and `u64::MAX` on the 64-bit targets the SDK is built for. -/
def usizeMax : Nat := 2 ^ 64 - 1

/-- `isize::MAX`, the most bytes a `Vec` can hold. -/
def isizeMax : Nat := 2 ^ 63 - 1

/-- The value of big-endian bytes. -/
def beNat (b : Bytes) : Nat := b.foldl (fun n x => 256 * n + x.toNat) 0

/-- The value of little-endian bytes. -/
def leNat : Bytes → Nat
  | [] => 0
  | x :: xs => x.toNat + 256 * leNat xs

/-- `to_le_bytes` of a number of `width` bytes. -/
def leBytes : Nat → Nat → Bytes
  | 0, _ => []
  | width + 1, n => UInt8.ofNat (n % 256) :: leBytes width (n / 256)

/-- `to_big_endian` into a buffer of `width` bytes. -/
def beBytes (width n : Nat) : Bytes := (leBytes width n).reverse

def H256.fromSlice (b : Bytes) : H256 := BitVec.ofNat 256 (beNat b)

def Address.fromSlice (b : Bytes) : Address := BitVec.ofNat 160 (beNat b)

def U256.fromBigEndian (b : Bytes) : U256 := BitVec.ofNat 256 (beNat b)

/-- The errors the modelled functions return. The payloads that come from other
crates are kept as the text they display. -/
inductive RomeEvmError where
  | custom (message : String)
  | logParserError (message : String)
  | base64DecodeError (message : String)
  | romeProgramError (message : String)
  | txDecodeError (message : String)
  | signatureError (message : String)
  | dieselError (message : String)
  | relayerError (status : String)
  | invalidSlot (message : String)
  | noChainId
  | addressLookupTableNotFound
  | unsupportedChainId (chainId : UInt64)
  deriving DecidableEq, Repr

/-- Why a call did not return a value. -/
inductive Failure where
  | err (error : RomeEvmError)
  | panic (message : String)
  deriving DecidableEq, Repr

abbrev ProgramResult (α : Type) := Except RomeEvmError α
abbrev Outcome (α : Type) := Except Failure α

/-- A `ProgramResult` read where a panic is possible as well. -/
def ProgramResult.toOutcome {α : Type} : ProgramResult α → Outcome α
  | .ok a => .ok a
  | .error e => .error (.err e)

/-- A call that did not panic: it returned a value or an error. -/
def Outcome.returned {α : Type} : Outcome α → Bool
  | .error (.panic _) => false
  | _ => true

end RomeSdk
