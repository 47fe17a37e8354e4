import RomeSdk.Crates
import RomeSdk.Da.Namespace

/-!
# Transactions as Celestia blobs

`rome-da/src/celestia`. Each transaction of the blocks becomes a blob: its RLP, compressed
with zlib, as base64, with a running number. What is in the namespace of a rollup is read by
`fetch_blobs_by_height`, whoever has put it there.
-/

namespace RomeSdk

/-- What the blobs need of other crates, beside the base64 they are written in. -/
structure DaCrates where
  /-- `tx.rlp()` -/
  rlp : Transaction → Bytes
  /-- `Transaction::decode(&Rlp::new(bytes))` -/
  decode : Bytes → Except String Transaction
  /-- `base64::decode` -/
  base64Decode : List Char → Except String Bytes
  /-- `ZlibEncoder::write_all` into a vector, and `finish` -/
  zlibEncode : Bytes → Except String Bytes
  /-- `ZlibDecoder::read_to_end` -/
  zlibDecode : Bytes → Except String Bytes
  /-- `Sha3_256` -/
  sha3 : Bytes → Bytes

structure DaSubmissionBlock where
  transactions : List Transaction

structure BlobParam where
  namespace_ : List Char
  data : List Char
  shareVersion : Int
  commitment : List Char
  index : Int
  deriving DecidableEq, Repr

namespace Blobs

variable (K : DaCrates)

/-- The `?` of a function that returns an `anyhow::Result`. -/
def propagate {α : Type} : Except String α → Outcome α
  | .ok a => .ok a
  | .error e => .error (.err (.custom e))

def unwrap {α : Type} : Except String α → Outcome α
  | .ok a => .ok a
  | .error e => .error (.panic ("called `Result::unwrap()` on an `Err` value: " ++ e))

def deriveCommitment (data : List Char) : List Char := Base64.encode (K.sha3 (utf8 data))

def compressData (streamout : Bytes) : Except String Bytes := K.zlibEncode streamout

def decompressData (compressedData : Bytes) : Except String Bytes := K.zlibDecode compressedData

/-- `index += 1` on an `i32`. -/
def increment (index : Int) : Outcome Int :=
  if index < 2147483647 then .ok (index + 1)
  else .error (.panic "attempt to add with overflow")

/-- The inner loop of `compress_blocks_to_blobs`, on the blobs so far and the index. -/
def pushBlob (namespace_ : List Char) (s : List BlobParam × Int) (transaction : Transaction) :
    Outcome (List BlobParam × Int) := do
  let txData ← propagate (compressData K (K.rlp transaction))
  let data := Base64.encode txData
  let blob : BlobParam :=
    { namespace_ := namespace_
      data := data
      shareVersion := 0
      commitment := deriveCommitment K data
      index := s.2 }
  let index ← increment s.2
  pure (s.1 ++ [blob], index)

def compressBlocksToBlobs (namespace_ : List Char) (blocks : List DaSubmissionBlock) :
    Outcome (List BlobParam) := do
  let s ← blocks.foldlM (fun s block => block.transactions.foldlM (pushBlob K namespace_) s)
    (([], 0) : List BlobParam × Int)
  pure s.1

def decodeBlobToTx (blob : BlobParam) : Except String Transaction := do
  let data ← K.base64Decode blob.data
  let txData ← decompressData K data
  K.decode txData

end Blobs

/-- Why a call that needs the namespace ends where there is none. -/
def NamespaceFailure.failure : NamespaceFailure → Failure
  | .fromHexError => .err (.custom "FromHexError")
  | .copyFromSlice => .panic "source slice length does not match destination slice length"

namespace RomeDaClient

def namespaceOrFailure (c : RomeDaClient) : Outcome (List Char) :=
  match c.getNamespace with
  | .ok ns => .ok ns
  | .error e => .error e.failure

/-- `request` is what the node answers to `blob.GetAll`. -/
def fetchBlobsByHeight (c : RomeDaClient) (K : DaCrates)
    (request : UInt64 → List Char → Except String (List BlobParam)) (height : UInt64) :
    Outcome (List Transaction) := do
  let ns ← c.namespaceOrFailure
  let res ← Blobs.propagate (request height ns)
  res.mapM fun blob => Blobs.unwrap (Blobs.decodeBlobToTx K blob)

end RomeDaClient

end RomeSdk
