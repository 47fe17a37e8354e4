import RomeSdk.Parsers.BlockParser

/-!
# Blocks as the relayer sends them

`cast_block_response_to_ui_block` of `relayer/solana_block_storage.rs`, which makes
a Solana block of the answer of the relayer. Whether a transaction failed is a field
of bytes; a transaction that did not fail has none. How the body of a transaction
and the error in these bytes are read is in other crates.
-/

namespace RomeSdk

namespace RelayerSolanaBlockStorage

/-- The calls into other crates. The text of an error is its debug output. -/
structure Decoders where
  /-- `EncodedTransaction::decode` of a body, for a legacy encoding or not. -/
  decode : Bool → String → Option SolTransaction
  /-- `bincode::deserialize` for a `TransactionError`. -/
  deserialize : Bytes → Except String String

/-- `rome_relayer::EncodedTransaction` -/
structure EncodedTransaction where
  signature : String
  body : String
  isLegacy : Bool
  error : Option Bytes
  logs : List String
  deriving DecidableEq, Repr

structure GetBlockResponse where
  blockHash : String
  parentSlot : Slot
  prevBlockHash : String
  blockTime : Int
  txs : List EncodedTransaction
  finalized : Bool
  deriving DecidableEq, Repr

/-- `transpose` of an optional result. -/
def transpose {ε α : Type} : Option (Except ε α) → Except ε (Option α)
  | none => .ok none
  | some (.ok a) => .ok (some a)
  | some (.error e) => .error e

/-- `unwrap_or_default` for an optional value. -/
def unwrapOrDefault {ε α : Type} : Except ε (Option α) → Option α
  | .ok o => o
  | .error _ => none

/-- The closure that is mapped over the transactions, without the signature. -/
def castTransaction (D : Decoders) (tx : EncodedTransaction) :
    Option SolTransaction × Option UiTransactionStatusMeta :=
  let err := unwrapOrDefault (transpose (tx.error.map D.deserialize))
  (D.decode tx.isLegacy tx.body, some ⟨err, some tx.logs⟩)

/-- The block, and whether it is finalized. -/
def castBlockResponseToUiBlock (D : Decoders) (block : GetBlockResponse) :
    UiConfirmedBlock × Bool :=
  ({ previousBlockhash := block.prevBlockHash
     blockhash := block.blockHash
     parentSlot := block.parentSlot
     transactions := some (block.txs.map (castTransaction D))
     blockTime := some block.blockTime },
   block.finalized)

end RelayerSolanaBlockStorage

end RomeSdk
