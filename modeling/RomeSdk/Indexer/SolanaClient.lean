import RomeSdk.Indexer.Storage

/-!
# The Solana client

`solana_client.rs`, the trait behind which the RPC nodes sit, and what the answer
of a node becomes in `multiplexed_solana_client.rs`. How long a client waits
between its attempts has no effect and is left out; the errors of the RPC crate
are kept as the text they display.
-/

namespace RomeSdk

inductive CommitmentLevel where
  | processed
  | confirmed
  | finalized
  deriving DecidableEq, Repr

inductive TransactionDetails where
  | full
  | signatures
  | none
  | accounts
  deriving DecidableEq, Repr

/-- The fields of `RpcBlockConfig` that differ from query to query. -/
structure RpcBlockConfig where
  transactionDetails : Option TransactionDetails
  commitment : CommitmentLevel
  deriving DecidableEq, Repr

abbrev Signature := Bytes

/-- `Signature::from_str`: at most 88 characters of base58, for 64 bytes. -/
def Signature.fromStr (X : Crates) (text : String) : Option Signature :=
  if 88 < text.utf8ByteSize then none
  else
    match X.bs58Decode text with
    | none => none
    | some bytes => if bytes.length = 64 then some bytes else none

/-- `GetConfirmedSignaturesForAddress2ConfigClone` -/
structure SignaturesConfig where
  before : Option Signature
  until_ : Option Signature
  limit : Option Nat
  commitment : Option CommitmentLevel
  deriving DecidableEq, Repr

/-- A block as a node sends it, with the signatures if these were asked for. -/
structure RpcBlock extends UiConfirmedBlock where
  signatures : Option (List String)
  deriving DecidableEq, Repr

/-- A transaction of a block, decoded, with its meta. -/
abbrev EncodedTransactionWithStatusMeta := Option SolTransaction × Option UiTransactionStatusMeta

/-- The calls of the trait, each with the number of attempts it is given. -/
structure SolanaClient (σ : Type) where
  getTransactionWithConfig :
    Signature → CommitmentLevel → Nat → Eff σ (Option EncodedTransactionWithStatusMeta)
  getSignaturesForAddressWithConfig : Pubkey → SignaturesConfig → Eff σ (List String)
  getBlockWithConfig : Slot → RpcBlockConfig → Nat → Eff σ (Option RpcBlock)
  getSlotWithCommitment : CommitmentLevel → Eff σ Slot

/-- `{:?}` of an error. Of an error of another crate only the text it displays is known. -/
def RomeEvmError.debug : RomeEvmError → String
  | .custom message => "Custom(" ++ message.quote ++ ")"
  | .logParserError message => "LogParserError(" ++ message.quote ++ ")"
  | .base64DecodeError message => "Base64DecodeError(" ++ message ++ ")"
  | .romeProgramError message => "RomeProgramError(" ++ message ++ ")"
  | .txDecodeError message => "TxDecodeError(" ++ message ++ ")"
  | .signatureError message => "SignatureError(" ++ message ++ ")"
  | .dieselError message => "DieselError(" ++ message ++ ")"
  | .relayerError status => "RelayerError(" ++ status ++ ")"
  | .invalidSlot message => "InvalidSlot(" ++ message ++ ")"
  | .noChainId => "NoChainId"
  | .addressLookupTableNotFound => "AddressLookupTableNotFound"
  | .unsupportedChainId chainId => "UnsupportedChainId(" ++ toString chainId.toNat ++ ")"

/-! ## The answers of the nodes -/

/-- `client_error::ErrorKind`, with `RpcError` spread out. -/
inductive ClientErrorKind where
  | serdeJson (message : String)
  | rpcResponseError (code : Int) (message : String)
  /-- any other `RpcError` -/
  | rpcError (message : String)
  /-- any other kind, as its debug text -/
  | other (debug : String)
  deriving DecidableEq, Repr

def processPlexResult {α : Type} (result : Except ClientErrorKind α) : Outcome (Option α) :=
  match result with
  | .ok val => .ok (some val)
  | .error (.serdeJson _) => .ok none
  | .error (.rpcResponseError code message) =>
      -- the node does not have the history of its transactions
      if code = -32011 then .error (.panic message)
      -- the slot was skipped
      else if code = -32007 then .ok none
      else .error (.err (.custom message))
  | .error (.rpcError _) => .ok none
  | .error (.other debug) => .error (.err (.custom debug))

end RomeSdk
