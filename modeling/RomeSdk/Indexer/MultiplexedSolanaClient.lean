import RomeSdk.Indexer.SolanaBlockLoader

/-!
# Several providers behind one client

`multiplexed_solana_client.rs`. A request goes to all providers at once, and the
first one that has a value is taken. When none has, the error of the last provider
in the list is taken, whatever the others have answered. What it is read as is the
table of `process_plex_result`: an error after which the request is made again, or
the answer that there is nothing.

A provider is given by what it answers to the attempts of a request, one after the
other; the attempt that goes to the emergency providers is the last one.
-/

namespace RomeSdk

/-- An RPC client with its node. -/
structure RpcClient where
  getTransactionWithConfig : Signature → CommitmentLevel → Nat →
    Except ClientErrorKind EncodedTransactionWithStatusMeta
  getSignaturesForAddressWithConfig : Pubkey → SignaturesConfig →
    Except ClientErrorKind (List String)
  getBlockWithConfig : Slot → RpcBlockConfig → Nat → Except ClientErrorKind RpcBlock
  getSlotWithCommitment : CommitmentLevel → Except ClientErrorKind Slot

structure MultiplexedSolanaClient where
  providers : List RpcClient
  emergencyProviders : Option (List RpcClient)
  /-- Which of the providers that have a value is the first, in each attempt. -/
  fastest : Nat → Nat

namespace MultiplexedSolanaClient

variable {σ α : Type}

/-- The values among the answers. -/
def valuesOf (answers : List (Except ClientErrorKind α)) : List α :=
  answers.filterMap fun answer =>
    match answer with
    | .ok value => some value
    | .error _ => none

/-- The errors among the answers. -/
def errorsOf (answers : List (Except ClientErrorKind α)) : List ClientErrorKind :=
  answers.filterMap fun answer =>
    match answer with
    | .ok _ => none
    | .error kind => some kind

/-- What the answers of the providers come to. -/
def settleAnswers (answers : List (Except ClientErrorKind α)) (fastest : Nat) :
    Except ClientErrorKind α :=
  match valuesOf answers with
  | value :: values => .ok ((value :: values).getD fastest value)
  | [] =>
      match (errorsOf answers).getLast? with
      | some kind => .error kind
      | none => .error (.other ("Custom(" ++ "All providers failed: []".quote ++ ")"))

def plex (providers : List RpcClient) (op : RpcClient → Except ClientErrorKind α)
    (fastest : Nat) : Except ClientErrorKind α :=
  settleAnswers (providers.map op) fastest

/-- An attempt with the usual providers. -/
def attemptOnce (C : MultiplexedSolanaClient) (op : RpcClient → Nat → Except ClientErrorKind α)
    (attempt : Nat) : Outcome (Option α) :=
  processPlexResult (plex C.providers (fun client => op client attempt) (C.fastest attempt))

/-- What is left when the attempts are used up. -/
def lastResort (C : MultiplexedSolanaClient) (opName : String)
    (op : RpcClient → Nat → Except ClientErrorKind α) (attempt : Nat) : Outcome (Option α) :=
  match C.emergencyProviders with
  | some emergencyProviders =>
      processPlexResult
        (plex emergencyProviders (fun client => op client attempt) (C.fastest attempt))
  | none => .error (.err (.custom ("plex_with_retries(" ++ opName.quote ++ ") retries exhausted")))

/-- An error is followed by what comes `next`; anything else is the result. -/
def unlessErr (result next : Outcome (Option α)) : Outcome (Option α) :=
  match result with
  | .ok res => .ok res
  | .error (.panic message) => .error (.panic message)
  | .error (.err _) => next

theorem unlessErr_of_err {result : Outcome (Option α)} (h : ∃ e, result = .error (.err e))
    (next : Outcome (Option α)) : unlessErr result next = next := by
  obtain ⟨e, rfl⟩ := h
  rfl

theorem unlessErr_of_not_err {result : Outcome (Option α)} (h : ¬ ∃ e, result = .error (.err e))
    (next : Outcome (Option α)) : unlessErr result next = result := by
  cases result with
  | ok value => rfl
  | error failure =>
      cases failure with
      | err e => exact absurd ⟨e, rfl⟩ h
      | panic message => rfl

/-- The first number is that of the attempts that remain, the second that of the
attempts that were made. -/
def plexWithRetries (C : MultiplexedSolanaClient) (opName : String)
    (op : RpcClient → Nat → Except ClientErrorKind α) : Nat → Nat → Outcome (Option α)
  | 0, attempt =>
      unlessErr (C.attemptOnce op attempt) (.error (.panic "attempt to subtract with overflow"))
  | 1, attempt => unlessErr (C.attemptOnce op attempt) (C.lastResort opName op (attempt + 1))
  | retriesRemaining + 2, attempt =>
      unlessErr (C.attemptOnce op attempt)
        (C.plexWithRetries opName op (retriesRemaining + 1) (attempt + 1))

def getTransactionWithConfig (C : MultiplexedSolanaClient) (signature : Signature)
    (commitment : CommitmentLevel) (numRetries : Nat) :
    Outcome (Option EncodedTransactionWithStatusMeta) :=
  C.plexWithRetries "get_transaction_with_config"
    (fun client => client.getTransactionWithConfig signature commitment) numRetries 0

def getBlockWithConfig (C : MultiplexedSolanaClient) (slot : Slot) (config : RpcBlockConfig)
    (numRetries : Nat) : Outcome (Option RpcBlock) :=
  C.plexWithRetries "get_block_with_config"
    (fun client => client.getBlockWithConfig slot config) numRetries 0

/-- A client error, as `?` returns it. -/
def clientResult (fromClientError : ClientErrorKind → RomeEvmError) :
    Except ClientErrorKind α → Outcome α
  | .ok value => .ok value
  | .error kind => .error (.err (fromClientError kind))

/-- The client as the block loader sees it. -/
def solanaClient (C : MultiplexedSolanaClient) (fromClientError : ClientErrorKind → RomeEvmError) :
    SolanaClient σ where
  getTransactionWithConfig signature commitment numRetries :=
    SolanaBlockLoader.liftOutcome (C.getTransactionWithConfig signature commitment numRetries)
  getSignaturesForAddressWithConfig address config :=
    SolanaBlockLoader.liftOutcome (clientResult fromClientError (plex C.providers
      (fun client => client.getSignaturesForAddressWithConfig address config) (C.fastest 0)))
  getBlockWithConfig slot config numRetries :=
    SolanaBlockLoader.liftOutcome (C.getBlockWithConfig slot config numRetries)
  getSlotWithCommitment commitment :=
    SolanaBlockLoader.liftOutcome (clientResult fromClientError (plex C.providers
      (fun client => client.getSlotWithCommitment commitment) (C.fastest 0)))

end MultiplexedSolanaClient

end RomeSdk
