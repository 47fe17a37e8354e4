import RomeSdk.Indexer.SolanaClient
import RomeSdk.Tx.Steps

/-!
# Sending a transaction step by step

`rome-solana/src/tower.rs`: the steps of a transaction are asked for one after another,
what they hold is sent, and the signatures are collected. The transactions of one step are
sent at the same time, so their results are what the chain makes of them, in the order of
the batch.

The state keeps a record of all results, which the code does not, to speak of what was
sent. A round of the loop, and one of the loop that waits for a slot, takes one unit of fuel;
without any left the call is still under way.
-/

namespace RomeSdk

/-- A `solana_client::client_error::ClientError`, as it displays. -/
abbrev ClientError := String

abbrev ClientResult (α : Type) := Except ClientError α

/-- The RPC client of the tower, over a chain with states `ω`. Sending includes the request for
the blockhash, and goes on until the transaction is confirmed or given up. -/
structure TowerClient (ω : Type) where
  sendAndConfirm : AtomicIxBatch → Pubkey → TxVersion → EStateM ClientError ω Signature
  sendAndConfirmWithSigners : AtomicIxBatch → Pubkey → List Pubkey →
    EStateM ClientError ω Signature
  getSlot : EStateM ClientError ω Slot

/-- What `send_and_confirm_tx_iterable` returns instead of signatures. -/
inductive SendError where
  | advance (failure : Failure)
  | client (e : ClientError)
  | iterativeTx (message : String)

structure SendState (ω τ : Type) where
  chain : ω
  tx : τ
  sigs : List Signature
  uncheckedSigs : List (ClientResult Signature)
  /-- the results of everything that was sent, in this order -/
  sent : List (ClientResult Signature)

/-- The signatures of what was sent successfully. -/
def signatures (results : List (ClientResult Signature)) : List Signature :=
  results.filterMap Except.toOption

namespace TowerClient

variable {ω τ : Type}

/-- `join_all` of the futures of a batch. -/
def sendAll (T : TowerClient ω) (payer : Pubkey) (version : TxVersion) :
    List AtomicIxBatch → ω → List (ClientResult Signature) × ω
  | [], chain => ([], chain)
  | batch :: batches, chain =>
      match T.sendAndConfirm batch payer version chain with
      | .ok sig chain =>
          let (results, chain) := T.sendAll payer version batches chain
          (.ok sig :: results, chain)
      | .error e chain =>
          let (results, chain) := T.sendAll payer version batches chain
          (.error e :: results, chain)

/-- The arm of `WaitNextSlot`. -/
def waitNextSlot (T : TowerClient ω) (slot : Slot) : Nat → ω → Option (ClientResult Unit × ω)
  | 0, _ => none
  | fuel + 1, chain =>
      match T.getSlot chain with
      | .error e chain => some (.error e, chain)
      | .ok current chain =>
          if slot < current then some (.ok (), chain) else T.waitNextSlot slot fuel chain

/-- The text of the error for a transaction that is not confirmed. -/
def notConfirmed (uncheckedSigs : List (ClientResult Signature)) : String :=
  let errs := uncheckedSigs.filterMap fun
    | .error e => some e
    | .ok _ => none
  let error := match errs.getLast? with
    | none => "tx execution is not completed or tx status unknown"
    | some e => e
  "Failed to send iterative tx: " ++ error

/-- The loop of `send_and_confirm_tx_iterable`. -/
def sendLoop (T : TowerClient ω) (advance : EStateM Failure τ IxExecStepBatch) (payer : Pubkey) :
    Nat → SendState ω τ → Option (Except SendError (List Signature)) × SendState ω τ
  | 0, s => (none, s)
  | fuel + 1, s =>
      match advance s.tx with
      | .error failure tx => (some (.error (.advance failure)), { s with tx })
      | .ok step tx =>
          match step with
          | .single batch version =>
              match T.sendAndConfirm batch payer version s.chain with
              | .error e chain =>
                  (some (.error (.client e)), { s with tx, chain, sent := s.sent ++ [.error e] })
              | .ok sig chain =>
                  T.sendLoop advance payer fuel
                    { s with tx, chain, sigs := s.sigs ++ [sig], sent := s.sent ++ [.ok sig] }
          | .singleWithSigners batch signers =>
              match T.sendAndConfirmWithSigners batch payer signers s.chain with
              | .error e chain =>
                  (some (.error (.client e)), { s with tx, chain, sent := s.sent ++ [.error e] })
              | .ok sig chain =>
                  T.sendLoop advance payer fuel
                    { s with tx, chain, sigs := s.sigs ++ [sig], sent := s.sent ++ [.ok sig] }
          | .parallel batches version =>
              let (results, chain) := T.sendAll payer version batches s.chain
              -- `collect` into a result: the first error is that of the batch
              match results.mapM id with
              | .error e =>
                  (some (.error (.client e)), { s with tx, chain, sent := s.sent ++ results })
              | .ok batchSigs =>
                  T.sendLoop advance payer fuel
                    { s with tx, chain, sigs := s.sigs ++ batchSigs, sent := s.sent ++ results }
          | .parallelUnchecked batches version =>
              let (results, chain) := T.sendAll payer version batches s.chain
              T.sendLoop advance payer fuel
                { s with tx, chain, uncheckedSigs := results, sent := s.sent ++ results }
          | .confirmationIterativeTx confirm =>
              if confirm then
                T.sendLoop advance payer fuel
                  { s with tx, sigs := s.sigs ++ signatures s.uncheckedSigs }
              else (some (.error (.iterativeTx (notConfirmed s.uncheckedSigs))), { s with tx })
          | .waitNextSlot slot =>
              match T.waitNextSlot slot fuel s.chain with
              | none => (none, { s with tx })
              | some (.error e, chain) => (some (.error (.client e)), { s with tx, chain })
              | some (.ok (), chain) => T.sendLoop advance payer fuel { s with tx, chain }
          | .end_ => (some (.ok s.sigs), { s with tx })

def sendAndConfirmTxIterable (T : TowerClient ω) (advance : EStateM Failure τ IxExecStepBatch)
    (payer : Pubkey) (fuel : Nat) (tx : τ) (chain : ω) :
    Option (Except SendError (List Signature)) × SendState ω τ :=
  T.sendLoop advance payer fuel ⟨chain, tx, [], [], []⟩

end TowerClient

end RomeSdk
