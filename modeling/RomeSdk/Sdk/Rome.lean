import Mathlib.Logic.Function.Basic
import RomeSdk.Solana.Tower
import RomeSdk.Tx.CrossTx
import RomeSdk.Tx.Resources

/-!
# Composing transactions over several rollups, and sending transactions

`rome-sdk/src/rome.rs`: every Ethereum transaction becomes an instruction of one Solana
transaction. For each of them the loop locks a resource of its rollup, the first of which
is kept and pays for all; the others go back at the end of their round, and the first one
when the composition is over, since only its payer is still needed.

A composition is looked at with nobody else at the pools. `lock_resource` yields and
tries again as long as the pool is empty, so one that finds it empty does not return.
-/

namespace RomeSdk

/-- A signed Ethereum transaction, down to its chain and its signed rlp. -/
structure EthSignedTxTuple where
  chainId : Option UInt64
  signedRlpBytes : Bytes

/-- Names a pool; the clones of a builder share one. -/
abbrev PoolId := Nat

/-- What a composition uses of a `TxBuilder`. -/
structure RollupBuilder where
  txBuilder : TxBuilder
  /-- `is_atomic` of the emulation -/
  isAtomic : Bytes → Pubkey → Bool
  /-- the pool of its `resource_factory` -/
  pool : PoolId

/-- The resources that are free, the top of a pool last. A payer is known by its key. -/
abbrev Pools := PoolId → List (ResourceItem Pubkey)

/-- A `Resource`, with the pool it goes back to. -/
structure LockedResource where
  item : ResourceItem Pubkey
  factory : PoolId

namespace LockedResource

def payerKey (r : LockedResource) : Pubkey := r.item.payerKeypair

def feeRecipient (r : LockedResource) : Bytes :=
  match r.item.feeRecipient with
  | none => [0]
  | some address => 1 :: beBytes 20 address.toNat

def drop (r : LockedResource) (pools : Pools) : Pools :=
  Function.update pools r.factory (pools r.factory ++ [r.item])

end LockedResource

/-- One turn of the loop in `ResourceFactory::get`. -/
def lockResource (pools : Pools) (id : PoolId) : Option (LockedResource × Pools) :=
  (pools id).getLast?.map fun item =>
    (⟨item, id⟩, Function.update pools id (pools id).dropLast)

/-- A turn is the one of the factory. Where it gets nothing it changes nothing, and so does
the next one. -/
theorem lockResource_eq_get {Client : Type} (pools : Pools) (id : PoolId) (client : Client)
    (s : ResourceFactory Pubkey Client) (h : s.pool = pools id) :
    (lockResource pools id = none → s.get client = s) ∧
    ∀ r pools', lockResource pools id = some (r, pools') →
      s.get client = ⟨pools' id, s.live ++ [(client, r.item)]⟩ := by
  rw [lockResource, ResourceFactory.get, h]
  cases (pools id).getLast? with
  | none => simp
  | some item =>
      refine ⟨by simp, fun r pools' hsome => ?_⟩
      cases hsome
      simp

namespace RollupBuilder

/-- The instruction of a transaction that `resource` pays for. -/
def composeIx (X : Crates) (builder : RollupBuilder) (resource : LockedResource)
    (tx : EthSignedTxTuple) : ProgramResult Instruction := do
  let data := X.romeEvm.tag .doTx :: (resource.feeRecipient ++ tx.signedRlpBytes)
  let emulation ← builder.txBuilder.emulate data resource.payerKey
  if builder.isAtomic data resource.payerKey then
    pure (builder.txBuilder.buildIx emulation data)
  else throw (.custom "Transaction is too large or expensive")

end RollupBuilder

/-- How a composition ends, if it does. -/
inductive Composition (α : Type) where
  | composed (tx : α)
  | failed (e : RomeEvmError)
  /-- a resource was to be locked, and the pool was empty -/
  | waits (pool : PoolId)

/-- It does not end. -/
def Composition.Waits {α : Type} (c : Composition α) : Prop := ∃ pool, c = .waits pool

structure Rome where
  rollupBuilders : UInt64 → Option RollupBuilder

namespace Rome

def getTransactionBuilder (R : Rome) (chainId : UInt64) : ProgramResult RollupBuilder :=
  match R.rollupBuilders chainId with
  | none => .error (.unsupportedChainId chainId)
  | some builder => .ok builder

def getTransactionBuilderForTx (R : Rome) (tx : EthSignedTxTuple) : ProgramResult RollupBuilder :=
  match tx.chainId with
  | none => .error .noChainId
  | some chainId => R.getTransactionBuilder chainId

/-- The loop of both functions. -/
def composeLoop (R : Rome) (X : Crates) :
    List EthSignedTxTuple → Option LockedResource → List Instruction → Pools →
      Composition (List Instruction × Option LockedResource) × Pools
  | [], resource, instructions, pools => (.composed (instructions, resource), pools)
  | tx :: txs, resource, instructions, pools =>
      match R.getTransactionBuilderForTx tx with
      | .error e =>
          (.failed e, match resource with
            | none => pools
            | some held => held.drop pools)
      | .ok builder =>
          match lockResource pools builder.pool with
          | none => (.waits builder.pool, pools)
          | some (currentResource, pools) =>
              let held := resource.getD currentResource
              -- the end of the scope of `current_resource`, unless it was kept
              let pools := if resource.isSome then currentResource.drop pools else pools
              match builder.composeIx X held tx with
              | .error e => (.failed e, held.drop pools)
              | .ok ix => composeLoop R X txs (some held) (instructions ++ [ix]) pools

/-- What both functions do with the instructions and the resource. -/
def compose {α : Type} (R : Rome) (X : Crates) (B : ComputeBudget) (txs : List EthSignedTxTuple)
    (build : List Instruction → Pubkey → α) (pools : Pools) : Composition α × Pools :=
  match R.composeLoop X txs none [B.setComputeUnitLimit 1400000, B.requestHeapFrame (256 * 1024)]
      pools with
  | (.composed (_, none), pools) =>
      (.failed (.custom "Failed to acquire resource for Solana transaction"), pools)
  | (.composed (instructions, some resource), pools) =>
      (.composed (build instructions resource.payerKey), resource.drop pools)
  | (.failed e, pools) => (.failed e, pools)
  | (.waits pool, pools) => (.waits pool, pools)

def composeCrossRollupTx (R : Rome) (X : Crates) (B : ComputeBudget)
    (tx : List EthSignedTxTuple) (pools : Pools) : Composition CrossRollupTx × Pools :=
  R.compose X B tx CrossRollupTx.new pools

def composeCrossChainTx (R : Rome) (X : Crates) (B : ComputeBudget)
    (ethTxs : List EthSignedTxTuple) (solIxs : List Instruction) (signers : List Pubkey)
    (pools : Pools) : Composition CrossChainTx × Pools :=
  R.compose X B ethTxs (fun instructions payer => .new (instructions ++ solIxs) payer signers) pools

end Rome

/-! ## Sending what is composed -/

/-- What `send_and_confirm` ends in without a signature. -/
inductive SendFailure where
  | err (e : SendError)
  | panic (message : String)

/-- `send_and_confirm`, which hands on the last signature. -/
def Rome.sendAndConfirm {ω τ : Type} (T : TowerClient ω)
    (advance : EStateM Failure τ IxExecStepBatch) (payer : Pubkey) (fuel : Nat) (tx : τ)
    (chain : ω) : Option (Except SendFailure Signature) :=
  (T.sendAndConfirmTxIterable advance payer fuel tx chain).1.map fun result =>
    match result with
    | .error e => .error (.err e)
    | .ok sigs =>
        match sigs.getLast? with
        | none => .error (.panic "called `Option::unwrap()` on a `None` value")
        | some sig => .ok sig

end RomeSdk
