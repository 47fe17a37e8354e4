import RomeSdk.Tx.Steps

/-!
# Transactions over several rollups

`tx/cross_rollup_atomic.rs` and `tx/cross_chain_atomic.rs`: all instructions go into one
Solana transaction, which is the only step there is. A payer and a signer are known by
their keys.
-/

namespace RomeSdk

structure CrossRollupTx where
  instructions : AtomicIxBatch
  complete : Bool
  payer : Pubkey

namespace CrossRollupTx

def new (instructions : AtomicIxBatch) (payer : Pubkey) : CrossRollupTx :=
  ⟨instructions, false, payer⟩

def advance : EStateM Failure CrossRollupTx IxExecStepBatch := do
  let tx ← get
  if tx.complete then pure .end_
  else
    set { tx with complete := true }
    pure (.single tx.instructions .legacy)

def advanceTx : AdvanceTx CrossRollupTx :=
  ⟨advance, fun _ => throw (.panic "internal error: entered unreachable code")⟩

end CrossRollupTx

structure CrossChainTx where
  instructions : AtomicIxBatch
  complete : Bool
  payer : Pubkey
  signers : List Pubkey

namespace CrossChainTx

def new (instructions : AtomicIxBatch) (payer : Pubkey) (signers : List Pubkey) : CrossChainTx :=
  ⟨instructions, false, payer, signers⟩

def advance : EStateM Failure CrossChainTx IxExecStepBatch := do
  let tx ← get
  if tx.complete then pure .end_
  else
    set { tx with complete := true }
    pure (.singleWithSigners tx.instructions tx.signers)

def advanceTx : AdvanceTx CrossChainTx :=
  ⟨advance, fun _ => throw (.panic "internal error: entered unreachable code")⟩

end CrossChainTx

end RomeSdk
