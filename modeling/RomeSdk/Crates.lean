import RomeSdk.Basic

/-!
# The crates the SDK is linked against

None of these is part of the repository. What the SDK calls in them is a
parameter of the model: `Ethers` for the Ethereum types library, `RomeEvm` for
the on-chain program's argument parsers and log tags together with the
instruction tags of the emulator, and the text codecs beside them. A
transaction carries the fields the indexer reads or writes, and its other fields
as one value that nothing looks into.
-/

namespace RomeSdk

abbrev Pubkey := BitVec 256

structure AccountMeta where
  pubkey : Pubkey
  isSigner : Bool
  isWritable : Bool
  deriving DecidableEq, Repr

/-- `solana_program::instruction::Instruction`, as the SDK builds it. -/
structure Instruction where
  programId : Pubkey
  accounts : List AccountMeta
  data : Bytes
  deriving DecidableEq, Repr

/-- `ethers::types::Transaction`. -/
structure Transaction where
  hash : TxHash
  nonce : U256
  blockHash : Option H256
  blockNumber : Option Nat
  transactionIndex : Option Nat
  from_ : Address
  to_ : Option Address
  sourceHash : H256
  isSystemTx : Bool
  transactionType : Option Nat
  chainId : Option U256
  /-- value, gas, input, signature and what else only travels in the RLP -/
  body : Bytes
  deriving DecidableEq, Repr

/-- `ethers`' `DepositTransaction`, with the fields the SDK fills in. -/
structure DepositTransaction where
  from_ : Address
  to_ : Address
  gas : U256
  data : Bytes
  sourceHash : H256
  isSystemTx : Bool
  deriving DecidableEq, Repr

/-- The functions of `ethers` (and of the `rlp` crate below it) the SDK calls. -/
structure Ethers where
  /-- `Transaction::decode(&Rlp::new(bytes))` -/
  decode : Bytes → Except String Transaction
  /-- `tx.recover_from()` -/
  recoverFrom : Transaction → Except String Address
  /-- `tx.hash()`, recomputed from the other fields -/
  hash : Transaction → H256
  /-- `TypedTransaction::DepositTransaction(tx).rlp()` -/
  depositRlp : DepositTransaction → Bytes
  keccak256 : Bytes → H256

/-- The instructions of the rome-evm program the indexer reads. -/
inductive EvmInstruction where
  | doTx
  | transmitTx
  | doTxHolder
  | doTxIterative
  | doTxHolderIterative
  | deposit
  deriving DecidableEq, Repr

/-- What the SDK uses of `rome_evm` and `emulator`. The argument parsers keep
the components the indexer reads. -/
structure RomeEvm where
  /-- `emulator::Instruction as u8` -/
  tag : EvmInstruction → UInt8
  EVENT_LOG : Bytes
  EXIT_REASON : Bytes
  GAS_VALUE : Bytes
  GAS_PRICE : Bytes
  GAS_RECIPIENT : Bytes
  /-- `split_fee`: the rlp behind the fee recipient -/
  splitFee : Bytes → Except String Bytes
  /-- `deposit::args`: chain id and rlp -/
  depositArgs : Bytes → Except String (Nat × Bytes)
  /-- `do_tx_iterative::args`: rlp -/
  doTxIterativeArgs : Bytes → Except String Bytes
  /-- `do_tx_holder::args`: hash and chain id -/
  doTxHolderArgs : Bytes → Except String (TxHash × Nat)
  /-- `do_tx_holder_iterative::args`: hash and chain id -/
  doTxHolderIterativeArgs : Bytes → Except String (TxHash × Nat)
  /-- `transmit_tx::args`: offset, hash, chain id and chunk -/
  transmitTxArgs : Bytes → Except String (Nat × TxHash × Nat × Bytes)

/-- Everything outside the repository the indexer's parsers call. -/
structure Crates where
  ethers : Ethers
  romeEvm : RomeEvm
  /-- `base64::decode` -/
  base64Decode : List Char → Except String Bytes
  /-- `bs58::decode(..).into_vec()` -/
  bs58Decode : String → Option Bytes

end RomeSdk
