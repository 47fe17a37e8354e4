import RomeSdk.Parsers.LogParser

/-!
# Deposit transactions

`l1_attributes.rs`: the attributes transaction that opens a slot once deposits
are enabled, and the source hash that tells user deposits apart.
-/

namespace RomeSdk

def depositTxType : Nat := 0x7E

def L1_ATTRIBUTES_DEPOSITOR : Address := 0xdeaddeaddeaddeaddeaddeaddeaddeaddead0001

def L1_ATTRIBUTES_SC : Address := 0x4200000000000000000000000000000000000015

def SET_L1_ATTRIBUTES_HASH : Bytes := [0x01, 0x5d, 0x8e, 0xb9]

def L1_ATTRIBUTES_GAS_LIMIT : U256 := 150000000

def createL1AttributesTxData (l1BlockNumber : Slot) (l1Blockhash : H256) (l1Timestamp : U256) :
    Bytes :=
  SET_L1_ATTRIBUTES_HASH
    ++ beBytes 32 l1BlockNumber
    ++ beBytes 32 l1Timestamp.toNat
    ++ beBytes 32 0 -- base_fee
    ++ beBytes 32 l1Blockhash.toNat
    ++ beBytes 32 l1BlockNumber -- sequence_number
    ++ beBytes 32 0 -- batcher_hash
    ++ beBytes 32 0 -- fee_overhead
    ++ beBytes 32 0 -- fee_scalar

/-- The two source hashes differ in the number hashed with the block hash and in
the domain that is put before the first digest. -/
def sourceHash (X : Crates) (domain : Nat) (l1Blockhash : H256) (number : Nat) : H256 :=
  let part2 := X.ethers.keccak256 (beBytes 32 l1Blockhash.toNat ++ beBytes 32 number)
  X.ethers.keccak256 (beBytes 32 domain ++ beBytes 32 part2.toNat)

def createL1AttributesSourceHash (X : Crates) (l1BlockNumber : Slot) (l1Blockhash : H256) : H256 :=
  sourceHash X 1 l1Blockhash l1BlockNumber

def createUserDepositSourceHash (X : Crates) (l1Blockhash : H256) (l1LogIndex : U256) : H256 :=
  sourceHash X 0 l1Blockhash l1LogIndex.toNat

/-- The decoding of the rlp just written is unwrapped. -/
def createL1AttributesTx (X : Crates) (l1BlockNumber : Slot) (l1Blockhash : H256)
    (l1Timestamp : U256) : Outcome (Transaction × TxResult) :=
  let tx : DepositTransaction := {
    from_ := L1_ATTRIBUTES_DEPOSITOR
    to_ := L1_ATTRIBUTES_SC
    gas := L1_ATTRIBUTES_GAS_LIMIT
    data := createL1AttributesTxData l1BlockNumber l1Blockhash l1Timestamp
    sourceHash := createL1AttributesSourceHash X l1BlockNumber l1Blockhash
    isSystemTx := true }
  match X.ethers.decode (X.ethers.depositRlp tx) with
  | .ok transaction => .ok (transaction, .default)
  | .error e => .error (.panic e)

def updateIfUserDepositedTx (X : Crates) (tx : Transaction) (l1Blockhash : H256)
    (l1LogIndex : U256) : Transaction :=
  if tx.transactionType ≠ some depositTxType ∨ tx.isSystemTx = true then tx
  else
    let updated := { tx with sourceHash := createUserDepositSourceHash X l1Blockhash l1LogIndex }
    { updated with hash := X.ethers.hash updated }

end RomeSdk
