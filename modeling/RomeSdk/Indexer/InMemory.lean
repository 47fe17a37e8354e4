import RomeSdk.Indexer.Run

/-!
# An indexer that keeps everything in memory

The Ethereum storage is that of `inmemory/ethereum_block_storage.rs`, which
stores nothing and never fails. The Solana blocks are a table by slot, read as
`get_block` and `get_last_slot` of the database read `sol_block`. The parsers
are the ones of the source.
-/

namespace RomeSdk

namespace InMemory

structure World where
  solBlock : BTreeMap Slot UiConfirmedBlock
  txParser : DefaultTxParser

def ethereumBlockStorage {σ : Type} : EthereumBlockStorage σ where
  getPendingBlocks := pure none
  reproduceBlocks _ _ := pure none
  registerParseResults _ := pure ()
  latestBlock := pure none
  blocksProduced _ _ := pure ()
  getMaxSlotProduced := pure none
  retainFromSlot _ := pure ()
  getSlotForEthBlock _ := pure none
  cleanFromSlot _ := pure ()

def solanaBlockStorage : SolanaBlockStorage World where
  getLastSlot := fun w => .ok (w.solBlock.toList.getLast?.map Prod.fst) w
  retainFromSlot _ := pure ()
  stored w slot := slot ∈ w.solBlock

/-- `block_parser.parse` over the table. -/
def parse (X : Crates) (programId : Pubkey) (chainId : Nat) (parseMode : BlockParseMode)
    (enableDepositSlot : Option Slot) (slot : Slot) (maxBlocks : Nat) :
    Eff World (Option BlockParseResult) := fun w =>
  let blockParser : BlockParser := {
    getBlock := fun slot _ => .ok w.solBlock[slot]?
    programId := programId
    chainId := chainId
    parseMode := parseMode
    enableDepositSlot := enableDepositSlot }
  match blockParser.parse X slot maxBlocks w.txParser with
  | (txParser, .ok parseResult) => .ok parseResult { w with txParser := txParser }
  | (txParser, .error e) => .error e { w with txParser := txParser }

def rollupIndexer (X : Crates) (programId : Pubkey) (chainId : Nat) (parseMode : BlockParseMode)
    (enableDepositSlot maxSlotHistory : Option Slot) : RollupIndexer World where
  parse := parse X programId chainId parseMode enableDepositSlot
  retainParsed fromSlot :=
    modify fun w => { w with txParser := w.txParser.retainFromSlot fromSlot }
  solanaBlockStorage := solanaBlockStorage
  ethereumBlockStorage := ethereumBlockStorage
  blockProducer := none
  maxSlotHistory := maxSlotHistory

end InMemory

end RomeSdk
