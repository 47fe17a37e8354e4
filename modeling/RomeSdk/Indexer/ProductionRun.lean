import RomeSdk.Indexer.EngineApiBlockProducer
import RomeSdk.PgStorage.EthereumBlockStorage
import RomeSdk.Lib.Machine

/-!
# Runs of the block production

The indexer over its database and op-geth. A call of `restore_or_produce_blocks`
may end anywhere: a transaction of the database may fail, and so may any call of
op-geth, before or after it has done what it was asked to. After that, or at any
other time, the indexer may be started again. Between its calls blocks are stored
and registered, and nothing else gives an eth block its parameters.

For statements about the calls of `produce_blocks`, the numbers of the latest
blocks of the two sides are noted down at each of them.
-/

namespace RomeSdk

/-- The numbers of the latest blocks. -/
structure Heights where
  storage : Nat
  producer : Nat
  deriving DecidableEq, Repr

abbrev ProductionWorld (block γ : Type) := (Server block × γ) × List Heights

variable {block γ : Type}

namespace PgStorage

/-- The number of the latest block, 0 if there is none. -/
def height (db : Db block) : Nat := (latestEthBlock db).getD 0

/-- The parameters of a block. -/
def paramsOf (db : Db block) (id : EthBlockId) : Option BlockParams :=
  (db.ethBlock.lookup id).bind EthBlockHeader.params

end PgStorage

/-- The producer beside the database, with a record of the calls of `produce_blocks`. -/
def EngineAPIBlockProducer.watched (P : EngineAPIBlockProducer γ) (height : γ → Nat) :
    BlockProducer (ProductionWorld block γ) where
  lastProducedBlock := P.lastProducedBlock.second.unrecorded
  getBlockParams blockNumber := (P.getBlockParams blockNumber).second.unrecorded
  produceBlocks params limit := (P.produceBlocks params limit).second.noted fun w =>
    ⟨PgStorage.height w.1.db, height w.2⟩

structure ProductionState (block γ : Type) where
  db : Db block
  geth : γ
  calls : List Heights

namespace ProductionState

/-- What a call finds, with the faults it will meet. -/
def enter (s : ProductionState block γ) (faults : List (Option Failure)) :
    ProductionWorld block γ :=
  ((⟨s.db, faults⟩, s.geth), s.calls)

def leave (w : ProductionWorld block γ) : ProductionState block γ := ⟨w.1.1.db, w.1.2, w.2⟩

end ProductionState

inductive ProductionAction (block γ : Type) where
  /-- `restore_or_produce_blocks` is called. -/
  | sync (batchSize : Nat) (faults : List (Option Failure))
  /-- The indexer is started, whatever it was doing. -/
  | start (startSlot : Option Slot) (turns : Nat) (faults : List (Option Failure))
  /-- Blocks are stored and registered, and op-geth does what it does by itself. -/
  | others (db : Db block) (geth : γ)

namespace RollupIndexer

open ProductionState (leave)

/-- The steps, for an op-geth whose latest block is `head`. -/
def productionStep (I : RollupIndexer (ProductionWorld block γ)) (head : γ → H256)
    (s : ProductionState block γ) :
    ProductionAction block γ → ProductionState block γ → Prop
  | .sync batchSize faults, t =>
      t = leave ((I.restoreOrProduceBlocks batchSize).after (s.enter faults))
  | .start startSlot turns faults, t =>
      t = leave ((I.preRun startSlot turns).after (s.enter faults))
  | .others db geth, t =>
      PgStorage.paramsOf db = PgStorage.paramsOf s.db ∧ head geth = head s.geth ∧
        t = { s with db := db, geth := geth }

/-- The indexer over an empty database and an op-geth with nothing but a genesis block. -/
def productionMachine (I : RollupIndexer (ProductionWorld block γ)) (head : γ → H256)
    (height : γ → Nat) : Machine (ProductionState block γ) (ProductionAction block γ) where
  init s := s.db = Db.empty ∧ height s.geth = 0 ∧ s.calls = []
  step := I.productionStep head

end RollupIndexer

end RomeSdk
