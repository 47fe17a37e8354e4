import RomeSdk.Lib.Maps
import RomeSdk.Parsers.LogParser
import RomeSdk.Parsers.DefaultTxParser
import RomeSdk.Lib.Machine
import RomeSdk.Lib.Tiling
import RomeSdk.Tx.TransmitTx
import RomeSdk.Proofs.Chunks
import RomeSdk.Proofs.Registration
import RomeSdk.Proofs.ParserRuns
import RomeSdk.Parsers.BlockParser
import RomeSdk.Proofs.Records
import RomeSdk.Proofs.Finalization
import RomeSdk.Proofs.Completeness
import RomeSdk.Proofs.HashIdentity
import RomeSdk.Proofs.LogAttribution
import RomeSdk.Proofs.Instructions
import RomeSdk.Proofs.RegistrationOutcome
import RomeSdk.Proofs.LostSteps
import RomeSdk.Proofs.Containment
import RomeSdk.Indexer.RollupIndexer
import RomeSdk.Lib.Effect
import RomeSdk.Indexer.Run
import RomeSdk.Proofs.ReorgCoverage
import RomeSdk.Lib.RecursiveQuery
import RomeSdk.Lib.Texts
import RomeSdk.PgStorage.Tables
import RomeSdk.PgStorage.TransactionStorage
import RomeSdk.Proofs.LogIndices
import RomeSdk.PgStorage.EthereumBlockStorage
import RomeSdk.Lib.NestedMaps
import RomeSdk.Proofs.RecordedTogether
import RomeSdk.Proofs.PendingRows
import RomeSdk.Proofs.PendingChain
import RomeSdk.Proofs.Reproduction
import RomeSdk.Indexer.SolanaBlockLoader
import RomeSdk.PgStorage.SolanaBlockStorage
import RomeSdk.Proofs.FinalizedFork
import RomeSdk.Proofs.FailedRecheck
import RomeSdk.Proofs.RecheckedSlots
import RomeSdk.Indexer.LoaderRun
import RomeSdk.Proofs.FinalizedAncestors
import RomeSdk.Indexer.ReorgRun
import RomeSdk.Proofs.ReorgDelivery
import RomeSdk.Indexer.EngineApiBlockProducer
import RomeSdk.Proofs.RestoredBlocks
import RomeSdk.Indexer.ProductionRun
import RomeSdk.Proofs.RecordedParams
import RomeSdk.Proofs.LatestBlock
import RomeSdk.Proofs.RecordedBatch
import RomeSdk.Proofs.ProducedOnce
import RomeSdk.Lib.Runs
import RomeSdk.Proofs.EthBlocks
import RomeSdk.Proofs.DepositIndex
import RomeSdk.Proofs.DepositHashes
import RomeSdk.Proofs.DistinctDeposits
import RomeSdk.Lib.Handover
import RomeSdk.Indexer.SingleStateBlockProducer
import RomeSdk.Proofs.Batches
import RomeSdk.Proofs.EngineBatches
import RomeSdk.Proofs.SameAnswers
import RomeSdk.Proofs.Received
import RomeSdk.Proofs.WalkingOrder
import RomeSdk.Proofs.NonInterference
import RomeSdk.Proofs.GasValues
import RomeSdk.PgStorage.ReadMethods
import RomeSdk.PgStorage.StorageRun
import RomeSdk.Proofs.AcceptedTransactions
import RomeSdk.Proofs.Senders
import RomeSdk.HexCodec
import RomeSdk.PgStorage.BlockParamsText
import RomeSdk.Proofs.ParamsRoundTrip
import RomeSdk.Geth.Engine
import RomeSdk.Proofs.EngineHead
import RomeSdk.Indexer.Checking
import RomeSdk.Proofs.Recovery
import RomeSdk.Indexer.StandaloneIndexer
import RomeSdk.Proofs.RecoveryRace
import RomeSdk.Proofs.LoadedTransactions
import RomeSdk.Indexer.MultiplexedSolanaClient
import RomeSdk.Proofs.ProviderErrors
import RomeSdk.Indexer.BlockResponse
import RomeSdk.Proofs.FailedTransactions
import RomeSdk.Indexer.RelayerSolanaBlockStorage
import RomeSdk.Proofs.RelayerFinalization
import RomeSdk.Solana.BlockIndexer
import RomeSdk.Utils.Runner
import RomeSdk.Proofs.BlockDelivery
import RomeSdk.Proofs.SlotStream
import RomeSdk.Lib.Base64
import RomeSdk.Tx.Resources
import RomeSdk.Da.Namespace
import RomeSdk.Proofs.LogRoundTrip
import RomeSdk.Proofs.SlotReplacement
import RomeSdk.Proofs.KnownTransactions
import RomeSdk.Proofs.Pruning
import RomeSdk.Proofs.ProductionTrace
import RomeSdk.Proofs.FinalityTarget
import RomeSdk.Indexer.DummyBlockProducer
import RomeSdk.Proofs.ProductionLimit
import RomeSdk.Proofs.StoredBlocks
import RomeSdk.Proofs.PendingReadBack
import RomeSdk.Proofs.ReceiptGas
import RomeSdk.Proofs.FormedBlocks
import RomeSdk.Proofs.WrittenReceipts
import RomeSdk.Lib.Answers
import RomeSdk.Tx.Steps
import RomeSdk.Tx.AltTx
import RomeSdk.Tx.AtomicTxHolder
import RomeSdk.Tx.AltComposedHolder
import RomeSdk.Proofs.AltSteps
import RomeSdk.Proofs.BlockWriters
import RomeSdk.Proofs.RecoveryBatches
import RomeSdk.Proofs.RetryBounds
import RomeSdk.Proofs.RowOrder
import RomeSdk.Proofs.CompleteEvents
import RomeSdk.Proofs.TransmitLimit
import RomeSdk.Lib.Retries
import RomeSdk.Tx.AtomicTx
import RomeSdk.Tx.IterativeTx
import RomeSdk.Tx.RetryRun
import RomeSdk.Proofs.TxSteps
import RomeSdk.Proofs.EndMeansExecuted
import RomeSdk.Tx.CrossTx
import RomeSdk.Sdk.Rome
import RomeSdk.Proofs.ComposeLocks
import RomeSdk.Tx.AltComposed
import RomeSdk.Solana.Tower
import RomeSdk.Proofs.StepOrder
import RomeSdk.Proofs.SentSignatures
import RomeSdk.Proofs.ServiceTries
import RomeSdk.Lib.Bitset
import RomeSdk.Utils.HolderFactory
import RomeSdk.Proofs.HolderIndices
import RomeSdk.Proofs.HolderAvailability
import RomeSdk.Da.Blobs
import RomeSdk.Proofs.ForeignBlobs
import RomeSdk.Utils.Rlp
import RomeSdk.Proofs.U256Rlp
import RomeSdk.Lib.Pieces
import RomeSdk.Proofs.BatchRanges
import RomeSdk.Proofs.ComposedSteps
import RomeSdk.Proofs.BuiltTransactions
import RomeSdk.Proofs.DeliveredTransactions
import RomeSdk.Tx.Builder
import RomeSdk.Proofs.ClientTraffic
import RomeSdk.Proofs.IndexedTransactions
import RomeSdk.Proofs.WalkBack
import RomeSdk.Proofs.IndexedBatches
import RomeSdk.Proofs.ServedTransactions
import RomeSdk.Proofs.StorageForm
import RomeSdk.Indexer.IndexingRun
import RomeSdk.Proofs.IndexingServes
