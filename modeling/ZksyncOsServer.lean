import ZksyncOsServer.MerkleTree.FlatProofs
import ZksyncOsServer.ProverApi.SpanBound
import ZksyncOsServer.ProverApi.Conservation
import ZksyncOsServer.ProverApi.SnarkSubmission
import ZksyncOsServer.Repository.LogIndex
import ZksyncOsServer.Sequencer.ExecutorViews
import ZksyncOsServer.Network.ReplayIntake
import ZksyncOsServer.Repository.Availability
import ZksyncOsServer.Rpc.LogProof
import ZksyncOsServer.PriorityTree.Manager
import ZksyncOsServer.Mempool.L1Stream
import ZksyncOsServer.Sequencer.Rebuild
import ZksyncOsServer.Provider.LogsCache
import ZksyncOsServer.L1Watcher.PersistRestart
import ZksyncOsServer.L1Watcher.StartupSweep
import ZksyncOsServer.L1Sender.Fifo
import ZksyncOsServer.ProverApi.Gapless
import ZksyncOsServer.Sequencer.Canonizer
import ZksyncOsServer.BatchVerification.Honest
import ZksyncOsServer.Mempool.UpgradeStream
import ZksyncOsServer.Mempool.InteropFeeUpdates
import ZksyncOsServer.L1Watcher.L1Revert
import ZksyncOsServer.L1Sender.GasAdjuster
import ZksyncOsServer.Rpc.EstimateGas
import ZksyncOsServer.Rpc.PendingBlock
import ZksyncOsServer.Sequencer.FeeProvider
import ZksyncOsServer.RevmChecker.StorageDiff
import ZksyncOsServer.BaseToken.RatioUpdate
import ZksyncOsServer.MerkleTree.PatchedHistory
