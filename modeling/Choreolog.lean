import Choreolog.Lib.Bytes
import Choreolog.Lib.Crash
import Choreolog.Lib.Crc
import Choreolog.Lib.Ledger
import Choreolog.Lib.LedgerInv
import Choreolog.Lib.LedgerStep
import Choreolog.Lib.OrdMap
import Choreolog.Lib.Quorum
import Choreolog.Lib.Text
import Choreolog.Lib.Wire
import Choreolog.Network.ManagementPages
import Choreolog.Network.OutboundQueue
import Choreolog.Network.PendingRequests
import Choreolog.Protocol.Codec
import Choreolog.Protocol.CommandCodec
import Choreolog.Protocol.FrameCodec
import Choreolog.Protocol.ServiceCodec
import Choreolog.Raft.Checkpoint
import Choreolog.Raft.Cluster
import Choreolog.Raft.DurableNode
import Choreolog.Raft.Play
import Choreolog.Raft.SharedLog
import Choreolog.Raft.Transition
import Choreolog.Replication.Replica
import Choreolog.State.Engine
import Choreolog.State.Machine
import Choreolog.State.Model
import Choreolog.State.Snapshot
import Choreolog.State.Types
import Choreolog.Storage.Disk
import Choreolog.Storage.Metadata
import Choreolog.Storage.Snapshot
import Choreolog.Storage.Store
import Choreolog.Storage.Transaction
import Choreolog.Storage.Wal
import Choreolog.Theorems.Assemble
import Choreolog.Theorems.Batches
import Choreolog.Theorems.Changes
import Choreolog.Theorems.CheckpointBytes
import Choreolog.Theorems.CheckpointRuns
import Choreolog.Theorems.Checkpoints
import Choreolog.Theorems.Codec
import Choreolog.Theorems.CommandText
import Choreolog.Theorems.CommitPaths
import Choreolog.Theorems.Commits
import Choreolog.Theorems.Compaction
import Choreolog.Theorems.CrashRecovery
import Choreolog.Theorems.DamagedLog
import Choreolog.Theorems.DamagedSnapshot
import Choreolog.Theorems.Discipline
import Choreolog.Theorems.DomainRules
import Choreolog.Theorems.Driver
import Choreolog.Theorems.Durability
import Choreolog.Theorems.EventPages
import Choreolog.Theorems.EventText
import Choreolog.Theorems.Exchange
import Choreolog.Theorems.Fallback
import Choreolog.Theorems.FollowerMerge
import Choreolog.Theorems.FrameBytes
import Choreolog.Theorems.Frames
import Choreolog.Theorems.Held
import Choreolog.Theorems.Install
import Choreolog.Theorems.Installs
import Choreolog.Theorems.Leading
import Choreolog.Theorems.LogShape
import Choreolog.Theorems.Merge
import Choreolog.Theorems.Messages
import Choreolog.Theorems.MirroredLog
import Choreolog.Theorems.Open
import Choreolog.Theorems.Operations
import Choreolog.Theorems.Outbound
import Choreolog.Theorems.Outcome
import Choreolog.Theorems.Pending
import Choreolog.Theorems.Proposals
import Choreolog.Theorems.Reach
import Choreolog.Theorems.Reactions
import Choreolog.Theorems.ReadBarrier
import Choreolog.Theorems.ReadLife
import Choreolog.Theorems.Reads
import Choreolog.Theorems.Release
import Choreolog.Theorems.Replicas
import Choreolog.Theorems.Restore
import Choreolog.Theorems.Retries
import Choreolog.Theorems.RoundTrip
import Choreolog.Theorems.Safety
import Choreolog.Theorems.Seeking
import Choreolog.Theorems.Sending
import Choreolog.Theorems.SharedLogs
import Choreolog.Theorems.Shows
import Choreolog.Theorems.Sim
import Choreolog.Theorems.SimFollow
import Choreolog.Theorems.SimLead
import Choreolog.Theorems.SimReply
import Choreolog.Theorems.SimSend
import Choreolog.Theorems.SimStep
import Choreolog.Theorems.SimTurn
import Choreolog.Theorems.SnapshotFiles
import Choreolog.Theorems.SnapshotOrder
import Choreolog.Theorems.SnapshotTransfer
import Choreolog.Theorems.StatePages
import Choreolog.Theorems.StateText
import Choreolog.Theorems.StoreRuns
import Choreolog.Theorems.StraySnapshot
import Choreolog.Theorems.Survival
import Choreolog.Theorems.TornLog
import Choreolog.Theorems.UnknownFields
import Choreolog.Theorems.Validity
import Choreolog.Theorems.View
