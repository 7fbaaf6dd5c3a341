import MotorRv.Lib.Bytes
import MotorRv.Lib.Layout
import MotorRv.Lib.Ring
import MotorRv.Lib.OpenTable
import MotorRv.Lib.Proc
import MotorRv.Lib.Chain
import MotorRv.Lib.Aborts
import MotorRv.Lib.RoundTo
import MotorRv.Lib.Spans
import MotorRv.Base.Status
import MotorRv.Base.Crc32c
import MotorRv.Base.Arena
import MotorRv.Base.Fixed
import MotorRv.Base.Rounding
import MotorRv.Base.Ids
import MotorRv.Base.Calendar
import MotorRv.Base.Index
import MotorRv.Core.Ledger
import MotorRv.Core.PartitionState
import MotorRv.Codec.Events
import MotorRv.Codec.Encode
import MotorRv.Core.StateImage
import MotorRv.Core.Outbox
import MotorRv.Core.OutboxQueue
import MotorRv.Core.Apply
import MotorRv.Core.Sound
import MotorRv.Core.SoundApply
import MotorRv.Core.Agree
import MotorRv.Core.ImageRoundTrip
import MotorRv.Core.Replay
import MotorRv.Core.Session
import MotorRv.Core.Rejection
import MotorRv.Core.Effects
import MotorRv.Core.Records
import MotorRv.Core.Links
import MotorRv.Core.EffectsOf
import MotorRv.Core.Conservation
import MotorRv.Core.Rows
import MotorRv.Core.Counters
import MotorRv.Core.Isolation
import MotorRv.Core.Idempotency
import MotorRv.Core.Executions
import MotorRv.Core.TradeLists
import MotorRv.Core.Termination
import MotorRv.Core.Buckets
import MotorRv.Core.Panics
import MotorRv.Core.Limits
import MotorRv.Core.Rotation
import MotorRv.Core.Compaction
import MotorRv.Wal.Format
import MotorRv.Wal.IoBackend
import MotorRv.Wal.GroupCommit
import MotorRv.Wal.Wal
import MotorRv.Wal.Durable
import MotorRv.Wal.SegmentReader
import MotorRv.Wal.ReadBack
import MotorRv.Wal.Disk
import MotorRv.Wal.Content
import MotorRv.Wal.Backpressure
import MotorRv.Wal.RoundTrip
import MotorRv.Core.Inbox
import MotorRv.Core.Partition
import MotorRv.Core.ExactlyOnce
import MotorRv.Core.Outputs
import MotorRv.Core.Externalised
import MotorRv.Core.Lifecycle
import MotorRv.Core.Stuck
import MotorRv.Ingress.Pipeline
import MotorRv.Ingress.Framing
import MotorRv.Core.Pending
import MotorRv.Core.PendingCash
import MotorRv.Core.PendingQty
import MotorRv.Ingress.Routing
import MotorRv.Wal.ReaderSafety
import MotorRv.Wal.Buffers
import MotorRv.Core.Interning
import MotorRv.Core.Splits
import MotorRv.Core.AveragePrice
import MotorRv.Core.IncomeStages
import MotorRv.Core.ForcedCommit
import MotorRv.Core.ImageBounds
import MotorRv.Lib.Reinsert
import MotorRv.Lib.Rank
import MotorRv.Lib.Crc
import MotorRv.Core.Canonical
import MotorRv.Base.Metrics
import MotorRv.Base.CrcPaths
import MotorRv.Wal.Bursts
import MotorRv.Core.Unlinking
import MotorRv.Base.OpenAddressing
import MotorRv.Base.SpscRing
import MotorRv.Edge.Truncation
import MotorRv.Wal.Recovery
import MotorRv.Wal.ReplayOrder
import MotorRv.Core.FreshLoad
import MotorRv.Wal.FallbackImages
import MotorRv.Wal.FileNames
import MotorRv.Wal.CrashRecovery
import MotorRv.Wal.Lives
import MotorRv.Lib.Contracts
import MotorRv.Lib.Calls
import MotorRv.Wal.Backends
import MotorRv.Wal.PwriteBackend
import MotorRv.Wal.FaultBackend
import MotorRv.Wal.UringBackend
import MotorRv.Wal.OverBackend
