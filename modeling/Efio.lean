import Efio.Proofs.Evio.DiskContent
import Efio.Proofs.Evio.ActionGuard
import Efio.Proofs.Evio.EventOwner
import Efio.Proofs.Evio.PageReader
import Efio.Proofs.Evio.WriteOrder
import Efio.Spec.SequentialRead
import Efio.Proofs.Spec.WriteFlow
import Efio.Proofs.Evio.SequentialRead
import Efio.Proofs.Spec.Backlog
import Efio.Proofs.Evio.PipelineBacklog
import Efio.Proofs.Evio.MixedAccess
import Efio.Lib.DelayedLinks
import Efio.Spec.QueueFlow
import Efio.Proofs.Evds.QueueNodes
import Efio.Lib.Turns
import Efio.Evds.PQueue
import Efio.Spec.PQueueFlow
import Efio.Proofs.Evds.PQueueFifo
import Efio.Proofs.Evio.EngineFrame
import Efio.Proofs.Evio.Carried
import Efio.Proofs.Evio.DrainInv
import Efio.Proofs.Evio.DrainStep
import Efio.Proofs.Evio.DrainRun
import Efio.Proofs.Evio.CloseBarrier
import Efio.Proofs.Evio.FlushedPages
import Efio.Proofs.Evio.FullCalls
import Efio.Proofs.Evio.Replay
import Efio.Proofs.Evio.SyncReturn
import Efio.Proofs.Evio.CleanDisk
import Efio.Proofs.Evio.CloseReturn
import Efio.Proofs.Evsync.SpinLock
import Efio.Proofs.Evds.Stack
import Efio.Proofs.Evds.ChunkedStream
import Efio.Proofs.Evds.BufferOwnership
import Efio.Evds.BufferedStream
import Efio.Spec.ReadLimit
import Efio.Proofs.Evds.BufferedReading
import Efio.Proofs.Evds.LimitedReaders
import Efio.Proofs.Evds.ConsumedLimit
import Efio.Proofs.Evds.ByteValues
import Efio.Spec.FlatWriter
import Efio.Proofs.Spec.FlatWriter
import Efio.Proofs.Evds.BufferedWriting
import Efio.Proofs.Evds.WriteBuffer
import Efio.Proofs.Evds.Framing
import Efio.Evds.MemoryBufferList
import Efio.Spec.MemoryBufferFlow
import Efio.Proofs.Evds.MemoryBufferList
import Efio.Evds.PaQueue
import Efio.Spec.PaQueueFlow
import Efio.Proofs.Evds.PaQueueList
import Efio.Proofs.Evds.PaQueueFifo
import Efio.Proofs.Evsync.RwLock
import Efio.Proofs.Evsync.McsLock
import Efio.Proofs.Evthrpool.Wakeups
import Efio.Proofs.Evthrpool.PoolTasks
import Efio.Proofs.CoreUtils.Base64RoundTrip
import Efio.Proofs.Evio.Readiness
import Efio.Proofs.Evio.OpenFlags
import Efio.Proofs.Evio.AccessMode
import Efio.Proofs.Evio.FilledPages
import Efio.Proofs.Evds.LaneScan
import Efio.Proofs.Evds.LaneTickets
import Efio.Spec.LaneFifo
import Efio.Proofs.Evds.BasicQueue
import Efio.Proofs.Evds.QueueAlone
import Efio.Spec.SharedIndex
import Efio.Proofs.Evds.PiQueue
import Efio.Spec.AcceptedWrites
import Efio.Proofs.Evio.AcceptedWrites
import Efio.Spec.QueueVerdict
import Efio.Proofs.Evds.QueueVerdict
import Efio.Spec.PQueueAdmission
import Efio.Proofs.Evds.PQueueAdmission
import Efio.Lib.Traced
import Efio.CoreUtils.Base64Access
import Efio.Spec.DecodeBounds
import Efio.Proofs.CoreUtils.Base64Access
import Efio.Lib.DoWhile
import Efio.CoreUtils.Compression
import Efio.Spec.Compression
import Efio.Proofs.CoreUtils.CompressionEnds
import Efio.Proofs.CoreUtils.CompressRun
import Efio.Proofs.CoreUtils.CompressRoundTrip
import Efio.Lib.Tally
import Efio.CoreUtils.Trigraph
import Efio.Spec.Trigrams
import Efio.Proofs.CoreUtils.Trigraph
import Efio.Lib.Progress
import Efio.Spec.FlowWork
import Efio.Proofs.Evio.Settling
import Efio.Proofs.Evio.SyncLocks
import Efio.Proofs.Evio.PeriodicSync
import Efio.Proofs.Evio.RoundTrip
import Efio.Evio.FileWriterLoop
import Efio.Proofs.Evio.FileWriterWakeups
import Efio.Proofs.Evthrpool.Shutdown
import Efio.Proofs.Evsync.RwProgress
import Efio.Proofs.Evsync.McsProgress
import Efio.Lib.Objects
import Efio.Evio.FileTable
import Efio.Proofs.Evio.FileTable
import Efio.Proofs.Evio.SlotPieces
import Efio.Proofs.Evio.SlotCalls
import Efio.Proofs.Evio.SlotSafety
import Efio.Proofs.Evio.SlotRuns
import Efio.Proofs.Evio.SlotSettling
