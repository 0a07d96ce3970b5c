import SBlktrace.DoublyLinked
import SBlktrace.CacheModel
import SBlktrace.CacheBuckets
import SBlktrace.CacheRefinement
import SBlktrace.CacheRuns
import SBlktrace.SkipList
import SBlktrace.SkipIntervals
import SBlktrace.SkipRuns
import SBlktrace.ExtStruct
import SBlktrace.DiskGeometry
import SBlktrace.GeometryAgreement
import SBlktrace.BaseIntro
import SBlktrace.JournalModel
import SBlktrace.JournalReplay
import SBlktrace.JournalRuns
import SBlktrace.JournalTransactions
import SBlktrace.JournalHistory
import SBlktrace.JournalCompleteness
import SBlktrace.JournalWedge
import SBlktrace.JournalEscape
import SBlktrace.JournalBlocklist
import SBlktrace.JournalBounds
import SBlktrace.JournalItemPool
import SBlktrace.PartitionScan
import SBlktrace.KWayMerge
import SBlktrace.BlkTrace
import SBlktrace.FileMode
import SBlktrace.MergeOrder
import SBlktrace.FileMerge
import SBlktrace.PipeMode
import SBlktrace.PipeDump
import SBlktrace.PipeBatches
import SBlktrace.FilePipe
import SBlktrace.PipeSequence
import SBlktrace.SequenceWrap
import SBlktrace.ByteOrder
import SBlktrace.TraceDecode
import SBlktrace.DescriptorWalk
import SBlktrace.ProcessDefault
import SBlktrace.JournalAnnotation
import SBlktrace.OutputWindow
import SBlktrace.MmapFailure
import SBlktrace.AddDeviceFailure
import SBlktrace.Framing
import SBlktrace.TraceBuffers
import SBlktrace.IoStats
import SBlktrace.IoAccounting
import SBlktrace.FifoQueue
import SBlktrace.SemiblockingQueue
import SBlktrace.SemiblockingFifo
import SBlktrace.NetServer
import SBlktrace.ServerSessions
import SBlktrace.ClientRuns
import SBlktrace.HostLifetime
import SBlktrace.RunRouting
import SBlktrace.SiblingForest
import SBlktrace.BlockTree
import SBlktrace.DiskScan
import SBlktrace.FileCopy
import SBlktrace.BlockMapping
import SBlktrace.IndirectForest
import SBlktrace.Transition
import SBlktrace.TraceSetup
import SBlktrace.ProbeLifecycle
import SBlktrace.IterationBarrier
import SBlktrace.ReplayIo
import SBlktrace.ReplayThreads
import SBlktrace.ReplayEnd
import SBlktrace.ReplaySignal
import SBlktrace.ReplayAccounting
import SBlktrace.RecordReplay
import SBlktrace.BunchPartition
import SBlktrace.IoMonitorMatching
import SBlktrace.BttBalance
import SBlktrace.BlockOwnership
import SBlktrace.ScanFailure
import SBlktrace.OwnershipRuns
import SBlktrace.InodeMirror
import SBlktrace.BlockClassifiers
import SBlktrace.InodeTableSize
import SBlktrace.BackupGroups
import SBlktrace.IntListPrint
import SBlktrace.CounterSums
import SBlktrace.ProcessStats
import SBlktrace.IoTracking
import SBlktrace.PipeTrees
import SBlktrace.PipeTreeRuns
import SBlktrace.RbMap
import SBlktrace.TrackHeap
import SBlktrace.AbsStartTime
import SBlktrace.PduDump
import SBlktrace.RawVerify
import SBlktrace.FileReconstruction
import SBlktrace.MonitorAccount
import SBlktrace.DipRb
import SBlktrace.SeekMedian
import SBlktrace.SeekModes
import SBlktrace.LiveTotals
import SBlktrace.InputWindow
import SBlktrace.ProcessMap
import SBlktrace.PipeMemory
import SBlktrace.TracerThreads
import SBlktrace.TracerBarrier
import SBlktrace.TracerWakeup
import SBlktrace.TracerAccounts
