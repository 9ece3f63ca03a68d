import FusionStore.ForStd.LittleEndian
import FusionStore.ForStd.AList
import FusionStore.ForStd.Run
import FusionStore.ForStd.Stored
import FusionStore.ForStd.BinaryHeap
import FusionStore.ForStd.SegMem
import FusionStore.ForStd.Ledger
import FusionStore.ForStd.Routed
import FusionStore.Native.Error
import FusionStore.Native.WalCodec
import FusionStore.Native.Wal
import FusionStore.Native.WalLog
import FusionStore.Native.Segment
import FusionStore.Native.HandleCache
import FusionStore.Native.Kv
import FusionStore.Native.Simd
import FusionStore.Native.Nsw
import FusionStore.Native.Snapshot
import FusionStore.Native.SnapshotFile
import FusionStore.Native.VectorStore
import FusionStore.Native.CompactSteps
import FusionStore.Native.Columnar
import FusionStore.Native.StoreSession
import FusionStore.Native.Engine
import FusionStore.Native.Sharded
import FusionStore.Native.Session
import FusionStore.Native.DiskTrace
import FusionStore.Native.Concurrent
import FusionStore.Spec.WalCodecCorrect
import FusionStore.Spec.WalFraming
import FusionStore.Spec.WalFile
import FusionStore.Spec.WalSeq
import FusionStore.Spec.WalTorn
import FusionStore.Spec.WalLogCorrect
import FusionStore.Spec.SegmentCorrect
import FusionStore.Spec.AppendOnly
import FusionStore.Spec.KvCorrect
import FusionStore.Spec.KvSessionCorrect
import FusionStore.Spec.Quota
import FusionStore.Spec.GraphCorrect
import FusionStore.Spec.SearchCorrect
import FusionStore.Spec.Reachability
import FusionStore.Spec.GraphShape
import FusionStore.Spec.SnapshotCodec
import FusionStore.Spec.VectorCorrect
import FusionStore.Spec.VectorReopen
import FusionStore.Spec.CompactCorrect
import FusionStore.Spec.IndexRefines
import FusionStore.Spec.SchemaLock
import FusionStore.Spec.CompactCrash
import FusionStore.Spec.CompactRace
import FusionStore.Spec.Reclaim
import FusionStore.Spec.EngineCorrect
import FusionStore.Spec.ReplayAccepts
import FusionStore.Spec.SessionCorrect
import FusionStore.Spec.Openable
import FusionStore.Spec.KvRestart
import FusionStore.Spec.VectorRestart
import FusionStore.Spec.RecoverInPlace
import FusionStore.Spec.Rejected
import FusionStore.Spec.Durability
import FusionStore.Spec.ConcurrentCorrect
import FusionStore.Spec.LostUpdate
import FusionStore.Spec.ApplyOrder
import FusionStore.Spec.ShardedCorrect
import FusionStore.ForStd.Crc
import FusionStore.Spec.SnapshotSafe
import FusionStore.Spec.SnapshotCorrupt
import FusionStore.ForStd.TopK
import FusionStore.Spec.ShardedSearch
import FusionStore.Spec.NavigableRuns
import FusionStore.Spec.OneDimension
import FusionStore.Spec.BatchInsert
import FusionStore.Spec.PoolSafety
import FusionStore.Spec.ColumnarRefines
import FusionStore.Native.Kernels
import FusionStore.Spec.KernelsCorrect
import FusionStore.Native.SearchSteps
import FusionStore.Spec.SearchErrors
import FusionStore.Native.Serve
import FusionStore.Spec.CompactFlag
import FusionStore.ForStd.Fair
import FusionStore.Native.WriteQueue
import FusionStore.Spec.WriteQueueCorrect
import FusionStore.Spec.VecLocators
import FusionStore.Native.PoolHandles
import FusionStore.Spec.EvictionCorrect
import FusionStore.Native.Readers
import FusionStore.Spec.BuffersImmutable
import FusionStore.ForStd.Cost
import FusionStore.Spec.DiskUse
import FusionStore.Spec.SearchSession
import FusionStore.Spec.SmallIndex
import FusionStore.ForStd.Linear
import FusionStore.Native.HttpServer
import FusionStore.Spec.HttpObject
import FusionStore.Spec.HttpLinear
import FusionStore.Spec.HttpLimits
import FusionStore.Native.HttpStart
import FusionStore.Spec.HttpAuth
import FusionStore.Native.CAbi
import FusionStore.Spec.Lives
import FusionStore.Spec.CAbiRefines
import FusionStore.Native.ShardedStore
import FusionStore.Spec.ShardedRefines
