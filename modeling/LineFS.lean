import LineFS.Log
import LineFS.Prefetch
import LineFS.Pipeline
import LineFS.Publish
import LineFS.Drain
import LineFS.Replica
import LineFS.FsyncAck
import LineFS.Lifetime
import LineFS.TreeRequests
import LineFS.Coalesce
import LineFS.HostCopy
import LineFS.Delivery
import LineFS.Acknowledge
import LineFS.Tiling
import LineFS.FetchSeqn
import LineFS.Balloc
import LineFS.BlockBitmap
import LineFS.ReadPath
import LineFS.Invalidation
import LineFS.Counters
import LineFS.Rename
import LineFS.Transaction
import LineFS.PeerLog
import LineFS.Isolation
import LineFS.Verbs
import LineFS.SendBuffer
import LineFS.Receive
import LineFS.Setup
import LineFS.Flush
import LineFS.AckStage
import LineFS.WriteBack
import LineFS.ExtentMap
import LineFS.PrefetchLocks
import LineFS.InodeSlices
import LineFS.Leases
import LineFS.WriteSplit
import LineFS.Truncate
import LineFS.Transfers
import LineFS.MemcpyPlan
import LineFS.Release
import LineFS.DigestHead
import LineFS.LastReplica
import LineFS.PeerLookup
import LineFS.PersistLog
import LineFS.ReplicaFlush
import LineFS.DirtyInodes
import LineFS.ThreadPool
