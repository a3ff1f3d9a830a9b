import VectorLsm.Lib.Transition
import VectorLsm.Lib.Compact
import VectorLsm.Lib.Subsequence
import VectorLsm.Lib.Chain
import VectorLsm.Lib.Run
import VectorLsm.Memtable.Basic
import VectorLsm.Memtable.Machine
import VectorLsm.Memtable.Transitions
import VectorLsm.Memtable.Ownership
import VectorLsm.Memtable.Rows
import VectorLsm.Memtable.Start
import VectorLsm.Memtable.Insert
import VectorLsm.Memtable.Failures
import VectorLsm.Memtable.Wedged
import VectorLsm.Memtable.Stranded
import VectorLsm.Memtable.ReadyPrefix
import VectorLsm.Memtable.Layout
import VectorLsm.Segment.File
import VectorLsm.Segment.Rebuild
import VectorLsm.Segment.Descent
import VectorLsm.Segment.Tombstone
import VectorLsm.Segment.Redo
import VectorLsm.Segment.RedoExact
import VectorLsm.Segment.Scan
import VectorLsm.Segment.Marks
import VectorLsm.Pool.Basic
import VectorLsm.Pool.Linked
import VectorLsm.Pool.Kept
import VectorLsm.Pool.Adoption
import VectorLsm.Pool.Compaction
import VectorLsm.Pool.Machine
import VectorLsm.Pool.Invariant
import VectorLsm.Pool.WellFormed
import VectorLsm.Pool.Pieces
import VectorLsm.Pool.Leaks
import VectorLsm.Pool.Counters
import VectorLsm.Pool.Displacement
import VectorLsm.Pool.Claims
import VectorLsm.Lib.Potential
import VectorLsm.Compaction.Scheduler
import VectorLsm.Compaction.Measure
import VectorLsm.Compaction.Steps
import VectorLsm.Compaction.Quiescence
import VectorLsm.Compaction.Entries
import VectorLsm.Compaction.Inputs
import VectorLsm.Compaction.Rows
import VectorLsm.Compaction.Claimed
import VectorLsm.Compaction.Calls
import VectorLsm.Compaction.Fed
import VectorLsm.Vacuum.OnDisk
import VectorLsm.Vacuum.Claims
import VectorLsm.Vacuum.Files
import VectorLsm.Vacuum.Masks
import VectorLsm.Vacuum.Done
import VectorLsm.Vacuum.Invariant
import VectorLsm.Vacuum.Complete
import VectorLsm.Lib.Distinct
import VectorLsm.Segment.Named
import VectorLsm.Vacuum.Compactions
import VectorLsm.Vacuum.Reports
import VectorLsm.Vacuum.Once
import VectorLsm.Vacuum.Tenants
import VectorLsm.Vacuum.Copies
import VectorLsm.Vacuum.Sound
import VectorLsm.IndexBuffer.Machine
import VectorLsm.IndexBuffer.Unique
import VectorLsm.IndexBuffer.Owner
import VectorLsm.IndexBuffer.Lives
import VectorLsm.Standby.Memtables
import VectorLsm.Standby.Reachable
import VectorLsm.Lib.Prefix
import VectorLsm.Recovery.Machine
import VectorLsm.Recovery.Recover
import VectorLsm.Recovery.Fresh
import VectorLsm.Recovery.Files
import VectorLsm.Recovery.Paced
import VectorLsm.Recovery.Queue
import VectorLsm.Recovery.Bounds
import VectorLsm.Recovery.Walk
import VectorLsm.StatusLists.Machine
import VectorLsm.StatusLists.Bounded
import VectorLsm.StatusLists.Refill
import VectorLsm.WalOrder.Ordered
import VectorLsm.Standby.Barrier
import VectorLsm.Slots.Agreement
import VectorLsm.Retire.Cleanup
import VectorLsm.Search.Answers
import VectorLsm.Search.Combine
import VectorLsm.Search.Library
import VectorLsm.Search.Memtable
import VectorLsm.Search.Fanout
import VectorLsm.Maintenance.Requests
import VectorLsm.Maintenance.Trailer
import VectorLsm.MemtableBuffer.Accounted
import VectorLsm.Lib.Crash
import VectorLsm.Lib.Decimal
import VectorLsm.Storage.SegmentFile
import VectorLsm.Storage.Written
import VectorLsm.Storage.Bitmaps
import VectorLsm.Storage.Subversions
import VectorLsm.Storage.CrashSafe
import VectorLsm.Storage.Flush
import VectorLsm.Storage.VersionFiles
import VectorLsm.Storage.FlushAtomic
import VectorLsm.Storage.RoundTrip
import VectorLsm.Storage.DirectoryScan
import VectorLsm.InMemory.Union
import VectorLsm.InMemory.Machine
import VectorLsm.InMemory.Fields
import VectorLsm.InMemory.Built
import VectorLsm.InMemory.Pieces
import VectorLsm.InMemory.Invariant
import VectorLsm.InMemory.SameVersion
import VectorLsm.InMemory.Transparent
import VectorLsm.Lib.Bitmap
import VectorLsm.Lib.TopK
import VectorLsm.Segment.Chain
import VectorLsm.Segment.Compacted
import VectorLsm.Segment.Lookup
import VectorLsm.Segment.Grouped
import VectorLsm.InMemory.Groups
import VectorLsm.InMemory.Predecessor
import VectorLsm.Loading.Machine
import VectorLsm.Loading.OneWinner
import VectorLsm.FetchQueue.Exclusive
import VectorLsm.FetchQueue.Failed
import VectorLsm.InMemory.Counts
import VectorLsm.DeleteCounts.Machine
import VectorLsm.DeleteCounts.Exact
import VectorLsm.Lib.Descriptor
import VectorLsm.Lib.Blob
import VectorLsm.Lib.LittleEndian
import VectorLsm.Pull.Machine
import VectorLsm.Pull.Names
import VectorLsm.Pull.Sound
import VectorLsm.Pull.Complete
import VectorLsm.Pull.Undisturbed
import VectorLsm.Lib.Linked
import VectorLsm.StatusChains.Machine
import VectorLsm.StatusChains.Shape
import VectorLsm.StatusChains.Carried
import VectorLsm.StatusChains.Invariant
import VectorLsm.StatusChains.Sound
import VectorLsm.Lib.Codec
import VectorLsm.Lib.Fixed
import VectorLsm.FetchQueue.Format
import VectorLsm.Wal.Records
import VectorLsm.Wal.RoundTrip
import VectorLsm.Lib.NearestEven
import VectorLsm.Half.Convert
import VectorLsm.Half.Rounded
import VectorLsm.Coverage.Ranges
import VectorLsm.Coverage.Machine
import VectorLsm.Coverage.Handoff
import VectorLsm.Coverage.Invariant
import VectorLsm.Coverage.Searched
import VectorLsm.Lib.Memory
import VectorLsm.Lib.Ring
import VectorLsm.RingBuffer.Memory
import VectorLsm.RingBuffer.Machine
import VectorLsm.RingBuffer.Refines
import VectorLsm.Lib.Sparse
import VectorLsm.SparseVec.Basic
import VectorLsm.SparseVec.Dense
import VectorLsm.SparseVec.Wire
import VectorLsm.SparseVec.Text
import VectorLsm.SparseVec.Parsed
import VectorLsm.Lib.Frontier
import VectorLsm.Arrival.Machine
import VectorLsm.Arrival.Installed
import VectorLsm.Arrival.Sound
import VectorLsm.Bits.Distance
