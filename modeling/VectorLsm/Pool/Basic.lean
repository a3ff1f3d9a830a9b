import Mathlib.Logic.Function.Basic
import Mathlib.Tactic.Simps.Basic
import VectorLsm.Lib.Chain
import VectorLsm.Memtable.Basic

/-! # The pool of flushed segments

A fixed array of slots. The slots in service form a doubly linked list in ascending order of
their first segment id; a slot is reserved before it is filled and linked, and is cleaned up
when its last reference is dropped.
-/

namespace VectorLsm

open Chain

inductive IndexType where
  | flat
  | ivfflat
  | hnsw
  | diskann
  deriving DecidableEq, Repr

inductive SegmentLoadState where
  | notLoaded
  | mmapLoaded
  | fullyLoaded
  deriving DecidableEq, Repr

/-- `MAX_SEGMENTS_COUNT`. -/
abbrev maxSegmentsCount : ℕ := 1024

/-- `THRESHOLD_SMALL_SEGMENT_SIZE`. -/
abbrev thresholdSmallSegmentSize : ℕ := 1000000

/-- `MAX_SEGMENTS_SIZE`. -/
abbrev maxSegmentsSize : ℕ := 2000000

structure FlushedSegment where
  inUsed : Bool
  segmentIdStart : SegmentId
  segmentIdEnd : SegmentId
  vecCount : ℕ
  indexType : IndexType
  nextIdx : Option ℕ
  prevIdx : Option ℕ
  refCount : ℤ
  loadState : SegmentLoadState
  deleteCount : ℕ
  isCompacting : Bool
  version : ℕ
  deriving DecidableEq, Repr

/-- What `read_lsm_segment_metadata` and the bitmap file say about a segment version. -/
structure SegmentMetadata where
  startSid : SegmentId
  endSid : SegmentId
  validRows : ℕ
  indexType : IndexType
  version : ℕ
  deleteCount : ℕ
  deriving DecidableEq, Repr

/-- The settings the pool reads. -/
structure PoolConfig where
  /-- `postgresqlv_memtable_capacity`. -/
  memtableCapacity : ℕ
  /-- `delete_count / vec_count > postgresqlv_deletion_rebuild_ratio` in `double`. -/
  overDeleted : ℕ → ℕ → Bool

namespace FlushedSegment

variable (seg : FlushedSegment)

/-- The state `initialize_segment_pool` leaves; the ids are those of static storage. -/
def initial : FlushedSegment :=
  { inUsed := false, segmentIdStart := 0, segmentIdEnd := 0, vecCount := 0, indexType := .flat,
    nextIdx := none, prevIdx := none, refCount := 0, loadState := .notLoaded, deleteCount := 0,
    isCompacting := false, version := 0 }

/-- `load_and_set_segment`, whose reads may fail. -/
def load (m : Option SegmentMetadata) (useMmap : Bool) : FlushedSegment :=
  match m with
  | none => seg
  | some m =>
      { seg with
        segmentIdStart := m.startSid
        segmentIdEnd := m.endSid
        vecCount := m.validRows
        indexType := m.indexType
        inUsed := true
        deleteCount := m.deleteCount
        version := m.version
        isCompacting := false
        loadState := if useMmap then .mmapLoaded else .fullyLoaded }

/-- The fields a rebuild, a merge or an upgrade writes into its reserved slot. -/
@[simps] def fill (m : SegmentMetadata) : FlushedSegment :=
  { seg with
    segmentIdStart := m.startSid
    segmentIdEnd := m.endSid
    vecCount := m.validRows
    indexType := m.indexType
    deleteCount := m.deleteCount
    version := m.version
    isCompacting := false
    loadState := .fullyLoaded }

@[simps] def setRef (n : ℤ) : FlushedSegment := { seg with refCount := n }

/-- The fields `cleanup_flushed_segment` and `discard_reserved_segment` reset. -/
@[simps] def clear : FlushedSegment :=
  { seg with inUsed := false, nextIdx := none, prevIdx := none, refCount := 0 }

/-- `decrement_flushed_segment_ref_count` where nothing runs in between. -/
def dropRef : FlushedSegment :=
  if seg.refCount - 1 = 0 then seg.clear else seg.setRef (seg.refCount - 1)

/-- The ranges of two segments have a segment id in common. -/
def Overlaps (a b : FlushedSegment) : Prop :=
  a.segmentIdStart ≤ b.segmentIdEnd ∧ b.segmentIdStart ≤ a.segmentIdEnd

instance (a b : FlushedSegment) : Decidable (a.Overlaps b) :=
  inferInstanceAs (Decidable (_ ∧ _))

end FlushedSegment

structure PoolStats where
  flatCount : UInt32
  memtableCapacityLeCount : UInt32
  smallSegmentLeCount : UInt32
  deriving DecidableEq, Repr

/-- `update_pool_stats`. -/
def PoolStats.update (cfg : PoolConfig) (st : PoolStats) (type : IndexType) (vecCount : ℕ)
    (delta : UInt32) : PoolStats where
  flatCount := if type = .flat then st.flatCount + delta else st.flatCount
  memtableCapacityLeCount :=
    if vecCount ≤ cfg.memtableCapacity then st.memtableCapacityLeCount + delta
    else st.memtableCapacityLeCount
  smallSegmentLeCount :=
    if vecCount ≤ thresholdSmallSegmentSize then st.smallSegmentLeCount + delta
    else st.smallSegmentLeCount

structure FlushedSegmentPool where
  flushedSegments : ℕ → FlushedSegment
  flushedSegmentCount : UInt32
  headIdx : Option ℕ
  tailIdx : Option ℕ
  insertIdx : ℕ
  stats : PoolStats

namespace FlushedSegmentPool

variable (cfg : PoolConfig) (pool : FlushedSegmentPool)

def initial : FlushedSegmentPool where
  flushedSegments := fun _ => .initial
  flushedSegmentCount := 0
  headIdx := none
  tailIdx := none
  insertIdx := 0
  stats := ⟨0, 0, 0⟩

def seg (idx : ℕ) : FlushedSegment := pool.flushedSegments idx

def next (idx : ℕ) : Option ℕ := (pool.seg idx).nextIdx

def prev (idx : ℕ) : Option ℕ := (pool.seg idx).prevIdx

@[simps flushedSegmentCount headIdx tailIdx insertIdx stats]
def setSeg (idx : ℕ) (seg : FlushedSegment) : FlushedSegmentPool :=
  { pool with flushedSegments := Function.update pool.flushedSegments idx seg }

@[simps flushedSegmentCount headIdx tailIdx insertIdx]
def addStats (seg : FlushedSegment) (delta : UInt32) : FlushedSegmentPool :=
  { pool with stats := pool.stats.update cfg seg.indexType seg.vecCount delta }

@[simps flushedSegmentCount headIdx tailIdx stats]
def setInsertIdx (idx : ℕ) : FlushedSegmentPool := { pool with insertIdx := idx }

@[simps headIdx tailIdx insertIdx stats]
def setCount (n : UInt32) : FlushedSegmentPool := { pool with flushedSegmentCount := n }

@[simps flushedSegmentCount headIdx tailIdx insertIdx stats]
def setEnds (head tail : Option ℕ) : FlushedSegmentPool :=
  { pool with headIdx := head, tailIdx := tail }

/-- Slot `idx` is wired between `p` and `q`. -/
@[simps flushedSegmentCount headIdx tailIdx insertIdx stats]
def wire (p : Option ℕ) (idx : ℕ) (q : Option ℕ) : FlushedSegmentPool :=
  { pool with
    flushedSegments := fun g =>
      { pool.flushedSegments g with
        nextIdx := spliceNext idx pool.next p q g
        prevIdx := splicePrev idx pool.prev p q g } }

/-- The slots a loop over `next_idx` visits. No list has more of them than the array. -/
def members : List ℕ := walk pool.next maxSegmentsCount pool.headIdx

/-- The slots visited by a loop that also stops at `tail_idx`. -/
def membersToTail : List ℕ := walkTo pool.next pool.tailIdx maxSegmentsCount pool.headIdx

/-- `reserve_flushed_segment`. -/
def reserve : Option (ℕ × FlushedSegmentPool) :=
  ((List.range' pool.insertIdx (maxSegmentsCount - pool.insertIdx)).find?
    fun idx => !(pool.seg idx).inUsed).map
    fun idx => (idx, (pool.setSeg idx { pool.seg idx with inUsed := true }).setInsertIdx (idx + 1))

/-- The neighbours `register_flushed_segment` chooses for a segment that begins at `start`:
behind the last one that does not begin later. -/
def insertionPoint (start : SegmentId) : Option ℕ × Option ℕ :=
  match pool.headIdx with
  | none => (none, none)
  | some head =>
      match seekBack pool.prev (fun cur => !(start < (pool.seg cur).segmentIdStart))
          maxSegmentsCount pool.tailIdx with
      | none => (none, some head)
      | some cur => (some cur, pool.next cur)

/-- `register_flushed_segment`. -/
def register (idx : ℕ) : FlushedSegmentPool :=
  let pool := pool.setSeg idx ((pool.seg idx).setRef 1)
  let (p, q) := pool.insertionPoint (pool.seg idx).segmentIdStart
  (((pool.wire p idx q).setEnds (if p = none then some idx else pool.headIdx)
    (if q = none then some idx else pool.tailIdx)).setCount
    (pool.flushedSegmentCount + 1)).addStats cfg (pool.seg idx) 1

/-- `cleanup_flushed_segment` up to its attempt to take the lock. -/
def cleanup (idx : ℕ) : FlushedSegmentPool :=
  (pool.setSeg idx (pool.seg idx).clear).setCount (pool.flushedSegmentCount - 1)

/-- A freed slot below `insert_idx` is preferred for reuse. -/
def rewind (idx : ℕ) : FlushedSegmentPool :=
  if idx < pool.insertIdx then pool.setInsertIdx idx else pool

/-- `discard_reserved_segment`. -/
def discard (idx : ℕ) : FlushedSegmentPool :=
  (pool.setSeg idx (pool.seg idx).clear).rewind idx

/-- `decrement_flushed_segment_ref_count` under the write lock of the caller, which the
clean-up then fails to take. -/
def dropRef (idx : ℕ) : FlushedSegmentPool :=
  let pool' := pool.setSeg idx (pool.seg idx).dropRef
  if (pool.seg idx).refCount - 1 = 0 then pool'.setCount (pool.flushedSegmentCount - 1) else pool'

/-- `replace_flushed_segments_n`. -/
def replaceN (olds : List ℕ) (idx : ℕ) : FlushedSegmentPool :=
  match olds.head?, olds.getLast? with
  | some first, some last =>
      let p := pool.prev first
      let q := pool.next last
      let pool := olds.foldl (fun pool old => pool.addStats cfg (pool.seg old) (-1)) pool
      let pool := olds.foldl dropRef pool
      let pool := pool.setEnds (if pool.headIdx = some first then some idx else pool.headIdx)
        (if pool.tailIdx = some last then some idx else pool.tailIdx)
      let pool := pool.wire p idx q
      let pool := pool.setSeg idx ((pool.seg idx).setRef 1)
      let pool := pool.addStats cfg (pool.seg idx) 1
      pool.setCount (pool.flushedSegmentCount - UInt32.ofNat (olds.length - 1))
  | _, _ => pool

/-- `find_segment_by_sids`. -/
def findSegmentBySids (startSid endSid : SegmentId) : Option ℕ :=
  pool.membersToTail.find? fun idx => (pool.seg idx).inUsed &&
    (pool.seg idx).segmentIdStart = startSid && (pool.seg idx).segmentIdEnd = endSid

/-- `find_strictly_containing`. -/
def findStrictlyContaining (a b : SegmentId) : Option ℕ :=
  pool.membersToTail.find? fun idx => (pool.seg idx).inUsed &&
    (pool.seg idx).segmentIdStart ≤ a && b ≤ (pool.seg idx).segmentIdEnd &&
    !((pool.seg idx).segmentIdStart = a && (pool.seg idx).segmentIdEnd = b)

/-- One file of `load_all_segments_from_disk` or its mmap variant. -/
def loadOne (useMmap : Bool) (m : SegmentMetadata) : FlushedSegmentPool :=
  match pool.reserve with
  | none => pool
  | some (idx, pool) =>
      (pool.setSeg idx ((pool.seg idx).load (some m) useMmap)).register cfg idx

/-- `load_all_segments_from_disk` on the files the scan returned. -/
def loadAll (useMmap : Bool) (files : List SegmentMetadata) : FlushedSegmentPool :=
  files.foldl (fun pool m => pool.loadOne cfg useMmap m) initial

end FlushedSegmentPool

end VectorLsm
