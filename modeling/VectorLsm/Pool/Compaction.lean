import VectorLsm.Pool.Basic

/-! # The choice of compactions

How a merge thread finds a segment to rebuild or two neighbours to merge, and how it claims
them. The search and the claim are different lock sections.
-/

namespace VectorLsm

inductive CompactionType where
  | rebuildFlat
  | rebuildDeletion
  | merge
  deriving DecidableEq, Repr

/-- `MergeTaskLocal`. -/
structure MergeTask where
  operationType : CompactionType
  segmentIdx0 : ℕ
  segmentIdx1 : Option ℕ
  mergedStartSid : SegmentId
  mergedEndSid : SegmentId
  deriving DecidableEq, Repr

/-- The task type of a priority. -/
def CompactionType.ofPriority (priority : ℕ) : CompactionType :=
  if priority = 1 then .rebuildFlat else if priority = 3 then .rebuildDeletion else .merge

/-- The slots a task replaces, in list order. -/
def MergeTask.olds (task : MergeTask) : List ℕ :=
  match task.operationType, task.segmentIdx1 with
  | .merge, some idx1 => [task.segmentIdx0, idx1]
  | _, _ => [task.segmentIdx0]

namespace FlushedSegmentPool

variable (cfg : PoolConfig) (pool : FlushedSegmentPool)

/-- In service, not claimed and fully loaded. -/
def available (idx : ℕ) : Bool :=
  (pool.seg idx).inUsed && !(pool.seg idx).isCompacting &&
    (pool.seg idx).loadState = .fullyLoaded

/-- `CANDIDATE_OK`. -/
def candidateOk (idx : ℕ) : Bool :=
  pool.available idx && (pool.seg idx).indexType ≠ .diskann

/-- `choose_adjacent_smaller_pool`. -/
def chooseAdjacentSmaller (idx : ℕ) : Option ℕ :=
  match (pool.prev idx).filter pool.candidateOk, (pool.next idx).filter pool.candidateOk with
  | none, none => none
  | some prev, none => some prev
  | none, some next => some next
  | some prev, some next =>
      if (pool.seg prev).vecCount ≤ (pool.seg next).vecCount then some prev else some next

/-- The partner of a merge that stays below the size limit, for a segment of at most `limit`
vectors. -/
def mergePartner (idx limit : ℕ) : Option ℕ :=
  if (pool.seg idx).indexType = .diskann then none
  else if (pool.seg idx).vecCount ≤ limit then
    (pool.chooseAdjacentSmaller idx).filter fun adj =>
      (pool.seg adj).vecCount < maxSegmentsSize &&
        (pool.seg idx).vecCount + (pool.seg adj).vecCount < maxSegmentsSize
  else none

/-- The claim a priority makes on an available segment: none, or the slots in list order. -/
def shouldClaim (priority idx : ℕ) : Option (ℕ × Option ℕ) :=
  let ordered := fun adj =>
    if (pool.seg adj).segmentIdStart < (pool.seg idx).segmentIdStart then (adj, some idx)
    else (idx, some adj)
  match priority with
  | 1 => if (pool.seg idx).indexType = .flat then some (idx, none) else none
  | 2 => (pool.mergePartner idx cfg.memtableCapacity).map ordered
  | 3 =>
      if 0 < (pool.seg idx).vecCount ∧
          cfg.overDeleted (pool.seg idx).deleteCount (pool.seg idx).vecCount then
        some (idx, none)
      else none
  | 4 => (pool.mergePartner idx thresholdSmallSegmentSize).map ordered
  | 5 => (pool.mergePartner idx (maxSegmentsSize - 1)).map ordered
  | _ => none

/-- One pass of `traverse_and_check_priority_pool` under the read lock. Only the first pass
looks at the head before it starts. -/
def traverse (priority : ℕ) (firstPass : Bool) : Option (ℕ × Option ℕ) :=
  if firstPass && pool.headIdx.all fun head => !(pool.seg head).inUsed then none
  else
    pool.members.findSome? fun cur =>
      if pool.available cur then pool.shouldClaim cfg priority cur else none

/-- The counter that lets `scan_and_claim_merge_task_pool` skip a priority. -/
def priorityGate (priority : ℕ) : Bool :=
  match priority with
  | 1 => 0 < pool.stats.flatCount
  | 2 => 0 < pool.stats.memtableCapacityLeCount
  | 4 => 0 < pool.stats.smallSegmentLeCount
  | _ => true

def setCompacting (idx : ℕ) (b : Bool) : FlushedSegmentPool :=
  pool.setSeg idx { pool.seg idx with isCompacting := b }

/-- `claim_merge_task_pool`. -/
def claimTask (type : CompactionType) (idx0 : ℕ) (idx1 : Option ℕ) :
    Option (FlushedSegmentPool × MergeTask) :=
  if !pool.available idx0 then none
  else
    match type, idx1 with
    | .merge, none => none
    | .merge, some i1 =>
        if !pool.available i1 then none
        else
          some ((pool.setCompacting idx0 true).setCompacting i1 true,
            ⟨.merge, idx0, some i1, (pool.seg idx0).segmentIdStart, (pool.seg i1).segmentIdEnd⟩)
    | type, idx1 =>
        some (pool.setCompacting idx0 true,
          ⟨type, idx0, idx1, (pool.seg idx0).segmentIdStart, (pool.seg idx0).segmentIdEnd⟩)

/-- The counters a compaction adds once more after `replace_flushed_segments_n`. -/
def addCompactionStats (vecCount : ℕ) (type : IndexType) : FlushedSegmentPool :=
  { pool with stats := pool.stats.update cfg type vecCount 1 }

end FlushedSegmentPool

end VectorLsm
