import VectorLsm.Pool.Machine

/-! # Dropping references one atomic step at a time

The pool of flushed segments under searches, VACUUM updates and replacements. Every subtraction
from a reference count is a step and so is the test that follows it, also inside
`replace_flushed_segments_n`, which holds the write lock meanwhile.
-/

namespace VectorLsm.Retire

open FlushedSegmentPool

/-- A call of `replace_flushed_segments_n` that has not returned. -/
structure Replacement where
  idx : ℕ
  /-- The replaced segments whose count is decremented, and those whose turn is to come. -/
  done : List ℕ
  todo : List ℕ
  /-- The neighbours, read before any count is touched. -/
  prevIdx : Option ℕ
  nextIdx : Option ℕ
  /-- The segment whose count is decremented and not yet tested. -/
  testing : Option ℕ
  deriving DecidableEq, Repr

/-- The segments that are replaced. -/
def Replacement.olds (w : Replacement) : List ℕ := w.done ++ w.todo

/-- What a call of `cleanup_flushed_segment` found. -/
structure Cleanup where
  idx : ℕ
  inUsed : Bool
  retired : Bool
  held : ℕ
  deriving DecidableEq, Repr

structure State where
  pool : FlushedSegmentPool
  writer : Option Replacement
  /-- The slots a thread has reserved and not yet linked. -/
  reserved : List ℕ
  /-- References held by searches and VACUUM updates, by slot. -/
  held : ℕ → ℕ
  /-- Drops that have subtracted and are about to test for zero. -/
  dropping : ℕ → ℕ
  /-- History: the slot was handed to a replacement and not reserved since. -/
  retired : ℕ → Bool
  /-- History: how often the slot was replaced. -/
  retirements : ℕ → ℕ
  /-- History: the calls of `cleanup_flushed_segment`. -/
  cleanups : List Cleanup

namespace State

variable (s : State)

/-- The test the writer is about to make, counted among the drops. -/
def writerTests (g : ℕ) : ℕ := if (s.writer.bind Replacement.testing) = some g then 1 else 0

/-- References taken on the slots of a list. -/
def acquire (gs : List ℕ) : State :=
  { s with
    pool := { s.pool with
      flushedSegments := fun g =>
        (s.pool.seg g).setRef ((s.pool.seg g).refCount + gs.count g) }
    held := fun g => s.held g + gs.count g }

/-- `atomic_fetch_sub` on the count of `g`. -/
def subtract (g : ℕ) : State :=
  { s with
    pool := s.pool.setSeg g ((s.pool.seg g).setRef ((s.pool.seg g).refCount - 1))
    dropping := Function.update s.dropping g (s.dropping g + 1) }

/-- `cleanup_flushed_segment`, whose attempt to take the write lock may succeed. -/
def cleanup (g : ℕ) (lockFree : Bool) : State :=
  { s with
    pool := if lockFree then (s.pool.cleanup g).rewind g else s.pool.cleanup g
    cleanups := ⟨g, (s.pool.seg g).inUsed, s.retired g, s.held g⟩ :: s.cleanups }

/-- The test for zero behind a subtraction. -/
def test (g : ℕ) (lockFree : Bool) : State :=
  let s := { s with dropping := Function.update s.dropping g (s.dropping g - 1) }
  if (s.pool.seg g).refCount = 0 then s.cleanup g lockFree else s

/-- `reserve_flushed_segment` with a free slot found. -/
def reserve (idx : ℕ) (pool : FlushedSegmentPool) : State :=
  { s with
    pool := pool
    reserved := idx :: s.reserved
    retired := Function.update s.retired idx false }

/-- `replace_flushed_segments_n` up to the first decrement. -/
def replace (cfg : PoolConfig) (olds : List ℕ) (idx : ℕ) : State :=
  { s with
    pool := olds.foldl (fun pool old => pool.addStats cfg (pool.seg old) (-1)) s.pool
    writer := some
      { idx := idx, done := [], todo := olds, prevIdx := olds.head?.bind s.pool.prev,
        nextIdx := olds.getLast?.bind s.pool.next, testing := none }
    retired := fun g => if g ∈ olds then true else s.retired g
    retirements := fun g => s.retirements g + olds.count g }

end State

/-- The rest of `replace_flushed_segments_n`, behind the decrements. -/
def relink (cfg : PoolConfig) (pool : FlushedSegmentPool) (w : Replacement) :
    FlushedSegmentPool :=
  let pool := pool.setEnds (if pool.headIdx = w.olds.head? then some w.idx else pool.headIdx)
    (if pool.tailIdx = w.olds.getLast? then some w.idx else pool.tailIdx)
  let pool := pool.wire w.prevIdx w.idx w.nextIdx
  let pool := pool.setSeg w.idx ((pool.seg w.idx).setRef 1)
  let pool := pool.addStats cfg (pool.seg w.idx) 1
  pool.setCount (pool.flushedSegmentCount - UInt32.ofNat (w.olds.length - 1))

inductive Action where
  | reserve
  /-- `load_and_set_segment` on a reserved slot. -/
  | load (idx : ℕ) (m : Option SegmentMetadata) (useMmap : Bool)
  /-- The assignments of a rebuild or a merge to a reserved slot. -/
  | fill (idx : ℕ) (m : SegmentMetadata)
  | register (idx : ℕ)
  | discard (idx : ℕ)
  /-- The read section of `vector_search`. -/
  | search
  /-- The read section of `SEGMENT_UPDATE_VACUUM`. -/
  | pin (startSid endSid : SegmentId)
  /-- `decrement_flushed_segment_ref_count`, the subtraction. -/
  | drop (g : ℕ)
  /-- Its test for zero; the clean-up may find the lock free. -/
  | check (g : ℕ) (lockFree : Bool)
  /-- An adoption or a compaction calls `replace_flushed_segments_n`. -/
  | replace (olds : List ℕ) (idx : ℕ)
  /-- The lock section of `InternalSegmentUpgradeTaskType`, up to the same point. -/
  | upgrade (u : Pool.UpgradeTask)
  /-- The writer's own subtraction, its test, and what follows the last of them. -/
  | writerDrop
  | writerCheck
  | relink
  deriving DecidableEq, Repr

def step (cfg : PoolConfig) (s : State) : Action → Option State
  | .reserve =>
      if s.writer = none then
        match s.pool.reserve with
        | none => some s
        | some (idx, pool) => some (s.reserve idx pool)
      else none
  | .load idx m useMmap =>
      if idx ∈ s.reserved then
        some { s with pool := s.pool.setSeg idx ((s.pool.seg idx).load m useMmap) }
      else none
  | .fill idx m =>
      if idx ∈ s.reserved then
        some { s with pool := s.pool.setSeg idx ((s.pool.seg idx).fill m) }
      else none
  | .register idx =>
      if s.writer = none ∧ idx ∈ s.reserved then
        some { s with pool := s.pool.register cfg idx, reserved := s.reserved.erase idx }
      else none
  | .discard idx =>
      if s.writer = none ∧ idx ∈ s.reserved then
        some { s with pool := s.pool.discard idx, reserved := s.reserved.erase idx }
      else none
  | .search =>
      if s.writer = none then
        some (s.acquire (s.pool.membersToTail.filter fun g => (s.pool.seg g).inUsed))
      else none
  | .pin lo hi =>
      if s.writer = none then
        match s.pool.findSegmentBySids lo hi with
        | none => some s
        | some g => some (s.acquire [g])
      else none
  | .drop g =>
      if 0 < s.held g then
        some { s.subtract g with held := Function.update s.held g (s.held g - 1) }
      else none
  | .check g lockFree =>
      -- while a replacement runs, the lock it holds is not free
      if s.writerTests g < s.dropping g ∧ (lockFree → s.writer = none) then
        some (s.test g lockFree)
      else none
  | .replace olds idx =>
      if s.writer = none ∧ olds ≠ [] ∧ idx ∈ s.reserved then some (s.replace cfg olds idx)
      else none
  | .upgrade u =>
      if s.writer = none then
        if Pool.upgradable s.pool u then
          match s.pool.reserve with
          | none => some s
          | some (idx, pool) =>
              let pool := pool.setSeg idx
                ((pool.seg idx).fill (Pool.upgradeMetadata (s.pool.seg u.segmentIdx)))
              some ((s.reserve idx pool).replace cfg [u.segmentIdx] idx)
        else some s
      else none
  | .writerDrop =>
      match s.writer with
      | some { idx := idx, done := done, todo := g :: todo, prevIdx := p, nextIdx := q,
               testing := none } =>
          some { s.subtract g with
            writer := some { idx := idx, done := done ++ [g], todo := todo, prevIdx := p,
                             nextIdx := q, testing := some g } }
      | _ => none
  | .writerCheck =>
      match s.writer with
      | some w =>
          match w.testing with
          | some g => some { s.test g false with writer := some { w with testing := none } }
          | none => none
      | none => none
  | .relink =>
      match s.writer with
      | some w =>
          if w.todo = [] ∧ w.testing = none then
            some { s with
              pool := Retire.relink cfg s.pool w
              writer := none
              reserved := s.reserved.erase w.idx }
          else none
      | none => none

/-- The pool after an index load or an index build, not yet used. -/
def Start (cfg : PoolConfig) (s : State) : Prop :=
  ∃ (files : List SegmentMetadata) (useMmap : Bool),
    s = { pool := FlushedSegmentPool.loadAll cfg useMmap files, writer := none, reserved := [],
          held := fun _ => 0, dropping := fun _ => 0, retired := fun _ => false,
          retirements := fun _ => 0, cleanups := [] }

end VectorLsm.Retire
