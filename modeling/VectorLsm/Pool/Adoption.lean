import VectorLsm.Pool.Basic

/-! # The adoption decision

How `dpv_pool_adopt` classifies a segment file pulled from the primary against the pool and the
standby memtables it is to displace.
-/

namespace VectorLsm

/-- The arguments of `dpv_pool_adopt`. -/
structure Adoption where
  startSid : SegmentId
  endSid : SegmentId
  version : ℕ
  /-- The standby memtables found in the range. -/
  memtableCover : List SegmentId
  deriving DecidableEq, Repr

/-- What is remembered of a predecessor between the decision and the installation. -/
structure PredSnap where
  segIdx : ℕ
  startSid : SegmentId
  endSid : SegmentId
  version : ℕ
  deriving DecidableEq, Repr

inductive AdoptCase where
  /-- Case A. -/
  | exact
  /-- Case B, or a range that cannot be tiled. -/
  | stale
  /-- Case D. -/
  | append
  /-- Case E. -/
  | tile
  deriving DecidableEq, Repr

namespace FlushedSegmentPool

variable (pool : FlushedSegmentPool)

def snap (idx : ℕ) : PredSnap where
  segIdx := idx
  startSid := (pool.seg idx).segmentIdStart
  endSid := (pool.seg idx).segmentIdEnd
  version := (pool.seg idx).version

/-- The slot still holds the segment that was remembered. -/
def Holds (p : PredSnap) : Prop :=
  (pool.seg p.segIdx).inUsed ∧ pool.snap p.segIdx = p

instance (p : PredSnap) : Decidable (pool.Holds p) := inferInstanceAs (Decidable (_ ∧ _))

/-- Every id from `lo` up to but not including `hi` has a memtable. -/
def inCover (cover : List SegmentId) (lo hi : SegmentId) : Bool :=
  (List.range' lo (hi - lo)).all fun sid => cover.contains sid

/-- The walk that tiles the range of `a` from `tileLo` on with segments and memtables. -/
def tileWalk (a : Adoption) :
    List ℕ → SegmentId → List PredSnap → Option (SegmentId × List PredSnap)
  | [], tileLo, snaps => some (tileLo, snaps)
  | cur :: rest, tileLo, snaps =>
      if (pool.seg cur).segmentIdEnd < a.startSid then
        if rest.head? = pool.headIdx then some (tileLo, snaps) else tileWalk a rest tileLo snaps
      else if a.endSid < (pool.seg cur).segmentIdStart then some (tileLo, snaps)
      -- a segment that reaches past the range cannot be displaced
      else if a.endSid < (pool.seg cur).segmentIdEnd then none
      else if !inCover a.memtableCover tileLo (pool.seg cur).segmentIdStart then none
      else if maxSegmentsCount ≤ snaps.length then none
      else tileWalk a rest ((pool.seg cur).segmentIdEnd + 1) (snaps ++ [pool.snap cur])

/-- Steps 3.1 and 3.2 of `dpv_pool_adopt`: the case and the predecessors to displace. -/
def decideCase (a : Adoption) : AdoptCase × List PredSnap :=
  match pool.findSegmentBySids a.startSid a.endSid with
  | some found =>
      if (pool.seg found).inUsed && (pool.seg found).version < a.version then
        (.exact, [pool.snap found])
      else (.stale, [])
  | none =>
      if (pool.findStrictlyContaining a.startSid a.endSid).isSome then (.stale, [])
      else
        match pool.tileWalk a pool.members a.startSid [] with
        | none => (.stale, [])
        | some (tileLo, snaps) =>
            if !inCover a.memtableCover tileLo (a.endSid + 1) then (.stale, [])
            else if snaps = [] then (.append, [])
            else (.tile, snaps)

end FlushedSegmentPool

end VectorLsm
