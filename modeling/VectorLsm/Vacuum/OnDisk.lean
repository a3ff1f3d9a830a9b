import VectorLsm.Lib.Run
import VectorLsm.Lib.Transition
import VectorLsm.Segment.Scan
import VectorLsm.Segment.Marks

/-! # Vacuum of segment files against compaction

Step 3 of `bulk_delete_lsm_index` with the worker's `SEGMENT_UPDATE_VACUUM`, and any number of
runs of `rebuild_index_pool` and `merge_adjacent_segments_pool`. Each read or write of files,
each lock section of the pool and each wait for a `per_seg_mutex` is a step.
-/

namespace VectorLsm

namespace Disk

/-- The files of one version of a range, with the latest subversion of the bitmap. -/
def load (d : Disk) (i : SegmentFileInfo) : Option SegmentFile := d.find? (·.info = i)

/-- `write_bitmap_file_with_subversion` after the latest subversion. -/
def writeBitmap (d : Disk) (i : SegmentFileInfo) (bitmap : ℕ → Bool) (deleteCount : ℕ) : Disk :=
  d.map fun f => if f.info = i then f.setBitmap bitmap deleteCount else f

/-- `find_latest_segment_version` with the files of that version. -/
def loadLatest (d : Disk) (lo hi : SegmentId) : Option SegmentFile :=
  d.load ⟨lo, hi, d.latestVersion lo hi⟩

end Disk

namespace OnDisk

/-- A member of the pool: the arrays and fields of a slot in service. -/
structure PoolSegment where
  /-- Which use of a slot this is. -/
  uid : ℕ
  /-- `bitmap` is the one in memory. -/
  file : SegmentFile
  isCompacting : Bool

/-- The fields that stay as they are while a slot is in use. -/
structure SegmentRef where
  uid : ℕ
  info : SegmentFileInfo
  vecCount : ℕ
  deriving DecidableEq

namespace PoolSegment

def info (p : PoolSegment) : SegmentFileInfo := p.file.info

def ref (p : PoolSegment) : SegmentRef := ⟨p.uid, p.file.info, p.file.mapping.length⟩

end PoolSegment

/-- Program points of `rebuild_index_pool` (one slot) and `merge_adjacent_segments_pool` (two). -/
inductive CompactionPc where
  | idle
  | claimed (olds : List SegmentRef)
  /-- The files are read and the first `held` mutexes taken. -/
  | loaded (olds : List SegmentRef) (files : List SegmentFile) (held : ℕ)
  /-- The bitmaps are read again and the new arrays filled. -/
  | reloaded (olds : List SegmentRef) (new : SegmentFile)
  /-- The new files are on disk. -/
  | published (olds : List SegmentRef) (new : SegmentFile)
  | installed (olds : List SegmentRef)
  /-- Given up, `is_compacting` not cleared yet. -/
  | failed (olds : List SegmentRef)
  /-- The arrays were read past their ends. -/
  | crashed

namespace CompactionPc

/-- The claimed slots that the task has not replaced. -/
def olds : CompactionPc → List SegmentRef
  | .claimed olds | .loaded olds _ _ | .reloaded olds _ | .published olds _ | .failed olds => olds
  | _ => []

/-- The slots the task has replaced. -/
def gone : CompactionPc → List SegmentRef
  | .installed olds => olds
  | _ => []

/-- The slots whose mutex the task holds. -/
def held : CompactionPc → List SegmentRef
  | .loaded olds _ n => olds.take n
  | .reloaded olds _ | .published olds _ | .installed olds => olds
  | _ => []

/-- The new segment, once its arrays are filled. -/
def new? : CompactionPc → Option SegmentFile
  | .reloaded _ new | .published _ new => some new
  | _ => none

/-- The new segment on disk and not on the list yet. -/
def onDisk? : CompactionPc → Option SegmentFile
  | .published _ new => some new
  | _ => none

end CompactionPc

/-- Program points of step 3; the worker acts between `request` and its answer. -/
inductive VacuumPc where
  | idle
  /-- At `retry_segment` with `files[fi]`. -/
  | segment (i : SegmentFileInfo) (rest : List SegmentFileInfo)
  | marked (i : SegmentFileInfo) (rest : List SegmentFileInfo) (bitmap : ℕ → Bool)
    (deleteCount : ℕ)
  /-- The bitmap is on disk, the worker has not looked for the segment yet. -/
  | request (i : SegmentFileInfo) (rest : List SegmentFileInfo)
  /-- The worker references the slot. -/
  | referenced (i : SegmentFileInfo) (rest : List SegmentFileInfo) (o : SegmentRef)
  | locked (i : SegmentFileInfo) (rest : List SegmentFileInfo) (o : SegmentRef)
  /-- The version is the expected one and the slot is still on the list. -/
  | checked (i : SegmentFileInfo) (rest : List SegmentFileInfo) (o : SegmentRef)
  | retry (i : SegmentFileInfo) (rest : List SegmentFileInfo)
  | returned
  /-- Left by `elog(ERROR)`. -/
  | failed

namespace VacuumPc

/-- The file whose new bitmap the worker has not answered for. -/
def open? : VacuumPc → Option SegmentFileInfo
  | .request i _ | .referenced i _ _ | .locked i _ _ | .checked i _ _ => some i
  | _ => none

/-- The slot whose mutex the worker holds. -/
def held : VacuumPc → Option ℕ
  | .locked _ _ o | .checked _ _ o => some o.uid
  | _ => none

end VacuumPc

structure Config where
  callback : Tid → Bool
  /-- `vacuumed_memtable_ids`. -/
  vacuumedMemtableIds : List SegmentId

structure State where
  disk : Disk
  pool : List PoolSegment
  nextUid : ℕ
  perSegMutex : ℕ → Bool
  comp : ℕ → CompactionPc
  vac : VacuumPc
  /-- History: the dead rows vacuum has found. -/
  found : List MappedRow
  /-- History: those of the last pass, until the worker has put them in the pool. -/
  pending : List MappedRow

namespace State

@[simps] def setDisk (s : State) (d : Disk) : State := { s with disk := d }

@[simps] def setPool (s : State) (pool : List PoolSegment) : State := { s with pool := pool }

@[simps] def setMutex (s : State) (us : List ℕ) (b : Bool) : State :=
  { s with perSegMutex := fun u => if u ∈ us then b else s.perSegMutex u }

@[simps] def setComp (s : State) (t : ℕ) (pc : CompactionPc) : State :=
  { s with comp := Function.update s.comp t pc }

@[simps] def setVac (s : State) (pc : VacuumPc) : State := { s with vac := pc }

@[simps] def setFound (s : State) (rows : List MappedRow) : State :=
  { s with found := rows ++ s.found, pending := rows }

@[simps] def setPending (s : State) (rows : List MappedRow) : State := { s with pending := rows }

end State

/-- The slots of a task. -/
def uids (olds : List SegmentRef) : List ℕ := olds.map (·.uid)

def setCompacting (us : List ℕ) (b : Bool) (p : PoolSegment) : PoolSegment :=
  { p with isCompacting := if p.uid ∈ us then b else p.isCompacting }

/-- The new segment from the files read first and those read under the mutexes; its version is
found when it is written. -/
def compact : List SegmentFile → List SegmentFile → Option SegmentFile
  | [f], [f'] => some (f.rebuild f.bitmap f'.bitmap 0)
  | [_, _], [f', g'] => some (f'.merge g' 0)
  | _, _ => none

/-- `replace_flushed_segments_n`: the new member goes between what precedes the first and what
follows the last of the old ones. -/
def replace (us : List ℕ) (new : PoolSegment) (pool : List PoolSegment) : List PoolSegment :=
  Run.splice (·.uid ∉ us) new pool

/-- What a merge thread does next. -/
def compactStep (s : State) (t : ℕ) : Option State :=
  match s.comp t with
  | .idle | .crashed => none
  | .claimed olds =>
      match olds.mapM fun o => s.disk.loadLatest o.info.startSid o.info.endSid with
      | none => some (s.setComp t .crashed)
      | some files =>
          -- The loops over the arrays run to the `vec_count` of the slots.
          if files.map (·.mapping.length) = olds.map (·.vecCount) then
            some (s.setComp t (.loaded olds files 0))
          else some (s.setComp t .crashed)
  | .loaded olds files held =>
      match olds[held]? with
      | some o =>
          if s.perSegMutex o.uid then none
          else some ((s.setMutex [o.uid] true).setComp t (.loaded olds files (held + 1)))
      | none =>
          match (files.mapM fun f => s.disk.load f.info).bind (compact files) with
          | none => some (s.setComp t .crashed)
          | some new => some (s.setComp t (.reloaded olds new))
  | .reloaded olds new =>
      let new := { new with version := s.disk.latestVersion new.startSid new.endSid + 1 }
      some ((s.setDisk (new :: s.disk)).setComp t (.published olds new))
  | .published olds new =>
      let member : PoolSegment := ⟨s.nextUid, new, false⟩
      some ({ s.setPool (replace (uids olds) member s.pool) with
        nextUid := s.nextUid + 1 }.setComp t (.installed olds))
  | .installed olds => some ((s.setMutex (uids olds) false).setComp t .idle)
  | .failed olds =>
      some ((s.setPool (s.pool.map (setCompacting (uids olds) false))).setComp t .idle)

/-- `claim_merge_task_pool`: members in list order, none of them claimed. -/
def claimStep (s : State) (t : ℕ) (us : List ℕ) : Option State :=
  match s.comp t with
  | .idle =>
      let olds := s.pool.filter (·.uid ∈ us)
      if (olds.length = 1 ∨ olds.length = 2) ∧ ∀ p ∈ olds, p.isCompacting = false then
        some ((s.setPool (s.pool.map (setCompacting (uids (olds.map (·.ref))) true))).setComp t
          (.claimed (olds.map (·.ref))))
      else none
  | _ => none

/-- A failed allocation, or no free slot for a segment already on disk. -/
def giveUpStep (s : State) (t : ℕ) : Option State :=
  match s.comp t with
  | .reloaded olds _ | .published olds _ =>
      some ((s.setMutex (uids olds) false).setComp t (.failed olds))
  | _ => none

/-- The first entry of a scan that covers a segment id. -/
def covering (files : List SegmentFileInfo) (sid : SegmentId) : Option SegmentFileInfo :=
  files.find? fun i => i.startSid ≤ sid ∧ sid ≤ i.endSid

/-- On to the next entry of the scan. -/
def nextSegment : List SegmentFileInfo → VacuumPc
  | [] => .returned
  | i :: rest => .segment i rest

/-- `find_segment_by_sids`. -/
def findBySids (pool : List PoolSegment) (i : SegmentFileInfo) : Option PoolSegment :=
  pool.find? fun p => p.info.range = i.range

/-- The bitmap in memory with the bits of another one. -/
def PoolSegment.orBitmap (p : PoolSegment) (f : SegmentFile) : PoolSegment :=
  { p with file := p.file.setBitmap (fun k => p.file.bitmap k || f.bitmap k) f.deleteCount }

/-- What vacuum or the worker on its behalf does next. -/
def vacuumStep (cfg : Config) (s : State) : Option State :=
  match s.vac with
  | .returned | .failed => none
  | .idle => some (s.setVac (nextSegment s.disk.scan))
  | .segment i rest =>
      match s.disk.load i with
      | none => some (s.setVac .failed)
      | some f =>
          if i.startSid = i.endSid ∧ i.startSid ∈ cfg.vacuumedMemtableIds then
            some (s.setVac (nextSegment rest))
          else
            match f.vacuum cfg.callback with
            | none => some (s.setVac .failed)
            | some v =>
                let s := s.setFound (f.newlyDead cfg.callback)
                if v.changed then some (s.setVac (.marked i rest v.bitmap v.deleteCount))
                else some (s.setVac (nextSegment rest))
  | .marked i rest bitmap deleteCount =>
      some ((s.setDisk (s.disk.writeBitmap i bitmap deleteCount)).setVac (.request i rest))
  | .request i rest =>
      match findBySids s.pool i with
      | none => some (s.setVac (.retry i rest))
      | some p => some (s.setVac (.referenced i rest p.ref))
  | .referenced i rest o =>
      if s.perSegMutex o.uid then none
      else some ((s.setMutex [o.uid] true).setVac (.locked i rest o))
  | .locked i rest o =>
      if o.info.version = i.version ∧ (findBySids s.pool i).map (·.uid) = some o.uid then
        some (s.setVac (.checked i rest o))
      else some ((s.setMutex [o.uid] false).setVac (.retry i rest))
  | .checked i rest o =>
      let pool := match s.disk.loadLatest i.startSid i.endSid with
        | none => s.pool
        | some f => s.pool.map fun p => if p.uid = o.uid then p.orBitmap f else p
      some ((((s.setPool pool).setMutex [o.uid] false).setPending []).setVac (nextSegment rest))
  | .retry i rest =>
      match covering s.disk.scan i.startSid with
      | none => some (s.setVac (nextSegment rest))
      | some j => some (s.setVac (.segment j rest))

inductive Action where
  | claim (t : ℕ) (us : List ℕ)
  | comp (t : ℕ)
  | giveUp (t : ℕ)
  | vac
  deriving DecidableEq

def step (cfg : Config) (s : State) : Action → Option State
  | .claim t us => claimStep s t us
  | .comp t => compactStep s t
  | .giveUp t => giveUpStep s t
  | .vac => vacuumStep cfg s

end OnDisk

end VectorLsm
