import VectorLsm.DeleteCounts.Machine
import VectorLsm.Lib.Distinct
import VectorLsm.Segment.Named
import VectorLsm.Vacuum.Compactions

/-! # What VACUUM reports

The whole of `bulk_delete_lsm_index` on a primary: the growing memtable, the immutable ones and
the scan of the segment files with its retries. Between its steps rows are inserted, memtables
rotated and flushed and segments rebuilt and merged; the worker may answer either way.
-/

namespace VectorLsm.BulkDelete

open DeleteCounts OnDisk

structure Config where
  callback : Tid → Bool
  /-- `dpv_replication_role` is `DPV_ROLE_PRIMARY`. -/
  isPrimary : Bool

/-- What a pass over a memtable or a segment file does to the statistics and to the WAL. -/
structure Pass where
  /-- The rows counted as removed. -/
  dead : List MappedRow
  /-- Those whose bit was clear. -/
  masked : List MappedRow
  /-- The rows counted as index tuples. -/
  live : List MappedRow
  tombstones : List VacuumTombstones
  /-- The rows the records name. -/
  named : List MappedRow

def memtablePass (cfg : Config) (d : Disk) (checkReady : Bool) (mt : Memtable) : Pass :=
  let tombstones :=
    if cfg.isPrimary then (mt.tombstones d checkReady cfg.callback).toList else []
  { dead := markedRows (mt.dead checkReady cfg.callback) 0 mt.mappedRows
    masked := markedRows (fun i r => !mt.bitmap i && mt.dead checkReady cfg.callback i r) 0
      mt.mappedRows
    live := markedRows (fun i r => (!checkReady || mt.ready i) && !cfg.callback r.tid) 0
      mt.mappedRows
    tombstones := tombstones
    named := tombstones.flatMap (·.rows mt.mappedRows) }

/-- The loop over a segment skips the rows that are masked. -/
def segmentPass (cfg : Config) (f : SegmentFile) : Pass :=
  let tombstones := if cfg.isPrimary then f.tombstones cfg.callback else []
  { dead := f.newlyDead cfg.callback
    masked := f.newlyDead cfg.callback
    live := markedRows (fun i r => !f.bitmap i && !cfg.callback r.tid) 0 f.mapping
    tombstones := tombstones
    named := tombstones.flatMap f.namedBy }

structure Report where
  tuplesRemoved : ℕ
  numIndexTuples : ℕ
  tombstones : List VacuumTombstones
  /-- History: the rows masked, once for each bit that was set. -/
  masked : List MappedRow
  /-- History: the rows the records name. -/
  named : List MappedRow

def Report.empty : Report := ⟨0, 0, [], [], []⟩

@[simps] def Report.add (p : Pass) (r : Report) : Report where
  tuplesRemoved := r.tuplesRemoved + p.dead.length
  numIndexTuples := r.numIndexTuples + p.live.length
  tombstones := r.tombstones ++ p.tombstones
  masked := p.masked ++ r.masked
  named := p.named ++ r.named

inductive Pc where
  | idle
  /-- The growing memtable is referenced. -/
  | growing (sid : SegmentId)
  | immutables
  /-- An immutable memtable is referenced. -/
  | immutable (sid : SegmentId)
  /-- Under `vacuum_lock` the bitmap of a memtable goes to the segment flushed from it. -/
  | persist (sid : SegmentId) (i : SegmentFileInfo) (bitmap : ℕ → Bool) (deleteCount : ℕ)
  | scan
  /-- At `retry_segment` with `files[fi]`. -/
  | segment (i : SegmentFileInfo) (rest : List SegmentFileInfo)
  | marked (i : SegmentFileInfo) (rest : List SegmentFileInfo) (bitmap : ℕ → Bool)
    (deleteCount : ℕ)
  /-- The worker has been asked for `SEGMENT_UPDATE_VACUUM`. -/
  | request (i : SegmentFileInfo) (rest : List SegmentFileInfo)
  | retry (i : SegmentFileInfo) (rest : List SegmentFileInfo)
  | returned
  /-- Left by `elog(ERROR)`. -/
  | failed

namespace Pc

/-- The memtable whose `vacuum_lock` is held between two steps. -/
def locked : Pc → Option SegmentId
  | .persist sid _ _ _ => some sid
  | _ => none

/-- No segment file has been looked at. -/
def inMemtables : Pc → Bool
  | .idle | .growing _ | .immutables | .immutable _ | .persist _ _ _ _ => true
  | _ => false

end Pc

structure State where
  disk : Disk
  /-- Also those that are not listed any more. -/
  memtables : SegmentId → Option Memtable
  growing : Option SegmentId
  /-- `memtable_idxs`. -/
  immutables : List SegmentId
  comp : ℕ → CompactionPc
  vac : Pc
  growingMemtableId : SegmentId
  /-- `vacuumed_memtable_ids`. -/
  vacuumed : List SegmentId
  report : Report

namespace State

@[simps] def setDisk (s : State) (d : Disk) : State := { s with disk := d }

@[simps] def setMemtable (s : State) (sid : SegmentId) (mt : Memtable) : State :=
  { s with memtables := Function.update s.memtables sid (some mt) }

@[simps] def setComp (s : State) (t : ℕ) (pc : CompactionPc) : State :=
  { s with comp := Function.update s.comp t pc }

@[simps] def setVac (s : State) (pc : Pc) : State := { s with vac := pc }

@[simps] def add (s : State) (p : Pass) : State := { s with report := s.report.add p }

/-- The last one on the list that is older than the growing memtable of the first step and not
vacuumed yet. -/
def nextImmutable (s : State) : Option SegmentId :=
  s.immutables.reverse.find? fun sid => sid < s.growingMemtableId ∧ sid ∉ s.vacuumed

@[simps] def recordVacuumed (s : State) (sid : SegmentId) : State :=
  { s with
    vacuumed := if s.vacuumed.length < memtableNum + 1 then s.vacuumed ++ [sid] else s.vacuumed }

/-- The pass over a memtable, up to the write of its bitmap to a segment. -/
def vacuumMemtable (cfg : Config) (s : State) (sid : SegmentId) (checkReady : Bool) :
    Option State :=
  (s.memtables sid).map fun mt =>
    let mt' := Memtable.vacuum mt checkReady cfg.callback
    let s' := ((s.setMemtable sid mt').add (memtablePass cfg s.disk checkReady mt)).recordVacuumed
      sid
    match s.disk.loadLatest mt.memtableId mt.memtableId with
    | none => s'.setVac .immutables
    | some f =>
        if Memtable.found mt checkReady cfg.callback then
          s'.setVac (.persist sid f.info mt'.bitmap (countBits mt'.bitmap mt.validSize))
        else s'.setVac .immutables

/-- A segment that was vacuumed as a memtable. -/
def skips (s : State) (i : SegmentFileInfo) : Bool :=
  decide (i.startSid = i.endSid) && s.vacuumed.elem i.startSid

end State

/-- On to the next entry of the scan. -/
def nextSegment : List SegmentFileInfo → Pc
  | [] => .returned
  | i :: rest => .segment i rest

def vacuumStep (cfg : Config) (s : State) : Option State :=
  match s.vac with
  | .idle =>
      match s.growing with
      | none => some (s.setVac .immutables)
      | some sid => some ({ s with growingMemtableId := sid }.setVac (.growing sid))
  | .growing sid => s.vacuumMemtable cfg sid true
  | .immutables =>
      match s.nextImmutable with
      | none => some (s.setVac .scan)
      | some sid => some (s.setVac (.immutable sid))
  | .immutable sid => s.vacuumMemtable cfg sid false
  | .persist _ i bitmap n => some ((s.setDisk (s.disk.writeBitmap i bitmap n)).setVac .immutables)
  | .scan => some (s.setVac (nextSegment s.disk.scan))
  | .segment i rest =>
      match s.disk.load i with
      | none => some (s.setVac .failed)
      | some f =>
          if s.skips i then some (s.setVac (nextSegment rest))
          else
            match f.vacuum cfg.callback with
            | none => some (s.setVac .failed)
            | some v =>
                let s' := s.add (segmentPass cfg f)
                if v.changed then some (s'.setVac (.marked i rest v.bitmap v.deleteCount))
                else some (s'.setVac (nextSegment rest))
  | .marked i rest bitmap n =>
      some ((s.setDisk (s.disk.writeBitmap i bitmap n)).setVac (.request i rest))
  | .retry i rest =>
      match covering s.disk.scan i.startSid with
      | none => some (s.setVac (nextSegment rest))
      | some j => some (s.setVac (.segment j rest))
  | .request _ _ | .returned | .failed => none

inductive Action where
  /-- A new growing memtable. -/
  | register (sid : SegmentId) (capacity : ℕ)
  | reserve (sid : SegmentId) (tid : Tid)
  | publish (sid : SegmentId) (i : ℕ)
  /-- The growing memtable is sealed and queued. -/
  | rotate
  /-- `lsm_flush_one_pending`, with the `vacuum_lock` of the memtable. -/
  | flush (sid : SegmentId)
  /-- A merge thread claims and reads the latest versions of its segments. -/
  | claim (t : ℕ) (ranges : List (SegmentId × SegmentId))
  | comp (t : ℕ)
  | vacuum
  /-- The worker answers, with RETRY or not. -/
  | answer (retry : Bool)
  deriving DecidableEq

def step (cfg : Config) (s : State) : Action → Option State
  | .register sid capacity =>
      match s.growing, s.memtables sid with
      | none, none => some { s.setMemtable sid (.blank sid capacity) with growing := some sid }
      | _, _ => none
  | .reserve sid tid =>
      (s.memtables sid).bind fun mt => (Memtable.reserve mt tid).map (s.setMemtable sid)
  | .publish sid i =>
      (s.memtables sid).bind fun mt =>
        if i < mt.validSize ∧ mt.ready i = false then
          some (s.setMemtable sid (mt.publishSlotRelease i))
        else none
  | .rotate =>
      s.growing.bind fun sid => (s.memtables sid).bind fun mt =>
        if s.immutables.length < memtableNum then
          some { s.setMemtable sid mt.setSealed with
            growing := none
            immutables := s.immutables ++ [sid] }
        else none
  | .flush sid =>
      (s.memtables sid).bind fun mt =>
        if sid ∈ s.immutables ∧ mt.readyCnt = mt.validSize ∧ s.vac.locked ≠ some sid then
          some { s.setDisk (Memtable.flush mt (s.disk.latestVersion mt.memtableId mt.memtableId + 1)
              :: s.disk) with
            immutables := s.immutables.filter (· ≠ sid) }
        else none
  | .claim t ranges => ((s.comp t).claim s.disk ranges).map (s.setComp t)
  | .comp t => ((s.comp t).next s.disk).map fun p => (s.setDisk p.1).setComp t p.2
  | .vacuum => vacuumStep cfg s
  | .answer retry =>
      match s.vac with
      | .request i rest => some (s.setVac (if retry then .retry i rest else nextSegment rest))
      | _ => none

/-- VACUUM is called on an index whose files go back to memtables. -/
structure Start (s : State) : Prop where
  files : ∀ f ∈ s.disk, f.Descended
  memtables : ∀ sid mt, s.memtables sid = some mt → mt.memtableId = sid
  comp : ∀ t, s.comp t = .idle
  vac : s.vac = .idle
  growingMemtableId : s.growingMemtableId = 0
  vacuumed : s.vacuumed = []
  report : s.report = .empty

/-- Each row is reported once: the count is that of the rows newly masked, and no row is named
twice. -/
structure Once (s : State) : Prop where
  count : s.report.tuplesRemoved = Distinct.distinct (s.report.masked.map (·.name))
  named : (s.report.named.map (·.name)).Nodup

/-- No row of the memtable that the callback reports is masked already. -/
def Unmasked (cfg : Config) (checkReady : Bool) (mt : Memtable) : Prop :=
  ∀ p ∈ mt.mappedRows.zipIdx, mt.dead checkReady cfg.callback p.2 p.1 = true →
    mt.bitmap p.2 = false

/-- The file has the bits of the dead rows that were masked elsewhere. -/
def Carries (cfg : Config) (masked : List MappedRow) (f : SegmentFile) : Prop :=
  ∀ p ∈ f.mapping.zipIdx, cfg.callback p.1.tid = true → p.1.name ∈ masked.map (·.name) →
    f.bitmap p.2 = true

/-- The condition on a step: a memtable that is scanned has no dead row masked already, and a
segment file that is scanned has the bit of every dead row that this run has masked before, in a
memtable or in an earlier version. -/
def Clear (cfg : Config) (s : State) : Action → Prop
  | .vacuum =>
      match s.vac with
      | .growing sid => ∀ mt ∈ s.memtables sid, Unmasked cfg true mt
      | .immutable sid => ∀ mt ∈ s.memtables sid, Unmasked cfg false mt
      | .segment i _ => ∀ f ∈ s.disk.load i, s.skips i = false → Carries cfg s.report.masked f
      | _ => True
  | _ => True

end VectorLsm.BulkDelete
