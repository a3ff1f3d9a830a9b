import VectorLsm.DeleteCounts.Machine
import VectorLsm.Memtable.Tenants
import VectorLsm.Vacuum.Compactions

/-! # VACUUM and the tenants of the memtable buffer

`bulk_delete_lsm_index` next to the inserts, rotations and flushes of an index, with other
indexes in the buffer and compactions on disk. The scan of a memtable takes one slot a step.
-/

namespace VectorLsm.Tenancy

open Transition
open OnDisk (covering)
open BulkDelete (CompactionPc)
open Memtable (HasRow)

inductive Pc where
  | idle
  | immutables
  /-- The memtable on the list is referenced, its id not compared yet. -/
  | chosen (g : SlotIdx) (sid : SegmentId)
  /-- About to take `vacuum_lock`; `growing` in step 1. -/
  | referenced (g : SlotIdx) (growing : Bool)
  /-- At slot `i` of the `validSize` there were. -/
  | slot (g : SlotIdx) (growing : Bool) (validSize i : ℕ) (changed : Bool)
  /-- Behind the last slot. -/
  | scanned (g : SlotIdx) (growing : Bool) (validSize : ℕ) (changed : Bool)
  /-- The bitmap goes to the segment flushed from the memtable. -/
  | persist (g : SlotIdx) (growing : Bool) (i : SegmentFileInfo) (bitmap : ℕ → Bool)
    (deleteCount : ℕ)
  | unlock (g : SlotIdx) (growing : Bool)
  | unref (g : SlotIdx) (growing : Bool)
  /-- The id is recorded without a reference. -/
  | record (g : SlotIdx) (growing : Bool)
  | files
  /-- At `retry_segment` with `files[fi]`. -/
  | segment (i : SegmentFileInfo) (rest : List SegmentFileInfo)
  | marked (i : SegmentFileInfo) (rest : List SegmentFileInfo) (bitmap : ℕ → Bool)
    (deleteCount : ℕ)
  /-- The worker has been asked for `SEGMENT_UPDATE_VACUUM`. -/
  | request (i : SegmentFileInfo) (rest : List SegmentFileInfo)
  | retry (i : SegmentFileInfo) (rest : List SegmentFileInfo)
  | returned
  /-- Left by `elog(ERROR)`. -/
  | failed

namespace Pc

/-- The memtable VACUUM references. -/
def memtable : Pc → Option SlotIdx
  | .chosen g _ | .referenced g _ | .slot g _ _ _ _ | .scanned g _ _ _ | .persist g _ _ _ _
  | .unlock g _ | .unref g _ => some g
  | .idle | .immutables | .record _ _ | .files | .segment _ _ | .marked _ _ _ _ | .request _ _
  | .retry _ _ | .returned | .failed => none

/-- The bitmap about to be written. -/
def pending : Pc → Option (SegmentFileInfo × (ℕ → Bool) × ℕ)
  | .persist _ _ i bitmap n | .marked i _ bitmap n => some (i, bitmap, n)
  | _ => none

end Pc

structure Config where
  mem : Memtable.Config
  callback : Tid → Bool

structure State where
  mem : Memtable.State Unit
  disk : Disk
  comp : ℕ → CompactionPc
  vac : Pc
  growingMemtableId : SegmentId
  /-- `vacuumed_memtable_ids`. -/
  vacuumed : List SegmentId
  /-- History: the slots VACUUM has masked, while the memtable is referenced. -/
  marked : List (SlotIdx × ℕ)
  /-- History: the bitmaps VACUUM has written, with the files they were written for. -/
  writes : List (SegmentFile × (ℕ → Bool))

namespace State

variable (cfg : Config) (s : State)

@[simps] def setDisk (d : Disk) : State := { s with disk := d }

/-- What was masked goes with the memtable. -/
@[simps] def setMem (m : Memtable.State Unit) : State :=
  { s with mem := m, marked := s.marked.filter fun p => 0 < (m.slots p.1).refCount }

@[simps] def setComp (t : ℕ) (pc : CompactionPc) : State :=
  { s with comp := Function.update s.comp t pc }

@[simps] def setVac (pc : Pc) : State := { s with vac := pc }

@[simps] def setGrowingId (sid : SegmentId) : State := { s with growingMemtableId := sid }

@[simps] def mark (p : SlotIdx × ℕ) : State := { s with marked := p :: s.marked }

/-- `write_bitmap_file_with_subversion`. -/
@[simps] def writeBitmap (i : SegmentFileInfo) (bitmap : ℕ → Bool) (n : ℕ) : State :=
  { s with
    disk := s.disk.writeBitmap i bitmap n
    writes := (s.disk.load i).toList.map (·, bitmap) ++ s.writes }

@[simps] def recordVacuumed (sid : SegmentId) : State :=
  { s with
    vacuumed := if s.vacuumed.length < memtableNum + 1 then s.vacuumed ++ [sid] else s.vacuumed }

/-- What VACUUM does to the buffer. -/
def memStep (a : Memtable.Action Unit) : Option State :=
  (Memtable.step cfg.mem s.mem a).map s.setMem

/-- The last one on the list that is older than the growing memtable of the first step and not
vacuumed yet. -/
def nextImmutable : Option SlotIdx :=
  s.mem.memtableIdxs.reverse.find? fun g =>
    (s.mem.mt g).memtableId < s.growingMemtableId ∧ (s.mem.mt g).memtableId ∉ s.vacuumed

/-- The loop over the growing memtable looks at the ready flags. -/
def isDead (g : SlotIdx) (growing : Bool) (i : ℕ) : Bool :=
  (!growing || (s.mem.mt g).ready i) && cfg.callback ((s.mem.mt g).rows i).tid

/-- Files of the memtable are on disk. -/
def persisted (g : SlotIdx) : Option SegmentFile :=
  s.disk.loadLatest (s.mem.mt g).memtableId (s.mem.mt g).memtableId

/-- A segment that was vacuumed as a memtable. -/
def skips (i : SegmentFileInfo) : Bool :=
  decide (i.startSid = i.endSid) && s.vacuumed.elem i.startSid

end State

/-- On to the next entry of the scan. -/
def nextSegment : List SegmentFileInfo → Pc
  | [] => .returned
  | i :: rest => .segment i rest

def vacuumStep (cfg : Config) (s : State) : Option State :=
  match s.vac with
  | .idle =>
      match s.mem.growingIdx with
      | .slot g =>
          (s.memStep cfg (.acquire g)).map fun s' =>
            (s'.setGrowingId (s.mem.mt g).memtableId).setVac (.referenced g true)
      | _ => some (s.setVac .immutables)
  | .immutables =>
      match s.nextImmutable with
      | none => some (s.setVac .files)
      | some g => (s.memStep cfg (.acquire g)).map (·.setVac (.chosen g (s.mem.mt g).memtableId))
  | .chosen g sid =>
      if (s.mem.mt g).rel = cfg.mem.rel ∧ (s.mem.mt g).memtableId = sid then
        some (s.setVac (.referenced g false))
      else some (s.setVac .failed)
  | .referenced g growing =>
      (s.memStep cfg (.lockVacuum g)).map
        (·.setVac (.slot g growing (s.mem.mt g).validSize 0 false))
  | .slot g growing n i changed =>
      if i < n then
        if s.isDead cfg g growing i then
          (s.memStep cfg (.mask g i)).map fun s' =>
            (s'.mark (g, i)).setVac (.slot g growing n (i + 1) true)
        else some (s.setVac (.slot g growing n (i + 1) changed))
      else some (s.setVac (.scanned g growing n changed))
  | .scanned g growing n changed =>
      match s.persisted g, changed with
      | some f, true =>
          let bitmap := (s.mem.mt g).bitmap
          some (s.setVac (.persist g growing f.info bitmap (countBits bitmap n)))
      | _, _ => some (s.setVac (.unlock g growing))
  | .persist g growing i bitmap n => some ((s.writeBitmap i bitmap n).setVac (.unlock g growing))
  | .unlock g growing => (s.memStep cfg (.unlockVacuum g)).map (·.setVac (.unref g growing))
  | .unref g growing => (s.memStep cfg (.unref g)).map (·.setVac (.record g growing))
  | .record g growing =>
      let sid := if growing then s.growingMemtableId else (s.mem.mt g).memtableId
      some ((s.recordVacuumed sid).setVac .immutables)
  | .files => some (s.setVac (nextSegment s.disk.scan))
  | .segment i rest =>
      match s.disk.load i with
      | none => some (s.setVac .failed)
      | some f =>
          if s.skips i then some (s.setVac (nextSegment rest))
          else
            match f.vacuum cfg.callback with
            | none => some (s.setVac .failed)
            | some v =>
                if v.changed then some (s.setVac (.marked i rest v.bitmap v.deleteCount))
                else some (s.setVac (nextSegment rest))
  | .marked i rest bitmap n => some ((s.writeBitmap i bitmap n).setVac (.request i rest))
  | .retry i rest =>
      match covering s.disk.scan i.startSid with
      | none => some (s.setVac (nextSegment rest))
      | some j => some (s.setVac (.segment j rest))
  | .request _ _ | .returned | .failed => none

inductive Action where
  /-- A step of inserts, rotations, flushes, searches and other indexes. -/
  | mem (a : Memtable.Action Unit)
  /-- A merge thread claims and reads the latest versions of its segments. -/
  | claim (t : ℕ) (ranges : List (SegmentId × SegmentId))
  | comp (t : ℕ)
  | vacuum
  /-- The worker answers, with RETRY or not. -/
  | answer (retry : Bool)

namespace State

variable (s : State)

/-- VACUUM alone masks, and keeps its reference. -/
def ofOthers : Memtable.Action Unit → Bool
  | .lockVacuum _ | .unlockVacuum _ | .mask _ _ => false
  | .unref g => s.vac.memtable ≠ some g ∨ 1 < (s.mem.slots g).readers
  | _ => true

/-- The directory after the step of a flush worker that writes the files of its memtable. -/
def flushed : Memtable.Action Unit → Disk
  | .flu f =>
      match s.mem.flu f with
      | .settled g =>
          DeleteCounts.Memtable.flush (s.mem.mt g)
            (s.disk.latestVersion (s.mem.mt g).memtableId (s.mem.mt g).memtableId + 1) :: s.disk
      | _ => s.disk
  | _ => s.disk

end State

def step (cfg : Config) (s : State) : Action → Option State
  | .mem a =>
      if s.ofOthers a then (s.memStep cfg a).map (·.setDisk (s.flushed a)) else none
  | .claim t ranges => ((s.comp t).claim s.disk ranges).map (s.setComp t)
  | .comp t => ((s.comp t).next s.disk).map fun p => (s.setDisk p.1).setComp t p.2
  | .vacuum => vacuumStep cfg s
  | .answer retry =>
      match s.vac with
      | .request i rest => some (s.setVac (if retry then .retry i rest else nextSegment rest))
      | _ => none

/-- The file has the rows of the memtable where they were: no rebuild has dropped any. -/
def InPlace (mt : ConcurrentMemTable Unit) (f : SegmentFile) : Prop :=
  f.mapping.map (·.tid) = mt.mappedRows.map (·.tid)

instance (mt : ConcurrentMemTable Unit) (f : SegmentFile) : Decidable (InPlace mt f) :=
  inferInstanceAs (Decidable (_ = _))

/-- The file was flushed from the memtable, or rebuilt from such a file: no more rows than the
memtable has, and its bits if they are in place, but for those at `p`. -/
structure Carries (p : ℕ → Prop) (mt : ConcurrentMemTable Unit) (f : SegmentFile) : Prop where
  ready : ∀ i < mt.validSize, mt.ready i = true
  length : f.mapping.length ≤ mt.validSize
  bits : InPlace mt f → ∀ k < mt.validSize, mt.bitmap k = true → f.bitmap k = true ∨ p k

/-- The places the index has for a memtable. -/
def Has (s : Memtable.State Unit) (g : SlotIdx) : Prop :=
  s.growingIdx = .slot g ∨ g ∈ s.memtableIdxs ∨
    ∃ t, (s.ins t).outgoing = some g ∨ (s.ins t).fresh = some g

/-- VACUUM is called: the memtables are what inserts, flushes and earlier calls have made of them,
and one that is on disk already is queued and its files have its bits. -/
structure Start (cfg : Config) (s : State) : Prop where
  mem : Reachable (Memtable.Start cfg.mem) (Memtable.step cfg.mem) anyStep s.mem
  nodup : (s.disk.map (·.info)).Nodup
  files : ∀ f ∈ s.disk, f.startSid ≤ f.endSid ∧ f.endSid < s.mem.nextSegmentId ∧
    Tiles 0 f.offsets f.mapping.length
  flushed : ∀ f ∈ s.disk, ∀ g, Has s.mem g → f.startSid = (s.mem.mt g).memtableId →
    f.endSid = (s.mem.mt g).memtableId →
    g ∈ s.mem.memtableIdxs ∧ Carries (fun _ => False) (s.mem.mt g) f
  comp : ∀ t, s.comp t = .idle
  vac : s.vac = .idle
  vacuumed : s.vacuumed = []
  growingMemtableId : s.growingMemtableId = 0
  marked : s.marked = []
  writes : s.writes = []

/-- No row published in a slot VACUUM has masked is a live one. -/
def MasksDead (cfg : Config) (s : State) : Prop :=
  ∀ p ∈ s.marked, (s.mem.mt p.1).ready p.2 = true →
    cfg.callback ((s.mem.mt p.1).rows p.2).tid = true

/-- A bit written for a row of a file was set before or stands for a dead row. -/
def WritesDead (cfg : Config) (s : State) : Prop :=
  ∀ w ∈ s.writes, ∀ k r, w.1.mapping[k]? = some r → w.2 k = true →
    w.1.bitmap k = true ∨ cfg.callback r.tid = true

/-- VACUUM masks rows the callback reports dead, and no others. -/
structure Sound (cfg : Config) (s : State) : Prop where
  slots : MasksDead cfg s
  files : WritesDead cfg s

/-- The condition on a step: at a slot of a sealed memtable that is not written yet, the callback
does not report the pointer a former tenant has left there; and the latest files of a memtable in
which something was masked have its rows in place. -/
def Pc.Clear (cfg : Config) (s : State) : Pc → Prop
  | .slot g false n i _ => i < n → ¬ HasRow (s.mem.mt g) i →
      cfg.callback ((s.mem.mt g).rows i).tid = false
  | .scanned g _ _ true => ∀ f ∈ s.persisted g, InPlace (s.mem.mt g) f
  | _ => True

def Clear (cfg : Config) (s : State) : Action → Prop
  | .vacuum => s.vac.Clear cfg s
  | _ => True

end VectorLsm.Tenancy
