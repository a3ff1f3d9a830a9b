import VectorLsm.Vacuum.OnDisk

/-! # Tombstone records and segment files

The primary's side of the log: `bulk_delete_lsm_index` over the memtables and over the segment
files, the flush worker, and any number of runs of `rebuild_index_pool` and
`merge_adjacent_segments_pool`. Each locked section, each record and each file is a step, and
each of the parties may stop with an error between two of its steps.
-/

namespace VectorLsm

namespace SegmentFile

/-- History: the rows that the entries of a record for the file stand for. -/
def namedRows (f : SegmentFile) (t : VacuumTombstones) : List MappedRow :=
  if f.startSid = f.endSid then t.entries.filterMap fun e => f.mapping[e.sidLocalIdx]?
  else (f.offsets.filter (·.sid = t.sid)).flatMap fun o =>
    t.entries.filterMap fun e => (f.slice o)[e.sidLocalIdx]?

end SegmentFile

namespace WalOrder

inductive Record where
  /-- `slots` is history: the memtable slots of the rows that the entries stand for. -/
  | vacuumTombstones (t : VacuumTombstones) (slots : List ℕ)
  /-- `SegmentCreated` or `SegmentReplaced`, with the files as they were written. -/
  | segment (new : SegmentFile)

/-- Program points of `lsm_flush_one_pending`. -/
inductive FlushPc where
  | idle
  | claimed (sid : SegmentId)
  | locked (sid : SegmentId)
  /-- The files are on disk. -/
  | written (new : SegmentFile)
  | announced (sid : SegmentId)

/-- The memtable whose `vacuum_lock` the worker holds shared. -/
def FlushPc.shared : FlushPc → Option SegmentId
  | .locked sid | .announced sid => some sid
  | .written new => some new.startSid
  | _ => none

/-- Program points of `rebuild_index_pool` (one file) and `merge_adjacent_segments_pool` (two). -/
inductive CompactionPc where
  | idle
  | loaded (files : List SegmentFile)
  /-- The bitmaps are read again and the new arrays filled. -/
  | reloaded (new : SegmentFile)
  | written (new : SegmentFile)

/-- Program points of `bulk_delete_lsm_index`. -/
inductive VacuumPc where
  | idle
  /-- Step 1. -/
  | growing
  /-- Step 2, before the next memtable. -/
  | queue
  | lock (sid : SegmentId) (checkReady : Bool)
  /-- Before slot `i` of `n`. -/
  | scan (sid : SegmentId) (checkReady : Bool) (i n : ℕ) (entries : List VacuumEntry)
  /-- `owner` is the version on disk of a persistent memtable. -/
  | emit (sid : SegmentId) (n : ℕ) (owner : Option SegmentFileInfo) (entries : List VacuumEntry)
  | write (sid : SegmentId) (n : ℕ) (owner : Option SegmentFileInfo)
  | unlock (sid : SegmentId)
  /-- Step 3, at `retry_segment`. -/
  | segment (i : SegmentFileInfo) (rest : List SegmentFileInfo)
  | emitSegment (i : SegmentFileInfo) (rest : List SegmentFileInfo) (bitmap : ℕ → Bool)
    (deleteCount : ℕ) (records : List Record)
  | request (i : SegmentFileInfo) (rest : List SegmentFileInfo)

namespace VacuumPc

/-- The memtable whose `vacuum_lock` vacuum holds. -/
def exclusive : VacuumPc → Option SegmentId
  | .scan sid _ _ _ _ | .emit sid _ _ _ | .write sid _ _ | .unlock sid => some sid
  | _ => none

/-- The slots marked in the bitmap of a memtable that no record names yet. -/
def pending : VacuumPc → List (SegmentId × ℕ)
  | .scan sid _ _ _ entries | .emit sid _ _ entries => entries.map fun e => (sid, e.sidLocalIdx)
  | _ => []

end VacuumPc

structure State (V : Type*) where
  wal : List Record
  nextSegmentId : SegmentId
  mts : SegmentId → ConcurrentMemTable V
  growing : Option SegmentId
  /-- The memtables of `memtable_idxs`. -/
  queue : List SegmentId
  disk : Disk
  flush : FlushPc
  comp : ℕ → CompactionPc
  vac : VacuumPc
  callback : Tid → Bool
  growingMemtableId : SegmentId
  vacuumedMemtableIds : List SegmentId

namespace State

variable {V : Type*} (s : State V)

@[simps] def log (r : Record) : State V := { s with wal := s.wal ++ [r] }

@[simps] def setMt (sid : SegmentId) (mt : ConcurrentMemTable V) : State V :=
  { s with mts := Function.update s.mts sid mt }

@[simps] def setDisk (d : Disk) : State V := { s with disk := d }

@[simps] def setFlush (pc : FlushPc) : State V := { s with flush := pc }

@[simps] def setComp (t : ℕ) (pc : CompactionPc) : State V :=
  { s with comp := Function.update s.comp t pc }

@[simps] def setVac (pc : VacuumPc) : State V := { s with vac := pc }

/-- An index as its build leaves it: the first segment is announced and on disk. -/
def build (tids : List Tid) (v : V) : State V where
  wal := [.segment (SegmentFile.flush startSegmentId tids (fun _ => false) 1)]
  nextSegmentId := startSegmentId + 1
  mts := fun sid => ⟨0, sid, 0, 0, 0, false, false, none, fun _ => ⟨0, v⟩, fun _ => false,
    fun _ => false, fun _ => none⟩
  growing := none
  queue := []
  disk := [SegmentFile.flush startSegmentId tids (fun _ => false) 1]
  flush := .idle
  comp := fun _ => .idle
  vac := .idle
  callback := fun _ => false
  growingMemtableId := 0
  vacuumedMemtableIds := []

end State

section Steps

variable {V : Type*} (s : State V)

/-- `register_and_set_memtable` for a new growing memtable. -/
def registerStep (cap : ℕ) : Option (State V) :=
  match s.growing with
  | some _ => none
  | none =>
      let sid := s.nextSegmentId
      some { s.setMt sid ((s.mts sid).register 0 sid cap) with
        growing := some sid
        nextSegmentId := sid + 1 }

/-- The growing memtable joins the queue. -/
def sealStep : Option (State V) :=
  match s.growing with
  | none => none
  | some sid =>
      if s.queue.length < memtableNum then
        some { s.setMt sid (s.mts sid).setSealed with growing := none, queue := s.queue ++ [sid] }
      else none

/-- What an insert does to a memtable; none of it touches the bitmap. -/
inductive InsertOp (V : Type*) where
  | reserve
  | store (i : ℕ) (r : Row V)
  | publish (i : ℕ)

def InsertOp.apply (mt : ConcurrentMemTable V) : InsertOp V → ConcurrentMemTable V
  | .reserve => mt.bump
  | .store i r => mt.store i r 0
  | .publish i => mt.publishSlotRelease i

def flushStep : Option (State V) :=
  match s.flush with
  | .idle =>
      match s.queue.find? fun sid => !(s.mts sid).flushClaimed with
      | none => none
      | some sid => some ((s.setMt sid (s.mts sid).setFlushClaimed).setFlush (.claimed sid))
  | .claimed sid =>
      if (s.mts sid).isSealed then
        if s.vac.exclusive = some sid then none else some (s.setFlush (.locked sid))
      else some (s.setFlush .idle)
  | .locked sid =>
      let mt := s.mts sid
      -- `wait_for_publish`
      if mt.readyCnt < mt.validSize then none
      else if mt.validSize < mt.readyCnt then some (s.setFlush .idle)
      else
        let tids := (List.range mt.validSize).map fun i => (mt.rows i).tid
        let new := SegmentFile.flush sid tids mt.bitmap (s.disk.latestVersion sid sid + 1)
        some ((s.setDisk (new :: s.disk)).setFlush (.written new))
  | .written new => some ((s.log (.segment new)).setFlush (.announced new.startSid))
  | .announced sid => some ({ s with queue := s.queue.erase sid }.setFlush .idle)

/-- One segment, or two of which the first is the lower one. -/
def InOrder : List SegmentFile → Prop
  | [_] => True
  | [f, g] => f.endSid < g.startSid
  | _ => False

instance : DecidablePred InOrder
  | [] => .isFalse id
  | [_] => .isTrue trivial
  | [f, g] => inferInstanceAs (Decidable (f.endSid < g.startSid))
  | _ :: _ :: _ :: _ => .isFalse id

/-- A task on the latest versions of one or two ranges. -/
def compactStep (t : ℕ) (ranges : List (SegmentId × SegmentId)) : Option (State V) :=
  match s.comp t with
  | .idle =>
      match ranges.mapM fun r => s.disk.loadLatest r.1 r.2 with
      | none => none
      | some files => if InOrder files then some (s.setComp t (.loaded files)) else none
  | _ => none

def compStep (t : ℕ) : Option (State V) :=
  match s.comp t with
  | .idle => none
  | .loaded files =>
      match (files.mapM fun f => s.disk.load f.info).bind (OnDisk.compact files) with
      | none => some (s.setComp t .idle)
      | some new => some (s.setComp t (.reloaded new))
  | .reloaded new =>
      let new := { new with version := s.disk.latestVersion new.startSid new.endSid + 1 }
      some ((s.setDisk (new :: s.disk)).setComp t (.written new))
  | .written new => some ((s.log (.segment new)).setComp t .idle)

/-- On to the next entry of the scan. -/
def nextSegment : List SegmentFileInfo → VacuumPc
  | [] => .idle
  | i :: rest => .segment i rest

/-- The record of a memtable pass. -/
def memtableRecord (sid : SegmentId) (owner : Option SegmentFileInfo)
    (entries : List VacuumEntry) : Record :=
  match owner with
  | none => .vacuumTombstones ⟨sid, 0, true, entries⟩ (entries.map (·.sidLocalIdx))
  | some i => .vacuumTombstones ⟨sid, i.version, false, entries⟩ (entries.map (·.sidLocalIdx))

/-- The records of a pass over a segment file. -/
def segmentRecords (f : SegmentFile) (callback : Tid → Bool) : List Record :=
  (f.tombstones callback).map fun t => .vacuumTombstones t ((f.namedRows t).map (·.slot))

/-- The next step of vacuum; `retry` is the worker's answer to a request. -/
def vacuumStep (retry : Bool) : Option (State V) :=
  match s.vac with
  | .idle => none
  | .growing =>
      match s.growing with
      | none => some ({ s with growingMemtableId := 0 }.setVac .queue)
      | some sid => some ({ s with growingMemtableId := sid }.setVac (.lock sid true))
  | .queue =>
      match s.queue.reverse.find? fun sid =>
          sid < s.growingMemtableId && !s.vacuumedMemtableIds.contains sid with
      | none => some (s.setVac (nextSegment s.disk.scan))
      | some sid => some (s.setVac (.lock sid false))
  | .lock sid checkReady =>
      if s.flush.shared = some sid then none
      else some (s.setVac (.scan sid checkReady 0 (s.mts sid).validSize []))
  | .scan sid checkReady i n entries =>
      let mt := s.mts sid
      if i < n then
        if (!checkReady || mt.ready i) && s.callback (mt.rows i).tid then
          some ((s.setMt sid (mt.mask i)).setVac
            (.scan sid checkReady (i + 1) n (entries ++ [⟨i, (mt.rows i).tid⟩])))
        else some (s.setVac (.scan sid checkReady (i + 1) n entries))
      else if entries = [] then some (s.setVac (.unlock sid))
      else if ∃ f ∈ s.disk, f.startSid = sid ∧ f.endSid = sid then
        some (s.setVac (.emit sid n (some ⟨sid, sid, s.disk.latestVersion sid sid⟩) entries))
      else some (s.setVac (.emit sid n none entries))
  | .emit sid n owner entries =>
      some ((s.log (memtableRecord sid owner entries)).setVac (.write sid n owner))
  | .write sid n owner =>
      let bitmap := (s.mts sid).bitmap
      match owner with
      | none => some (s.setVac (.unlock sid))
      | some i =>
          some ((s.setDisk (s.disk.writeBitmap i bitmap (countBits bitmap n))).setVac (.unlock sid))
  | .unlock sid =>
      let ids := s.vacuumedMemtableIds
      some ({ s with vacuumedMemtableIds :=
        if ids.length < memtableNum + 1 then ids ++ [sid] else ids }.setVac .queue)
  | .segment i rest =>
      match s.disk.load i with
      | none => some (s.setVac .idle)
      | some f =>
          if i.startSid = i.endSid ∧ i.startSid ∈ s.vacuumedMemtableIds then
            some (s.setVac (nextSegment rest))
          else
            match f.vacuum s.callback with
            | none => some (s.setVac .idle)
            | some v =>
                if v.changed then
                  some (s.setVac (.emitSegment i rest v.bitmap v.deleteCount
                    (segmentRecords f s.callback)))
                else some (s.setVac (nextSegment rest))
  | .emitSegment i rest bitmap deleteCount records =>
      match records with
      | r :: records =>
          some ((s.log r).setVac (.emitSegment i rest bitmap deleteCount records))
      | [] =>
          some ((s.setDisk (s.disk.writeBitmap i bitmap deleteCount)).setVac (.request i rest))
  | .request i rest =>
      if retry then
        match OnDisk.covering s.disk.scan i.startSid with
        | none => some (s.setVac (nextSegment rest))
        | some j => some (s.setVac (.segment j rest))
      else some (s.setVac (nextSegment rest))

inductive Action (V : Type*) where
  | register (cap : ℕ)
  | insert (sid : SegmentId) (op : InsertOp V)
  | sealGrowing
  | flush
  | failFlush
  | compact (t : ℕ) (ranges : List (SegmentId × SegmentId))
  | comp (t : ℕ)
  /-- A failed allocation, or no free slot in the pool. -/
  | giveUp (t : ℕ)
  | bulkDelete (callback : Tid → Bool)
  | vac (retry : Bool)
  | failVac

/-- The locks a party holds are released with the error. -/
def step : Action V → Option (State V)
  | .register cap => registerStep s cap
  | .insert sid op => some (s.setMt sid (op.apply (s.mts sid)))
  | .sealGrowing => sealStep s
  | .flush => flushStep s
  | .failFlush => some (s.setFlush .idle)
  | .compact t ranges => compactStep s t ranges
  | .comp t => compStep s t
  | .giveUp t => some (s.setComp t .idle)
  | .bulkDelete callback =>
      match s.vac with
      | .idle => some ({ s with
          callback := callback
          growingMemtableId := 0
          vacuumedMemtableIds := [] }.setVac .growing)
      | _ => none
  | .vac retry => vacuumStep s retry
  | .failVac => some (s.setVac .idle)

end Steps

end WalOrder

end VectorLsm
