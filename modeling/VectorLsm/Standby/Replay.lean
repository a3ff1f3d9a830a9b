import VectorLsm.Lib.Prefix
import VectorLsm.Recovery.Files
import VectorLsm.Recovery.Recover

/-! # Redo on a standby

The log that the build, the inserts, the flushes, the compactions and the vacuums of a primary
write for one index, and a standby that redoes it. The standby fetches announced segments at any
time, adopts them or not, restarts and recovers; what it keeps in memory are memtables, and a
restart loses them.
-/

namespace VectorLsm.Replay

open Transition Recovery

inductive Record where
  | indexCreate
  | updateMaxSid (sid : SegmentId)
  | registerMemtable (sid : SegmentId)
  | releaseMemtable (sid : SegmentId)
  /-- `SEGMENT_CREATED` and `SEGMENT_REPLACED`. -/
  | segment (i : SegmentFileInfo)
  | vacuumTombstones (sid : SegmentId)
  deriving DecidableEq, Repr

/-- What a record, with the page records before it, does to the status pages. -/
def redoPages (st : StatusPages) : Record → StatusPages
  | .indexCreate => ⟨0, []⟩
  | .updateMaxSid sid => { st with maxMemtableSid := sid }
  | .registerMemtable sid => { st with memtables := st.memtables ++ [sid] }
  | .releaseMemtable sid => { st with memtables := st.memtables.erase sid }
  | .segment _ | .vacuumTombstones _ => st

/-- The status pages after a log. -/
def pages (wal : List Record) : StatusPages := wal.foldl redoPages ⟨0, []⟩

/-- The memtables a log registers. -/
def registered (wal : List Record) : List SegmentId :=
  wal.filterMap fun
    | .registerMemtable sid => some sid
    | _ => none

/-- The segments a log announces. -/
def announced (wal : List Record) : List SegmentFileInfo :=
  wal.filterMap fun
    | .segment i => some i
    | _ => none

/-- The memtable fields of the standby's `LSMIndexData`, by segment ids. -/
structure Memtables where
  growing : Option SegmentId
  growingId : SegmentId
  /-- `memtable_idxs[0 .. memtable_count)`. -/
  sealed : List SegmentId
  deriving DecidableEq, Repr

namespace Memtables

variable (m : Memtables)

def empty : Memtables := ⟨none, 0, []⟩

/-- The memtables that are found from the index. -/
def tables : List SegmentId := m.growing.toList ++ m.sealed

/-- A sealed memtable is left out once the array is full. -/
def enqueue (sid : SegmentId) : Memtables :=
  if m.sealed.length < memtableNum then { m with sealed := m.sealed ++ [sid] } else m

/-- `dpv_standby_register_memtable`; `free` tells whether the buffer has a slot. -/
def register (sid : SegmentId) (free : Bool) : Memtables :=
  if sid ∈ m.tables then m
  else if free = false then m
  else if sid > m.growingId ∨ m.growing = none then
    match m.growing with
    | some prev => ⟨some sid, sid, (m.enqueue prev).sealed⟩
    | none => ⟨some sid, sid, m.sealed⟩
  else m.enqueue sid

/-- `fetcher_release_covered_memtables`. -/
def releaseCovered (i : SegmentFileInfo) : Memtables :=
  let gone sid := decide (i.startSid ≤ sid ∧ sid ≤ i.endSid)
  let sids := m.sealed.filter fun sid => !gone sid
  match m.growing with
  | some g => if gone g then ⟨none, 0, sids⟩ else { m with sealed := sids }
  | none => { m with sealed := sids }

/-- The memtables of a recovered index. -/
def ofRecovered (l : LSMIndex) : Memtables :=
  match l.growing with
  | .slot sid => ⟨some sid, sid, l.memtables⟩
  | _ => ⟨none, 0, l.memtables⟩

end Memtables

structure State where
  wal : List Record
  nextSegmentId : SegmentId
  /-- The primary's memtables that are not flushed, the growing one last. -/
  live : List SegmentId
  /-- Those flushed and still on the status pages. -/
  flushed : List SegmentId
  /-- The primary's segments in ascending order. -/
  pool : List SegmentFileInfo
  /-- The records the standby has redone. -/
  replayed : ℕ
  /-- The standby has a writable slot for the index. -/
  writable : Bool
  queryable : Bool
  mts : Memtables
  /-- The metadata files of the standby. -/
  fetched : List SegmentFileInfo
  /-- History: the tombstone records redone without a target. -/
  untargeted : List SegmentId
  deriving DecidableEq, Repr

namespace State

variable (s : State)

def log (rs : List Record) : State := { s with wal := s.wal ++ rs }

/-- The name of the next version of a segment. -/
def newVersion (lo hi : SegmentId) : SegmentFileInfo :=
  ⟨lo, hi, (versionsOf (announced s.wal) (lo, hi)).foldr max 0 + 1⟩

/-- The log up to the redo position, or one record further. -/
def redone (ahead : Bool) : List Record := s.wal.take (s.replayed + if ahead then 1 else 0)

/-- `scan_segment_metadata_files` on the standby. -/
def files : List SegmentFileInfo := scanSegmentMetadataFiles s.fetched

/-- `find_disk_segment_for_sid`; for the first segment, `dpv_initial_segment_on_disk`. -/
def OnDisk (sid : SegmentId) : Prop := ∃ i ∈ s.files, i.startSid ≤ sid ∧ sid ≤ i.endSid

instance (sid : SegmentId) : Decidable (s.OnDisk sid) :=
  inferInstanceAs (Decidable (∃ i ∈ s.files, i.startSid ≤ sid ∧ sid ≤ i.endSid))

/-- A memtable or a file of the standby holds the rows. -/
def Represented (sid : SegmentId) : Prop := sid ∈ s.mts.tables ∨ s.OnDisk sid

instance (sid : SegmentId) : Decidable (s.Represented sid) :=
  inferInstanceAs (Decidable (_ ∨ _))

/-- `build_lsm_index`. -/
def build : Option State :=
  if s.wal = [] then
    let i := s.newVersion startSegmentId startSegmentId
    let sid := startSegmentId + 1
    some { s.log [.indexCreate, .segment i, .updateMaxSid sid, .registerMemtable sid] with
      pool := [i], live := [sid], nextSegmentId := sid + 1 }
  else none

/-- `rotate_growing_memtable`. -/
def rotate : Option State :=
  if s.wal ≠ [] ∧ s.live.length ≤ memtableNum then
    let sid := s.nextSegmentId
    some { s.log [.updateMaxSid sid, .registerMemtable sid] with
      live := s.live ++ [sid], nextSegmentId := sid + 1 }
  else none

/-- `lsm_flush_one_pending` on the oldest sealed memtable. -/
def flush : Option State :=
  match s.live with
  | sid :: next :: live =>
      let i := s.newVersion sid sid
      some { s.log [.segment i] with
        pool := s.pool ++ [i], live := next :: live, flushed := s.flushed ++ [sid] }
  | _ => none

/-- The release of a flushed memtable from the status pages. -/
def release : Option State :=
  match s.flushed with
  | sid :: flushed => some { s.log [.releaseMemtable sid] with flushed := flushed }
  | [] => none

def rebuild (j : ℕ) : Option State :=
  match s.pool.drop j with
  | a :: rest =>
      let i := s.newVersion a.startSid a.endSid
      some { s.log [.segment i] with pool := s.pool.take j ++ i :: rest }
  | [] => none

def merge (j : ℕ) : Option State :=
  match s.pool.drop j with
  | a :: b :: rest =>
      let i := s.newVersion a.startSid b.endSid
      some { s.log [.segment i] with pool := s.pool.take j ++ i :: rest }
  | _ => none

/-- A pass of `bulk_delete_lsm_index` over a memtable or a segment. -/
def vacuum (sid : SegmentId) : Option State :=
  if sid ∈ s.live ∨ ∃ i ∈ s.pool, i.startSid ≤ sid ∧ sid ≤ i.endSid then
    some (s.log [.vacuumTombstones sid])
  else none

/-- The redo of a record for an index that the standby holds a slot of. -/
def apply (r : Record) (free : Bool) : State :=
  match r with
  | .registerMemtable sid =>
      { s with mts := s.mts.register sid free, replayed := s.replayed + 1 }
  | .vacuumTombstones sid =>
      -- `elog(ERROR)` in the startup process stops the redo.
      if s.Represented sid then { s with replayed := s.replayed + 1 }
      else { s with untargeted := sid :: s.untargeted }
  | _ => { s with replayed := s.replayed + 1 }

/-- The redo of the next record; `free` tells whether the buffer that it needs a slot of has one. -/
def redo (free : Bool) : Option State :=
  match s.wal[s.replayed]? with
  | none => none
  | some r =>
      if s.writable then some (s.apply r free)
      else if r = .indexCreate ∧ free then
        some { s with writable := true, mts := .empty, replayed := s.replayed + 1 }
      else some { s with replayed := s.replayed + 1 }

/-- `recover_lsm_index_internal`, for a query or for the next record, whose page records are
redone. -/
def recover (ahead : Bool) : Option State :=
  if s.writable then none
  else
    match recoverLsmIndexInternal (pages (s.redone ahead)) s.files with
    | none => none
    | some l => some { s with writable := true, mts := .ofRecovered l }

/-- `ensure_index_loaded` past the barrier. -/
def publish : Option State :=
  if s.writable ∧ s.queryable = false ∧ s.OnDisk startSegmentId then
    some { s with queryable := true }
  else none

end State

inductive Action where
  | build
  | rotate
  | flush
  | release
  | rebuild (j : ℕ)
  | merge (j : ℕ)
  | vacuum (sid : SegmentId)
  | redo (free : Bool)
  | recover (ahead : Bool)
  | fetch (i : SegmentFileInfo)
  /-- A fetched segment is adopted, or durable while the pool is not loaded. -/
  | adopt (i : SegmentFileInfo)
  | publish
  /-- The standby restarts; the redo resumes after `n` records. -/
  | restart (n : ℕ)
  deriving DecidableEq, Repr

def step (s : State) : Action → Option State
  | .build => s.build
  | .rotate => s.rotate
  | .flush => s.flush
  | .release => s.release
  | .rebuild j => s.rebuild j
  | .merge j => s.merge j
  | .vacuum sid => s.vacuum sid
  | .redo free => s.redo free
  | .recover ahead => s.recover ahead
  | .fetch i =>
      if i ∈ announced (s.redone false) then some { s with fetched := s.fetched ++ [i] } else none
  | .adopt i =>
      if s.writable ∧ i ∈ s.fetched then some { s with mts := s.mts.releaseCovered i } else none
  | .publish => s.publish
  | .restart n =>
      if n ≤ s.replayed then
        some { s with writable := false, queryable := false, mts := .empty, replayed := n }
      else none

/-- No index yet. -/
def initial : State := ⟨[], 0, [], [], [], 0, false, false, .empty, [], []⟩

def Init (s : State) : Prop := s = initial

end VectorLsm.Replay
