import VectorLsm.Lib.Transition
import VectorLsm.Memtable.Basic
import VectorLsm.Segment.Scan

/-! # Crashes and recoveries

The status pages of an index are kept by a log, its segments in files, the rest in memory. A
crash loses the memory and a part of the log that is not flushed; the files survive. A standby
redoes the flushed log and fetches the files that the log announces.
-/

namespace VectorLsm.Recovery

open Transition

/-- What the status pages say of the memtables of the index. -/
structure StatusPages where
  maxMemtableSid : SegmentId
  memtables : List SegmentId
  deriving DecidableEq, Repr

inductive Record where
  /-- The commit of a build, with the first memtable. -/
  | indexCreate
  | updateMaxSid (sid : SegmentId)
  | registerMemtable (sid : SegmentId)
  | releaseMemtable (sid : SegmentId)
  /-- `SEGMENT_CREATED` and `SEGMENT_REPLACED`. -/
  | segment (i : SegmentFileInfo)
  deriving DecidableEq, Repr

namespace StatusPages

/-- The first memtable of a new index. -/
def init : StatusPages := ⟨startSegmentId + 1, [startSegmentId + 1]⟩

def redo : Option StatusPages → Record → Option StatusPages
  | _, .indexCreate => some init
  | st, .updateMaxSid sid => st.map fun st => { st with maxMemtableSid := sid }
  | st, .registerMemtable sid => st.map fun st => { st with memtables := st.memtables ++ [sid] }
  | st, .releaseMemtable sid => st.map fun st => { st with memtables := st.memtables.erase sid }
  | st, .segment _ => st

/-- The pages after a log; without a committed build there are none. -/
def ofLog (wal : List Record) : Option StatusPages := wal.foldl redo none

end StatusPages

/-- The segments a log announces. -/
def announced : List Record → List SegmentFileInfo
  | [] => []
  | .segment i :: wal => i :: announced wal
  | _ :: wal => announced wal

/-- How far `rotate_growing_memtable` has come with the new memtable. -/
inductive Rotation where
  | begun
  | allocated (sid : SegmentId)
  | maxLogged (sid : SegmentId)
  | registered (sid : SegmentId)
  deriving DecidableEq, Repr

/-- `growing_memtable_idx`; while it is `MT_IDX_ROTATING`, also what the rotation holds. -/
inductive Growing where
  | invalid
  | slot (sid : SegmentId)
  | rotating (cur : Option SegmentId) (pc : Rotation)
  deriving DecidableEq, Repr

/-- How far `lsm_flush_one_pending` has come with the memtable it claimed. -/
inductive Flushing where
  | idle
  | written (sid : SegmentId)
  | tracked (sid : SegmentId)
  deriving DecidableEq, Repr

structure LSMIndex where
  growing : Growing
  /-- The memtables of `memtable_idxs[0 .. memtable_count)`. -/
  memtables : List SegmentId
  flushing : Flushing
  flushedNotReleased : List SegmentId
  /-- What an insert has taken over to release. -/
  releasing : List SegmentId
  nextSegmentId : SegmentId
  deriving DecidableEq, Repr

def Rotation.sids : Rotation → List SegmentId
  | .begun => []
  | .allocated sid | .maxLogged sid | .registered sid => [sid]

def Growing.sids : Growing → List SegmentId
  | .invalid => []
  | .slot sid => [sid]
  | .rotating cur pc => cur.toList ++ pc.sids

/-- The ids of the memtables of the index. -/
def LSMIndex.live (l : LSMIndex) : List SegmentId := l.memtables ++ l.growing.sids

section Recover

/-- The loop that fills `flushed_not_released`, from the smallest id on. -/
def trackFlushed (last : SegmentId) : List SegmentId → List SegmentId → Option (List SegmentId)
  | tracked, [] => some tracked
  | tracked, sid :: sids =>
      if sid ≤ last then
        if tracked.length < memtableNum then trackFlushed last (tracked ++ [sid]) sids else none
      else some tracked

/-- One round of the loop that constructs the memtables. -/
def constructMemtable (last growingSid : SegmentId) (l : LSMIndex) (sid : SegmentId) :
    Option LSMIndex :=
  if sid ≤ last then some l
  else if sid = growingSid then some { l with growing := .slot sid, nextSegmentId := sid + 1 }
  else if l.memtables.length < memtableNum then
    some { l with memtables := l.memtables ++ [sid] }
  else none

/-- `recover_lsm_index_internal`; `none` where it reads or writes outside an array or raises
an error. -/
def recoverLsmIndexInternal (st : StatusPages) (files : List SegmentFileInfo) : Option LSMIndex :=
  let sids := st.memtables.insertionSort (· ≥ ·)
  match sids.head?, files.getLast? with
  | some top, some last => do
      let tracked ← trackFlushed last.endSid [] sids.reverse
      let l : LSMIndex := ⟨.invalid, [], .idle, tracked, [], top + 1⟩
      sids.reverse.foldlM (constructMemtable last.endSid st.maxMemtableSid) l
  | _, _ => none

end Recover

structure State where
  wal : List Record
  /-- The records that no crash loses. -/
  durable : ℕ
  /-- The metadata files of the directory of the index. -/
  dir : List SegmentFileInfo
  /-- The slots of the index buffer that serve the index. -/
  slots : List LSMIndex
  /-- The records the standby has redone. -/
  replayed : ℕ
  /-- The metadata files of the standby. -/
  fetched : List SegmentFileInfo
  /-- History: the ids `alloc_segment_id` returned while they were in use. -/
  reused : List SegmentId
  /-- History: what each recovery has read. -/
  recoveries : List (StatusPages × List SegmentFileInfo)
  deriving DecidableEq, Repr

namespace State

variable (s : State)

def status : Option StatusPages := StatusPages.ofLog s.wal

/-- The pages if the log ended after `n` records. -/
def statusAt (n : ℕ) : Option StatusPages := StatusPages.ofLog (s.wal.take n)

/-- The memtable array of the status pages. -/
def statusMemtables : List SegmentId := (s.status.map (·.memtables)).getD []

/-- No memtable of `array`, no memtable in memory and no file has the id. -/
def Unused (array : List SegmentId) (sid : SegmentId) : Prop :=
  sid ∉ array ∧ (∀ l ∈ s.slots, sid ∉ l.live) ∧
    ∀ i ∈ s.dir, ¬ (i.startSid ≤ sid ∧ sid ≤ i.endSid)

instance (array : List SegmentId) (sid : SegmentId) : Decidable (s.Unused array sid) := by
  unfold Unused
  infer_instance

/-- `alloc_segment_id` returns `sid` while the status pages list `array`. -/
def allocSegmentId (array : List SegmentId) (sid : SegmentId) : State :=
  if s.Unused array sid then s else { s with reused := sid :: s.reused }

def log (r : Record) : State := { s with wal := s.wal ++ [r] }

def setSlot (k : ℕ) (l : LSMIndex) : State := { s with slots := s.slots.set k l }

/-- The name of the next version of a segment. -/
def newVersion (lo hi : SegmentId) : SegmentFileInfo :=
  ⟨lo, hi, (versionsOf s.dir (lo, hi)).foldr max 0 + 1⟩

/-- `flush_segment_to_disk`. -/
def writeFile (lo hi : SegmentId) : State := { s with dir := s.dir ++ [s.newVersion lo hi] }

/-- `scan_segment_metadata_files`. -/
def files : List SegmentFileInfo := scanSegmentMetadataFiles s.dir

/-- The next part of `rotate_growing_memtable` on slot `k`. -/
def rotate (k : ℕ) (l : LSMIndex) : Option State :=
  match l.growing with
  | .invalid => some (s.setSlot k { l with growing := .rotating none .begun })
  | .slot cur => some (s.setSlot k { l with growing := .rotating (some cur) .begun })
  | .rotating cur .begun =>
      let sid := l.nextSegmentId
      some ((s.allocSegmentId s.statusMemtables sid).setSlot k
        { l with growing := .rotating cur (.allocated sid), nextSegmentId := sid + 1 })
  | .rotating cur (.allocated sid) =>
      some ((s.log (.updateMaxSid sid)).setSlot k
        { l with growing := .rotating cur (.maxLogged sid) })
  | .rotating cur (.maxLogged sid) =>
      some ((s.log (.registerMemtable sid)).setSlot k
        { l with growing := .rotating cur (.registered sid) })
  | .rotating (some cur) (.registered sid) =>
      -- `enqueue_sealed_memtable` waits for room.
      if l.memtables.length < memtableNum then
        some (s.setSlot k { l with
          growing := .rotating none (.registered sid), memtables := l.memtables ++ [cur] })
      else none
  | .rotating none (.registered sid) => some (s.setSlot k { l with growing := .slot sid })

/-- The next part of `lsm_flush_one_pending` on slot `k`. -/
def flush (k : ℕ) (l : LSMIndex) : Option State :=
  match l.flushing with
  | .idle =>
      match l.memtables with
      | [] => none
      | sid :: _ => some ((s.writeFile sid sid).setSlot k { l with flushing := .written sid })
  | .written sid =>
      -- The lock is with the insert that releases.
      if l.releasing = [] then
        some (s.setSlot k { l with
          flushing := .tracked sid
          flushedNotReleased :=
            if l.flushedNotReleased.length < memtableNum then l.flushedNotReleased ++ [sid]
            else l.flushedNotReleased })
      else none
  | .tracked sid =>
      some (s.setSlot k { l with flushing := .idle, memtables := l.memtables.erase sid })

/-- The next part of the release in `insert_lsm_index` on slot `k`. -/
def release (k : ℕ) (l : LSMIndex) : Option State :=
  match l.releasing with
  | [] =>
      if l.flushedNotReleased = [] then none
      else some (s.setSlot k { l with releasing := l.flushedNotReleased, flushedNotReleased := [] })
  | sid :: sids => some ((s.log (.releaseMemtable sid)).setSlot k { l with releasing := sids })

/-- `build_lsm_index`, committed; its status pages are new. -/
def build : State :=
  let s' := s.allocSegmentId [] (startSegmentId + 1)
  let s'' := s'.writeFile startSegmentId startSegmentId
  let wal := s.wal ++ [.segment (s'.newVersion startSegmentId startSegmentId), .indexCreate]
  { s'' with
    wal := wal
    durable := wal.length
    slots := s.slots ++ [⟨.slot (startSegmentId + 1), [], .idle, [], [], startSegmentId + 2⟩] }

/-- A recovery of the primary. -/
def recover (st : StatusPages) : State :=
  { s with
    slots := (recoverLsmIndexInternal st s.files).toList
    recoveries := (st, s.files) :: s.recoveries }

/-- A recovery on the standby. -/
def recoverStandby (st : StatusPages) : State :=
  { s with recoveries := (st, scanSegmentMetadataFiles s.fetched) :: s.recoveries }

end State

inductive Action where
  | build
  /-- A build that does not commit leaves its segment. -/
  | buildAborted
  | rotate (k : ℕ)
  | flush (k : ℕ)
  | release (k : ℕ)
  | rebuild (j : ℕ)
  | merge (j : ℕ)
  | announce (i : SegmentFileInfo)
  | flushWal (n : ℕ)
  /-- A crash that leaves `n` records. -/
  | crash (n : ℕ)
  | recover
  | redo
  | fetch (i : SegmentFileInfo)
  | recoverStandby
  deriving DecidableEq, Repr

def step (s : State) : Action → Option State
  | .build => some s.build
  | .buildAborted => some (s.writeFile startSegmentId startSegmentId)
  | .rotate k => s.slots[k]?.bind (s.rotate k)
  | .flush k => s.slots[k]?.bind (s.flush k)
  | .release k => s.slots[k]?.bind (s.release k)
  | .rebuild j => s.files[j]?.map fun i => s.writeFile i.startSid i.endSid
  | .merge j =>
      s.files[j]?.bind fun a => s.files[j + 1]?.map fun b => s.writeFile a.startSid b.endSid
  | .announce i => if i ∈ s.dir then some (s.log (.segment i)) else none
  | .flushWal n =>
      if s.durable ≤ n ∧ n ≤ s.wal.length then some { s with durable := n } else none
  | .crash n =>
      if s.durable ≤ n ∧ n ≤ s.wal.length then
        some { s with wal := s.wal.take n, durable := n, slots := [] }
      else none
  | .recover => if s.slots = [] then s.status.map s.recover else none
  | .redo => if s.replayed < s.durable then some { s with replayed := s.replayed + 1 } else none
  | .fetch i =>
      if i ∈ announced (s.wal.take s.replayed) then some { s with fetched := s.fetched ++ [i] }
      else none
  | .recoverStandby => (s.statusAt s.replayed).map s.recoverStandby

/-- No index yet. -/
def initial : State := ⟨[], 0, [], [], 0, [], [], []⟩

def Init (s : State) : Prop := s = initial

end VectorLsm.Recovery
