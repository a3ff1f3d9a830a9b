import VectorLsm.Memtable.Layout
import VectorLsm.Recovery.Recover

/-! # Status lists

The status pages keep for every memtable the tids that were added to it and not vacuumed. A
recovery reads them into an array of fixed size and fills the memtables anew, from slot zero on,
with the rows that the heap still has. The growing memtable is filled further under its sid.
-/

namespace VectorLsm.StatusLists

open Recovery (LSMIndex Growing Rotation recoverLsmIndexInternal)
open Layout (memtableMaxCapacity)

/-! ## Status pages -/

structure StatusPages where
  maxMemtableSid : SegmentId
  /-- The memtable array, and the tids on the chain of each memtable. -/
  memtables : List (SegmentId × List Tid)
  deriving DecidableEq, Repr

inductive Record where
  | updateMaxSid (sid : SegmentId)
  | registerMemtable (sid : SegmentId)
  | releaseMemtable (sid : SegmentId)
  | add (sid : SegmentId) (tid : Tid)
  | remove (sid : SegmentId) (tid : Tid)
  deriving DecidableEq, Repr

/-- The chain of the first memtable of the id changes. -/
def modifyChain (sid : SegmentId) (f : List Tid → List Tid) :
    List (SegmentId × List Tid) → List (SegmentId × List Tid)
  | [] => []
  | e :: es => if e.1 = sid then (e.1, f e.2) :: es else e :: modifyChain sid f es

namespace StatusPages

variable (p : StatusPages)

def sids : List SegmentId := p.memtables.map (·.1)

/-- The memtable array as recovery reads it. -/
def array : Recovery.StatusPages := ⟨p.maxMemtableSid, p.sids⟩

/-- `GetStatusMemtableTids`. -/
def getStatusMemtableTids (sid : SegmentId) : Option (List Tid) :=
  (p.memtables.find? fun e => e.1 = sid).map (·.2)

def redo : Record → StatusPages
  | .updateMaxSid sid => { p with maxMemtableSid := sid }
  | .registerMemtable sid => { p with memtables := p.memtables ++ [(sid, [])] }
  | .releaseMemtable sid => { p with memtables := p.memtables.eraseP fun e => e.1 = sid }
  | .add sid tid => { p with memtables := modifyChain sid (· ++ [tid]) p.memtables }
  | .remove sid tid => { p with memtables := modifyChain sid (·.erase tid) p.memtables }

end StatusPages

/-! ## Memtables -/

structure Memtable where
  capacity : ℕ
  currentSize : ℕ
  readyCnt : ℕ
  isSealed : Bool
  deriving DecidableEq, Repr

/-- An insert that has reserved a slot. -/
structure Insert where
  sid : SegmentId
  tid : Tid
  /-- `AddToStatusMemtable` is done. -/
  added : Bool
  deriving DecidableEq, Repr

structure State where
  pages : StatusPages
  /-- What a crash may take the pages back to, the latest first. -/
  earlier : List StatusPages
  /-- The metadata files of the directory of the index. -/
  dir : List SegmentFileInfo
  /-- The setting the server runs with. -/
  memtableCapacity : ℕ
  /-- `none` until the index is recovered. -/
  index : Option LSMIndex
  mt : SegmentId → Option Memtable
  inserts : List Insert

namespace State

variable (s : State)

def log (r : Record) : State :=
  { s with pages := s.pages.redo r, earlier := s.pages :: s.earlier }

@[simps] def setIndex (l : LSMIndex) : State := { s with index := some l }

@[simps] def setMt (sid : SegmentId) (m : Option Memtable) : State :=
  { s with mt := Function.update s.mt sid m }

@[simps] def setInserts (is : List Insert) : State := { s with inserts := is }

@[simps] def addFile (i : SegmentFileInfo) : State := { s with dir := s.dir ++ [i] }

/-- The capacity of a memtable that is registered. -/
def capacity (capByBytes : ℕ) : ℕ := min capByBytes s.memtableCapacity

/-- `reserve_slot` for an insert. -/
def reserve (sid : SegmentId) (tid : Tid) (m : Memtable) : State :=
  if m.isSealed then s
  else if m.currentSize < m.capacity then
    (s.setMt sid (some { m with currentSize := m.currentSize + 1 })).setInserts
      (s.inserts ++ [⟨sid, tid, false⟩])
  else s.setMt sid (some { m with currentSize := m.currentSize + 1, isSealed := true })

/-- `AddToStatusMemtable`, which raises an error when the memtable is not listed. -/
def addToStatusMemtable (k : ℕ) (i : Insert) : State :=
  match s.pages.getStatusMemtableTids i.sid with
  | none => s.setInserts (s.inserts.eraseIdx k)
  | some _ => (s.log (.add i.sid i.tid)).setInserts (s.inserts.set k { i with added := true })

/-- `publish_slot_release`. -/
def publish (k : ℕ) (i : Insert) : State :=
  (s.setMt i.sid ((s.mt i.sid).map fun m => { m with readyCnt := m.readyCnt + 1 })).setInserts
    (s.inserts.eraseIdx k)

/-- The next part of `rotate_growing_memtable`. -/
def rotate (capByBytes : ℕ) (l : LSMIndex) : Option State :=
  match l.growing with
  | .invalid => some (s.setIndex { l with growing := .rotating none .begun })
  | .slot cur =>
      if (s.mt cur).any (·.isSealed) then
        some (s.setIndex { l with growing := .rotating (some cur) .begun })
      else none
  | .rotating cur .begun =>
      let sid := l.nextSegmentId
      some ((s.setMt sid (some ⟨s.capacity capByBytes, 0, 0, false⟩)).setIndex
        { l with growing := .rotating cur (.allocated sid), nextSegmentId := sid + 1 })
  | .rotating cur (.allocated sid) =>
      some ((s.log (.updateMaxSid sid)).setIndex
        { l with growing := .rotating cur (.maxLogged sid) })
  | .rotating cur (.maxLogged sid) =>
      some ((s.log (.registerMemtable sid)).setIndex
        { l with growing := .rotating cur (.registered sid) })
  | .rotating (some cur) (.registered sid) =>
      -- `enqueue_sealed_memtable` waits for room.
      if l.memtables.length < memtableNum then
        some (s.setIndex { l with
          growing := .rotating none (.registered sid), memtables := l.memtables ++ [cur] })
      else none
  | .rotating none (.registered sid) => some (s.setIndex { l with growing := .slot sid })

/-- `lsm_flush_one_pending`: the oldest queued memtable, once all of its slots are published. -/
def flush (l : LSMIndex) : Option State :=
  match l.memtables with
  | [] => none
  | sid :: sids =>
      match s.mt sid with
      | none => none
      | some m =>
          if m.isSealed ∧ m.readyCnt = min m.currentSize m.capacity then
            some (((s.addFile ⟨sid, sid, 0⟩).setMt sid none).setIndex { l with
              memtables := sids
              flushedNotReleased :=
                if l.flushedNotReleased.length < memtableNum then l.flushedNotReleased ++ [sid]
                else l.flushedNotReleased })
          else none

/-- `ReleaseStatusMemtable` of a memtable that is flushed. -/
def release (l : LSMIndex) : Option State :=
  match l.flushedNotReleased with
  | [] => none
  | sid :: sids =>
      some ((s.log (.releaseMemtable sid)).setIndex { l with flushedNotReleased := sids })

/-- The memtable that step 3 of the recovery constructs from a chain; `fetch` says which rows the
heap still has. -/
def construct (capacity : ℕ) (fetch : Tid → Bool) (isSealed : Bool) (tids : List Tid) : Memtable :=
  ⟨capacity, (tids.filter fetch).length, (tids.filter fetch).length, isSealed⟩

/-- The memtables after step 3; those up to the end of the last file are skipped. -/
def constructAll (capacity : ℕ) (fetch : Tid → Bool) (last : SegmentFileInfo) (sid : SegmentId) :
    Option Memtable :=
  if last.endSid < sid then
    (s.pages.getStatusMemtableTids sid).map
      (construct capacity fetch (decide (sid ≠ s.pages.maxMemtableSid)))
  else none

/-- `recover_lsm_index_internal` after a start with a setting. -/
def recover (capByBytes : ℕ) (fetch : Tid → Bool) (memtableCapacity : ℕ) : Option State :=
  let files := scanSegmentMetadataFiles s.dir
  match files.getLast?, recoverLsmIndexInternal s.pages.array files with
  | some last, some l =>
      some { s with
        memtableCapacity := memtableCapacity
        index := some l
        mt := s.constructAll (min capByBytes memtableCapacity) fetch last }
  | _, _ => none

end State

inductive Action where
  | reserve (tid : Tid)
  | add (k : ℕ)
  | publish (k : ℕ)
  /-- An insert ends with an error. -/
  | fail (k : ℕ)
  | rotate
  | flush
  | release
  /-- A vacuum removes a tid from the chain of a memtable. -/
  | vacuum (sid : SegmentId) (tid : Tid)
  /-- A file that a compaction writes. -/
  | writeFile (i : SegmentFileInfo)
  /-- All but `n` of the earlier pages are out of reach of a crash. -/
  | flushWal (n : ℕ)
  /-- A crash that loses the last `n` records. -/
  | crash (n : ℕ)
  | recover (fetch : Tid → Bool) (memtableCapacity : ℕ)

/-- A step of the system; rows of the index are such that `capByBytes` of them fill the blob. -/
def step (capByBytes : ℕ) (s : State) : Action → Option State
  | .reserve tid =>
      s.index.bind fun l =>
        match l.growing with
        | .slot sid => (s.mt sid).map (s.reserve sid tid)
        | _ => none
  | .add k =>
      match s.inserts[k]? with
      | some i => if i.added then none else some (s.addToStatusMemtable k i)
      | none => none
  | .publish k =>
      match s.inserts[k]? with
      | some i => if i.added then some (s.publish k i) else none
      | none => none
  | .fail k => some (s.setInserts (s.inserts.eraseIdx k))
  | .rotate => s.index.bind (s.rotate capByBytes)
  | .flush => s.index.bind s.flush
  | .release => s.index.bind s.release
  | .vacuum sid tid => s.index.map fun _ => s.log (.remove sid tid)
  | .writeFile i => some (s.addFile i)
  | .flushWal n => some { s with earlier := s.earlier.take n }
  | .crash n =>
      match (s.pages :: s.earlier)[n]? with
      | some p => some { s with
          pages := p, earlier := [], index := none, mt := fun _ => none, inserts := [] }
      | none => none
  | .recover fetch memtableCapacity =>
      if s.index = none ∧ 0 < memtableCapacity ∧ memtableCapacity ≤ memtableMaxCapacity then
        s.recover capByBytes fetch memtableCapacity
      else none

/-- An index that has just been built, with its first memtable. -/
def start (capByBytes memtableCapacity : ℕ) : State where
  pages := ⟨startSegmentId + 1, [(startSegmentId + 1, [])]⟩
  earlier := []
  dir := [⟨startSegmentId, startSegmentId, 0⟩]
  memtableCapacity := memtableCapacity
  index := some ⟨.slot (startSegmentId + 1), [], .idle, [], [], startSegmentId + 2⟩
  mt := Function.update (fun _ => none) (startSegmentId + 1)
    (some ⟨min capByBytes memtableCapacity, 0, 0, false⟩)
  inserts := []

/-- The states after a build under a setting. -/
def Start (capByBytes : ℕ) (s : State) : Prop :=
  ∃ memtableCapacity, 0 < memtableCapacity ∧ memtableCapacity ≤ memtableMaxCapacity ∧
    s = start capByBytes memtableCapacity

/-- The condition on a recovery: what the chain of the growing memtable keeps of rows that are not
found, and the slots its memtable has or has left, stay within the bound. -/
def Met (capByBytes : ℕ) (s : State) : Action → Prop
  | .recover fetch memtableCapacity =>
      ∀ tids ∈ s.pages.getStatusMemtableTids s.pages.maxMemtableSid,
        (∀ last ∈ (scanSegmentMetadataFiles s.dir).getLast?,
          last.endSid < s.pages.maxMemtableSid) →
        tids.length + (min capByBytes memtableCapacity - (tids.filter fetch).length) ≤
          memtableMaxCapacity
  | _ => True

/-- No chain is longer than the array of `GetStatusMemtableTids`. -/
def Bounded (s : State) : Prop := ∀ e ∈ s.pages.memtables, e.2.length ≤ memtableMaxCapacity

end VectorLsm.StatusLists
