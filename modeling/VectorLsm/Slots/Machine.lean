import Mathlib.Logic.Function.Basic
import VectorLsm.Standby.Replay

/-! # The slots of a row

The inserts of a primary reserve a slot of the growing memtable, list the row on the status
pages and log the slot. Recoveries, on the primary and on the standby, rebuild the memtables from
the status pages and the heap; the redo of a standby goes by the logged slots.
-/

namespace VectorLsm.Slots

open Transition Recovery Replay

/-- A `ConcurrentMemTable`, by its counters and its rows. -/
structure Table where
  capacity : ℕ
  currentSize : ℕ
  isSealed : Bool
  /-- The heap pointers of the slots that are ready. -/
  tids : ℕ → Option Tid

namespace Table

variable (T : Table) (i : ℕ) (t : Tid)

/-- `register_and_set_memtable`. -/
@[simps] def fresh (cap : ℕ) : Table := ⟨cap, 0, false, fun _ => none⟩

@[simps] def bump : Table := { T with currentSize := T.currentSize + 1 }

@[simps] def setSealed (b : Bool) : Table := { T with isSealed := b }

/-- The row of a reserved slot is written and published. -/
@[simps] def publish : Table := { T with tids := Function.update T.tids i (some t) }

/-- A recovery hands out the next slot; it does not look at the capacity. -/
@[simps!] def append : Table := (T.publish T.currentSize t).bump

/-- `dpv_standby_add_to_memtable`. -/
def redoAdd : Table :=
  if i < T.capacity then
    { T.publish i t with currentSize := max T.currentSize (i + 1) }
  else T

/-- Step 3 of a recovery, on a new memtable; a row that is not in the heap is left out. -/
def rebuild (cap : ℕ) (listed : List Tid) (inHeap : Tid → Bool) : Table :=
  (listed.filter inHeap).foldl append (fresh cap)

/-- What `scan_ready_rows` goes through. -/
def Populated : Prop := i < min T.currentSize T.capacity ∧ T.tids i = some t

instance : Decidable (T.Populated i t) := inferInstanceAs (Decidable (_ ∧ _))

end Table

inductive Record where
  | indexCreate
  | updateMaxSid (sid : SegmentId)
  /-- The memtable array of the status pages. -/
  | statusRegister (sid : SegmentId)
  | registerMemtable (sid : SegmentId)
  /-- The status pages of a memtable. -/
  | addStatus (sid : SegmentId) (tid : Tid)
  | addToMemtable (sid : SegmentId) (slot : ℕ) (tid : Tid)
  | heapInsert (tid : Tid)
  | heapPrune (tid : Tid)
  deriving DecidableEq, Repr

section Log

variable (wal : List Record)

def redoPages (st : StatusPages) : Record → StatusPages
  | .indexCreate => ⟨0, []⟩
  | .updateMaxSid sid => { st with maxMemtableSid := sid }
  | .statusRegister sid => { st with memtables := st.memtables ++ [sid] }
  | _ => st

/-- The status pages after a log. -/
def pages : StatusPages := wal.foldl redoPages ⟨0, []⟩

/-- `GetStatusMemtableTids` after a log. -/
def listed (sid : SegmentId) : List Tid :=
  wal.filterMap fun
    | .addStatus sid' tid => if sid' = sid then some tid else none
    | _ => none

/-- The slots a log gives. -/
def added (sid : SegmentId) : List (ℕ × Tid) :=
  wal.filterMap fun
    | .addToMemtable sid' slot tid => if sid' = sid then some (slot, tid) else none
    | _ => none

/-- The heap pointers that were given to a row. -/
def heap : List Tid :=
  wal.filterMap fun
    | .heapInsert tid => some tid
    | _ => none

def pruned : List Tid :=
  wal.filterMap fun
    | .heapPrune tid => some tid
    | _ => none

/-- `table_tuple_fetch_row_version` finds the row. -/
def inHeap (tid : Tid) : Bool := decide (tid ∈ heap wal ∧ tid ∉ pruned wal)

end Log

/-- How far a rotation has come with the new memtable. -/
inductive RotationPc where
  | allocated
  | maxLogged
  | listed
  | registered
  deriving DecidableEq, Repr

structure Rotation where
  /-- The memtable that was the growing one. -/
  cur : Option SegmentId
  sid : SegmentId
  pc : RotationPc
  deriving DecidableEq, Repr

/-- The index on the primary. -/
structure Index where
  /-- There is none while a rotation runs. -/
  growing : Option SegmentId
  sealed : List SegmentId
  rotating : Option Rotation
  nextSegmentId : SegmentId
  tables : SegmentId → Table

/-- The memtables of the primary. -/
def Index.live (x : Index) : List SegmentId :=
  x.growing.toList ++ x.sealed ++ x.rotating.toList.flatMap fun r => r.cur.toList ++ [r.sid]

/-- The index on the standby. -/
structure StandbyIndex where
  mts : Memtables
  tables : SegmentId → Table

/-- How far an insert has come with its row. -/
inductive InsertPc where
  | inHeap
  | reserved (sid : SegmentId) (slot : ℕ)
  | listed (sid : SegmentId) (slot : ℕ)
  deriving DecidableEq, Repr

/-- The memtable that the insert has a slot of. -/
def InsertPc.slot? : InsertPc → Option (SegmentId × ℕ)
  | .inHeap => none
  | .reserved sid i | .listed sid i => some (sid, i)

structure State where
  wal : List Record
  /-- The records that no crash loses. -/
  durable : ℕ
  /-- The capacity of a memtable, by the settings of the primary. -/
  capacity : ℕ
  index : Option Index
  inserts : Tid → Option InsertPc
  /-- The records the standby has redone. -/
  replayed : ℕ
  standbyCapacity : ℕ
  standby : Option StandbyIndex
  /-- The standby has fetched the segment of the build. -/
  fetched : Bool

/-- The segment of the build. -/
def startSegment : SegmentFileInfo := ⟨startSegmentId, startSegmentId, 1⟩

namespace State

variable (s : State)

def log (r : Record) : State := { s with wal := s.wal ++ [r] }

def setInsert (tid : Tid) (pc : Option InsertPc) : State :=
  { s with inserts := Function.update s.inserts tid pc }

def setIndex (x : Index) : State := { s with index := some x }

/-- The log up to the redo position. -/
def redone : List Record := s.wal.take s.replayed

/-- `build_lsm_index`, committed. -/
def build : Option State :=
  if s.wal = [] then
    let sid := startSegmentId + 1
    let wal := [.indexCreate, .updateMaxSid sid, .statusRegister sid, .registerMemtable sid]
    some { s with
      wal := wal
      durable := wal.length
      index := some ⟨some sid, [], none, sid + 1, fun _ => .fresh s.capacity⟩ }
  else none

/-- An insert puts its row in the heap. -/
def heapInsert (tid : Tid) : Option State :=
  if s.wal ≠ [] ∧ tid ∉ heap s.wal then
    some ((s.log (.heapInsert tid)).setInsert tid (some .inHeap))
  else none

/-- `reserve_slot`; a memtable without a free slot is sealed. -/
def reserve (tid : Tid) : Option State :=
  match s.inserts tid, s.index with
  | some .inHeap, some x =>
      match x.growing with
      | some sid =>
          let T := x.tables sid
          if T.isSealed then none
          else if T.currentSize < T.capacity then
            let x' := { x with tables := Function.update x.tables sid T.bump }
            some ((s.setIndex x').setInsert tid (some (.reserved sid T.currentSize)))
          else some (s.setIndex
            { x with tables := Function.update x.tables sid (T.bump.setSealed true) })
      | none => none
  | _, _ => none

/-- `AddToStatusMemtable`. -/
def addStatus (tid : Tid) : Option State :=
  match s.inserts tid with
  | some (.reserved sid i) =>
      some ((s.log (.addStatus sid tid)).setInsert tid (some (.listed sid i)))
  | _ => none

/-- `dpv_emit_add_to_memtable` and `publish_slot_release`. -/
def addToMemtable (tid : Tid) : Option State :=
  match s.inserts tid, s.index with
  | some (.listed sid i), some x =>
      let T := x.tables sid
      some (((s.log (.addToMemtable sid i tid)).setIndex
        { x with tables := Function.update x.tables sid (T.publish i tid) }).setInsert tid none)
  | _, _ => none

/-- The growing memtable can be replaced. -/
def Rotatable (x : Index) : Prop :=
  x.rotating = none ∧ ∀ cur ∈ x.growing, (x.tables cur).isSealed = true

instance (x : Index) : Decidable (Rotatable x) := inferInstanceAs (Decidable (_ ∧ _))

/-- The next part of `rotate_growing_memtable`. -/
def rotate : Option State :=
  match s.index with
  | none => none
  | some x =>
      match x.rotating with
      | none =>
          if Rotatable x then
            let sid := x.nextSegmentId
            some (s.setIndex { x with
              growing := none
              rotating := some ⟨x.growing, sid, .allocated⟩
              nextSegmentId := sid + 1
              tables := Function.update x.tables sid (.fresh s.capacity) })
          else none
      | some ⟨cur, sid, .allocated⟩ =>
          some ((s.log (.updateMaxSid sid)).setIndex
            { x with rotating := some ⟨cur, sid, .maxLogged⟩ })
      | some ⟨cur, sid, .maxLogged⟩ =>
          some ((s.log (.statusRegister sid)).setIndex
            { x with rotating := some ⟨cur, sid, .listed⟩ })
      | some ⟨cur, sid, .listed⟩ =>
          some ((s.log (.registerMemtable sid)).setIndex
            { x with rotating := some ⟨cur, sid, .registered⟩ })
      | some ⟨cur, sid, .registered⟩ =>
          -- `enqueue_sealed_memtable` waits for room.
          if cur = none ∨ x.sealed.length < memtableNum then
            some (s.setIndex { x with
              growing := some sid, sealed := x.sealed ++ cur.toList, rotating := none })
          else none

/-- The memtables that a recovery reads from the status pages of a log. -/
def rebuildTables (wal : List Record) (cap : ℕ) (growing : Option SegmentId) (sid : SegmentId) :
    Table :=
  (Table.rebuild cap (listed wal sid) (inHeap wal)).setSealed (decide (growing ≠ some sid))

/-- `recover_lsm_index_internal` on the primary. -/
def recover : Option State :=
  match s.index, recoverLsmIndexInternal (pages s.wal) [startSegment] with
  | none, some l =>
      let mts := Memtables.ofRecovered l
      some (s.setIndex ⟨mts.growing, mts.sealed, none, l.nextSegmentId,
        rebuildTables s.wal s.capacity mts.growing⟩)
  | _, _ => none

/-- `recover_lsm_index_internal` on the standby. -/
def recoverStandby : Option State :=
  let files := if s.fetched then [startSegment] else []
  match s.standby, recoverLsmIndexInternal (pages s.redone) files with
  | none, some l =>
      let mts := Memtables.ofRecovered l
      some { s with
        standby := some ⟨mts, rebuildTables s.redone s.standbyCapacity mts.growing⟩ }
  | _, _ => none

/-- The redo of a record for an index that the standby holds a slot of. -/
def redoIndex (y : StandbyIndex) (free : Bool) : Record → StandbyIndex
  | .registerMemtable sid =>
      if sid ∈ y.mts.tables ∨ free = false then y
      else ⟨y.mts.register sid free, Function.update y.tables sid (.fresh s.standbyCapacity)⟩
  | .addToMemtable sid i tid =>
      if sid ∈ y.mts.tables then
        { y with tables := Function.update y.tables sid ((y.tables sid).redoAdd i tid) }
      else y
  | _ => y

/-- The redo of the next record; `free` tells whether the buffer that it needs a slot of has one. -/
def redo (free : Bool) : Option State :=
  if s.replayed < s.durable then
    match s.wal[s.replayed]?, s.standby with
    | some r, some y =>
        some { s with standby := some (s.redoIndex y free r), replayed := s.replayed + 1 }
    | some r, none =>
        if r = .indexCreate ∧ free then
          some { s with
            standby := some ⟨.empty, fun _ => .fresh s.standbyCapacity⟩
            replayed := s.replayed + 1 }
        else some { s with replayed := s.replayed + 1 }
    | none, _ => none
  else none

end State

inductive Action where
  | build
  | heapInsert (tid : Tid)
  | reserve (tid : Tid)
  | addStatus (tid : Tid)
  | addToMemtable (tid : Tid)
  /-- An insert ends with an error. -/
  | fail (tid : Tid)
  | prune (tid : Tid)
  | rotate
  | flushWal (n : ℕ)
  /-- The primary restarts with `n` records and memtables of the given capacity. -/
  | crash (n cap : ℕ)
  | recover
  | redo (free : Bool)
  | fetch
  /-- The standby restarts; the redo resumes after `n` records. -/
  | restart (n cap : ℕ)
  | recoverStandby
  deriving DecidableEq, Repr

def step (s : State) : Action → Option State
  | .build => s.build
  | .heapInsert tid => s.heapInsert tid
  | .reserve tid => s.reserve tid
  | .addStatus tid => s.addStatus tid
  | .addToMemtable tid => s.addToMemtable tid
  | .fail tid => some (s.setInsert tid none)
  | .prune tid =>
      if tid ∈ heap s.wal ∧ s.inserts tid = none then some (s.log (.heapPrune tid)) else none
  | .rotate => s.rotate
  | .flushWal n =>
      if s.durable ≤ n ∧ n ≤ s.wal.length then some { s with durable := n } else none
  | .crash n cap =>
      if s.durable ≤ n ∧ n ≤ s.wal.length then
        some { s with
          wal := s.wal.take n, durable := n, capacity := cap, index := none
          inserts := fun _ => none }
      else none
  | .recover => s.recover
  | .redo free => s.redo free
  | .fetch => if s.wal ≠ [] then some { s with fetched := true } else none
  | .restart n cap =>
      if n ≤ s.replayed then
        some { s with standby := none, standbyCapacity := cap, replayed := n }
      else none
  | .recoverStandby => s.recoverStandby

/-- No index yet; the two servers have their own settings. -/
def initial (cap standbyCap : ℕ) : State :=
  ⟨[], 0, cap, none, fun _ => none, 0, standbyCap, none, false⟩

def Init (s : State) : Prop := ∃ cap standbyCap, s = initial cap standbyCap

end VectorLsm.Slots
