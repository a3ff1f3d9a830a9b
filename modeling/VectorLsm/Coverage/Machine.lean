import VectorLsm.Memtable.Tenants
import VectorLsm.Coverage.Ranges

/-! # A search on the primary

The memtables and the pool of one index as one system. A flush hands a memtable over in steps:
the backend asks the worker to register the segment, a worker thread does, and only then the
backend takes the memtable off the queue. A search takes a snapshot of the memtables and leaves
the segments to the worker, which looks at the list later. The index is loaded throughout.
-/

namespace VectorLsm.Coverage

open Transition

variable {V : Type*}

/-- `lsm_snapshot`. -/
structure Snapshot where
  gidx : SlotIdx
  gmtId : SegmentId
  sidxs : List SlotIdx
  smtIds : List SegmentId
  deriving DecidableEq, Repr

/-- `SegmentSearchInfo`, and the range of the segment. -/
structure SegmentSearchInfo where
  segmentIdx : ℕ
  startSid : SegmentId
  endSid : SegmentId
  deriving DecidableEq, Repr

/-- Where the worker stands in `vector_search`. -/
inductive Walk where
  /-- The task is in the ring buffer. -/
  | sent
  /-- The list has been traversed; the slots of `todo` are still to be looked at. -/
  | filtering (todo : List ℕ) (toSearch : List SegmentSearchInfo)
  deriving DecidableEq, Repr

/-- `search_lsm_index` after its snapshot. -/
structure Call (V : Type*) where
  snapshot : Snapshot
  /-- The memtables the backend has still to search, the growing one first. -/
  todo : List SlotIdx
  /-- History: the memtables searched, as they were then. -/
  scanned : List (ConcurrentMemTable V)
  walk : Walk

/-- Where a flush stands with its `SEGMENT_UPDATE_REGULAR`. -/
inductive Handoff where
  | none
  | sent (t : ℕ) (sid : SegmentId)
  | answered (sid : SegmentId)
  deriving DecidableEq, Repr

structure Config where
  memtable : Memtable.Config
  pool : PoolConfig

structure State (V : Type*) where
  mem : Memtable.State V
  pool : Pool.State
  handoff : ℕ → Handoff
  search : Option (Call V)

/-- The id is that of a memtable of the snapshot. -/
def Snapshot.covers (sn : Snapshot) (sid : SegmentId) : Bool :=
  sid = sn.gmtId || sn.smtIds.any fun id => id = sid

/-- `fully_covered` at the end of the loop over the ids of a segment. -/
def Snapshot.fullyCovered (sn : Snapshot) (seg : FlushedSegment) : Bool :=
  (List.range' seg.segmentIdStart (seg.segmentIdEnd + 1 - seg.segmentIdStart)).all sn.covers

/-- The snapshot taken while `mt_lock` is held. -/
def Snapshot.take (mem : Memtable.State V) (g : SlotIdx) : Snapshot where
  gidx := g
  gmtId := (mem.mt g).memtableId
  sidxs := mem.memtableIdxs
  smtIds := mem.memtableIdxs.map fun g => (mem.mt g).memtableId

/-- The thread is back at its queue. -/
def Handoff.settle (p : Pool.State) : Handoff → Handoff
  | .sent t sid => if p.pc t = .idle then .answered sid else .sent t sid
  | h => h

namespace State

variable (s : State V)

def setMem (mem : Memtable.State V) : State V := { s with mem := mem }

/-- The requests whose threads are done are answered. -/
def setPool (p : Pool.State) : State V :=
  { s with pool := p, handoff := fun f => (s.handoff f).settle p }

def setHandoff (f : ℕ) (h : Handoff) : State V :=
  { s with handoff := Function.update s.handoff f h }

def setSearch (c : Call V) : State V := { s with search := some c }

/-- References of the search on a memtable. -/
def memRefs (g : SlotIdx) : ℕ :=
  match s.search with
  | some c => c.todo.count g
  | none => 0

/-- References of the search on a segment it has not looked at. -/
def segRefs (g : ℕ) : ℕ :=
  match s.search with
  | some ⟨_, _, _, .filtering todo _⟩ => todo.count g
  | _ => 0

/-- A flush waits for its answer, and others do not drop what the search holds. -/
def AllowsMem : Memtable.Action V → Prop
  | .flu f => ∀ g, s.mem.flu f ≠ .written g
  | .unref g => s.memRefs g < (s.mem.slots g).readers
  | _ => True

def AllowsPool : Pool.Action → Prop
  | .regular _ _ _ | .adopt _ _ => False
  | .drop g => s.segRefs g < s.pool.held g
  | _ => True

instance (a : Memtable.Action V) : Decidable (s.AllowsMem a) :=
  match a with
  | .flu f =>
      match h : s.mem.flu f with
      | .written _ => .isFalse fun hall => hall _ h
      | .idle | .claimed _ | .waiting _ | .settled _ | .registered _ | .unlinked _ | .released _
      | .failed => .isTrue fun g hg => by simp [h] at hg
  | .unref g => inferInstanceAs (Decidable (_ < _))
  | .call _ _ | .ins _ | .alloc _ _ | .claim _ _ | .acquire _ | .lockVacuum _ | .unlockVacuum _
  | .mask _ _ | .other _ _ _ => .isTrue trivial

instance (a : Pool.Action) : Decidable (s.AllowsPool a) :=
  match a with
  | .regular _ _ _ | .adopt _ _ => .isFalse id
  | .drop g => inferInstanceAs (Decidable (_ < _))
  | .takeUpgrade _ | .scan _ | .run _ _ | .search | .pin _ _ | .check _ _ => .isTrue trivial

end State

inductive Action (V : Type*) where
  | mem (a : Memtable.Action V)
  | pool (a : Pool.Action)
  /-- The flush sends its request, which thread `t` takes. -/
  | notify (f t : ℕ)
  /-- The flush goes on with the answer. -/
  | resume (f : ℕ)
  | snapshot
  /-- The backend searches the next memtable and drops its reference. -/
  | scan
  /-- The worker takes the task and traverses the list. -/
  | traverse
  /-- The worker looks at the next segment. -/
  | classify

/-- References on all memtables of a snapshot. -/
def acquireAll (cfg : Memtable.Config) (mem : Memtable.State V) :
    List SlotIdx → Option (Memtable.State V)
  | [] => some mem
  | g :: gs => (Memtable.step cfg mem (.acquire g)).bind fun mem => acquireAll cfg mem gs

/-- What `vector_search` does with a segment of its list. -/
def classifyStep (cfg : Config) (s : State V) (c : Call V) (g : ℕ) (todo : List ℕ)
    (toSearch : List SegmentSearchInfo) : Option (State V) :=
  if c.snapshot.fullyCovered (s.pool.pool.seg g) then
    (Pool.step cfg.pool s.pool (.drop g)).map fun p =>
      (s.setPool p).setSearch { c with walk := .filtering todo toSearch }
  else
    some (s.setSearch { c with walk := .filtering todo (toSearch ++
      [⟨g, (s.pool.pool.seg g).segmentIdStart, (s.pool.pool.seg g).segmentIdEnd⟩]) })

def step (cfg : Config) (s : State V) : Action V → Option (State V)
  | .mem a => if s.AllowsMem a then (Memtable.step cfg.memtable s.mem a).map s.setMem else none
  | .pool a => if s.AllowsPool a then (Pool.step cfg.pool s.pool a).map s.setPool else none
  | .notify f t =>
      match s.mem.flu f, s.handoff f with
      | .written g, .none =>
          let sid := (s.mem.mt g).memtableId
          (Pool.step cfg.pool s.pool (.regular t sid sid)).map fun p =>
            (s.setHandoff f (.sent t sid)).setPool p
      | _, _ => none
  | .resume f =>
      match s.mem.flu f, s.handoff f with
      | .written _, .answered _ =>
          (Memtable.step cfg.memtable s.mem (.flu f)).map fun mem =>
            (s.setHandoff f .none).setMem mem
      | _, _ => none
  | .snapshot =>
      match s.search, s.mem.growingIdx with
      | none, .slot g =>
          (acquireAll cfg.memtable s.mem (g :: s.mem.memtableIdxs)).map fun mem =>
            (s.setMem mem).setSearch ⟨.take s.mem g, g :: s.mem.memtableIdxs, [], .sent⟩
      | _, _ => none
  | .scan =>
      match s.search with
      | some ⟨sn, g :: todo, scanned, walk⟩ =>
          (Memtable.step cfg.memtable s.mem (.unref g)).map fun mem =>
            (s.setMem mem).setSearch ⟨sn, todo, s.mem.mt g :: scanned, walk⟩
      | _ => none
  | .traverse =>
      match s.search with
      | some ⟨sn, mts, scanned, .sent⟩ =>
          let todo := s.pool.pool.membersToTail.filter fun g => (s.pool.pool.seg g).inUsed
          (Pool.step cfg.pool s.pool .search).map fun p =>
            (s.setPool p).setSearch ⟨sn, mts, scanned, .filtering todo []⟩
      | _ => none
  | .classify =>
      match s.search with
      | some ⟨sn, mts, scanned, .filtering (g :: todo) toSearch⟩ =>
          classifyStep cfg s ⟨sn, mts, scanned, .filtering (g :: todo) toSearch⟩ g todo toSearch
      | _ => none

/-- A freshly built or recovered index whose pool has been loaded. -/
structure Start (cfg : Config) (s : State V) : Prop where
  mem : Memtable.Start cfg.memtable s.mem
  pool : Pool.Start cfg.pool s.pool
  handoff : s.handoff = fun _ => .none
  search : s.search = none

/-- The condition on a step: a rotation without `need_enqueue` enters only while there is no
growing memtable, segments are linked where they fit, claims are of neighbours, and a segment
that a flush has announced is read from its files. -/
def Clear (s : State V) : Action V → Prop
  | .mem a => Memtable.EntersEmpty s.mem a
  | .pool a => Pool.Steady s.pool a ∧ Pool.Loads s.pool a
  | _ => True

end VectorLsm.Coverage
