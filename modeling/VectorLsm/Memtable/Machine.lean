import VectorLsm.Lib.Transition
import VectorLsm.Memtable.Basic

/-! # Insert, rotation and flush

Any number of inserts and flush workers over the memtables of one index. Each lock section,
atomic operation and publish of the source is a step; a call is at one of the program points
of `InsertPc` or `FlushPc`. Searches and vacuum are seen through the references they take,
the vacuum lock and the deletion bits they set; other indexes through the buffer slots they
hold.
-/

namespace VectorLsm.Memtable

variable {V : Type*}

/-- Program points of `insert_lsm_index` with `reserve_slot` and `rotate_growing_memtable`
inlined. -/
inductive InsertPc (V : Type*) where
  | idle
  /-- At the head of the retry loop. -/
  | loop (r : Row V)
  /-- `mt_lock` held shared, about to read `sealed`. -/
  | reserve (r : Row V) (g : SlotIdx)
  | fetchAdd (r : Row V) (g : SlotIdx)
  | setSealed (r : Row V) (g : SlotIdx)
  /-- `reserve_slot` has returned, `mt_lock` still held. -/
  | unlock (r : Row V) (g : SlotIdx) (i : Option ℕ)
  | write (r : Row V) (g : SlotIdx) (i : ℕ)
  | publish (r : Row V) (g : SlotIdx) (i : ℕ)
  /-- At the entry of `rotate_growing_memtable`. -/
  | rotate (r : Row V) (needEnqueue : Bool)
  | wait (r : Row V)
  /-- The growing index is `ROTATING` on behalf of this call, `cur` is to be enqueued. -/
  | allocate (r : Row V) (cur : Option SlotIdx)
  | register (r : Row V) (cur : Option SlotIdx) (new : SlotIdx)
  | enqueue (r : Row V) (cur new : SlotIdx)
  | install (r : Row V) (new : SlotIdx)
  | returned (r : Row V)
  deriving DecidableEq

/-- Program points of `lsm_flush_one_pending`. -/
inductive FlushPc where
  | idle
  | claimed (g : SlotIdx)
  /-- `vacuum_lock` held shared, in `wait_for_publish`. -/
  | waiting (g : SlotIdx)
  | settled (g : SlotIdx)
  /-- The segment files are on disk. -/
  | written (g : SlotIdx)
  /-- The worker has answered `SEGMENT_UPDATE_REGULAR`. -/
  | registered (g : SlotIdx)
  | unlinked (g : SlotIdx)
  | released (g : SlotIdx)
  /-- Left by `elog(ERROR)`. -/
  | failed
  deriving DecidableEq

structure MemtableBufferSlot (V : Type*) where
  refCount : ℕ
  mt : ConcurrentMemTable V
  /-- History: references of searches and vacuum on a memtable of this index. -/
  readers : ℕ
  /-- History: the slot belongs to another index. -/
  foreign : Bool
  /-- Flush workers that hold `vacuum_lock` shared. -/
  vacuumShared : Finset ℕ
  vacuumExclusive : Bool

structure Config where
  rel : Oid
  /-- `min` of the byte bound and `postgresqlv_memtable_capacity`. -/
  capacity : ℕ

structure State (V : Type*) where
  slots : SlotIdx → MemtableBufferSlot V
  growingIdx : GrowingIdx
  growingId : SegmentId
  /-- `memtable_idxs[0 .. memtable_count)`. -/
  memtableIdxs : List SlotIdx
  nextSegmentId : SegmentId
  /-- Inserts that hold `mt_lock` shared. -/
  mtShared : Finset ℕ
  ins : ℕ → InsertPc V
  flu : ℕ → FlushPc
  /-- History: the memtables taken off the queue by `handoff_unlink`. -/
  handedOff : List (ConcurrentMemTable V)

namespace State

def mt (s : State V) (g : SlotIdx) : ConcurrentMemTable V := (s.slots g).mt

@[simps] def setIns (s : State V) (t : ℕ) (pc : InsertPc V) : State V :=
  { s with ins := Function.update s.ins t pc }

@[simps] def setFlu (s : State V) (f : ℕ) (pc : FlushPc) : State V :=
  { s with flu := Function.update s.flu f pc }

@[simps] def setSlot (s : State V) (g : SlotIdx) (b : MemtableBufferSlot V) : State V :=
  { s with slots := Function.update s.slots g b }

@[simps] def setMt (s : State V) (g : SlotIdx) (mt : ConcurrentMemTable V) : State V :=
  { s with slots := Function.update s.slots g { s.slots g with mt := mt } }

@[simps] def setShared (s : State V) (ts : Finset ℕ) : State V := { s with mtShared := ts }

@[simps] def setGrowing (s : State V) (idx : GrowingIdx) (id : SegmentId) : State V :=
  { s with growingIdx := idx, growingId := id }

@[simps] def setQueue (s : State V) (idxs : List SlotIdx) : State V :=
  { s with memtableIdxs := idxs }

@[simps] def setNextId (s : State V) (id : SegmentId) : State V := { s with nextSegmentId := id }

/-- `alloc_segment_id`. -/
@[simps!] def allocId (s : State V) : State V := s.setNextId (s.nextSegmentId + 1)

@[simps] def setHandedOff (s : State V) (ms : List (ConcurrentMemTable V)) : State V :=
  { s with handedOff := ms }

attribute [grind =] setIns_slots setIns_growingIdx setIns_memtableIdxs setIns_nextSegmentId
  setIns_mtShared setIns_ins setIns_flu setIns_handedOff setFlu_slots setFlu_growingIdx
  setFlu_memtableIdxs setFlu_nextSegmentId setFlu_mtShared setFlu_ins setFlu_flu setFlu_handedOff
  setSlot_slots setSlot_growingIdx setSlot_memtableIdxs setSlot_nextSegmentId setSlot_mtShared
  setSlot_ins setSlot_flu setSlot_handedOff setMt_slots setMt_growingIdx setMt_memtableIdxs
  setMt_nextSegmentId setMt_mtShared setMt_ins setMt_flu setMt_handedOff setShared_slots
  setShared_growingIdx setShared_memtableIdxs setShared_nextSegmentId setShared_mtShared
  setShared_ins setShared_flu setShared_handedOff setGrowing_slots setGrowing_growingIdx
  setGrowing_memtableIdxs setGrowing_nextSegmentId setGrowing_mtShared setGrowing_ins
  setGrowing_flu setGrowing_handedOff setQueue_slots setQueue_growingIdx setQueue_memtableIdxs
  setQueue_nextSegmentId setQueue_mtShared setQueue_ins setQueue_flu setQueue_handedOff
  setNextId_slots setNextId_growingIdx setNextId_memtableIdxs setNextId_nextSegmentId
  setNextId_mtShared setNextId_ins setNextId_flu setNextId_handedOff allocId_slots
  allocId_growingIdx allocId_memtableIdxs allocId_nextSegmentId allocId_mtShared allocId_ins
  allocId_flu allocId_handedOff setHandedOff_slots setHandedOff_growingIdx
  setHandedOff_memtableIdxs setHandedOff_nextSegmentId setHandedOff_mtShared setHandedOff_ins
  setHandedOff_flu setHandedOff_handedOff

section Mt

variable (s : State V) (t f : ℕ) (g g' : SlotIdx)

@[simp, grind =] theorem slots_mt : (s.slots g).mt = s.mt g := rfl

@[simp, grind =] theorem setIns_mt (pc : InsertPc V) : (s.setIns t pc).mt g = s.mt g := rfl

@[simp, grind =] theorem setFlu_mt (pc : FlushPc) : (s.setFlu f pc).mt g = s.mt g := rfl

@[simp, grind =] theorem setShared_mt (ts : Finset ℕ) : (s.setShared ts).mt g = s.mt g := rfl

@[simp, grind =] theorem setGrowing_mt (idx : GrowingIdx) (id : SegmentId) :
    (s.setGrowing idx id).mt g = s.mt g := rfl

@[simp, grind =] theorem setQueue_mt (idxs : List SlotIdx) : (s.setQueue idxs).mt g = s.mt g := rfl

@[simp, grind =] theorem setNextId_mt (id : SegmentId) : (s.setNextId id).mt g = s.mt g := rfl

@[simp, grind =] theorem allocId_mt : s.allocId.mt g = s.mt g := rfl

@[simp, grind =] theorem setHandedOff_mt (ms : List (ConcurrentMemTable V)) :
    (s.setHandedOff ms).mt g = s.mt g := rfl

@[simp, grind =] theorem setMt_mt (m : ConcurrentMemTable V) :
    (s.setMt g m).mt g' = if g' = g then m else s.mt g' := by
  simp only [mt, setMt_slots, Function.update_apply]
  split <;> rfl

@[simp, grind =] theorem setSlot_mt (b : MemtableBufferSlot V) :
    (s.setSlot g b).mt g' = if g' = g then b.mt else s.mt g' := by
  simp only [mt, setSlot_slots, Function.update_apply]
  split <;> rfl

@[simp] theorem setSlot_setMt (b : MemtableBufferSlot V) (m : ConcurrentMemTable V) :
    (s.setSlot g b).setMt g m = s.setSlot g { b with mt := m } := by
  simp [setSlot, setMt]

end Mt

/-- No insert holds `mt_lock` shared: the exclusive sections can run. -/
def exclusive (s : State V) : Prop := s.mtShared = ∅

instance (s : State V) : Decidable s.exclusive := inferInstanceAs (Decidable (_ = _))

end State

open State

/-- The next step of an insert. `allocate` chooses its slot in `allocStep`. -/
def insertStep (cfg : Config) (s : State V) (t : ℕ) : Option (State V) :=
  match s.ins t with
  | .idle | .returned _ | .allocate _ _ => none
  | .loop r =>
      match s.growingIdx with
      | .rotating => some s
      | .invalid => some (s.setIns t (.rotate r false))
      | .slot g => some ((s.setIns t (.reserve r g)).setShared (insert t s.mtShared))
  | .reserve r g =>
      if (s.mt g).isSealed then some (s.setIns t (.unlock r g none))
      else some (s.setIns t (.fetchAdd r g))
  | .fetchAdd r g =>
      let i := (s.mt g).currentSize
      let pc := if (s.mt g).capacity ≤ i then .setSealed r g else .unlock r g (some i)
      some ((s.setMt g (s.mt g).bump).setIns t pc)
  | .setSealed r g => some ((s.setMt g (s.mt g).setSealed).setIns t (.unlock r g none))
  | .unlock r g i =>
      let pc := match i with
        | some i => .write r g i
        | none => .rotate r true
      some ((s.setIns t pc).setShared (s.mtShared.erase t))
  | .write r g i => some ((s.setMt g ((s.mt g).store i r t)).setIns t (.publish r g i))
  | .publish r g i => some ((s.setMt g ((s.mt g).publishSlotRelease i)).setIns t (.returned r))
  | .rotate r needEnqueue =>
      if s.exclusive then
        match s.growingIdx, needEnqueue with
        | .rotating, _ => some (s.setIns t (.wait r))
        -- `MT_FROM_SLOTIDX(-1)` is outside the buffer.
        | .invalid, true => none
        | .slot g, true =>
            if (s.mt g).isSealed then
              some ((s.setIns t (.allocate r (some g))).setGrowing .rotating (s.mt g).memtableId)
            else some (s.setIns t (.loop r))
        -- Without `need_enqueue` the growing index is not looked at again.
        | _, false => 
            some ((s.setIns t (.allocate r none)).setGrowing .rotating s.growingId)
      else none
  | .wait r => if s.growingIdx = .rotating then some s else some (s.setIns t (.loop r))
  | .register r cur new =>
      let pc := match cur with
        | some c => .enqueue r c new
        | none => .install r new
      some ((s.setMt new
        ((s.mt new).register cfg.rel s.nextSegmentId cfg.capacity)).setIns t pc).allocId
  | .enqueue r cur new =>
      if s.exclusive then
        if s.memtableIdxs.length < memtableNum then
          some ((s.setIns t (.install r new)).setQueue (s.memtableIdxs ++ [cur]))
        else some s
      else none
  | .install r new =>
      if s.exclusive then
        some ((s.setIns t (.loop r)).setGrowing (.slot new) (s.mt new).memtableId)
      else none

/-- The compare-and-swap of `register_and_set_memtable` that takes slot `g`. -/
def allocStep (s : State V) (t : ℕ) (g : SlotIdx) : Option (State V) :=
  match s.ins t with
  | .allocate r cur =>
      if (s.slots g).refCount = 0 then
        some ((s.setSlot g { s.slots g with refCount := 1 }).setIns t (.register r cur g))
      else none
  | _ => none

/-- `claim_immutable_for_flush` taking the memtable in slot `g`. -/
def claimStep (s : State V) (f : ℕ) (g : SlotIdx) : Option (State V) :=
  if s.flu f = .idle ∧ g ∈ s.memtableIdxs ∧ (s.mt g).flushClaimed = false then
    some ((s.setMt g (s.mt g).setFlushClaimed).setFlu f (.claimed g))
  else none

/-- Leaving the worker by an error gives up its locks. -/
def failFlush (s : State V) (f : ℕ) (g : SlotIdx) : State V :=
  (s.setSlot g { s.slots g with vacuumShared := (s.slots g).vacuumShared.erase f }).setFlu f .failed

/-- The next step of a flush worker that has claimed a memtable. -/
def flushStep (s : State V) (f : ℕ) : Option (State V) :=
  match s.flu f with
  | .idle | .failed => none
  | .claimed g =>
      if (s.slots g).vacuumExclusive then none
      else some ((s.setSlot g
        { s.slots g with vacuumShared := insert f (s.slots g).vacuumShared }).setFlu f (.waiting g))
  | .waiting g =>
      if (s.mt g).isSealed = false ∨ (s.mt g).validSize < (s.mt g).readyCnt then
        some (failFlush s f g)
      else if (s.mt g).readyCnt = (s.mt g).validSize then some (s.setFlu f (.settled g))
      else some s
  | .settled g => some (s.setFlu f (.written g))
  | .written g => some (s.setFlu f (.registered g))
  | .registered g =>
      if s.exclusive then
        if g ∈ s.memtableIdxs then
          some (((s.setFlu f (.unlinked g)).setQueue (s.memtableIdxs.erase g)).setHandedOff
            (s.mt g :: s.handedOff))
        else some (failFlush s f g)
      else none
  | .unlinked g =>
      some ((s.setSlot g { s.slots g with refCount := (s.slots g).refCount - 1 }).setFlu f
        (.released g))
  | .released g =>
      some ((s.setSlot g
        { s.slots g with vacuumShared := (s.slots g).vacuumShared.erase f }).setFlu f .idle)

inductive Action (V : Type*) where
  | call (t : ℕ) (r : Row V)
  | ins (t : ℕ)
  | alloc (t : ℕ) (g : SlotIdx)
  | claim (f : ℕ) (g : SlotIdx)
  | flu (f : ℕ)
  /-- A search or vacuum references a memtable under `mt_lock`. -/
  | acquire (g : SlotIdx)
  | unref (g : SlotIdx)
  | lockVacuum (g : SlotIdx)
  | unlockVacuum (g : SlotIdx)
  | mask (g : SlotIdx) (i : ℕ)
  /-- Whatever another index does with a slot that is free or its own. -/
  | other (g : SlotIdx) (refCount : ℕ) (mt : ConcurrentMemTable V)

/-- The steps of searches and vacuum, and of other indexes, on the buffer. -/
def readerStep (s : State V) : Action V → Option (State V)
  | .acquire g =>
      if s.growingIdx = .slot g ∨ g ∈ s.memtableIdxs then
        some (s.setSlot g { s.slots g with
          refCount := (s.slots g).refCount + 1, readers := (s.slots g).readers + 1 })
      else none
  | .unref g =>
      if 0 < (s.slots g).readers then
        some (s.setSlot g { s.slots g with
          refCount := (s.slots g).refCount - 1, readers := (s.slots g).readers - 1 })
      else none
  | .lockVacuum g =>
      if 0 < (s.slots g).readers ∧ (s.slots g).vacuumShared = ∅ ∧
          (s.slots g).vacuumExclusive = false then
        some (s.setSlot g { s.slots g with vacuumExclusive := true })
      else none
  | .unlockVacuum g =>
      if (s.slots g).vacuumExclusive then
        some (s.setSlot g { s.slots g with vacuumExclusive := false })
      else none
  | .mask g i =>
      if 0 < (s.slots g).readers ∧ (s.slots g).vacuumExclusive then
        some (s.setMt g ((s.mt g).mask i))
      else none
  | .other g rc mt' =>
      if (s.slots g).refCount = 0 ∨ (s.slots g).foreign then
        some (s.setSlot g { s.slots g with
          refCount := rc, mt := mt', foreign := decide (0 < rc) })
      else none
  | _ => none

def step (cfg : Config) (s : State V) : Action V → Option (State V)
  | .call t r =>
      match s.ins t with
      | .idle => some (s.setIns t (.loop r))
      | _ => none
  | .ins t => insertStep cfg s t
  | .alloc t g => allocStep s t g
  | .claim f g => claimStep s f g
  | .flu f => flushStep s f
  | a => readerStep s a

end VectorLsm.Memtable
