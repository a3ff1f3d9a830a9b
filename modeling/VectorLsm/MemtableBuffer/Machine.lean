import VectorLsm.Lib.Tally
import VectorLsm.Lib.Transition
import VectorLsm.Memtable.Basic

/-! # The buffer of memtables

The slots that all indexes share, with their reference counts, and the calls that take and drop
references: inserts with their rotations, searches, bulk deletes and flushes. Of the status pages
there is the array of memtables, in which rotations register sids and inserts release those of
flushed memtables, a batch at a time.
-/

namespace VectorLsm.MemtableBuffer

variable {V : Type*}

structure MemtableBufferSlot (V : Type*) where
  refCount : ℕ
  mt : ConcurrentMemTable V
  /-- The holders of `vacuum_lock`. -/
  vacuumShared : ℕ
  vacuumExclusive : Bool

/-- `LSMIndexData`, with the memtable array of the status pages. -/
structure LSMIndex where
  rel : Oid
  /-- `min` of the byte bound and `postgresqlv_memtable_capacity`. -/
  capacity : ℕ
  growingIdx : GrowingIdx
  growingId : SegmentId
  /-- `memtable_idxs[0 .. memtable_count)`. -/
  memtableIdxs : List SlotIdx
  nextSegmentId : SegmentId
  /-- `flushed_not_released[0 .. flushed_not_released_count)`. -/
  flushedNotReleased : List SegmentId
  releasingInProgress : Bool
  /-- `flushed_release_lock` is held. -/
  releaseLocked : Bool
  statusSids : List SegmentId
  /-- History: the sids whose flush has reached the array, and those of completed calls of
  `ReleaseStatusMemtable`. -/
  flushed : List SegmentId
  released : List SegmentId
  deriving DecidableEq, Repr

/-- Program points of `insert_lsm_index`, with the release of a batch and
`rotate_growing_memtable` inlined. -/
inductive InsertPc where
  | enter
  /-- The count was not zero. -/
  | claim
  /-- `releasing_in_progress` is set by this call. -/
  | lock
  /-- `flushed_release_lock` is held, the count has been exchanged for zero. -/
  | release (batch : List SegmentId)
  | clear
  | loop
  | write (g : SlotIdx) (i : ℕ)
  | publish (g : SlotIdx) (i : ℕ)
  | rotate (needEnqueue : Bool)
  | wait
  /-- The growing index is `ROTATING` on behalf of this call, `cur` is to be enqueued. -/
  | allocate (cur : Option SlotIdx)
  | register (cur : Option SlotIdx) (new : SlotIdx)
  /-- At `RegisterStatusMemtable`. -/
  | announce (cur : Option SlotIdx) (new : SlotIdx)
  | enqueue (cur new : SlotIdx)
  | install (new : SlotIdx)
  deriving DecidableEq, Repr

/-- Program points of `search_lsm_index`. -/
inductive SearchPc where
  | snapshot
  /-- Inside `PG_TRY`, with the references still outstanding. -/
  | searching (held : List SlotIdx)
  deriving DecidableEq, Repr

/-- The locals of `bulk_delete_lsm_index` that live across memtables. -/
structure Vacuumed where
  growingId : SegmentId
  ids : List SegmentId
  /-- The memtable at work is that of step 1. -/
  first : Bool
  deriving DecidableEq, Repr

/-- Program points of `bulk_delete_lsm_index`. -/
inductive BulkDeletePc where
  | growing
  /-- A sealed memtable is referenced, its identity not yet verified. -/
  | check (c : Vacuumed) (g : SlotIdx) (id : SegmentId)
  | lock (c : Vacuumed) (g : SlotIdx)
  /-- `vacuum_lock` is held exclusively. -/
  | scan (c : Vacuumed) (g : SlotIdx)
  | unref (c : Vacuumed) (g : SlotIdx)
  | record (c : Vacuumed) (g : SlotIdx)
  | next (c : Vacuumed)
  /-- In step 3, over the segments on disk. -/
  | segments
  deriving DecidableEq, Repr

/-- Program points of `lsm_flush_one_pending`. -/
inductive FlushPc where
  | claim
  | claimed (g : SlotIdx)
  /-- `vacuum_lock` held shared, in `wait_for_publish`. -/
  | waiting (g : SlotIdx)
  | settled (g : SlotIdx)
  | written (g : SlotIdx)
  | registered (g : SlotIdx)
  /-- Past step 4.5. -/
  | tracked (g : SlotIdx)
  | unlinked (g : SlotIdx)
  | released (g : SlotIdx)
  deriving DecidableEq, Repr

/-- A backend or worker and the call it is in, on the index of position `n`. -/
inductive Task (V : Type*) where
  | idle
  | insert (n : ℕ) (r : Row V) (pc : InsertPc)
  | search (n : ℕ) (pc : SearchPc)
  | bulkDelete (n : ℕ) (pc : BulkDeletePc)
  | flush (n : ℕ) (pc : FlushPc)
  deriving DecidableEq

structure State (V : Type*) where
  slots : SlotIdx → MemtableBufferSlot V
  indexes : List LSMIndex
  tasks : List (Task V)
  /-- History: references whose holder has ended without dropping them. -/
  lost : SlotIdx → ℕ

namespace State

variable (s : State V)

def mt (g : SlotIdx) : ConcurrentMemTable V := (s.slots g).mt

def refCount (g : SlotIdx) : ℕ := (s.slots g).refCount

@[simps] def setTask (t : ℕ) (x : Task V) : State V := { s with tasks := s.tasks.set t x }

@[simps] def setIndex (n : ℕ) (idx : LSMIndex) : State V :=
  { s with indexes := s.indexes.set n idx }

@[simps tasks indexes lost] def setSlot (g : SlotIdx) (b : MemtableBufferSlot V) : State V :=
  { s with slots := Function.update s.slots g b }

@[simps! tasks indexes lost] def setMt (g : SlotIdx) (mt : ConcurrentMemTable V) : State V :=
  s.setSlot g { s.slots g with mt := mt }

/-- The atomic additions to `ref_count`. -/
@[simps! tasks indexes lost] def addRef (g : SlotIdx) : State V :=
  s.setSlot g { s.slots g with refCount := (s.slots g).refCount + 1 }

@[simps! tasks indexes lost] def dropRef (g : SlotIdx) : State V :=
  s.setSlot g { s.slots g with refCount := (s.slots g).refCount - 1 }

@[simps! tasks indexes lost] def lockShared (g : SlotIdx) : State V :=
  s.setSlot g { s.slots g with vacuumShared := (s.slots g).vacuumShared + 1 }

@[simps! tasks indexes lost] def unlockShared (g : SlotIdx) : State V :=
  s.setSlot g { s.slots g with vacuumShared := (s.slots g).vacuumShared - 1 }

@[simps! tasks indexes lost] def setExclusive (g : SlotIdx) (b : Bool) : State V :=
  s.setSlot g { s.slots g with vacuumExclusive := b }

/-- A reference is forgotten. -/
@[simps] def lose (g : SlotIdx) : State V :=
  { s with lost := Function.update s.lost g (s.lost g + 1) }

section Slots

variable (t n : ℕ) (x : Task V) (idx : LSMIndex) (g h : SlotIdx) (m : ConcurrentMemTable V)

@[simp] theorem setTask_refCount : (s.setTask t x).refCount g = s.refCount g := rfl

@[simp] theorem setTask_mt : (s.setTask t x).mt g = s.mt g := rfl

@[simp] theorem setIndex_refCount : (s.setIndex n idx).refCount g = s.refCount g := rfl

@[simp] theorem setIndex_mt : (s.setIndex n idx).mt g = s.mt g := rfl

@[simp] theorem lose_refCount : (s.lose g).refCount h = s.refCount h := rfl

@[simp] theorem lose_mt : (s.lose g).mt h = s.mt h := rfl

@[simp] theorem setSlot_refCount (b : MemtableBufferSlot V) :
    (s.setSlot g b).refCount h = if h = g then b.refCount else s.refCount h := by
  simp only [refCount, setSlot, Function.update_apply]
  split <;> rfl

@[simp] theorem setSlot_mt (b : MemtableBufferSlot V) :
    (s.setSlot g b).mt h = if h = g then b.mt else s.mt h := by
  simp only [mt, setSlot, Function.update_apply]
  split <;> rfl

variable {s g} in
theorem setSlot_refCount_of {b : MemtableBufferSlot V} (hb : b.refCount = s.refCount g) :
    (s.setSlot g b).refCount h = s.refCount h := by
  rw [setSlot_refCount]
  split
  next hh => rw [hh, hb]
  next => rfl

variable {s g} in
theorem setSlot_mt_of {b : MemtableBufferSlot V} (hb : b.mt = s.mt g) :
    (s.setSlot g b).mt h = s.mt h := by
  rw [setSlot_mt]
  split
  next hh => rw [hh, hb]
  next => rfl

@[simp] theorem setMt_refCount : (s.setMt g m).refCount h = s.refCount h :=
  setSlot_refCount_of h rfl

@[simp] theorem setMt_mt : (s.setMt g m).mt h = if h = g then m else s.mt h :=
  setSlot_mt s g h _

@[simp] theorem addRef_refCount :
    (s.addRef g).refCount h = s.refCount h + if h = g then 1 else 0 := by
  rw [addRef, setSlot_refCount]
  split
  next hh => rw [hh]; rfl
  next => rfl

@[simp] theorem addRef_mt : (s.addRef g).mt h = s.mt h := setSlot_mt_of h rfl

@[simp] theorem dropRef_refCount :
    (s.dropRef g).refCount h = s.refCount h - if h = g then 1 else 0 := by
  rw [dropRef, setSlot_refCount]
  split
  next hh => rw [hh]; rfl
  next => rfl

@[simp] theorem dropRef_mt : (s.dropRef g).mt h = s.mt h := setSlot_mt_of h rfl

@[simp] theorem lockShared_refCount : (s.lockShared g).refCount h = s.refCount h :=
  setSlot_refCount_of h rfl

@[simp] theorem lockShared_mt : (s.lockShared g).mt h = s.mt h := setSlot_mt_of h rfl

@[simp] theorem unlockShared_refCount : (s.unlockShared g).refCount h = s.refCount h :=
  setSlot_refCount_of h rfl

@[simp] theorem unlockShared_mt : (s.unlockShared g).mt h = s.mt h := setSlot_mt_of h rfl

@[simp] theorem setExclusive_refCount (b : Bool) :
    (s.setExclusive g b).refCount h = s.refCount h := setSlot_refCount_of h rfl

@[simp] theorem setExclusive_mt (b : Bool) : (s.setExclusive g b).mt h = s.mt h :=
  setSlot_mt_of h rfl

end Slots

end State

open State

/-- The next step of an insert into the index `idx` at position `n`. `allocate` chooses its slot
in `allocStep`. -/
def insertStep (s : State V) (t n : ℕ) (idx : LSMIndex) (r : Row V) :
    InsertPc → Option (State V)
  | .enter =>
      some (s.setTask t (.insert n r (if idx.flushedNotReleased = [] then .loop else .claim)))
  | .claim =>
      if idx.releasingInProgress then some (s.setTask t (.insert n r .loop))
      else some ((s.setIndex n { idx with releasingInProgress := true }).setTask t
        (.insert n r .lock))
  | .lock =>
      if idx.releaseLocked then none
      else some ((s.setIndex n { idx with
        releaseLocked := true, flushedNotReleased := [] }).setTask t
          (.insert n r (.release (idx.flushedNotReleased.take memtableNum))))
  | .release [] =>
      some ((s.setIndex n { idx with releaseLocked := false }).setTask t (.insert n r .clear))
  | .release (sid :: batch) =>
      some ((s.setIndex n { idx with
        statusSids := idx.statusSids.erase sid, released := sid :: idx.released }).setTask t
          (.insert n r (.release batch)))
  | .clear =>
      some ((s.setIndex n { idx with releasingInProgress := false }).setTask t
        (.insert n r .loop))
  | .loop =>
      match idx.growingIdx with
      | .rotating => some s
      | .invalid => some (s.setTask t (.insert n r (.rotate false)))
      | .slot g =>
          -- `reserve_slot`, with `mt_lock` held shared.
          if (s.mt g).isSealed then some (s.setTask t (.insert n r (.rotate true)))
          else if (s.mt g).capacity ≤ (s.mt g).currentSize then
            some ((s.setMt g (s.mt g).bump.setSealed).setTask t (.insert n r (.rotate true)))
          else some ((s.setMt g (s.mt g).bump).setTask t
            (.insert n r (.write g (s.mt g).currentSize)))
  | .write g i =>
      some ((s.setMt g ((s.mt g).store i r t)).setTask t (.insert n r (.publish g i)))
  | .publish g i => some ((s.setMt g ((s.mt g).publishSlotRelease i)).setTask t .idle)
  | .rotate needEnqueue =>
      match idx.growingIdx, needEnqueue with
      | .rotating, _ => some (s.setTask t (.insert n r .wait))
      -- `MT_FROM_SLOTIDX(-1)` is outside the buffer.
      | .invalid, true => none
      | .slot g, true =>
          if (s.mt g).isSealed then
            some ((s.setIndex n { idx with
              growingIdx := .rotating, growingId := (s.mt g).memtableId }).setTask t
                (.insert n r (.allocate (some g))))
          else some (s.setTask t (.insert n r .loop))
      -- Without `need_enqueue` the growing index is not looked at again.
      | _, false =>
          some ((s.setIndex n { idx with growingIdx := .rotating }).setTask t
            (.insert n r (.allocate none)))
  | .wait =>
      if idx.growingIdx = .rotating then some s else some (s.setTask t (.insert n r .loop))
  | .allocate _ => none
  | .register cur new =>
      some (((s.setMt new
        ((s.mt new).register idx.rel idx.nextSegmentId idx.capacity)).setIndex n
          { idx with nextSegmentId := idx.nextSegmentId + 1 }).setTask t
            (.insert n r (.announce cur new)))
  | .announce cur new =>
      some ((s.setIndex n { idx with
        statusSids := idx.statusSids ++ [(s.mt new).memtableId] }).setTask t
          (.insert n r (match cur with
            | some cur => .enqueue cur new
            | none => .install new)))
  | .enqueue cur new =>
      if idx.memtableIdxs.length < memtableNum then
        some ((s.setIndex n { idx with memtableIdxs := idx.memtableIdxs ++ [cur] }).setTask t
          (.insert n r (.install new)))
      else some s
  | .install new =>
      some ((s.setIndex n { idx with
        growingIdx := .slot new, growingId := (s.mt new).memtableId }).setTask t
          (.insert n r .loop))

/-- The compare-and-swap of `register_and_set_memtable` that takes slot `g`. -/
def allocStep (s : State V) (t : ℕ) (g : SlotIdx) : Option (State V) :=
  match s.tasks[t]? with
  | some (.insert n r (.allocate cur)) =>
      if (s.slots g).refCount = 0 then
        some ((s.addRef g).setTask t (.insert n r (.register cur g)))
      else none
  | _ => none

/-- The next step of a search. -/
def searchStep (s : State V) (t n : ℕ) (idx : LSMIndex) : SearchPc → Option (State V)
  | .snapshot =>
      match idx.growingIdx with
      | .slot g =>
          let held := g :: idx.memtableIdxs
          some ((held.foldl addRef s).setTask t (.search n (.searching held)))
      | _ => some s
  | .searching [] => some (s.setTask t .idle)
  | .searching (g :: held) => some ((s.dropRef g).setTask t (.search n (.searching held)))

/-- The next memtable of step 2: the last of the queue below the growing one that is not
vacuumed. -/
def nextMemtable (s : State V) (idx : LSMIndex) (c : Vacuumed) : Option SlotIdx :=
  idx.memtableIdxs.reverse.find? fun g =>
    decide ((s.mt g).memtableId < c.growingId ∧ (s.mt g).memtableId ∉ c.ids)

/-- The end of a bulk delete by an error: its locks are given up, a reference is not. -/
def abortBulkDelete (s : State V) (t : ℕ) : BulkDeletePc → State V
  | .check _ g _ | .lock _ g | .unref _ g => (s.lose g).setTask t .idle
  | .scan _ g => ((s.setExclusive g false).lose g).setTask t .idle
  | .growing | .record _ _ | .next _ | .segments => s.setTask t .idle

/-- The next step of a bulk delete. -/
def bulkDeleteStep (s : State V) (t n : ℕ) (idx : LSMIndex) : BulkDeletePc → Option (State V)
  | .growing =>
      match idx.growingIdx with
      | .slot g => some ((s.addRef g).setTask t
          (.bulkDelete n (.lock ⟨(s.mt g).memtableId, [], true⟩ g)))
      | _ => some (s.setTask t (.bulkDelete n (.next ⟨0, [], false⟩)))
  | .check c g id =>
      if (s.mt g).rel = idx.rel ∧ (s.mt g).memtableId = id then
        some (s.setTask t (.bulkDelete n (.lock c g)))
      else some (abortBulkDelete s t (.check c g id))
  | .lock c g =>
      if (s.slots g).vacuumShared = 0 ∧ (s.slots g).vacuumExclusive = false then
        some ((s.setExclusive g true).setTask t (.bulkDelete n (.scan c g)))
      else none
  | .scan c g => some ((s.setExclusive g false).setTask t (.bulkDelete n (.unref c g)))
  | .unref c g => some ((s.dropRef g).setTask t (.bulkDelete n (.record c g)))
  | .record c g =>
      let ids :=
        if c.first then [c.growingId]
        else if c.ids.length < memtableNum + 1 then c.ids ++ [(s.mt g).memtableId]
        else c.ids
      some (s.setTask t (.bulkDelete n (.next ⟨c.growingId, ids, false⟩)))
  | .next c =>
      match nextMemtable s idx c with
      | none => some (s.setTask t (.bulkDelete n .segments))
      | some g => some ((s.addRef g).setTask t (.bulkDelete n (.check c g (s.mt g).memtableId)))
  | .segments => some (s.setTask t .idle)

/-- The end of a flush worker by an error. -/
def abortFlush (s : State V) (t : ℕ) : FlushPc → Option (State V)
  | .claim | .claimed _ => some (s.setTask t .idle)
  | .waiting g | .settled g | .written g | .registered g =>
      some ((s.unlockShared g).setTask t .idle)
  -- Nothing can raise an error past step 4.5, a memtable missing in the queue apart.
  | .tracked _ | .unlinked _ | .released _ => none

/-- The next step of a flush worker. -/
def flushStep (s : State V) (t n : ℕ) (idx : LSMIndex) : FlushPc → Option (State V)
  -- Nothing to claim.
  | .claim => some (s.setTask t .idle)
  | .claimed g =>
      if (s.slots g).vacuumExclusive then none
      else some ((s.lockShared g).setTask t (.flush n (.waiting g)))
  | .waiting g =>
      if (s.mt g).isSealed = false ∨ (s.mt g).validSize < (s.mt g).readyCnt then
        abortFlush s t (.waiting g)
      else if (s.mt g).readyCnt = (s.mt g).validSize then
        some (s.setTask t (.flush n (.settled g)))
      else some s
  | .settled g => some (s.setTask t (.flush n (.written g)))
  | .written g => some (s.setTask t (.flush n (.registered g)))
  | .registered g =>
      if idx.releaseLocked then none
      else
        let sid := (s.mt g).memtableId
        let tracked := if idx.flushedNotReleased.length < memtableNum then
          idx.flushedNotReleased ++ [sid] else idx.flushedNotReleased
        some ((s.setIndex n { idx with
          flushedNotReleased := tracked, flushed := sid :: idx.flushed }).setTask t
            (.flush n (.tracked g)))
  | .tracked g =>
      if g ∈ idx.memtableIdxs then
        some ((s.setIndex n { idx with memtableIdxs := idx.memtableIdxs.erase g }).setTask t
          (.flush n (.unlinked g)))
      else some ((s.unlockShared g).setTask t .idle)
  | .unlinked g => some ((s.dropRef g).setTask t (.flush n (.released g)))
  | .released g => some ((s.unlockShared g).setTask t .idle)

/-- `claim_immutable_for_flush` taking the memtable in slot `g`. -/
def claimStep (s : State V) (t : ℕ) (g : SlotIdx) : Option (State V) :=
  match s.tasks[t]? with
  | some (.flush n .claim) =>
      match s.indexes[n]? with
      | some idx =>
          if g ∈ idx.memtableIdxs ∧ (s.mt g).flushClaimed = false then
            some ((s.setMt g (s.mt g).setFlushClaimed).setTask t (.flush n (.claimed g)))
          else none
      | none => none
  | _ => none

/-- The row `i` of the memtable that a bulk delete is at is found dead. -/
def maskStep (s : State V) (t i : ℕ) : Option (State V) :=
  match s.tasks[t]? with
  | some (.bulkDelete _ (.scan _ g)) =>
      if i < (s.mt g).validSize then some (s.setMt g ((s.mt g).mask i)) else none
  | _ => none

/-- An error raised in a search, a bulk delete or a flush; a search drops what it holds. -/
def errorStep (s : State V) (t : ℕ) : Option (State V) :=
  match s.tasks[t]? with
  | some (.search _ .snapshot) => some (s.setTask t .idle)
  | some (.search _ (.searching held)) => some ((held.foldl dropRef s).setTask t .idle)
  | some (.bulkDelete _ pc) => some (abortBulkDelete s t pc)
  | some (.flush _ pc) => abortFlush s t pc
  | _ => none

/-- An error raised inside `ReleaseStatusMemtable`, before or after it has deleted the entry. -/
def releaseErrorStep (s : State V) (t : ℕ) (deleted : Bool) : Option (State V) :=
  match s.tasks[t]? with
  | some (.insert n _ (.release (sid :: _))) =>
      match s.indexes[n]? with
      | some idx =>
          some ((s.setIndex n { idx with
            releaseLocked := false
            statusSids := if deleted then idx.statusSids.erase sid else idx.statusSids }).setTask t
              .idle)
      | none => none
  | _ => none

/-- A memtable that `build_lsm_index` or `recover_lsm_index_internal` sets up in a free slot. -/
def place (rel : Oid) (s : State V) (m : SlotIdx × ConcurrentMemTable V) : Option (State V) :=
  if (s.slots m.1).refCount = 0 then
    some (((s.addRef m.1).setMt m.1 { m.2 with rel := rel, flushClaimed := false }))
  else none

/-- What an index that is built or recovered is set up with: its memtables, and the sids of the
status pages that segments already cover. -/
structure Loaded (V : Type*) where
  rel : Oid
  capacity : ℕ
  growing : Option (SlotIdx × ConcurrentMemTable V)
  queue : List (SlotIdx × ConcurrentMemTable V)
  covered : List SegmentId
  nextSegmentId : SegmentId

namespace Loaded

variable (d : Loaded V)

def memtables : List (SlotIdx × ConcurrentMemTable V) := d.growing.toList ++ d.queue

def sids : List SegmentId := d.memtables.map (fun m => m.2.memtableId) ++ d.covered

def index : LSMIndex where
  rel := d.rel
  capacity := d.capacity
  growingIdx := match d.growing with
    | some m => .slot m.1
    | none => .invalid
  growingId := match d.growing with
    | some m => m.2.memtableId
    | none => 0
  memtableIdxs := d.queue.map fun m => m.1
  nextSegmentId := d.nextSegmentId
  flushedNotReleased := d.covered
  releasingInProgress := false
  releaseLocked := false
  statusSids := d.sids
  flushed := d.covered
  released := []

/-- What the arrays hold and `alloc_segment_id` goes on from. -/
def Fits : Prop :=
  d.queue.length ≤ memtableNum ∧ d.covered.length ≤ memtableNum ∧ d.sids.Nodup ∧
    ∀ sid ∈ d.sids, sid < d.nextSegmentId

instance : Decidable d.Fits := inferInstanceAs (Decidable (_ ∧ _))

end Loaded

/-- `build_lsm_index` or `recover_lsm_index_internal` as a whole; no call knows the index before. -/
def load (s : State V) (d : Loaded V) : Option (State V) :=
  if d.Fits then
    (d.memtables.foldlM (place d.rel) s).map fun s =>
      { s with indexes := s.indexes ++ [d.index] }
  else none

inductive Action (V : Type*) where
  | load (d : Loaded V)
  | insert (t n : ℕ) (r : Row V)
  | search (t n : ℕ)
  | bulkDelete (t n : ℕ)
  | flush (t n : ℕ)
  | run (t : ℕ)
  | alloc (t : ℕ) (g : SlotIdx)
  | claim (t : ℕ) (g : SlotIdx)
  | mask (t i : ℕ)
  | error (t : ℕ)
  | releaseError (t : ℕ) (deleted : Bool)

/-- An idle task enters a call on a known index. -/
def call (s : State V) (t n : ℕ) (x : Task V) : Option (State V) :=
  match s.tasks[t]?, s.indexes[n]? with
  | some .idle, some _ => some (s.setTask t x)
  | _, _ => none

/-- The next step of a task that is in a call. -/
def runStep (s : State V) (t : ℕ) : Option (State V) :=
  match s.tasks[t]? with
  | some (.insert n r pc) => s.indexes[n]?.bind fun idx => insertStep s t n idx r pc
  | some (.search n pc) => s.indexes[n]?.bind fun idx => searchStep s t n idx pc
  | some (.bulkDelete n pc) => s.indexes[n]?.bind fun idx => bulkDeleteStep s t n idx pc
  | some (.flush n pc) => s.indexes[n]?.bind fun idx => flushStep s t n idx pc
  | _ => none

def step (s : State V) : Action V → Option (State V)
  | .load d => load s d
  | .insert t n r => call s t n (.insert n r .enter)
  | .search t n => call s t n (.search n .snapshot)
  | .bulkDelete t n => call s t n (.bulkDelete n .growing)
  | .flush t n => call s t n (.flush n .claim)
  | .run t => runStep s t
  | .alloc t g => allocStep s t g
  | .claim t g => claimStep s t g
  | .mask t i => maskStep s t i
  | .error t => errorStep s t
  | .releaseError t deleted => releaseErrorStep s t deleted

/-- The shared memory as it is set up: no slot is taken, no index known, every process idle. -/
def Start (s : State V) : Prop :=
  (∀ g, (s.slots g).refCount = 0) ∧ s.indexes = [] ∧ (∀ x ∈ s.tasks, x = .idle) ∧
    s.lost = fun _ => 0

end VectorLsm.MemtableBuffer
