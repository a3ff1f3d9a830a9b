import Mathlib.Data.List.FinRange
import VectorLsm.Lib.Transition
import VectorLsm.Memtable.Basic

/-! # Memtables of a standby

The startup process redoes the memtable records of every index, the segment fetcher releases
the memtables that an adopted segment covers, searches hold references. The buffer of memtables
is shared by the indexes, and each index has room for a few sealed ones.
-/

namespace VectorLsm.Standby

open Transition

variable {V : Type*}

structure BufferSlot (V : Type*) where
  refCount : ℕ
  mt : ConcurrentMemTable V

/-- The memtable fields of an `LSMIndexData`. -/
structure LSMIndex where
  growingIdx : GrowingIdx
  growingId : SegmentId
  /-- `memtable_idxs[0 .. memtable_count)`. -/
  memtableIdxs : List SlotIdx

namespace LSMIndex

variable (lsm : LSMIndex)

/-- The memtables that are found from the index, in the order of `find_memtable_by_sid`. -/
def tables : List SlotIdx :=
  match lsm.growingIdx with
  | .slot g => g :: lsm.memtableIdxs
  | _ => lsm.memtableIdxs

/-- A sealed memtable is left out once the array is full. -/
def enqueue (g : SlotIdx) : LSMIndex :=
  if lsm.memtableIdxs.length < memtableNum then { lsm with memtableIdxs := lsm.memtableIdxs ++ [g] }
  else lsm

/-- What `dpv_standby_register_memtable` does with the new memtable `g`. -/
def wire (g : SlotIdx) (sid : SegmentId) : LSMIndex :=
  if sid > lsm.growingId ∨ lsm.growingIdx = .invalid then
    match lsm.growingIdx with
    | .slot prev => ⟨.slot g, sid, (lsm.enqueue prev).memtableIdxs⟩
    | _ => ⟨.slot g, sid, lsm.memtableIdxs⟩
  else lsm.enqueue g

/-- The memtable that is sealed then. -/
def sealed (g : SlotIdx) (sid : SegmentId) : Option SlotIdx :=
  if sid > lsm.growingId ∨ lsm.growingIdx = .invalid then
    match lsm.growingIdx with
    | .slot prev => some prev
    | _ => none
  else some g

/-- The memtables where `gone` holds are taken off. -/
def release (gone : SlotIdx → Bool) : LSMIndex :=
  let idxs := lsm.memtableIdxs.filter fun g => !gone g
  match lsm.growingIdx with
  | .slot g =>
      if gone g then { growingIdx := .invalid, growingId := 0, memtableIdxs := idxs }
      else { lsm with memtableIdxs := idxs }
  | _ => { lsm with memtableIdxs := idxs }

end LSMIndex

/-- The row of an `ADD_TO_MEMTABLE` record: `current_size` is raised past its slot. -/
def redoRow (mt : ConcurrentMemTable V) (i : ℕ) (r : Row V) : ConcurrentMemTable V :=
  { mt with rows := Function.update mt.rows i r, currentSize := max mt.currentSize (i + 1) }
    |>.publishSlotRelease i

structure State (V : Type*) where
  slots : SlotIdx → BufferSlot V
  lsm : Oid → LSMIndex
  /-- The index has a writable slot in the index buffer. -/
  loaded : Oid → Bool
  /-- References of searches. -/
  held : List (ℕ × SlotIdx)
  /-- History: the `REGISTER_MEMTABLE` records redone. -/
  registered : List (Oid × SegmentId)
  /-- History: the ranges of the segments adopted. -/
  adopted : List (Oid × SegmentId × SegmentId)
  /-- History: the `ADD_TO_MEMTABLE` records redone. -/
  redone : List (Oid × SegmentId × ℕ × Row V)

namespace State

variable (s : State V)

def mt (g : SlotIdx) : ConcurrentMemTable V := (s.slots g).mt

def tables (rel : Oid) : List SlotIdx := (s.lsm rel).tables

@[simps] def setSlot (g : SlotIdx) (b : BufferSlot V) : State V :=
  { s with slots := Function.update s.slots g b }

@[simps] def setMt (g : SlotIdx) (mt : ConcurrentMemTable V) : State V :=
  { s with slots := Function.update s.slots g { s.slots g with mt := mt } }

@[simps] def setLsm (rel : Oid) (lsm : LSMIndex) : State V :=
  { s with lsm := Function.update s.lsm rel lsm }

def findMemtableBySid (rel : Oid) (sid : SegmentId) : Option SlotIdx :=
  (s.tables rel).find? fun g => (s.mt g).memtableId = sid

/-- The first slot of the buffer without a reference. -/
def freeSlot : Option SlotIdx :=
  (List.finRange memtableBufSize).find? fun g => (s.slots g).refCount = 0

/-- `register_and_set_memtable` on slot `g` in recovery mode. -/
def registerAndSetMemtable (cap : Oid → ℕ) (rel : Oid) (sid : SegmentId) (g : SlotIdx) : State V :=
  s.setSlot g ⟨1, (s.mt g).register rel sid (cap rel)⟩

/-- `dpv_standby_register_memtable`. -/
def registerMemtable (cap : Oid → ℕ) (rel : Oid) (sid : SegmentId) : State V :=
  if s.loaded rel = false then s
  else if (s.findMemtableBySid rel sid).isSome then s
  else
    match s.freeSlot with
    | none => s
    | some g =>
        let s' := s.registerAndSetMemtable cap rel sid g
        let s'' := s'.setLsm rel ((s.lsm rel).wire g sid)
        match (s.lsm rel).sealed g sid with
        | none => s''
        | some h => s''.setMt h (s'.mt h).setSealed

/-- `dpv_standby_add_to_memtable`. -/
def addToMemtable (rel : Oid) (sid : SegmentId) (i : ℕ) (r : Row V) : State V :=
  if s.loaded rel = false then s
  else
    match s.findMemtableBySid rel sid with
    | none => s
    | some g => if (s.mt g).capacity ≤ i then s else s.setMt g (redoRow (s.mt g) i r)

/-- `fetcher_release_covered_memtables`. -/
def releaseCovered (rel : Oid) (lo hi : SegmentId) : State V :=
  let gone g := decide (lo ≤ (s.mt g).memtableId ∧ (s.mt g).memtableId ≤ hi)
  { s with
    slots := fun g => { s.slots g with
      refCount := (s.slots g).refCount - ((s.tables rel).filter gone).count g }
    lsm := Function.update s.lsm rel ((s.lsm rel).release gone) }

end State

inductive Action (V : Type*) where
  | register (rel : Oid) (sid : SegmentId)
  | add (rel : Oid) (sid : SegmentId) (i : ℕ) (r : Row V)
  /-- A segment is adopted, or found durable for an index that is not loaded. -/
  | adopt (rel : Oid) (lo hi : SegmentId)
  /-- Search `t` takes its references, under `mt_lock`. -/
  | read (t : ℕ) (rel : Oid)
  /-- Search `t` gives one back. -/
  | done (t : ℕ) (g : SlotIdx)

def step (cap : Oid → ℕ) (s : State V) : Action V → Option (State V)
  | .register rel sid =>
      some { s.registerMemtable cap rel sid with registered := (rel, sid) :: s.registered }
  | .add rel sid i r =>
      -- A primary logs rows of memtables it has registered.
      if (rel, sid) ∈ s.registered then
        some { s.addToMemtable rel sid i r with redone := (rel, sid, i, r) :: s.redone }
      else none
  | .adopt rel lo hi =>
      if s.loaded rel then
        some { s.releaseCovered rel lo hi with adopted := (rel, lo, hi) :: s.adopted }
      else none
  | .read t rel =>
      match (s.lsm rel).growingIdx with
      | .slot _ =>
          some { s with
            slots := fun g => { s.slots g with
              refCount := (s.slots g).refCount + (s.tables rel).count g }
            held := (s.tables rel).map (fun g => (t, g)) ++ s.held }
      | _ => none
  | .done t g =>
      if (t, g) ∈ s.held then
        some { s.setSlot g { s.slots g with refCount := (s.slots g).refCount - 1 } with
          held := s.held.erase (t, g) }
      else none

/-- An adopted segment covers the memtable. -/
def Covered (s : State V) (rel : Oid) (sid : SegmentId) : Prop :=
  ∃ a ∈ s.adopted, a.1 = rel ∧ a.2.1 ≤ sid ∧ sid ≤ a.2.2

instance (s : State V) (rel : Oid) (sid : SegmentId) : Decidable (Covered s rel sid) := by
  unfold Covered
  infer_instance

/-- Every registered memtable that no segment covers is found from its index, with all its
rows; every referenced slot belongs to an index or to a search. -/
structure NotDropped (s : State V) : Prop where
  reachable : ∀ rel sid, (rel, sid) ∈ s.registered → ¬ Covered s rel sid →
    ∃ g ∈ s.tables rel, (s.mt g).memtableId = sid ∧ ∀ i r, (rel, sid, i, r) ∈ s.redone →
      (s.mt g).rows i = r ∧ (s.mt g).ready i = true ∧ i < (s.mt g).validSize
  counted : ∀ g, 0 < (s.slots g).refCount → (∃ rel, g ∈ s.tables rel) ∨ ∃ t, (t, g) ∈ s.held

end VectorLsm.Standby
