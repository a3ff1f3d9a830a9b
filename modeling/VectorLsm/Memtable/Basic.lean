import Mathlib.Algebra.GroupWithZero.Nat
import Mathlib.Data.Finset.Card
import Mathlib.Data.Finset.Range
import Mathlib.Logic.Function.Basic
import Mathlib.Tactic.Simps.Basic

/-! # Memtables

The in-memory table of an index: an array of rows whose slots are handed out by an atomic
counter, written without a lock and then published one by one. The buffer that holds the
tables is shared by all indexes and its slots are reused.
-/

namespace VectorLsm

abbrev Oid := ℕ

abbrev SegmentId := ℕ

/-- A heap pointer packed in an `int64_t`. -/
abbrev Tid := ℕ

/-- Slots of the shared memtable buffer. -/
abbrev memtableBufSize : ℕ := 8

/-- Immutable memtables an index can queue. -/
abbrev memtableNum : ℕ := 4

/-- The segment written by the index build. -/
abbrev startSegmentId : SegmentId := 3

abbrev SlotIdx := Fin memtableBufSize

instance : NeZero memtableBufSize := ⟨by decide⟩

instance : LawfulBEq SlotIdx := inferInstance

/-- `growing_memtable_idx` with its two sentinels. -/
inductive GrowingIdx where
  | invalid
  | rotating
  | slot (g : SlotIdx)
  deriving DecidableEq, Repr

structure Row (V : Type*) where
  tid : Tid
  vector : V
  deriving DecidableEq, Repr

structure ConcurrentMemTable (V : Type*) where
  rel : Oid
  memtableId : SegmentId
  capacity : ℕ
  currentSize : ℕ
  readyCnt : ℕ
  isSealed : Bool
  flushClaimed : Bool
  /-- `none` is the initial `UINT32_MAX`. -/
  maxReadyId : Option ℕ
  rows : ℕ → Row V
  bitmap : ℕ → Bool
  ready : ℕ → Bool
  /-- History: the insert that wrote the slot for the present tenant. -/
  writer : ℕ → Option ℕ

namespace ConcurrentMemTable

variable {V : Type*} (mt : ConcurrentMemTable V)

/-- The slots handed out that exist. -/
def validSize : ℕ := min mt.currentSize mt.capacity

/-- `register_and_set_memtable` on a buffer slot: rows, and ready flags from `cap` on, are
those of the former tenant. -/
@[simps] def register (rel : Oid) (sid : SegmentId) (cap : ℕ) : ConcurrentMemTable V :=
  { mt with
    rel := rel
    memtableId := sid
    capacity := cap
    currentSize := 0
    readyCnt := 0
    isSealed := false
    flushClaimed := false
    maxReadyId := none
    bitmap := fun _ => false
    ready := fun i => if i < cap then false else mt.ready i
    writer := fun _ => none }

/-- The fetch-and-add of `reserve_slot`. -/
@[simps] def bump : ConcurrentMemTable V := { mt with currentSize := mt.currentSize + 1 }

@[simps] def setSealed : ConcurrentMemTable V := { mt with isSealed := true }

@[simps] def setFlushClaimed : ConcurrentMemTable V := { mt with flushClaimed := true }

/-- The row stored in a reserved slot by insert `t`. -/
@[simps] def store (i : ℕ) (r : Row V) (t : ℕ) : ConcurrentMemTable V :=
  { mt with rows := Function.update mt.rows i r, writer := Function.update mt.writer i (some t) }

/-- The end of the ready run after `m`, looking at most `fuel` slots ahead. -/
def extendReady (ready : ℕ → Bool) (cap : ℕ) : ℕ → ℕ → ℕ
  | 0, m => m
  | fuel + 1, m => if m + 1 < cap ∧ ready (m + 1) then extendReady ready cap fuel (m + 1) else m

/-- `update_max_ready_id`: a publish that is not the next one leaves the bound alone. -/
def updateMaxReadyId (i : ℕ) : Option ℕ :=
  match mt.maxReadyId with
  | none => if i = 0 then some 0 else none
  | some m => if i = m + 1 then some (extendReady mt.ready mt.capacity mt.capacity m) else some m

@[simps] def setReady (i : ℕ) : ConcurrentMemTable V :=
  { mt with ready := Function.update mt.ready i true, readyCnt := mt.readyCnt + 1 }

@[simps] def publishSlotRelease (i : ℕ) : ConcurrentMemTable V :=
  { mt.setReady i with maxReadyId := (mt.setReady i).updateMaxReadyId i }

/-- `SET_SLOT` on the deletion bitmap. -/
@[simps] def mask (i : ℕ) : ConcurrentMemTable V :=
  { mt with bitmap := Function.update mt.bitmap i true }

attribute [grind =] register_rel register_memtableId register_capacity register_currentSize
  register_readyCnt register_isSealed register_flushClaimed register_rows register_bitmap
  register_ready register_writer bump_rel bump_memtableId bump_capacity bump_currentSize
  bump_readyCnt bump_isSealed bump_flushClaimed bump_rows bump_bitmap bump_ready bump_writer
  setSealed_rel setSealed_memtableId setSealed_capacity setSealed_currentSize setSealed_readyCnt
  setSealed_isSealed setSealed_flushClaimed setSealed_rows setSealed_bitmap setSealed_ready
  setSealed_writer setFlushClaimed_rel setFlushClaimed_memtableId setFlushClaimed_capacity
  setFlushClaimed_currentSize setFlushClaimed_readyCnt setFlushClaimed_isSealed
  setFlushClaimed_flushClaimed setFlushClaimed_rows setFlushClaimed_bitmap setFlushClaimed_ready
  setFlushClaimed_writer store_rel store_memtableId store_capacity store_currentSize
  store_readyCnt store_isSealed store_flushClaimed store_rows store_bitmap store_ready
  store_writer setReady_rel setReady_memtableId setReady_capacity setReady_currentSize
  setReady_readyCnt setReady_isSealed setReady_flushClaimed setReady_rows setReady_bitmap
  setReady_ready setReady_writer publishSlotRelease_rel publishSlotRelease_memtableId
  publishSlotRelease_capacity publishSlotRelease_currentSize publishSlotRelease_readyCnt
  publishSlotRelease_isSealed publishSlotRelease_flushClaimed publishSlotRelease_rows
  publishSlotRelease_bitmap publishSlotRelease_ready publishSlotRelease_writer mask_rel
  mask_memtableId mask_capacity mask_currentSize mask_readyCnt mask_isSealed mask_flushClaimed
  mask_rows mask_bitmap mask_ready mask_writer

section ValidSize

variable (rel : Oid) (sid : SegmentId) (cap i : ℕ) (r : Row V) (t : ℕ)

@[simp] theorem register_validSize : (mt.register rel sid cap).validSize = 0 :=
  Nat.zero_min _

@[simp] theorem setSealed_validSize : mt.setSealed.validSize = mt.validSize := rfl

@[simp] theorem setFlushClaimed_validSize : mt.setFlushClaimed.validSize = mt.validSize := rfl

@[simp] theorem store_validSize : (mt.store i r t).validSize = mt.validSize := rfl

@[simp] theorem publishSlotRelease_validSize :
    (mt.publishSlotRelease i).validSize = mt.validSize := rfl

@[simp] theorem mask_validSize : (mt.mask i).validSize = mt.validSize := rfl

attribute [grind =] register_validSize setSealed_validSize setFlushClaimed_validSize
  store_validSize publishSlotRelease_validSize mask_validSize

theorem validSize_le_capacity : mt.validSize ≤ mt.capacity := Nat.min_le_right _ _

end ValidSize

end ConcurrentMemTable

end VectorLsm
