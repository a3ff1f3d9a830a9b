import VectorLsm.Lib.Memory
import VectorLsm.Lib.Ring
import VectorLsm.Maintenance.Machine
import VectorLsm.Memtable.Layout

/-! # The shared memory between backends and the worker

Three blocks: the task slots of the ring buffer, the data of a search for each of them, and the
result slots of the processes. Everything in them is bytes at computed addresses. An `int` is a
word of four bytes here; none of them is negative. Floats are their bits.
-/

namespace VectorLsm.RingBuffer

open Codec Layout Maintenance
open Search.SlotTable (maxAlign)

/-! ## Structs -/

/-- `LSMSnapshot`. -/
structure LSMSnapshot where
  gidx : UInt32
  scount : UInt32
  sidxs : Fin memtableNum → UInt32
  gmtId : UInt32
  smtIds : Fin memtableNum → UInt32

structure TaskSlot where
  type : UInt32
  dsmSize : UInt64
  handle : UInt32

/-- `VectorSearchTaskData`; the query follows it. -/
structure VectorSearchTaskData where
  backendPgprocno : UInt32
  indexRelid : UInt32
  vectorDim : UInt64
  topk : UInt32
  efsNprobe : UInt32
  snapshot : LSMSnapshot

/-- `VectorSearchResultData`; the ids and the distances follow it. -/
structure VectorSearchResultData where
  status : UInt32
  resultCount : UInt32
  resultSize : UInt64
  maintStatus : UInt32
  maintDone : UInt32

def LSMSnapshot.codec : Codec LSMSnapshot :=
  (uint32.prod (uint32.prod ((array uint32 memtableNum).prod
    (uint32.prod (array uint32 memtableNum))))).map
    (fun s => (s.gidx, s.scount, s.sidxs, s.gmtId, s.smtIds))
    (fun ⟨g, n, idxs, id, ids⟩ => ⟨g, n, idxs, id, ids⟩) fun _ => rfl

def TaskSlot.codec : Codec TaskSlot :=
  (uint32.prod ((pad 4).prod (uint64.prod (uint32.prod (pad 4))))).map
    (fun t => (t.type, (), t.dsmSize, t.handle, ()))
    (fun ⟨type, _, size, handle, _⟩ => ⟨type, size, handle⟩) fun _ => rfl

def VectorSearchTaskData.codec : Codec VectorSearchTaskData :=
  (uint32.prod (uint32.prod (uint64.prod (uint32.prod (uint32.prod
    (LSMSnapshot.codec.prod (pad 4))))))).map
    (fun t => (t.backendPgprocno, t.indexRelid, t.vectorDim, t.topk, t.efsNprobe, t.snapshot, ()))
    (fun ⟨p, rel, dim, k, efs, s, _⟩ => ⟨p, rel, dim, k, efs, s⟩) fun _ => rfl

def VectorSearchResultData.codec : Codec VectorSearchResultData :=
  (uint32.prod (uint32.prod (uint64.prod (uint32.prod uint32)))).map
    (fun r => (r.status, r.resultCount, r.resultSize, r.maintStatus, r.maintDone))
    (fun ⟨s, n, size, m, d⟩ => ⟨s, n, size, m, d⟩) fun _ => rfl

/-! ## Addresses -/

/-- `MAX_TOPK`. -/
def maxTopk : ℕ := 1000

/-- A lock pointer, five `int`s with padding, and three sizes. -/
def sizeofRingBufferShmem : ℕ := 8 + (5 * 4 + 4) + 3 * 8

def taskHandlesOfst : ℕ := maxAlign sizeofRingBufferShmem

def vsTaskAt (idx : ℕ) : ℕ := taskHandlesOfst + idx * TaskSlot.codec.size

def searchResultStride : ℕ :=
  maxAlign VectorSearchResultData.codec.size + maxTopk * 8 + maxTopk * sizeofFloat

def vsSearchResultAt (pgprocno : UInt32) : ℕ := pgprocno.toNat * searchResultStride

def vsSearchResultIdAt (result : ℕ) : ℕ := result + maxAlign VectorSearchResultData.codec.size

/-- The distances follow as many ids as there are. -/
def vsSearchResultDistAt (result resultCount : ℕ) : ℕ :=
  result + maxAlign VectorSearchResultData.codec.size + resultCount * 8

@[simp] theorem size_taskSlot : TaskSlot.codec.size = 24 := rfl

@[simp] theorem size_resultData : VectorSearchResultData.codec.size = 24 := rfl

theorem size_taskData : VectorSearchTaskData.codec.size = sizeofVectorSearchTaskData := rfl

/-! ## Requests -/

/-- What a backend searches for. -/
@[ext] structure Query where
  indexRelid : UInt32
  vector : List UInt32
  topk : UInt32
  efsNprobe : UInt32
  snapshot : LSMSnapshot

/-- What the worker is to do. -/
inductive Task where
  | search (procno : UInt32) (query : Query)
  | maintenance (type : TaskType) (dsmSize : UInt64) (handle : UInt32)

structure DistancePair where
  distance : UInt32
  id : Int64
  deriving DecidableEq, Repr

/-- The codes of `VectorTaskType` that enter the ring buffer. -/
def vectorSearchTaskType : UInt32 := 0

def typeCode : TaskType → UInt32
  | .indexBuild => 1
  | .indexLoad => 2
  | .segmentUpdate => 3

def ofTypeCode : UInt32 → Option TaskType
  | 1 => some .indexBuild
  | 2 => some .indexLoad
  | 3 => some .segmentUpdate
  | _ => none

theorem ofTypeCode_typeCode (type : TaskType) : ofTypeCode (typeCode type) = some type := by
  cases type <;> rfl

theorem typeCode_ne (type : TaskType) : typeCode type ≠ vectorSearchTaskType := by
  cases type <;> decide

/-! ## Task slots -/

/-- The blocks that hold the tasks. -/
structure TaskMemory where
  taskSlots : ℕ → UInt8
  searchTasks : ℕ → UInt8

namespace TaskMemory

variable (m : TaskMemory)

/-- The part of `vector_search_send` that fills a slot. -/
def writeSearch (slot : ℕ) (procno : UInt32) (query : Query) : TaskMemory where
  taskSlots := TaskSlot.codec.poke m.taskSlots (vsTaskAt slot) ⟨vectorSearchTaskType, 0, 0⟩
  searchTasks := uint32.pokeAll
    (VectorSearchTaskData.codec.poke m.searchTasks (vsSearchTaskAt slot)
      { backendPgprocno := procno
        indexRelid := query.indexRelid
        vectorDim := .ofNat query.vector.length
        topk := query.topk
        efsNprobe := query.efsNprobe
        snapshot := query.snapshot })
    (vsSearchTaskVectorAt slot) query.vector

/-- The part of `submit_and_wait_maintenance` that fills a slot. -/
def writeMaintenance (slot : ℕ) (type : TaskType) (dsmSize : UInt64) (handle : UInt32) :
    TaskMemory :=
  { m with
    taskSlots := TaskSlot.codec.poke m.taskSlots (vsTaskAt slot) ⟨typeCode type, dsmSize, handle⟩ }

/-- What `handle_task` makes of a slot; it passes over types it does not know. -/
def handleTask (slot : ℕ) : Option Task :=
  let taskSlot := TaskSlot.codec.peek m.taskSlots (vsTaskAt slot)
  if taskSlot.type = vectorSearchTaskType then
    let task := VectorSearchTaskData.codec.peek m.searchTasks (vsSearchTaskAt slot)
    some (.search task.backendPgprocno
      { indexRelid := task.indexRelid
        vector := uint32.peekAll m.searchTasks (vsSearchTaskVectorAt slot) task.vectorDim.toNat
        topk := task.topk
        efsNprobe := task.efsNprobe
        snapshot := task.snapshot })
  else
    (ofTypeCode taskSlot.type).map fun type => .maintenance type taskSlot.dsmSize taskSlot.handle

end TaskMemory

/-- The longest query a task asks to copy. -/
def Task.dim : Task → ℕ
  | .search _ query => query.vector.length
  | .maintenance .. => 0

/-- Filling a slot with a task. -/
def TaskMemory.write (m : TaskMemory) (slot : ℕ) : Task → TaskMemory
  | .search procno query => m.writeSearch slot procno query
  | .maintenance type dsmSize handle => m.writeMaintenance slot type dsmSize handle

/-! ## A slot and the others -/

section Frames

variable {m : TaskMemory} {i j slot : ℕ} {procno : UInt32} {query : Query} {t : Task}

theorem vsTaskAt_apart (h : i ≠ j) :
    vsTaskAt j + TaskSlot.codec.size ≤ vsTaskAt i ∨
      vsTaskAt i + TaskSlot.codec.size ≤ vsTaskAt j := by
  simp only [vsTaskAt, size_taskSlot]
  omega

/-- What is written for a search lies within the bytes of its slot. -/
theorem within_writeSearch (hdim : query.vector.length ≤ maxDim) :
    Blob.Within m.searchTasks (m.writeSearch slot procno query).searchTasks
      (vsSearchTaskAt slot) (vsSearchTaskAt slot + searchTaskStride) := by
  refine (VectorSearchTaskData.codec.within_poke.mono le_rfl ?_).trans
    (uint32.within_pokeAll.mono ?_ ?_)
  · rw [size_taskData]
    unfold searchTaskStride
    have hle := le_maxAlign sizeofVectorSearchTaskData
    omega
  · exact Nat.le_add_right _ _
  · change vsSearchTaskVectorAt slot + 4 * query.vector.length ≤ _
    unfold vsSearchTaskVectorAt searchTaskStride sizeofFloat
    omega

theorem vsSearchTaskAt_apart (h : i ≠ j) :
    vsSearchTaskAt j + searchTaskStride ≤ vsSearchTaskAt i ∨
      vsSearchTaskAt i + searchTaskStride ≤ vsSearchTaskAt j := by
  unfold vsSearchTaskAt
  rcases Nat.lt_or_gt_of_ne h with hlt | hgt
  · exact .inr (by rw [← Nat.succ_mul]; exact Nat.mul_le_mul_right _ hlt)
  · exact .inl (by rw [← Nat.succ_mul]; exact Nat.mul_le_mul_right _ hgt)

/-- The slot holds the task it was filled with. -/
theorem handleTask_write (hdim : t.dim ≤ maxDim) : (m.write i t).handleTask i = some t := by
  cases t with
  | maintenance type dsmSize handle =>
      simp only [TaskMemory.write, TaskMemory.writeMaintenance, TaskMemory.handleTask, peek_poke]
      rw [if_neg (typeCode_ne type), ofTypeCode_typeCode]
      rfl
  | search procno query =>
      have hlen : (UInt64.ofNat query.vector.length).toNat = query.vector.length := by
        rw [UInt64.toNat_ofNat']
        exact Nat.mod_eq_of_lt (hdim.trans_lt (by decide))
      -- the query is behind the data and leaves it alone
      have hdata : ∀ d : VectorSearchTaskData, VectorSearchTaskData.codec.peek
          (uint32.pokeAll (VectorSearchTaskData.codec.poke m.searchTasks (vsSearchTaskAt i) d)
            (vsSearchTaskVectorAt i) query.vector) (vsSearchTaskAt i) = d := by
        intro d
        rw [VectorSearchTaskData.codec.peek_of_within uint32.within_pokeAll (.inl ?_), peek_poke]
        rw [size_taskData]
        exact Nat.add_le_add_left (le_maxAlign _) _
      simp only [TaskMemory.write, TaskMemory.writeSearch, TaskMemory.handleTask, peek_poke,
        if_true, hdata, hlen, peekAll_pokeAll]

/-- A slot keeps its task when another is filled. -/
theorem handleTask_write_of_ne {t' : Task} (hdim : t.dim ≤ maxDim) (hdim' : t'.dim ≤ maxDim)
    (h : i ≠ j) (ht : m.handleTask j = some t') : (m.write i t).handleTask j = some t' := by
  have hslot : TaskSlot.codec.peek (m.write i t).taskSlots (vsTaskAt j) =
      TaskSlot.codec.peek m.taskSlots (vsTaskAt j) := by
    cases t <;> exact TaskSlot.codec.peek_of_within TaskSlot.codec.within_poke (vsTaskAt_apart h)
  have hwithin : Blob.Within m.searchTasks (m.write i t).searchTasks
      (vsSearchTaskAt i) (vsSearchTaskAt i + searchTaskStride) := by
    cases t with
    | search procno query => exact within_writeSearch hdim
    | maintenance => exact Blob.Within.refl
  have hapart := vsSearchTaskAt_apart h
  have hdata : VectorSearchTaskData.codec.peek (m.write i t).searchTasks (vsSearchTaskAt j) =
      VectorSearchTaskData.codec.peek m.searchTasks (vsSearchTaskAt j) := by
    refine VectorSearchTaskData.codec.peek_of_within hwithin (hapart.imp_left fun hle => ?_)
    exact (Nat.add_le_add_left ((le_maxAlign _).trans (Nat.le_add_right _ _)) _).trans hle
  rw [TaskMemory.handleTask] at ht ⊢
  simp only [hslot, hdata] at ht ⊢
  split at ht
  next hsearch =>
    rw [if_pos hsearch]
    obtain rfl := Option.some.inj ht
    -- the length that is read is that of a query that fits
    have hlen : (VectorSearchTaskData.codec.peek m.searchTasks
        (vsSearchTaskAt j)).vectorDim.toNat ≤ maxDim := by
      simpa [Task.dim, length_peekAll] using hdim'
    rw [uint32.peekAll_of_within hwithin]
    refine hapart.imp (fun hle => le_trans ?_ hle) fun hle => hle.trans (Nat.le_add_right _ _)
    change vsSearchTaskVectorAt j + 4 * _ ≤ _
    unfold vsSearchTaskVectorAt searchTaskStride sizeofFloat
    omega
  next hother => rwa [if_neg hother]

end Frames

/-- The task slots, for tasks whose query fits. -/
def taskSlots : Slots TaskMemory Task where
  Fits t := t.dim ≤ maxDim
  put := TaskMemory.write
  get := TaskMemory.handleTask
  get_put_self _ _ _ := handleTask_write
  get_put_of_ne _ _ _ _ _ := handleTask_write_of_ne

end VectorLsm.RingBuffer
