import VectorLsm.Compaction.Entries
import VectorLsm.Segment.Compacted

/-! # What compactions hand to the vector library

The writers of a pool with the index files of its segments. A merge thread reads the files of the
latest version of each slot it has claimed, and calls `MergeIndex` or `MergeTwoIndices` with what
they hold and with the row counts of the slots; a failed check there raises an error in the
thread.
-/

namespace VectorLsm

variable {I V : Type*}

namespace Knowhere

variable (k : Knowhere I V)

/-- `MergeIndex` with the texts of its errors. -/
def mergeIndexOrError (index : I) (bitmap : ℕ → Bool) (count : ℕ) (newIndexType : IndexType) :
    Except String (I × ℕ) :=
  if k.hasRawData index = false then .error "MergeIndex: the index does not have raw data"
  else if k.count index ≠ count then
    .error "MergeIndex: the total number of vectors in the index does not match the count"
  else
    let selectedIds := (List.range count).filter (!bitmap ·)
    if selectedIds = [] then .error "MergeIndex: no vectors are selected"
    else
      match k.getVectorByIds index selectedIds with
      | none =>
          .error "MergeIndex: failed to retrieve the selected vectors from the index"
      | some vs =>
          if newIndexType = .diskann then .error "MergeIndex: unsupported new index type 3"
          else .ok (k.build vs, selectedIds.length)

/-- `MergeTwoIndices` with the texts of its errors. -/
def mergeTwoIndicesOrError (dim : I → ℕ) (lindex : I) (lcount : ℕ) (sindex : I) (scount : ℕ) :
    Except String (I × ℕ) :=
  if lcount < scount then
    .error s!"MergeTwoIndices: lindex count ({lcount}) must be >= sindex count ({scount})"
  else if k.hasRawData lindex = false then
    .error "MergeTwoIndices: lindex does not have raw data"
  else if k.hasRawData sindex = false then
    .error "MergeTwoIndices: sindex does not have raw data"
  else if k.count lindex ≠ lcount then
    .error s!"MergeTwoIndices: lindex count ({k.count lindex}) does not match lcount ({lcount})"
  else if k.count sindex ≠ scount then
    .error s!"MergeTwoIndices: sindex count ({k.count sindex}) does not match scount ({scount})"
  else if dim lindex ≠ dim sindex then
    .error s!"MergeTwoIndices: dimension mismatch - lindex: {dim lindex}, sindex: {dim sindex}"
  else
    match k.getVectorByIds sindex (List.range scount) with
    | none => .error "MergeTwoIndices: failed to retrieve vectors from smaller index"
    | some vs =>
        match k.add lindex vs with
        | none =>
            .error "MergeTwoIndices: failed to add vectors from smaller index to larger index"
        | some merged =>
            if k.count merged ≠ lcount + scount then
              .error (s!"MergeTwoIndices: merged index count ({k.count merged}) " ++
                s!"does not match expected ({lcount + scount})")
            else .ok (merged, k.count merged)

variable {k} {dim : I → ℕ} {index lindex sindex : I} {bitmap : ℕ → Bool} {count lcount scount : ℕ}

theorem mergeIndexOrError_eq_ok {type : IndexType} {r : I × ℕ} (ht : type ≠ .diskann) :
    k.mergeIndexOrError index bitmap count type = .ok r ↔
      k.mergeIndex index bitmap count = some r := by
  unfold mergeIndexOrError mergeIndex
  split
  · simp
  · split
    · simp
    · dsimp only
      split
      · simp
      · cases k.getVectorByIds index ((List.range count).filter (!bitmap ·)) <;> simp

theorem mergeTwoIndicesOrError_eq_ok {r : I × ℕ} :
    k.mergeTwoIndicesOrError dim lindex lcount sindex scount = .ok r ↔
      dim lindex = dim sindex ∧ k.mergeTwoIndices lindex lcount sindex scount = some r := by
  unfold mergeTwoIndicesOrError mergeTwoIndices
  split_ifs with h₁ h₂ h₃ h₄ h₅ h₆ <;> simp_all
  cases k.getVectorByIds sindex (List.range scount) with
  | none => simp
  | some vs =>
      cases hadd : k.add lindex vs with
      | none => simp [hadd]
      | some merged =>
          simp only [Option.bind_some, hadd]
          split <;> simp

end Knowhere

namespace Building

open Pool InMemory

structure Config (I V : Type*) extends InMemory.Config where
  knowhere : Knowhere I V
  dim : I → ℕ
  /-- The dimension of the column. -/
  columnDim : ℕ
  /-- `lsmIndex.index_type`. -/
  targetType : IndexType
  /-- The index files of the primary, by version. -/
  primary : SegmentFileInfo → I

structure State (I : Type*) extends InMemory.State where
  /-- The index files on disk, by version. -/
  index : SegmentFileInfo → I
  /-- The index a merge thread has built. -/
  built : ℕ → Option I

variable (cfg : Config I V)

/-- The index belongs to a file: it has a vector for each entry of the mapping. -/
def Indexes (x : I) (f : SegmentFile) : Prop :=
  cfg.knowhere.count x = f.mapping.length ∧ cfg.dim x = cfg.columnDim

instance (x : I) (f : SegmentFile) : Decidable (Indexes cfg x f) :=
  inferInstanceAs (Decidable (_ ∧ _))

/-- The call of the library in a compaction that has read the files `fs` of its slots. -/
def call (s : State I) (task : MergeTask) (fs : List SegmentFile) :
    Option (Except String (I × ℕ)) :=
  match task.olds, fs with
  | [g], [f] => some (cfg.knowhere.mergeIndexOrError (s.index f.info) f.bitmap
      (s.base.pool.seg g).vecCount cfg.targetType)
  | [g, g'], [f, f'] =>
      let count := (s.base.pool.seg g).vecCount
      let count' := (s.base.pool.seg g').vecCount
      some (if count' ≤ count then
        cfg.knowhere.mergeTwoIndicesOrError cfg.dim (s.index f.info) count (s.index f'.info) count'
      else
        cfg.knowhere.mergeTwoIndicesOrError cfg.dim (s.index f'.info) count' (s.index f.info) count)
  | _, _ => none

/-- A step of the writers. An error of the library ends the build of its thread, which is a failed
`run`; the index goes to disk with the other files of its version. -/
def step (s : State I) (a : InMemory.Action) : Option (State I) :=
  match a with
  | .work t =>
      match s.base.pc t, s.work t with
      | .build task, .files fs =>
          match call cfg s task fs with
          | some (.ok (x, _)) => (InMemory.step cfg.toConfig s.toState a).map fun c =>
              ⟨c, s.index, Function.update s.built t (some x)⟩
          | _ => none
      | .build _, .built new => (InMemory.step cfg.toConfig s.toState a).map fun c =>
          let version := s.disk.latestVersion new.startSid new.endSid + 1
          ⟨c, (s.built t).elim s.index
            (Function.update s.index ⟨new.startSid, new.endSid, version⟩), s.built⟩
      | _, _ => (InMemory.step cfg.toConfig s.toState a).map fun c => ⟨c, s.index, s.built⟩
  | .pull f =>
      if Indexes cfg (cfg.primary f.info) f then
        (InMemory.step cfg.toConfig s.toState a).map fun c =>
          ⟨c, Function.update s.index f.info (cfg.primary f.info), s.built⟩
      else none
  | a => (InMemory.step cfg.toConfig s.toState a).map fun c => ⟨c, s.index, s.built⟩

/-- The pool after an index load, from files of the directory. -/
def Start (s : State I) : Prop :=
  InMemory.Start cfg.toConfig s.toState ∧ (∀ f ∈ s.disk, Indexes cfg (s.index f.info) f) ∧
    s.built = fun _ => none

/-- The index, the bitmap and the mapping of a file are those of the version of the slot, and have
as many entries as the slot says it has rows. -/
structure OneVersion (s : State I) (g : ℕ) (f : SegmentFile) : Prop where
  info : f.info = (s.base.pool.seg g).info
  mapping : f.mapping.length = (s.base.pool.seg g).vecCount
  index : cfg.knowhere.count (s.index f.info) = (s.base.pool.seg g).vecCount

/-- What a merge thread is about to read, and what it has read, goes with its slots, and the
library takes it. -/
structure Fed (s : State I) : Prop where
  reads : ∀ t task, s.base.pc t = .build task → s.work t = .none → ∀ g ∈ task.olds,
    ∃ f ∈ s.disk.loadLatest (s.base.pool.seg g).segmentIdStart (s.base.pool.seg g).segmentIdEnd,
      OneVersion cfg s g f
  passes : ∀ t task fs, s.base.pc t = .build task → s.work t = .files fs →
    List.Forall₂ (OneVersion cfg s) task.olds fs
  unmasked : ∀ t task fs, s.base.pc t = .build task → s.work t = .files fs →
    task.operationType ≠ .merge → ∀ f ∈ fs, ∃ i < f.mapping.length, f.bitmap i = false
  succeeds : ∀ t task fs, s.base.pc t = .build task → s.work t = .files fs →
    ∃ r, call cfg s task fs = some (.ok r)

/-- No file of the range of a slot is of a later version. -/
def Latest (d : Disk) (seg : FlushedSegment) : Prop :=
  ∀ f ∈ d, f.info.range = seg.info.range → f.version ≤ seg.version

instance (d : Disk) (seg : FlushedSegment) : Decidable (Latest d seg) :=
  inferInstanceAs (Decidable (∀ f ∈ d, _))

/-- A row of a file is not masked in a bitmap. -/
def RowLeft (f : SegmentFile) (bitmap : ℕ → Bool) : Prop :=
  ∃ i < f.mapping.length, bitmap i = false

instance (f : SegmentFile) (bitmap : ℕ → Bool) : Decidable (RowLeft f bitmap) :=
  inferInstanceAs (Decidable (∃ i < _, _))

/-- A slot that a merge thread has claimed and not yet read. -/
def Unread (s : InMemory.State) (task : MergeTask) (g : ℕ) : Prop :=
  ∃ t, s.base.pc t = .build task ∧ s.work t = .none ∧ g ∈ task.olds

/-- The condition on a step. A slot that is claimed is of the latest version on disk and, for a
rebuild, has a row that is not masked; this stays so until its files are read. The segments that
are linked have been loaded, and no other writer gets between a compaction and its slots. -/
def Feeds (s : InMemory.State) : InMemory.Action → Prop
  | .run t ok =>
      SteadyRun s.base t (if ok then some ⟨0, 0, 0, .flat, 0, 0⟩ else none) ∧
        match s.base.pc t with
        | .adoptLoad a slot =>
            ok = false ∨ s.disk.load ⟨a.startSid, a.endSid, a.version⟩ = none →
              s.arrays slot = none
        | .regularRegister slot | .adoptInstall slot _ _ => (s.arrays slot).isSome
        | .claim p idx0 idx1 =>
            (s.base.pool.claimTask (.ofPriority p) idx0 idx1).isSome →
              ∀ g ∈ claimOlds (.ofPriority p) idx0 idx1, Latest s.disk (s.base.pool.seg g) ∧
                (CompactionType.ofPriority p ≠ .merge →
                  ∀ f ∈ s.disk, f.info = (s.base.pool.seg g).info → RowLeft f f.bitmap)
        | _ => True
  | .work t =>
      match s.base.pc t, s.work t with
      | .build _, .flushed new => s.disk.latestVersion new.startSid new.endSid = new.version
      | _, _ => True
  | .pull f => ∀ task g, Unread s task g → f.info.range = (s.base.pool.seg g).info.range →
      f.version ≤ (s.base.pool.seg g).version
  | .writeBitmap i bitmap _ => ∀ task g, Unread s task g → task.operationType ≠ .merge →
      i = (s.base.pool.seg g).info → ∀ f ∈ s.disk, f.info = i → RowLeft f bitmap
  | .check g _ => (s.base.pool.seg g).refCount = 0 → ∀ t, (s.base.pc t).reserved ≠ some g
  | _ => True

/-- Indexes of the types compactions work on keep their vectors, in order, and their dimension. -/
structure Keeps (vectors : I → List V) : Prop where
  lawful : cfg.knowhere.Lawful vectors
  hasRawData : ∀ x, cfg.knowhere.hasRawData x = true
  dim_build : ∀ x ids vs, ids ≠ [] → cfg.knowhere.getVectorByIds x ids = some vs →
    cfg.dim (cfg.knowhere.build vs) = cfg.dim x
  dim_add : ∀ x vs merged, cfg.knowhere.add x vs = some merged → cfg.dim merged = cfg.dim x
  /-- `IS_DISK_BASED` is 0. -/
  targetType : cfg.targetType ≠ .diskann

end Building

end VectorLsm
