import VectorLsm.InMemory.Machine
import VectorLsm.Pool.Displacement
import VectorLsm.Standby.Barrier

/-! # Segments on their way to a standby

The redo of a record that announces a segment enqueues it. A fetcher pulls what is queued, in
whatever order, and has it adopted; until the index is loaded the files are all there is, and the
load reads those the scan returns. What is adopted while a load is on its way is not in the pool
that it publishes. Adoptions are taken one at a time.
-/

namespace VectorLsm.Arrival

open Transition Replay

structure Config where
  pool : PoolConfig
  /-- `load_all_segments_from_disk_mmap` in the place of `load_all_segments_from_disk`. -/
  useMmap : Bool
  validRows : SegmentFileInfo → ℕ
  indexType : SegmentFileInfo → IndexType
  deleteCount : SegmentFileInfo → ℕ

/-- What the files of a segment say. -/
@[simps] def Config.metadata (cfg : Config) (i : SegmentFileInfo) : SegmentMetadata where
  startSid := i.startSid
  endSid := i.endSid
  validRows := cfg.validRows i
  indexType := cfg.indexType i
  version := i.version
  deleteCount := cfg.deleteCount i

structure State where
  /-- The primary, the log, and the memtables and files of the standby. -/
  base : Replay.State
  /-- The slot is `LOADING_INDEX`, and the scan is done. -/
  loading : Bool
  /-- The standby's pool, once it is loaded. -/
  segments : FlushedSegmentPool
  /-- The entries of the fetch queue that are not done, and those given up. -/
  pending : List SegmentFileInfo
  failed : List SegmentFileInfo

/-- The memtables that a segment is to replace, in ascending order. -/
def memtableCover (m : Memtables) (i : SegmentFileInfo) : List SegmentId :=
  (m.tables.filter fun sid => i.startSid ≤ sid ∧ sid ≤ i.endSid).mergeSort fun a b => a ≤ b

/-- The arguments of the adoption. -/
@[simps] def adoption (m : Memtables) (i : SegmentFileInfo) : Adoption where
  startSid := i.startSid
  endSid := i.endSid
  version := i.version
  memtableCover := memtableCover m i

namespace State

variable (cfg : Config) (s : State)

/-- `dpv_queue_enqueue`; an entry that is there is left as it is, also one given up. -/
def enqueue (i : SegmentFileInfo) : State :=
  if i ∈ s.pending ∨ i ∈ s.failed then s else { s with pending := i :: s.pending }

/-- What the redo of a record enqueues; nothing if the index could not be recovered. -/
def note : Option Record → State
  | some (.segment i) => if s.base.writable then s.enqueue i else s
  | _ => s

/-- The entry is marked. -/
def mark (i : SegmentFileInfo) : State := { s with pending := s.pending.filter (· ≠ i) }

/-- `fetcher_release_covered_memtables`. -/
def release (i : SegmentFileInfo) : State :=
  { s with base := { s.base with mts := s.base.mts.releaseCovered i } }

/-- `dpv_pool_adopt` with what the fetcher and the files give it. -/
def outcome (i : SegmentFileInfo) : DpvAdoptionOutcome × FlushedSegmentPool :=
  s.segments.adopt cfg.pool (adoption s.base.mts i) (some (cfg.metadata i))

/-- What becomes of a pulled segment: it is adopted, or too late, or durable while there is no
pool. -/
def adopt (i : SegmentFileInfo) : State :=
  if s.base.queryable then
    if (s.outcome cfg i).1 = .adopted then { s.release i with segments := (s.outcome cfg i).2 }
    else { s with segments := (s.outcome cfg i).2 }
  else if s.base.writable then s.release i
  else s

/-- `load_all_segments_from_disk`. -/
def load : FlushedSegmentPool :=
  .loadAll cfg.pool cfg.useMmap (s.base.files.map cfg.metadata)

/-- The pool is loaded, published or not. -/
def filled : Bool := s.base.queryable || s.loading

end State

inductive Action where
  /-- A step of the primary, or a recovery. -/
  | other (a : Replay.Action)
  | redo (free : Bool)
  | pull (i : SegmentFileInfo)
  | fail (i : SegmentFileInfo)
  | adopt (i : SegmentFileInfo)
  /-- `ensure_index_loaded` up to the end of the load, and what is left of it. -/
  | load
  | publish
  /-- The standby restarts; the redo resumes after `n` records. -/
  | restart (n : ℕ)
  deriving DecidableEq, Repr

/-- The steps of the primary, and the recovery. -/
def Other : Replay.Action → Bool
  | .redo _ | .fetch _ | .adopt _ | .publish | .restart _ => false
  | _ => true

def step (cfg : Config) (s : State) : Action → Option State
  | .other a =>
      if Other a then (Replay.step s.base a).map fun b => { s with base := b } else none
  | .redo free =>
      (s.base.redo free).map fun b => { s.note s.base.wal[s.base.replayed]? with base := b }
  | .pull i =>
      if i ∈ s.pending then
        some { s with base := { s.base with fetched := s.base.fetched ++ [i] } }
      else none
  | .fail i => if i ∈ s.pending then some { s.mark i with failed := i :: s.failed } else none
  | .adopt i => if i ∈ s.pending ∧ i ∈ s.base.fetched then some ((s.adopt cfg i).mark i) else none
  | .load =>
      if s.base.writable ∧ s.filled = false ∧ s.base.OnDisk startSegmentId then
        some { s with loading := true, segments := s.load cfg }
      else none
  | .publish =>
      if s.loading then s.base.publish.map fun b => { s with base := b, loading := false } else none
  | .restart n =>
      (Replay.step s.base (.restart n)).map fun b =>
        { s with base := b, loading := false, segments := .initial }

def Init (s : State) : Prop := s = ⟨Replay.initial, false, .initial, [], []⟩

/-- The segments of a pool in the order of its list. -/
def view (pool : FlushedSegmentPool) : List SegmentFileInfo :=
  pool.members.map fun g => (pool.seg g).info

/-- The id is in the range of a member. -/
def Held (pool : FlushedSegmentPool) (sid : SegmentId) : Prop :=
  ∃ i ∈ view pool, i.startSid ≤ sid ∧ sid ≤ i.endSid

instance (pool : FlushedSegmentPool) (sid : SegmentId) : Decidable (Held pool sid) :=
  inferInstanceAs (Decidable (∃ i ∈ view pool, _))

/-- No memtable is dropped that no segment of the pool stands for, and the index of an announced
segment could be recovered. -/
def Fits (s : State) (free : Bool) : Option Record → Prop
  | some (.registerMemtable sid) => s.filled = true → sid ∉ s.base.mts.tables →
      free = true ∨ Held s.segments sid
  | some (.segment _) => s.base.writable = true
  | _ => True

instance (s : State) (free : Bool) : DecidablePred (Fits s free) := by
  intro o
  cases o with
  | none => exact .isTrue trivial
  | some r =>
      cases r with
      | registerMemtable sid => exact inferInstanceAs (Decidable (_ → _))
      | segment i => exact inferInstanceAs (Decidable (_ = true))
      | _ => exact .isTrue trivial

/-- Further, an adoption finds a free slot, and is not made while a load is on its way. -/
def Roomy (s : State) : Action → Prop
  | .other a => Keeping s.base a
  | .redo free => Keeping s.base (.redo free) ∧ Fits s free s.base.wal[s.base.replayed]?
  | .pull i => Keeping s.base (.fetch i)
  | .adopt _ => s.loading = false ∧ (s.base.queryable = true → s.segments.reserve ≠ none)
  | _ => True

instance (s : State) : DecidablePred (Roomy s) := by
  intro a
  cases a with
  | other a => exact inferInstanceAs (Decidable (Keeping s.base a))
  | redo free => exact inferInstanceAs (Decidable (_ ∧ _))
  | pull i => exact inferInstanceAs (Decidable (Keeping s.base (.fetch i)))
  | adopt i => exact inferInstanceAs (Decidable (_ ∧ (_ → ¬ _ = none)))
  | _ => exact .isTrue trivial

end VectorLsm.Arrival
