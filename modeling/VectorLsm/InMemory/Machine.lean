import VectorLsm.InMemory.Union
import VectorLsm.Pool.Machine
import VectorLsm.Vacuum.OnDisk

/-! # The arrays of the pool and the files they come from

The writers of a pool with the files they read and the arrays they hand over: index loads and
their upgrades, compactions, adoptions, pulls of files from the primary and the worker's
`SEGMENT_UPDATE_VACUUM`. `per_seg_mutex`, which serialises the work on bitmaps, is left out:
every interleaving it allows is one of this system.
-/

namespace VectorLsm

instance Tiles.decidable : ∀ lo os hi, Decidable (Tiles lo os hi)
  | lo, [], hi => inferInstanceAs (Decidable (lo = hi))
  | lo, o :: os, hi =>
      have := Tiles.decidable o.endOffset os hi
      inferInstanceAs (Decidable (o.startOffset = lo ∧ lo ≤ o.endOffset ∧ _))

/-- `GET_BITMAP_SIZE`. -/
def bitmapSize (vecCount : ℕ) : ℕ := (vecCount + 7) / 8

/-- The fields of a slot that stay as they are until it is filled again. -/
@[simps] def FlushedSegment.info (seg : FlushedSegment) : SegmentFileInfo where
  startSid := seg.segmentIdStart
  endSid := seg.segmentIdEnd
  version := seg.version

namespace SegmentFile

variable (f : SegmentFile)

/-- What `load_and_set_segment` reads of the metadata and the bitmap header. -/
def metadata (type : IndexType) : SegmentMetadata where
  startSid := f.startSid
  endSid := f.endSid
  validRows := f.mapping.length
  indexType := type
  version := f.version
  deleteCount := f.deleteCount

/-- The rows masked in the bitmap. -/
def masked : List MappedRow := markedRows (fun i _ => f.bitmap i) 0 f.mapping

end SegmentFile

namespace InMemory

open Pool

structure Config where
  pool : PoolConfig
  /-- The index type in the metadata of a file version. -/
  indexType : SegmentFileInfo → IndexType

def Config.metadata (cfg : Config) (f : SegmentFile) : SegmentMetadata :=
  f.metadata (cfg.indexType f.info)

/-- The arrays `load_and_set_segment` allocates. -/
def Arrays.ofFile (f : SegmentFile) : Arrays where
  map := f.mapping
  bitmap := f.bitmap
  offsets := some f.offsets
  index := f.info
  acked := fun _ => false

/-- What a thread holds between two steps of its task. -/
inductive Work where
  | none
  /-- The payload of an adoption. -/
  | groups (gs : List DpvVacuumGroup)
  /-- The index an upgrade has loaded. -/
  | index (i : SegmentFileInfo)
  /-- The files a compaction has read. -/
  | files (fs : List SegmentFile)
  /-- The arrays of the new segment, filled from the bitmaps read again. -/
  | built (new : SegmentFile)
  /-- `flush_segment_to_disk` has written them. -/
  | flushed (new : SegmentFile)
  /-- With the version `find_latest_segment_version` answers after the flush. -/
  | published (new : SegmentFile)

/-- Where a worker stands in `SEGMENT_UPDATE_VACUUM`. -/
inductive UpdatePc where
  | idle
  /-- Step 1 is done: the slot is referenced. -/
  | referenced (startSid endSid : SegmentId) (expected slot : ℕ)
  /-- The version is the expected one and the slot is still on the list. -/
  | checked (startSid endSid : SegmentId) (slot : ℕ)
  /-- The bits are in the bitmap in memory. -/
  | applied (slot : ℕ) (bits : ℕ → Bool)
  | retry (slot : ℕ)

structure State where
  base : Pool.State
  arrays : ℕ → Option Arrays
  disk : Disk
  work : ℕ → Work
  update : ℕ → UpdatePc
  /-- The references of searches, by slot. -/
  searches : ℕ → ℕ
  /-- History: the rows a deletion has masked, here or on the primary. -/
  deleted : List MappedRow
  /-- History: the sizes of the bitmaps the worker has read, and of those it read them into. -/
  combined : List (ℕ × ℕ)

namespace State

variable (s : State)

/-- A slot that is not in use points to nothing: `cleanup_flushed_segment` and
`discard_reserved_segment` free its arrays. -/
@[simps] def setBase (b : Pool.State) (arrays : ℕ → Option Arrays) : State :=
  { s with base := b, arrays := fun g => if (b.pool.seg g).inUsed then arrays g else none }

@[simps] def setDisk (d : Disk) : State := { s with disk := d }

@[simps] def setWork (t : ℕ) (w : Work) : State := { s with work := Function.update s.work t w }

@[simps] def setUpdate (t : ℕ) (pc : UpdatePc) : State :=
  { s with update := Function.update s.update t pc }

@[simps] def setSearches (n : ℕ → ℕ) : State := { s with searches := n }

@[simps] def addDeleted (rows : List MappedRow) : State := { s with deleted := rows ++ s.deleted }

@[simps] def addCombined (p : ℕ × ℕ) : State := { s with combined := p :: s.combined }

/-- The `delete_count` of a slot. -/
def setDeleteCount (slot n : ℕ) : State :=
  let seg := { s.base.pool.seg slot with deleteCount := n }
  { s with base := s.base.setPool (s.base.pool.setSeg slot seg) }

/-- The arrays of a slot that has been filled. -/
def fill (slot : ℕ) (a : Arrays) : ℕ → Option Arrays := Function.update s.arrays slot (some a)

/-- The bitmap of a slot with arrays `a`, and its `delete_count`. -/
def mark (slot : ℕ) (a : Arrays) (m : Marking) : State :=
  { (s.setDeleteCount slot ((s.base.pool.seg slot).deleteCount + m.applied)) with
    arrays := s.fill slot { a with bitmap := m.bitmap } }

/-- The bitmap of an adopted segment with the bits of what it displaces. -/
def union (a : Arrays) (kind : AdoptCase) (snaps : List PredSnap) (gs : List DpvVacuumGroup) :
    Marking :=
  let m := snaps.foldl (fun m p =>
    match s.arrays p.segIdx with
    | none => m
    | some old => a.unionSegment old m) ⟨a.bitmap, 0⟩
  if kind = .exact then m else a.unionGroups gs m

end State

/-- The groups of an adoption. -/
def Work.groups? : Work → List DpvVacuumGroup
  | .groups gs => gs
  | _ => []

/-- The new segment of a compaction from the files read first and those read again. -/
def combine (task : MergeTask) : List SegmentFile → List SegmentFile → Option SegmentFile
  | [f], [f'] => some (f.rebuild f.bitmap f'.bitmap 0)
  | [f, g], [f', g'] =>
      let new := (f.setBitmap f'.bitmap f'.deleteCount).merge
        (g.setBitmap g'.bitmap g'.deleteCount) 0
      some { new with startSid := task.mergedStartSid, endSid := task.mergedEndSid }
  | _, _ => none

/-- The loops over the arrays of a file run to the `vec_count` of the slot; past the end of the
arrays they read what is not theirs. -/
def takeRows (n : ℕ) (f : SegmentFile) : Option SegmentFile :=
  if n ≤ f.mapping.length then some { f with mapping := f.mapping.take n } else none

/-- Phase 1 of a compaction on one of its slots. -/
def readSlot (s : State) (g : ℕ) : Option SegmentFile :=
  (s.disk.loadLatest (s.base.pool.seg g).segmentIdStart (s.base.pool.seg g).segmentIdEnd).bind
    (takeRows (s.base.pool.seg g).vecCount)

/-- A thread between two lock sections: an upgrade loads its index, a compaction goes through its
phases up to the slot of the new segment. -/
def workStep (s : State) (t : ℕ) : Option State :=
  match s.base.pc t, s.work t with
  | .upgrade u, .none =>
      (s.disk.loadLatest u.startSid u.endSid).map fun f => s.setWork t (.index f.info)
  | .build task, .none => (task.olds.mapM (readSlot s)).map fun fs => s.setWork t (.files fs)
  | .build task, .files fs =>
      ((fs.mapM fun f => s.disk.load f.info).bind (combine task fs)).map fun new =>
        s.setWork t (.built new)
  | .build _, .built new =>
      let new := { new with version := s.disk.latestVersion new.startSid new.endSid + 1 }
      some ((s.setDisk (new :: s.disk)).setWork t (.flushed new))
  | .build _, .flushed new =>
      some (s.setWork t
        (.published { new with version := s.disk.latestVersion new.startSid new.endSid }))
  | _, _ => none

/-- The next lock section of thread `t`, or its load of a segment. The load, the read or the
allocation succeeds if `ok`. -/
def runStep (cfg : Config) (s : State) (t : ℕ) (ok : Bool) : Option State :=
  match s.base.pc t, s.work t with
  | .regularLoad slot lo hi, _ =>
      match if ok then s.disk.loadLatest lo hi else none with
      | none => (Pool.runStep cfg.pool s.base t none).map (s.setBase · s.arrays)
      | some f =>
          (Pool.runStep cfg.pool s.base t (some (cfg.metadata f))).map
            (s.setBase · (s.fill slot (.ofFile f)))
  | .adoptLoad a slot, _ =>
      match if ok then s.disk.load ⟨a.startSid, a.endSid, a.version⟩ else none with
      | none => (Pool.runStep cfg.pool s.base t none).map (s.setBase · s.arrays)
      | some f =>
          (Pool.runStep cfg.pool s.base t (some (cfg.metadata f))).map
            (s.setBase · (s.fill slot (.ofFile f)))
  | .adoptInstall slot kind snaps, w =>
      let s := match s.arrays slot with
        | none => s
        | some a => s.mark slot a (s.union a kind snaps w.groups?)
      (Pool.runStep cfg.pool s.base t none).map (s.setBase · s.arrays)
  | .upgrade u, .index i =>
      if ok then
        if upgradable s.base.pool u then
          match s.base.pool.reserve, s.arrays u.segmentIdx with
          | none, _ => (Pool.runStep cfg.pool s.base t none).map (s.setBase · s.arrays)
          -- nothing to copy from
          | some _, none => none
          | some (idx, _), some a =>
              -- `ns->offsets` is not assigned
              let a' : Arrays := ⟨a.map, a.bitmap, (s.arrays idx).bind (·.offsets), i, a.acked⟩
              (Pool.runStep cfg.pool s.base t
                (some (upgradeMetadata (s.base.pool.seg u.segmentIdx)))).map
                (s.setBase · (s.fill idx a'))
        else (Pool.runStep cfg.pool s.base t none).map (s.setBase · s.arrays)
      else none
  | .upgrade _, _ =>
      if ok then none else (Pool.runStep cfg.pool s.base t none).map (s.setBase · s.arrays)
  | .build task, .published new =>
      some (s.setBase (s.base.goto t (.compactReserve task new.startSid new.endSid)) s.arrays)
  | .build _, _ =>
      if ok then none else (Pool.runStep cfg.pool s.base t none).map (s.setBase · s.arrays)
  | .compactInstall task _ _ slot, .published new =>
      -- the range is that of the files
      let b := s.base.goto t (.compactInstall task new.startSid new.endSid slot)
      -- `ns->offsets` is not assigned
      let a : Arrays :=
        ⟨new.mapping, new.bitmap, (s.arrays slot).bind (·.offsets), new.info, fun _ => false⟩
      (Pool.runStep cfg.pool b t (some (cfg.metadata new))).map (s.setBase · (s.fill slot a))
  | .claim _ _ _, _ =>
      (Pool.runStep cfg.pool s.base t none).map fun b => (s.setWork t .none).setBase b s.arrays
  | _, _ => (Pool.runStep cfg.pool s.base t none).map (s.setBase · s.arrays)

/-- The bitmap in memory once the bytes of another one are in it; `junk` is what lies behind that
one. -/
def orBytes (a : Arrays) (f : SegmentFile) (vecCount : ℕ) (junk : ℕ → Bool) : ℕ → Bool := fun i =>
  a.bitmap i || decide (i < 8 * bitmapSize vecCount) &&
    if i < 8 * bitmapSize f.mapping.length then f.bitmap i else junk i

/-- The worker in `SEGMENT_UPDATE_VACUUM` after its read section. -/
def updateStep (cfg : Config) (s : State) (t : ℕ) (junk : ℕ → Bool) : Option State :=
  match s.update t with
  | .idle => none
  | .referenced lo hi expected g =>
      if (s.base.pool.seg g).version = expected ∧ (s.base.pool.seg g).inUsed ∧
          s.base.pool.findSegmentBySids lo hi = some g then
        some (s.setUpdate t (.checked lo hi g))
      else some (s.setUpdate t (.retry g))
  | .checked lo hi g =>
      match s.disk.loadLatest lo hi, s.arrays g with
      | none, _ => some (s.setUpdate t (.applied g fun _ => false))
      | some _, none => none
      | some f, some a =>
          let vecCount := (s.base.pool.seg g).vecCount
          let a' := { a with bitmap := orBytes a f vecCount junk }
          let s' := s.setDeleteCount g f.deleteCount
          some (({ s' with arrays := s.fill g a' }.addCombined
            (bitmapSize f.mapping.length, bitmapSize vecCount)).setUpdate t (.applied g f.bitmap))
  | .applied g bits =>
      let arrays := match s.arrays g with
        | none => s.arrays
        | some a => s.fill g { a with acked := fun i => a.acked i || bits i }
      (Pool.step cfg.pool s.base (.drop g)).map fun b => (s.setUpdate t .idle).setBase b arrays
  | .retry g =>
      (Pool.step cfg.pool s.base (.drop g)).map fun b => (s.setUpdate t .idle).setBase b s.arrays

inductive Action where
  /-- A `SEGMENT_UPDATE_REGULAR` task. -/
  | regular (t : ℕ) (startSid endSid : SegmentId)
  /-- A `SEGMENT_UPDATE_ADOPT` task. -/
  | adopt (t : ℕ) (a : Adoption) (groups : List DpvVacuumGroup)
  /-- The next upgrade task of the queue. -/
  | takeUpgrade (t : ℕ)
  /-- A merge thread wakes up. -/
  | scan (t : ℕ)
  | run (t : ℕ) (ok : Bool)
  | work (t : ℕ)
  /-- `pull_all_files`: the metadata file, the last one, gets its name. -/
  | pull (f : SegmentFile)
  /-- A deletion masks rows in a new subversion of a bitmap file. -/
  | writeBitmap (i : SegmentFileInfo) (bitmap : ℕ → Bool) (deleteCount : ℕ)
  /-- A `SEGMENT_UPDATE_VACUUM` task, up to its reference. -/
  | update (t : ℕ) (startSid endSid : SegmentId) (expected : ℕ)
  | updateNext (t : ℕ) (junk : ℕ → Bool)
  /-- The read section of `vector_search`. -/
  | search
  /-- A search drops a reference. -/
  | drop (g : ℕ)
  | check (g : ℕ) (lockFree : Bool)

/-- A file as `flush_segment_to_disk` writes it: a table entry for each slice of the mapping. -/
def Written (f : SegmentFile) : Prop := Tiles 0 f.offsets f.mapping.length

instance (f : SegmentFile) : Decidable (Written f) := inferInstanceAs (Decidable (Tiles _ _ _))

/-- The slots a search references. -/
def searched (pool : FlushedSegmentPool) : List ℕ :=
  pool.membersToTail.filter fun g => (pool.seg g).inUsed

def step (cfg : Config) (s : State) : Action → Option State
  | .regular t lo hi =>
      (Pool.step cfg.pool s.base (.regular t lo hi)).map (s.setBase · s.arrays)
  | .adopt t a gs =>
      (Pool.step cfg.pool s.base (.adopt t a)).map fun b =>
        ((s.addDeleted (gs.flatMap (·.rows))).setWork t (.groups gs)).setBase b s.arrays
  | .takeUpgrade t =>
      (Pool.step cfg.pool s.base (.takeUpgrade t)).map fun b =>
        (s.setWork t .none).setBase b s.arrays
  | .scan t => (Pool.step cfg.pool s.base (.scan t)).map (s.setBase · s.arrays)
  | .run t ok => runStep cfg s t ok
  | .work t => workStep s t
  | .pull f =>
      if f.info ∉ s.disk.map (·.info) ∧ Written f then
        some ((s.addDeleted f.masked).setDisk (f :: s.disk))
      else none
  | .writeBitmap i bitmap n =>
      (s.disk.load i).map fun f =>
        (s.addDeleted (f.setBitmap bitmap n).masked).setDisk (s.disk.writeBitmap i bitmap n)
  | .update t lo hi expected =>
      match s.update t with
      | .idle =>
          match s.base.pool.findSegmentBySids lo hi with
          | none => some s
          | some g =>
              (Pool.step cfg.pool s.base (.pin lo hi)).map fun b =>
                (s.setUpdate t (.referenced lo hi expected g)).setBase b s.arrays
      | _ => none
  | .updateNext t junk => updateStep cfg s t junk
  | .search =>
      (Pool.step cfg.pool s.base .search).map fun b =>
        (s.setSearches fun g => s.searches g + (searched s.base.pool).count g).setBase b s.arrays
  | .drop g =>
      if 0 < s.searches g then
        (Pool.step cfg.pool s.base (.drop g)).map fun b =>
          (s.setSearches (Function.update s.searches g (s.searches g - 1))).setBase b s.arrays
      else none
  | .check g lockFree =>
      (Pool.step cfg.pool s.base (.check g lockFree)).map (s.setBase · s.arrays)

/-- The pool after an index load, from files of the directory. The deletions known are those in
the bitmaps. -/
def Start (cfg : Config) (s : State) : Prop :=
  ∃ (files : List SegmentFile) (useMmap : Bool),
    (∀ f ∈ files, f ∈ s.disk) ∧
    files.Pairwise (fun a b => a.endSid < b.startSid) ∧
    (∀ f ∈ files, f.startSid ≤ f.endSid) ∧
    s.base.pool = FlushedSegmentPool.loadAll cfg.pool useMmap (files.map cfg.metadata) ∧
    s.base.pc = Function.update (fun _ => .idle) 0 (if useMmap then .submitUpgrades else .idle) ∧
    s.base.upgrades = [] ∧ s.base.held = (fun _ => 0) ∧ s.base.dropping = (fun _ => 0) ∧
    s.base.retired = (fun _ => false) ∧
    (s.disk.map (·.info)).Nodup ∧ (∀ f ∈ s.disk, Written f) ∧
    (∀ g, s.arrays g = if (s.base.pool.seg g).inUsed then
      (s.disk.load (s.base.pool.seg g).info).map .ofFile else none) ∧
    s.work = (fun _ => .none) ∧ s.update = (fun _ => .idle) ∧ s.searches = (fun _ => 0) ∧
    (∀ f ∈ s.disk, Marks s.deleted f.mapping f.bitmap) ∧ s.combined = []

end InMemory

end VectorLsm
