import VectorLsm.InMemory.Machine

/-! # Everything that sets a deletion bit

A primary and a standby, each with its files, its pool and its memtables. Bits are set by VACUUM,
by the redo of its records and by recovery, and carried over by flushes, compactions, upgrades and
adoptions; each of them keeps the delete count in its own way. What reads a bitmap file and what
writes the next one are two steps.
-/

namespace VectorLsm

namespace SegmentFile

variable (f : SegmentFile)

/-- The rows of the slice `o` at which `p` holds are masked and counted. -/
def markSlice (p : ℕ → Bool) (o : SegmentOffsetRange) (s : Marking) : Marking :=
  (List.range' o.startOffset (o.endOffset - o.startOffset)).foldl
    (fun s i => if p i then s.set i else s) s

/-- The first step of `recover_lsm_index_internal` on a file: the rows of the ids above the
largest one of a memtable. -/
def markAbove (maxMemtableSid : SegmentId) : Marking :=
  f.offsets.foldl
    (fun s o =>
      if maxMemtableSid < o.sid then markSlice (fun i => i < f.mapping.length) o s else s)
    ⟨f.bitmap, f.deleteCount⟩

/-- The second step on a file: the rows of the ids in `sids` that the status pages do not have. -/
def markMissing (sids : List SegmentId) (status : SegmentId → List Tid) : Marking :=
  f.offsets.foldl
    (fun s o =>
      if o.sid ∈ sids then
        markSlice (fun i => f.mapping[i]?.any fun row => row.tid ∉ status o.sid) o s
      else s)
    ⟨f.bitmap, f.deleteCount⟩

/-- `persist_index_segment`, which the index build calls without a bitmap. -/
def persist (tids : List Tid) : SegmentFile :=
  { SegmentFile.flush startSegmentId tids (fun _ => false) 1 with deleteCount := 0 }

end SegmentFile

namespace DeleteCounts

open InMemory

/-- What reads the bitmap file of a segment and writes its next subversion. -/
inductive BitmapWriter where
  /-- Step 3 of `bulk_delete_lsm_index`. -/
  | vacuum (callback : Tid → Bool)
  /-- `apply_to_disk_file_for_sid`. -/
  | redo (rec : VacuumTombstones)
  /-- The two steps of `recover_lsm_index_internal`. -/
  | above (maxMemtableSid : SegmentId)
  | missing (sids : List SegmentId) (status : SegmentId → List Tid)

namespace BitmapWriter

/-- The file with the subversion to be written, if there is one. -/
def run : BitmapWriter → SegmentFile → Option SegmentFile
  | .vacuum callback, f =>
      (f.vacuum callback).bind fun v =>
        if v.changed then some (f.setBitmap v.bitmap v.deleteCount) else none
  | .redo rec, f => (f.offsetOf rec.sid).map fun _ => rec.applyToSegment f
  | .above maxMemtableSid, f =>
      if maxMemtableSid < f.endSid then
        some (f.setBitmap (f.markAbove maxMemtableSid).bitmap (f.markAbove maxMemtableSid).applied)
      else none
  | .missing sids status, f =>
      if (f.markMissing sids status).applied = f.deleteCount then none
      else some
        (f.setBitmap (f.markMissing sids status).bitmap (f.markMissing sids status).applied)

/-- Recovery runs before the index is loaded, and VACUUM after it. -/
def runsWith (loaded : Bool) : BitmapWriter → Bool
  | .vacuum _ => loaded
  | .redo _ => true
  | .above _ | .missing _ _ => !loaded

end BitmapWriter

/-- A subversion that is to be written. -/
structure PendingBitmap where
  info : SegmentFileInfo
  bitmap : ℕ → Bool
  deleteCount : ℕ

/-- The file of `write_bitmap_for_memtable`. -/
structure MemtableBitmap where
  rows : ℕ
  bitmap : ℕ → Bool
  deleteCount : ℕ

/-- The vectors play no part. -/
abbrev Memtable := ConcurrentMemTable Unit

namespace Memtable

def blank (sid : SegmentId) (capacity : ℕ) : Memtable where
  rel := 0
  memtableId := sid
  capacity := capacity
  currentSize := 0
  readyCnt := 0
  isSealed := false
  flushClaimed := false
  maxReadyId := none
  rows := fun _ => ⟨0, ()⟩
  bitmap := fun _ => false
  ready := fun _ => false
  writer := fun _ => none

variable (mt : Memtable)

/-- A slot is handed out and its row stored. -/
def reserve (tid : Tid) : Option Memtable :=
  if mt.isSealed ∨ mt.capacity ≤ mt.currentSize then none
  else some (mt.bump.store mt.currentSize ⟨tid, ()⟩ 0)

/-- The rows a pass of `bulk_delete_lsm_index` finds dead. -/
def isDead (checkReady : Bool) (callback : Tid → Bool) (i : ℕ) : Bool :=
  (mt.mappedRows[i]?).any fun row => mt.dead checkReady callback i row

/-- Their bits are set, those already set among them. -/
def vacuum (checkReady : Bool) (callback : Tid → Bool) : Memtable :=
  { mt with bitmap := fun i => mt.bitmap i || mt.isDead checkReady callback i }

/-- `bitmap_changed` of the pass. -/
def found (checkReady : Bool) (callback : Tid → Bool) : Bool :=
  (List.range mt.validSize).any (mt.isDead checkReady callback)

/-- What `prepare_for_flushing` makes of a memtable. -/
def flush (version : ℕ) : SegmentFile :=
  .flush mt.memtableId (mt.mappedRows.map (·.tid)) mt.bitmap version

end Memtable

structure Node where
  /-- The pool with its arrays, and the directory. -/
  base : InMemory.State
  /-- The index is loaded. -/
  loaded : Bool
  memtables : SegmentId → Option Memtable
  memtableBitmaps : SegmentId → Option MemtableBitmap
  pending : ℕ → Option PendingBitmap
  /-- The files of the directory as they were created, which are those a standby pulls. -/
  created : List SegmentFile

namespace Node

variable (cfg : InMemory.Config) (s : Node)

@[simps] def setBase (b : InMemory.State) : Node := { s with base := b }

@[simps] def setLoaded (b : Bool) : Node := { s with loaded := b }

@[simps] def setMemtable (sid : SegmentId) (mt : Option Memtable) : Node :=
  { s with memtables := Function.update s.memtables sid mt }

@[simps] def setMemtableBitmap (sid : SegmentId) (b : MemtableBitmap) : Node :=
  { s with memtableBitmaps := Function.update s.memtableBitmaps sid (some b) }

@[simps] def setPending (t : ℕ) (p : Option PendingBitmap) : Node :=
  { s with pending := Function.update s.pending t p }

@[simps] def setCreated (fs : List SegmentFile) : Node := { s with created := fs }

/-- A new file gets its name in the directory. -/
def addFile (f : SegmentFile) : Option Node :=
  (InMemory.step cfg s.base (.pull f)).map fun b => (s.setBase b).setCreated (f :: s.created)

/-- What is left of a node that stops: the files. -/
def stopped (b : InMemory.State) : InMemory.State where
  base := ⟨.initial, fun _ => .idle, [], fun _ => 0, fun _ => 0, fun _ => false⟩
  arrays := fun _ => none
  disk := b.disk
  work := fun _ => .none
  update := fun _ => .idle
  searches := fun _ => 0
  deleted := b.deleted
  combined := []

/-- An index load: the files the scan returns. -/
def scanned (d : Disk) : List SegmentFile := d.scan.filterMap d.load

/-- `load_all_segments_from_disk`, or its variant with mapped indexes. -/
def loadPool (useMmap : Bool) (b : InMemory.State) : InMemory.State :=
  let pool : FlushedSegmentPool :=
    .loadAll cfg.pool useMmap ((scanned b.disk).map cfg.metadata)
  { stopped b with
    base := ⟨pool, Function.update (fun _ => .idle) 0 (if useMmap then .submitUpgrades else .idle),
      [], fun _ => 0, fun _ => 0, fun _ => false⟩
    arrays := fun g => if (pool.seg g).inUsed then (b.disk.load (pool.seg g).info).map .ofFile
      else none }

/-- A pass of `bulk_delete_lsm_index` over a memtable `mt`: the bits are counted anew, and the
bitmap goes to the segment of the memtable, if that is on disk, or to a file of its own. -/
def vacuumMemtable (t : ℕ) (mt : Memtable) (checkReady : Bool) (callback : Tid → Bool) : Node :=
  let mt' := mt.vacuum checkReady callback
  let n := countBits mt'.bitmap mt.validSize
  let s' := s.setMemtable mt.memtableId (some mt')
  if mt.found checkReady callback then
    match s.base.disk.loadLatest mt.memtableId mt.memtableId with
    | some f => s'.setPending t (some ⟨f.info, mt'.bitmap, n⟩)
    | none => s'.setMemtableBitmap mt.memtableId ⟨mt.validSize, mt'.bitmap, n⟩
  else s'

end Node

inductive NodeAction where
  /-- The index build, on an empty directory. -/
  | build (tids : List Tid)
  /-- The process stops; memtables and what was about to be written are gone. -/
  | stop
  | load (useMmap : Bool)
  /-- What the pool does. -/
  | pool (a : InMemory.Action)
  | register (sid : SegmentId) (capacity : ℕ)
  | reserve (sid : SegmentId) (tid : Tid)
  | publish (sid : SegmentId) (i : ℕ)
  | sealMemtable (sid : SegmentId)
  | flush (sid : SegmentId)
  | release (sid : SegmentId)
  | vacuumMemtable (t : ℕ) (sid : SegmentId) (checkReady : Bool) (callback : Tid → Bool)
  /-- `apply_to_memtable_for_sid`. -/
  | redoMemtable (sid : SegmentId) (rec : VacuumTombstones)
  /-- The bitmap of a segment file is read. -/
  | read (t : ℕ) (i : SegmentFileInfo) (w : BitmapWriter)
  /-- `write_bitmap_file_with_subversion`. -/
  | write (t : ℕ)

/-- The pool is not handed files and bitmaps but by the actions of the node. -/
def ofPool : InMemory.Action → Bool
  | .pull _ | .writeBitmap _ _ _ => false
  | _ => true

def nodeStep (cfg : InMemory.Config) (s : Node) : NodeAction → Option Node
  | .build tids => if s.base.disk = [] then s.addFile cfg (.persist tids) else none
  | .stop =>
      some { s with
        base := Node.stopped s.base
        loaded := false
        memtables := fun _ => none
        pending := fun _ => none }
  | .load useMmap =>
      if s.loaded then none
      else some ((s.setBase (Node.loadPool cfg useMmap s.base)).setLoaded true)
  | .pool a =>
      if s.loaded && ofPool a then
        (InMemory.step cfg s.base a).map fun b =>
          (s.setBase b).setCreated
            (b.disk.filter (fun f => f.info ∉ s.base.disk.map (·.info)) ++ s.created)
      else none
  | .register sid capacity =>
      match s.memtables sid with
      | none => some (s.setMemtable sid (some (.blank sid capacity)))
      | some _ => none
  | .reserve sid tid =>
      (s.memtables sid).bind fun mt => (mt.reserve tid).map fun mt => s.setMemtable sid (some mt)
  | .publish sid i =>
      (s.memtables sid).bind fun mt =>
        if i < mt.validSize ∧ mt.ready i = false then
          some (s.setMemtable sid (some (mt.publishSlotRelease i)))
        else none
  | .sealMemtable sid => (s.memtables sid).map fun mt => s.setMemtable sid (some mt.setSealed)
  | .flush sid =>
      (s.memtables sid).bind fun mt =>
        if mt.isSealed ∧ mt.flushClaimed = false ∧ mt.readyCnt = mt.validSize then
          (s.setMemtable sid (some mt.setFlushClaimed)).addFile cfg
            (Memtable.flush mt
              (s.base.disk.latestVersion mt.memtableId mt.memtableId + 1))
        else none
  | .release sid => some (s.setMemtable sid none)
  | .vacuumMemtable t sid checkReady callback =>
      if s.loaded then (s.memtables sid).map fun mt => s.vacuumMemtable t mt checkReady callback
      else none
  | .redoMemtable sid rec =>
      (s.memtables sid).map fun mt => s.setMemtable sid (some (rec.applyToMemtable mt))
  | .read t i w =>
      if w.runsWith s.loaded then
        (s.base.disk.load i).bind fun f => (w.run f).map fun f' =>
          s.setPending t (some ⟨i, f'.bitmap, f'.deleteCount⟩)
      else none
  | .write t =>
      (s.pending t).bind fun p =>
        (InMemory.step cfg s.base (.writeBitmap p.info p.bitmap p.deleteCount)).map fun b =>
          (s.setBase b).setPending t none

structure State where
  primary : Node
  standby : Node

inductive Action where
  | primary (a : NodeAction)
  | standby (a : NodeAction)
  /-- The standby pulls the files of a segment version. -/
  | ship (i : SegmentFileInfo)

def step (cfg : InMemory.Config) (s : State) : Action → Option State
  | .primary a => (nodeStep cfg s.primary a).map fun n => { s with primary := n }
  | .standby a => (nodeStep cfg s.standby a).map fun n => { s with standby := n }
  | .ship i =>
      (s.primary.created.find? (·.info = i)).bind fun f =>
        (s.standby.addFile cfg f).map fun n => { s with standby := n }

/-- A node without files. -/
def Node.empty : Node where
  base := Node.stopped ⟨⟨.initial, fun _ => .idle, [], fun _ => 0, fun _ => 0, fun _ => false⟩,
    fun _ => none, [], fun _ => .none, fun _ => .idle, fun _ => 0, [], []⟩
  loaded := false
  memtables := fun _ => none
  memtableBitmaps := fun _ => none
  pending := fun _ => none
  created := []

/-- Both nodes begin with an empty directory. -/
def Start (s : State) : Prop := s = ⟨.empty, .empty⟩

end DeleteCounts

end VectorLsm
