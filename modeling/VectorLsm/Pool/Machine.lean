import VectorLsm.Lib.Transition
import VectorLsm.Pool.Adoption
import VectorLsm.Pool.Compaction

/-! # The writers of a pool

Maintenance and merge threads over one pool, with the searches that hold references. Each
`seg_lock` section is a step, and so is each half of a reference drop made outside the lock.
Bitmap work and `per_seg_mutex`, which serialises it, are left out: every interleaving they
allow is one of this system.
-/

namespace VectorLsm.Pool

open FlushedSegmentPool

/-- `InternalUpgradeTaskData`. -/
structure UpgradeTask where
  segmentIdx : ℕ
  startSid : SegmentId
  endSid : SegmentId
  deriving DecidableEq, Repr

/-- Where a thread stands between two lock sections. -/
inductive Pc where
  | idle
  /-- `SEGMENT_UPDATE_REGULAR`, the range is not in the pool. -/
  | regularReserve (startSid endSid : SegmentId)
  | regularLoad (slot : ℕ) (startSid endSid : SegmentId)
  | regularRegister (slot : ℕ)
  | adoptReserve (a : Adoption)
  | adoptLoad (a : Adoption) (slot : ℕ)
  | adoptDecide (a : Adoption) (slot retry : ℕ)
  | adoptValidate (a : Adoption) (slot retry : ℕ) (kind : AdoptCase) (snaps : List PredSnap)
  | adoptInstall (slot : ℕ) (kind : AdoptCase) (snaps : List PredSnap)
  | adoptDiscard (slot : ℕ)
  /-- The index load task after its first phase. -/
  | submitUpgrades
  | upgrade (u : UpgradeTask)
  /-- `scan_and_claim_merge_task_pool` at a priority. -/
  | gate (priority : ℕ)
  | traverse (priority : ℕ) (firstPass : Bool)
  | claim (priority idx0 : ℕ) (idx1 : Option ℕ)
  | build (task : MergeTask)
  | compactReserve (task : MergeTask) (startSid endSid : SegmentId)
  | compactInstall (task : MergeTask) (startSid endSid : SegmentId) (slot : ℕ)
  | abort (task : MergeTask)
  deriving DecidableEq, Repr

/-- The slot a thread has reserved and not yet linked. -/
def Pc.reserved : Pc → Option ℕ
  | .regularLoad slot _ _ | .regularRegister slot | .adoptLoad _ slot | .adoptDecide _ slot _
  | .adoptValidate _ slot _ _ _ | .adoptInstall slot _ _ | .adoptDiscard slot
  | .compactInstall _ _ _ slot => some slot
  | _ => none

structure State where
  pool : FlushedSegmentPool
  pc : ℕ → Pc
  /-- The queued upgrade tasks. -/
  upgrades : List UpgradeTask
  /-- References held outside the list, by slot. -/
  held : ℕ → ℕ
  /-- Drops that have subtracted and are about to test for zero. -/
  dropping : ℕ → ℕ
  /-- History: the slot was replaced and not reserved since. -/
  retired : ℕ → Bool

namespace State

variable (s : State)

@[simps] def goto (t : ℕ) (pc : Pc) : State := { s with pc := Function.update s.pc t pc }

@[simps] def setPool (pool : FlushedSegmentPool) : State := { s with pool := pool }

@[simps] def setUpgrades (us : List UpgradeTask) : State := { s with upgrades := us }

@[simps] def setHeld (held : ℕ → ℕ) : State := { s with held := held }

@[simps] def setDropping (dropping : ℕ → ℕ) : State := { s with dropping := dropping }

@[simps] def setRetired (retired : ℕ → Bool) : State := { s with retired := retired }

/-- `reserve_flushed_segment` by thread `t`, which then stands at `pc`. -/
def reserve (t : ℕ) (pc : ℕ → Pc) (full : State) : State :=
  match s.pool.reserve with
  | none => full
  | some (idx, pool) =>
      ((s.setPool pool).setRetired (Function.update s.retired idx false)).goto t (pc idx)

/-- `register_flushed_segment` of the slot of thread `t`. -/
def register (cfg : PoolConfig) (t slot : ℕ) : State :=
  (s.setPool (s.pool.register cfg slot)).goto t .idle

/-- `replace_flushed_segments_n` by the slot of thread `t`. -/
def replace (cfg : PoolConfig) (t : ℕ) (olds : List ℕ) (slot : ℕ) : State :=
  ((s.setPool (s.pool.replaceN cfg olds slot)).setRetired
    fun g => if g ∈ olds then true else s.retired g).goto t .idle

end State

/-- The range a compaction builds: a rebuild reads it from the slot, a merge has it from the
claim. -/
def buildRange (pool : FlushedSegmentPool) (task : MergeTask) : SegmentId × SegmentId :=
  match task.operationType with
  | .merge => (task.mergedStartSid, task.mergedEndSid)
  | _ => ((pool.seg task.segmentIdx0).segmentIdStart, (pool.seg task.segmentIdx0).segmentIdEnd)

/-- The segment an upgrade copies into its slot. -/
def upgradeMetadata (seg : FlushedSegment) : SegmentMetadata where
  startSid := seg.segmentIdStart
  endSid := seg.segmentIdEnd
  validRows := seg.vecCount
  indexType := seg.indexType
  version := seg.version
  deleteCount := seg.deleteCount

/-- The tasks of phase two of an index load. -/
def upgradeTasks (pool : FlushedSegmentPool) : List UpgradeTask :=
  (pool.members.filter fun g => (pool.seg g).loadState = .mmapLoaded).map fun g =>
    ⟨g, (pool.seg g).segmentIdStart, (pool.seg g).segmentIdEnd⟩

/-- The upgrade task finds the segment it was submitted for, still mapped. -/
def upgradable (pool : FlushedSegmentPool) (u : UpgradeTask) : Bool :=
  (pool.seg u.segmentIdx).inUsed && (pool.seg u.segmentIdx).segmentIdStart = u.startSid &&
    (pool.seg u.segmentIdx).segmentIdEnd = u.endSid &&
    (pool.seg u.segmentIdx).loadState = .mmapLoaded

/-- `MAX_ADOPT_RETRIES`. -/
abbrev maxAdoptRetries : ℕ := 4

/-- A file read answers for the range it was asked for. -/
def FileOf (startSid endSid : SegmentId) (m : Option SegmentMetadata) : Prop :=
  ∀ x ∈ m, x.startSid = startSid ∧ x.endSid = endSid

instance (startSid endSid : SegmentId) (m : Option SegmentMetadata) :
    Decidable (FileOf startSid endSid m) := by
  unfold FileOf
  cases m with
  | none => exact .isTrue (by simp)
  | some x => exact decidable_of_iff (x.startSid = startSid ∧ x.endSid = endSid) (by simp)

/-- The next section of thread `t`. `m` is what the section reads from disk, or builds; without
it the read, the load or the allocation has failed. -/
def runStep (cfg : PoolConfig) (s : State) (t : ℕ) (m : Option SegmentMetadata) : Option State :=
  match s.pc t with
  | .idle => none
  | .regularReserve lo hi =>
      -- with no free slot the source indexes the array with -1
      if s.pool.reserve.isNone then none
      else some (s.reserve t (fun slot => .regularLoad slot lo hi) s)
  | .regularLoad slot lo hi =>
      if FileOf lo hi m then
        some ((s.setPool (s.pool.setSeg slot ((s.pool.seg slot).load m false))).goto t
          (.regularRegister slot))
      else none
  | .regularRegister slot => some (s.register cfg t slot)
  | .adoptReserve a => some (s.reserve t (fun slot => .adoptLoad a slot) (s.goto t .idle))
  | .adoptLoad a slot =>
      if FileOf a.startSid a.endSid m then
        some ((s.setPool (s.pool.setSeg slot
          { (s.pool.seg slot).load m false with version := a.version })).goto t
          (.adoptDecide a slot 0))
      else none
  | .adoptDecide a slot retry =>
      if maxAdoptRetries ≤ retry then some (s.goto t (.adoptDiscard slot))
      else
        match s.pool.decideCase a with
        | (.stale, _) => some (s.goto t (.adoptDiscard slot))
        | (kind, snaps) => some (s.goto t (.adoptValidate a slot retry kind snaps))
  | .adoptValidate a slot retry kind snaps =>
      if ∀ p ∈ snaps, s.pool.Holds p then some (s.goto t (.adoptInstall slot kind snaps))
      else some (s.goto t (.adoptDecide a slot (retry + 1)))
  | .adoptInstall slot .append _ => some (s.register cfg t slot)
  | .adoptInstall slot _ snaps => some (s.replace cfg t (snaps.map PredSnap.segIdx) slot)
  | .adoptDiscard slot => some ((s.setPool (s.pool.discard slot)).goto t .idle)
  | .submitUpgrades => some ((s.setUpgrades (s.upgrades ++ upgradeTasks s.pool)).goto t .idle)
  | .upgrade u =>
      match m with
      | none => some (s.goto t .idle)
      | some _ =>
          if upgradable s.pool u then
            match s.pool.reserve with
            | none => some (s.goto t .idle)
            | some (idx, pool) =>
                let s' := (s.setPool (pool.setSeg idx ((pool.seg idx).fill
                  (upgradeMetadata (s.pool.seg u.segmentIdx))))).setRetired
                  (Function.update s.retired idx false)
                some (s'.replace cfg t [u.segmentIdx] idx)
          else some (s.goto t .idle)
  | .gate p =>
      if 5 < p then some (s.goto t .idle)
      else if s.pool.priorityGate p then some (s.goto t (.traverse p true))
      else some (s.goto t (.gate (p + 1)))
  | .traverse p firstPass =>
      match s.pool.traverse cfg p firstPass with
      | none => some (s.goto t (.gate (p + 1)))
      | some (idx0, idx1) => some (s.goto t (.claim p idx0 idx1))
  | .claim p idx0 idx1 =>
      match s.pool.claimTask (.ofPriority p) idx0 idx1 with
      | none => some (s.goto t (.traverse p false))
      | some (pool, task) => some ((s.setPool pool).goto t (.build task))
  | .build task =>
      match m with
      | none => some (s.goto t (.abort task))
      | some _ =>
          some (s.goto t (.compactReserve task (buildRange s.pool task).1
            (buildRange s.pool task).2))
  | .compactReserve task lo hi =>
      some (s.reserve t (fun slot => .compactInstall task lo hi slot) (s.goto t (.abort task)))
  | .compactInstall task lo hi slot =>
      match m with
      | none => none
      | some m =>
          -- the slot is filled before the lock is taken, and nobody else reads it
          let s := s.setPool (s.pool.setSeg slot
            ((s.pool.seg slot).fill { m with startSid := lo, endSid := hi }))
          let s := s.replace cfg t task.olds slot
          some (s.setPool (s.pool.addCompactionStats cfg m.validRows m.indexType))
  | .abort task =>
      some ((s.setPool (task.olds.foldl (fun pool g => pool.setCompacting g false) s.pool)).goto t
        .idle)

inductive Action where
  /-- A `SEGMENT_UPDATE_REGULAR` task. -/
  | regular (t : ℕ) (startSid endSid : SegmentId)
  /-- A `SEGMENT_UPDATE_ADOPT` task. -/
  | adopt (t : ℕ) (a : Adoption)
  /-- The next upgrade task of the queue. -/
  | takeUpgrade (t : ℕ)
  /-- A merge thread wakes up. -/
  | scan (t : ℕ)
  | run (t : ℕ) (m : Option SegmentMetadata)
  /-- The read section of `vector_search`. -/
  | search
  /-- The read section of `SEGMENT_UPDATE_VACUUM`. -/
  | pin (startSid endSid : SegmentId)
  /-- The subtraction of `decrement_flushed_segment_ref_count`. -/
  | drop (g : ℕ)
  /-- Its test for zero; the clean-up may find the lock free. -/
  | check (g : ℕ) (lockFree : Bool)
  deriving DecidableEq, Repr

/-- References taken on the slots of a list. -/
def State.acquire (s : State) (gs : List ℕ) : State :=
  (s.setPool { s.pool with
    flushedSegments := fun g =>
      (s.pool.seg g).setRef ((s.pool.seg g).refCount + gs.count g) }).setHeld
    fun g => s.held g + gs.count g

def step (cfg : PoolConfig) (s : State) : Action → Option State
  | .regular t lo hi =>
      if s.pc t = .idle ∧ lo ≤ hi then
        if (s.pool.findSegmentBySids lo hi).isSome then some s
        else some (s.goto t (.regularReserve lo hi))
      else none
  | .adopt t a =>
      if s.pc t = .idle ∧ a.startSid ≤ a.endSid then some (s.goto t (.adoptReserve a)) else none
  | .takeUpgrade t =>
      match s.upgrades with
      | [] => none
      | u :: us => if s.pc t = .idle then some ((s.setUpgrades us).goto t (.upgrade u)) else none
  | .scan t => if s.pc t = .idle then some (s.goto t (.gate 1)) else none
  | .run t m => runStep cfg s t m
  | .search => some (s.acquire (s.pool.membersToTail.filter fun g => (s.pool.seg g).inUsed))
  | .pin lo hi =>
      match s.pool.findSegmentBySids lo hi with
      | none => some s
      | some g => some (s.acquire [g])
  | .drop g =>
      if 0 < s.held g then
        some (((s.setPool (s.pool.setSeg g
          ((s.pool.seg g).setRef ((s.pool.seg g).refCount - 1)))).setHeld
            (Function.update s.held g (s.held g - 1))).setDropping
            (Function.update s.dropping g (s.dropping g + 1)))
      else none
  | .check g lockFree =>
      if 0 < s.dropping g then
        let s := s.setDropping (Function.update s.dropping g (s.dropping g - 1))
        if (s.pool.seg g).refCount = 0 then
          let pool := s.pool.cleanup g
          some (s.setPool (if lockFree then pool.rewind g else pool))
        else some s
      else none

/-- The pool after an index load or an index build: the files the directory scan returned are
linked in order, and a mapped load goes on to its second phase. -/
def Start (cfg : PoolConfig) (s : State) : Prop :=
  ∃ (files : List SegmentMetadata) (useMmap : Bool),
    files.Pairwise (fun a b => a.endSid < b.startSid) ∧
    (∀ m ∈ files, m.startSid ≤ m.endSid) ∧
    s.pool = FlushedSegmentPool.loadAll cfg useMmap files ∧
    s.pc = Function.update (fun _ => .idle) 0 (if useMmap then .submitUpgrades else .idle) ∧
    s.upgrades = [] ∧ s.held = (fun _ => 0) ∧ s.dropping = (fun _ => 0) ∧
    s.retired = fun _ => false

/-- A range may take the place of `olds`: they are a run of the list that the range meets, and
the range meets no other member. -/
def Fits (pool : FlushedSegmentPool) (olds : List ℕ) (lo hi : SegmentId) : Prop :=
  lo ≤ hi ∧ olds <:+: pool.members ∧
    (olds = [] ∨ ∃ g ∈ olds, (pool.seg g).segmentIdStart ≤ hi ∧ lo ≤ (pool.seg g).segmentIdEnd) ∧
    ∀ g ∈ pool.members, g ∉ olds →
      hi < (pool.seg g).segmentIdStart ∨ (pool.seg g).segmentIdEnd < lo

instance (pool : FlushedSegmentPool) (olds : List ℕ) (lo hi : SegmentId) :
    Decidable (Fits pool olds lo hi) := inferInstanceAs (Decidable (_ ∧ _ ∧ _ ∧ _))

/-- A section that links a segment finds the place it was prepared for. -/
def Placed (s : State) (t : ℕ) (m : Option SegmentMetadata) : Prop :=
  match s.pc t with
  | .regularRegister slot =>
      Fits s.pool [] (s.pool.seg slot).segmentIdStart (s.pool.seg slot).segmentIdEnd
  | .adoptInstall slot kind snaps =>
      Fits s.pool (if kind = .append then [] else snaps.map PredSnap.segIdx)
        (s.pool.seg slot).segmentIdStart (s.pool.seg slot).segmentIdEnd
  | .compactInstall task lo hi _ => Fits s.pool task.olds lo hi
  | .upgrade u => m ≠ none → upgradable s.pool u → u.segmentIdx ∈ s.pool.members
  | _ => True

instance (s : State) (t : ℕ) (m : Option SegmentMetadata) : Decidable (Placed s t m) := by
  unfold Placed
  split <;> infer_instance

/-- The condition on a step: a segment is linked in the place it was prepared for, and a
clean-up does not find its slot reserved again. -/
def Undisturbed (s : State) : Action → Prop
  | .run t m => Placed s t m
  | .check g _ => (s.pool.seg g).refCount = 0 → ∀ t, (s.pc t).reserved ≠ some g
  | _ => True

end VectorLsm.Pool
