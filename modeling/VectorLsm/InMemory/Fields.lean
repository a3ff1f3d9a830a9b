import VectorLsm.InMemory.Machine
import VectorLsm.Pool.Linked

/-! # What the pool says of the arrays of a slot

The range, the version, the row count, the load state and the delete count of a slot are written
where the slot is filled, and nowhere else in the pool.
-/

namespace VectorLsm.InMemory

open Pool FlushedSegmentPool Transition

/-- The fields that go with the arrays of a slot. -/
def data (seg : FlushedSegment) : SegmentFileInfo × ℕ × SegmentLoadState :=
  (seg.info, seg.vecCount, seg.loadState)

/-- With the delete count. -/
def content (seg : FlushedSegment) : (SegmentFileInfo × ℕ × SegmentLoadState) × ℕ :=
  (data seg, seg.deleteCount)

/-- The slots of two pools have the same fields that go with their arrays. -/
def SameFields (pool pool' : FlushedSegmentPool) : Prop :=
  ∀ g, data (pool'.seg g) = data (pool.seg g)

/-- And the same delete counts. -/
def SameContent (pool pool' : FlushedSegmentPool) : Prop :=
  ∀ g, content (pool'.seg g) = content (pool.seg g)

theorem SameContent.sameFields {pool pool' : FlushedSegmentPool} (h : SameContent pool pool') :
    SameFields pool pool' :=
  fun g => congrArg Prod.fst (h g)

theorem SameFields.setSeg {pool : FlushedSegmentPool} {idx : ℕ} (seg : FlushedSegment)
    (h : data seg = data (pool.seg idx)) : SameFields pool (pool.setSeg idx seg) := by
  intro g
  rw [seg_setSeg]
  split
  case isTrue hg => rw [h, hg]
  case isFalse => rfl

namespace SameContent

variable {pool pool' pool'' : FlushedSegmentPool} {idx : ℕ}

theorem refl (pool : FlushedSegmentPool) : SameContent pool pool := fun _ => rfl

theorem trans (h : SameContent pool pool') (h' : SameContent pool' pool'') :
    SameContent pool pool'' :=
  fun g => (h' g).trans (h g)

theorem setSeg (seg : FlushedSegment) (h : content seg = content (pool.seg idx)) :
    SameContent pool (pool.setSeg idx seg) := by
  intro g
  rw [seg_setSeg]
  split
  case isTrue hg => rw [h, hg]
  case isFalse => rfl

theorem of_seg (h : ∀ g, pool'.seg g = pool.seg g) : SameContent pool pool' :=
  fun g => congrArg content (h g)

theorem reserve (h : pool.reserve = some (idx, pool')) : SameContent pool pool' := by
  obtain ⟨-, -, rfl⟩ := reserve_eq h
  exact (setSeg { pool.seg idx with inUsed := true } rfl).trans (of_seg fun _ => rfl)

theorem register (cfg : PoolConfig) : SameContent pool (pool.register cfg idx) := by
  intro g
  rw [register_seg]
  rfl

theorem discard : SameContent pool (pool.discard idx) :=
  (setSeg (pool.seg idx).clear rfl).trans (of_seg fun _ => seg_rewind ..)

theorem cleanup (idx : ℕ) : SameContent pool (pool.cleanup idx) :=
  (setSeg (pool.seg idx).clear rfl).trans (of_seg fun _ => rfl)

theorem dropRef : SameContent pool (pool.dropRef idx) := by
  intro g
  rw [seg_dropRef]
  split
  case isTrue hg =>
    subst hg
    unfold FlushedSegment.dropRef
    split <;> rfl
  case isFalse => rfl

theorem foldl_dropRef (olds : List ℕ) :
    SameContent pool (olds.foldl FlushedSegmentPool.dropRef pool) := by
  induction olds generalizing pool with
  | nil => exact refl pool
  | cons old olds ih => exact dropRef.trans ih

theorem foldl_addStats (cfg : PoolConfig) (olds : List ℕ) (d : UInt32) :
    SameContent pool
      (olds.foldl (fun pool old => pool.addStats cfg (pool.seg old) d) pool) :=
  of_seg (seg_addStats_foldl olds d)

theorem setRef (n : ℤ) : SameContent pool (pool.setSeg idx ((pool.seg idx).setRef n)) :=
  setSeg _ rfl

/-- The part of `replace_flushed_segments_n` after the references are dropped. -/
theorem install (cfg : PoolConfig) (head tail p q : Option ℕ) :
    SameContent pool
      ((((pool.setEnds head tail).wire p idx q).setSeg idx
        ((((pool.setEnds head tail).wire p idx q).seg idx).setRef 1)).addStats cfg
          ((((pool.setEnds head tail).wire p idx q).setSeg idx
            ((((pool.setEnds head tail).wire p idx q).seg idx).setRef 1)).seg idx) 1) := by
  have hw : SameContent pool ((pool.setEnds head tail).wire p idx q) := fun _ => rfl
  exact (hw.trans (setRef 1)).trans (of_seg fun _ => seg_addStats ..)

theorem replaceN (cfg : PoolConfig) (olds : List ℕ) (idx : ℕ) :
    SameContent pool (pool.replaceN cfg olds idx) := by
  unfold FlushedSegmentPool.replaceN
  split
  case h_1 first last _ _ =>
    have h : SameContent pool _ := (foldl_addStats cfg olds (-1)).trans (foldl_dropRef olds)
    exact (h.trans (install cfg _ _ _ _)).trans (of_seg fun _ => rfl)
  case h_2 => exact refl pool

theorem setCompacting (b : Bool) : SameContent pool (pool.setCompacting idx b) :=
  setSeg _ rfl

theorem foldl_setCompacting (olds : List ℕ) (b : Bool) :
    SameContent pool (olds.foldl (fun pool g => pool.setCompacting g b) pool) := by
  induction olds generalizing pool with
  | nil => exact refl pool
  | cons old olds ih => exact (setCompacting b).trans ih

theorem claimTask {type : CompactionType} {idx0 : ℕ} {idx1 : Option ℕ} {task : MergeTask}
    (h : pool.claimTask type idx0 idx1 = some (pool', task)) : SameContent pool pool' := by
  unfold FlushedSegmentPool.claimTask at h
  split at h
  · cases h
  · split at h
    · cases h
    · split at h
      · cases h
      · obtain ⟨rfl, -⟩ := Prod.mk.inj (Option.some.inj h)
        exact (setCompacting true).trans (setCompacting true)
    · obtain ⟨rfl, -⟩ := Prod.mk.inj (Option.some.inj h)
      exact setCompacting true

end SameContent

section Steps

variable {cfg : PoolConfig} {s s' : Pool.State} {t : ℕ}

theorem sameContent_reserve {pc : ℕ → Pc} {full : Pool.State} (hf : SameContent s.pool full.pool) :
    SameContent s.pool (s.reserve t pc full).pool := by
  unfold Pool.State.reserve
  split
  case h_1 => exact hf
  case h_2 idx pool h => exact .reserve h

theorem sameContent_acquire (gs : List ℕ) : SameContent s.pool (s.acquire gs).pool := fun _ => rfl

/-- A section that is handed no file fills no slot. -/
theorem sameContent_runStep (h : Pool.runStep cfg s t none = some s')
    (hl : ∀ a slot, s.pc t ≠ .adoptLoad a slot) : SameContent s.pool s'.pool := by
  unfold Pool.runStep at h
  split at h
  case h_1 => cases h
  case h_2 =>
    split at h
    · cases h
    · obtain rfl := Option.some.inj h
      exact sameContent_reserve (.refl _)
  case h_3 =>
    split at h
    · obtain rfl := Option.some.inj h
      exact .setSeg _ rfl
    · cases h
  case h_4 =>
    obtain rfl := Option.some.inj h
    exact .register cfg
  case h_5 =>
    obtain rfl := Option.some.inj h
    exact sameContent_reserve (.refl _)
  case h_6 a slot hpc => exact absurd hpc (hl a slot)
  case h_7 =>
    split at h
    · obtain rfl := Option.some.inj h
      exact .refl _
    · split at h <;> (obtain rfl := Option.some.inj h; exact .refl _)
  case h_8 => split at h <;> (obtain rfl := Option.some.inj h; exact .refl _)
  case h_9 =>
    obtain rfl := Option.some.inj h
    exact .register cfg
  case h_10 =>
    obtain rfl := Option.some.inj h
    exact .replaceN cfg _ _
  case h_11 =>
    obtain rfl := Option.some.inj h
    exact .discard
  case h_12 =>
    obtain rfl := Option.some.inj h
    exact .refl _
  case h_13 =>
    obtain rfl := Option.some.inj h
    exact .refl _
  case h_14 =>
    split at h <;> [skip; split at h] <;> (obtain rfl := Option.some.inj h; exact .refl _)
  case h_15 => split at h <;> (obtain rfl := Option.some.inj h; exact .refl _)
  case h_16 =>
    split at h
    case h_1 =>
      obtain rfl := Option.some.inj h
      exact .refl _
    case h_2 hc =>
      obtain rfl := Option.some.inj h
      exact .claimTask hc
  case h_17 =>
    obtain rfl := Option.some.inj h
    exact .refl _
  case h_18 =>
    obtain rfl := Option.some.inj h
    exact sameContent_reserve (.refl _)
  case h_19 => cases h
  case h_20 =>
    obtain rfl := Option.some.inj h
    exact .foldl_setCompacting _ false

/-- No other step fills a slot. -/
theorem sameContent_step {a : Pool.Action} (h : Pool.step cfg s a = some s')
    (hr : ∀ t m, a ≠ .run t m) : SameContent s.pool s'.pool := by
  cases a with
  | run t m => exact absurd rfl (hr t m)
  | regular t lo hi =>
      simp only [Pool.step] at h
      split at h
      · split at h <;> (obtain rfl := Option.some.inj h; exact .refl _)
      · cases h
  | adopt t a =>
      simp only [Pool.step] at h
      split at h
      · obtain rfl := Option.some.inj h
        exact .refl _
      · cases h
  | takeUpgrade t =>
      simp only [Pool.step] at h
      split at h
      · cases h
      · split at h
        · obtain rfl := Option.some.inj h
          exact .refl _
        · cases h
  | scan t =>
      simp only [Pool.step] at h
      split at h
      · obtain rfl := Option.some.inj h
        exact .refl _
      · cases h
  | search =>
      obtain rfl := Option.some.inj h
      exact sameContent_acquire _
  | pin lo hi =>
      simp only [Pool.step] at h
      split at h
      · obtain rfl := Option.some.inj h
        exact .refl _
      · obtain rfl := Option.some.inj h
        exact sameContent_acquire _
  | drop g =>
      simp only [Pool.step] at h
      split at h
      · obtain rfl := Option.some.inj h
        exact .setSeg _ rfl
      · cases h
  | check g lockFree =>
      simp only [Pool.step] at h
      split at h
      · split at h
        · obtain rfl := Option.some.inj h
          refine (SameContent.cleanup g).trans (.of_seg fun _ => ?_)
          dsimp only [Pool.State.setPool]
          split
          · exact seg_rewind ..
          · rfl
        · obtain rfl := Option.some.inj h
          exact .refl _
      · cases h

/-- The load of `SEGMENT_UPDATE_REGULAR`. -/
theorem seg_regularLoad {slot : ℕ} {lo hi : SegmentId} {m : Option SegmentMetadata}
    (hpc : s.pc t = .regularLoad slot lo hi) (h : Pool.runStep cfg s t m = some s') (g : ℕ) :
    s'.pool.seg g = if g = slot then (s.pool.seg slot).load m false else s.pool.seg g := by
  simp only [Pool.runStep, hpc] at h
  split at h
  · obtain rfl := Option.some.inj h
    exact seg_setSeg ..
  · cases h

/-- The load of an adoption; the version is written in any case. -/
theorem seg_adoptLoad {a : Adoption} {slot : ℕ} {m : Option SegmentMetadata}
    (hpc : s.pc t = .adoptLoad a slot) (h : Pool.runStep cfg s t m = some s') (g : ℕ) :
    s'.pool.seg g = if g = slot then
      { (s.pool.seg slot).load m false with version := a.version } else s.pool.seg g := by
  simp only [Pool.runStep, hpc] at h
  split at h
  · obtain rfl := Option.some.inj h
    exact seg_setSeg ..
  · cases h

/-- An upgrade fills the slot it reserves with the fields of the segment it replaces. -/
theorem content_upgrade {u : UpgradeTask} {m : SegmentMetadata} {idx : ℕ}
    {pool : FlushedSegmentPool} (hpc : s.pc t = .upgrade u) (hu : upgradable s.pool u = true)
    (hr : s.pool.reserve = some (idx, pool)) (h : Pool.runStep cfg s t (some m) = some s')
    (g : ℕ) : content (s'.pool.seg g) = if g = idx then
      (((s.pool.seg u.segmentIdx).info, (s.pool.seg u.segmentIdx).vecCount, .fullyLoaded),
        (s.pool.seg u.segmentIdx).deleteCount)
      else content (s.pool.seg g) := by
  simp only [Pool.runStep, hpc, hu, hr, if_true] at h
  obtain rfl := Option.some.inj h
  have hp : SameContent (pool.setSeg idx
      ((pool.seg idx).fill (upgradeMetadata (s.pool.seg u.segmentIdx)))) _ :=
    .replaceN cfg [u.segmentIdx] idx
  refine (hp g).trans ?_
  rw [seg_setSeg]
  split
  case isTrue => rfl
  case isFalse => exact SameContent.reserve hr g

/-- A compaction fills its slot with the range it has and the version of its files. -/
theorem content_compactInstall {task : MergeTask} {lo hi : SegmentId} {slot : ℕ}
    {m : SegmentMetadata} (hpc : s.pc t = .compactInstall task lo hi slot)
    (h : Pool.runStep cfg s t (some m) = some s') (g : ℕ) :
    content (s'.pool.seg g) = if g = slot then
      ((⟨lo, hi, m.version⟩, m.validRows, .fullyLoaded), m.deleteCount)
      else content (s.pool.seg g) := by
  simp only [Pool.runStep, hpc] at h
  obtain rfl := Option.some.inj h
  have hp : SameContent (s.pool.setSeg slot
      ((s.pool.seg slot).fill { m with startSid := lo, endSid := hi })) _ :=
    .replaceN cfg task.olds slot
  refine (hp g).trans ?_
  rw [seg_setSeg]
  split
  case isTrue => rfl
  case isFalse => rfl

end Steps

end VectorLsm.InMemory
