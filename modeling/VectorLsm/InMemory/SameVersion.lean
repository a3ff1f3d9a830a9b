import VectorLsm.InMemory.Invariant

/-! # Bits combined at one version

In a run whose reads find the version they go by, a bit in the bitmap of a segment in the pool
stands for a deletion of its row. A version that arrives between the worker's comparison and its
read breaks this.
-/

namespace VectorLsm.InMemory

open Pool FlushedSegmentPool Transition

variable {cfg : Config} {s : State}

section Start

/-- The fields a load writes. -/
def loaded (useMmap : Bool) (m : SegmentMetadata) : SegmentFileInfo × ℕ × SegmentLoadState :=
  (⟨m.startSid, m.endSid, m.version⟩, m.validRows, if useMmap then .mmapLoaded else .fullyLoaded)

/-- Every slot in use has been filled from one of the files. -/
def Filled (useMmap : Bool) (files : List SegmentMetadata) (pool : FlushedSegmentPool) : Prop :=
  ∀ g, (pool.seg g).inUsed → ∃ m ∈ files, data (pool.seg g) = loaded useMmap m

/-- And has its delete count. -/
def FilledCounts (useMmap : Bool) (files : List SegmentMetadata) (pool : FlushedSegmentPool) :
    Prop :=
  ∀ g, (pool.seg g).inUsed → ∃ m ∈ files,
    content (pool.seg g) = (loaded useMmap m, m.deleteCount)

theorem FilledCounts.loadOne {useMmap : Bool} {files : List SegmentMetadata}
    {pool : FlushedSegmentPool} {m : SegmentMetadata} (h : FilledCounts useMmap files pool)
    (cfg : PoolConfig) (hm : m ∈ files) :
    FilledCounts useMmap files (pool.loadOne cfg useMmap m) := by
  unfold FlushedSegmentPool.loadOne
  split
  case h_1 => exact h
  case h_2 idx pool' hr =>
    obtain ⟨-, -, rfl⟩ := reserve_eq hr
    intro g hg
    rw [register_inUsed, seg_setSeg] at hg
    rw [SameContent.register cfg g, seg_setSeg]
    split
    case isTrue => exact ⟨m, hm, rfl⟩
    case isFalse hgi =>
      rw [if_neg hgi, seg_setInsertIdx, seg_setSeg, if_neg hgi] at hg
      rw [seg_setInsertIdx, seg_setSeg, if_neg hgi]
      exact h g hg

theorem filledCounts_loadAll (cfg : PoolConfig) (useMmap : Bool) (files : List SegmentMetadata) :
    FilledCounts useMmap files (.loadAll cfg useMmap files) := by
  have hfold : ∀ (ms : List SegmentMetadata) (pool : FlushedSegmentPool),
      (∀ m ∈ ms, m ∈ files) → FilledCounts useMmap files pool →
        FilledCounts useMmap files (ms.foldl (fun pool m => pool.loadOne cfg useMmap m) pool) := by
    intro ms
    induction ms with
    | nil => exact fun _ _ h => h
    | cons m ms ih =>
        intro pool hms h
        exact ih _ (fun m' hm' => hms m' (List.mem_cons_of_mem m hm'))
          (h.loadOne cfg (hms m List.mem_cons_self))
  refine hfold files .initial (fun _ hm => hm) fun g hg => ?_
  cases hg

theorem filled_loadAll (cfg : PoolConfig) (useMmap : Bool) (files : List SegmentMetadata) :
    Filled useMmap files (.loadAll cfg useMmap files) := fun g hg =>
  have ⟨m, hm, hcontent⟩ := filledCounts_loadAll cfg useMmap files g hg
  ⟨m, hm, congrArg Prod.fst hcontent⟩

theorem inv_of_start (h : Start cfg s) : Inv s := by
  obtain ⟨files, useMmap, hfiles, -, -, hpool, -, -, -, -, -, hn, hw, harr, hwork, -, -, hm,
    hcomb⟩ := h
  refine ⟨hn, hw, hm, fun g a ha => ?_, fun t => ?_, ?_⟩
  · rw [harr g] at ha
    split at ha
    case isTrue hg =>
      obtain ⟨f, hf, rfl⟩ := Option.map_eq_some_iff.mp ha
      obtain ⟨hmem, hi⟩ := (Disk.load_eq_some hn).mp hf
      have hfill := filled_loadAll cfg.pool useMmap (files.map cfg.metadata) g
      rw [← hpool] at hfill
      obtain ⟨m, hmf, hdata⟩ := hfill hg
      obtain ⟨f', hf', rfl⟩ := List.mem_map.mp hmf
      -- the file found under the name is the one the slot was filled from
      have hinfo : (s.base.pool.seg g).info = f'.info := congrArg Prod.fst hdata
      obtain rfl : f = f' := List.inj_on_of_nodup_map hn hmem (hfiles f' hf') (hi.trans hinfo)
      exact ⟨⟨f, hmem, hi, rfl⟩, congrArg (·.2.1) hdata, hm f hmem⟩
    case isFalse => cases ha
  · rw [hwork]
    trivial
  · rw [hcomb]
    simp

end Start

/-- In every run whose reads find the version they go by, the bits in memory are deletions of
their rows. -/
theorem sameVersion_of_current
    (h : Reachable (Start cfg) (step cfg) (fun s a => Current s a) s) : SameVersion s :=
  ((Inv.pieces cfg).reachable (fun _ => inv_of_start) h).sameVersion

section Demo

instance (new old : Arrays) : Decidable (new.AgreesWith old) := by
  unfold Arrays.AgreesWith
  infer_instance

instance (new : Arrays) (g : DpvVacuumGroup) : Decidable (new.AgreesWithGroup g) := by
  unfold Arrays.AgreesWithGroup
  infer_instance

instance (s : State) (task : MergeTask) : Decidable (Counted s task) := by
  unfold Counted
  infer_instance

instance (s : State) (a : Action) : Decidable (Current s a) := by
  cases a <;> unfold Current <;> dsimp only
  case run t ok => split <;> infer_instance
  case work t => split <;> infer_instance
  case updateNext t junk => split <;> infer_instance
  all_goals infer_instance

def demoConfig : Config where
  pool := ⟨10, fun _ _ => false⟩
  indexType := fun _ => .hnsw

/-- Segment 4 with three rows. -/
def demoFile : SegmentFile := .flush 4 [10, 11, 12] (fun _ => false) 1

/-- Its next version on the primary: the first row is gone and the last one is masked. -/
def demoNext : SegmentFile where
  startSid := 4
  endSid := 4
  version := 2
  mapping := [⟨11, 4, 1⟩, ⟨12, 4, 2⟩]
  offsets := [⟨4, 0, 2⟩]
  bitmap := fun i => i = 1
  deleteCount := 1

/-- The pool with the segment in slot 0. -/
def demoPool (useMmap : Bool) : Pool.State where
  pool := .loadAll demoConfig.pool useMmap [demoConfig.metadata demoFile]
  pc := Function.update (fun _ => .idle) 0 (if useMmap then .submitUpgrades else .idle)
  upgrades := []
  held := fun _ => 0
  dropping := fun _ => 0
  retired := fun _ => false

def demoStart (useMmap : Bool) : State where
  base := demoPool useMmap
  arrays := fun g => if g = 0 then some (.ofFile demoFile) else none
  disk := [demoFile]
  work := fun _ => .none
  update := fun _ => .idle
  searches := fun _ => 0
  deleted := []
  combined := []

theorem demoPool_seg (useMmap : Bool) {g : ℕ} (hg : g ≠ 0) :
    ((demoPool useMmap).pool.seg g).inUsed = false := by
  have hr : FlushedSegmentPool.initial.reserve = some (0, (FlushedSegmentPool.initial.setSeg 0
      { FlushedSegment.initial with inUsed := true }).setInsertIdx 1) := rfl
  have hl : (demoPool useMmap).pool =
      FlushedSegmentPool.initial.loadOne demoConfig.pool useMmap (demoConfig.metadata demoFile) :=
    rfl
  rw [hl, FlushedSegmentPool.loadOne, hr]
  dsimp only
  rw [register_inUsed, seg_setSeg, if_neg hg, seg_setInsertIdx, seg_setSeg, if_neg hg]
  rfl

theorem start_demoStart (useMmap : Bool) : Start demoConfig (demoStart useMmap) := by
  refine ⟨[demoFile], useMmap, by simp [demoStart], by simp, by simp [demoFile, SegmentFile.flush],
    rfl, rfl, rfl, rfl, rfl, rfl, by simp [demoStart], ?_, fun g => ?_, rfl, rfl, rfl, ?_, rfl⟩
  · have hw : Written demoFile := by decide
    simpa [demoStart] using hw
  · by_cases hg : g = 0
    · subst hg
      cases useMmap <;> rfl
    · have hf := demoPool_seg useMmap hg
      simp [demoStart, hf, hg]
  · intro f hf i row _ hb
    obtain rfl : f = demoFile := by simpa [demoStart] using hf
    cases hb

/-- A deletion of the first row is combined after the next version has arrived. -/
def demoLate : List Action :=
  [.writeBitmap ⟨4, 4, 1⟩ (fun i => i = 0) 1, .update 1 4 4 1, .updateNext 1 fun _ => false,
    .pull demoNext, .updateNext 1 fun _ => false]

/-- It is combined before, and the next version adopted. -/
def demoInTime : List Action :=
  [.writeBitmap ⟨4, 4, 1⟩ (fun i => i = 0) 1, .update 1 4 4 1, .updateNext 1 fun _ => false,
    .updateNext 1 fun _ => false, .updateNext 1 fun _ => false, .pull demoNext,
    .adopt 2 ⟨4, 4, 2, []⟩ [], .run 2 true, .run 2 true, .run 2 true, .run 2 true, .run 2 true]

/-- The list, and rows and bits of its first slot. -/
def demoView (s : State) : List ℕ × Option (List MappedRow × List Bool) × List MappedRow :=
  (s.base.pool.members, (s.base.pool.members.head?.bind s.arrays).map fun a =>
    (a.map, (List.range a.map.length).map a.bitmap), s.deleted)

/-- The bit of the last row in the next version masks the middle row. -/
theorem not_sameVersion : ¬ ∀ s, Reachable (Start demoConfig) (step demoConfig)
    (fun s a => anyStep s a) s → SameVersion s := by
  intro h
  have he : (exec (step demoConfig) (demoStart false) demoLate).map demoView =
      some ([0], some ([⟨10, 4, 0⟩, ⟨11, 4, 1⟩, ⟨12, 4, 2⟩], [false, true, false]),
        [⟨12, 4, 2⟩, ⟨10, 4, 0⟩]) := by
    decide +kernel
  obtain ⟨s, hs, hv⟩ := Option.map_eq_some_iff.mp he
  have hsv := h s (.of_exec (.start (start_demoStart false)) (meets_anyStep _) hs)
  obtain ⟨hmem, hv⟩ := Prod.mk.inj hv
  obtain ⟨harr, hdel⟩ := Prod.mk.inj hv
  rw [hmem] at harr
  obtain ⟨a, ha, hbits⟩ := Option.map_eq_some_iff.mp harr
  obtain ⟨hmap, hbm⟩ := Prod.mk.inj hbits
  rw [hmap] at hbm
  have hbit : a.bitmap 1 = true := Option.some.inj (congrArg (·[1]?) hbm)
  have hmask := hsv.marks 0 (by simp [hmem]) a ha 1 ⟨11, 4, 1⟩ (by rw [hmap]; rfl) hbit
  rw [hdel] at hmask
  simp at hmask

theorem sameVersion_demoInTime : ∃ s,
    exec (step demoConfig) (demoStart false) demoInTime = some s ∧
      demoView s = ([1], some ([⟨11, 4, 1⟩, ⟨12, 4, 2⟩], [false, true]),
        [⟨12, 4, 2⟩, ⟨10, 4, 0⟩]) ∧ SameVersion s := by
  have he : (exec (step demoConfig) (demoStart false) demoInTime).map demoView =
      some ([1], some ([⟨11, 4, 1⟩, ⟨12, 4, 2⟩], [false, true]),
        [⟨12, 4, 2⟩, ⟨10, 4, 0⟩]) := by
    decide +kernel
  obtain ⟨s, hs, hv⟩ := Option.map_eq_some_iff.mp he
  have hm : Meets (fun s a => Current s a) (step demoConfig) (demoStart false) demoInTime := by
    decide +kernel
  exact ⟨s, hs, hv,
    sameVersion_of_current (.of_exec (.start (start_demoStart false)) hm hs)⟩

end Demo

end VectorLsm.InMemory
