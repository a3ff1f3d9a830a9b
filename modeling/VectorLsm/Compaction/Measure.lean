import VectorLsm.Compaction.Scheduler

/-! # The measure of a pool

A segment weighs two, and one more each for a flat index and for deleted rows. A merge takes a
segment off the list, and a rebuild takes the flat index or the deleted rows off its segment, so
that a task that is carried through makes the pool lighter. A potential adds the steps a task
takes on the way, the signals, and the scans.
-/

namespace VectorLsm.Scheduler

open Pool FlushedSegmentPool Transition

section Weights

variable {cfg : PoolConfig} {pool pool' pool'' : FlushedSegmentPool} {olds l : List ℕ}
  {slot g t : ℕ}

/-- The fields a segment is weighed by. -/
def kind (seg : FlushedSegment) : IndexType × ℕ × SegmentLoadState :=
  (seg.indexType, seg.deleteCount, seg.loadState)

def segWeight (seg : FlushedSegment) : ℕ :=
  2 + (if seg.indexType = .flat then 1 else 0) + if 0 < seg.deleteCount then 1 else 0

/-- The measure of a pool. -/
def weight (pool : FlushedSegmentPool) : ℕ :=
  (pool.members.map fun g => segWeight (pool.seg g)).sum

/-- The segments still to be upgraded. -/
def mapped (pool : FlushedSegmentPool) : ℕ :=
  pool.members.countP fun g => (pool.seg g).loadState = .mmapLoaded

theorem segWeight_congr {a b : FlushedSegment} (h : kind a = kind b) :
    segWeight a = segWeight b := by
  obtain ⟨ht, hd⟩ := Prod.mk.inj h
  obtain ⟨hd, -⟩ := Prod.mk.inj hd
  rw [segWeight, segWeight, ht, hd]

theorem two_le_segWeight (seg : FlushedSegment) : 2 ≤ segWeight seg := by
  unfold segWeight
  omega

/-- The list and the kinds of its members are the same. -/
structure Keeps (pool pool' : FlushedSegmentPool) : Prop where
  members : pool'.members = pool.members
  kind : ∀ g ∈ pool.members, kind (pool'.seg g) = kind (pool.seg g)

/-- The slot takes the place of `olds`. -/
structure Replaced (olds : List ℕ) (slot : ℕ) (pool pool' : FlushedSegmentPool) : Prop where
  run : ∃ xs ys, pool.members = xs ++ olds ++ ys ∧ pool'.members = xs ++ slot :: ys
  kind : ∀ g ∈ pool.members, kind (pool'.seg g) = kind (pool.seg g)

namespace Keeps

theorem refl (pool : FlushedSegmentPool) : Keeps pool pool := ⟨rfl, fun _ _ => rfl⟩

theorem trans (h : Keeps pool pool') (h' : Keeps pool' pool'') : Keeps pool pool'' :=
  ⟨h'.members.trans h.members, fun g hg => (h'.kind g (h.members ▸ hg)).trans (h.kind g hg)⟩

theorem weight_eq (h : Keeps pool pool') : weight pool' = weight pool := by
  unfold weight
  rw [h.members]
  exact congrArg List.sum (List.map_congr_left fun g hg => segWeight_congr (h.kind g hg))

theorem mapped_eq (h : Keeps pool pool') : mapped pool' = mapped pool := by
  unfold mapped
  rw [h.members]
  refine List.countP_congr fun g hg => ?_
  have := (Prod.mk.inj (Prod.mk.inj (h.kind g hg)).2).2
  rw [this]

theorem replaced (h : Keeps pool pool') (h' : Replaced olds slot pool' pool'') :
    Replaced olds slot pool pool'' := by
  obtain ⟨xs, ys, hm, hm'⟩ := h'.run
  exact ⟨⟨xs, ys, h.members ▸ hm, hm'⟩, fun g hg =>
    (h'.kind g (h.members ▸ hg)).trans (h.kind g hg)⟩

/-- A slot outside the list is written. -/
theorem setSeg (h : pool.Linked l) (hg : slot ∉ l) (x : FlushedSegment) :
    Keeps pool (pool.setSeg slot x) where
  members := by rw [(h.setSeg hg x).members, h.members]
  kind a ha := by
    have hne : a ≠ slot := ne_of_mem_of_not_mem (h.members ▸ ha) hg
    simp [hne]

/-- Claims are set and taken back. -/
theorem setCompacting (b : Bool) :
    Keeps pool (olds.foldl (fun pool g => pool.setCompacting g b) pool) where
  members := Claims.members_setCompacting_foldl
  kind g _ := by
    rw [Claims.seg_setCompacting_foldl]
    rfl

theorem setStats (rows : ℕ) (type : IndexType) :
    Keeps pool (pool.addCompactionStats cfg rows type) :=
  ⟨Claims.members_congr (fun _ => rfl) rfl, fun _ _ => rfl⟩

end Keeps

theorem Alike.keeps (h : Alike pool pool') : Keeps pool pool' := by
  refine ⟨h.members, fun g hg => ?_⟩
  obtain ⟨n, hn⟩ := h.seg g hg
  rw [hn]
  rfl

namespace Replaced

theorem weight_add (h : Replaced olds slot pool pool') :
    weight pool' + (olds.map fun g => segWeight (pool.seg g)).sum =
      weight pool + segWeight (pool'.seg slot) := by
  obtain ⟨xs, ys, hm, hm'⟩ := h.run
  have hsame : ∀ gs : List ℕ, (∀ g ∈ gs, g ∈ pool.members) →
      (gs.map fun g => segWeight (pool'.seg g)) = gs.map fun g => segWeight (pool.seg g) :=
    fun gs hgs => List.map_congr_left fun g hg => segWeight_congr (h.kind g (hgs g hg))
  have hx := hsame xs fun g hg => by simp [hm, hg]
  have hy := hsame ys fun g hg => by simp [hm, hg]
  unfold weight
  rw [hm, hm']
  simp only [List.map_append, List.map_cons, List.sum_append, List.sum_cons, hx, hy]
  omega

theorem mapped_add (h : Replaced olds slot pool pool') :
    mapped pool' + olds.countP (fun g => (pool.seg g).loadState = .mmapLoaded) =
      mapped pool + if (pool'.seg slot).loadState = .mmapLoaded then 1 else 0 := by
  obtain ⟨xs, ys, hm, hm'⟩ := h.run
  have hsame : ∀ gs : List ℕ, (∀ g ∈ gs, g ∈ pool.members) →
      gs.countP (fun g => (pool'.seg g).loadState = .mmapLoaded) =
        gs.countP fun g => (pool.seg g).loadState = .mmapLoaded := by
    refine fun gs hgs => List.countP_congr fun g hg => ?_
    have := (Prod.mk.inj (Prod.mk.inj (h.kind g (hgs g hg))).2).2
    rw [this]
  have hx := hsame xs fun g hg => by simp [hm, hg]
  have hy := hsame ys fun g hg => by simp [hm, hg]
  unfold mapped
  rw [hm, hm']
  simp only [List.countP_append, List.countP_cons, hx, hy, decide_eq_true_eq]
  omega

theorem keeps (h : Replaced olds slot pool pool') (h' : Keeps pool' pool'')
    (hk : ∀ g ∈ pool.members, Scheduler.kind (pool''.seg g) = Scheduler.kind (pool'.seg g)) :
    Replaced olds slot pool pool'' := by
  obtain ⟨xs, ys, hm, hm'⟩ := h.run
  exact ⟨⟨xs, ys, hm, h'.members.trans hm'⟩, fun g hg => (hk g hg).trans (h.kind g hg)⟩

end Replaced

theorem kind_replaceN (hl : olds.Nodup) (hne : olds ≠ []) :
    kind ((pool.replaceN cfg olds slot).seg g) = kind (pool.seg g) := by
  obtain ⟨hspec, -, -⟩ := replaceN_spec cfg pool slot hl (List.head?_eq_some_head hne)
    (List.getLast?_eq_some_getLast hne)
  rw [hspec g]
  unfold kind dropped
  dsimp only
  split
  · unfold FlushedSegment.dropRef
    split <;> rfl
  · rfl

/-- A segment written into a reserved slot takes the place of members. -/
theorem replaced_of_fits (cfg : PoolConfig) {reserved : ℕ → Option ℕ} {held : ℕ → ℕ}
    {retired : ℕ → Bool} {lo hi : SegmentId} (h : Pool.Inv pool reserved held retired l)
    (ht : reserved t = some slot)
    (hne : olds ≠ []) (hf : Fits pool olds lo hi) :
    Replaced olds slot pool (pool.replaceN cfg olds slot) := by
  obtain ⟨xs, ys, rfl, hlink, -, -⟩ := h.replaceN_linked cfg ht hne hf
  have hno : olds.Nodup := (List.nodup_append.mp (List.nodup_append.mp h.linked.nodup).1).2.1
  exact ⟨⟨xs, ys, h.members, hlink.members⟩, fun _ _ => kind_replaceN hno hne⟩

end Weights


section Sections

variable {cfg : PoolConfig} {s s' : Pool.State} {t : ℕ} {m : Option SegmentMetadata}

/-- Where a merge thread can stand. -/
def Merging : Pc → Prop
  | .idle | .build _ | .compactReserve _ _ _ | .compactInstall _ _ _ _ | .abort _ => True
  | .gate p => p ≤ 6
  | .traverse p _ | .claim p _ _ => p ≤ 5
  | _ => False

/-- Where a maintenance thread can stand. -/
def Loading : Pc → Prop
  | .idle | .submitUpgrades | .upgrade _ => True
  | _ => False

/-- The result of a compaction takes the place of its inputs. -/
def install (cfg : PoolConfig) (s : Pool.State) (t : ℕ) (task : MergeTask) (lo hi : SegmentId)
    (slot : ℕ) (m : SegmentMetadata) : Pool.State :=
  let s := s.setPool (s.pool.setSeg slot
    ((s.pool.seg slot).fill { m with startSid := lo, endSid := hi }))
  let s := s.replace cfg t task.olds slot
  s.setPool (s.pool.addCompactionStats cfg m.validRows m.indexType)

/-- What a section of a merge thread can do. -/
inductive MergeTrans (cfg : PoolConfig) (s : Pool.State) (t : ℕ) :
    Option SegmentMetadata → Pool.State → Prop
  | gateEnd {m p} (hpc : s.pc t = .gate p) (hp : 5 < p) : MergeTrans cfg s t m (s.goto t .idle)
  | gateOpen {m p} (hpc : s.pc t = .gate p) (hp : p ≤ 5) (hg : s.pool.priorityGate p = true) :
      MergeTrans cfg s t m (s.goto t (.traverse p true))
  | gateSkip {m p} (hpc : s.pc t = .gate p) (hp : p ≤ 5) (hg : s.pool.priorityGate p = false) :
      MergeTrans cfg s t m (s.goto t (.gate (p + 1)))
  | nothing {m p firstPass} (hpc : s.pc t = .traverse p firstPass)
      (h : s.pool.traverse cfg p firstPass = none) : MergeTrans cfg s t m (s.goto t (.gate (p + 1)))
  | found {m p firstPass idx0 idx1} (hpc : s.pc t = .traverse p firstPass)
      (h : s.pool.traverse cfg p firstPass = some (idx0, idx1)) :
      MergeTrans cfg s t m (s.goto t (.claim p idx0 idx1))
  | claimLost {m p idx0 idx1} (hpc : s.pc t = .claim p idx0 idx1)
      (h : s.pool.claimTask (.ofPriority p) idx0 idx1 = none) :
      MergeTrans cfg s t m (s.goto t (.traverse p false))
  | claimed {m p idx0 idx1 pool task} (hpc : s.pc t = .claim p idx0 idx1)
      (h : s.pool.claimTask (.ofPriority p) idx0 idx1 = some (pool, task)) :
      MergeTrans cfg s t m ((s.setPool pool).goto t (.build task))
  | buildFailed {task} (hpc : s.pc t = .build task) :
      MergeTrans cfg s t none (s.goto t (.abort task))
  | built {m task} (hpc : s.pc t = .build task) :
      MergeTrans cfg s t (some m) (s.goto t (.compactReserve task (buildRange s.pool task).1
        (buildRange s.pool task).2))
  | full {m task lo hi} (hpc : s.pc t = .compactReserve task lo hi) (h : s.pool.reserve = none) :
      MergeTrans cfg s t m (s.goto t (.abort task))
  | reserved {m task lo hi slot pool} (hpc : s.pc t = .compactReserve task lo hi)
      (h : s.pool.reserve = some (slot, pool)) :
      MergeTrans cfg s t m (((s.setPool pool).setRetired
        (Function.update s.retired slot false)).goto t (.compactInstall task lo hi slot))
  | installed {m task lo hi slot} (hpc : s.pc t = .compactInstall task lo hi slot) :
      MergeTrans cfg s t (some m) (install cfg s t task lo hi slot m)
  | aborted {m task} (hpc : s.pc t = .abort task) :
      MergeTrans cfg s t m ((s.setPool
        (task.olds.foldl (fun pool g => pool.setCompacting g false) s.pool)).goto t .idle)

theorem mergeTrans_of_runStep (hm : Merging (s.pc t)) (h : runStep cfg s t m = some s') :
    MergeTrans cfg s t m s' := by
  unfold runStep at h
  cases hpc : s.pc t with
  | idle => simp [hpc] at h
  | gate p =>
      simp only [hpc] at h
      split_ifs at h with hp hg <;> obtain rfl := Option.some.inj h
      · exact .gateEnd hpc hp
      · exact .gateOpen hpc (by omega) hg
      · exact .gateSkip hpc (by omega) (by simpa using hg)
  | traverse p firstPass =>
      simp only [hpc] at h
      split at h
      next hn =>
        obtain rfl := Option.some.inj h
        exact .nothing hpc hn
      next idx0 idx1 hf =>
        obtain rfl := Option.some.inj h
        exact .found hpc hf
  | claim p idx0 idx1 =>
      simp only [hpc] at h
      split at h
      next hn =>
        obtain rfl := Option.some.inj h
        exact .claimLost hpc hn
      next pool task hc =>
        obtain rfl := Option.some.inj h
        exact .claimed hpc hc
  | build task =>
      simp only [hpc] at h
      cases m with
      | none =>
          obtain rfl := Option.some.inj h
          exact .buildFailed hpc
      | some m =>
          obtain rfl := Option.some.inj h
          exact .built hpc
  | compactReserve task lo hi =>
      simp only [hpc, State.reserve] at h
      obtain rfl := Option.some.inj h
      cases hres : s.pool.reserve with
      | none => exact .full hpc hres
      | some r => exact .reserved hpc hres
  | compactInstall task lo hi slot =>
      simp only [hpc] at h
      cases m with
      | none => cases h
      | some m =>
          obtain rfl := Option.some.inj h
          exact .installed hpc
  | abort task =>
      simp only [hpc] at h
      obtain rfl := Option.some.inj h
      exact .aborted hpc
  | _ =>
      rw [hpc] at hm
      exact hm.elim

/-- Only the thread that runs moves. -/
theorem MergeTrans.pc_of_ne (h : MergeTrans cfg s t m s') {u : ℕ} (hu : u ≠ t) :
    s'.pc u = s.pc u := by
  cases h <;> simp [install, State.replace, hu]

theorem MergeTrans.merging (h : MergeTrans cfg s t m s') (hm : Merging (s.pc t)) :
    Merging (s'.pc t) := by
  cases h with
  | gateSkip hpc hp | gateOpen hpc hp =>
      simp only [State.goto_pc, Function.update_self, Merging]
      omega
  | nothing hpc | found hpc | claimLost hpc =>
      simp only [hpc, Merging] at hm
      simp only [State.goto_pc, Function.update_self, Merging]
      omega
  | _ => simp [install, State.replace, Merging]

/-- Nothing but an installation changes the list or the kinds of its members. -/
theorem MergeTrans.keeps (h : MergeTrans cfg s t m s') (hS : Sound s)
    (hi : ∀ task lo hi slot, s.pc t ≠ .compactInstall task lo hi slot) : Keeps s.pool s'.pool := by
  cases h with
  | claimed hpc hc =>
      obtain ⟨-, -, rfl, -⟩ := Claims.claimTask_eq hc
      exact .setCompacting true
  | reserved hpc hres =>
      obtain ⟨l, hl⟩ := hS
      obtain ⟨hfree, -, hpool⟩ := reserve_eq hres
      refine ⟨(hl.reserve (reserved_eq hpc) hres).members.trans hl.members.symm, fun g hg => ?_⟩
      have hne := ne_of_mem_of_not_mem (hl.members ▸ hg) (hl.not_mem_of_free hfree)
      simp [hpool, hne]
  | installed hpc => exact absurd hpc (hi _ _ _ _)
  | aborted => exact .setCompacting false
  | _ => exact .refl _

/-- The result of an installation, in the place of the inputs of its task. -/
theorem replaced_install (cfg : PoolConfig) {task : MergeTask} {lo hi : SegmentId} {slot : ℕ}
    (m : SegmentMetadata) (hS : Sound s) (hC : Claims s)
    (hpc : s.pc t = .compactInstall task lo hi slot) :
    Replaced task.olds slot s.pool (install cfg s t task lo hi slot m).pool ∧
      kind ((install cfg s t task lo hi slot m).pool.seg slot) =
        (m.indexType, m.deleteCount, .fullyLoaded) := by
  have htask : (s.pc t).task = some task := by rw [hpc]; rfl
  have hr := reserved_eq hpc
  obtain ⟨rfl, rfl⟩ := hC.bounds t task lo hi (by rw [hpc]; rfl)
  have hne : task.olds ≠ [] := by
    rcases olds_cases task with h | ⟨b, -, h⟩ <;> simp [h]
  set x := (s.pool.seg slot).fill
    { m with startSid := task.mergedStartSid, endSid := task.mergedEndSid } with hx
  have hSw : Sound (s.setPool (s.pool.setSeg slot x)) := hS.write hr (hS.inUsed hr) rfl
  have hf := hS.fits_write hr (hC.fits hS htask) x
  obtain ⟨l, hl⟩ := hS
  obtain ⟨l', hl'⟩ := hSw
  have hkeep := Keeps.setSeg hl.linked (hl.resOutside t slot hr) x
  have hrep := hkeep.replaced (replaced_of_fits cfg hl' hr hne hf)
  have hno : task.olds.Nodup :=
    hl'.linked.nodup.sublist (hl'.members ▸ hf.2.1.sublist)
  refine ⟨hrep.keeps (.setStats m.validRows m.indexType) fun _ _ => rfl, ?_⟩
  change kind (((s.pool.setSeg slot x).replaceN cfg task.olds slot).seg slot) = _
  rw [kind_replaceN hno hne]
  simp [hx, kind]

end Sections

/-- The segment of a claimed rebuild is flat, or has deleted rows. -/
def Due (pool : FlushedSegmentPool) (task : MergeTask) : Prop :=
  match task.operationType with
  | .rebuildFlat => (pool.seg task.segmentIdx0).indexType = .flat
  | .rebuildDeletion => 0 < (pool.seg task.segmentIdx0).deleteCount
  | .merge => True

section Decrease

variable {cfg : MergeConfig} {pool pool' : FlushedSegmentPool} {x : State} {task : MergeTask}

theorem Due.congr (h : Due pool task)
    (hk : kind (pool'.seg task.segmentIdx0) = kind (pool.seg task.segmentIdx0)) :
    Due pool' task := by
  obtain ⟨ht, hd⟩ := Prod.mk.inj hk
  obtain ⟨hd, -⟩ := Prod.mk.inj hd
  unfold Due at h ⊢
  rw [ht, hd]
  exact h

/-- A claim of what a scan takes a segment for is due. -/
theorem due_of_claimTask (cfg : MergeConfig) {type : CompactionType} {idx0 : ℕ} {idx1 : Option ℕ}
    (hc : pool.claimTask type idx0 idx1 = some (pool', task))
    (hw : Wanted cfg.toPoolConfig pool type idx0) : Due pool task := by
  have hdel : type = .rebuildDeletion → 0 < (pool.seg idx0).deleteCount := by
    rintro rfl
    by_contra hz
    have hw : cfg.overDeleted (pool.seg idx0).deleteCount (pool.seg idx0).vecCount = true := hw
    rw [Nat.eq_zero_of_not_pos hz, cfg.overDeleted_zero] at hw
    cases hw
  unfold claimTask at hc
  split_ifs at hc
  split at hc
  · cases hc
  · split_ifs at hc
    obtain ⟨-, rfl⟩ := Prod.mk.inj (Option.some.inj hc)
    trivial
  · obtain ⟨-, rfl⟩ := Prod.mk.inj (Option.some.inj hc)
    unfold Due
    cases type with
    | rebuildFlat => exact hw
    | rebuildDeletion => exact hdel rfl
    | merge => trivial

/-- A merge weighs less than its two inputs, and a rebuild into another type than a flat one
less than its input. -/
theorem segWeight_segmentBuilt {task : MergeTask} {seg : FlushedSegment} (b : Built)
    (hd : Due x.base.pool task) (hp : task.operationType = .merge → task.segmentIdx1 ≠ none)
    (ht : task.operationType ≠ .merge → cfg.targetType ≠ .flat)
    (hs : kind seg = ((x.segmentBuilt cfg task b).indexType,
      (x.segmentBuilt cfg task b).deleteCount, .fullyLoaded)) :
    segWeight seg < (task.olds.map fun g => segWeight (x.base.pool.seg g)).sum := by
  obtain ⟨htype, hrest⟩ := Prod.mk.inj hs
  obtain ⟨hdel, -⟩ := Prod.mk.inj hrest
  unfold State.segmentBuilt at htype hdel
  unfold MergeTask.olds
  cases hop : task.operationType with
  | merge =>
      obtain ⟨idx1, hidx⟩ := Option.ne_none_iff_exists'.mp (hp hop)
      simp only [hop, hidx] at htype hdel
      simp only [hidx, List.map_cons, List.map_nil, List.sum_cons, List.sum_nil]
      unfold segWeight
      rw [htype, hdel]
      split_ifs <;> omega
  | rebuildFlat =>
      simp only [hop] at htype hdel
      have hflat : (x.base.pool.seg task.segmentIdx0).indexType = .flat := by
        simpa [Due, hop] using hd
      simp only [List.map_cons, List.map_nil, List.sum_cons, List.sum_nil]
      unfold segWeight
      rw [htype, hdel, if_neg (ht (by simp [hop])), if_pos hflat]
      split_ifs <;> omega
  | rebuildDeletion =>
      simp only [hop] at htype hdel
      have hpos : 0 < (x.base.pool.seg task.segmentIdx0).deleteCount := by
        simpa [Due, hop] using hd
      simp only [List.map_cons, List.map_nil, List.sum_cons, List.sum_nil]
      unfold segWeight
      rw [htype, hdel, if_neg (ht (by simp [hop])), if_pos hpos]
      split_ifs <;> omega

/-- An installed result makes the pool lighter. -/
theorem weight_install {t : ℕ} {lo hi : SegmentId} {slot : ℕ} (b : Built) (hS : Sound x.base)
    (hC : Claims x.base) (hpc : x.base.pc t = .compactInstall task lo hi slot)
    (hd : Due x.base.pool task) (ht : task.operationType ≠ .merge → cfg.targetType ≠ .flat) :
    weight (install cfg.toPoolConfig x.base t task lo hi slot
      (x.segmentBuilt cfg task b)).pool < weight x.base.pool := by
  have htask : (x.base.pc t).task = some task := by rw [hpc]; rfl
  obtain ⟨hrep, hk⟩ := replaced_install cfg.toPoolConfig (x.segmentBuilt cfg task b)
    hS hC hpc
  have hadd := hrep.weight_add
  have hlt := segWeight_segmentBuilt b hd (hC.paired t task htask) ht hk
  omega

/-- Claimed segments are loaded, and so is the result: nothing is left to upgrade. -/
theorem mapped_install (cfg : MergeConfig) {t : ℕ} {lo hi : SegmentId} {slot : ℕ}
    (m : SegmentMetadata) (hS : Sound x.base) (hC : Claims x.base)
    (hpc : x.base.pc t = .compactInstall task lo hi slot) :
    mapped (install cfg.toPoolConfig x.base t task lo hi slot m).pool ≤ mapped x.base.pool := by
  obtain ⟨hrep, hk⟩ := replaced_install cfg.toPoolConfig m hS hC hpc
  have hadd := hrep.mapped_add
  have hload : ((install cfg.toPoolConfig x.base t task lo hi slot m).pool.seg slot).loadState =
      .fullyLoaded := (Prod.mk.inj (Prod.mk.inj hk).2).2
  rw [hload, if_neg (by decide)] at hadd
  omega

end Decrease

section Potential

variable (cfg : MergeConfig) (x : State)

/-- The steps a thread still has to take until its task is installed. -/
def stage : Pc → ℕ
  | .compactInstall _ _ _ _ => 0
  | .compactReserve _ _ _ => 1
  | .build _ => 2
  | .abort _ => 4
  | _ => 3

/-- The steps a scan still has to take. A claim that has lost its slots starts over. -/
def scanRank (pool : FlushedSegmentPool) : Pc → ℕ
  | .gate p => 3 * (6 - p) + 2
  | .traverse p _ => 3 * (6 - p) + 1
  | .claim p idx0 idx1 =>
      if Claimable pool (.ofPriority p) idx0 idx1 then 3 * (6 - p) else 3 * (6 - p) + 2
  | _ => 0

def taskPotential : ℕ :=
  4 * weight x.base.pool + mapped x.base.pool +
    ∑ t ∈ Finset.range cfg.numThreads, stage (x.base.pc t)

/-- What pays for the steps of the merge threads. -/
def potential : ℕ :=
  (20 * cfg.numThreads + 21) * taskPotential cfg x + 20 * x.pendingSignals +
    ∑ t ∈ Finset.range cfg.numThreads, scanRank x.base.pool (x.base.pc t)

/-- A step of a merge thread. -/
def mergeStep (_ : State) : Action → ℕ
  | .wake _ | .run _ _ => 1
  | _ => 0

/-- A task is carried through. -/
def carriedThrough (x : State) : Action → ℕ
  | .run t _ =>
      match x.base.pc t with
      | .compactInstall _ _ _ _ => 1
      | _ => 0
  | _ => 0

/-- What holds while nobody else writes the pool. -/
structure Settled : Prop where
  sound : Sound x.base
  claims : Claims x.base
  due : ∀ t task, (x.base.pc t).task = some task → Due x.base.pool task
  merging : ∀ t < cfg.numThreads, Merging (x.base.pc t)
  loading : ∀ t, cfg.numThreads ≤ t → Loading (x.base.pc t)
  alive : ∀ t, x.raised t = false

/-- The condition on a step. A claim finds its slots as the scan has seen them. What a task
loads and allocates is there, a rebuild is not one into a flat index, the builder raises no
error, and a slot is free for the result. -/
def CarriesThrough (x : State) : Action → Prop
  | .wake _ => True
  | .run t b =>
      match x.base.pc t with
      | .claim p idx0 idx1 => (x.base.pool.claimTask (.ofPriority p) idx0 idx1).isSome →
          claimOlds (.ofPriority p) idx0 idx1 <:+: x.base.pool.members ∧
            Wanted cfg.toPoolConfig x.base.pool (.ofPriority p) idx0
      | .build _ => b.isSome
      | .compactReserve _ _ _ => x.base.pool.reserve.isSome
      | .compactInstall task _ _ _ => task.operationType ≠ .merge → cfg.targetType ≠ .flat
      | _ => True
  | .raise _ => False
  | .other a => Steady x.base a

variable {cfg} {x} {x' : State}

theorem scanRank_le (pool : FlushedSegmentPool) (pc : Pc) : scanRank pool pc ≤ 20 := by
  unfold scanRank
  split <;> try split_ifs
  all_goals omega

theorem sum_scanRank_le (pool : FlushedSegmentPool) (pc : ℕ → Pc) (n : ℕ) :
    ∑ t ∈ Finset.range n, scanRank pool (pc t) ≤ 20 * n := by
  calc ∑ t ∈ Finset.range n, scanRank pool (pc t) ≤ ∑ _t ∈ Finset.range n, 20 :=
        Finset.sum_le_sum fun t _ => scanRank_le pool (pc t)
    _ = 20 * n := by simp [mul_comm]

/-- A step on the way of a task, and one signal. -/
theorem potential_lt_of_task (ht : taskPotential cfg x' < taskPotential cfg x)
    (hp : x'.pendingSignals ≤ x.pendingSignals + 1) : potential cfg x' < potential cfg x := by
  have hrank := sum_scanRank_le x'.base.pool x'.base.pc cfg.numThreads
  have hmul : (20 * cfg.numThreads + 21) * (taskPotential cfg x' + 1) ≤
      (20 * cfg.numThreads + 21) * taskPotential cfg x := Nat.mul_le_mul_left _ ht
  rw [Nat.mul_add, Nat.mul_one] at hmul
  unfold potential
  omega

/-- A step of a scan. -/
theorem potential_lt_of_scan {t : ℕ} (pc : Pc) (hlt : t < cfg.numThreads)
    (hpool : x'.base.pool = x.base.pool) (hpc : x'.base.pc = Function.update x.base.pc t pc)
    (hs : stage pc = stage (x.base.pc t))
    (hr : scanRank x.base.pool pc + 20 * x'.pendingSignals <
      scanRank x.base.pool (x.base.pc t) + 20 * x.pendingSignals) :
    potential cfg x' < potential cfg x := by
  have hstage := sum_update_add hlt stage x.base.pc pc
  have hrank := sum_update_add hlt (scanRank x.base.pool) x.base.pc pc
  have htask : taskPotential cfg x' = taskPotential cfg x := by
    unfold taskPotential
    rw [hpool, hpc]
    omega
  unfold potential
  rw [htask, hpool, hpc]
  omega

end Potential

end VectorLsm.Scheduler
