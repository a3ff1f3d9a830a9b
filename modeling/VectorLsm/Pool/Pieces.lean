import VectorLsm.Pool.WellFormed

/-! # The pieces of a step

The sections of the threads are put together from a few pieces: a slot is reserved, written,
linked, given back or cleaned up, a reference comes or goes. What the pieces preserve every step
preserves, and so do runs whose steps give the pieces what they need.
-/

namespace VectorLsm.Pool

open FlushedSegmentPool Transition

variable {cfg : PoolConfig} {s s' s'' : State} {t slot g : ℕ} {olds gs : List ℕ}

/-- The states differ in compaction flags, control points without a slot and the queue at most. -/
structure Quiet (s s' : State) : Prop where
  seg : ∀ g, ∃ b, s'.pool.seg g = { s.pool.seg g with isCompacting := b }
  count : s'.pool.flushedSegmentCount = s.pool.flushedSegmentCount
  headIdx : s'.pool.headIdx = s.pool.headIdx
  tailIdx : s'.pool.tailIdx = s.pool.tailIdx
  insertIdx : s'.pool.insertIdx = s.pool.insertIdx
  stats : s'.pool.stats = s.pool.stats
  reserved : s'.reserved = s.reserved
  held : s'.held = s.held
  dropping : s'.dropping = s.dropping
  retired : s'.retired = s.retired

namespace Quiet

theorem of_pool_eq (hp : s'.pool = s.pool) (hr : s'.reserved = s.reserved)
    (hh : s'.held = s.held) (hd : s'.dropping = s.dropping) (ht : s'.retired = s.retired) :
    Quiet s s' where
  seg g := ⟨(s.pool.seg g).isCompacting, by rw [hp]⟩
  count := by rw [hp]
  headIdx := by rw [hp]
  tailIdx := by rw [hp]
  insertIdx := by rw [hp]
  stats := by rw [hp]
  reserved := hr
  held := hh
  dropping := hd
  retired := ht

theorem refl (s : State) : Quiet s s := of_pool_eq rfl rfl rfl rfl rfl

theorem trans (h : Quiet s s') (h' : Quiet s' s'') : Quiet s s'' where
  seg g := by
    obtain ⟨b, hb⟩ := h.seg g
    obtain ⟨b', hb'⟩ := h'.seg g
    exact ⟨b', by rw [hb', hb]⟩
  count := h'.count.trans h.count
  headIdx := h'.headIdx.trans h.headIdx
  tailIdx := h'.tailIdx.trans h.tailIdx
  insertIdx := h'.insertIdx.trans h.insertIdx
  stats := h'.stats.trans h.stats
  reserved := h'.reserved.trans h.reserved
  held := h'.held.trans h.held
  dropping := h'.dropping.trans h.dropping
  retired := h'.retired.trans h.retired

/-- A thread goes on with the slot it has, or without one as before. -/
theorem goto {pc : Pc} (hr : pc.reserved = s.reserved t) : Quiet s (s.goto t pc) :=
  of_pool_eq rfl (by rw [reserved_goto, hr, Function.update_eq_self]) rfl rfl rfl

theorem setCompacting (b : Bool) : Quiet s (s.setPool (s.pool.setCompacting g b)) where
  seg a := by
    by_cases ha : a = g
    · exact ⟨b, by simp [FlushedSegmentPool.setCompacting, ha]⟩
    · exact ⟨(s.pool.seg a).isCompacting, by simp [FlushedSegmentPool.setCompacting, ha]⟩
  count := rfl
  headIdx := rfl
  tailIdx := rfl
  insertIdx := rfl
  stats := rfl
  reserved := rfl
  held := rfl
  dropping := rfl
  retired := rfl

theorem abort (olds : List ℕ) :
    Quiet s (s.setPool (olds.foldl (fun pool g => pool.setCompacting g false) s.pool)) := by
  induction olds generalizing s with
  | nil => exact refl s
  | cons g olds ih => exact (setCompacting (g := g) false).trans ih

theorem claim {type : CompactionType} {idx0 : ℕ} {idx1 : Option ℕ} {pool : FlushedSegmentPool}
    {task : MergeTask} (hc : s.pool.claimTask type idx0 idx1 = some (pool, task)) :
    Quiet s (s.setPool pool) := by
  unfold claimTask at hc
  split at hc
  · cases hc
  · split at hc
    · cases hc
    · split at hc
      · cases hc
      · obtain ⟨rfl, -⟩ := Prod.mk.injEq .. ▸ Option.some.inj hc
        exact (setCompacting true).trans (setCompacting true)
    · obtain ⟨rfl, -⟩ := Prod.mk.injEq .. ▸ Option.some.inj hc
      exact setCompacting true

theorem next (h : Quiet s s') : s'.pool.next = s.pool.next := by
  funext g
  obtain ⟨b, hb⟩ := h.seg g
  rw [FlushedSegmentPool.next, hb]
  rfl

theorem prev (h : Quiet s s') : s'.pool.prev = s.pool.prev := by
  funext g
  obtain ⟨b, hb⟩ := h.seg g
  rw [FlushedSegmentPool.prev, hb]
  rfl

theorem members (h : Quiet s s') : s'.pool.members = s.pool.members := by
  rw [FlushedSegmentPool.members, h.next, h.headIdx]
  rfl

end Quiet

/-- What the pieces need: a replacement of the slots it replaces, a clean-up of its slot, and a
compaction of the result it counts. -/
structure Needs where
  replace : FlushedSegmentPool → List ℕ → Prop
  cleanup : FlushedSegmentPool → ℕ → Bool → Prop
  count : ℕ → IndexType → Prop

/-- The step gives its pieces what they need; no clean-up meets a slot reserved again. -/
def Needs.Met (n : Needs) (s : State) : Action → Prop
  | .run t m =>
      match s.pc t with
      | .adoptInstall _ .append _ => True
      | .adoptInstall _ _ snaps => n.replace s.pool (snaps.map PredSnap.segIdx)
      | .upgrade u => m ≠ none → upgradable s.pool u →
          ∀ idx pool, s.pool.reserve = some (idx, pool) → n.replace pool [u.segmentIdx]
      | .compactInstall task _ _ _ =>
          n.replace s.pool task.olds ∧ ∀ x ∈ m, n.count x.validRows x.indexType
      | _ => True
  | .check g lockFree =>
      (s.pool.seg g).refCount = 0 →
        (∀ t, (s.pc t).reserved ≠ some g) ∧ n.cleanup s.pool g lockFree
  | _ => True

/-- The pieces preserve `I`. -/
structure Pieces (cfg : PoolConfig) (n : Needs) (I : State → Prop) : Prop where
  quiet {s s' : State} (h : I s) (hq : Quiet s s') : I s'
  reserve {s : State} {t slot : ℕ} {pool : FlushedSegmentPool} (pc : Pc) (h : I s)
    (ht : s.reserved t = none) (hres : s.pool.reserve = some (slot, pool))
    (hpc : pc.reserved = some slot) :
    I (((s.setPool pool).setRetired (Function.update s.retired slot false)).goto t pc)
  write {s : State} {t slot : ℕ} {x : FlushedSegment} (h : I s) (ht : s.reserved t = some slot)
    (hu : x.inUsed = true) (hr : x.refCount = (s.pool.seg slot).refCount) :
    I (s.setPool (s.pool.setSeg slot x))
  register {s : State} {t slot : ℕ} (h : I s) (ht : s.reserved t = some slot) :
    I (s.register cfg t slot)
  replace {s : State} {t slot : ℕ} {olds : List ℕ} (h : I s) (ht : s.reserved t = some slot)
    (hn : n.replace s.pool olds) : I (s.replace cfg t olds slot)
  discard {s : State} {t slot : ℕ} (h : I s) (ht : s.reserved t = some slot) :
    I ((s.setPool (s.pool.discard slot)).goto t .idle)
  acquire {s : State} {gs : List ℕ} (h : I s) (hgs : ∀ g ∈ gs, g ∈ s.pool.membersToTail) :
    I (s.acquire gs)
  drop {s : State} {g : ℕ} (h : I s) (hg : 0 < s.held g) :
    I (((s.setPool (s.pool.setSeg g
      ((s.pool.seg g).setRef ((s.pool.seg g).refCount - 1)))).setHeld
        (Function.update s.held g (s.held g - 1))).setDropping
        (Function.update s.dropping g (s.dropping g + 1)))
  keep {s : State} {g : ℕ} (h : I s) (hz : (s.pool.seg g).refCount ≠ 0) :
    I (s.setDropping (Function.update s.dropping g (s.dropping g - 1)))
  cleanup {s : State} {g : ℕ} {lockFree : Bool} (h : I s) (hz : (s.pool.seg g).refCount = 0)
    (hg : ∀ t, s.reserved t ≠ some g) (hn : n.cleanup s.pool g lockFree) :
    I ((s.setDropping (Function.update s.dropping g (s.dropping g - 1))).setPool
      (if lockFree then (s.pool.cleanup g).rewind g else s.pool.cleanup g))
  count {s : State} {rows : ℕ} {type : IndexType} (h : I s) (hn : n.count rows type) :
    I (s.setPool (s.pool.addCompactionStats cfg rows type))
  used {s : State} {t slot : ℕ} (h : I s) (ht : s.reserved t = some slot) :
    (s.pool.seg slot).inUsed = true
  /-- A replacement has what it needs whatever is written into a reserved slot. -/
  stable {s : State} {t slot : ℕ} {olds : List ℕ} {x : FlushedSegment} (h : I s)
    (ht : s.reserved t = some slot) (hr : x.refCount = (s.pool.seg slot).refCount)
    (hn : n.replace s.pool olds) : n.replace (s.pool.setSeg slot x) olds

namespace Pieces

variable {n : Needs} {I : State → Prop}

theorem goto (p : Pieces cfg n I) (h : I s) {pc : Pc} (hr : pc.reserved = s.reserved t) :
    I (s.goto t pc) :=
  p.quiet h (.goto hr)

theorem reserveOr (p : Pieces cfg n I) (h : I s) {pc : ℕ → Pc} {full : State}
    (ht : s.reserved t = none) (hpc : ∀ slot, (pc slot).reserved = some slot) (hfull : I full) :
    I (s.reserve t pc full) := by
  unfold State.reserve
  split
  next => exact hfull
  next idx pool hres => exact p.reserve (pc idx) h ht hres (hpc idx)

/-- An upgrade reserves, fills and installs its slot in one section. -/
theorem upgrade (p : Pieces cfg n I) (h : I s) {pool : FlushedSegmentPool} {idx : ℕ}
    (ht : s.reserved t = none) (hres : s.pool.reserve = some (idx, pool)) {m : SegmentMetadata}
    (hn : n.replace pool [g]) :
    I (((s.setPool (pool.setSeg idx ((pool.seg idx).fill m))).setRetired
      (Function.update s.retired idx false)).replace cfg t [g] idx) := by
  have h₁ := p.reserve (.adoptDiscard idx) h ht hres rfl
  have ht₁ : State.reserved (((s.setPool pool).setRetired
      (Function.update s.retired idx false)).goto t (.adoptDiscard idx)) t = some idx := by
    rw [reserved_goto, Function.update_self]
    rfl
  have h₂ := p.write (x := (pool.seg idx).fill m) h₁ ht₁ (p.used h₁ ht₁) rfl
  have h₃ := p.replace h₂ ht₁ (p.stable h₁ ht₁ rfl hn)
  have heq (s₀ : State) (pc : Pc) : (s₀.goto t pc).replace cfg t [g] idx =
      s₀.replace cfg t [g] idx := by
    simp [State.replace, State.goto, State.setPool, State.setRetired]
  exact heq _ _ ▸ h₃

theorem runStep (p : Pieces cfg n I) {m : Option SegmentMetadata} (h : I s)
    (hm : n.Met s (.run t m)) (hs : runStep cfg s t m = some s') : I s' := by
  unfold Pool.runStep at hs
  unfold Needs.Met at hm
  cases hpc : s.pc t with
  | idle =>
      rw [hpc] at hs
      cases hs
  | regularReserve lo hi =>
      simp only [hpc] at hs
      split at hs
      · cases hs
      · obtain rfl := Option.some.inj hs
        exact p.reserveOr h (reserved_eq hpc) (fun _ => rfl) h
  | regularLoad slot lo hi =>
      have hr := reserved_eq hpc
      simp only [hpc] at hs
      split at hs
      · obtain rfl := Option.some.inj hs
        exact p.goto (p.write h hr (inUsed_load _ _ (p.used h hr)) (refCount_load _ _)) hr.symm
      · cases hs
  | regularRegister slot =>
      simp only [hpc] at hs
      obtain rfl := Option.some.inj hs
      exact p.register h (reserved_eq hpc)
  | adoptReserve a =>
      simp only [hpc] at hs
      obtain rfl := Option.some.inj hs
      exact p.reserveOr h (reserved_eq hpc) (fun _ => rfl) (p.goto h (reserved_eq hpc).symm)
  | adoptLoad a slot =>
      have hr := reserved_eq hpc
      simp only [hpc] at hs
      split at hs
      · obtain rfl := Option.some.inj hs
        refine p.goto (p.write h hr ?_ ?_) hr.symm
        · exact inUsed_load _ _ (p.used h hr)
        · exact refCount_load _ _
      · cases hs
  | adoptDecide a slot retry =>
      have hr := reserved_eq hpc
      simp only [hpc] at hs
      split at hs
      · obtain rfl := Option.some.inj hs
        exact p.goto h hr.symm
      · split at hs <;>
          · obtain rfl := Option.some.inj hs
            exact p.goto h hr.symm
  | adoptValidate a slot retry kind snaps =>
      have hr := reserved_eq hpc
      simp only [hpc] at hs
      split at hs <;>
        · obtain rfl := Option.some.inj hs
          exact p.goto h hr.symm
  | adoptInstall slot kind snaps =>
      have hr := reserved_eq hpc
      simp only [hpc] at hs hm
      cases kind with
      | append =>
          obtain rfl := Option.some.inj hs
          exact p.register h hr
      | exact | stale | tile =>
          obtain rfl := Option.some.inj hs
          exact p.replace h hr hm
  | adoptDiscard slot =>
      simp only [hpc] at hs
      obtain rfl := Option.some.inj hs
      exact p.discard h (reserved_eq hpc)
  | submitUpgrades =>
      simp only [hpc] at hs
      obtain rfl := Option.some.inj hs
      refine p.goto (s := s.setUpgrades _) ?_ (reserved_eq hpc).symm
      exact p.quiet h (.of_pool_eq rfl rfl rfl rfl rfl)
  | upgrade u =>
      have hr := reserved_eq hpc
      simp only [hpc] at hs hm
      cases m with
      | none =>
          obtain rfl := Option.some.inj hs
          exact p.goto h hr.symm
      | some m =>
          dsimp only at hs
          split at hs
          next hu =>
            split at hs
            next =>
              obtain rfl := Option.some.inj hs
              exact p.goto h hr.symm
            next idx pool hres =>
              obtain rfl := Option.some.inj hs
              exact p.upgrade h hr hres (hm (by simp) hu idx pool hres)
          next =>
            obtain rfl := Option.some.inj hs
            exact p.goto h hr.symm
  | gate q =>
      have hr := reserved_eq hpc
      simp only [hpc] at hs
      split_ifs at hs <;>
        · obtain rfl := Option.some.inj hs
          exact p.goto h hr.symm
  | traverse q firstPass =>
      have hr := reserved_eq hpc
      simp only [hpc] at hs
      split at hs <;>
        · obtain rfl := Option.some.inj hs
          exact p.goto h hr.symm
  | claim q idx0 idx1 =>
      have hr := reserved_eq hpc
      simp only [hpc] at hs
      split at hs
      next =>
        obtain rfl := Option.some.inj hs
        exact p.goto h hr.symm
      next pool task hc =>
        obtain rfl := Option.some.inj hs
        exact p.goto (p.quiet h (.claim hc)) hr.symm
  | build task =>
      have hr := reserved_eq hpc
      simp only [hpc] at hs
      cases m <;>
        · obtain rfl := Option.some.inj hs
          exact p.goto h hr.symm
  | compactReserve task lo hi =>
      simp only [hpc] at hs
      obtain rfl := Option.some.inj hs
      exact p.reserveOr h (reserved_eq hpc) (fun _ => rfl) (p.goto h (reserved_eq hpc).symm)
  | compactInstall task lo hi slot =>
      have hr := reserved_eq hpc
      simp only [hpc] at hs hm
      cases m with
      | none => cases hs
      | some m =>
          obtain rfl := Option.some.inj hs
          have hw := p.write (x := (s.pool.seg slot).fill { m with startSid := lo, endSid := hi })
            h hr (p.used h hr) rfl
          exact p.count (p.replace hw hr (p.stable h hr rfl hm.1)) (hm.2 m rfl)
  | abort task =>
      simp only [hpc] at hs
      obtain rfl := Option.some.inj hs
      exact p.goto (p.quiet h (.abort task.olds)) (reserved_eq hpc).symm

theorem step (p : Pieces cfg n I) {a : Action} (h : I s) (hm : n.Met s a)
    (hs : step cfg s a = some s') : I s' := by
  cases a with
  | regular t lo hi =>
      dsimp only [Pool.step] at hs
      split_ifs at hs with h₁ h₂
      · obtain rfl := Option.some.inj hs
        exact h
      · obtain rfl := Option.some.inj hs
        exact p.goto h (reserved_eq h₁.1).symm
  | adopt t a =>
      dsimp only [Pool.step] at hs
      split_ifs at hs with h₁
      obtain rfl := Option.some.inj hs
      exact p.goto h (reserved_eq h₁.1).symm
  | takeUpgrade t =>
      dsimp only [Pool.step] at hs
      split at hs
      · cases hs
      · split_ifs at hs with h₁
        obtain rfl := Option.some.inj hs
        refine p.goto (s := s.setUpgrades _) ?_ (reserved_eq h₁).symm
        exact p.quiet h (.of_pool_eq rfl rfl rfl rfl rfl)
  | scan t =>
      dsimp only [Pool.step] at hs
      split_ifs at hs with h₁
      obtain rfl := Option.some.inj hs
      exact p.goto h (reserved_eq h₁).symm
  | run t m => exact p.runStep h hm hs
  | search =>
      obtain rfl := Option.some.inj hs
      exact p.acquire h fun g hg => (List.mem_filter.mp hg).1
  | pin lo hi =>
      dsimp only [Pool.step] at hs
      split at hs
      next =>
        obtain rfl := Option.some.inj hs
        exact h
      next g hg =>
        obtain rfl := Option.some.inj hs
        refine p.acquire h fun a ha => ?_
        obtain rfl := List.mem_singleton.mp ha
        exact List.mem_of_find?_eq_some hg
  | drop g =>
      dsimp only [Pool.step] at hs
      split_ifs at hs with hheld
      obtain rfl := Option.some.inj hs
      exact p.drop h hheld
  | check g lockFree =>
      dsimp only [Pool.step] at hs
      split at hs
      · split at hs
        next hz =>
          obtain rfl := Option.some.inj hs
          obtain ⟨hg, hn⟩ := hm hz
          exact p.cleanup h hz hg hn
        next hz =>
          obtain rfl := Option.some.inj hs
          exact p.keep h hz
      · cases hs

/-- A file that is loaded is reserved, written and linked. -/
theorem loadOne (p : Pieces cfg n I) (h : I s) (hpc : s.pc = fun _ => .idle)
    (hret : s.retired = fun _ => false) (useMmap : Bool) (m : SegmentMetadata) :
    I (s.setPool (s.pool.loadOne cfg useMmap m)) := by
  unfold FlushedSegmentPool.loadOne
  split
  next => exact h
  next idx pool hres =>
    have ht : s.reserved 0 = none := congrArg Pc.reserved (congrFun hpc 0)
    have h₁ := p.reserve (.regularRegister idx) h ht hres rfl
    have ht₁ : State.reserved (((s.setPool pool).setRetired
        (Function.update s.retired idx false)).goto 0 (.regularRegister idx)) 0 = some idx := by
      rw [reserved_goto, Function.update_self]
      rfl
    have h₂ := p.write (x := (pool.seg idx).load (some m) useMmap) h₁ ht₁ rfl rfl
    have h₃ := p.register (t := 0) h₂ ht₁
    have hpc' : Function.update s.pc 0 .idle = s.pc := by
      rw [hpc, Function.update_eq_self_iff]
    have hret' : Function.update s.retired idx false = s.retired := by
      rw [hret, Function.update_eq_self_iff]
    have heq (pool' : FlushedSegmentPool) : ((((s.setPool pool).setRetired
        (Function.update s.retired idx false)).goto 0 (.regularRegister idx)).setPool
          pool').register cfg 0 idx = s.setPool (pool'.register cfg idx) := by
      simp [State.register, State.goto, State.setPool, State.setRetired, hpc', hret']
    exact heq _ ▸ h₃

/-- The state before anything has been loaded. -/
def empty : State where
  pool := .initial
  pc := fun _ => .idle
  upgrades := []
  held := fun _ => 0
  dropping := fun _ => 0
  retired := fun _ => false

theorem start (p : Pieces cfg n I) (h₀ : I empty) (h : Start cfg s) : I s := by
  obtain ⟨files, useMmap, -, -, hpool, hpc, -, hheld, hdropping, hret⟩ := h
  have key (files : List SegmentMetadata) (s₀ : State) (hs : I s₀)
      (hpc : s₀.pc = fun _ => .idle) (hret : s₀.retired = fun _ => false) :
      I (s₀.setPool (files.foldl (fun pool m => pool.loadOne cfg useMmap m) s₀.pool)) := by
    induction files generalizing s₀ with
    | nil => exact hs
    | cons m files ih => exact ih _ (p.loadOne hs hpc hret useMmap m) hpc hret
  refine p.quiet (key files empty h₀ rfl rfl) (.of_pool_eq hpool ?_ hheld hdropping hret)
  funext t
  rw [State.reserved, hpc]
  rcases eq_or_ne t 0 with rfl | ht
  · cases useMmap <;> rfl
  · simp [ht, State.reserved, Pc.reserved, empty]

/-- What holds of an empty pool and the pieces preserve holds in every run that gives them what
they need. -/
theorem reachable (p : Pieces cfg n I) (h₀ : I empty)
    (h : Reachable (Start cfg) (Pool.step cfg) n.Met s) : I s :=
  h.invariant (fun _ hs => p.start h₀ hs) fun _ _ _ _ hi hm hs => p.step hi hm hs

end Pieces

/-! ## What the pieces do to the slots -/

/-- Every slot is on the list, free, reserved, or kept by references. -/
def State.Kept (s : State) : Prop :=
  Pool.Kept s.pool s.reserved s.held s.retired s.pool.members

/-- A replacement takes the place of a run of the list. -/
def onList : Needs where
  replace pool olds := olds ≠ [] ∧ olds <:+: pool.members
  cleanup _ _ _ := True
  count _ _ := True

namespace State.Kept

theorem of_list {l : List ℕ} (h : Pool.Kept s.pool s.reserved s.held s.retired l) : s.Kept := by
  unfold State.Kept
  rwa [h.members]

theorem empty : State.Kept Pieces.empty := by
  have hres : State.reserved Pieces.empty = fun _ => none := rfl
  refine of_list (l := []) ?_
  rw [hres]
  exact inv_initial.kept

theorem quiet (h : s.Kept) (hq : Quiet s s') : s'.Kept := by
  unfold State.Kept
  rw [hq.members, hq.reserved, hq.held, hq.retired]
  refine h.congr (fun g => ?_) (fun g => ?_) (h.linked.congr (fun g _ => ?_) (fun g _ => ?_)
    hq.headIdx hq.tailIdx)
  · obtain ⟨b, hb⟩ := hq.seg g
    rw [hb]
  · obtain ⟨b, hb⟩ := hq.seg g
    rw [hb]
  · rw [hq.next]
  · rw [hq.prev]

theorem reserve {pool : FlushedSegmentPool} {pc : Pc} (h : s.Kept) (ht : s.reserved t = none)
    (hres : s.pool.reserve = some (slot, pool)) (hpc : pc.reserved = some slot) :
    (((s.setPool pool).setRetired (Function.update s.retired slot false)).goto t pc).Kept := by
  refine of_list (l := s.pool.members) ?_
  rw [reserved_goto, hpc]
  exact Pool.Kept.reserve h ht hres

theorem members_reserve {pool : FlushedSegmentPool} (h : s.Kept) (ht : s.reserved t = none)
    (hres : s.pool.reserve = some (slot, pool)) : pool.members = s.pool.members :=
  (Pool.Kept.reserve h ht hres).members

theorem write {x : FlushedSegment} (h : s.Kept) (ht : s.reserved t = some slot)
    (hu : x.inUsed = true) (hr : x.refCount = (s.pool.seg slot).refCount) :
    (s.setPool (s.pool.setSeg slot x)).Kept :=
  of_list (l := s.pool.members) (Pool.Kept.write h ht hu hr)

theorem members_write (h : s.Kept) (ht : s.reserved t = some slot) (x : FlushedSegment) :
    (s.pool.setSeg slot x).members = s.pool.members :=
  (h.linked.setSeg (h.resOutside t slot ht) x).members

theorem register (cfg : PoolConfig) (h : s.Kept) (ht : s.reserved t = some slot) :
    (s.register cfg t slot).Kept ∧ ∃ xs ys, s.pool.members = xs ++ ys ∧
      (s.register cfg t slot).pool.members = xs ++ slot :: ys := by
  obtain ⟨xs, ys, hl, h'⟩ := Pool.Kept.register cfg h ht
  refine ⟨of_list (l := xs ++ slot :: ys) ?_, xs, ys, hl, h'.members⟩
  rw [State.register, reserved_goto]
  exact h'

theorem replace (cfg : PoolConfig) (h : s.Kept) (ht : s.reserved t = some slot) (hne : olds ≠ [])
    (ho : olds <:+: s.pool.members) :
    (s.replace cfg t olds slot).Kept ∧ ∃ xs ys, s.pool.members = xs ++ olds ++ ys ∧
      (s.replace cfg t olds slot).pool.members = xs ++ slot :: ys := by
  obtain ⟨xs, ys, hl⟩ := ho
  have h' := Pool.Kept.replaceN cfg
    (hl.symm ▸ h : Pool.Kept s.pool s.reserved s.held s.retired (xs ++ olds ++ ys)) ht hne
  refine ⟨of_list (l := xs ++ slot :: ys) ?_, xs, ys, hl.symm, h'.members⟩
  rw [State.replace, reserved_goto]
  exact h'

theorem discard (h : s.Kept) (ht : s.reserved t = some slot) :
    ((s.setPool (s.pool.discard slot)).goto t .idle).Kept ∧
      (s.pool.discard slot).members = s.pool.members := by
  have h' := Pool.Kept.discard h ht
  refine ⟨of_list (l := s.pool.members) ?_, h'.members⟩
  rw [reserved_goto]
  exact h'

theorem acquire (h : s.Kept) (hgs : ∀ g ∈ gs, g ∈ s.pool.membersToTail) :
    (s.acquire gs).Kept ∧ (s.acquire gs).pool.members = s.pool.members := by
  rw [h.linked.membersToTail] at hgs
  have hl : (s.acquire gs).pool.Linked s.pool.members :=
    h.linked.congr (fun _ _ => rfl) (fun _ _ => rfl) rfl rfl
  refine ⟨of_list (l := s.pool.members) (Pool.Kept.setRefs h (fun _ => rfl) hl ?_ ?_), hl.members⟩
  · intro g
    change (s.pool.seg g).refCount + gs.count g - (s.held g + gs.count g : ℕ) =
      (s.pool.seg g).refCount - s.held g
    lia
  · intro g hg hz
    have : gs.count g = 0 := List.count_eq_zero.mpr fun hm => hg (hgs g hm)
    simp [State.acquire, hz, this]

theorem drop (h : s.Kept) (hg : 0 < s.held g) :
    (((s.setPool (s.pool.setSeg g
      ((s.pool.seg g).setRef ((s.pool.seg g).refCount - 1)))).setHeld
        (Function.update s.held g (s.held g - 1))).setDropping
        (Function.update s.dropping g (s.dropping g + 1))).Kept ∧
      (s.pool.setSeg g ((s.pool.seg g).setRef ((s.pool.seg g).refCount - 1))).members =
        s.pool.members := by
  have hl : (s.pool.setSeg g ((s.pool.seg g).setRef ((s.pool.seg g).refCount - 1))).Linked
      s.pool.members := h.linked.setSeg_links _ rfl rfl
  refine ⟨of_list (l := s.pool.members) (Pool.Kept.setRefs h ?_ hl ?_ ?_), hl.members⟩ <;>
    intro a <;> by_cases ha : a = g <;> simp [ha]
  · lia
  · intro _ hz
    simp [hz]

theorem cleanup (h : s.Kept) (hz : (s.pool.seg g).refCount = 0)
    (hg : ∀ t, s.reserved t ≠ some g) (lockFree : Bool) :
    ((s.setDropping (Function.update s.dropping g (s.dropping g - 1))).setPool
      (if lockFree then (s.pool.cleanup g).rewind g else s.pool.cleanup g)).Kept ∧
      (if lockFree then (s.pool.cleanup g).rewind g else s.pool.cleanup g).members =
        s.pool.members := by
  have hc := Pool.Kept.cleanup h hz hg
  suffices h' : Pool.Kept (if lockFree then (s.pool.cleanup g).rewind g else s.pool.cleanup g)
      s.reserved s.held s.retired s.pool.members from ⟨of_list h', h'.members⟩
  cases lockFree with
  | false => exact hc
  | true =>
      refine hc.congr ?_ ?_ (hc.linked.congr ?_ ?_ ?_ ?_) <;> simp [next, prev]

theorem count (h : s.Kept) (rows : ℕ) (type : IndexType) :
    (s.setPool (s.pool.addCompactionStats cfg rows type)).Kept := by
  have hl : (s.pool.addCompactionStats cfg rows type).Linked s.pool.members :=
    h.linked.congr (fun _ _ => rfl) (fun _ _ => rfl) rfl rfl
  exact of_list (Pool.Kept.congr h (fun _ => rfl) (fun _ => rfl) hl)

theorem pieces (cfg : PoolConfig) : Pieces cfg onList State.Kept where
  quiet := quiet
  reserve _ := reserve
  write := write
  register h ht := (h.register cfg ht).1
  replace h ht hn := (h.replace cfg ht hn.1 hn.2).1
  discard h ht := (h.discard ht).1
  acquire h hgs := (h.acquire hgs).1
  drop h hg := (h.drop hg).1
  keep h _ := h
  cleanup h hz hg _ := (h.cleanup hz hg _).1
  count h _ := h.count _ _
  used h ht := h.resUsed _ _ ht
  stable h ht _ hn := ⟨hn.1, by rw [h.members_write ht]; exact hn.2⟩

end State.Kept

end VectorLsm.Pool
