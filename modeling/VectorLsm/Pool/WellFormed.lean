import VectorLsm.Pool.Invariant

/-! # Well-formed pools

The list of the pool stays consistent, ascending and disjoint in every run in which a segment
is linked only where it fits and no clean-up meets a slot reserved again.
-/

namespace VectorLsm.Pool

open FlushedSegmentPool Transition

variable {cfg : PoolConfig} {s s' : State} {t slot g : ℕ}

/-- The pool is a consistent doubly linked list of slots in service, ascending by their first
segment id, with pairwise disjoint ranges. -/
def WellFormed (s : State) : Prop :=
  ∃ l : List ℕ, s.pool.Linked l ∧
    (∀ g ∈ l, (s.pool.seg g).inUsed = true ∧ s.retired g = false) ∧
    l.Pairwise (fun a b => (s.pool.seg a).segmentIdStart < (s.pool.seg b).segmentIdStart) ∧
    l.Pairwise fun a b => ¬ (s.pool.seg a).Overlaps (s.pool.seg b)

/-- The slots reserved in a state. -/
def State.reserved (s : State) (t : ℕ) : Option ℕ := (s.pc t).reserved

/-- The invariant holds of the state for some list. -/
def Sound (s : State) : Prop := ∃ l, Inv s.pool s.reserved s.held s.retired l

theorem Sound.wellFormed (h : Sound s) : WellFormed s := by
  obtain ⟨l, h⟩ := h
  refine ⟨l, h.linked, fun g hg => ⟨h.used g hg, h.live g hg⟩, ?_, ?_⟩
  · refine h.sorted.imp_of_mem fun {a b} ha _ hab => ?_
    have := h.nonempty a ha
    lia
  · refine h.sorted.imp fun {a b} hab => ?_
    rintro ⟨-, hba⟩
    lia

theorem reserved_goto (pc : Pc) :
    (s.goto t pc).reserved = Function.update s.reserved t pc.reserved := by
  funext u
  rcases eq_or_ne u t with rfl | hu
  · simp [State.reserved]
  · simp [State.reserved, hu]

theorem inUsed_load {seg : FlushedSegment} (m : Option SegmentMetadata) (b : Bool)
    (h : seg.inUsed = true) : (seg.load m b).inUsed = true := by
  cases m with
  | none => exact h
  | some m => rfl

theorem refCount_load {seg : FlushedSegment} (m : Option SegmentMetadata) (b : Bool) :
    (seg.load m b).refCount = seg.refCount := by
  cases m <;> rfl

namespace Sound

theorem goto (h : Sound s) {pc : Pc} (hr : pc.reserved = none ∨ pc.reserved = s.reserved t) :
    Sound (s.goto t pc) := by
  obtain ⟨l, h⟩ := h
  refine ⟨l, ?_⟩
  rw [reserved_goto]
  exact h.setReserved hr

theorem reserve (h : Sound s) {pc : ℕ → Pc} {full : State} (ht : s.reserved t = none)
    (hpc : ∀ slot, (pc slot).reserved = some slot) (hfull : Sound full) :
    Sound (s.reserve t pc full) := by
  unfold State.reserve
  split
  next => exact hfull
  next idx pool hres =>
      obtain ⟨l, h⟩ := h
      refine ⟨l, ?_⟩
      rw [reserved_goto, hpc]
      exact h.reserve ht hres

theorem write (h : Sound s) (ht : s.reserved t = some slot) {x : FlushedSegment}
    (hu : x.inUsed = true) (hr : x.refCount = (s.pool.seg slot).refCount) :
    Sound (s.setPool (s.pool.setSeg slot x)) := by
  obtain ⟨l, h⟩ := h
  exact ⟨l, h.write ht hu hr⟩

/-- What a reserved slot holds does not matter to the place of a range in the list. -/
theorem fits_write (h : Sound s) (ht : s.reserved t = some slot) {olds : List ℕ}
    {lo hi : SegmentId} (hf : Fits s.pool olds lo hi) (x : FlushedSegment) :
    Fits (s.pool.setSeg slot x) olds lo hi := by
  obtain ⟨l, h⟩ := h
  have hout := h.resOutside t slot ht
  have hm : (s.pool.setSeg slot x).members = l := (h.linked.setSeg hout x).members
  have hseg : ∀ g ∈ l, (s.pool.setSeg slot x).seg g = s.pool.seg g := by
    intro g hg
    simp [ne_of_mem_of_not_mem hg hout]
  obtain ⟨hlo, hinf, hmeet, hd⟩ := hf
  rw [h.members] at hinf hd
  unfold Fits
  rw [hm]
  refine ⟨hlo, hinf, ?_, ?_⟩
  · rcases hmeet with rfl | ⟨g, hg, hmeet⟩
    · exact Or.inl rfl
    · refine Or.inr ⟨g, hg, ?_⟩
      rwa [hseg g (hinf.subset hg)]
  · intro g hg hgo
    rw [hseg g hg]
    exact hd g hg hgo

theorem inUsed (h : Sound s) (ht : s.reserved t = some slot) :
    (s.pool.seg slot).inUsed = true := by
  obtain ⟨l, h⟩ := h
  exact h.resUsed t slot ht

theorem register (h : Sound s) (ht : s.reserved t = some slot)
    (hf : Fits s.pool [] (s.pool.seg slot).segmentIdStart (s.pool.seg slot).segmentIdEnd) :
    Sound (s.register cfg t slot) := by
  obtain ⟨l, h⟩ := h
  obtain ⟨l', h', -⟩ := h.register cfg ht hf
  refine ⟨l', ?_⟩
  rw [State.register, reserved_goto]
  exact h'

theorem replace (h : Sound s) (ht : s.reserved t = some slot) {olds : List ℕ}
    (hf : Fits s.pool olds (s.pool.seg slot).segmentIdStart (s.pool.seg slot).segmentIdEnd) :
    Sound (s.replace cfg t olds slot) := by
  obtain ⟨l, h⟩ := h
  rcases eq_or_ne olds [] with rfl | hne
  · refine ⟨l, ?_⟩
    have hret : (fun g => if g ∈ ([] : List ℕ) then true else s.retired g) = s.retired := by
      simp
    rw [State.replace, reserved_goto, hret]
    exact h.setReserved (Or.inl rfl)
  · obtain ⟨l', h'⟩ := h.replaceN cfg ht hne hf
    refine ⟨l', ?_⟩
    rw [State.replace, reserved_goto]
    exact h'

theorem discard (h : Sound s) (ht : s.reserved t = some slot) :
    Sound ((s.setPool (s.pool.discard slot)).goto t .idle) := by
  obtain ⟨l, h⟩ := h
  refine ⟨l, ?_⟩
  rw [reserved_goto]
  exact h.discard ht

theorem setCompacting (h : Sound s) (b : Bool) :
    Sound (s.setPool (s.pool.setCompacting g b)) := by
  obtain ⟨l, h⟩ := h
  refine ⟨l, h.congr ?_ ?_ ?_ ?_ (h.linked.setSeg_links _ rfl rfl)⟩ <;> intro a <;>
    by_cases ha : a = g <;> simp [FlushedSegmentPool.setCompacting, ha]

theorem setStats (h : Sound s) (n : ℕ) (type : IndexType) :
    Sound (s.setPool (s.pool.addCompactionStats cfg n type)) := by
  obtain ⟨l, h⟩ := h
  exact ⟨l, h.congr (fun _ => rfl) (fun _ => rfl) (fun _ => rfl) (fun _ => rfl)
    (h.linked.congr (fun _ _ => rfl) (fun _ _ => rfl) rfl rfl)⟩

theorem abort (h : Sound s) (olds : List ℕ) :
    Sound (s.setPool (olds.foldl (fun pool g => pool.setCompacting g false) s.pool)) := by
  induction olds generalizing s with
  | nil => exact h
  | cons g olds ih => exact ih (h.setCompacting (g := g) false)

theorem claim (h : Sound s) {type : CompactionType} {idx0 : ℕ} {idx1 : Option ℕ}
    {pool : FlushedSegmentPool} {task : MergeTask}
    (hc : s.pool.claimTask type idx0 idx1 = some (pool, task)) : Sound (s.setPool pool) := by
  unfold claimTask at hc
  split at hc
  · cases hc
  · split at hc
    · cases hc
    · split at hc
      · cases hc
      · obtain ⟨rfl, -⟩ := Prod.mk.injEq .. ▸ Option.some.inj hc
        exact (h.setCompacting true).setCompacting true
    · obtain ⟨rfl, -⟩ := Prod.mk.injEq .. ▸ Option.some.inj hc
      exact h.setCompacting true

theorem acquire (h : Sound s) {gs : List ℕ} (hgs : ∀ g ∈ gs, g ∈ s.pool.membersToTail) :
    Sound (s.acquire gs) := by
  obtain ⟨l, h⟩ := h
  rw [h.linked.membersToTail] at hgs
  refine ⟨l, h.setRefs (fun _ => rfl) (fun _ => rfl) (fun _ => rfl) ?_ ?_ ?_⟩
  · exact h.linked.congr (fun _ _ => rfl) (fun _ _ => rfl) rfl rfl
  · intro g
    change (s.pool.seg g).refCount + gs.count g - (s.held g + gs.count g : ℕ) =
      (s.pool.seg g).refCount - s.held g
    lia
  · intro g hg hz
    have : gs.count g = 0 := List.count_eq_zero.mpr fun hm => hg (hgs g hm)
    simp [State.acquire, hz, this]

theorem drop (h : Sound s) (hg : 0 < s.held g) :
    Sound (((s.setPool (s.pool.setSeg g
      ((s.pool.seg g).setRef ((s.pool.seg g).refCount - 1)))).setHeld
        (Function.update s.held g (s.held g - 1))).setDropping
        (Function.update s.dropping g (s.dropping g + 1))) := by
  obtain ⟨l, h⟩ := h
  refine ⟨l, h.setRefs ?_ ?_ ?_ (h.linked.setSeg_links _ rfl rfl) ?_ ?_⟩ <;> intro a <;>
    by_cases ha : a = g <;> simp [ha]
  · lia
  · intro _ hz
    simp [hz]

theorem check (h : Sound s) (hz : (s.pool.seg g).refCount = 0)
    (hg : ∀ t, (s.pc t).reserved ≠ some g) (lockFree : Bool) :
    Sound ((s.setDropping (Function.update s.dropping g (s.dropping g - 1))).setPool
      (if lockFree then (s.pool.cleanup g).rewind g else s.pool.cleanup g)) := by
  obtain ⟨l, h⟩ := h
  have hc := h.cleanup hz hg
  refine ⟨l, ?_⟩
  cases lockFree with
  | false => exact hc
  | true =>
      refine hc.congr ?_ ?_ ?_ ?_ (hc.linked.congr ?_ ?_ ?_ ?_) <;> simp [next, prev]

/-- An upgrade reserves, fills and installs its slot in one section. -/
theorem upgrade (h : Sound s) {pool : FlushedSegmentPool} {idx : ℕ} (ht : s.reserved t = none)
    (hres : s.pool.reserve = some (idx, pool)) (hg : g ∈ s.pool.members) :
    Sound ((((s.setPool (pool.setSeg idx ((pool.seg idx).fill
      (upgradeMetadata (s.pool.seg g))))).setRetired
        (Function.update s.retired idx false))).replace cfg t [g] idx) := by
  obtain ⟨l, h⟩ := h
  rw [h.members] at hg
  have hfit := h.fits_self hg
  obtain ⟨hfree, -, hpool⟩ := reserve_eq hres
  have h₁ := h.reserve ht hres
  have hgi : g ≠ idx := ne_of_mem_of_not_mem hg (h.not_mem_of_free hfree)
  have htr : Function.update s.reserved t (some idx) t = some idx := by simp
  have h₂ := h₁.write (s := (pool.seg idx).fill (upgradeMetadata (s.pool.seg g))) htr
    (by simpa using h₁.resUsed t idx htr) rfl
  have hsg : pool.seg g = s.pool.seg g := by simp [hpool, hgi]
  obtain ⟨l', h'⟩ := h₂.replaceN cfg htr (List.cons_ne_nil g []) (by
    have := h₂.fits_self hg
    simpa [hgi, hsg, upgradeMetadata] using this)
  refine ⟨l', ?_⟩
  rw [State.replace, reserved_goto]
  rw [Function.update_idem] at h'
  exact h'

end Sound

theorem reserved_eq {pc : Pc} (h : s.pc t = pc) : s.reserved t = pc.reserved :=
  congrArg Pc.reserved h

theorem sound_runStep {m : Option SegmentMetadata} (h : Sound s) (hp : Placed s t m)
    (hs : runStep cfg s t m = some s') : Sound s' := by
  unfold runStep at hs
  unfold Placed at hp
  cases hpc : s.pc t with
  | idle =>
      rw [hpc] at hs
      cases hs
  | regularReserve lo hi =>
      simp only [hpc] at hs
      split at hs
      · cases hs
      · obtain rfl := Option.some.inj hs
        exact h.reserve (reserved_eq hpc) (fun _ => rfl) h
  | regularLoad slot lo hi =>
      simp only [hpc] at hs
      split at hs
      · obtain rfl := Option.some.inj hs
        have hr := reserved_eq hpc
        exact (h.write hr (inUsed_load _ _ (h.inUsed hr)) (refCount_load _ _)).goto (.inr hr.symm)
      · cases hs
  | regularRegister slot =>
      simp only [hpc] at hs hp
      obtain rfl := Option.some.inj hs
      exact h.register (reserved_eq hpc) hp
  | adoptReserve a =>
      simp only [hpc] at hs
      obtain rfl := Option.some.inj hs
      exact h.reserve (reserved_eq hpc) (fun _ => rfl) (h.goto (.inl rfl))
  | adoptLoad a slot =>
      simp only [hpc] at hs
      split at hs
      · obtain rfl := Option.some.inj hs
        have hr := reserved_eq hpc
        refine (h.write hr ?_ ?_).goto (.inr hr.symm)
        · exact inUsed_load _ _ (h.inUsed hr)
        · exact refCount_load _ _
      · cases hs
  | adoptDecide a slot retry =>
      have hr := reserved_eq hpc
      simp only [hpc] at hs
      split at hs
      · obtain rfl := Option.some.inj hs
        exact h.goto (.inr hr.symm)
      · split at hs <;>
          · obtain rfl := Option.some.inj hs
            exact h.goto (.inr hr.symm)
  | adoptValidate a slot retry kind snaps =>
      have hr := reserved_eq hpc
      simp only [hpc] at hs
      split at hs <;>
        · obtain rfl := Option.some.inj hs
          exact h.goto (.inr hr.symm)
  | adoptInstall slot kind snaps =>
      have hr := reserved_eq hpc
      simp only [hpc] at hs hp
      cases kind with
      | append =>
          obtain rfl := Option.some.inj hs
          exact h.register hr hp
      | exact | stale | tile =>
          obtain rfl := Option.some.inj hs
          exact h.replace hr hp
  | adoptDiscard slot =>
      simp only [hpc] at hs
      obtain rfl := Option.some.inj hs
      exact h.discard (reserved_eq hpc)
  | submitUpgrades =>
      simp only [hpc] at hs
      obtain rfl := Option.some.inj hs
      exact Sound.goto (s := s.setUpgrades _) h (.inl rfl)
  | upgrade u =>
      simp only [hpc] at hs hp
      cases m with
      | none =>
          obtain rfl := Option.some.inj hs
          exact h.goto (.inl rfl)
      | some m =>
          dsimp only at hs
          split at hs
          next hu =>
            split at hs
            next =>
              obtain rfl := Option.some.inj hs
              exact h.goto (.inl rfl)
            next idx pool hres =>
              obtain rfl := Option.some.inj hs
              exact h.upgrade (reserved_eq hpc) hres (hp (by simp) hu)
          next =>
            obtain rfl := Option.some.inj hs
            exact h.goto (.inl rfl)
  | gate p =>
      simp only [hpc] at hs
      split_ifs at hs <;>
        · obtain rfl := Option.some.inj hs
          exact h.goto (.inl rfl)
  | traverse p firstPass =>
      simp only [hpc] at hs
      split at hs <;>
        · obtain rfl := Option.some.inj hs
          exact h.goto (.inl rfl)
  | claim p idx0 idx1 =>
      simp only [hpc] at hs
      split at hs
      next =>
        obtain rfl := Option.some.inj hs
        exact h.goto (.inl rfl)
      next pool task hc =>
        obtain rfl := Option.some.inj hs
        exact (h.claim hc).goto (.inl rfl)
  | build task =>
      simp only [hpc] at hs
      cases m <;>
        · obtain rfl := Option.some.inj hs
          exact h.goto (.inl rfl)
  | compactReserve task lo hi =>
      simp only [hpc] at hs
      obtain rfl := Option.some.inj hs
      exact h.reserve (reserved_eq hpc) (fun _ => rfl) (h.goto (.inl rfl))
  | compactInstall task lo hi slot =>
      have hr := reserved_eq hpc
      simp only [hpc] at hs hp
      cases m with
      | none => cases hs
      | some m =>
          obtain rfl := Option.some.inj hs
          have hw := h.write (x := (s.pool.seg slot).fill { m with startSid := lo, endSid := hi })
            hr (h.inUsed hr) rfl
          have hf : Fits (s.pool.setSeg slot ((s.pool.seg slot).fill
              { m with startSid := lo, endSid := hi })) task.olds lo hi := h.fits_write hr hp _
          refine (hw.replace hr ?_).setStats m.validRows m.indexType
          simpa using hf
  | abort task =>
      simp only [hpc] at hs
      obtain rfl := Option.some.inj hs
      exact (h.abort task.olds).goto (.inl rfl)

theorem sound_step {a : Action} (h : Sound s) (hu : Undisturbed s a)
    (hs : step cfg s a = some s') : Sound s' := by
  cases a with
  | regular t lo hi =>
      dsimp only [step] at hs
      split_ifs at hs with h₁ h₂
      · obtain rfl := Option.some.inj hs
        exact h
      · obtain rfl := Option.some.inj hs
        exact h.goto (.inl rfl)
  | adopt t a =>
      dsimp only [step] at hs
      split_ifs at hs
      obtain rfl := Option.some.inj hs
      exact h.goto (.inl rfl)
  | takeUpgrade t =>
      dsimp only [step] at hs
      split at hs
      · cases hs
      · split_ifs at hs
        obtain rfl := Option.some.inj hs
        exact Sound.goto (s := s.setUpgrades _) h (.inl rfl)
  | scan t =>
      dsimp only [step] at hs
      split_ifs at hs
      obtain rfl := Option.some.inj hs
      exact h.goto (.inl rfl)
  | run t m => exact sound_runStep h hu hs
  | search =>
      obtain rfl := Option.some.inj hs
      exact h.acquire fun g hg => (List.mem_filter.mp hg).1
  | pin lo hi =>
      dsimp only [step] at hs
      split at hs
      next =>
        obtain rfl := Option.some.inj hs
        exact h
      next g hg =>
        obtain rfl := Option.some.inj hs
        refine h.acquire fun a ha => ?_
        obtain rfl := List.mem_singleton.mp ha
        exact List.mem_of_find?_eq_some hg
  | drop g =>
      dsimp only [step] at hs
      split_ifs at hs with hheld
      obtain rfl := Option.some.inj hs
      exact h.drop hheld
  | check g lockFree =>
      dsimp only [step] at hs
      split at hs
      · split at hs
        next hz =>
          obtain rfl := Option.some.inj hs
          exact h.check hz (hu hz) lockFree
        next =>
          obtain rfl := Option.some.inj hs
          exact h
      · cases hs

section Load

theorem inv_initial : Inv .initial (fun _ => none) (fun _ => 0) (fun _ => false) [] where
  linked := .initial
  used := by simp
  nonempty := by simp
  sorted := .nil
  live := by simp
  counts := fun _ => by simp [FlushedSegmentPool.seg, FlushedSegmentPool.initial,
    FlushedSegment.initial]
  free := fun _ _ => rfl
  resUsed := by simp
  resOutside := by simp
  resUnheld := by simp
  resLive := by simp
  resBound := by simp
  distinct := by simp

variable {pool : FlushedSegmentPool} {l : List ℕ}

/-- Loading a file behind all members keeps the invariant. -/
theorem inv_loadOne (cfg : PoolConfig) (useMmap : Bool) {m : SegmentMetadata}
    (h : Inv pool (fun _ => none) (fun _ => 0) (fun _ => false) l)
    (hl : ∀ g ∈ l, (pool.seg g).segmentIdEnd < m.startSid) (hm : m.startSid ≤ m.endSid) :
    ∃ l', Inv (pool.loadOne cfg useMmap m) (fun _ => none) (fun _ => 0) (fun _ => false) l' ∧
      ∀ g ∈ l', ((pool.loadOne cfg useMmap m).seg g).segmentIdEnd ≤ m.endSid := by
  unfold loadOne
  split
  next => exact ⟨l, h, fun g hg => ((hl g hg).trans_le hm).le⟩
  next idx pool' hres =>
      obtain ⟨hfree, -, hpool⟩ := reserve_eq hres
      have hr := h.reserve (t := 0) rfl hres
      have htr : Function.update (fun _ : ℕ => none) 0 (some idx) 0 = some idx := by simp
      have hw := hr.write (s := (pool'.seg idx).load (some m) useMmap) htr rfl rfl
      have hne : ∀ g ∈ l, g ≠ idx := fun g hg =>
        ne_of_mem_of_not_mem hg (h.not_mem_of_free hfree)
      have hseg : ∀ g ∈ l, (pool'.seg g) = pool.seg g := by
        intro g hg
        simp [hpool, hne g hg]
      obtain ⟨l', h', hl'⟩ := hw.register cfg htr (by
        refine ⟨by simpa [FlushedSegment.load] using hm, List.nil_infix, Or.inl rfl, ?_⟩
        intro g hg _
        rw [hw.members] at hg
        right
        simpa [hne g hg, hseg g hg, FlushedSegment.load] using hl g hg)
      refine ⟨l', ?_, ?_⟩
      · rw [Function.update_idem] at h'
        simpa [Function.update_eq_self_iff] using h'
      · intro g hg
        rw [register_segmentIdEnd]
        rcases hl' g hg with rfl | hg
        · simp [FlushedSegment.load]
        · simpa [hne g hg, hseg g hg] using ((hl g hg).trans_le hm).le

theorem inv_loadAll (cfg : PoolConfig) (useMmap : Bool) {files : List SegmentMetadata}
    (h : Inv pool (fun _ => none) (fun _ => 0) (fun _ => false) l)
    (hl : ∀ g ∈ l, ∀ m ∈ files, (pool.seg g).segmentIdEnd < m.startSid)
    (hf : files.Pairwise fun a b => a.endSid < b.startSid)
    (hm : ∀ m ∈ files, m.startSid ≤ m.endSid) :
    ∃ l', Inv (files.foldl (fun pool m => pool.loadOne cfg useMmap m) pool) (fun _ => none)
      (fun _ => 0) (fun _ => false) l' := by
  induction files generalizing pool l with
  | nil => exact ⟨l, h⟩
  | cons m files ih =>
      obtain ⟨hmf, hf⟩ := List.pairwise_cons.mp hf
      obtain ⟨l', h', hl'⟩ := inv_loadOne cfg useMmap h
        (fun g hg => hl g hg m List.mem_cons_self) (hm m List.mem_cons_self)
      refine ih h' ?_ hf fun m' hm' => hm m' (List.mem_cons_of_mem m hm')
      intro g hg m' hm'
      exact (hl' g hg).trans_lt (hmf m' hm')

theorem sound_of_start (h : Start cfg s) : Sound s := by
  obtain ⟨files, useMmap, hf, hm, hpool, hpc, -, hheld, -, hret⟩ := h
  obtain ⟨l, h⟩ := inv_loadAll cfg useMmap inv_initial (by simp) hf hm
  refine ⟨l, ?_⟩
  have hres : s.reserved = fun _ => none := by
    funext t
    rw [State.reserved, hpc]
    rcases eq_or_ne t 0 with rfl | ht
    · cases useMmap <;> rfl
    · simp [ht, Pc.reserved]
  rw [hpool, hres, hheld, hret]
  exact h

end Load

/-- Every reachable state of runs that meet the condition satisfies the invariant. -/
theorem sound_of_reachable
    (h : Reachable (Start cfg) (step cfg) (fun s a => Undisturbed s a) s) : Sound s :=
  h.invariant (fun _ => sound_of_start) fun _ _ _ _ hi hu hs => sound_step hi hu hs

section Demo

def demoConfig : PoolConfig where
  memtableCapacity := 10
  overDeleted := fun _ _ => false

/-- The file of a range with five rows, all versions alike. -/
def demoFile (lo hi : SegmentId) : SegmentMetadata := ⟨lo, hi, 5, .hnsw, 1, 0⟩

/-- The segments 4 and 5 have just been loaded. -/
def demoStart : State where
  pool := .loadAll demoConfig false [demoFile 4 4, demoFile 5 5]
  pc := Function.update (fun _ => .idle) 0 .idle
  upgrades := []
  held := fun _ => 0
  dropping := fun _ => 0
  retired := fun _ => false

/-- Thread 1 merges the two segments. -/
def demoMerge : List Action :=
  [.scan 1, .run 1 none, .run 1 none, .run 1 none, .run 1 none, .run 1 (some (demoFile 4 5)),
    .run 1 none, .run 1 (some (demoFile 4 5))]

/-- Then thread 2 handles the task that announced segment 5, whose file the load had found. -/
def demoRegular : List Action :=
  [.regular 2 5 5, .run 2 none, .run 2 (some (demoFile 5 5)), .run 2 none]

theorem start_demoStart : Start demoConfig demoStart :=
  ⟨[demoFile 4 4, demoFile 5 5], false, by simp [demoFile], by simp [demoFile], rfl, rfl, rfl, rfl,
    rfl, rfl⟩

/-- What of a state the runs below are about. -/
def demoView (s : State) : List (SegmentId × SegmentId) :=
  s.pool.members.map fun g => ((s.pool.seg g).segmentIdStart, (s.pool.seg g).segmentIdEnd)

example : (exec (step demoConfig) demoStart demoMerge).map demoView = some [(4, 5)] := by
  decide +kernel

/-- The condition on a step that is not a clean-up; it can be evaluated. -/
def PlacedNoCheck (s : State) : Action → Prop
  | .run t m => Placed s t m
  | .check _ _ => False
  | _ => True

instance (s : State) (a : Action) : Decidable (PlacedNoCheck s a) := by
  cases a <;> unfold PlacedNoCheck <;> infer_instance

theorem PlacedNoCheck.undisturbed {a : Action} (h : PlacedNoCheck s a) : Undisturbed s a := by
  cases a with
  | check => exact h.elim
  | run => exact h
  | _ => trivial

end Demo

end VectorLsm.Pool
