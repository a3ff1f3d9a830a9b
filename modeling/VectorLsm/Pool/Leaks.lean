import VectorLsm.Pool.Pieces

/-! # Slots out of reach

`reserve_flushed_segment` looks for a free slot from `insert_idx` on. A clean-up moves the index
back to the slot it has freed, but only when it gets the lock, which the caller of
`replace_flushed_segments_n` has. No slot is lost in the runs whose other clean-ups free slots
that are ahead of the index anyway.
-/

namespace VectorLsm.Pool

open FlushedSegmentPool Transition

variable {cfg : PoolConfig} {s s' : State} {t slot g : ℕ} {olds gs : List ℕ}

/-- The slot is linked, reserved by an operation in progress, or retired and still referenced; a
drop in progress has its reference until it has tested for zero. -/
def InUse (s : State) (g : ℕ) : Prop :=
  g ∈ s.pool.members ∨ (∃ t, s.reserved t = some g) ∨
    s.retired g = true ∧ (0 < s.held g ∨ 0 < s.dropping g)

/-- No slot is available only if all of them are in use. -/
def Unleaked (s : State) : Prop :=
  s.pool.reserve = none → ∀ g < maxSegmentsCount, InUse s g

/-- A replacement takes the place of a run of the list. What is freed without moving `insert_idx`
back is not behind it. -/
def inReach : Needs where
  replace pool olds :=
    olds ≠ [] ∧ olds <:+: pool.members ∧
      ∀ g ∈ olds, (pool.seg g).refCount = 1 → pool.insertIdx ≤ g
  cleanup pool g lockFree := lockFree = true ∨ pool.insertIdx ≤ g
  count _ _ := True

/-- Every slot in service is in use, and all slots behind `insert_idx` are in service. -/
structure Tidy (s : State) : Prop where
  kept : s.Kept
  below : ∀ g < s.pool.insertIdx, (s.pool.seg g).inUsed = true
  owned : ∀ g, (s.pool.seg g).inUsed = true → InUse s g

theorem Tidy.unleaked (h : Tidy s) : Unleaked s := by
  intro hnone g hg
  refine h.owned g ?_
  by_cases hlt : g < s.pool.insertIdx
  · exact h.below g hlt
  · have hall := List.find?_eq_none.mp (Option.map_eq_none_iff.mp hnone) g
      (List.mem_range'_1.mpr ⟨by lia, by lia⟩)
    simpa using hall

section Index

variable {pool : FlushedSegmentPool}

@[simp] theorem insertIdx_register : (pool.register cfg slot).insertIdx = pool.insertIdx := rfl

theorem insertIdx_dropRef : (pool.dropRef g).insertIdx = pool.insertIdx := by
  unfold dropRef
  dsimp only
  split <;> simp

theorem insertIdx_foldl {f : FlushedSegmentPool → ℕ → FlushedSegmentPool}
    (hf : ∀ pool g, (f pool g).insertIdx = pool.insertIdx) (olds : List ℕ) :
    (olds.foldl f pool).insertIdx = pool.insertIdx := by
  induction olds generalizing pool with
  | nil => rfl
  | cons a olds ih => rw [List.foldl_cons, ih, hf]

@[simp] theorem insertIdx_replaceN : (pool.replaceN cfg olds slot).insertIdx = pool.insertIdx := by
  unfold replaceN
  split
  · simp only [setCount_insertIdx, addStats_insertIdx, setSeg_insertIdx, wire_insertIdx,
      setEnds_insertIdx]
    rw [insertIdx_foldl fun _ _ => insertIdx_dropRef,
      insertIdx_foldl (f := fun pool old => pool.addStats cfg (pool.seg old) (-1)) fun _ _ => rfl]
  · rfl

theorem insertIdx_rewind (pool : FlushedSegmentPool) (g : ℕ) :
    (pool.rewind g).insertIdx = min g pool.insertIdx := by
  unfold rewind
  split
  next h => exact (Nat.min_eq_left h.le).symm
  next h => exact (Nat.min_eq_right (Nat.le_of_not_lt h)).symm

/-- The slots between the index and the one that is found are in service. -/
theorem reserve_below {pool' : FlushedSegmentPool} (h : pool.reserve = some (slot, pool'))
    (hb : ∀ g < pool.insertIdx, (pool.seg g).inUsed = true) (hg : g < slot) :
    (pool.seg g).inUsed = true := by
  obtain ⟨i, hi, he⟩ := Option.map_eq_some_iff.mp h
  obtain ⟨rfl, -⟩ := Prod.mk.injEq .. ▸ he
  obtain ⟨-, -, hbefore⟩ := List.find?_range'_eq_some.mp hi
  by_cases hlt : g < pool.insertIdx
  · exact hb g hlt
  · simpa using hbefore g (Nat.le_of_not_lt hlt) hg

end Index

namespace Tidy

/-- A slot in use stays so if it neither leaves the list nor loses what keeps it. -/
theorem inUse_mono (hm : g ∈ s.pool.members → InUse s' g)
    (hr : ∀ t, s.reserved t = some g → InUse s' g)
    (hk : s.retired g = true → 0 < s.held g ∨ 0 < s.dropping g → InUse s' g)
    (h : InUse s g) : InUse s' g := by
  rcases h with h | ⟨t, h⟩ | ⟨h, hd⟩
  · exact hm h
  · exact hr t h
  · exact hk h hd

theorem quiet (h : Tidy s) (hq : Quiet s s') : Tidy s' where
  kept := h.kept.quiet hq
  below g hg := by
    obtain ⟨b, hb⟩ := hq.seg g
    rw [hb]
    exact h.below g (hq.insertIdx ▸ hg)
  owned g hg := by
    obtain ⟨b, hb⟩ := hq.seg g
    rw [hb] at hg
    have := h.owned g hg
    unfold InUse at *
    rwa [hq.members, hq.reserved, hq.retired, hq.held, hq.dropping]

/-- The reservation of a thread without a slot leaves the others alone. -/
theorem inUse_reserved {f : Option ℕ} {held dropping : ℕ → ℕ} {retired : ℕ → Bool} {l : List ℕ}
    (ht : s.reserved t = none) (h : g ∈ l ∨ (∃ u, s.reserved u = some g) ∨
      retired g = true ∧ (0 < held g ∨ 0 < dropping g)) :
    g ∈ l ∨ (∃ u, Function.update s.reserved t f u = some g) ∨
      retired g = true ∧ (0 < held g ∨ 0 < dropping g) := by
  refine h.imp id (Or.imp ?_ id)
  rintro ⟨u, hu⟩
  have hne : u ≠ t := by
    rintro rfl
    simp [ht] at hu
  exact ⟨u, by rwa [Function.update_of_ne hne]⟩

theorem reserve {pool : FlushedSegmentPool} {pc : Pc} (h : Tidy s) (ht : s.reserved t = none)
    (hres : s.pool.reserve = some (slot, pool)) (hpc : pc.reserved = some slot) :
    Tidy (((s.setPool pool).setRetired (Function.update s.retired slot false)).goto t pc) := by
  have hm := h.kept.members_reserve ht hres
  have hseg (g : ℕ) : (pool.seg g).inUsed = if g = slot then true else (s.pool.seg g).inUsed := by
    obtain ⟨-, -, rfl⟩ := reserve_eq hres
    by_cases hg : g = slot <;> simp [hg]
  refine ⟨h.kept.reserve ht hres hpc, fun g hg => ?_, fun g hg => ?_⟩
  · have hidx : pool.insertIdx = slot + 1 := by
      obtain ⟨-, -, rfl⟩ := reserve_eq hres
      rfl
    change (pool.seg g).inUsed = true
    rw [hseg]
    rcases Nat.lt_succ_iff_lt_or_eq.mp (hidx ▸ hg : g < slot + 1) with hlt | rfl
    · rw [reserve_below hres h.below hlt, ite_self]
    · rw [if_pos rfl]
  · unfold InUse
    rw [reserved_goto, hpc]
    rcases eq_or_ne g slot with rfl | hne
    · exact Or.inr (Or.inl ⟨t, Function.update_self ..⟩)
    · have hold := h.owned g (by
        change (pool.seg g).inUsed = true at hg
        rwa [hseg, if_neg hne] at hg)
      have hret : Function.update s.retired slot false g = s.retired g :=
        Function.update_of_ne hne ..
      unfold InUse at hold
      rw [← hm, ← hret] at hold
      exact inUse_reserved ht hold

theorem write {x : FlushedSegment} (h : Tidy s) (ht : s.reserved t = some slot)
    (hu : x.inUsed = true) (hr : x.refCount = (s.pool.seg slot).refCount) :
    Tidy (s.setPool (s.pool.setSeg slot x)) := by
  have hm := h.kept.members_write ht x
  refine ⟨h.kept.write ht hu hr, fun g hg => ?_, fun g hg => ?_⟩
  · change ((s.pool.setSeg slot x).seg g).inUsed = true
    rw [seg_setSeg]
    split
    · exact hu
    · exact h.below g hg
  · unfold InUse
    change g ∈ (s.pool.setSeg slot x).members ∨ _
    rw [hm]
    rcases eq_or_ne g slot with rfl | hne
    · exact Or.inr (Or.inl ⟨t, ht⟩)
    · refine h.owned g ?_
      change ((s.pool.setSeg slot x).seg g).inUsed = true at hg
      rwa [seg_setSeg, if_neg hne] at hg

/-- A slot that enters the list keeps the others in use, but for those it replaces. -/
theorem inUse_enter {xs ys : List ℕ} (ht : s.reserved t = some slot)
    (hm : s.pool.members = xs ++ olds ++ ys) (h : InUse s g) (ho : g ∉ olds) :
    g ∈ xs ++ slot :: ys ∨ (∃ u, Function.update s.reserved t none u = some g) ∨
      s.retired g = true ∧ (0 < s.held g ∨ 0 < s.dropping g) := by
  rcases h with h | ⟨u, hu⟩ | h
  · left
    rw [hm] at h
    simp only [List.mem_append, List.mem_cons] at h ⊢
    tauto
  · by_cases hut : u = t
    · left
      obtain rfl : slot = g := Option.some.inj (ht ▸ hut ▸ hu)
      simp
    · exact Or.inr (Or.inl ⟨u, by rwa [Function.update_of_ne hut]⟩)
  · exact Or.inr (Or.inr h)

theorem register (h : Tidy s) (ht : s.reserved t = some slot) :
    Tidy (s.register cfg t slot) := by
  obtain ⟨hk, xs, ys, hm, hm'⟩ := h.kept.register cfg ht
  have hu (g : ℕ) : ((s.register cfg t slot).pool.seg g).inUsed = (s.pool.seg g).inUsed :=
    register_inUsed cfg s.pool slot g
  refine ⟨hk, fun g hg => (hu g).trans (h.below g hg), fun g hg => ?_⟩
  unfold InUse
  rw [hm', State.register, reserved_goto]
  have hm₀ : s.pool.members = xs ++ [] ++ ys := by rw [hm, List.append_nil]
  exact inUse_enter (s := s) ht hm₀ (h.owned g (hu g ▸ hg)) List.not_mem_nil

theorem replace (h : Tidy s) (ht : s.reserved t = some slot) (hn : inReach.replace s.pool olds) :
    Tidy (s.replace cfg t olds slot) := by
  obtain ⟨hne, hrun, hfreed⟩ := hn
  obtain ⟨hk, xs, ys, hm, hm'⟩ := h.kept.replace cfg ht hne hrun
  have hnd : olds.Nodup := hrun.sublist.nodup h.kept.linked.nodup
  have hu (g : ℕ) : ((s.replace cfg t olds slot).pool.seg g).inUsed =
      (s.pool.dropped olds g).inUsed := (replaceN_seg cfg s.pool slot hnd hne g).2.2.1
  refine ⟨hk, fun g hg => ?_, fun g hg => ?_⟩
  · have hlt : g < s.pool.insertIdx := by simpa [State.replace] using hg
    rw [hu, dropped]
    split
    next ho =>
      rw [FlushedSegment.dropRef_inUsed, if_neg, h.below g hlt]
      intro hz
      have := hfreed g ho (by lia)
      lia
    next => exact h.below g hlt
  · unfold InUse
    rw [hm', State.replace, reserved_goto]
    change _ ∨ _ ∨ (if g ∈ olds then true else s.retired g) = true ∧ (0 < s.held g ∨ _)
    rw [hu, dropped] at hg
    by_cases ho : g ∈ olds
    · -- the drop has left a reference
      rw [if_pos ho, FlushedSegment.dropRef_inUsed] at hg
      have hc := h.kept.counts g
      rw [if_pos (hrun.subset ho)] at hc
      rw [if_pos ho]
      refine Or.inr (Or.inr ⟨rfl, Or.inl ?_⟩)
      split at hg
      next => cases hg
      next hz => lia
    · rw [if_neg ho] at hg ⊢
      exact inUse_enter ht hm (h.owned g hg) ho

theorem discard (h : Tidy s) (ht : s.reserved t = some slot) :
    Tidy ((s.setPool (s.pool.discard slot)).goto t .idle) := by
  obtain ⟨hk, hm⟩ := h.kept.discard ht
  have hseg (g : ℕ) : (s.pool.discard slot).seg g =
      if g = slot then (s.pool.seg slot).clear else s.pool.seg g := by
    simp [FlushedSegmentPool.discard]
  have hidx := insertIdx_rewind (s.pool.setSeg slot (s.pool.seg slot).clear) slot
  refine ⟨hk, fun g hg => ?_, fun g hg => ?_⟩
  · have hlt : g < min slot s.pool.insertIdx := lt_of_lt_of_eq hg hidx
    change ((s.pool.discard slot).seg g).inUsed = true
    rw [hseg, if_neg (by lia)]
    exact h.below g (by lia)
  · change ((s.pool.discard slot).seg g).inUsed = true at hg
    have hne : g ≠ slot := by
      rintro rfl
      rw [hseg, if_pos rfl] at hg
      cases hg
    rw [hseg, if_neg hne] at hg
    unfold InUse
    rw [reserved_goto]
    change g ∈ (s.pool.discard slot).members ∨ _
    rw [hm]
    rcases h.owned g hg with hl | ⟨u, hu⟩ | hr
    · exact Or.inl hl
    · have hut : u ≠ t := by
        rintro rfl
        exact hne (Option.some.inj (hu.symm.trans ht))
      refine Or.inr (Or.inl ⟨u, ?_⟩)
      rwa [Function.update_of_ne hut]
    · exact Or.inr (Or.inr hr)

theorem acquire (h : Tidy s) (hgs : ∀ g ∈ gs, g ∈ s.pool.membersToTail) :
    Tidy (s.acquire gs) := by
  obtain ⟨hk, hm⟩ := h.kept.acquire hgs
  refine ⟨hk, h.below, fun g hg => ?_⟩
  unfold InUse
  rw [hm]
  refine (h.owned g hg).imp id (Or.imp id (And.imp id (Or.imp ?_ id)))
  exact fun hheld => Nat.lt_of_lt_of_le hheld (Nat.le_add_right _ _)

theorem drop (h : Tidy s) (hg : 0 < s.held g) :
    Tidy (((s.setPool (s.pool.setSeg g
      ((s.pool.seg g).setRef ((s.pool.seg g).refCount - 1)))).setHeld
        (Function.update s.held g (s.held g - 1))).setDropping
        (Function.update s.dropping g (s.dropping g + 1))) := by
  obtain ⟨hk, hm⟩ := h.kept.drop hg
  have hu (a : ℕ) : ((s.pool.setSeg g ((s.pool.seg g).setRef
      ((s.pool.seg g).refCount - 1))).seg a).inUsed = (s.pool.seg a).inUsed := by
    by_cases ha : a = g <;> simp [ha]
  refine ⟨hk, fun a ha => (hu a).trans (h.below a ha), fun a ha => ?_⟩
  have hold := h.owned a ((hu a).symm.trans ha)
  unfold InUse
  change a ∈ (s.pool.setSeg g _).members ∨ _
  rw [hm]
  refine hold.imp id (Or.imp id (And.imp id fun hkept => ?_))
  -- the drop itself keeps the slot
  by_cases hag : a = g
  · exact Or.inr (by simp [hag])
  · simpa [hag] using hkept

theorem keep (h : Tidy s) (hz : (s.pool.seg g).refCount ≠ 0) :
    Tidy (s.setDropping (Function.update s.dropping g (s.dropping g - 1))) := by
  refine ⟨h.kept, h.below, fun a ha => ?_⟩
  rcases h.owned a ha with hin | hin | ⟨hret, hin⟩
  · exact Or.inl hin
  · exact Or.inr (Or.inl hin)
  · by_cases hag : a = g
    · have hc := h.kept.counts g
      by_cases hm : g ∈ s.pool.members
      · exact Or.inl (hag ▸ hm)
      · rw [if_neg hm] at hc
        refine Or.inr (Or.inr ⟨hret, Or.inl ?_⟩)
        change 0 < s.held a
        rw [hag]
        lia
    · exact Or.inr (Or.inr ⟨hret, by simpa [hag] using hin⟩)

theorem cleanup {lockFree : Bool} (h : Tidy s) (hz : (s.pool.seg g).refCount = 0)
    (hg : ∀ t, s.reserved t ≠ some g) (hn : inReach.cleanup s.pool g lockFree) :
    Tidy ((s.setDropping (Function.update s.dropping g (s.dropping g - 1))).setPool
      (if lockFree then (s.pool.cleanup g).rewind g else s.pool.cleanup g)) := by
  obtain ⟨hk, hm⟩ := h.kept.cleanup hz hg lockFree
  have hseg (a : ℕ) : ((if lockFree then (s.pool.cleanup g).rewind g
      else s.pool.cleanup g).seg a).inUsed = if a = g then false else (s.pool.seg a).inUsed := by
    cases lockFree <;> by_cases ha : a = g <;> simp [FlushedSegmentPool.cleanup, ha]
  refine ⟨hk, fun a ha => ?_, fun a ha => ?_⟩
  · have hlt : a ≠ g ∧ a < s.pool.insertIdx := by
      cases lockFree with
      | false =>
          have hidx : s.pool.insertIdx ≤ g := hn.resolve_left Bool.false_ne_true
          have hlt : a < s.pool.insertIdx := ha
          exact ⟨by lia, hlt⟩
      | true =>
          have hidx := insertIdx_rewind (s.pool.cleanup g) g
          have hlt : a < min g s.pool.insertIdx := lt_of_lt_of_eq ha hidx
          exact ⟨by lia, by lia⟩
    exact (hseg a).trans ((if_neg hlt.1).trans (h.below a hlt.2))
  · have hu := (hseg a).symm.trans ha
    have hag : a ≠ g := by
      rintro rfl
      simp at hu
    have hold := h.owned a (by rwa [if_neg hag] at hu)
    unfold InUse
    change a ∈ (if lockFree then (s.pool.cleanup g).rewind g else s.pool.cleanup g).members ∨ _
    rw [hm]
    refine hold.imp id (Or.imp id (And.imp id fun hkept => ?_))
    simpa [hag] using hkept

/-- The pieces keep the pool tidy. -/
theorem pieces (cfg : PoolConfig) : Pieces cfg inReach Tidy where
  quiet := quiet
  reserve _ := reserve
  write := write
  register := register
  replace := replace
  discard := discard
  acquire := acquire
  drop := drop
  keep := keep
  cleanup := cleanup
  count h _ := ⟨h.kept.count _ _, h.below, h.owned⟩
  used h ht := h.kept.resUsed _ _ ht
  stable {s t slot olds x} h ht hr hn := by
    obtain ⟨hne, hrun, hfreed⟩ := hn
    refine ⟨hne, by rwa [h.kept.members_write ht], fun g hg hone => hfreed g hg ?_⟩
    rw [seg_setSeg] at hone
    split at hone
    next hgs => rwa [hgs, ← hr]
    next => exact hone

theorem empty : Tidy Pieces.empty where
  kept := .empty
  below g hg := absurd hg (Nat.not_lt_zero g)
  owned _ hg := Bool.noConfusion hg

end Tidy

section Full

variable {pool : FlushedSegmentPool} {k : ℕ}

/-- The first `k` slots have been loaded as mapped segments. -/
structure Mapped (pool : FlushedSegmentPool) (k : ℕ) : Prop where
  insertIdx : pool.insertIdx = k
  inUsed : ∀ g, (pool.seg g).inUsed = true ↔ g < k
  loadState : ∀ g < k, (pool.seg g).loadState = .mmapLoaded

/-- Where all slots before `insert_idx` are taken and no other, that one is next. -/
theorem Mapped.reserve (h : Mapped pool k) (hk : k < maxSegmentsCount) :
    pool.reserve = some (k, (pool.setSeg k { pool.seg k with inUsed := true }).setInsertIdx
      (k + 1)) := by
  have hfree : (pool.seg k).inUsed = false :=
    Bool.eq_false_iff.mpr fun hu => Nat.lt_irrefl k ((h.inUsed k).mp hu)
  have hfind : (List.range' pool.insertIdx (maxSegmentsCount - pool.insertIdx)).find?
      (fun idx => !(pool.seg idx).inUsed) = some k := by
    rw [h.insertIdx]
    refine List.find?_range'_eq_some.mpr ⟨by simp [hfree], List.mem_range'_1.mpr ⟨by lia, by lia⟩,
      fun j hj hjk => by lia⟩
  rw [FlushedSegmentPool.reserve, hfind]
  rfl

theorem Mapped.loadOne (h : Mapped pool k) (hk : k < maxSegmentsCount) (m : SegmentMetadata) :
    Mapped (pool.loadOne cfg true m) (k + 1) := by
  unfold FlushedSegmentPool.loadOne
  rw [h.reserve hk]
  dsimp only
  have hload (pool' : FlushedSegmentPool) (g : ℕ) :
      ((pool'.register cfg k).seg g).loadState = (pool'.seg g).loadState := by rw [register_seg]
  refine ⟨rfl, fun g => ?_, fun g hg => ?_⟩
  · rw [register_inUsed]
    by_cases hgk : g = k
    · simp [hgk, FlushedSegment.load]
    · simp only [seg_setSeg, seg_setInsertIdx, if_neg hgk, h.inUsed]
      lia
  · rw [hload]
    by_cases hgk : g = k
    · simp [hgk, FlushedSegment.load]
    · simp only [seg_setSeg, seg_setInsertIdx, if_neg hgk]
      exact h.loadState g (by lia)

theorem mapped_loadAll {files : List SegmentMetadata} (hf : files.length ≤ maxSegmentsCount) :
    Mapped (.loadAll cfg true files) files.length := by
  induction files using List.reverseRecOn with
  | nil => exact ⟨rfl, fun g => by simp [loadAll, FlushedSegmentPool.initial,
      FlushedSegmentPool.seg, FlushedSegment.initial], fun g hg => absurd hg (Nat.not_lt_zero g)⟩
  | append_singleton files m ih =>
      rw [List.length_append, List.length_singleton] at hf ⊢
      rw [loadAll, List.foldl_append]
      exact (ih (by lia)).loadOne (by lia) m

/-- A pool into which that many segments of one id each have been mapped. -/
def mappedStart (k : ℕ) : State where
  pool := .loadAll demoConfig true ((List.range k).map fun i => demoFile i i)
  pc := Function.update (fun _ => .idle) 0 .submitUpgrades
  upgrades := []
  held := fun _ => 0
  dropping := fun _ => 0
  retired := fun _ => false

theorem start_mappedStart (k : ℕ) : Start demoConfig (mappedStart k) := by
  refine ⟨(List.range k).map fun i => demoFile i i, true, ?_, ?_, rfl, rfl, rfl, rfl, rfl, rfl⟩
  · exact List.pairwise_map.mpr (List.pairwise_lt_range.imp id)
  · intro m hm
    obtain ⟨i, -, rfl⟩ := List.mem_map.mp hm
    exact Nat.le_refl i

theorem mapped_mappedStart (hk : k ≤ maxSegmentsCount) : Mapped (mappedStart k).pool k := by
  have h : Mapped (mappedStart k).pool ((List.range k).map fun i => demoFile i i).length :=
    mapped_loadAll (by simpa using hk)
  rwa [List.length_map, List.length_range] at h

theorem mem_members_mappedStart (hk : k ≤ maxSegmentsCount) (hg : g < k) :
    g ∈ (mappedStart k).pool.members := by
  have ht := (Tidy.pieces demoConfig).start .empty (start_mappedStart k)
  rcases ht.owned g (((mapped_mappedStart hk).inUsed g).mpr hg) with h | ⟨t, h⟩ | ⟨h, -⟩
  · exact h
  · have hnone : (mappedStart k).reserved t = none := by
      rcases eq_or_ne t 0 with rfl | ht <;> simp [State.reserved, mappedStart, Pc.reserved, *]
    simp [hnone] at h
  · cases h

/-- Thread 1 has taken the first of the upgrades. -/
def upgrading (k : ℕ) (u : UpgradeTask) (us : List UpgradeTask) : State :=
  ((((mappedStart k).setUpgrades (u :: us)).goto 0 .idle).setUpgrades us).goto 1 (.upgrade u)

theorem reachable_upgrading (k : ℕ) {u : UpgradeTask} {us : List UpgradeTask}
    (hu : upgradeTasks (mappedStart k).pool = u :: us) :
    Reachable (Start demoConfig) (step demoConfig) onList.Met (upgrading k u us) := by
  have h₁ : step demoConfig (mappedStart k) (.run 0 none) =
      some (((mappedStart k).setUpgrades (u :: us)).goto 0 .idle) := by
    have hs : step demoConfig (mappedStart k) (.run 0 none) = some (((mappedStart k).setUpgrades
      ([] ++ upgradeTasks (mappedStart k).pool)).goto 0 .idle) := rfl
    rw [hs, List.nil_append, hu]
  exact ((Reachable.start (start_mappedStart k)).next trivial h₁).next (a := .takeUpgrade 1)
    trivial rfl

/-- The upgrades of a mapped pool are those of members that are still mapped. -/
theorem exists_upgrade (hk : k ≤ maxSegmentsCount) (h0 : 0 < k) :
    ∃ u us, upgradeTasks (mappedStart k).pool = u :: us ∧
      u.segmentIdx ∈ (mappedStart k).pool.members ∧ upgradable (mappedStart k).pool u = true := by
  have hmap := mapped_mappedStart hk
  have hkept := (State.Kept.pieces demoConfig).start .empty (start_mappedStart k)
  have hne : upgradeTasks (mappedStart k).pool ≠ [] := by
    refine List.ne_nil_of_mem (List.mem_map_of_mem (a := 0) (List.mem_filter.mpr ⟨?_, ?_⟩))
    · exact mem_members_mappedStart hk h0
    · simpa using hmap.loadState 0 h0
  obtain ⟨u, us, hu⟩ := List.exists_cons_of_ne_nil hne
  obtain ⟨g, hg, rfl⟩ := List.mem_map.mp (hu ▸ List.mem_cons_self : u ∈ upgradeTasks _)
  obtain ⟨hg, hload⟩ := List.mem_filter.mp hg
  refine ⟨_, us, hu, hg, ?_⟩
  simpa [upgradable, hkept.used g hg] using hload

/-- The last slot takes the place of slot `g`. -/
def upgraded (pool : FlushedSegmentPool) (k g : ℕ) : FlushedSegmentPool :=
  let pool' := (pool.setSeg k { pool.seg k with inUsed := true }).setInsertIdx (k + 1)
  (pool'.setSeg k ((pool'.seg k).fill (upgradeMetadata (pool.seg g)))).replaceN demoConfig [g] k

theorem reserve_upgraded (hk : k + 1 = maxSegmentsCount) : (upgraded pool k g).reserve = none := by
  have hidx : (upgraded pool k g).insertIdx = k + 1 := insertIdx_replaceN
  rw [FlushedSegmentPool.reserve, hidx, hk, Nat.sub_self]
  rfl

theorem inUsed_upgraded (hg : g ≠ k) (hone : (pool.seg g).refCount = 1) :
    ((upgraded pool k g).seg g).inUsed = false := by
  unfold upgraded
  rw [(replaceN_seg demoConfig _ k (List.nodup_singleton g) (List.cons_ne_nil _ _) g).2.2.1,
    dropped, if_pos List.mem_cons_self, FlushedSegment.dropRef_inUsed, if_pos]
  rw [seg_setSeg, if_neg hg, seg_setInsertIdx, seg_setSeg, if_neg hg, hone]
  rfl

/-- A search in a full pool. -/
theorem search_mappedStart (hk : k = maxSegmentsCount) : ∃ s,
    exec (step demoConfig) (mappedStart k) [.search] = some s ∧ s.pool.reserve = none ∧
      Reachable (Start demoConfig) (step demoConfig) inReach.Met s := by
  refine ⟨_, rfl, ?_, (Reachable.start (start_mappedStart k)).next (a := .search) trivial rfl⟩
  have hidx : (mappedStart k).pool.insertIdx = maxSegmentsCount :=
    hk ▸ (mapped_mappedStart hk.le).insertIdx
  change Option.map _ (List.find? _ (List.range' (mappedStart k).pool.insertIdx
    (maxSegmentsCount - (mappedStart k).pool.insertIdx))) = none
  rw [hidx, Nat.sub_self]
  rfl

end Full

end VectorLsm.Pool
