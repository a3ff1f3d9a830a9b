import VectorLsm.Pool.Pieces

/-! # The counters of a pool

The pool counts its segments, and those of them a merge or a rebuild is looked for. The counters
follow the list as long as no slot is cleaned up, which counts the removal of a segment twice, and
no compaction has a result it counts twice.
-/

namespace VectorLsm.Pool

open FlushedSegmentPool Transition

variable {cfg : PoolConfig} {s s' : State} {t slot g : ℕ} {olds gs : List ℕ}

/-- What a segment is counted for. -/
inductive Feature where
  | flat
  | memtableCapacityLe
  | smallSegmentLe
  deriving DecidableEq, Repr

namespace Feature

def counter : Feature → PoolStats → UInt32
  | .flat, st => st.flatCount
  | .memtableCapacityLe, st => st.memtableCapacityLeCount
  | .smallSegmentLe, st => st.smallSegmentLeCount

def holds (cfg : PoolConfig) : Feature → IndexType → ℕ → Bool
  | .flat, type, _ => type = .flat
  | .memtableCapacityLe, _, rows => rows ≤ cfg.memtableCapacity
  | .smallSegmentLe, _, rows => rows ≤ thresholdSmallSegmentSize

/-- The segment of a slot has the feature. -/
def has (cfg : PoolConfig) (f : Feature) (pool : FlushedSegmentPool) (g : ℕ) : Bool :=
  f.holds cfg (pool.seg g).indexType (pool.seg g).vecCount

theorem counter_update (f : Feature) (st : PoolStats) (type : IndexType) (rows : ℕ) (d : UInt32) :
    f.counter (st.update cfg type rows d) =
      if f.holds cfg type rows then f.counter st + d else f.counter st := by
  cases f <;> simp [counter, holds, PoolStats.update]

end Feature

/-- The counters are those of the list. -/
structure Counted (cfg : PoolConfig) (pool : FlushedSegmentPool) : Prop where
  flushedSegmentCount : pool.flushedSegmentCount.toNat = pool.members.length
  stats : ∀ f : Feature, (f.counter pool.stats).toNat = pool.members.countP (f.has cfg pool)

/-- A replacement takes the place of a run of the list whose segments somebody references. Nothing
is cleaned up, and what a compaction counts has no feature. -/
def uncounted (cfg : PoolConfig) : Needs where
  replace pool olds :=
    olds ≠ [] ∧ olds <:+: pool.members ∧ ∀ g ∈ olds, (pool.seg g).refCount ≠ 1
  cleanup _ _ _ := False
  count rows type := ∀ f : Feature, f.holds cfg type rows = false

/-- The counters are those of the list, as far as they can count. -/
structure Tallied (cfg : PoolConfig) (s : State) : Prop where
  kept : s.Kept
  count : s.pool.flushedSegmentCount = UInt32.ofNat s.pool.members.length
  stat : ∀ f : Feature,
    f.counter s.pool.stats = UInt32.ofNat (s.pool.members.countP (f.has cfg s.pool))

theorem Tallied.counted (h : Tallied cfg s) : Counted cfg s.pool := by
  have hle : s.pool.members.length ≤ maxSegmentsCount := h.kept.linked.length_le
  have hlt : s.pool.members.length < 2 ^ 32 := Nat.lt_of_le_of_lt hle (by decide)
  refine ⟨?_, fun f => ?_⟩
  · rw [h.count, UInt32.toNat_ofNat_of_lt' hlt]
  · have hcount := List.countP_le_length (p := f.has cfg s.pool) (l := s.pool.members)
    rw [h.stat, UInt32.toNat_ofNat_of_lt' (Nat.lt_of_le_of_lt hcount hlt)]

section Fields

variable {pool : FlushedSegmentPool}

theorem has_register (f : Feature) (g : ℕ) :
    f.has cfg (pool.register cfg slot) g = f.has cfg pool g := by
  unfold Feature.has
  rw [register_seg]

theorem has_dropped (f : Feature) (g : ℕ) :
    f.holds cfg (pool.dropped olds g).indexType (pool.dropped olds g).vecCount =
      f.has cfg pool g := by
  unfold dropped FlushedSegment.dropRef
  split
  · split <;> rfl
  · rfl

theorem has_replaceN (hl : olds.Nodup) (hne : olds ≠ []) (f : Feature) (g : ℕ) :
    f.has cfg (pool.replaceN cfg olds slot) g = f.has cfg pool g := by
  obtain ⟨hspec, -, -⟩ := replaceN_spec cfg pool slot hl (List.head?_eq_some_head hne)
    (List.getLast?_eq_some_getLast hne)
  rw [Feature.has, hspec g]
  exact has_dropped f g

/-- A segment is counted as often as it has the feature. -/
theorem counter_addStats (f : Feature) (d : UInt32) :
    f.counter (pool.addStats cfg (pool.seg g) d).stats =
      f.counter pool.stats + if f.has cfg pool g then d else 0 := by
  have h : f.counter (pool.addStats cfg (pool.seg g) d).stats = _ :=
    f.counter_update pool.stats (pool.seg g).indexType (pool.seg g).vecCount d
  rw [h]
  unfold Feature.has
  split
  · rfl
  · rw [UInt32.add_zero]

theorem counter_addStats_foldl (cfg : PoolConfig) (pool : FlushedSegmentPool) (f : Feature)
    (olds : List ℕ) :
    f.counter (olds.foldl (fun pool old => pool.addStats cfg (pool.seg old) (-1)) pool).stats =
      f.counter pool.stats - UInt32.ofNat (olds.countP (f.has cfg pool)) := by
  induction olds generalizing pool with
  | nil => simp
  | cons a olds ih =>
      have hhas : f.has cfg (pool.addStats cfg (pool.seg a) (-1)) = f.has cfg pool := rfl
      rw [List.foldl_cons, ih, hhas, counter_addStats, List.countP_cons]
      split
      · rw [UInt32.ofNat_add]
        grind
      · rw [UInt32.add_zero, Nat.add_zero]

/-- A drop that leaves a reference counts nothing. -/
theorem counts_dropRef_foldl (hl : olds.Nodup) (h : ∀ g ∈ olds, (pool.seg g).refCount ≠ 1) :
    (olds.foldl dropRef pool).flushedSegmentCount = pool.flushedSegmentCount ∧
      (olds.foldl dropRef pool).stats = pool.stats := by
  induction olds generalizing pool with
  | nil => exact ⟨rfl, rfl⟩
  | cons a olds ih =>
      obtain ⟨ha, hl⟩ := List.nodup_cons.mp hl
      have hone : (pool.seg a).refCount - 1 ≠ 0 := by
        have := h a List.mem_cons_self
        lia
      have hdrop : pool.dropRef a = pool.setSeg a (pool.seg a).dropRef := if_neg hone
      rw [List.foldl_cons, hdrop]
      refine ih hl fun g hg => ?_
      rw [seg_setSeg, if_neg (ne_of_mem_of_not_mem hg ha)]
      exact h g (List.mem_cons_of_mem _ hg)

theorem flushedSegmentCount_addStats_foldl (cfg : PoolConfig) (pool : FlushedSegmentPool)
    (olds : List ℕ) :
    (olds.foldl (fun pool old => pool.addStats cfg (pool.seg old) (-1)) pool).flushedSegmentCount =
      pool.flushedSegmentCount := by
  induction olds generalizing pool with
  | nil => rfl
  | cons a olds ih => rw [List.foldl_cons, ih, addStats_flushedSegmentCount]

theorem counts_replaceN (cfg : PoolConfig) (slot : ℕ) (hl : olds.Nodup) (hne : olds ≠ [])
    (h : ∀ g ∈ olds, (pool.seg g).refCount ≠ 1) :
    (pool.replaceN cfg olds slot).flushedSegmentCount =
        pool.flushedSegmentCount - UInt32.ofNat (olds.length - 1) ∧
      ∀ f : Feature, f.counter (pool.replaceN cfg olds slot).stats =
        f.counter pool.stats - UInt32.ofNat (olds.countP (f.has cfg pool)) +
          if f.has cfg pool slot then 1 else 0 := by
  have hcount := flushedSegmentCount_addStats_foldl cfg pool olds
  have hstats := fun f => counter_addStats_foldl cfg pool f olds
  have hseg (g : ℕ) : (olds.foldl (fun pool old => pool.addStats cfg (pool.seg old) (-1)) pool).seg
      g = pool.seg g := seg_addStats_foldl olds (-1) g
  unfold replaceN
  rw [List.head?_eq_some_head hne, List.getLast?_eq_some_getLast hne]
  dsimp only
  generalize olds.foldl (fun pool old => pool.addStats cfg (pool.seg old) (-1)) pool = pool₁ at *
  have hone : ∀ g ∈ olds, (pool₁.seg g).refCount ≠ 1 := fun g hg => hseg g ▸ h g hg
  obtain ⟨hcount', hstats'⟩ := counts_dropRef_foldl hl hone
  have hhas (f : Feature) : f.holds cfg ((olds.foldl dropRef pool₁).seg slot).indexType
      ((olds.foldl dropRef pool₁).seg slot).vecCount = f.has cfg pool slot := by
    rw [seg_dropRef_foldl hl, hseg]
    exact has_dropped f slot
  generalize olds.foldl dropRef pool₁ = pool₂ at *
  have hset (pool' : FlushedSegmentPool) (n : UInt32) :
      (pool'.setCount n).flushedSegmentCount = n := rfl
  refine ⟨?_, fun f => ?_⟩
  · rw [hset, addStats_flushedSegmentCount, setSeg_flushedSegmentCount, wire_flushedSegmentCount,
      setEnds_flushedSegmentCount, hcount', hcount]
  · rw [setCount_stats, counter_addStats, setSeg_stats, wire_stats, setEnds_stats, hstats', hstats]
    refine congrArg (_ + if · = true then 1 else 0) ?_
    rw [← hhas]
    simp [Feature.has, seg_wire]

theorem counts_register (cfg : PoolConfig) (pool : FlushedSegmentPool) (slot : ℕ) :
    (pool.register cfg slot).flushedSegmentCount =
      pool.flushedSegmentCount + 1 ∧
    ∀ f : Feature, f.counter (pool.register cfg slot).stats =
      f.counter pool.stats + if f.has cfg pool slot then 1 else 0 := by
  refine ⟨rfl, fun f => ?_⟩
  have hreg : (pool.register cfg slot).stats = pool.stats.update cfg (pool.seg slot).indexType
      (pool.seg slot).vecCount 1 := by
    simp [FlushedSegmentPool.register, addStats, insertionPoint_setRef]
  rw [hreg, f.counter_update]
  unfold Feature.has
  split
  · rfl
  · rw [UInt32.add_zero]

/-- How many of a list there are when a run makes room for one. -/
theorem ofNat_countP_enter {p : ℕ → Bool} {xs ys : List ℕ} (olds : List ℕ) :
    UInt32.ofNat ((xs ++ slot :: ys).countP p) = UInt32.ofNat ((xs ++ olds ++ ys).countP p) -
      UInt32.ofNat (olds.countP p) + if p slot then 1 else 0 := by
  rw [List.countP_append, List.countP_append, List.countP_append, List.countP_cons]
  split
  · simp only [UInt32.ofNat_add]
    grind
  · simp only [UInt32.ofNat_add]
    grind

theorem ofNat_length_enter {xs ys : List ℕ} (hne : olds ≠ []) :
    UInt32.ofNat (xs ++ slot :: ys).length = UInt32.ofNat (xs ++ olds ++ ys).length -
      UInt32.ofNat (olds.length - 1) := by
  have hlen : (xs ++ olds ++ ys).length = (xs ++ slot :: ys).length + (olds.length - 1) := by
    have := List.length_pos_of_ne_nil hne
    simp only [List.length_append, List.length_cons]
    lia
  rw [hlen, UInt32.ofNat_add, UInt32.add_sub_cancel]

end Fields

namespace Tallied

/-- What is counted stays as it is. -/
theorem congr (h : Tallied cfg s) (hk : s'.Kept) (hm : s'.pool.members = s.pool.members)
    (hhas : ∀ (f : Feature), ∀ g ∈ s.pool.members, f.has cfg s'.pool g = f.has cfg s.pool g)
    (hc : s'.pool.flushedSegmentCount = s.pool.flushedSegmentCount)
    (hs : s'.pool.stats = s.pool.stats) : Tallied cfg s' where
  kept := hk
  count := by rw [hc, h.count, hm]
  stat f := by
    have hcongr : s.pool.members.countP (f.has cfg s'.pool) =
        s.pool.members.countP (f.has cfg s.pool) :=
      List.countP_congr fun g hg => by rw [hhas f g hg]
    rw [hs, h.stat, hm, hcongr]

theorem quiet (h : Tallied cfg s) (hq : Quiet s s') : Tallied cfg s' := by
  refine h.congr (h.kept.quiet hq) hq.members (fun f g _ => ?_) hq.count hq.stats
  obtain ⟨b, hb⟩ := hq.seg g
  rw [Feature.has, hb]
  rfl

theorem reserve {pool : FlushedSegmentPool} {pc : Pc} (h : Tallied cfg s)
    (ht : s.reserved t = none) (hres : s.pool.reserve = some (slot, pool))
    (hpc : pc.reserved = some slot) :
    Tallied cfg (((s.setPool pool).setRetired (Function.update s.retired slot false)).goto t
      pc) := by
  refine h.congr (h.kept.reserve ht hres hpc) (h.kept.members_reserve ht hres) (fun f g _ => ?_)
    ?_ ?_
  all_goals obtain ⟨-, -, rfl⟩ := reserve_eq hres
  · by_cases hg : g = slot
    · simp [Feature.has, hg]
    · simp [Feature.has, hg]
  · rfl
  · rfl

theorem write {x : FlushedSegment} (h : Tallied cfg s) (ht : s.reserved t = some slot)
    (hu : x.inUsed = true) (hr : x.refCount = (s.pool.seg slot).refCount) :
    Tallied cfg (s.setPool (s.pool.setSeg slot x)) := by
  refine h.congr (h.kept.write ht hu hr) (h.kept.members_write ht x) (fun f g hg => ?_) rfl rfl
  have hne : g ≠ slot := ne_of_mem_of_not_mem hg (h.kept.resOutside t slot ht)
  simp [Feature.has, hne]

theorem register (h : Tallied cfg s) (ht : s.reserved t = some slot) :
    Tallied cfg (s.register cfg t slot) := by
  obtain ⟨hk, xs, ys, hm, hm'⟩ := h.kept.register cfg ht
  obtain ⟨hcount, hstat⟩ := counts_register cfg s.pool slot
  refine ⟨hk, ?_, fun f => ?_⟩
  · rw [hm']
    change (s.pool.register cfg slot).flushedSegmentCount = _
    rw [hcount, h.count, hm, List.perm_middle.length_eq, List.length_cons, UInt32.ofNat_add]
    rfl
  · have hhas : f.has cfg (s.register cfg t slot).pool = f.has cfg s.pool :=
      funext fun g => has_register f g
    change f.counter (s.pool.register cfg slot).stats = _
    rw [hm', hhas, hstat, h.stat, hm, ofNat_countP_enter [], List.append_nil]
    simp

theorem replace (h : Tallied cfg s) (ht : s.reserved t = some slot)
    (hn : (uncounted cfg).replace s.pool olds) : Tallied cfg (s.replace cfg t olds slot) := by
  obtain ⟨hne, hrun, hone⟩ := hn
  obtain ⟨hk, xs, ys, hm, hm'⟩ := h.kept.replace cfg ht hne hrun
  have hnd : olds.Nodup := hrun.sublist.nodup h.kept.linked.nodup
  obtain ⟨hcount, hstat⟩ := counts_replaceN cfg slot hnd hne hone
  refine ⟨hk, ?_, fun f => ?_⟩
  · rw [hm']
    change (s.pool.replaceN cfg olds slot).flushedSegmentCount = _
    rw [hcount, h.count, hm, ofNat_length_enter hne]
  · have hhas : f.has cfg (s.replace cfg t olds slot).pool = f.has cfg s.pool :=
      funext fun g => has_replaceN hnd hne f g
    change f.counter (s.pool.replaceN cfg olds slot).stats = _
    rw [hm', hhas, hstat, h.stat, hm, ofNat_countP_enter]

theorem discard (h : Tallied cfg s) (ht : s.reserved t = some slot) :
    Tallied cfg ((s.setPool (s.pool.discard slot)).goto t .idle) := by
  obtain ⟨hk, hm⟩ := h.kept.discard ht
  refine h.congr hk hm (fun f g hg => ?_) ?_ ?_
  · have hne : g ≠ slot := ne_of_mem_of_not_mem hg (h.kept.resOutside t slot ht)
    simp [Feature.has, FlushedSegmentPool.discard, hne]
  all_goals
    simp only [State.goto_pool, State.setPool_pool, FlushedSegmentPool.discard, rewind]
    split
    · rfl
    · rfl

theorem drop (h : Tallied cfg s) (hg : 0 < s.held g) :
    Tallied cfg (((s.setPool (s.pool.setSeg g
      ((s.pool.seg g).setRef ((s.pool.seg g).refCount - 1)))).setHeld
        (Function.update s.held g (s.held g - 1))).setDropping
        (Function.update s.dropping g (s.dropping g + 1))) := by
  obtain ⟨hk, hm⟩ := h.kept.drop hg
  refine h.congr hk hm (fun f a _ => ?_) rfl rfl
  by_cases ha : a = g
  · simp [Feature.has, ha]
  · simp [Feature.has, ha]

/-- A result without a feature is not counted twice. -/
theorem count_result {rows : ℕ} {type : IndexType} (h : Tallied cfg s)
    (hn : (uncounted cfg).count rows type) :
    Tallied cfg (s.setPool (s.pool.addCompactionStats cfg rows type)) := by
  refine ⟨h.kept.count rows type, h.count, fun f => ?_⟩
  refine (f.counter_update s.pool.stats type rows 1).trans ?_
  rw [hn f]
  exact h.stat f

/-- The pieces keep the counters. -/
theorem pieces (cfg : PoolConfig) : Pieces cfg (uncounted cfg) (Tallied cfg) where
  quiet := quiet
  reserve _ := reserve
  write := write
  register := register
  replace := replace
  discard := discard
  acquire h hgs := h.congr (h.kept.acquire hgs).1 (h.kept.acquire hgs).2 (fun _ _ _ => rfl) rfl rfl
  drop := drop
  keep h _ := ⟨h.kept, h.count, h.stat⟩
  cleanup _ _ _ hn := hn.elim
  count := count_result
  used h ht := h.kept.resUsed _ _ ht
  stable {s t slot olds x} h ht hr hn := by
    obtain ⟨hne, hrun, hone⟩ := hn
    refine ⟨hne, by rwa [h.kept.members_write ht], fun g hg hc => hone g hg ?_⟩
    rw [seg_setSeg] at hc
    split at hc
    next hgs => rwa [hgs, ← hr]
    next => exact hc

theorem empty : Tallied cfg Pieces.empty where
  kept := .empty
  count := rfl
  stat f := by cases f <;> rfl

end Tallied

section Demo

/-- Thread 1 adopts a newer version of segment 4 while a search reads the pool. -/
def demoAdopt : List Action :=
  [.search, .adopt 1 ⟨4, 4, 2, []⟩, .run 1 none, .run 1 (some ⟨4, 4, 20, .flat, 2, 0⟩),
    .run 1 none, .run 1 none, .run 1 none]

/-- An adoption that replaces a segment somebody references; it can be evaluated. -/
def adoptsReferenced (s : State) : Action → Bool
  | .run t _ =>
      match s.pc t with
      | .adoptInstall _ .append _ => false
      | .adoptInstall _ _ snaps => decide (snaps.map PredSnap.segIdx ≠ [] ∧
          snaps.map PredSnap.segIdx <:+: s.pool.members ∧
            ∀ g ∈ snaps.map PredSnap.segIdx, (s.pool.seg g).refCount ≠ 1)
      | .upgrade _ | .compactInstall .. => false
      | _ => true
  | .check _ _ => false
  | _ => true

theorem met_of_adoptsReferenced {a : Action} (h : adoptsReferenced s a = true) :
    (uncounted cfg).Met s a := by
  cases a with
  | run t m =>
      unfold adoptsReferenced at h
      unfold Needs.Met
      revert h
      dsimp only
      cases s.pc t with
      | adoptInstall slot kind snaps =>
          intro h
          cases kind with
          | append => cases h
          | exact | stale | tile =>
              dsimp only at h
              have hrep := of_decide_eq_true h
              exact hrep
      | upgrade u => exact fun h => Bool.noConfusion h
      | compactInstall task lo hi slot => exact fun h => Bool.noConfusion h
      | _ => exact fun _ => trivial
  | check => cases h
  | _ => trivial

end Demo

end VectorLsm.Pool
