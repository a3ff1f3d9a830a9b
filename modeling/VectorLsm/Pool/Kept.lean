import VectorLsm.Pool.Linked

/-! # The slots of a pool

Every slot is on the list, free, reserved by one thread, or kept by references. The operations
preserve this whatever the ranges of the segments are.
-/

namespace VectorLsm.Pool

open FlushedSegmentPool

/-- The list is `l`; the slots outside it are free, reserved by one thread, or kept by
references. -/
structure Kept (pool : FlushedSegmentPool) (reserved : ℕ → Option ℕ) (held : ℕ → ℕ)
    (retired : ℕ → Bool) (l : List ℕ) : Prop where
  linked : pool.Linked l
  used : ∀ g ∈ l, (pool.seg g).inUsed = true
  live : ∀ g ∈ l, retired g = false
  counts : ∀ g, (pool.seg g).refCount = (if g ∈ l then 1 else 0) + held g
  free : ∀ g, (pool.seg g).inUsed = false → held g = 0
  resUsed : ∀ t slot, reserved t = some slot → (pool.seg slot).inUsed = true
  resOutside : ∀ t slot, reserved t = some slot → slot ∉ l
  resUnheld : ∀ t slot, reserved t = some slot → held slot = 0
  resLive : ∀ t slot, reserved t = some slot → retired slot = false
  resBound : ∀ t slot, reserved t = some slot → slot < maxSegmentsCount
  distinct : ∀ t t' slot, reserved t = some slot → reserved t' = some slot → t = t'

/-- A list splits behind the last of its elements that fail a test. -/
theorem split_last {p : ℕ → Prop} (l : List ℕ) :
    ∃ xs ys, l = xs ++ ys ∧ (∀ g, xs.getLast? = some g → ¬ p g) ∧ ∀ g ∈ ys, p g := by
  induction l using List.reverseRecOn with
  | nil => exact ⟨[], [], rfl, by simp, by simp⟩
  | append_singleton l a ih =>
      by_cases ha : p a
      · obtain ⟨xs, ys, rfl, hx, hy⟩ := ih
        refine ⟨xs, ys ++ [a], by simp, hx, fun g hg => ?_⟩
        rcases List.mem_append.mp hg with hg | hg
        · exact hy g hg
        · exact List.mem_singleton.mp hg ▸ ha
      · refine ⟨l ++ [a], [], by simp, fun g hg => ?_, by simp⟩
        obtain rfl : a = g := by simpa using hg
        exact ha

namespace Kept

variable {pool pool' : FlushedSegmentPool} {reserved : ℕ → Option ℕ}
  {held : ℕ → ℕ} {retired : ℕ → Bool} {l : List ℕ} {t slot g : ℕ}

theorem members (h : Kept pool reserved held retired l) : pool.members = l := h.linked.members

theorem not_mem_of_free (h : Kept pool reserved held retired l) (hg : (pool.seg g).inUsed = false) :
    g ∉ l := by
  intro hgl
  simp [h.used g hgl] at hg

/-- Slots may change in the fields the invariant does not read. -/
theorem congr (h : Kept pool reserved held retired l)
    (hu : ∀ g, (pool'.seg g).inUsed = (pool.seg g).inUsed)
    (hr : ∀ g, (pool'.seg g).refCount = (pool.seg g).refCount)
    (hl : pool'.Linked l) : Kept pool' reserved held retired l where
  linked := hl
  used := by simpa only [hu] using h.used
  live := h.live
  counts := by simpa only [hr] using h.counts
  free := by simpa only [hu] using h.free
  resUsed := by simpa only [hu] using h.resUsed
  resOutside := h.resOutside
  resUnheld := h.resUnheld
  resLive := h.resLive
  resBound := h.resBound
  distinct := h.distinct

/-- A thread keeps its reservation or gives it up. -/
theorem setReserved (h : Kept pool reserved held retired l) {r : Option ℕ}
    (hr : r = none ∨ r = reserved t) : Kept pool (Function.update reserved t r) held retired l := by
  have key : ∀ u slot, Function.update reserved t r u = some slot → reserved u = some slot := by
    intro u slot hu
    rcases eq_or_ne u t with rfl | hne
    · rcases hr with rfl | rfl
      · simp at hu
      · simpa using hu
    · simpa [hne] using hu
  exact { h with
    resUsed := fun u slot hu => h.resUsed u slot (key u slot hu)
    resOutside := fun u slot hu => h.resOutside u slot (key u slot hu)
    resUnheld := fun u slot hu => h.resUnheld u slot (key u slot hu)
    resLive := fun u slot hu => h.resLive u slot (key u slot hu)
    resBound := fun u slot hu => h.resBound u slot (key u slot hu)
    distinct := fun u u' slot hu hu' => h.distinct u u' slot (key u slot hu) (key u' slot hu') }

/-- A free slot is reserved by a thread that has none. -/
theorem reserve (h : Kept pool reserved held retired l) (ht : reserved t = none)
    (hres : pool.reserve = some (slot, pool')) :
    Kept pool' (Function.update reserved t (some slot)) held
      (Function.update retired slot false) l := by
  obtain ⟨hfree, hlt, rfl⟩ := reserve_eq hres
  have hout := h.not_mem_of_free hfree
  have hnone : ∀ u, reserved u ≠ some slot := by
    intro u hu
    simp [h.resUsed u slot hu] at hfree
  have hseg : ∀ g, ((pool.setSeg slot { pool.seg slot with inUsed := true }).setInsertIdx
      (slot + 1)).seg g =
      { pool.seg g with inUsed := if g = slot then true else (pool.seg g).inUsed } := by
    intro g
    by_cases hg : g = slot <;> simp [hg]
  have key : ∀ u g, Function.update reserved t (some slot) u = some g →
      (u = t ∧ g = slot) ∨ (u ≠ t ∧ g ≠ slot ∧ reserved u = some g) := by
    intro u g hu
    rcases eq_or_ne u t with rfl | hne
    · left
      simpa [eq_comm] using hu
    · right
      have hu' : reserved u = some g := by simpa [hne] using hu
      refine ⟨hne, ?_, hu'⟩
      rintro rfl
      exact hnone u hu'
  constructor
  case linked => exact (h.linked.setSeg hout _).congr (fun _ _ => rfl) (fun _ _ => rfl) rfl rfl
  case used =>
    intro g hg
    rw [hseg]
    have := h.used g hg
    simp [this]
  case live =>
    intro g hg
    have hne : g ≠ slot := ne_of_mem_of_not_mem hg hout
    simpa [hne] using h.live g hg
  case counts => simpa only [hseg] using h.counts
  case free =>
    intro g hg
    rw [hseg] at hg
    refine h.free g ?_
    by_cases hgs : g = slot <;> simp_all
  case distinct =>
    intro u u' g hu hu'
    rcases key u g hu with ⟨rfl, rfl⟩ | ⟨hut, hgs, hu⟩
    · rcases key u' g hu' with ⟨rfl, -⟩ | ⟨-, hgs, -⟩
      · rfl
      · exact absurd rfl hgs
    · rcases key u' g hu' with ⟨-, rfl⟩ | ⟨-, -, hu'⟩
      · exact absurd rfl hgs
      · exact h.distinct u u' g hu hu'
  all_goals
    intro u g hu
    rcases key u g hu with ⟨rfl, rfl⟩ | ⟨hut, hgs, hu'⟩
  case resUsed.inl => simp [hseg]
  case resUsed.inr => simpa [hseg, hgs] using h.resUsed u g hu'
  case resOutside.inl => exact hout
  case resOutside.inr => exact h.resOutside u g hu'
  case resUnheld.inl => exact h.free g hfree
  case resUnheld.inr => exact h.resUnheld u g hu'
  case resLive.inl => simp
  case resLive.inr => simpa [hgs] using h.resLive u g hu'
  case resBound.inl => exact hlt
  case resBound.inr => exact h.resBound u g hu'

/-- The owner of a reserved slot writes its fields. -/
theorem write (h : Kept pool reserved held retired l) (ht : reserved t = some slot)
    {s : FlushedSegment} (hu : s.inUsed = true) (hr : s.refCount = (pool.seg slot).refCount) :
    Kept (pool.setSeg slot s) reserved held retired l := by
  have hout := h.resOutside t slot ht
  have hne : ∀ g ∈ l, g ≠ slot := fun g hg => ne_of_mem_of_not_mem hg hout
  have hin : ∀ g, (pool.seg g).inUsed = true → ((pool.setSeg slot s).seg g).inUsed = true := by
    intro g hg
    by_cases hgs : g = slot <;> simp [hgs, hu, hg]
  exact { h with
    linked := h.linked.setSeg hout s
    used := fun g hg => hin g (h.used g hg)
    counts := by
      intro g
      by_cases hgs : g = slot
      · simpa [hgs, hr] using h.counts slot
      · simpa [hgs] using h.counts g
    free := by
      intro g hg
      by_cases hgs : g = slot
      · simp [hgs, hu] at hg
      · exact h.free g (by simpa [hgs] using hg)
    resUsed := fun u g hg => hin g (h.resUsed u g hg) }

/-- A reserved slot is given back unused. -/
theorem discard (h : Kept pool reserved held retired l) (ht : reserved t = some slot) :
    Kept (pool.discard slot) (Function.update reserved t none) held retired l := by
  have hout := h.resOutside t slot ht
  have hne : ∀ g ∈ l, g ≠ slot := fun g hg => ne_of_mem_of_not_mem hg hout
  have hseg : ∀ g, (pool.discard slot).seg g =
      if g = slot then (pool.seg slot).clear else pool.seg g := by
    intro g
    simp [FlushedSegmentPool.discard]
  have key : ∀ u g, Function.update reserved t none u = some g →
      g ≠ slot ∧ reserved u = some g := by
    intro u g hu
    have hut : u ≠ t := by
      rintro rfl
      simp at hu
    have hu' : reserved u = some g := by simpa [hut] using hu
    refine ⟨?_, hu'⟩
    rintro rfl
    exact hut (h.distinct u t g hu' ht)
  constructor
  case linked =>
    refine (h.linked.setSeg hout (pool.seg slot).clear).congr ?_ ?_ ?_ ?_ <;>
      simp [FlushedSegmentPool.discard, next, prev]
  case used => exact fun g hg => by simpa [hseg, hne g hg] using h.used g hg
  case live => exact h.live
  case counts =>
    intro g
    by_cases hgs : g = slot
    · subst hgs
      simp [hseg, hout, h.resUnheld t g ht]
    · simpa [hseg, hgs] using h.counts g
  case free =>
    intro g hg
    by_cases hgs : g = slot
    · exact hgs ▸ h.resUnheld t slot ht
    · exact h.free g (by simpa [hseg, hgs] using hg)
  case resUsed =>
    intro u g hu
    obtain ⟨hgs, hu⟩ := key u g hu
    simpa [hseg, hgs] using h.resUsed u g hu
  case resOutside => exact fun u g hu => h.resOutside u g (key u g hu).2
  case resUnheld => exact fun u g hu => h.resUnheld u g (key u g hu).2
  case resLive => exact fun u g hu => h.resLive u g (key u g hu).2
  case resBound => exact fun u g hu => h.resBound u g (key u g hu).2
  case distinct =>
    exact fun u u' g hu hu' => h.distinct u u' g (key u g hu).2 (key u' g hu').2

/-- The reservation of a slot that enters the list ends. -/
theorem reserved_of_update (h : Kept pool reserved held retired l) (ht : reserved t = some slot)
    {u : ℕ} (hu : Function.update reserved t none u = some g) :
    g ≠ slot ∧ g ∉ l ∧ reserved u = some g := by
  have hut : u ≠ t := by
    rintro rfl
    simp at hu
  have hu' : reserved u = some g := by simpa [hut] using hu
  refine ⟨?_, h.resOutside u g hu', hu'⟩
  rintro rfl
  exact hut (h.distinct u t g hu' ht)

/-- The reserved slot enters a list whose other members keep their place. -/
theorem enter {pool' : FlushedSegmentPool} {retired' : ℕ → Bool} {xs olds ys : List ℕ}
    (h : Kept pool reserved held retired (xs ++ olds ++ ys)) (ht : reserved t = some slot)
    (hl : pool'.Linked (xs ++ slot :: ys))
    (hu : ∀ g, (pool'.seg g).inUsed = (pool.dropped olds g).inUsed)
    (hr : ∀ g, (pool'.seg g).refCount = if g = slot then 1 else (pool.dropped olds g).refCount)
    (hret : ∀ g, retired' g = if g ∈ olds then true else retired g) :
    Kept pool' (Function.update reserved t none) held retired' (xs ++ slot :: ys) := by
  have hso : slot ∉ xs ++ olds ++ ys := h.resOutside t slot ht
  have hkeep : ∀ g, g ∉ olds → pool.dropped olds g = pool.seg g := fun g hg => if_neg hg
  have hnd := h.linked.nodup
  have hmem : ∀ g ∈ xs ++ slot :: ys, g = slot ∨ (g ∉ olds ∧ g ∈ xs ++ olds ++ ys) := by
    intro g hg
    rcases List.mem_append.mp hg with hg | hg
    · right
      refine ⟨?_, by simp [hg]⟩
      exact fun ho => (List.nodup_append.mp (List.nodup_append.mp hnd).1).2.2 g hg g ho rfl
    · rcases List.mem_cons.mp hg with rfl | hg
      · exact Or.inl rfl
      · right
        refine ⟨?_, by simp [hg]⟩
        exact fun ho => (List.nodup_append.mp hnd).2.2 g (by simp [ho]) g hg rfl
  have hslot : slot ∉ olds := fun ho => hso (by simp [ho])
  have hres : ∀ u g, Function.update reserved t none u = some g →
      g ≠ slot ∧ g ∉ olds ∧ reserved u = some g := by
    intro u g hu
    obtain ⟨h₁, h₂, h₃⟩ := h.reserved_of_update ht hu
    exact ⟨h₁, fun ho => h₂ (by simp [ho]), h₃⟩
  constructor
  case linked => exact hl
  case used =>
    intro g hg
    rcases hmem g hg with rfl | ⟨ho, hg⟩
    · rw [hu, hkeep _ hslot]
      exact h.resUsed t _ ht
    · rw [hu, hkeep g ho]
      exact h.used g hg
  case live =>
    intro g hg
    rw [hret]
    rcases hmem g hg with rfl | ⟨ho, hg⟩
    · simpa [hslot] using h.resLive t _ ht
    · simpa [ho] using h.live g hg
  case counts =>
    intro g
    rw [hr]
    rcases eq_or_ne g slot with rfl | hgs
    · simp [h.resUnheld t g ht]
    · have hc := h.counts g
      by_cases ho : g ∈ olds
      · have hout : g ∉ xs ++ slot :: ys := by
          intro hg
          rcases hmem g hg with rfl | ⟨hno, -⟩
          · exact hgs rfl
          · exact hno ho
        rw [if_neg hgs, if_neg hout, dropped, if_pos ho, FlushedSegment.dropRef_refCount, hc,
          if_pos (by simp [ho])]
        lia
      · rw [if_neg hgs, hkeep g ho, hc]
        simp [ho, hgs]
  case free =>
    intro g hg
    rw [hu] at hg
    by_cases ho : g ∈ olds
    · rw [dropped, if_pos ho, FlushedSegment.dropRef_inUsed] at hg
      have hc := h.counts g
      rw [if_pos (by simp [ho])] at hc
      split at hg
      next hz => lia
      next => exact h.free g hg
    · rw [hkeep g ho] at hg
      exact h.free g hg
  case resUsed =>
    intro u g hg
    obtain ⟨-, ho, hg⟩ := hres u g hg
    rw [hu, hkeep g ho]
    exact h.resUsed u g hg
  case resOutside =>
    intro u g hg hgl
    obtain ⟨hgs, -, hg⟩ := hres u g hg
    rcases hmem g hgl with rfl | ⟨-, hgl⟩
    · exact hgs rfl
    · exact h.resOutside u g hg hgl
  case resUnheld => exact fun u g hg => h.resUnheld u g (hres u g hg).2.2
  case resLive =>
    intro u g hg
    obtain ⟨-, ho, hg⟩ := hres u g hg
    simpa [hret, ho] using h.resLive u g hg
  case resBound => exact fun u g hg => h.resBound u g (hres u g hg).2.2
  case distinct =>
    exact fun u u' g hg hg' => h.distinct u u' g (hres u g hg).2.2 (hres u' g hg').2.2

/-- Where a segment is linked: behind the last one that does not begin later. -/
theorem register_linked (cfg : PoolConfig) (h : Kept pool reserved held retired l)
    (ht : reserved t = some slot) :
    ∃ xs ys, l = xs ++ ys ∧ (pool.register cfg slot).Linked (xs ++ slot :: ys) := by
  obtain ⟨xs, ys, rfl, hx, hy⟩ := split_last (p := fun g =>
    (pool.seg slot).segmentIdStart < (pool.seg g).segmentIdStart) l
  exact ⟨xs, ys, rfl, h.linked.register (h.resOutside t slot ht) (h.resBound t slot ht)
    (fun g hg => Nat.le_of_not_lt (hx g hg)) hy⟩

/-- Registering a segment. -/
theorem register (cfg : PoolConfig) (h : Kept pool reserved held retired l)
    (ht : reserved t = some slot) :
    ∃ xs ys, l = xs ++ ys ∧ Kept (pool.register cfg slot) (Function.update reserved t none) held
      retired (xs ++ slot :: ys) := by
  obtain ⟨xs, ys, rfl, hlink⟩ := h.register_linked cfg ht
  have h' : Kept pool reserved held retired (xs ++ [] ++ ys) := by rwa [List.append_nil]
  refine ⟨xs, ys, rfl, h'.enter ht hlink ?_ ?_ ?_⟩
  · simp [dropped]
  · simp [dropped]
  · simp

/-- Replacing a run of the list. -/
theorem replaceN (cfg : PoolConfig) {xs olds ys : List ℕ}
    (h : Kept pool reserved held retired (xs ++ olds ++ ys)) (ht : reserved t = some slot)
    (hne : olds ≠ []) :
    Kept (pool.replaceN cfg olds slot) (Function.update reserved t none) held
      (fun g => if g ∈ olds then true else retired g) (xs ++ slot :: ys) := by
  have hno : olds.Nodup := (List.nodup_append.mp (List.nodup_append.mp h.linked.nodup).1).2.1
  have hseg := replaceN_seg cfg pool slot hno hne
  refine h.enter ht (h.linked.replaceN hne (h.resOutside t slot ht) (h.resBound t slot ht)) ?_ ?_
    (fun _ => rfl)
  · exact fun g => (hseg g).2.2.1
  · exact fun g => (hseg g).2.2.2

/-- A reference comes or goes: what is held follows the count. -/
theorem setRefs {held' : ℕ → ℕ} (h : Kept pool reserved held retired l)
    (hu : ∀ g, (pool'.seg g).inUsed = (pool.seg g).inUsed)
    (hl : pool'.Linked l)
    (hr : ∀ g, (pool'.seg g).refCount - held' g = (pool.seg g).refCount - held g)
    (hf : ∀ g, g ∉ l → held g = 0 → held' g = 0) : Kept pool' reserved held' retired l where
  linked := hl
  used := by simpa only [hu] using h.used
  live := h.live
  counts := by
    intro g
    have := h.counts g
    have := hr g
    lia
  free := by
    intro g hg
    rw [hu] at hg
    exact hf g (h.not_mem_of_free hg) (h.free g hg)
  resUsed := by simpa only [hu] using h.resUsed
  resOutside := h.resOutside
  resUnheld := fun u g hg => hf g (h.resOutside u g hg) (h.resUnheld u g hg)
  resLive := h.resLive
  resBound := h.resBound
  distinct := h.distinct

theorem not_mem_of_zero (h : Kept pool reserved held retired l)
    (hz : (pool.seg g).refCount = 0) : g ∉ l := by
  intro hgl
  have hc := h.counts g
  rw [if_pos hgl] at hc
  lia

/-- The clean-up of a slot whose count is zero and that nobody has reserved. -/
theorem cleanup (h : Kept pool reserved held retired l) (hz : (pool.seg g).refCount = 0)
    (hg : ∀ t, reserved t ≠ some g) : Kept (pool.cleanup g) reserved held retired l := by
  have hout := h.not_mem_of_zero hz
  have hheld : held g = 0 := by
    have hc := h.counts g
    rw [if_neg hout] at hc
    lia
  have hne : ∀ a ∈ l, a ≠ g := fun a ha => ne_of_mem_of_not_mem ha hout
  have hseg : ∀ a, (pool.cleanup g).seg a =
      if a = g then (pool.seg g).clear else pool.seg a := by
    intro a
    simp [FlushedSegmentPool.cleanup]
  constructor
  case linked =>
    refine (h.linked.setSeg hout (pool.seg g).clear).congr ?_ ?_ rfl rfl <;> intro a _ <;> rfl
  case used => exact fun a ha => by simpa [hseg, hne a ha] using h.used a ha
  case live => exact h.live
  case counts =>
    intro a
    by_cases hag : a = g
    · simp [hseg, hag, hout, hheld]
    · simpa [hseg, hag] using h.counts a
  case free =>
    intro a ha
    by_cases hag : a = g
    · exact hag ▸ hheld
    · exact h.free a (by simpa [hseg, hag] using ha)
  case resUsed =>
    intro u a hu
    have hag : a ≠ g := by
      rintro rfl
      exact hg u hu
    simpa [hseg, hag] using h.resUsed u a hu
  case resOutside => exact h.resOutside
  case resUnheld => exact h.resUnheld
  case resLive => exact h.resLive
  case resBound => exact h.resBound
  case distinct => exact h.distinct

end Kept

end VectorLsm.Pool
