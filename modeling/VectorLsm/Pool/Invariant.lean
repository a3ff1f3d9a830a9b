import VectorLsm.Pool.Kept
import VectorLsm.Pool.Machine

/-! # The pool invariant

The list of the pool with the reservations, the references held outside it and the slots that
were replaced, and what each operation does to all of them.
-/

namespace VectorLsm.Pool

open FlushedSegmentPool

/-- The list is `l`; the slots outside it are free, reserved by one thread, or kept by
references. -/
structure Inv (pool : FlushedSegmentPool) (reserved : ℕ → Option ℕ) (held : ℕ → ℕ)
    (retired : ℕ → Bool) (l : List ℕ) : Prop where
  linked : pool.Linked l
  used : ∀ g ∈ l, (pool.seg g).inUsed = true
  nonempty : ∀ g ∈ l, (pool.seg g).segmentIdStart ≤ (pool.seg g).segmentIdEnd
  sorted : l.Pairwise fun a b => (pool.seg a).segmentIdEnd < (pool.seg b).segmentIdStart
  live : ∀ g ∈ l, retired g = false
  counts : ∀ g, (pool.seg g).refCount = (if g ∈ l then 1 else 0) + held g
  free : ∀ g, (pool.seg g).inUsed = false → held g = 0
  resUsed : ∀ t slot, reserved t = some slot → (pool.seg slot).inUsed = true
  resOutside : ∀ t slot, reserved t = some slot → slot ∉ l
  resUnheld : ∀ t slot, reserved t = some slot → held slot = 0
  resLive : ∀ t slot, reserved t = some slot → retired slot = false
  resBound : ∀ t slot, reserved t = some slot → slot < maxSegmentsCount
  distinct : ∀ t t' slot, reserved t = some slot → reserved t' = some slot → t = t'

namespace Inv

variable {pool pool' : FlushedSegmentPool} {reserved : ℕ → Option ℕ}
  {held : ℕ → ℕ} {retired : ℕ → Bool} {l : List ℕ} {t slot g : ℕ}

theorem members (h : Inv pool reserved held retired l) : pool.members = l := h.linked.members

theorem kept (h : Inv pool reserved held retired l) : Kept pool reserved held retired l :=
  ⟨h.linked, h.used, h.live, h.counts, h.free, h.resUsed, h.resOutside, h.resUnheld, h.resLive,
    h.resBound, h.distinct⟩

/-- What is left to show are the ranges. -/
theorem of_kept (h : Kept pool reserved held retired l)
    (hn : ∀ g ∈ l, (pool.seg g).segmentIdStart ≤ (pool.seg g).segmentIdEnd)
    (hs : l.Pairwise fun a b => (pool.seg a).segmentIdEnd < (pool.seg b).segmentIdStart) :
    Inv pool reserved held retired l where
  linked := h.linked
  used := h.used
  nonempty := hn
  sorted := hs
  live := h.live
  counts := h.counts
  free := h.free
  resUsed := h.resUsed
  resOutside := h.resOutside
  resUnheld := h.resUnheld
  resLive := h.resLive
  resBound := h.resBound
  distinct := h.distinct

/-- The ranges of the members are left alone. -/
theorem of_kept_ranges {reserved' : ℕ → Option ℕ} {held' : ℕ → ℕ} {retired' : ℕ → Bool}
    (h : Inv pool reserved held retired l) (h' : Kept pool' reserved' held' retired' l)
    (hs : ∀ g ∈ l, (pool'.seg g).segmentIdStart = (pool.seg g).segmentIdStart)
    (he : ∀ g ∈ l, (pool'.seg g).segmentIdEnd = (pool.seg g).segmentIdEnd) :
    Inv pool' reserved' held' retired' l := by
  refine of_kept h' (fun g hg => ?_) (h.sorted.imp_of_mem fun {a b} ha hb hab => ?_)
  · rw [hs g hg, he g hg]
    exact h.nonempty g hg
  · rwa [he a ha, hs b hb]

theorem not_mem_of_free (h : Inv pool reserved held retired l) (hg : (pool.seg g).inUsed = false) :
    g ∉ l := h.kept.not_mem_of_free hg

/-- Slots may change in the fields the invariant does not read. -/
theorem congr (h : Inv pool reserved held retired l)
    (hu : ∀ g, (pool'.seg g).inUsed = (pool.seg g).inUsed)
    (hs : ∀ g, (pool'.seg g).segmentIdStart = (pool.seg g).segmentIdStart)
    (he : ∀ g, (pool'.seg g).segmentIdEnd = (pool.seg g).segmentIdEnd)
    (hr : ∀ g, (pool'.seg g).refCount = (pool.seg g).refCount)
    (hl : pool'.Linked l) : Inv pool' reserved held retired l :=
  h.of_kept_ranges (h.kept.congr hu hr hl) (fun g _ => hs g) fun g _ => he g

/-- A thread keeps its reservation or gives it up. -/
theorem setReserved (h : Inv pool reserved held retired l) {r : Option ℕ}
    (hr : r = none ∨ r = reserved t) : Inv pool (Function.update reserved t r) held retired l :=
  of_kept (h.kept.setReserved hr) h.nonempty h.sorted

/-- A free slot is reserved by a thread that has none. -/
theorem reserve (h : Inv pool reserved held retired l) (ht : reserved t = none)
    (hres : pool.reserve = some (slot, pool')) :
    Inv pool' (Function.update reserved t (some slot)) held
      (Function.update retired slot false) l := by
  obtain ⟨hfree, hlt, rfl⟩ := reserve_eq hres
  have hne : ∀ g ∈ l, g ≠ slot := fun g hg => ne_of_mem_of_not_mem hg (h.not_mem_of_free hfree)
  refine h.of_kept_ranges (h.kept.reserve ht hres) (fun g hg => ?_) fun g hg => ?_
  · simp [hne g hg]
  · simp [hne g hg]

/-- The owner of a reserved slot writes its fields. -/
theorem write (h : Inv pool reserved held retired l) (ht : reserved t = some slot)
    {s : FlushedSegment} (hu : s.inUsed = true) (hr : s.refCount = (pool.seg slot).refCount) :
    Inv (pool.setSeg slot s) reserved held retired l := by
  have hne : ∀ g ∈ l, g ≠ slot := fun g hg => ne_of_mem_of_not_mem hg (h.resOutside t slot ht)
  refine h.of_kept_ranges (h.kept.write ht hu hr) (fun g hg => ?_) fun g hg => ?_
  · simp [hne g hg]
  · simp [hne g hg]

/-- A reserved slot is given back unused. -/
theorem discard (h : Inv pool reserved held retired l) (ht : reserved t = some slot) :
    Inv (pool.discard slot) (Function.update reserved t none) held retired l := by
  have hne : ∀ g ∈ l, g ≠ slot := fun g hg => ne_of_mem_of_not_mem hg (h.resOutside t slot ht)
  refine h.of_kept_ranges (h.kept.discard ht) (fun g hg => ?_) fun g hg => ?_
  · simp [FlushedSegmentPool.discard, hne g hg]
  · simp [FlushedSegmentPool.discard, hne g hg]

section Ranges

/-- Segments in order that a range does not meet lie before or behind it. -/
theorem split_of_disjoint {lo hi : SegmentId}
    (hl : l.Pairwise fun a b => (pool.seg a).segmentIdEnd < (pool.seg b).segmentIdStart)
    (hn : ∀ g ∈ l, (pool.seg g).segmentIdStart ≤ (pool.seg g).segmentIdEnd)
    (hd : ∀ g ∈ l, hi < (pool.seg g).segmentIdStart ∨ (pool.seg g).segmentIdEnd < lo) :
    ∃ xs ys, l = xs ++ ys ∧ (∀ g ∈ xs, (pool.seg g).segmentIdEnd < lo) ∧
      ∀ g ∈ ys, hi < (pool.seg g).segmentIdStart := by
  induction l with
  | nil => exact ⟨[], [], rfl, by simp, by simp⟩
  | cons a l ih =>
      obtain ⟨ha, hl⟩ := List.pairwise_cons.mp hl
      rcases hd a List.mem_cons_self with hhi | hlt
      · refine ⟨[], a :: l, rfl, by simp, ?_⟩
        rintro g hg
        rcases List.mem_cons.mp hg with rfl | hg
        · exact hhi
        · have := hn a List.mem_cons_self
          have := ha g hg
          lia
      · obtain ⟨xs, ys, rfl, hx, hy⟩ := ih hl (fun g hg => hn g (List.mem_cons_of_mem a hg))
          (fun g hg => hd g (List.mem_cons_of_mem a hg))
        refine ⟨a :: xs, ys, rfl, ?_, hy⟩
        rintro g hg
        rcases List.mem_cons.mp hg with rfl | hg
        · exact hlt
        · exact hx g hg

/-- What is left of the list around a range that fits. -/
theorem split_of_fits (h : Inv pool reserved held retired l) {olds : List ℕ} {lo hi : SegmentId}
    (hf : Fits pool olds lo hi) : ∃ xs ys, l = xs ++ olds ++ ys ∧
      (∀ g ∈ xs, (pool.seg g).segmentIdEnd < lo) ∧
      ∀ g ∈ ys, hi < (pool.seg g).segmentIdStart := by
  obtain ⟨-, ⟨xs, ys, hl⟩, hmeet, hd⟩ := hf
  rw [h.members] at hl hd
  rcases hmeet with rfl | ⟨o, ho, hos, hoe⟩
  · simpa using split_of_disjoint h.sorted h.nonempty (fun g hg => hd g hg (by simp))
  · subst hl
    refine ⟨xs, ys, rfl, ?_, ?_⟩
    · intro g hg
      obtain ⟨hxo, -, -⟩ := List.pairwise_append.mp h.sorted
      have hgo := (List.pairwise_append.mp hxo).2.2 g hg o ho
      have hge := h.nonempty g (by simp [hg])
      have hnot : g ∉ olds := fun hg' =>
        (List.nodup_append.mp (List.nodup_append.mp h.linked.nodup).1).2.2 g hg g hg' rfl
      rcases hd g (by simp [hg]) hnot with hlt | hlt
      · lia
      · exact hlt
    · intro g hg
      have hog := (List.pairwise_append.mp h.sorted).2.2 o (by simp [ho]) g hg
      have hge := h.nonempty g (by simp [hg])
      have hnot : g ∉ olds := fun hg' =>
        (List.nodup_append.mp h.linked.nodup).2.2 g (by simp [hg']) g hg rfl
      rcases hd g (by simp [hg]) hnot with hlt | hlt
      · exact hlt
      · lia

end Ranges

/-- The reserved slot enters a list whose other members keep their place. -/
theorem enter {pool' : FlushedSegmentPool} {retired' : ℕ → Bool} {xs olds ys : List ℕ}
    (h : Inv pool reserved held retired (xs ++ olds ++ ys)) (ht : reserved t = some slot)
    (hx : ∀ g ∈ xs, (pool.seg g).segmentIdEnd < (pool.seg slot).segmentIdStart)
    (hy : ∀ g ∈ ys, (pool.seg slot).segmentIdEnd < (pool.seg g).segmentIdStart)
    (hn : (pool.seg slot).segmentIdStart ≤ (pool.seg slot).segmentIdEnd)
    (hl : pool'.Linked (xs ++ slot :: ys))
    (hs : ∀ g, (pool'.seg g).segmentIdStart = (pool.seg g).segmentIdStart)
    (he : ∀ g, (pool'.seg g).segmentIdEnd = (pool.seg g).segmentIdEnd)
    (hu : ∀ g, (pool'.seg g).inUsed = (pool.dropped olds g).inUsed)
    (hr : ∀ g, (pool'.seg g).refCount = if g = slot then 1 else (pool.dropped olds g).refCount)
    (hret : ∀ g, retired' g = if g ∈ olds then true else retired g) :
    Inv pool' (Function.update reserved t none) held retired' (xs ++ slot :: ys) := by
  refine of_kept (h.kept.enter ht hl hu hr hret) (fun g hg => ?_) ?_
  · rw [hs, he]
    rcases List.mem_append.mp hg with hg | hg
    · exact h.nonempty g (by simp [hg])
    · rcases List.mem_cons.mp hg with rfl | hg
      · exact hn
      · exact h.nonempty g (by simp [hg])
  · simp only [hs, he]
    have hsub : (xs ++ ys).Pairwise
        fun a b => (pool.seg a).segmentIdEnd < (pool.seg b).segmentIdStart :=
      h.sorted.sublist (by simp)
    obtain ⟨hxx, hyy, hxy⟩ := List.pairwise_append.mp hsub
    refine List.pairwise_append.mpr ⟨hxx, List.pairwise_cons.mpr ⟨hy, hyy⟩, ?_⟩
    intro a ha b hb
    rcases List.mem_cons.mp hb with rfl | hb
    · exact hx a ha
    · exact hxy a ha b hb

/-- Where a segment that meets no member is linked. -/
theorem register_linked (cfg : PoolConfig) (h : Inv pool reserved held retired l)
    (ht : reserved t = some slot)
    (hf : Fits pool [] (pool.seg slot).segmentIdStart (pool.seg slot).segmentIdEnd) :
    ∃ xs ys, l = xs ++ ys ∧ (pool.register cfg slot).Linked (xs ++ slot :: ys) ∧
      (∀ g ∈ xs, (pool.seg g).segmentIdEnd < (pool.seg slot).segmentIdStart) ∧
      ∀ g ∈ ys, (pool.seg slot).segmentIdEnd < (pool.seg g).segmentIdStart := by
  obtain ⟨xs, ys, rfl, hx, hy⟩ := h.split_of_fits hf
  have hn := hf.1
  have hlink := h.linked
  rw [List.append_nil] at hlink
  refine ⟨xs, ys, by rw [List.append_nil], ?_, hx, hy⟩
  refine hlink.register ?_ (h.resBound t slot ht) ?_ ?_
  · simpa using h.resOutside t slot ht
  · intro g hg
    have hg := List.mem_of_getLast? hg
    have := h.nonempty g (by simp [hg])
    have := hx g hg
    lia
  · intro g hg
    have := hy g hg
    lia

/-- Registering a segment that meets no member. -/
theorem register (cfg : PoolConfig) (h : Inv pool reserved held retired l)
    (ht : reserved t = some slot)
    (hf : Fits pool [] (pool.seg slot).segmentIdStart (pool.seg slot).segmentIdEnd) :
    ∃ l', Inv (pool.register cfg slot) (Function.update reserved t none) held retired l' ∧
      ∀ g ∈ l', g = slot ∨ g ∈ l := by
  obtain ⟨xs, ys, rfl, hlink, hx, hy⟩ := h.register_linked cfg ht hf
  have h' : Inv pool reserved held retired (xs ++ [] ++ ys) := by rwa [List.append_nil]
  refine ⟨xs ++ slot :: ys, h'.enter ht hx hy hf.1 hlink ?_ ?_ ?_ ?_ ?_, by simp; tauto⟩
  · exact fun g => register_segmentIdStart cfg pool slot g
  · exact fun g => register_segmentIdEnd cfg pool slot g
  · simp [dropped]
  · simp [dropped]
  · simp

/-- A member fits its own place. -/
theorem fits_self (h : Inv pool reserved held retired l) (hg : g ∈ l) :
    Fits pool [g] (pool.seg g).segmentIdStart (pool.seg g).segmentIdEnd := by
  have hn := h.nonempty g hg
  refine ⟨hn, ?_, Or.inr ⟨g, by simp, hn, hn⟩, ?_⟩
  · rw [h.members]
    obtain ⟨xs, ys, rfl⟩ := List.append_of_mem hg
    exact ⟨xs, ys, by simp⟩
  · intro a ha hag
    rw [h.members] at ha
    obtain ⟨xs, ys, rfl⟩ := List.append_of_mem hg
    have hs := List.pairwise_append.mp h.sorted
    rcases List.mem_append.mp ha with ha | ha
    · exact Or.inr (hs.2.2 a ha g (by simp))
    · rcases List.mem_cons.mp ha with rfl | ha
      · simp at hag
      · exact Or.inl ((List.pairwise_cons.mp hs.2.1).1 a ha)

/-- Where a segment that takes the place of members is linked. -/
theorem replaceN_linked (cfg : PoolConfig) (h : Inv pool reserved held retired l)
    (ht : reserved t = some slot) {olds : List ℕ} {lo hi : SegmentId} (hne : olds ≠ [])
    (hf : Fits pool olds lo hi) :
    ∃ xs ys, l = xs ++ olds ++ ys ∧ (pool.replaceN cfg olds slot).Linked (xs ++ slot :: ys) ∧
      (∀ g ∈ xs, (pool.seg g).segmentIdEnd < lo) ∧ ∀ g ∈ ys, hi < (pool.seg g).segmentIdStart := by
  obtain ⟨xs, ys, rfl, hx, hy⟩ := h.split_of_fits hf
  exact ⟨xs, ys, rfl,
    h.linked.replaceN hne (h.resOutside t slot ht) (h.resBound t slot ht), hx, hy⟩

/-- Replacing members by a segment that takes their place. -/
theorem replaceN (cfg : PoolConfig) (h : Inv pool reserved held retired l)
    (ht : reserved t = some slot)
    {olds : List ℕ} (hne : olds ≠ [])
    (hf : Fits pool olds (pool.seg slot).segmentIdStart (pool.seg slot).segmentIdEnd) :
    ∃ l', Inv (pool.replaceN cfg olds slot) (Function.update reserved t none) held
      (fun g => if g ∈ olds then true else retired g) l' := by
  obtain ⟨xs, ys, rfl, hlink, hx, hy⟩ := h.replaceN_linked cfg ht hne hf
  have hno : olds.Nodup := (List.nodup_append.mp (List.nodup_append.mp h.linked.nodup).1).2.1
  have hseg := replaceN_seg cfg pool slot hno hne
  refine ⟨xs ++ slot :: ys, h.enter ht hx hy hf.1 hlink ?_ ?_ ?_ ?_ (fun _ => rfl)⟩
  · exact fun g => (hseg g).1
  · exact fun g => (hseg g).2.1
  · exact fun g => (hseg g).2.2.1
  · exact fun g => (hseg g).2.2.2

/-- A reference comes or goes: what is held follows the count. -/
theorem setRefs {held' : ℕ → ℕ} (h : Inv pool reserved held retired l)
    (hu : ∀ g, (pool'.seg g).inUsed = (pool.seg g).inUsed)
    (hs : ∀ g, (pool'.seg g).segmentIdStart = (pool.seg g).segmentIdStart)
    (he : ∀ g, (pool'.seg g).segmentIdEnd = (pool.seg g).segmentIdEnd)
    (hl : pool'.Linked l)
    (hr : ∀ g, (pool'.seg g).refCount - held' g = (pool.seg g).refCount - held g)
    (hf : ∀ g, g ∉ l → held g = 0 → held' g = 0) : Inv pool' reserved held' retired l :=
  h.of_kept_ranges (h.kept.setRefs hu hl hr hf) (fun g _ => hs g) fun g _ => he g

/-- The clean-up of a slot whose count is zero and that nobody has reserved. -/
theorem cleanup (h : Inv pool reserved held retired l) (hz : (pool.seg g).refCount = 0)
    (hg : ∀ t, reserved t ≠ some g) : Inv (pool.cleanup g) reserved held retired l := by
  have hne : ∀ a ∈ l, a ≠ g := fun a ha => ne_of_mem_of_not_mem ha (h.kept.not_mem_of_zero hz)
  refine h.of_kept_ranges (h.kept.cleanup hz hg) (fun a ha => ?_) fun a ha => ?_
  · simp [FlushedSegmentPool.cleanup, hne a ha]
  · simp [FlushedSegmentPool.cleanup, hne a ha]

end Inv

end VectorLsm.Pool
