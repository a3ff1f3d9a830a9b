import VectorLsm.Pool.WellFormed
import VectorLsm.Retire.Machine

/-! # Counts, drops and the list

What ties the reference count of a slot to the list, to the references held outside it and to the
drops that have not tested yet.
-/

namespace VectorLsm.Retire

open FlushedSegmentPool

/-- The replacement under way has dropped the reference the list had on `g`. -/
def Taken (s : State) (g : ℕ) : Prop := ∃ w, s.writer = some w ∧ g ∈ w.done

instance (s : State) (g : ℕ) : Decidable (Taken s g) :=
  decidable_of_iff (∃ w ∈ s.writer, g ∈ w.done) (by simp [Taken])

/-- The list is `l`. A slot in use outside it is reserved or retired, and where its count is zero
exactly one drop is about to find that. -/
structure Inv (s : State) (l : List ℕ) : Prop where
  chain : ∃ next prev, Chain.Seg next prev none l none ∧
    ∀ g ∈ l, ¬ Taken s g → s.pool.next g = next g ∧ s.pool.prev g = prev g
  head : s.pool.headIdx = l.head?
  tail : s.pool.tailIdx = l.getLast?
  nodup : l.Nodup
  bound : ∀ g ∈ l, g < maxSegmentsCount
  replacing : ∀ w, s.writer = some w → ∃ xs ys, l = xs ++ w.olds ++ ys ∧ w.olds ≠ [] ∧
    w.idx ∈ s.reserved ∧ w.prevIdx = xs.getLast? ∧ w.nextIdx = ys.head?
  testing : ∀ w g, s.writer = some w → w.testing = some g → 0 < s.dropping g
  distinct : s.reserved.Nodup
  resUsed : ∀ g ∈ s.reserved, (s.pool.seg g).inUsed = true
  resOutside : ∀ g ∈ s.reserved, g ∉ l
  resUnheld : ∀ g ∈ s.reserved, s.held g = 0 ∧ s.dropping g = 0
  resLive : ∀ g ∈ s.reserved, s.retired g = false
  resBound : ∀ g ∈ s.reserved, g < maxSegmentsCount
  used : ∀ g ∈ l, ¬ Taken s g → (s.pool.seg g).inUsed = true
  live : ∀ g ∈ l, s.retired g = true ↔ ∃ w, s.writer = some w ∧ g ∈ w.olds
  counts : ∀ g, (s.pool.seg g).refCount =
    (if g ∈ l ∧ ¬ Taken s g then 1 else 0) + s.held g
  free : ∀ g, (s.pool.seg g).inUsed = false → s.held g = 0 ∧ s.dropping g = 0
  last : ∀ g, (s.pool.seg g).inUsed = true → (s.pool.seg g).refCount = 0 → g ∉ s.reserved →
    s.dropping g = 1
  outside : ∀ g, (s.pool.seg g).inUsed = true → g ∉ l → g ∉ s.reserved → s.retired g = true
  proper : ∀ c ∈ s.cleanups, c.inUsed = true ∧ c.retired = true ∧ c.held = 0
  once : ∀ g, s.retirements g = s.cleanups.countP (fun c => c.idx = g) +
    if s.retired g = true ∧ (s.pool.seg g).inUsed = true then 1 else 0

namespace Inv

variable {cfg : PoolConfig} {s s' : State} {l olds : List ℕ} {g idx : ℕ}

theorem not_taken (hw : s.writer = none) : ¬ Taken s g := by
  rintro ⟨w, hw', -⟩
  simp [hw] at hw'

theorem linked (h : Inv s l) (hw : s.writer = none) : s.pool.Linked l := by
  obtain ⟨next, prev, hseg, hlinks⟩ := h.chain
  exact ⟨hseg.congr (fun g hg => (hlinks g hg (not_taken hw)).1)
    fun g hg => (hlinks g hg (not_taken hw)).2, h.head, h.tail, h.nodup, h.bound⟩

/-- A member that was taken is one of those the replacement is about. -/
theorem mem_of_taken (h : Inv s l) (ht : Taken s g) : g ∈ l ∧ s.retired g = true := by
  obtain ⟨w, hw, hg⟩ := ht
  obtain ⟨xs, ys, hl, -⟩ := h.replacing w hw
  have ho : g ∈ w.olds := List.mem_append_left _ hg
  have hgl : g ∈ l := by simp [hl, ho]
  exact ⟨hgl, (h.live g hgl).mpr ⟨w, hw, ho⟩⟩

/-- A slot that is in use, with no reference left and not reserved, was replaced. -/
theorem retired_of_zero (h : Inv s l) (hu : (s.pool.seg g).inUsed = true)
    (hz : (s.pool.seg g).refCount = 0) (hr : g ∉ s.reserved) :
    s.retired g = true ∧ s.held g = 0 := by
  have hc := h.counts g
  by_cases hg : g ∈ l ∧ ¬ Taken s g
  · rw [if_pos hg] at hc
    lia
  · rw [if_neg hg] at hc
    refine ⟨?_, by lia⟩
    by_cases hgl : g ∈ l
    · have ht : Taken s g := by
        by_contra ht
        exact hg ⟨hgl, ht⟩
      exact (h.mem_of_taken ht).2
    · exact h.outside g hu hgl hr

/-- What a drop about to test may find: the slot is in use and nobody's reservation. -/
theorem used_of_dropping (h : Inv s l) (hd : 0 < s.dropping g) :
    (s.pool.seg g).inUsed = true ∧ g ∉ s.reserved := by
  constructor
  · by_contra hu
    have := (h.free g (by simpa using hu)).2
    lia
  · intro hr
    have := (h.resUnheld g hr).2
    lia

/-- References come and go, and fields change that the invariant does not read. -/
theorem frame (h : Inv s l) (hw : s'.writer = s.writer) (hres : s'.reserved = s.reserved)
    (hret : s'.retired = s.retired) (hrets : s'.retirements = s.retirements)
    (hcl : s'.cleanups = s.cleanups) (hn : s'.pool.next = s.pool.next)
    (hp : s'.pool.prev = s.pool.prev) (hh : s'.pool.headIdx = s.pool.headIdx)
    (ht : s'.pool.tailIdx = s.pool.tailIdx)
    (hu : ∀ g, (s'.pool.seg g).inUsed = (s.pool.seg g).inUsed)
    (hc : ∀ g, (s'.pool.seg g).refCount - s'.held g = (s.pool.seg g).refCount - s.held g)
    (htest : ∀ w g, s.writer = some w → w.testing = some g → 0 < s'.dropping g)
    (hfree : ∀ g, (s.pool.seg g).inUsed = false ∨ g ∈ s.reserved →
      s'.held g = 0 ∧ s'.dropping g = 0)
    (hlast : ∀ g, (s.pool.seg g).inUsed = true → (s'.pool.seg g).refCount = 0 →
      g ∉ s.reserved → s'.dropping g = 1) : Inv s' l := by
  have htk : Taken s' = Taken s := by
    funext g
    simp [Taken, hw]
  constructor
  case chain => simpa only [hn, hp, htk] using h.chain
  case head => exact hh.trans h.head
  case tail => exact ht.trans h.tail
  case nodup => exact h.nodup
  case bound => exact h.bound
  case replacing => simpa only [hw, hres] using h.replacing
  case testing => simpa only [hw] using htest
  case distinct => simpa only [hres] using h.distinct
  case resUsed => simpa only [hres, hu] using h.resUsed
  case resOutside => simpa only [hres] using h.resOutside
  case resUnheld => simpa only [hres] using fun g hg => hfree g (Or.inr hg)
  case resLive => simpa only [hres, hret] using h.resLive
  case resBound => simpa only [hres] using h.resBound
  case used => simpa only [htk, hu] using h.used
  case live => simpa only [hw, hret] using h.live
  case counts =>
    intro g
    have := hc g
    have := h.counts g
    simp only [htk]
    lia
  case free => simpa only [hu] using fun g hg => hfree g (Or.inl hg)
  case last => simpa only [hu, hres] using hlast
  case outside => simpa only [hu, hres, hret] using h.outside
  case proper => simpa only [hcl] using h.proper
  case once => simpa only [hcl, hret, hrets, hu] using h.once

/-- The owner of a reserved slot writes its fields. -/
theorem write (h : Inv s l) (hg : idx ∈ s.reserved) {x : FlushedSegment}
    (hu : x.inUsed = true) (hr : x.refCount = (s.pool.seg idx).refCount)
    (hn : x.nextIdx = s.pool.next idx) (hp : x.prevIdx = s.pool.prev idx) :
    Inv { s with pool := s.pool.setSeg idx x } l := by
  apply h.frame <;> try rfl
  case hn =>
    funext g
    by_cases hgi : g = idx <;> simp [next, hgi, hn]
  case hp =>
    funext g
    by_cases hgi : g = idx <;> simp [prev, hgi, hp]
  case hu =>
    intro g
    by_cases hgi : g = idx
    · simp [hgi, hu, h.resUsed idx hg]
    · simp [hgi]
  case hc =>
    intro g
    by_cases hgi : g = idx <;> simp [hgi, hr]
  case htest => exact h.testing
  case hfree =>
    rintro g (hg | hg)
    · exact h.free g hg
    · exact h.resUnheld g hg
  case hlast =>
    intro g hgu hz hgr
    have hgi : g ≠ idx := by
      rintro rfl
      exact hgr hg
    exact h.last g hgu (by simpa [hgi] using hz) hgr

/-- Searches and VACUUM updates take references on members. -/
theorem acquire (h : Inv s l) (hw : s.writer = none) {gs : List ℕ} (hgs : ∀ g ∈ gs, g ∈ l) :
    Inv (s.acquire gs) l := by
  have hcount : ∀ g, g ∉ l → gs.count g = 0 := fun g hg =>
    List.count_eq_zero.mpr fun hg' => hg (hgs g hg')
  apply h.frame <;> try rfl
  case hu => exact fun _ => rfl
  case hc =>
    intro g
    simp only [State.acquire, seg, FlushedSegment.setRef]
    lia
  case htest => exact h.testing
  case hfree =>
    intro g hg
    have hgl : g ∉ l := by
      rcases hg with hg | hg
      · intro hgl
        simp [h.used g hgl (not_taken hw)] at hg
      · exact h.resOutside g hg
    have hz : s.held g = 0 ∧ s.dropping g = 0 := by
      rcases hg with hg | hg
      · exact h.free g hg
      · exact h.resUnheld g hg
    simpa [State.acquire, hcount g hgl] using hz
  case hlast =>
    intro g hgu hz hgr
    have hz' : (s.pool.seg g).refCount + gs.count g = 0 := hz
    have := h.counts g
    have : (0 : ℤ) ≤ if g ∈ l ∧ ¬ Taken s g then 1 else 0 := by split <;> simp
    exact h.last g hgu (by lia) hgr

/-- A holder subtracts; if it leaves zero no other drop is about to test. -/
theorem drop (h : Inv s l) (hg : 0 < s.held g)
    (hz : (s.pool.seg g).refCount = 1 → s.dropping g = 0) :
    Inv { s.subtract g with held := Function.update s.held g (s.held g - 1) } l := by
  have hu : (s.pool.seg g).inUsed = true := by
    by_contra hu
    have := (h.free g (by simpa using hu)).1
    lia
  have hr : g ∉ s.reserved := by
    intro hr
    have := (h.resUnheld g hr).1
    lia
  apply h.frame <;> try rfl
  case hn =>
    funext a
    by_cases hag : a = g <;> simp [State.subtract, next, hag]
  case hp =>
    funext a
    by_cases hag : a = g <;> simp [State.subtract, prev, hag]
  case hu =>
    intro a
    by_cases hag : a = g <;> simp [State.subtract, hag]
  case hc =>
    intro a
    by_cases hag : a = g
    · subst hag
      simp only [State.subtract, seg_setSeg, if_true, Function.update_self,
        FlushedSegment.setRef_refCount]
      lia
    · simp [State.subtract, hag]
  case htest =>
    intro w a hw ha
    have := h.testing w a hw ha
    by_cases hag : a = g <;> simp [State.subtract, hag, this]
  case hfree =>
    intro a ha
    have hag : a ≠ g := by
      rintro rfl
      rcases ha with ha | ha
      · simp [hu] at ha
      · exact hr ha
    rcases ha with ha | ha
    · simpa [State.subtract, hag] using h.free a ha
    · simpa [State.subtract, hag] using h.resUnheld a ha
  case hlast =>
    intro a hau haz har
    by_cases hag : a = g
    · subst hag
      have haz' : (s.pool.seg a).refCount - 1 = 0 := by
        simpa [State.subtract] using haz
      simp [State.subtract, hz (by lia)]
    · simpa [State.subtract, hag] using h.last a hau (by simpa [State.subtract, hag] using haz) har

/-- The clean-up behind the drop that left zero, which was the only one. -/
theorem cleanup (h : Inv s l) (hd : 0 < s.dropping g) (hz : (s.pool.seg g).refCount = 0)
    (htest : ∀ w a, s.writer = some w → w.testing = some a → a ≠ g) (lockFree : Bool) :
    Inv (State.cleanup { s with dropping := Function.update s.dropping g (s.dropping g - 1) } g
      lockFree) l := by
  obtain ⟨hu, hr⟩ := h.used_of_dropping hd
  obtain ⟨hret, hheld⟩ := h.retired_of_zero hu hz hr
  have hone := h.last g hu hz hr
  have htaken : g ∈ l → Taken s g := by
    intro hgl
    by_contra ht
    have := h.counts g
    rw [if_pos ⟨hgl, ht⟩] at this
    lia
  set s' := State.cleanup { s with dropping := Function.update s.dropping g (s.dropping g - 1) }
    g lockFree with hs'
  have hseg : ∀ a, s'.pool.seg a = if a = g then (s.pool.seg g).clear else s.pool.seg a := by
    intro a
    rw [hs']
    cases lockFree <;> simp [State.cleanup, FlushedSegmentPool.cleanup]
  have hends : s'.pool.headIdx = s.pool.headIdx ∧ s'.pool.tailIdx = s.pool.tailIdx := by
    rw [hs']
    cases lockFree <;> simp [State.cleanup, FlushedSegmentPool.cleanup]
  have hdrop : ∀ a, s'.dropping a = if a = g then 0 else s.dropping a := by
    intro a
    by_cases hag : a = g <;> simp [hs', State.cleanup, hag, hone]
  have htk : Taken s' = Taken s := rfl
  constructor
  case chain =>
    obtain ⟨next, prev, hc, hlinks⟩ := h.chain
    refine ⟨next, prev, hc, ?_⟩
    intro a ha hat
    have hag : a ≠ g := by
      rintro rfl
      exact hat (htaken ha)
    simpa [FlushedSegmentPool.next, FlushedSegmentPool.prev, hseg, hag] using hlinks a ha hat
  case head => exact hends.1.trans h.head
  case tail => exact hends.2.trans h.tail
  case nodup => exact h.nodup
  case bound => exact h.bound
  case replacing => exact h.replacing
  case testing =>
    intro w a hw ha
    rw [hdrop, if_neg (htest w a hw ha)]
    exact h.testing w a hw ha
  case distinct => exact h.distinct
  case resUsed =>
    intro a ha
    rw [hseg, if_neg (ne_of_mem_of_not_mem ha hr)]
    exact h.resUsed a ha
  case resOutside => exact h.resOutside
  case resUnheld =>
    intro a ha
    rw [hdrop, if_neg (ne_of_mem_of_not_mem ha hr)]
    exact h.resUnheld a ha
  case resLive => exact h.resLive
  case resBound => exact h.resBound
  case used =>
    intro a ha hat
    have hag : a ≠ g := by
      rintro rfl
      exact hat (htaken ha)
    rw [hseg, if_neg hag]
    exact h.used a ha hat
  case live => exact h.live
  case counts =>
    intro a
    by_cases hag : a = g
    · subst hag
      have hc := h.counts a
      rw [hseg, if_pos rfl]
      show (0 : ℤ) = (if a ∈ l ∧ ¬ Taken s a then 1 else 0) + (s.held a : ℤ)
      rw [← hc, hz]
    · rw [hseg, if_neg hag]
      exact h.counts a
  case free =>
    intro a ha
    by_cases hag : a = g
    · subst hag
      exact ⟨hheld, by rw [hdrop, if_pos rfl]⟩
    · rw [hdrop, if_neg hag]
      exact h.free a (by simpa [hseg, hag] using ha)
  case last =>
    intro a hau haz har
    by_cases hag : a = g
    · simp [hseg, hag] at hau
    · rw [hdrop, if_neg hag]
      rw [hseg, if_neg hag] at hau haz
      exact h.last a hau haz har
  case outside =>
    intro a hau hal har
    by_cases hag : a = g
    · exact hag ▸ hret
    · rw [hseg, if_neg hag] at hau
      exact h.outside a hau hal har
  case proper =>
    intro c hc
    rcases List.mem_cons.mp hc with rfl | hc
    · exact ⟨hu, hret, hheld⟩
    · exact h.proper c hc
  case once =>
    intro a
    have ho := h.once a
    have hsame : s'.retired = s.retired := rfl
    show s.retirements a = List.countP _ (_ :: s.cleanups) + _
    rw [List.countP_cons, hseg, hsame]
    by_cases hag : a = g
    · subst hag
      simp only [hret, hu] at ho
      simp [ho]
    · simpa [hag, Ne.symm hag] using ho

/-- The test behind a subtraction, whoever made it. -/
theorem test (h : Inv s l) (hd : 0 < s.dropping g)
    (htest : ∀ w a, s.writer = some w → w.testing = some a → a = g → 1 < s.dropping g)
    (lockFree : Bool) : Inv (s.test g lockFree) l := by
  obtain ⟨hu, hr⟩ := h.used_of_dropping hd
  unfold State.test
  dsimp only
  split
  next hz =>
    refine h.cleanup hd hz ?_ lockFree
    rintro w a hw ha rfl
    have := htest w a hw ha rfl
    have := h.last a hu hz hr
    lia
  next hz =>
    apply h.frame <;> try first | rfl | exact fun _ => rfl
    case htest =>
      intro w a hw ha
      have := h.testing w a hw ha
      by_cases hag : a = g
      · subst hag
        have := htest w a hw ha rfl
        simp
        lia
      · simpa [hag] using this
    case hfree =>
      intro a ha
      have hag : a ≠ g := by
        rintro rfl
        rcases ha with ha | ha
        · simp [hu] at ha
        · exact hr ha
      rcases ha with ha | ha
      · simpa [hag] using h.free a ha
      · simpa [hag] using h.resUnheld a ha
    case hlast =>
      intro a hau haz har
      have hag : a ≠ g := by
        rintro rfl
        exact hz haz
      simpa [hag] using h.last a hau haz har

/-- A free slot is reserved. -/
theorem reserve (h : Inv s l) (hw : s.writer = none) {pool : FlushedSegmentPool}
    (hres : s.pool.reserve = some (idx, pool)) : Inv (s.reserve idx pool) l := by
  obtain ⟨hfree, hlt, rfl⟩ := reserve_eq hres
  obtain ⟨hheld, hdrop⟩ := h.free idx hfree
  have hout : idx ∉ l := by
    intro hl
    simp [h.used idx hl (not_taken hw)] at hfree
  have hnone : idx ∉ s.reserved := by
    intro hr
    simp [h.resUsed idx hr] at hfree
  have hseg : ∀ g, ((s.pool.setSeg idx { s.pool.seg idx with inUsed := true }).setInsertIdx
      (idx + 1)).seg g =
      { s.pool.seg g with inUsed := if g = idx then true else (s.pool.seg g).inUsed } := by
    intro g
    by_cases hg : g = idx <;> simp [hg]
  have hne : ∀ g ∈ l, g ≠ idx := fun g hg => ne_of_mem_of_not_mem hg hout
  constructor
  case chain =>
    obtain ⟨next, prev, hc, hlinks⟩ := h.chain
    refine ⟨next, prev, hc, ?_⟩
    intro g hg ht
    simpa [State.reserve, FlushedSegmentPool.next, FlushedSegmentPool.prev, hseg] using
      hlinks g hg ht
  case head => exact h.head
  case tail => exact h.tail
  case nodup => exact h.nodup
  case bound => exact h.bound
  case replacing => simp [State.reserve, hw]
  case testing => simp [State.reserve, hw]
  case distinct => exact List.nodup_cons.mpr ⟨hnone, h.distinct⟩
  case resUsed =>
    intro g hg
    rcases List.mem_cons.mp hg with rfl | hg
    · simp [State.reserve]
    · have := h.resUsed g hg
      simp [State.reserve, hseg, this]
  case resOutside =>
    intro g hg
    rcases List.mem_cons.mp hg with rfl | hg
    · exact hout
    · exact h.resOutside g hg
  case resUnheld =>
    intro g hg
    rcases List.mem_cons.mp hg with rfl | hg
    · exact ⟨hheld, hdrop⟩
    · exact h.resUnheld g hg
  case resLive =>
    intro g hg
    rcases List.mem_cons.mp hg with rfl | hg
    · simp [State.reserve]
    · simpa [State.reserve, ne_of_mem_of_not_mem hg hnone] using h.resLive g hg
  case resBound =>
    intro g hg
    rcases List.mem_cons.mp hg with rfl | hg
    · exact hlt
    · exact h.resBound g hg
  case used =>
    intro g hg ht
    have := h.used g hg ht
    simp [State.reserve, hseg, this]
  case live =>
    intro g hg
    simpa [State.reserve, hne g hg] using h.live g hg
  case counts =>
    exact fun g => (congrArg FlushedSegment.refCount (hseg g)).trans (h.counts g)
  case free =>
    intro g hg
    refine h.free g ?_
    by_cases hgi : g = idx
    · exact hgi ▸ hfree
    · simpa [State.reserve, hseg, hgi] using hg
  case last =>
    intro g hu hz hr
    obtain ⟨hgi, hr⟩ : g ≠ idx ∧ g ∉ s.reserved := by simpa [State.reserve] using hr
    exact h.last g (by simpa [State.reserve, hgi] using hu)
      (by simpa [State.reserve, hgi] using hz) hr
  case outside =>
    intro g hu hgl hr
    obtain ⟨hgi, hr⟩ : g ≠ idx ∧ g ∉ s.reserved := by simpa [State.reserve] using hr
    simpa [State.reserve, hgi] using h.outside g (by simpa [State.reserve, hgi] using hu) hgl hr
  case proper => exact h.proper
  case once =>
    intro g
    have ho := h.once g
    by_cases hgi : g = idx
    · subst hgi
      simpa [State.reserve, hfree] using ho
    · simpa [State.reserve, hgi] using ho

/-- A reserved slot is given back unused. -/
theorem discard (h : Inv s l) (hw : s.writer = none) (hg : idx ∈ s.reserved) :
    Inv { s with pool := s.pool.discard idx, reserved := s.reserved.erase idx } l := by
  have hout := h.resOutside idx hg
  have hseg : ∀ g, (s.pool.discard idx).seg g =
      if g = idx then (s.pool.seg idx).clear else s.pool.seg g := by
    intro g
    simp [FlushedSegmentPool.discard]
  have hends : (s.pool.discard idx).headIdx = s.pool.headIdx ∧
      (s.pool.discard idx).tailIdx = s.pool.tailIdx := by
    simp [FlushedSegmentPool.discard]
  have hres : ∀ g ∈ s.reserved.erase idx, g ≠ idx ∧ g ∈ s.reserved := fun g hg =>
    h.distinct.mem_erase_iff.mp hg
  have hne : ∀ g ∈ l, g ≠ idx := fun g hg => ne_of_mem_of_not_mem hg hout
  constructor
  case chain =>
    obtain ⟨next, prev, hc, hlinks⟩ := h.chain
    refine ⟨next, prev, hc, ?_⟩
    intro g hg ht
    simpa [FlushedSegmentPool.next, FlushedSegmentPool.prev, hseg, hne g hg] using hlinks g hg ht
  case head => exact hends.1.trans h.head
  case tail => exact hends.2.trans h.tail
  case nodup => exact h.nodup
  case bound => exact h.bound
  case replacing => simp [hw]
  case testing => simp [hw]
  case distinct => exact h.distinct.erase idx
  case resUsed =>
    intro g hg
    rw [hseg, if_neg (hres g hg).1]
    exact h.resUsed g (hres g hg).2
  case resOutside => exact fun g hg => h.resOutside g (hres g hg).2
  case resUnheld => exact fun g hg => h.resUnheld g (hres g hg).2
  case resLive => exact fun g hg => h.resLive g (hres g hg).2
  case resBound => exact fun g hg => h.resBound g (hres g hg).2
  case used =>
    intro g hg ht
    rw [hseg, if_neg (hne g hg)]
    exact h.used g hg ht
  case live => exact h.live
  case counts =>
    intro g
    by_cases hgi : g = idx
    · subst hgi
      simp [hseg, hout, (h.resUnheld g hg).1]
    · rw [hseg, if_neg hgi]
      exact h.counts g
  case free =>
    intro g hgu
    by_cases hgi : g = idx
    · exact hgi ▸ h.resUnheld idx hg
    · exact h.free g (by simpa [hseg, hgi] using hgu)
  case last =>
    intro g hu hz hr
    have hgi : g ≠ idx := by
      rintro rfl
      simp [hseg] at hu
    rw [hseg, if_neg hgi] at hu hz
    exact h.last g hu hz fun hr' => hr (h.distinct.mem_erase_iff.mpr ⟨hgi, hr'⟩)
  case outside =>
    intro g hu hgl hr
    have hgi : g ≠ idx := by
      rintro rfl
      simp [hseg] at hu
    rw [hseg, if_neg hgi] at hu
    exact h.outside g hu hgl fun hr' => hr (h.distinct.mem_erase_iff.mpr ⟨hgi, hr'⟩)
  case proper => exact h.proper
  case once =>
    intro g
    have ho := h.once g
    by_cases hgi : g = idx
    · subst hgi
      simpa [hseg, h.resLive g hg] using ho
    · simpa [hseg, hgi] using ho

end Inv

end VectorLsm.Retire
