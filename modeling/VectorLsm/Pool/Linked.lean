import Mathlib.Data.List.Nodup
import VectorLsm.Pool.Basic

/-! # The list of a pool

What each operation of the pool does to its slots and to its list. `Linked pool l` says that
the links and the two ends describe the list `l`.
-/

namespace VectorLsm

open Chain

namespace FlushedSegment

variable (seg : FlushedSegment)

@[simp] theorem dropRef_segmentIdStart : seg.dropRef.segmentIdStart = seg.segmentIdStart := by
  unfold dropRef
  split <;> rfl

@[simp] theorem dropRef_segmentIdEnd : seg.dropRef.segmentIdEnd = seg.segmentIdEnd := by
  unfold dropRef
  split <;> rfl

@[simp] theorem dropRef_refCount : seg.dropRef.refCount = seg.refCount - 1 := by
  unfold dropRef
  split
  next h => exact h.symm
  next => rfl

@[simp] theorem dropRef_inUsed :
    seg.dropRef.inUsed = if seg.refCount - 1 = 0 then false else seg.inUsed := by
  unfold dropRef
  split <;> rfl

end FlushedSegment

namespace FlushedSegmentPool

variable {cfg : PoolConfig} {pool : FlushedSegmentPool} {idx g : ℕ} {l xs ys olds : List ℕ}

section Slots

variable (pool) (idx g)

@[simp] theorem seg_setSeg (s : FlushedSegment) :
    (pool.setSeg idx s).seg g = if g = idx then s else pool.seg g := by
  simp [seg, setSeg, Function.update_apply]

@[simp] theorem seg_addStats (s : FlushedSegment) (d : UInt32) :
    (pool.addStats cfg s d).seg g = pool.seg g := rfl

@[simp] theorem seg_setInsertIdx (i : ℕ) : (pool.setInsertIdx i).seg g = pool.seg g := rfl

@[simp] theorem seg_setCount (n : UInt32) : (pool.setCount n).seg g = pool.seg g := rfl

@[simp] theorem seg_setEnds (h t : Option ℕ) : (pool.setEnds h t).seg g = pool.seg g := rfl

@[simp] theorem seg_rewind (i : ℕ) : (pool.rewind i).seg g = pool.seg g := by
  unfold rewind
  split <;> rfl

@[simp] theorem headIdx_rewind (i : ℕ) : (pool.rewind i).headIdx = pool.headIdx := by
  unfold rewind
  split <;> rfl

@[simp] theorem tailIdx_rewind (i : ℕ) : (pool.rewind i).tailIdx = pool.tailIdx := by
  unfold rewind
  split <;> rfl

theorem seg_wire (p q : Option ℕ) : (pool.wire p idx q).seg g =
    { pool.seg g with
      nextIdx := spliceNext idx pool.next p q g
      prevIdx := splicePrev idx pool.prev p q g } := rfl

@[simp] theorem next_wire (p q : Option ℕ) :
    (pool.wire p idx q).next = spliceNext idx pool.next p q := rfl

@[simp] theorem prev_wire (p q : Option ℕ) :
    (pool.wire p idx q).prev = splicePrev idx pool.prev p q := rfl

theorem next_setRef (n : ℤ) : (pool.setSeg idx ((pool.seg idx).setRef n)).next = pool.next := by
  funext g
  by_cases h : g = idx <;> simp [next, h]

theorem prev_setRef (n : ℤ) : (pool.setSeg idx ((pool.seg idx).setRef n)).prev = pool.prev := by
  funext g
  by_cases h : g = idx <;> simp [prev, h]

theorem insertionPoint_setRef (n : ℤ) (start : SegmentId) :
    (pool.setSeg idx ((pool.seg idx).setRef n)).insertionPoint start =
      pool.insertionPoint start := by
  have hs : (fun cur => ((pool.setSeg idx ((pool.seg idx).setRef n)).seg cur).segmentIdStart) =
      fun cur => (pool.seg cur).segmentIdStart := by
    funext cur
    by_cases h : cur = idx <;> simp [h]
  simp only [insertionPoint, next_setRef, prev_setRef, setSeg_headIdx, setSeg_tailIdx]
  rw [funext_iff] at hs
  simp only [hs]

end Slots

section Reserve

theorem reserve_eq {pool' : FlushedSegmentPool} (h : pool.reserve = some (idx, pool')) :
    (pool.seg idx).inUsed = false ∧ idx < maxSegmentsCount ∧
      pool' = (pool.setSeg idx { pool.seg idx with inUsed := true }).setInsertIdx (idx + 1) := by
  obtain ⟨i, hi, he⟩ := Option.map_eq_some_iff.mp h
  obtain ⟨rfl, rfl⟩ := Prod.mk.injEq .. ▸ he
  have hlt := List.mem_range'_1.mp (List.mem_of_find?_eq_some hi)
  refine ⟨by simpa using List.find?_some hi, ?_, rfl⟩
  lia

end Reserve

section Register

theorem register_seg (g : ℕ) : (pool.register cfg idx).seg g =
    let (p, q) := pool.insertionPoint (pool.seg idx).segmentIdStart
    { pool.seg g with
      refCount := if g = idx then 1 else (pool.seg g).refCount
      nextIdx := spliceNext idx pool.next p q g
      prevIdx := splicePrev idx pool.prev p q g } := by
  by_cases h : g = idx <;>
    simp [register, insertionPoint_setRef, next_setRef, prev_setRef, seg_wire, h]

variable (cfg pool idx g)

@[simp] theorem register_inUsed : ((pool.register cfg idx).seg g).inUsed = (pool.seg g).inUsed := by
  rw [register_seg]

@[simp] theorem register_segmentIdStart :
    ((pool.register cfg idx).seg g).segmentIdStart = (pool.seg g).segmentIdStart := by
  rw [register_seg]

@[simp] theorem register_segmentIdEnd :
    ((pool.register cfg idx).seg g).segmentIdEnd = (pool.seg g).segmentIdEnd := by
  rw [register_seg]

@[simp] theorem register_refCount :
    ((pool.register cfg idx).seg g).refCount = if g = idx then 1 else (pool.seg g).refCount := by
  rw [register_seg]

theorem register_next : (pool.register cfg idx).next =
    spliceNext idx pool.next (pool.insertionPoint (pool.seg idx).segmentIdStart).1
      (pool.insertionPoint (pool.seg idx).segmentIdStart).2 := by
  funext g
  rw [next, register_seg]

theorem register_prev : (pool.register cfg idx).prev =
    splicePrev idx pool.prev (pool.insertionPoint (pool.seg idx).segmentIdStart).1
      (pool.insertionPoint (pool.seg idx).segmentIdStart).2 := by
  funext g
  rw [prev, register_seg]

theorem register_headIdx : (pool.register cfg idx).headIdx =
    if (pool.insertionPoint (pool.seg idx).segmentIdStart).1 = none then some idx
    else pool.headIdx := by
  simp [register, insertionPoint_setRef]

theorem register_tailIdx : (pool.register cfg idx).tailIdx =
    if (pool.insertionPoint (pool.seg idx).segmentIdStart).2 = none then some idx
    else pool.tailIdx := by
  simp [register, insertionPoint_setRef]

end Register

section Replace

theorem seg_addStats_foldl (olds : List ℕ) (d : UInt32) (g : ℕ) :
    (olds.foldl (fun pool old => pool.addStats cfg (pool.seg old) d) pool).seg g =
      pool.seg g := by
  induction olds generalizing pool with
  | nil => rfl
  | cons a olds ih => rw [List.foldl_cons, ih, seg_addStats]

theorem ends_addStats_foldl (olds : List ℕ) (d : UInt32) :
    (olds.foldl (fun pool old => pool.addStats cfg (pool.seg old) d) pool).headIdx =
        pool.headIdx ∧
      (olds.foldl (fun pool old => pool.addStats cfg (pool.seg old) d) pool).tailIdx =
        pool.tailIdx := by
  induction olds generalizing pool with
  | nil => exact ⟨rfl, rfl⟩
  | cons a olds ih =>
      rw [List.foldl_cons, ih.1, ih.2]
      exact ⟨rfl, rfl⟩

theorem seg_dropRef : (pool.dropRef idx).seg g =
    if g = idx then (pool.seg idx).dropRef else pool.seg g := by
  unfold dropRef
  dsimp only
  split <;> simp

theorem ends_dropRef : (pool.dropRef idx).headIdx = pool.headIdx ∧
    (pool.dropRef idx).tailIdx = pool.tailIdx := by
  unfold dropRef
  dsimp only
  split <;> simp

theorem seg_dropRef_foldl (hl : olds.Nodup) (g : ℕ) : (olds.foldl dropRef pool).seg g =
    if g ∈ olds then (pool.seg g).dropRef else pool.seg g := by
  induction olds generalizing pool with
  | nil => simp
  | cons a olds ih =>
      obtain ⟨ha, hl⟩ := List.nodup_cons.mp hl
      rw [List.foldl_cons, ih hl, seg_dropRef]
      by_cases h : g = a
      · subst h
        simp [ha]
      · simp [h]

theorem ends_dropRef_foldl (olds : List ℕ) :
    (olds.foldl dropRef pool).headIdx = pool.headIdx ∧
      (olds.foldl dropRef pool).tailIdx = pool.tailIdx := by
  induction olds generalizing pool with
  | nil => exact ⟨rfl, rfl⟩
  | cons a olds ih =>
      rw [List.foldl_cons, ih.1, ih.2]
      exact ends_dropRef

/-- The slot after the references of the replaced segments are dropped. -/
def dropped (pool : FlushedSegmentPool) (olds : List ℕ) (g : ℕ) : FlushedSegment :=
  if g ∈ olds then (pool.seg g).dropRef else pool.seg g

theorem replaceN_spec (cfg : PoolConfig) (pool : FlushedSegmentPool) (idx : ℕ) {first last : ℕ}
    (hl : olds.Nodup) (hf : olds.head? = some first)
    (hla : olds.getLast? = some last) :
    (∀ g, (pool.replaceN cfg olds idx).seg g =
      { pool.dropped olds g with
        refCount := if g = idx then 1 else (pool.dropped olds g).refCount
        nextIdx := spliceNext idx (fun a => (pool.dropped olds a).nextIdx)
          (pool.prev first) (pool.next last) g
        prevIdx := splicePrev idx (fun a => (pool.dropped olds a).prevIdx)
          (pool.prev first) (pool.next last) g }) ∧
    (pool.replaceN cfg olds idx).headIdx =
      (if pool.headIdx = some first then some idx else pool.headIdx) ∧
    (pool.replaceN cfg olds idx).tailIdx =
      (if pool.tailIdx = some last then some idx else pool.tailIdx) := by
  unfold replaceN
  rw [hf, hla]
  dsimp only
  set pool₁ := olds.foldl (fun pool old => pool.addStats cfg (pool.seg old) (-1)) pool with h₁
  set pool₂ := olds.foldl dropRef pool₁ with h₂
  have hseg : ∀ g, pool₂.seg g = pool.dropped olds g := by
    intro g
    rw [h₂, seg_dropRef_foldl hl, h₁, seg_addStats_foldl, dropped]
  have hends : pool₂.headIdx = pool.headIdx ∧ pool₂.tailIdx = pool.tailIdx := by
    rw [h₂, (ends_dropRef_foldl olds).1, (ends_dropRef_foldl olds).2, h₁]
    exact ends_addStats_foldl olds _
  have hnext : pool₂.next = fun a => (pool.dropped olds a).nextIdx := by
    funext a
    rw [next, hseg]
  have hprev : pool₂.prev = fun a => (pool.dropped olds a).prevIdx := by
    funext a
    rw [prev, hseg]
  have hn : ∀ h t, (pool₂.setEnds h t).next = pool₂.next := fun _ _ => rfl
  have hp : ∀ h t, (pool₂.setEnds h t).prev = pool₂.prev := fun _ _ => rfl
  refine ⟨?_, ?_, ?_⟩
  · intro g
    by_cases h : g = idx <;>
      simp [seg_wire, FlushedSegment.setRef, hseg, hn, hp, hnext, hprev, h]
  · simp [hends.1]
  · simp [hends.2]

theorem replaceN_seg (cfg : PoolConfig) (pool : FlushedSegmentPool) (idx : ℕ) (hl : olds.Nodup)
    (hne : olds ≠ []) (g : ℕ) :
    ((pool.replaceN cfg olds idx).seg g).segmentIdStart = (pool.seg g).segmentIdStart ∧
    ((pool.replaceN cfg olds idx).seg g).segmentIdEnd = (pool.seg g).segmentIdEnd ∧
    ((pool.replaceN cfg olds idx).seg g).inUsed = (pool.dropped olds g).inUsed ∧
    ((pool.replaceN cfg olds idx).seg g).refCount =
      if g = idx then 1 else (pool.dropped olds g).refCount := by
  obtain ⟨hs, -, -⟩ := replaceN_spec cfg pool idx hl
    (List.head?_eq_some_head hne) (List.getLast?_eq_some_getLast hne)
  rw [hs g]
  refine ⟨?_, ?_, rfl, rfl⟩ <;> simp only [dropped] <;> split <;> simp

end Replace

/-- The links and the two ends of the pool describe the list `l`. -/
structure Linked (pool : FlushedSegmentPool) (l : List ℕ) : Prop where
  seg : Seg pool.next pool.prev none l none
  head : pool.headIdx = l.head?
  tail : pool.tailIdx = l.getLast?
  nodup : l.Nodup
  bound : ∀ g ∈ l, g < maxSegmentsCount

namespace Linked

theorem length_le (h : Linked pool l) : l.length ≤ maxSegmentsCount := by
  have hsub : l ⊆ List.range maxSegmentsCount := fun g hg => List.mem_range.mpr (h.bound g hg)
  simpa using (h.nodup.subperm hsub).length_le

theorem members (h : Linked pool l) : pool.members = l := by
  rw [FlushedSegmentPool.members, h.head]
  exact walk_eq h.seg h.length_le

theorem membersToTail (h : Linked pool l) : pool.membersToTail = l := by
  rw [FlushedSegmentPool.membersToTail, h.head, h.tail]
  exact walkTo_eq h.seg h.nodup h.length_le

/-- The list is the one the links describe: no other is. -/
theorem unique {l' : List ℕ} (h : Linked pool l) (h' : Linked pool l') : l = l' := by
  rw [← h.members, h'.members]

/-- What leaves the links of the members alone leaves the list alone. -/
theorem congr {pool' : FlushedSegmentPool} (h : Linked pool l)
    (hn : ∀ g ∈ l, pool'.next g = pool.next g) (hp : ∀ g ∈ l, pool'.prev g = pool.prev g)
    (hh : pool'.headIdx = pool.headIdx) (ht : pool'.tailIdx = pool.tailIdx) :
    Linked pool' l :=
  ⟨h.seg.congr hn hp, hh.trans h.head, ht.trans h.tail, h.nodup, h.bound⟩

theorem initial : Linked .initial [] :=
  ⟨trivial, rfl, rfl, List.nodup_nil, by simp⟩

/-- A slot outside the list may change in any way. -/
theorem setSeg (h : Linked pool l) (hg : idx ∉ l) (s : FlushedSegment) :
    Linked (pool.setSeg idx s) l := by
  refine h.congr ?_ ?_ rfl rfl <;> intro g hgl <;>
    simp [next, prev, ne_of_mem_of_not_mem hgl hg]

theorem setSeg_links (h : Linked pool l) (s : FlushedSegment)
    (hn : s.nextIdx = pool.next idx) (hp : s.prevIdx = pool.prev idx) :
    Linked (pool.setSeg idx s) l := by
  refine h.congr ?_ ?_ rfl rfl <;> intro g _ <;> by_cases hgi : g = idx <;>
    simp_all [next, prev]

/-- The neighbours chosen by the walk from the tail are those of the ascending order. -/
theorem insertionPoint {start : SegmentId} (h : Linked pool (xs ++ ys))
    (hx : ∀ g, xs.getLast? = some g → (pool.seg g).segmentIdStart ≤ start)
    (hy : ∀ g ∈ ys, start < (pool.seg g).segmentIdStart) :
    pool.insertionPoint start = (xs.getLast?, ys.head?) := by
  have hback := seekBack_eq (fun cur => !(start < (pool.seg cur).segmentIdStart)) h.seg
    (fun a ha => by simpa using hx a ha) (fun a ha => by simpa using hy a ha) h.length_le
  rw [← h.tail] at hback
  unfold FlushedSegmentPool.insertionPoint
  rw [hback, h.head]
  rcases List.eq_nil_or_concat xs with rfl | ⟨xs, a, rfl⟩
  · cases ys <;> rfl
  · rw [List.concat_eq_append] at *
    obtain ⟨b, hb⟩ : ∃ b, (xs ++ [a] ++ ys).head? = some b := by
      cases xs <;> exact ⟨_, rfl⟩
    have hnext : pool.next a = ys.head? := by
      have hseg := h.seg
      rw [seg_append, seg_append, seg_cons] at hseg
      simpa using hseg.1.2.2.1
    rw [hb]
    simp [hnext]

/-- Registering a slot puts it behind the last segment that does not begin later. -/
theorem register (h : Linked pool (xs ++ ys)) (hi : idx ∉ xs ++ ys) (hb : idx < maxSegmentsCount)
    (hx : ∀ g, xs.getLast? = some g →
      (pool.seg g).segmentIdStart ≤ (pool.seg idx).segmentIdStart)
    (hy : ∀ g ∈ ys, (pool.seg idx).segmentIdStart < (pool.seg g).segmentIdStart) :
    Linked (pool.register cfg idx) (xs ++ idx :: ys) := by
  have hp := h.insertionPoint hx hy
  obtain ⟨hix, hiy⟩ : idx ∉ xs ∧ idx ∉ ys := by simpa using hi
  refine ⟨?_, ?_, ?_, ?_, ?_⟩
  · rw [register_next, register_prev, hp]
    have hseg : Seg pool.next pool.prev none (xs ++ [] ++ ys) none := by simpa using h.seg
    exact hseg.splice idx (by simpa using h.nodup) hix hiy
  · rw [register_headIdx, hp, h.head]
    cases xs <;> simp
  · rw [register_tailIdx, hp, h.tail]
    cases ys with
    | nil => simp
    | cons b ys => simp [List.getLast?_append, List.getLast?_cons]
  · exact List.nodup_middle.mpr (List.nodup_cons.mpr ⟨hi, h.nodup⟩)
  · intro g hg
    rcases List.mem_append.mp hg with hg | hg
    · exact h.bound g (List.mem_append_left _ hg)
    · rcases List.mem_cons.mp hg with rfl | hg
      · exact hb
      · exact h.bound g (List.mem_append_right _ hg)

/-- Wiring a slot between the neighbours of a run puts it in the place of the run. The links the
run itself has are not looked at. -/
theorem of_splice {next prev : ℕ → Option ℕ}
    (hseg : Seg next prev none (xs ++ olds ++ ys) none) (hnd : (xs ++ olds ++ ys).Nodup)
    (hbound : ∀ g ∈ xs ++ olds ++ ys, g < maxSegmentsCount) (hne : olds ≠ [])
    (hi : idx ∉ xs ++ olds ++ ys) (hb : idx < maxSegmentsCount)
    (hn : ∀ a ∈ xs ++ idx :: ys, pool.next a = spliceNext idx next xs.getLast? ys.head? a)
    (hp : ∀ a ∈ xs ++ idx :: ys, pool.prev a = splicePrev idx prev xs.getLast? ys.head? a)
    (hhead : pool.headIdx =
      if (xs ++ olds ++ ys).head? = olds.head? then some idx else (xs ++ olds ++ ys).head?)
    (htail : pool.tailIdx =
      if (xs ++ olds ++ ys).getLast? = olds.getLast? then some idx
      else (xs ++ olds ++ ys).getLast?) :
    Linked pool (xs ++ idx :: ys) := by
  obtain ⟨hix, hio, hiy⟩ : idx ∉ xs ∧ idx ∉ olds ∧ idx ∉ ys := by simpa using hi
  obtain ⟨hnxo, -, hny⟩ := List.nodup_append.mp hnd
  obtain ⟨-, hno, hnx⟩ := List.nodup_append.mp hnxo
  have hxo : ∀ a ∈ xs, a ∉ olds := fun a ha hao => hnx a ha a hao rfl
  have hyo : ∀ a ∈ ys, a ∉ olds := fun a ha hao =>
    hny a (List.mem_append_right xs hao) a ha rfl
  refine ⟨(hseg.splice idx hnd hix hiy).congr hn hp, ?_, ?_, ?_, ?_⟩
  · rw [hhead]
    obtain ⟨first, rest, rfl⟩ := List.exists_cons_of_ne_nil hne
    cases xs with
    | nil => simp
    | cons b xs =>
        have : b ≠ first := by
          rintro rfl
          exact hxo b (by simp) (by simp)
        simp [this]
  · rw [htail]
    obtain ⟨last, hlast⟩ : ∃ last, olds.getLast? = some last :=
      ⟨_, List.getLast?_eq_some_getLast hne⟩
    rcases List.eq_nil_or_concat ys with rfl | ⟨ys, b, rfl⟩
    · have : (xs ++ olds).getLast? = some last := by
        rw [List.getLast?_append, hlast, Option.some_or]
      simp [this, hlast]
    · have hbl : b ≠ last := by
        rintro rfl
        exact hyo b (by simp) (List.mem_of_getLast? hlast)
      simp [← List.append_assoc, hbl, hlast, List.getLast?_append, List.getLast?_cons]
  · have : (xs ++ ys).Nodup := hnd.sublist (by simp)
    exact List.nodup_middle.mpr (List.nodup_cons.mpr ⟨by simp [hix, hiy], this⟩)
  · intro g hg
    rcases List.mem_append.mp hg with hg | hg
    · exact hbound g (by simp [hg])
    · rcases List.mem_cons.mp hg with rfl | hg
      · exact hb
      · exact hbound g (by simp [hg])

/-- Replacing a run of the list puts the new slot in its place. -/
theorem replaceN (h : Linked pool (xs ++ olds ++ ys)) (hne : olds ≠ [])
    (hi : idx ∉ xs ++ olds ++ ys) (hb : idx < maxSegmentsCount) :
    Linked (pool.replaceN cfg olds idx) (xs ++ idx :: ys) := by
  obtain ⟨hnxo, -, hny⟩ := List.nodup_append.mp h.nodup
  obtain ⟨-, hno, hnx⟩ := List.nodup_append.mp hnxo
  obtain ⟨first, rest, rfl⟩ := List.exists_cons_of_ne_nil hne
  obtain ⟨last, hlast⟩ : ∃ last, (first :: rest).getLast? = some last :=
    ⟨_, List.getLast?_eq_some_getLast hne⟩
  obtain ⟨hs, hhead, htail⟩ := replaceN_spec cfg pool idx hno rfl hlast
  -- the neighbours read before the references are dropped
  have hseg := h.seg
  rw [seg_append, seg_append] at hseg
  have hprev : pool.prev first = xs.getLast? := by simpa using hseg.1.2.1
  have hnext : pool.next last = ys.head? := by
    obtain ⟨init, hinit⟩ := List.getLast?_eq_some_iff.mp hlast
    have hmid := hseg.1.2
    rw [hinit, seg_append, seg_cons] at hmid
    simpa using hmid.2.2.1
  have hmem : ∀ a ∈ xs ++ ys, pool.dropped (first :: rest) a = pool.seg a := by
    intro a ha
    rw [dropped, if_neg]
    intro hao
    rcases List.mem_append.mp ha with ha | ha
    · exact hnx a ha a hao rfl
    · exact hny a (List.mem_append_right xs hao) a ha rfl
  apply of_splice h.seg h.nodup h.bound hne hi hb
  case hn =>
    intro a ha
    rw [next, hs a, hprev, hnext]
    by_cases hai : a = idx
    · simp [spliceNext, hai]
    · have := hmem a (by simpa [hai] using ha)
      simp [spliceNext, this, next]
  case hp =>
    intro a ha
    rw [prev, hs a, hprev, hnext]
    by_cases hai : a = idx
    · simp [splicePrev, hai]
    · have := hmem a (by simpa [hai] using ha)
      simp [splicePrev, this, prev]
  case hhead => rw [hhead, h.head, List.head?_cons]
  case htail => rw [htail, h.tail, hlast]

end Linked

end FlushedSegmentPool

end VectorLsm
