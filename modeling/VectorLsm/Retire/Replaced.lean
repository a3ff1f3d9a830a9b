import VectorLsm.Retire.Invariant

/-! # What enters and leaves the list

A reserved slot enters the list, alone or in the place of a run of members whose references were
dropped one after the other.
-/

namespace VectorLsm.Retire

open FlushedSegmentPool

namespace Inv

variable {cfg : PoolConfig} {s : State} {pool' : FlushedSegmentPool} {l xs ys olds : List ℕ}
  {g idx : ℕ}

/-- The reserved slot takes the place of members that the replacement has taken. -/
theorem enter (h : Inv s (xs ++ olds ++ ys)) (hidx : idx ∈ s.reserved)
    (htaken : ∀ g, Taken s g ↔ g ∈ olds)
    (howner : ∀ w, s.writer = some w → w.olds = olds)
    (hl : pool'.Linked (xs ++ idx :: ys))
    (hu : ∀ g, (pool'.seg g).inUsed = (s.pool.seg g).inUsed)
    (hr : ∀ g, (pool'.seg g).refCount = if g = idx then 1 else (s.pool.seg g).refCount) :
    Inv { s with pool := pool', writer := none, reserved := s.reserved.erase idx }
      (xs ++ idx :: ys) := by
  have hout := h.resOutside idx hidx
  obtain ⟨hheld, hdrop⟩ := h.resUnheld idx hidx
  obtain ⟨hnxo, -, hny⟩ := List.nodup_append.mp h.nodup
  obtain ⟨-, -, hnx⟩ := List.nodup_append.mp hnxo
  have hmem : ∀ g, g ≠ idx → (g ∈ xs ++ idx :: ys ↔ g ∈ xs ++ olds ++ ys ∧ g ∉ olds) := by
    intro g hg
    constructor
    · intro hgl
      rcases List.mem_append.mp hgl with hgx | hgy
      · exact ⟨by simp [hgx], fun ho => hnx g hgx g ho rfl⟩
      · have hgy : g ∈ ys := by simpa [hg] using hgy
        exact ⟨by simp [hgy], fun ho => hny g (by simp [ho]) g hgy rfl⟩
    · rintro ⟨hgl, ho⟩
      simp only [List.mem_append] at hgl
      rcases hgl with (hgx | ho') | hgy
      · simp [hgx]
      · exact absurd ho' ho
      · simp [hgy]
  have hres : ∀ g ∈ s.reserved.erase idx, g ≠ idx ∧ g ∈ s.reserved := fun g hg =>
    h.distinct.mem_erase_iff.mp hg
  have htk : ∀ g, ¬ Taken { s with
      pool := pool', writer := none, reserved := s.reserved.erase idx } g := by
    rintro g ⟨w, hw, -⟩
    simp at hw
  constructor
  case chain => exact ⟨_, _, hl.seg, fun _ _ _ => ⟨rfl, rfl⟩⟩
  case head => exact hl.head
  case tail => exact hl.tail
  case nodup => exact hl.nodup
  case bound => exact hl.bound
  case replacing => simp
  case testing => simp
  case distinct => exact h.distinct.erase idx
  case resUsed =>
    intro g hg
    rw [hu]
    exact h.resUsed g (hres g hg).2
  case resOutside =>
    intro g hg hgl
    exact h.resOutside g (hres g hg).2 ((hmem g (hres g hg).1).mp hgl).1
  case resUnheld => exact fun g hg => h.resUnheld g (hres g hg).2
  case resLive => exact fun g hg => h.resLive g (hres g hg).2
  case resBound => exact fun g hg => h.resBound g (hres g hg).2
  case used =>
    intro g hg _
    rw [hu]
    by_cases hgi : g = idx
    · exact hgi ▸ h.resUsed idx hidx
    · obtain ⟨hgl, ho⟩ := (hmem g hgi).mp hg
      exact h.used g hgl fun ht => ho ((htaken g).mp ht)
  case live =>
    intro g hg
    have hret : s.retired g = false := by
      by_cases hgi : g = idx
      · exact hgi ▸ h.resLive idx hidx
      · obtain ⟨hgl, ho⟩ := (hmem g hgi).mp hg
        by_contra hne
        obtain ⟨w, hw, hgw⟩ := (h.live g hgl).mp (by simpa using hne)
        exact ho (howner w hw ▸ hgw)
    simp [hret]
  case counts =>
    intro g
    rw [hr]
    by_cases hgi : g = idx
    · subst hgi
      simp [htk, hheld]
    · have hc := h.counts g
      have hiff : (g ∈ xs ++ olds ++ ys ∧ ¬ Taken s g) ↔ g ∈ xs ++ idx :: ys := by
        rw [htaken, hmem g hgi]
      rw [if_neg hgi, hc]
      simp only [hiff, htk, not_false_eq_true, and_true]
  case free =>
    intro g hg
    rw [hu] at hg
    exact h.free g hg
  case last =>
    intro g hgu hgz hgr
    by_cases hgi : g = idx
    · simp [hr, hgi] at hgz
    · rw [hu] at hgu
      rw [hr, if_neg hgi] at hgz
      exact h.last g hgu hgz fun hr' => hgr (h.distinct.mem_erase_iff.mpr ⟨hgi, hr'⟩)
  case outside =>
    intro g hgu hgl hgr
    have hgi : g ≠ idx := by
      rintro rfl
      simp at hgl
    rw [hu] at hgu
    by_cases ho : g ∈ olds
    · exact (h.mem_of_taken ((htaken g).mpr ho)).2
    · exact h.outside g hgu (fun hgl' => hgl ((hmem g hgi).mpr ⟨hgl', ho⟩))
        fun hr' => hgr (h.distinct.mem_erase_iff.mpr ⟨hgi, hr'⟩)
  case proper => exact h.proper
  case once => simpa only [hu] using h.once

/-- Where the walk from the tail stops, the list falls into two parts. -/
theorem split_at (p : ℕ → Prop) (l : List ℕ) :
    ∃ xs ys, l = xs ++ ys ∧ (∀ a, xs.getLast? = some a → p a) ∧ ∀ a ∈ ys, ¬ p a := by
  induction l using List.reverseRecOn with
  | nil => exact ⟨[], [], rfl, by simp, by simp⟩
  | append_singleton l a ih =>
      by_cases ha : p a
      · refine ⟨l ++ [a], [], by simp, ?_, by simp⟩
        intro b hb
        obtain rfl : a = b := by simpa using hb
        exact ha
      · obtain ⟨xs, ys, rfl, hx, hy⟩ := ih
        refine ⟨xs, ys ++ [a], by simp, hx, ?_⟩
        intro b hb
        rcases List.mem_append.mp hb with hb | hb
        · exact hy b hb
        · obtain rfl : b = a := by simpa using hb
          exact ha

/-- A reserved segment is registered. -/
theorem register (cfg : PoolConfig) (h : Inv s l) (hw : s.writer = none)
    (hidx : idx ∈ s.reserved) :
    ∃ l', Inv { s with pool := s.pool.register cfg idx, reserved := s.reserved.erase idx } l' := by
  obtain ⟨xs, ys, rfl, hx, hy⟩ := split_at
    (fun a => (s.pool.seg a).segmentIdStart ≤ (s.pool.seg idx).segmentIdStart) l
  have hlink : (s.pool.register cfg idx).Linked (xs ++ idx :: ys) :=
    (h.linked hw).register (h.resOutside idx hidx) (h.resBound idx hidx) hx
      fun g hg => not_le.mp (hy g hg)
  refine ⟨xs ++ idx :: ys, ?_⟩
  have h' : Inv s (xs ++ [] ++ ys) := by simpa using h
  have he := h'.enter hidx (fun g => by simp [not_taken hw]) (by simp [hw]) hlink
    (fun g => register_inUsed cfg s.pool idx g) fun g => register_refCount cfg s.pool idx g
  rwa [← hw] at he

/-- The call of `replace_flushed_segments_n` up to the first decrement. -/
theorem replace (cfg : PoolConfig) (h : Inv s l) (hw : s.writer = none) (hne : olds ≠ [])
    (hidx : idx ∈ s.reserved) (hrun : olds <:+: l) : Inv (s.replace cfg olds idx) l := by
  obtain ⟨xs, ys, rfl⟩ := hrun
  have hseg := fun g => @seg_addStats_foldl cfg s.pool olds (-1) g
  have hends := @ends_addStats_foldl cfg s.pool olds (-1)
  have hlink := h.linked hw
  have hno : olds.Nodup := (List.nodup_append.mp (List.nodup_append.mp h.nodup).1).2.1
  have hlive : ∀ g ∈ xs ++ olds ++ ys, s.retired g = false := by
    intro g hg
    by_contra hret
    obtain ⟨w, hw', -⟩ := (h.live g hg).mp (by simpa using hret)
    simp [hw] at hw'
  have htk : ∀ g, ¬ Taken (s.replace cfg olds idx) g := by
    rintro g ⟨w, hw', hg⟩
    obtain rfl := Option.some.inj hw'
    simp at hg
  constructor
  case chain =>
    refine ⟨_, _, hlink.seg, ?_⟩
    intro g _ _
    exact ⟨congrArg FlushedSegment.nextIdx (hseg g), congrArg FlushedSegment.prevIdx (hseg g)⟩
  case head => exact hends.1.trans h.head
  case tail => exact hends.2.trans h.tail
  case nodup => exact h.nodup
  case bound => exact h.bound
  case replacing =>
    intro w hw'
    obtain rfl := Option.some.inj hw'
    have hs := hlink.seg
    rw [Chain.seg_append, Chain.seg_append] at hs
    refine ⟨xs, ys, by simp [Replacement.olds], by simpa [Replacement.olds] using hne, hidx,
      ?_, ?_⟩
    · obtain ⟨first, rest, rfl⟩ := List.exists_cons_of_ne_nil hne
      simpa using hs.1.2.1
    · obtain ⟨init, last, rfl⟩ := List.eq_nil_or_concat olds |>.resolve_left hne
      have hmid := hs.1.2
      rw [List.concat_eq_append, Chain.seg_append, Chain.seg_cons] at hmid
      simpa using hmid.2.2.1
  case testing =>
    intro w g hw' hg
    obtain rfl := Option.some.inj hw'
    simp at hg
  case distinct => exact h.distinct
  case resUsed => exact fun g hg => (congrArg FlushedSegment.inUsed (hseg g)).trans (h.resUsed g hg)
  case resOutside => exact h.resOutside
  case resUnheld => exact h.resUnheld
  case resLive =>
    intro g hg
    have hno : g ∉ olds := fun ho => h.resOutside g hg (by simp [ho])
    simpa [State.replace, hno] using h.resLive g hg
  case resBound => exact h.resBound
  case used =>
    exact fun g hg _ => (congrArg FlushedSegment.inUsed (hseg g)).trans (h.used g hg (not_taken hw))
  case live =>
    intro g hg
    simp [State.replace, hlive g hg, Replacement.olds]
  case counts =>
    intro g
    have hc := h.counts g
    simp only [not_taken hw] at hc
    simp only [htk]
    exact (congrArg FlushedSegment.refCount (hseg g)).trans hc
  case free => exact fun g hg => h.free g ((congrArg FlushedSegment.inUsed (hseg g)).symm.trans hg)
  case last =>
    exact fun g hu hz hr => h.last g ((congrArg FlushedSegment.inUsed (hseg g)).symm.trans hu)
      ((congrArg FlushedSegment.refCount (hseg g)).symm.trans hz) hr
  case outside =>
    intro g hu hgl hr
    have := h.outside g ((congrArg FlushedSegment.inUsed (hseg g)).symm.trans hu) hgl hr
    simp [State.replace, this]
  case proper => exact h.proper
  case once =>
    intro g
    have ho := h.once g
    have hu : ((s.replace cfg olds idx).pool.seg g).inUsed = (s.pool.seg g).inUsed :=
      congrArg FlushedSegment.inUsed (hseg g)
    rw [hu]
    by_cases hg : g ∈ olds
    · have hgl : g ∈ xs ++ olds ++ ys := by simp [hg]
      have := h.used g hgl (not_taken hw)
      simp only [hlive g hgl, this] at ho
      simp [State.replace, hg, this, ho, List.count_eq_one_of_mem hno hg]
    · simpa [State.replace, hg, List.count_eq_zero.mpr hg] using ho

/-- The writer drops the reference of the list on the next segment it replaces. -/
theorem writerDrop (h : Inv s l) {done todo : List ℕ} {p q : Option ℕ}
    (hw : s.writer = some ⟨idx, done, g :: todo, p, q, none⟩)
    (hz : (s.pool.seg g).refCount = 1 → s.dropping g = 0) :
    Inv { s.subtract g with writer := some ⟨idx, done ++ [g], todo, p, q, some g⟩ } l := by
  obtain ⟨xs, ys, hl, hne, hidx, hp, hq⟩ := h.replacing _ hw
  have hgo : g ∈ done ++ g :: todo := by simp
  have hgl : g ∈ l := by
    rw [hl]
    simp [Replacement.olds]
  have hno : (done ++ g :: todo).Nodup := by
    have := h.nodup
    rw [hl] at this
    exact (List.nodup_append.mp (List.nodup_append.mp this).1).2.1
  have hgd : g ∉ done := fun hgd => (List.nodup_append.mp hno).2.2 g hgd g (by simp) rfl
  set s' : State := { s.subtract g with
    writer := some ⟨idx, done ++ [g], todo, p, q, some g⟩ } with hs'
  have htk : ∀ a, Taken s' a ↔ a = g ∨ Taken s a := by
    intro a
    simp [Taken, hs', hw, or_comm]
  have hgt : ¬ Taken s g := by simpa [Taken, hw] using hgd
  have hseg : ∀ a, s'.pool.seg a =
      { s.pool.seg a with
        refCount := if a = g then (s.pool.seg a).refCount - 1 else (s.pool.seg a).refCount } := by
    intro a
    by_cases hag : a = g <;> simp [hs', State.subtract, hag, FlushedSegment.setRef]
  have hdrop : ∀ a, s'.dropping a = if a = g then s.dropping g + 1 else s.dropping a := by
    intro a
    by_cases hag : a = g <;> simp [hs', State.subtract, hag]
  have hres : ∀ a ∈ s.reserved, a ≠ g := by
    rintro a ha rfl
    exact h.resOutside a ha hgl
  constructor
  case chain =>
    obtain ⟨next, prev, hc, hlinks⟩ := h.chain
    refine ⟨next, prev, hc, ?_⟩
    intro a ha hat
    simpa [FlushedSegmentPool.next, FlushedSegmentPool.prev, hseg] using
      hlinks a ha fun ht => hat ((htk a).mpr (Or.inr ht))
  case head => exact h.head
  case tail => exact h.tail
  case nodup => exact h.nodup
  case bound => exact h.bound
  case replacing =>
    intro w hw'
    obtain rfl := Option.some.inj hw'
    exact ⟨xs, ys, by simpa [Replacement.olds] using hl, by simp [Replacement.olds], hidx, hp, hq⟩
  case testing =>
    intro w a hw' ha
    obtain rfl := Option.some.inj hw'
    obtain rfl := Option.some.inj ha
    simp [hdrop]
  case distinct => exact h.distinct
  case resUsed => exact fun a ha => by simpa [hseg] using h.resUsed a ha
  case resOutside => exact h.resOutside
  case resUnheld =>
    intro a ha
    rw [hdrop, if_neg (hres a ha)]
    exact h.resUnheld a ha
  case resLive => exact h.resLive
  case resBound => exact h.resBound
  case used =>
    intro a ha hat
    simpa [hseg] using h.used a ha fun ht => hat ((htk a).mpr (Or.inr ht))
  case live =>
    intro a ha
    have := h.live a ha
    simpa [hs', State.subtract, hw, Replacement.olds, or_assoc] using this
  case counts =>
    intro a
    have hc := h.counts a
    show (s'.pool.seg a).refCount = (if a ∈ l ∧ ¬ Taken s' a then 1 else 0) + (s.held a : ℤ)
    rw [hseg]
    by_cases hag : a = g
    · subst hag
      simp only [htk, hgl, hgt] at hc ⊢
      rw [if_pos trivial, hc]
      simp only [not_false_eq_true, and_self, if_true, true_or, not_true_eq_false, and_false,
        if_false]
      lia
    · simpa [htk, hag] using hc
  case free =>
    intro a ha
    have hau : (s.pool.seg a).inUsed = false := by simpa [hseg] using ha
    have hag : a ≠ g := by
      rintro rfl
      simp [h.used a hgl hgt] at hau
    rw [hdrop, if_neg hag]
    exact h.free a hau
  case last =>
    intro a hau haz har
    rw [hseg] at hau haz
    by_cases hag : a = g
    · subst hag
      have haz : (s.pool.seg a).refCount - 1 = 0 := by simpa using haz
      rw [hdrop, if_pos rfl, hz (by lia)]
    · rw [hdrop, if_neg hag]
      exact h.last a hau (by simpa [hag] using haz) har
  case outside =>
    intro a hau hal har
    rw [hseg] at hau
    exact h.outside a hau hal har
  case proper => exact h.proper
  case once =>
    intro a
    have ho := h.once a
    show s.retirements a = s.cleanups.countP _ + if s.retired a = true ∧ _ then 1 else 0
    rw [hseg]
    exact ho

/-- The writer may test any time after its subtraction. -/
theorem setTesting (h : Inv s l) {w : Replacement} (hw : s.writer = some w) :
    Inv { s with writer := some { w with testing := none } } l := by
  have htk : Taken { s with writer := some { w with testing := none } } = Taken s := by
    funext g
    simp [Taken, hw]
  constructor
  case chain => simpa only [htk] using h.chain
  case replacing =>
    intro w' hw'
    obtain rfl := Option.some.inj hw'
    exact h.replacing w hw
  case testing =>
    intro w' g hw' hg
    obtain rfl := Option.some.inj hw'
    simp at hg
  case used => simpa only [htk] using h.used
  case live =>
    intro g hg
    have := h.live g hg
    simpa [hw, Replacement.olds] using this
  case counts => simpa only [htk] using h.counts
  case head => exact h.head
  case tail => exact h.tail
  case nodup => exact h.nodup
  case bound => exact h.bound
  case distinct => exact h.distinct
  case resUsed => exact h.resUsed
  case resOutside => exact h.resOutside
  case resUnheld => exact h.resUnheld
  case resLive => exact h.resLive
  case resBound => exact h.resBound
  case free => exact h.free
  case last => exact h.last
  case outside => exact h.outside
  case proper => exact h.proper
  case once => exact h.once

/-- All references are dropped: the new segment takes the place of the replaced ones. -/
theorem relink (cfg : PoolConfig) (h : Inv s l) {w : Replacement} (hw : s.writer = some w)
    (htodo : w.todo = []) :
    ∃ l', Inv { s with
      pool := Retire.relink cfg s.pool w, writer := none
      reserved := s.reserved.erase w.idx } l' := by
  obtain ⟨xs, ys, rfl, hne, hidx, hp, hq⟩ := h.replacing w hw
  have hdone : w.olds = w.done := by simp [Replacement.olds, htodo]
  have htk : ∀ g, Taken s g ↔ g ∈ w.olds := by
    intro g
    simp [Taken, hw, hdone]
  have hout := h.resOutside w.idx hidx
  have hseg : ∀ g, (Retire.relink cfg s.pool w).seg g =
      { s.pool.seg g with
        refCount := if g = w.idx then 1 else (s.pool.seg g).refCount
        nextIdx := Chain.spliceNext w.idx s.pool.next w.prevIdx w.nextIdx g
        prevIdx := Chain.splicePrev w.idx s.pool.prev w.prevIdx w.nextIdx g } := by
    intro g
    have hn : ∀ a b, (s.pool.setEnds a b).next = s.pool.next := fun _ _ => rfl
    have hp : ∀ a b, (s.pool.setEnds a b).prev = s.pool.prev := fun _ _ => rfl
    have hs : ∀ a b c, (s.pool.setEnds a b).seg c = s.pool.seg c := fun _ _ _ => rfl
    by_cases hg : g = w.idx <;>
      simp [Retire.relink, seg_wire, FlushedSegment.setRef, hn, hp, hs, hg]
  have hlinked : (Retire.relink cfg s.pool w).Linked (xs ++ w.idx :: ys) := by
    obtain ⟨next, prev, hchain, hlinks⟩ := h.chain
    have hkeep : ∀ a ∈ xs ++ w.idx :: ys, a ≠ w.idx →
        s.pool.next a = next a ∧ s.pool.prev a = prev a := by
      intro a ha hai
      have ha : a ∈ xs ++ ys := by simpa [hai] using ha
      refine hlinks a ?_ fun ht => ?_
      · rcases List.mem_append.mp ha with ha | ha <;> simp [ha]
      · obtain ⟨hnxo, -, hny⟩ := List.nodup_append.mp h.nodup
        obtain ⟨-, -, hnx⟩ := List.nodup_append.mp hnxo
        have ho := (htk a).mp ht
        rcases List.mem_append.mp ha with ha | ha
        · exact hnx a ha a ho rfl
        · exact hny a (List.mem_append_right xs ho) a ha rfl
    apply Linked.of_splice hchain h.nodup h.bound hne hout (h.resBound w.idx hidx)
    case hn =>
      intro a ha
      rw [FlushedSegmentPool.next, hseg, hp, hq]
      by_cases hai : a = w.idx
      · simp [Chain.spliceNext, hai]
      · simp [Chain.spliceNext, (hkeep a ha hai).1]
    case hp =>
      intro a ha
      rw [FlushedSegmentPool.prev, hseg, hp, hq]
      by_cases hai : a = w.idx
      · simp [Chain.splicePrev, hai]
      · simp [Chain.splicePrev, (hkeep a ha hai).2]
    case hhead => simp [Retire.relink, h.head]
    case htail => simp [Retire.relink, h.tail]
  refine ⟨xs ++ w.idx :: ys, h.enter hidx htk ?_ hlinked ?_ ?_⟩
  · intro w' hw'
    rw [hw] at hw'
    rw [Option.some.inj hw']
  · intro g
    rw [hseg]
  · intro g
    rw [hseg]

end Inv

end VectorLsm.Retire
