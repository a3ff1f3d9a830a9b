import VectorLsm.Memtable.Failures

/-! # Inserts that fail

A slot that `reserve_slot` has handed out cannot be given back. The flush waits until as many rows
are published as slots are handed out, and a queued memtable is searched over all of these.
-/

namespace VectorLsm.Failures

open ConcurrentMemTable Memtable Memtable.State Transition

variable {V : Type*}

/-- The slots of which `search_memtable_common` may return the row. -/
def searchedSlots (m : ConcurrentMemTable V) (checkReady : Bool) : List ℕ :=
  let validNum := m.validSize
  if checkReady then
    match m.maxReadyId with
    | none => (List.range validNum).filter fun i => m.ready i && !m.bitmap i
    | some maxReady =>
        let readyLimit := min (maxReady + 1) validNum
        ((List.range' readyLimit (validNum - readyLimit)).filter fun i =>
          m.ready i && !m.bitmap i) ++ (List.range readyLimit).filter fun i => !m.bitmap i
  else (List.range validNum).filter fun i => !m.bitmap i

/-- The rows `prepare_for_flushing` writes as live. -/
def flushedSlots (m : ConcurrentMemTable V) : List ℕ :=
  (List.range m.validSize).filter fun i => !m.bitmap i

/-- No insert is running. -/
def State.Quiescent (x : State V) : Prop :=
  ∀ t, x.base.ins t = .idle ∨ (x.base.ins t).isReturned = true

/-- `wait_for_publish` returns on every sealed memtable of the queue. -/
def State.Settled (x : State V) : Prop :=
  ∀ g ∈ x.base.memtableIdxs, (x.base.mt g).isSealed = true →
    (x.base.mt g).readyCnt = (x.base.mt g).validSize

/-- Failed inserts do not wedge the flush, and their slots are neither returned by a search nor
flushed as live rows. -/
structure State.NotWedged (x : State V) : Prop where
  settled : x.Quiescent → x.Settled
  unseen : ∀ r ∈ x.refs, ∀ i ∈ searchedSlots (x.base.mt r.slot) r.checkReady, ¬ x.Failed r.slot i
  unflushed : ∀ f g, (x.base.flu f).done = some g → ∀ i ∈ flushedSlots (x.base.mt g),
    ¬ x.Failed g i

/-- The flush cannot settle on the memtable in slot `g`: an insert has failed in it, or recovery
has filled it beyond a capacity that was lowered since. -/
def State.Spoilt (x : State V) (g : SlotIdx) : Prop :=
  (∃ i, x.Failed g i) ∨ (x.base.mt g).capacity < (x.base.mt g).readyCnt

/-- The memtable that `enqueue_sealed_memtable` is about to push. -/
def enqueued (s : Memtable.State V) : Memtable.Action V → Option SlotIdx
  | .ins t =>
      match s.ins t with
      | .enqueue _ cur _ =>
          if s.exclusive ∧ s.memtableIdxs.length < memtableNum then some cur else none
      | _ => none
  | _ => none

/-- No memtable in which an insert has failed is queued, and no insert fails in a queued one. -/
def NoneFailsQueued (x : State V) : Action V → Prop
  | .act a => ∀ cur ∈ enqueued x.base a, ¬ x.Spoilt cur
  | .fail t => ∀ p ∈ (x.base.ins t).pending, p.1 ∉ x.base.memtableIdxs
  | .acquire _ | .unref _ => True

/-- No queued memtable of a recovered index holds more rows than its capacity. -/
def Fits (s : Memtable.State V) : Prop :=
  ∀ g ∈ s.memtableIdxs, (s.mt g).readyCnt ≤ (s.mt g).capacity

/-- A memtable that the flush cannot settle on is queued. -/
def State.Wedged (x : State V) : Prop := ∃ g ∈ x.base.memtableIdxs, x.Spoilt g

section Queue

variable {cfg : Config} {s s' : Memtable.State V} {a : Memtable.Action V}

theorem insertStep_queue {t : ℕ} (h : insertStep cfg s t = some s') :
    s'.memtableIdxs = s.memtableIdxs ++ (enqueued s (.ins t)).toList := by
  simp only [insertStep] at h
  simp only [enqueued]
  grind

/-- What a step does to the queue. -/
theorem step_queue (h : Memtable.step cfg s a = some s') :
    s'.memtableIdxs = s.memtableIdxs ++ (enqueued s a).toList ∨
      enqueued s a = none ∧ ∃ f g, (s.flu f).done = some g ∧
        s'.memtableIdxs = s.memtableIdxs.erase g := by
  cases a with
  | ins t => exact .inl (insertStep_queue h)
  | flu f =>
      simp only [Memtable.step, flushStep, failFlush] at h
      cases hpc : s.flu f with
      | registered g =>
          simp only [hpc] at h
          split at h
          case isFalse => cases h
          split at h <;> cases h
          · exact .inr ⟨rfl, f, g, by simp [hpc], rfl⟩
          · exact .inl (by simp [enqueued])
      | _ => exact .inl (by grind [enqueued])
  | _ =>
      simp only [Memtable.step, allocStep, claimStep, readerStep] at h
      exact .inl (by grind [enqueued])

theorem outgoing_of_enqueued {g : SlotIdx} (h : enqueued s a = some g) :
    ∃ t, (s.ins t).outgoing = some g := by
  unfold enqueued at h
  split at h
  case h_2 => cases h
  case h_1 t =>
    split at h
    case h_2 => cases h
    case h_1 r cur new hpc =>
      split at h <;> cases h
      exact ⟨t, by rw [hpc]; rfl⟩

end Queue

section Spoilt

variable {cfg : Config} {own own' : SlotIdx → Owner} {s s' : Memtable.State V} {x x' : State V}

/-- A publish does not take `ready_cnt` beyond the capacity. -/
theorem publish_le_capacity {m : ConcurrentMemTable V} (h : Counted m) {i : ℕ}
    (hi : i < m.validSize) (hready : m.ready i = false) :
    m.capacity < m.readyCnt + 1 ↔ m.capacity < m.readyCnt := by
  refine ⟨fun hlt => ?_, fun hlt => by omega⟩
  rcases h.ready with hc | hc
  · have hsub : m.readyIn ⊂ Finset.range m.validSize := by
      refine Finset.ssubset_iff_of_subset (Finset.filter_subset _ _) |>.mpr ⟨i, ?_, ?_⟩
      · exact Finset.mem_range.mpr hi
      · simp [hready]
    have hcard := Finset.card_lt_card hsub
    rw [Finset.card_range, ← hc] at hcard
    have := m.validSize_le_capacity
    omega
  · exact hc

/-- What a step leaves of a memtable that is queued or about to be. -/
structure SameFill (m m' : ConcurrentMemTable V) : Prop where
  memtableId : m'.memtableId = m.memtableId
  within : m'.capacity < m'.readyCnt ↔ m.capacity < m.readyCnt

theorem SameFill.insert (h : InsertTrans s s') (hs : Slots own s) (g : SlotIdx) :
    SameFill (s.mt g) (s'.mt g) := by
  cases h with
  | @publish t r g' i h =>
    obtain ⟨hlive, hi, hready⟩ := hs.pending t g' i (by simp [h])
    have hiff := publish_le_capacity (hs.counted g' hlive) hi hready
    constructor <;> grind
  | _ => constructor <;> grind

theorem SameFill.trans (h : Trans cfg own s own' s') (hp : Places own s) (hr : Refs own s)
    (hs : Slots own s) {g : SlotIdx} (hg : Tended own s g)
    (hb : ∀ t, own g ≠ .building t) : SameFill (s.mt g) (s'.mt g) := by
  unfold Tended at hg
  cases h with
  | insert h => exact SameFill.insert h hs g
  | rotate h =>
    cases h with
    | @register t r cur new pc h hpc =>
      have hown : own new = .building t := (hp.building t new).2 (by simp [h])
      constructor <;> grind
    | _ => constructor <;> grind
  | flush h => cases h <;> constructor <;> grind
  | reader h =>
    have hfree := fun g => hr.free_or_foreign (g := g)
    obtain ⟨-, hle, hreading, -⟩ := hr
    cases h <;> constructor <;> grind

theorem SameFill.failed_iff {g : SlotIdx} (h : SameFill (x.base.mt g) (x'.base.mt g))
    (hf : x'.failed = x.failed) (i : ℕ) : x'.Failed g i ↔ x.Failed g i := by
  rw [State.Failed, h.memtableId, hf]
  rfl

theorem SameFill.spoilt_iff {g : SlotIdx} (h : SameFill (x.base.mt g) (x'.base.mt g))
    (hf : x'.failed = x.failed) : x'.Spoilt g ↔ x.Spoilt g := by
  unfold State.Spoilt
  rw [exists_congr (h.failed_iff hf), h.within]

theorem wedged_congr (hq : x'.base.memtableIdxs = x.base.memtableIdxs)
    (hsp : ∀ g ∈ x.base.memtableIdxs, (x'.Spoilt g ↔ x.Spoilt g)) : x'.Wedged ↔ x.Wedged := by
  unfold State.Wedged
  rw [hq]
  exact exists_congr fun g => and_congr_right (hsp g)

/-- References do not touch the memtables. -/
theorem sameFill_setSlot {g : SlotIdx} {b : MemtableBufferSlot V}
    (hb : x'.base = x.base.setSlot g b) (hm : b.mt = x.base.mt g) (g' : SlotIdx) :
    SameFill (x.base.mt g') (x'.base.mt g') := by
  rw [hb]
  constructor <;> grind

end Spoilt

section Step

variable {cfg : Config} {own : SlotIdx → Owner} {x x' : State V}

/-- The wait of the flush has found the memtable complete. -/
theorem Inv.not_spoilt_of_done (hi : Inv own x) {f : ℕ} {g : SlotIdx}
    (hd : (x.base.flu f).done = some g) : ¬ x.Spoilt g := by
  rintro (⟨i, hf⟩ | hlt)
  · have hq := hi.claims.queued_of_done f g hd
    obtain ⟨hi', hready⟩ := hi.history.unready g i (.inl (by simp [hq])) hf
    simp [hi.slots.done f g hd i hi'] at hready
  · exact absurd (hi.history.within f g hd) (Nat.not_le.mpr hlt)

theorem Inv.wedged_act {a : Memtable.Action V} (hi : Inv own x)
    (h : Failures.step cfg x (.act a) = some x') :
    x'.Wedged ↔ x.Wedged ∨ ¬ NoneFailsQueued x (.act a) := by
  obtain ⟨s', hs, rfl, -⟩ := step_act h
  obtain ⟨own', ht, -⟩ := step_trans own hs
  have hsame : ∀ g, (own g).Live → ((x.setBase s').Spoilt g ↔ x.Spoilt g) := fun g hg =>
    (SameFill.trans ht hi.places hi.refs hi.slots (.inl hg) fun t h => by
      simp [h] at hg).spoilt_iff rfl
  have hqueued : ∀ g ∈ x.base.memtableIdxs, ((x.setBase s').Spoilt g ↔ x.Spoilt g) :=
    fun g hg => hsame g (by simp [(hi.places.queued g).2 hg])
  have hok : NoneFailsQueued x (.act a) ↔ ∀ cur ∈ enqueued x.base a, ¬ x.Spoilt cur := Iff.rfl
  rw [hok]
  rcases step_queue hs with hq | ⟨hnone, f, g, hd, hq⟩
  · cases henq : enqueued x.base a with
    | none =>
      simp only [henq, Option.toList_none, List.append_nil] at hq
      simpa [henq] using wedged_congr hq hqueued
    | some cur =>
      obtain ⟨t, hcur⟩ := outgoing_of_enqueued henq
      have hown : own cur = .rotation t := (hi.places.rotation t cur).2 hcur
      have hspoilt := hsame cur (by simp [hown])
      rw [State.Wedged, State.setBase_base, hq, henq]
      simp only [Option.toList_some, List.mem_append, List.mem_singleton, Option.mem_def,
        Option.some.injEq, forall_eq', not_not]
      constructor
      · rintro ⟨g, hg | rfl, hsp⟩
        · exact .inl ⟨g, hg, (hqueued g hg).mp hsp⟩
        · exact .inr (hspoilt.mp hsp)
      · rintro (⟨g, hg, hsp⟩ | hsp)
        · exact ⟨g, .inl hg, (hqueued g hg).mpr hsp⟩
        · exact ⟨cur, .inr rfl, hspoilt.mpr hsp⟩
  · -- A memtable that is handed off was complete.
    have hnot := hi.not_spoilt_of_done hd
    rw [State.Wedged, State.setBase_base, hnone]
    simp only [Option.mem_def, reduceCtorEq, false_imp_iff, implies_true, not_true_eq_false,
      or_false]
    constructor
    · rintro ⟨g', hg', hsp⟩
      have hmem := List.mem_of_mem_erase (hq ▸ hg')
      exact ⟨g', hmem, (hqueued g' hmem).mp hsp⟩
    · rintro ⟨g', hg', hsp⟩
      have hne : g' ≠ g := by
        rintro rfl
        exact hnot hsp
      refine ⟨g', ?_, (hqueued g' hg').mpr hsp⟩
      rw [hq]
      exact (List.mem_erase_of_ne hne).mpr hg'

theorem Inv.wedged_fail {t : ℕ} (hi : Inv own x) (h : Failures.step cfg x (.fail t) = some x') :
    x'.Wedged ↔ x.Wedged ∨ ¬ NoneFailsQueued x (.fail t) := by
  obtain ⟨own', added, ht, hf, -⟩ := failInsert_trans own h
  have hok : NoneFailsQueued x (.fail t) ↔
    ∀ p ∈ (x.base.ins t).pending, p.1 ∉ x.base.memtableIdxs := Iff.rfl
  rw [hok]
  generalize hb : x'.base = s' at ht
  cases ht with
  | @insert g i hpend =>
    have hsp : ∀ g', x'.Spoilt g' ↔ g' = g ∨ x.Spoilt g' := by
      intro g'
      by_cases hg : g' = g
      · subst hg
        simp [State.Spoilt, State.Failed, hb, hf]
      · simp [State.Spoilt, State.Failed, hb, hf, hg]
    simp only [State.Wedged, hsp, hb, hpend, leave_memtableIdxs, Option.mem_some_iff, forall_eq',
      not_not]
    constructor
    · rintro ⟨g', hg', rfl | hsp'⟩
      · exact .inr hg'
      · exact .inl ⟨g', hg', hsp'⟩
    · rintro (⟨g', hg', hsp'⟩ | hg')
      · exact ⟨g', hg', .inr hsp'⟩
      · exact ⟨g, hg', .inl rfl⟩
  | allocate hpc =>
    have hpend : (x.base.ins t).pending = none := by rw [hpc]; rfl
    rw [hpend, wedged_congr (x := x) (by rw [hb]; rfl) fun g _ => ?_]
    · simp only [Option.mem_def, reduceCtorEq, false_imp_iff, implies_true, not_true_eq_false,
        or_false]
    · exact SameFill.spoilt_iff (by rw [hb]; constructor <;> rfl) hf
  | @register r cur new hpc =>
    have hpend : (x.base.ins t).pending = none := by rw [hpc]; rfl
    have hown : own new = .building t := (hi.places.building t new).2 (by rw [hpc]; rfl)
    rw [hpend, wedged_congr (x := x) (by rw [hb]; rfl) fun g hg => ?_]
    · simp only [Option.mem_def, reduceCtorEq, false_imp_iff, implies_true, not_true_eq_false,
        or_false]
    · have hne : g ≠ new := by
        rintro rfl
        simp [(hi.places.queued g).2 hg] at hown
      exact SameFill.spoilt_iff (by rw [hb]; constructor <;> simp [hne]) hf

/-- A queued memtable stays spoilt, and a step spoils one just when it breaks the condition. -/
theorem Inv.wedged_step {a : Action V} (hi : Inv own x) (h : Failures.step cfg x a = some x') :
    x'.Wedged ↔ x.Wedged ∨ ¬ NoneFailsQueued x a := by
  cases a with
  | act a => exact hi.wedged_act h
  | fail t => exact hi.wedged_fail h
  | acquire g =>
      obtain ⟨-, -, hf, -, hb⟩ := step_acquire h
      have hq : x'.base.memtableIdxs = x.base.memtableIdxs := by rw [hb]; rfl
      simpa [NoneFailsQueued] using wedged_congr hq fun g _ =>
        (sameFill_setSlot hb rfl g).spoilt_iff hf
  | unref r =>
      obtain ⟨-, -, hf, -, hb⟩ := step_unref h
      have hq : x'.base.memtableIdxs = x.base.memtableIdxs := by rw [hb]; rfl
      simpa [NoneFailsQueued] using wedged_congr hq fun g _ =>
        (sameFill_setSlot hb rfl g).spoilt_iff hf

/-- Exactly the runs that meet the condition, from an index whose queue fits, end without a
spoilt memtable in the queue. -/
theorem Inv.wedged_exec {as : List (Action V)} (hi : Inv own x)
    (h : exec (Failures.step cfg) x as = some x') :
    x'.Wedged ↔ x.Wedged ∨ ¬ Meets NoneFailsQueued (Failures.step cfg) x as := by
  induction as generalizing x own with
  | nil =>
      obtain rfl := Option.some.inj h
      simp [Meets]
  | cons a as ih =>
      obtain ⟨y, hy, h⟩ := Option.bind_eq_some_iff.mp h
      obtain ⟨own', hi'⟩ := hi.step hy
      rw [ih hi' h, hi.wedged_step hy]
      simp only [Meets, hy]
      tauto

theorem wedged_begin {s : Memtable.State V} : (begin s).Wedged ↔ ¬ Fits s := by
  simp [State.Wedged, State.Spoilt, State.Failed, begin, Fits]

/-- Nothing is searched without a look at the ready flags in which an insert has failed. -/
def State.Sighted (x : State V) : Prop :=
  ∀ r ∈ x.refs, r.checkReady = false → ∀ i, ¬ x.Failed r.slot i

theorem Inv.sighted_act {a : Memtable.Action V} (hi : Inv own x) (hsi : x.Sighted)
    (h : Failures.step cfg x (.act a) = some x') : x'.Sighted := by
  obtain ⟨s', hs, rfl, -⟩ := step_act h
  obtain ⟨own', ht, -⟩ := step_trans own hs
  intro r hr hc i hf
  have hretired := hi.snapshots.unchecked r hr hc
  have hsame : SameFill (x.base.mt r.slot) ((x.setBase s').base.mt r.slot) :=
    SameFill.trans ht hi.places hi.refs hi.slots (.inr (hi.snapshots.reading hr))
      fun t hb => by simp [hb] at hretired
  exact hsi r hr hc i ((hsame.failed_iff rfl i).mp hf)

theorem Inv.sighted_fail {t : ℕ} (hi : Inv own x) (hsi : x.Sighted)
    (hok : NoneFailsQueued x (.fail t)) (h : Failures.step cfg x (.fail t) = some x') :
    x'.Sighted := by
  obtain ⟨own', added, ht, hf, href⟩ := failInsert_trans own h
  intro r hr hc i hfail
  rw [href] at hr
  have hretired := hi.snapshots.unchecked r hr hc
  have hold := hsi r hr hc i
  unfold State.Failed at hold hfail
  rw [hf] at hfail
  generalize hb : x'.base = s' at ht hfail
  cases ht with
  | @insert g j hpend =>
    rcases List.mem_cons.mp hfail with heq | hmem
    · obtain rfl := (Prod.mk.inj heq).1
      -- A slot that is off the growing place and still has an insert at work is queued.
      have hlive := (hi.slots.pending t _ j hpend).1
      have hq : own r.slot = .queued := by
        revert hlive hretired
        cases own r.slot <;> simp
      exact hok _ hpend ((hi.places.queued _).1 hq)
    · exact hold hmem
  | allocate hpc => exact hold hfail
  | @register r' cur new hpc =>
    have hown : own new = .building t := (hi.places.building t new).2 (by rw [hpc]; rfl)
    have hne : r.slot ≠ new := by
      intro heq
      simp [heq, hown] at hretired
    exact hold (by simpa [hne] using hfail)

theorem Inv.sighted_step {a : Action V} (hi : Inv own x) (hw : ¬ x.Wedged) (hsi : x.Sighted)
    (hok : NoneFailsQueued x a) (h : Failures.step cfg x a = some x') : x'.Sighted := by
  cases a with
  | act a => exact hi.sighted_act hsi h
  | fail t => exact hi.sighted_fail hsi hok h
  | acquire g =>
      obtain ⟨hg, -, hf, hr, hb⟩ := step_acquire h
      have hfail : ∀ g' i, x'.Failed g' i → x.Failed g' i := fun g' i =>
        ((sameFill_setSlot hb rfl g').failed_iff hf i).mp
      intro r hmem hc i hi'
      rw [hr] at hmem
      rcases List.mem_cons.mp hmem with rfl | hmem
      · have hq := hg.resolve_left (of_decide_eq_false hc)
        exact hw ⟨g, hq, .inl ⟨i, hfail g i hi'⟩⟩
      · exact hsi r hmem hc i (hfail _ i hi')
  | unref r =>
      obtain ⟨-, -, hf, hr, hb⟩ := step_unref h
      intro r' hmem hc i hi'
      rw [hr] at hmem
      exact hsi r' (List.mem_of_mem_erase hmem) hc i
        (((sameFill_setSlot hb rfl r'.slot).failed_iff hf i).mp hi')

theorem Inv.sighted_exec {as : List (Action V)} (hi : Inv own x) (hw : ¬ x.Wedged)
    (hsi : x.Sighted) (hok : Meets NoneFailsQueued (Failures.step cfg) x as)
    (h : exec (Failures.step cfg) x as = some x') : x'.Sighted := by
  induction as generalizing x own with
  | nil =>
      obtain rfl := Option.some.inj h
      exact hsi
  | cons a as ih =>
      obtain ⟨y, hy, h⟩ := Option.bind_eq_some_iff.mp h
      obtain ⟨ha, hok⟩ := hok
      rw [hy] at hok
      obtain ⟨own', hi'⟩ := hi.step hy
      have hw' : ¬ y.Wedged := by
        rw [hi.wedged_step hy]
        simp [hw, ha]
      exact ih hi' hw' (hi.sighted_step hw hsi ha hy) hok h

end Step

section Settled

variable {own : SlotIdx → Owner} {x : State V}

theorem validSize_of_all {m : ConcurrentMemTable V} (h : Counted m)
    (hle : m.readyCnt ≤ m.capacity) (hall : ∀ i < m.validSize, m.ready i = true) :
    m.readyCnt = m.validSize := by
  have hc := h.ready.resolve_right (Nat.not_lt.mpr hle)
  have hset : m.readyIn = Finset.range m.validSize := by
    rw [readyIn, Finset.filter_eq_self]
    exact fun i hi => hall i (Finset.mem_range.mp hi)
  rw [hc, hset, Finset.card_range]

/-- With no insert running, the flush settles on what is not spoilt and on nothing else. -/
theorem Inv.settled_iff (hi : Inv own x) (hq : x.Quiescent) : x.Settled ↔ ¬ x.Wedged := by
  have hlive : ∀ g ∈ x.base.memtableIdxs, (own g).Live := fun g hg => by
    simp [(hi.places.queued g).2 hg]
  have hpend : ∀ t, (x.base.ins t).pending = none := by
    intro t
    rcases hq t with h | h
    · rw [h]
      rfl
    · revert h
      cases x.base.ins t <;> simp
  constructor
  · rintro hs ⟨g, hg, hsp⟩
    have hsealed := hi.history.isSealed g (.inl ((hi.places.queued g).2 hg))
    have heq := hs g hg hsealed
    rcases hsp with ⟨i, hf⟩ | hlt
    · obtain ⟨hiv, hready⟩ := hi.history.unready g i (.inl (hlive g hg)) hf
      simp [(hi.slots.counted g (hlive g hg)).all_ready heq hiv] at hready
    · have := (x.base.mt g).validSize_le_capacity
      omega
  · intro hw g hg _
    have hle : (x.base.mt g).readyCnt ≤ (x.base.mt g).capacity := by
      by_contra hlt
      exact hw ⟨g, hg, .inr (Nat.not_le.mp hlt)⟩
    refine validSize_of_all (hi.slots.counted g (hlive g hg)) hle fun i hiv => ?_
    rcases hi.accounted g i (hlive g hg) hiv with h | ⟨t, ht⟩ | h
    · exact h
    · rw [hpend t] at ht
      cases ht
    · exact absurd ⟨g, hg, .inl ⟨i, h⟩⟩ hw

theorem ready_of_mem_searchedSlots {m : ConcurrentMemTable V} (h : PrefixReady m) {i : ℕ}
    (hi : i ∈ searchedSlots m true) : m.ready i = true := by
  simp only [searchedSlots, if_true] at hi
  cases hmax : m.maxReadyId with
  | none =>
      simp only [hmax, List.mem_filter, Bool.and_eq_true] at hi
      exact hi.2.1
  | some top =>
      simp only [hmax, List.mem_append, List.mem_filter, Bool.and_eq_true, List.mem_range] at hi
      rcases hi with hi | hi
      · exact hi.2.1
      · exact h top hmax i (by omega)

theorem Inv.notWedged (hi : Inv own x) (hw : ¬ x.Wedged) (hsi : x.Sighted) : x.NotWedged where
  settled hq := (hi.settled_iff hq).mpr hw
  unseen r hr i hsearch hf := by
    cases hc : r.checkReady with
    | false => exact hsi r hr hc i hf
    | true =>
        have htended : Tended own x.base r.slot := .inr (hi.snapshots.reading hr)
        have hready := ready_of_mem_searchedSlots (hi.history.ahead _ htended) (hc ▸ hsearch)
        simp [(hi.history.unready _ i htended hf).2] at hready
  unflushed f g hd i _ hf := hi.not_spoilt_of_done hd (.inl ⟨i, hf⟩)

end Settled

variable {cfg : Config} {s : Memtable.State V} {as : List (Action V)} {x : State V}

/-- In every run from a queue that fits in which no insert fails in a memtable that is or gets
queued, failed inserts wedge nothing; and only in such a run does a quiescent state have that
property. -/
theorem notWedged_iff (hs : Start cfg s) (hrun : exec (step cfg) (begin s) as = some x) :
    (Fits s ∧ Meets NoneFailsQueued (step cfg) (begin s) as → x.NotWedged) ∧
      (x.Quiescent → x.NotWedged → Fits s ∧ Meets NoneFailsQueued (step cfg) (begin s) as) := by
  have h0 := inv_begin hs
  obtain ⟨own, hi⟩ := inv_exec h0 hrun
  have hiff : x.Wedged ↔ ¬ (Fits s ∧ Meets NoneFailsQueued (step cfg) (begin s) as) := by
    rw [h0.wedged_exec hrun, wedged_begin]
    tauto
  constructor
  · rintro ⟨hfits, hok⟩
    have hw : ¬ x.Wedged := fun h => hiff.mp h ⟨hfits, hok⟩
    have hw0 : ¬ (begin s).Wedged := fun h => wedged_begin.mp h hfits
    exact hi.notWedged hw (h0.sighted_exec hw0 nofun hok hrun)
  · intro hq hn
    by_contra hnot
    exact (hi.settled_iff hq).mp (hn.settled hq) (hiff.mpr hnot)

section Demo

instance (x : State V) (g : SlotIdx) : Decidable (x.Spoilt g) :=
  decidable_of_iff ((x.failed.any fun p =>
      decide (p.1 = g) && decide (p.2.1 = (x.base.mt g).memtableId)) = true ∨
        (x.base.mt g).capacity < (x.base.mt g).readyCnt) <| by
    unfold State.Spoilt State.Failed
    simp only [List.any_eq_true, Bool.and_eq_true, decide_eq_true_eq]
    refine or_congr_left ⟨?_, ?_⟩
    · rintro ⟨⟨g', sid, i⟩, hmem, hg, hsid⟩
      obtain rfl : g' = g := hg
      obtain rfl : sid = (x.base.mt g').memtableId := hsid
      exact ⟨i, hmem⟩
    · rintro ⟨i, hmem⟩
      exact ⟨_, hmem, rfl, rfl⟩

instance (x : State V) : (a : Action V) → Decidable (NoneFailsQueued x a)
  | .act a => inferInstanceAs (Decidable (∀ cur ∈ enqueued x.base a, ¬ x.Spoilt cur))
  | .fail t => inferInstanceAs
      (Decidable (∀ p ∈ (x.base.ins t).pending, p.1 ∉ x.base.memtableIdxs))
  | .acquire _ | .unref _ => .isTrue trivial

instance (s : Memtable.State V) : Decidable (Fits s) :=
  inferInstanceAs (Decidable (∀ g ∈ s.memtableIdxs, _))

/-- With room for two rows, insert 1 fails, insert 2 returns, and a search looks. -/
def demoFailsFirst : List (Action Unit) :=
  demoRun 1 5 ++ [.fail 1] ++ demoRun 2 6 ++ [.acquire 0]

/-- With room for one row, insert 1 fails, insert 2 rotates, and a search looks. -/
def demoFailsLast : List (Action Unit) :=
  demoRun 1 5 ++ [.fail 1] ++ demoRun 2 6 ++ [.act (.alloc 2 1)] ++
    List.replicate 9 (.act (.ins 2)) ++ [.acquire 0]

/-- After `demoFailsLast` no insert runs, and the queued memtable waits for a row that nobody will
publish. -/
theorem not_notWedged : ¬ ∀ (cfg : Config) (s : Memtable.State Unit) (as : List (Action Unit))
    (x : State Unit), Start cfg s → exec (step cfg) (begin s) as = some x → x.NotWedged := by
  intro hall
  obtain ⟨s, hbuild, x, hrun, hidle, hqueue, hsealed, hcnt, hsize, h1, h2⟩ : ∃ s,
      buildLsmIndex ⟨1, 1⟩ (fun _ => zeroSlot demoRow) = some s ∧ ∃ x,
        exec (step ⟨1, 1⟩) (begin s) demoFailsLast = some x ∧ s.ins = (fun _ => .idle) ∧
        x.base.memtableIdxs = [0] ∧ (x.base.mt 0).isSealed = true ∧
        (x.base.mt 0).readyCnt = 0 ∧ (x.base.mt 0).validSize = 1 ∧ x.base.ins 1 = .idle ∧
        x.base.ins 2 = .returned demoRow :=
    ⟨_, rfl, _, rfl, rfl, rfl, rfl, rfl, rfl, rfl, rfl⟩
  have hquiet : x.Quiescent := by
    intro t
    by_cases ht : t = 1 ∨ t = 2
    · rcases ht with rfl | rfl
      · exact .inl h1
      · exact .inr (by rw [h2]; rfl)
    · obtain ⟨hne1, hne2⟩ := not_or.mp ht
      rw [exec_ins_of_ne ?_ hrun]
      · exact .inl (congrFun hidle t)
      · simp [demoFailsLast, demoRun, Action.insert?, Memtable.Action.insert?, Ne.symm hne1,
          Ne.symm hne2]
  have hstart : Start ⟨1, 1⟩ s := .build (unregistered_zeroSlot _) hbuild
  have hset := (hall _ s _ x hstart hrun).settled hquiet 0 (by simp [hqueue]) hsealed
  omega

theorem notWedged_iff_demoFailsFirst : ∃ s x,
    buildLsmIndex demoConfig (fun _ => zeroSlot demoRow) = some s ∧
      exec (step demoConfig) (begin s) demoFailsFirst = some x ∧ x.Failed 0 0 ∧ x.NotWedged := by
  obtain ⟨s, hbuild, x, hrun, hfailed, hfits, hmeets⟩ : ∃ s,
      buildLsmIndex demoConfig (fun _ => zeroSlot demoRow) = some s ∧ ∃ x,
        exec (step demoConfig) (begin s) demoFailsFirst = some x ∧ x.Failed 0 0 ∧ Fits s ∧
        Meets NoneFailsQueued (step demoConfig) (begin s) demoFailsFirst :=
    ⟨_, rfl, _, rfl, by decide, by decide, by decide⟩
  have hstart : Start demoConfig s := .build (unregistered_zeroSlot _) hbuild
  exact ⟨s, x, hbuild, hrun, hfailed, (notWedged_iff hstart hrun).1 ⟨hfits, hmeets⟩⟩

end Demo

end VectorLsm.Failures
