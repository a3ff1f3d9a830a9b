import VectorLsm.Memtable.Ownership

/-! # Where the rows are

The counters of a memtable follow its ready flags, a reserved slot belongs to one insert
until it is published, and a returned insert is the writer of exactly one published slot.
-/

namespace VectorLsm

variable {V : Type*}

namespace ConcurrentMemTable

/-- The published slots among those handed out. -/
def readyIn (m : ConcurrentMemTable V) : Finset ℕ :=
  (Finset.range m.validSize).filter fun i => m.ready i

/-- `ready_cnt` counts the published slots, unless recovery filled the table beyond its
capacity; no slot is ready before it is handed out. -/
structure Counted (m : ConcurrentMemTable V) : Prop where
  ready : m.readyCnt = m.readyIn.card ∨ m.capacity < m.readyCnt
  free : ∀ i, m.currentSize ≤ i → i < m.capacity → m.ready i = false

/-- Insert `t` has published row `r` in slot `i`. -/
structure Holds (m : ConcurrentMemTable V) (t : ℕ) (r : Row V) (i : ℕ) : Prop where
  valid : i < m.validSize
  ready : m.ready i
  writer : m.writer i = some t
  row : m.rows i = r

variable {m : ConcurrentMemTable V}

theorem Counted.register (rel : Oid) (sid : SegmentId) (cap : ℕ) :
    Counted (m.register rel sid cap) where
  ready := .inl (by simp [readyIn])
  free i _ hi := by simp_all

/-- What a memtable is between its registration and the first slot it hands out. -/
structure Registered (m : ConcurrentMemTable V) (sid : SegmentId) : Prop where
  counted : Counted m
  memtableId : m.memtableId = sid
  currentSize : m.currentSize = 0
  writer : ∀ i, m.writer i = none

theorem registered (m : ConcurrentMemTable V) (rel : Oid) (sid : SegmentId) (cap : ℕ) :
    Registered (m.register rel sid cap) sid :=
  ⟨.register rel sid cap, rfl, rfl, fun _ => rfl⟩

theorem Counted.bump (h : Counted m) : Counted m.bump where
  ready := by
    refine h.ready.imp (fun hc => ?_) id
    rw [bump_readyCnt, hc]
    congr 1
    ext i
    simp only [readyIn, Finset.mem_filter, Finset.mem_range, validSize, bump_currentSize,
      bump_capacity, bump_ready]
    by_cases hi : m.currentSize ≤ i ∧ i < m.capacity
    · simp [h.free i hi.1 hi.2]
    · have : i < min (m.currentSize + 1) m.capacity ↔ i < min m.currentSize m.capacity := by omega
      rw [this]
  free i hi hc := h.free i (by simp at hi; omega) hc

theorem Counted.publishSlotRelease (h : Counted m) {i : ℕ} (hi : i < m.validSize)
    (hr : m.ready i = false) : Counted (m.publishSlotRelease i) where
  ready := by
    refine h.ready.imp (fun hc => ?_) fun hc => by simp; omega
    have hmem : i ∉ m.readyIn := by simp [readyIn, hr]
    have hset : (m.publishSlotRelease i).readyIn = insert i m.readyIn := by
      ext j
      by_cases hj : j = i <;> simp_all [readyIn, Function.update_apply]
    rw [hset, Finset.card_insert_of_notMem hmem, ← hc]
    rfl
  free j hj hc := by
    have hji : j ≠ i := by
      rintro rfl
      simp [validSize] at hi hj
      omega
    simpa [Function.update_apply, hji] using h.free j hj hc

/-- `wait_for_publish` returns only when every slot handed out is published. -/
theorem Counted.all_ready (h : Counted m) (hr : m.readyCnt = m.validSize) {i : ℕ}
    (hi : i < m.validSize) : m.ready i := by
  rcases h.ready with hc | hc
  · have hsub : m.readyIn ⊆ Finset.range m.validSize := Finset.filter_subset _ _
    have heq : m.readyIn = Finset.range m.validSize :=
      Finset.eq_of_subset_of_card_le hsub (by rw [Finset.card_range, ← hc, hr])
    have : i ∈ m.readyIn := heq ▸ Finset.mem_range.mpr hi
    exact (Finset.mem_filter.mp this).2
  · have := m.validSize_le_capacity
    omega

theorem Counted.congr {m' : ConcurrentMemTable V} (h : Counted m)
    (hs : m'.currentSize = m.currentSize) (hc : m'.capacity = m.capacity)
    (hr : m'.readyCnt = m.readyCnt) (hf : m'.ready = m.ready) : Counted m' := by
  obtain ⟨h1, h2⟩ := h
  constructor
  · simpa only [readyIn, validSize, hs, hc, hr, hf] using h1
  · simpa only [hs, hc, hf] using h2

end ConcurrentMemTable

namespace Memtable

open ConcurrentMemTable

/-- A reserved slot is its insert's alone until it is published; no slot of a memtable that a
flush has waited for is still reserved. -/
structure Slots (own : SlotIdx → Owner) (s : State V) : Prop where
  counted : ∀ g, (own g).Live → Counted (s.mt g)
  pending : ∀ t g i, (s.ins t).pending = some (g, i) →
    (own g).Live ∧ i < (s.mt g).validSize ∧ (s.mt g).ready i = false
  distinct : ∀ t t' p, (s.ins t).pending = some p → (s.ins t').pending = some p → t = t'
  stored : ∀ t r g i, s.ins t = .publish r g i →
    (s.mt g).rows i = r ∧ (s.mt g).writer i = some t
  done : ∀ f g, (s.flu f).done = some g → ∀ i < (s.mt g).validSize, (s.mt g).ready i
  fresh : ∀ t g, own g = .fresh t → (s.mt g).currentSize = 0

/-- Segment ids are given out once. -/
structure Names (own : SlotIdx → Owner) (s : State V) : Prop where
  below : ∀ g, (own g).Live → (s.mt g).memtableId < s.nextSegmentId
  live : ∀ g g', (own g).Live → (own g').Live → (s.mt g).memtableId = (s.mt g').memtableId → g = g'
  handedBelow : ∀ m ∈ s.handedOff, m.memtableId < s.nextSegmentId
  handed : ∀ m ∈ s.handedOff, ∀ g, (own g).Live → (s.mt g).memtableId ≠ m.memtableId
  nodup : (s.handedOff.map ConcurrentMemTable.memtableId).Nodup

/-- The history of writers: at most one slot for each insert. -/
structure Writers (own : SlotIdx → Owner) (s : State V) : Prop where
  live : ∀ g i t, (own g).Live → (s.mt g).writer i = some t →
    (s.ins t).pending = some (g, i) ∨ (s.ins t).isReturned
  handed : ∀ m ∈ s.handedOff, ∀ i t, m.writer i = some t → (s.ins t).isReturned
  liveLive : ∀ g g' i i' t, (own g).Live → (own g').Live → (s.mt g).writer i = some t →
    (s.mt g').writer i' = some t → g = g' ∧ i = i'
  liveHanded : ∀ g, ∀ m ∈ s.handedOff, ∀ i i' t, (own g).Live → (s.mt g).writer i = some t →
    m.writer i' ≠ some t
  handedHanded : ∀ m ∈ s.handedOff, ∀ m' ∈ s.handedOff, ∀ i i' t, m.writer i = some t →
    m'.writer i' = some t → m = m' ∧ i = i'

/-- The row of a returned insert is in a live memtable or in one handed off. -/
def Kept (own : SlotIdx → Owner) (s : State V) : Prop :=
  ∀ t r, s.ins t = .returned r →
    (∃ g i, (own g).Live ∧ Holds (s.mt g) t r i) ∨ ∃ m ∈ s.handedOff, ∃ i, Holds m t r i

section Rotated

variable {cfg : Config} {own own' : SlotIdx → Owner} {s s' : State V}

/-- A step of a rotation leaves the memtables of the index and the inserts at their slots as they
are; the memtable that it registers takes the next segment id. -/
structure Rotated (own : SlotIdx → Owner) (s : State V) (own' : SlotIdx → Owner) (s' : State V) :
    Prop where
  live : ∀ g, (own g).Live → (own' g).Live ∧ s'.mt g = s.mt g
  entered : ∀ g, (own' g).Live → (own g).Live ∨
    Registered (s'.mt g) s.nextSegmentId ∧ s.nextSegmentId < s'.nextSegmentId
  single : ∀ g g', (own' g).Live → (own' g').Live → ¬ (own g).Live → ¬ (own g').Live → g = g'
  fresh : ∀ t g, own' g = .fresh t → own g = .fresh t ∨ ¬ (own g).Live
  nextSegmentId : s.nextSegmentId ≤ s'.nextSegmentId
  pending : ∀ t, (s'.ins t).pending = (s.ins t).pending
  publish : ∀ t r g i, s'.ins t = .publish r g i ↔ s.ins t = .publish r g i
  returned : ∀ t r, s'.ins t = .returned r → s.ins t = .returned r
  isReturned : ∀ t, (s'.ins t).isReturned = (s.ins t).isReturned
  flu : s'.flu = s.flu
  handedOff : s'.handedOff = s.handedOff

theorem RotateTrans.rotated (h : RotateTrans cfg own s own' s') (hp : Places own s)
    (hr : Refs own s) : Rotated own s own' s' := by
  cases h with
  | @rotateOut t r g _ h hx hs | @rotateOver t r g _ h hx hs =>
    have hown : own g = .growing := (hp.growing g).2 hs
    constructor <;> grind [Function.update_apply]
  | rotateInvalid h hx hs => constructor <;> grind [Function.update_apply]
  | @alloc t r cur g h h0 =>
    have hown : own g = .nobody := hr.free h0
    constructor <;> grind [Function.update_apply]
  | @register t r cur new pc h hpc =>
    have hown : own new = .building t := (hp.building t new).2 (by simp [h])
    have hreg := (s.mt new).registered cfg.rel s.nextSegmentId cfg.capacity
    constructor <;> grind [Function.update_apply]
  | @enqueue t r cur new h hx =>
    have hcur : own cur = .rotation t := (hp.rotation t cur).2 (by simp [h])
    constructor <;> grind [Function.update_apply]
  | @install t r new _ h hx =>
    have hown : own new = .fresh t := (hp.fresh t new).2 (by simp [h])
    constructor <;> grind [Function.update_apply]

end Rotated

section Slots

variable {cfg : Config} {own own' : SlotIdx → Owner} {s s' : State V}

theorem Claims.queued_of_done (hc : Claims own s) (f : ℕ) (g : SlotIdx)
    (hd : (s.flu f).done = some g) : own g = .queued :=
  (hc.queued f g (FlushPc.claim_of_done hd)).1

theorem Slots.live_of_publish (hs : Slots own s) (t : ℕ) (r : Row V) (g : SlotIdx) (i : ℕ)
    (h : s.ins t = .publish r g i) : (own g).Live :=
  (hs.pending t g i (by simp [h])).1

theorem Slots.fetchAdd {t : ℕ} {r : Row V} {g : SlotIdx} {pc : InsertPc V} (hl : Locks s)
    (hp : Places own s) (hc : Claims own s) (hs : Slots own s) (h : s.ins t = .fetchAdd r g)
    (hpc : pc = .setSealed r g ∧ (s.mt g).capacity ≤ (s.mt g).currentSize ∨
      pc = .unlock r g (some (s.mt g).currentSize) ∧ (s.mt g).currentSize < (s.mt g).capacity) :
    Slots own ((s.setMt g (s.mt g).bump).setIns t pc) := by
  have hcl := hc.queued_of_done
  have hpl := hs.live_of_publish
  have hown : own g = .growing := (hp.growing g).2 (hl.sharing t g (by simp [h]))
  obtain ⟨hcn, hpe, hdi, hst, hdn, hfr⟩ := hs
  have hg := hcn g (by simp [hown])
  have hb := hg.bump
  have hfree := hg.free _ le_rfl
  constructor <;> grind [Function.update_apply, validSize]

theorem Slots.write {t i : ℕ} {r : Row V} {g : SlotIdx} (hc : Claims own s) (hs : Slots own s)
    (h : s.ins t = .write r g i) :
    Slots own ((s.setMt g ((s.mt g).store i r t)).setIns t (.publish r g i)) := by
  have hcl := hc.queued_of_done
  have hpl := hs.live_of_publish
  obtain ⟨hcn, hpe, hdi, hst, hdn, hfr⟩ := hs
  have hown := hpe t g i (by simp [h])
  constructor <;> grind [Function.update_apply, Counted.congr]

theorem Slots.publish {t i : ℕ} {r : Row V} {g : SlotIdx} (hc : Claims own s) (hs : Slots own s)
    (h : s.ins t = .publish r g i) :
    Slots own ((s.setMt g ((s.mt g).publishSlotRelease i)).setIns t (.returned r)) := by
  have hcl := hc.queued_of_done
  have hpl := hs.live_of_publish
  obtain ⟨hcn, hpe, hdi, hst, hdn, hfr⟩ := hs
  obtain ⟨hlive, hi, hready⟩ := hpe t g i (by simp [h])
  have hb := (hcn g hlive).publishSlotRelease hi hready
  constructor <;> grind [Function.update_apply]

theorem Slots.insert (h : InsertTrans s s') (hl : Locks s) (hp : Places own s)
    (hc : Claims own s) (hs : Slots own s) : Slots own s' := by
  have hcl := hc.queued_of_done
  have hpl := hs.live_of_publish
  cases h with
  | stay => exact hs
  | fetchFull h hi => exact hs.fetchAdd hl hp hc h (.inl ⟨rfl, hi⟩)
  | fetchSlot h hi => exact hs.fetchAdd hl hp hc h (.inr ⟨rfl, hi⟩)
  | write h => exact hs.write hc h
  | publish h => exact hs.publish hc h
  | control h =>
    obtain ⟨hcn, hpe, hdi, hst, hdn, hfr⟩ := hs
    obtain ⟨-, h2, -, -, -, -, h3, -⟩ := h
    constructor <;> grind [Function.update_apply]
  | setSealed h =>
    obtain ⟨hcn, hpe, hdi, hst, hdn, hfr⟩ := hs
    constructor <;> grind [Function.update_apply, Counted.congr]
  | _ =>
    obtain ⟨hcn, hpe, hdi, hst, hdn, hfr⟩ := hs
    constructor <;> grind [Function.update_apply]

theorem Slots.rotate (h : Rotated own s own' s') (hc : Claims own s) (hs : Slots own s) :
    Slots own' s' where
  counted g hg := by
    rcases h.entered g hg with hlive | ⟨hreg, -⟩
    · exact (h.live g hlive).2 ▸ hs.counted g hlive
    · exact hreg.counted
  pending t g i ht := by
    obtain ⟨hlive, hi, hr⟩ := hs.pending t g i (h.pending t ▸ ht)
    obtain ⟨hg', hm⟩ := h.live g hlive
    exact ⟨hg', hm ▸ hi, hm ▸ hr⟩
  distinct t t' p ht ht' := hs.distinct t t' p (h.pending t ▸ ht) (h.pending t' ▸ ht')
  stored t r g i ht := by
    have hpub := (h.publish t r g i).1 ht
    exact (h.live g (hs.live_of_publish t r g i hpub)).2 ▸ hs.stored t r g i hpub
  done f g hd := by
    rw [h.flu] at hd
    have hown : own g = .queued := hc.queued_of_done f g hd
    exact (h.live g (by simp [hown])).2 ▸ hs.done f g hd
  fresh t g hg := by
    rcases h.entered g (by simp [hg]) with hlive | ⟨hreg, -⟩
    · have hown := (h.fresh t g hg).resolve_right (not_not_intro hlive)
      exact (h.live g hlive).2 ▸ hs.fresh t g hown
    · exact hreg.currentSize

theorem Slots.flush (h : FlushTrans own s own' s') (hp : Places own s)
    (hc : Claims own s) (hs : Slots own s) : Slots own' s' := by
  have hcl := hc.queued_of_done
  have hpl := hs.live_of_publish
  obtain ⟨hcn, hpe, hdi, hst, hdn, hfr⟩ := hs
  cases h with
  | @claim f g h hg hc =>
    have hown : own g = .queued := (hp.queued g).2 hg
    constructor <;> grind [Function.update_apply, Counted.congr]
  | @settle f g h hr =>
    have hown : own g = .queued := (hc.queued f g (by simp [h])).1
    have hall := fun i => (hcn g (by simp [hown])).all_ready hr (i := i)
    constructor <;> grind [Function.update_apply]
  | @handoff f g h hx hm =>
    have hown : own g = .queued := (hp.queued g).2 hm
    have hall := hdn f g (by simp [h])
    have hclaim : ∀ f', (s.flu f').done = some g → f' = f := fun f' hf' =>
      hc.single f' f g (FlushPc.claim_of_done hf') (by simp [h])
    constructor <;> grind [Function.update_apply]
  | @release f g h =>
    have hown : own g = .unlinked f := (hp.unlinked f g).2 (by simp [h])
    constructor <;> grind [Function.update_apply]
  | _ => constructor <;> grind [Function.update_apply]

theorem Slots.reader (h : ReaderTrans s s') (hr : Refs own s) (hc : Claims own s)
    (hs : Slots own s) : Slots own s' := by
  have hcl := hc.queued_of_done
  have hpl := hs.live_of_publish
  have hfree := fun g => hr.free_or_foreign (g := g)
  obtain ⟨hcn, hpe, hdi, hst, hdn, hfr⟩ := hs
  cases h with
  | mask h => constructor <;> grind [Counted.congr]
  | _ => constructor <;> grind

theorem Slots.trans (h : Trans cfg own s own' s') (hl : Locks s) (hp : Places own s)
    (hr : Refs own s) (hc : Claims own s) (hs : Slots own s) : Slots own' s' := by
  cases h with
  | insert h => exact hs.insert h hl hp hc
  | rotate h => exact hs.rotate (h.rotated hp hr) hc
  | flush h => exact hs.flush h hp hc
  | reader h => exact hs.reader h hr hc

end Slots

section Names

variable {cfg : Config} {own own' : SlotIdx → Owner} {s s' : State V}

theorem Names.insert (h : InsertTrans s s') (hn : Names own s) : Names own s' := by
  obtain ⟨hb, hl, hh, hd, hn⟩ := hn
  cases h <;> constructor <;> grind

theorem Names.rotate (h : Rotated own s own' s') (hn : Names own s) : Names own' s' where
  below g hg := by
    rcases h.entered g hg with hlive | ⟨hreg, hlt⟩
    · exact (h.live g hlive).2 ▸ (hn.below g hlive).trans_le h.nextSegmentId
    · exact hreg.memtableId ▸ hlt
  live g g' hg hg' heq := by
    by_cases hlive : (own g).Live <;> by_cases hlive' : (own g').Live
    · rw [(h.live g hlive).2, (h.live g' hlive').2] at heq
      exact hn.live g g' hlive hlive' heq
    · have hreg := ((h.entered g' hg').resolve_left hlive').1
      rw [(h.live g hlive).2, hreg.memtableId] at heq
      exact absurd heq (hn.below g hlive).ne
    · have hreg := ((h.entered g hg).resolve_left hlive).1
      rw [(h.live g' hlive').2, hreg.memtableId] at heq
      exact absurd heq (hn.below g' hlive').ne'
    · exact h.single g g' hg hg' hlive hlive'
  handedBelow m hm := (hn.handedBelow m (h.handedOff ▸ hm)).trans_le h.nextSegmentId
  handed m hm g hg := by
    rw [h.handedOff] at hm
    rcases h.entered g hg with hlive | ⟨hreg, -⟩
    · exact (h.live g hlive).2 ▸ hn.handed m hm g hlive
    · exact hreg.memtableId ▸ (hn.handedBelow m hm).ne'
  nodup := h.handedOff ▸ hn.nodup

theorem Names.flush (h : FlushTrans own s own' s') (hp : Places own s) (hn : Names own s) :
    Names own' s' := by
  obtain ⟨hb, hl, hh, hd, hn⟩ := hn
  cases h with
  | @handoff f g h hx hm =>
    have hown : own g = .queued := (hp.queued g).2 hm
    constructor <;> grind [Function.update_apply]
  | @release f g h =>
    have hown : own g = .unlinked f := (hp.unlinked f g).2 (by simp [h])
    constructor <;> grind [Function.update_apply]
  | _ => constructor <;> grind [Function.update_apply]

theorem Names.reader (h : ReaderTrans s s') (hr : Refs own s) (hn : Names own s) :
    Names own s' := by
  have hfree := fun g => hr.free_or_foreign (g := g)
  obtain ⟨hb, hl, hh, hd, hn⟩ := hn
  cases h <;> constructor <;> grind

theorem Names.trans (h : Trans cfg own s own' s') (hp : Places own s) (hr : Refs own s)
    (hn : Names own s) : Names own' s' := by
  cases h with
  | insert h => exact hn.insert h
  | rotate h => exact hn.rotate (h.rotated hp hr)
  | flush h => exact hn.flush h hp
  | reader h => exact hn.reader h hr

end Names

section Writers

variable {cfg : Config} {own own' : SlotIdx → Owner} {s s' : State V}

theorem Writers.insert (h : InsertTrans s s') (hs : Slots own s) (hw : Writers own s) :
    Writers own s' := by
  have hpe := hs.pending
  obtain ⟨hl, hh, hll, hlh, hhh⟩ := hw
  cases h with
  | stay => exact ⟨hl, hh, hll, hlh, hhh⟩
  | control h =>
    obtain ⟨-, h2, -, -, -, -, h3, h4⟩ := h
    constructor <;> grind [Function.update_apply]
  | @write t r g i h =>
    obtain ⟨hlive, -, hready⟩ := hpe t g i (by simp [h])
    constructor <;> grind [Function.update_apply]
  | @publish t r g i h =>
    obtain ⟨hlive, hvalid, hready⟩ := hpe t g i (by simp [h])
    constructor <;> grind [Function.update_apply]
  | _ => constructor <;> grind [Function.update_apply]

theorem Rotated.live_of_writer (h : Rotated own s own' s') {g : SlotIdx} {i t : ℕ}
    (hg : (own' g).Live) (hw : (s'.mt g).writer i = some t) :
    (own g).Live ∧ (s.mt g).writer i = some t := by
  rcases h.entered g hg with hlive | ⟨hreg, -⟩
  · exact ⟨hlive, (h.live g hlive).2 ▸ hw⟩
  · simp [hreg.writer i] at hw

theorem Writers.rotate (h : Rotated own s own' s') (hw : Writers own s) : Writers own' s' where
  live g i t hg ht := by
    obtain ⟨hlive, ht⟩ := h.live_of_writer hg ht
    rw [h.pending, h.isReturned]
    exact hw.live g i t hlive ht
  handed m hm i t ht := by
    rw [h.isReturned]
    exact hw.handed m (h.handedOff ▸ hm) i t ht
  liveLive g g' i i' t hg hg' ht ht' := by
    obtain ⟨hlive, ht⟩ := h.live_of_writer hg ht
    obtain ⟨hlive', ht'⟩ := h.live_of_writer hg' ht'
    exact hw.liveLive g g' i i' t hlive hlive' ht ht'
  liveHanded g m hm i i' t hg ht := by
    obtain ⟨hlive, ht⟩ := h.live_of_writer hg ht
    exact hw.liveHanded g m (h.handedOff ▸ hm) i i' t hlive ht
  handedHanded m hm m' hm' :=
    hw.handedHanded m (h.handedOff ▸ hm) m' (h.handedOff ▸ hm')

theorem Writers.flush (h : FlushTrans own s own' s') (hp : Places own s) (hs : Slots own s)
    (hw : Writers own s) : Writers own' s' := by
  have hpe := hs.pending
  have hdone := hs.done
  obtain ⟨hl, hh, hll, hlh, hhh⟩ := hw
  cases h with
  | @handoff f g h hx hm =>
    have hown : own g = .queued := (hp.queued g).2 hm
    have hall := hdone f g (by simp [h])
    -- No slot of a memtable that is handed off is still reserved.
    have hpub : ∀ t i, (s.ins t).pending ≠ some (g, i) := by
      intro t i ht
      obtain ⟨-, hi, hready⟩ := hpe t g i ht
      simp [hall i hi] at hready
    constructor <;> grind [Function.update_apply]
  | @release f g h =>
    have hown : own g = .unlinked f := (hp.unlinked f g).2 (by simp [h])
    constructor <;> grind [Function.update_apply]
  | _ => constructor <;> grind

theorem Writers.reader (h : ReaderTrans s s') (hr : Refs own s) (hw : Writers own s) :
    Writers own s' := by
  have hfree := fun g => hr.free_or_foreign (g := g)
  obtain ⟨hl, hh, hll, hlh, hhh⟩ := hw
  cases h <;> constructor <;> grind

theorem Writers.trans (h : Trans cfg own s own' s') (hp : Places own s) (hr : Refs own s)
    (hs : Slots own s) (hw : Writers own s) : Writers own' s' := by
  cases h with
  | insert h => exact hw.insert h hs
  | rotate h => exact hw.rotate (h.rotated hp hr)
  | flush h => exact hw.flush h hp hs
  | reader h => exact hw.reader h hr

end Writers

section Kept

variable {cfg : Config} {own own' : SlotIdx → Owner} {s s' : State V}

/-- Every row published in `m` is published in `m'`, at the same slot. -/
def Keeps (m m' : ConcurrentMemTable V) : Prop := ∀ t r i, Holds m t r i → Holds m' t r i

theorem Keeps.of_fields {m m' : ConcurrentMemTable V} (hv : m.validSize ≤ m'.validSize)
    (hr : ∀ i, m.ready i → m'.ready i) (hw : ∀ i, m.ready i → m'.writer i = m.writer i)
    (hrow : ∀ i, m.ready i → m'.rows i = m.rows i) : Keeps m m' :=
  fun _ _ i h => ⟨h.valid.trans_le hv, hr i h.ready, (hw i h.ready).trans h.writer,
    (hrow i h.ready).trans h.row⟩

theorem Keeps.refl (m : ConcurrentMemTable V) : Keeps m m := fun _ _ _ h => h

theorem keeps_bump (m : ConcurrentMemTable V) : Keeps m m.bump :=
  .of_fields (min_le_min_right _ (Nat.le_succ _)) (fun _ h => h) (fun _ _ => rfl) fun _ _ => rfl

theorem keeps_setSealed (m : ConcurrentMemTable V) : Keeps m m.setSealed :=
  .of_fields le_rfl (fun _ h => h) (fun _ _ => rfl) fun _ _ => rfl

theorem keeps_setFlushClaimed (m : ConcurrentMemTable V) : Keeps m m.setFlushClaimed :=
  .of_fields le_rfl (fun _ h => h) (fun _ _ => rfl) fun _ _ => rfl

theorem keeps_mask (m : ConcurrentMemTable V) (i : ℕ) : Keeps m (m.mask i) :=
  .of_fields le_rfl (fun _ h => h) (fun _ _ => rfl) fun _ _ => rfl

theorem keeps_store {m : ConcurrentMemTable V} {i : ℕ} (h : m.ready i = false) (r : Row V)
    (t : ℕ) : Keeps m (m.store i r t) := by
  have hne : ∀ j, m.ready j → j ≠ i := by
    rintro j hj rfl
    simp [h] at hj
  exact .of_fields le_rfl (fun _ h => h) (fun j hj => Function.update_of_ne (hne j hj) _ _)
    fun j hj => Function.update_of_ne (hne j hj) _ _

theorem keeps_publishSlotRelease (m : ConcurrentMemTable V) (i : ℕ) :
    Keeps m (m.publishSlotRelease i) := by
  refine .of_fields le_rfl (fun j hj => ?_) (fun _ _ => rfl) fun _ _ => rfl
  by_cases hji : j = i <;> simp_all

theorem keeps_setMt {s : State V} {g : SlotIdx} {m : ConcurrentMemTable V}
    (h : Keeps (s.mt g) m) (g' : SlotIdx) : Keeps (s.mt g') ((s.setMt g m).mt g') := by
  by_cases hg : g' = g
  · simpa [hg] using h
  · simpa [hg] using Keeps.refl _

/-- The rows of returned inserts stay where they are when live memtables only grow. -/
theorem Kept.of_keeps (hk : Kept own s)
    (hret : ∀ t r, s'.ins t = .returned r →
      s.ins t = .returned r ∨ ∃ g i, (own' g).Live ∧ Holds (s'.mt g) t r i)
    (hlive : ∀ g, (own g).Live →
      ((own' g).Live ∧ Keeps (s.mt g) (s'.mt g)) ∨ s.mt g ∈ s'.handedOff)
    (hhand : ∀ m ∈ s.handedOff, m ∈ s'.handedOff) : Kept own' s' := by
  intro t r ht
  rcases hret t r ht with ht | hnew
  · rcases hk t r ht with ⟨g, i, hg, hi⟩ | ⟨m, hm, i, hi⟩
    · rcases hlive g hg with ⟨hg', hk⟩ | hm
      · exact .inl ⟨g, i, hg', hk t r i hi⟩
      · exact .inr ⟨_, hm, i, hi⟩
    · exact .inr ⟨m, hhand m hm, i, hi⟩
  · exact .inl hnew

theorem Kept.insert (h : InsertTrans s s') (hs : Slots own s) (hk : Kept own s) :
    Kept own s' := by
  have hpe := hs.pending
  have hst := hs.stored
  cases h with
  | stay => exact hk
  | control h =>
    refine hk.of_keeps (fun t r ht => .inl ?_) (fun g hg => .inl ⟨hg, Keeps.refl _⟩) fun m hm => hm
    have := h.running
    grind [Function.update_apply]
  | lockShared h | unlockSlot h | unlockFull h =>
    refine hk.of_keeps (fun t r ht => .inl ?_) (fun g hg => .inl ⟨hg, Keeps.refl _⟩) fun m hm => hm
    grind [Function.update_apply]
  | fetchFull h | fetchSlot h =>
    refine hk.of_keeps (fun t r ht => .inl ?_)
      (fun g hg => .inl ⟨hg, keeps_setMt (keeps_bump _) g⟩) fun m hm => hm
    grind [Function.update_apply]
  | setSealed h =>
    refine hk.of_keeps (fun t r ht => .inl ?_)
      (fun g hg => .inl ⟨hg, keeps_setMt (keeps_setSealed _) g⟩) fun m hm => hm
    grind [Function.update_apply]
  | @write t r g i h =>
    obtain ⟨hlive, -, hready⟩ := hpe t g i (by simp [h])
    refine hk.of_keeps (fun t' r' ht => .inl ?_)
      (fun g hg => .inl ⟨hg, keeps_setMt (keeps_store hready r t) g⟩) fun m hm => hm
    grind [Function.update_apply]
  | @publish t r g i h =>
    obtain ⟨hlive, hvalid, hready⟩ := hpe t g i (by simp [h])
    obtain ⟨hrow, hwriter⟩ := hst t r g i h
    have hnew : Holds ((s.mt g).publishSlotRelease i) t r i :=
      ⟨hvalid, by simp, hwriter, hrow⟩
    refine hk.of_keeps (fun t' r' ht' => ?_)
      (fun g hg => .inl ⟨hg, keeps_setMt (keeps_publishSlotRelease _ i) g⟩) fun m hm => hm
    by_cases htt : t' = t
    · obtain rfl : r = r' := by simpa [htt] using ht'
      exact .inr ⟨g, i, hlive, by simpa [htt] using hnew⟩
    · exact .inl (by simpa [htt] using ht')

theorem Kept.rotate (h : Rotated own s own' s') (hk : Kept own s) : Kept own' s' :=
  hk.of_keeps (fun t r ht => .inl (h.returned t r ht))
    (fun g hg => .inl ⟨(h.live g hg).1, (h.live g hg).2 ▸ Keeps.refl _⟩)
    fun _ hm => h.handedOff ▸ hm

theorem Kept.flush (h : FlushTrans own s own' s') (hp : Places own s) (hk : Kept own s) :
    Kept own' s' := by
  cases h with
  | claim h hg hc =>
    exact hk.of_keeps (fun _ _ h => .inl h)
      (fun g hg => .inl ⟨hg, keeps_setMt (keeps_setFlushClaimed _) g⟩) fun m hm => hm
  | @vacuumLock f g b pc h hb hc hd hu =>
    refine hk.of_keeps (fun _ _ h => .inl h) (fun g' hg => .inl ⟨hg, ?_⟩) fun m hm => hm
    by_cases hgg : g' = g
    · simpa [hgg, hb.1] using Keeps.refl _
    · simpa [hgg] using Keeps.refl _
  | settle h hr | advance hc hd hu =>
    exact hk.of_keeps (fun _ _ h => .inl h) (fun g hg => .inl ⟨hg, Keeps.refl _⟩) fun m hm => hm
  | @handoff f g h hx hm =>
    refine hk.of_keeps (fun _ _ h => .inl h) (fun g' hg => ?_)
      fun m hm => List.mem_cons_of_mem _ hm
    by_cases hgg : g' = g
    · exact .inr (hgg ▸ List.mem_cons_self)
    · exact .inl ⟨by simpa [hgg] using hg, Keeps.refl _⟩
  | @release f g h =>
    have hown : own g = .unlinked f := (hp.unlinked f g).2 (by simp [h])
    refine hk.of_keeps (fun _ _ h => .inl h) (fun g' hg => .inl ?_) fun m hm => hm
    have hne : g' ≠ g := by grind
    exact ⟨by simpa [hne] using hg, by simpa [hne] using Keeps.refl _⟩

theorem Kept.reader (h : ReaderTrans s s') (hr : Refs own s) (hk : Kept own s) :
    Kept own s' := by
  cases h with
  | mask h =>
    exact hk.of_keeps (fun _ _ h => .inl h)
      (fun g hg => .inl ⟨hg, keeps_setMt (keeps_mask _ _) g⟩) fun m hm => hm
  | @other g rc mt' h =>
    have hown : own g = .nobody := hr.free_or_foreign h
    refine hk.of_keeps (fun _ _ h => .inl h) (fun g' hg => .inl ⟨hg, ?_⟩) fun m hm => hm
    have hne : g' ≠ g := by grind
    simpa [hne] using Keeps.refl _
  | _ =>
    refine hk.of_keeps (fun _ _ h => .inl h) (fun g' hg => .inl ⟨hg, ?_⟩) fun m hm => hm
    simp only [State.setSlot_mt]
    split
    · exact fun t r i h => by simp_all
    · exact Keeps.refl _

theorem Kept.trans (h : Trans cfg own s own' s') (hp : Places own s) (hr : Refs own s)
    (hs : Slots own s) (hk : Kept own s) : Kept own' s' := by
  cases h with
  | insert h => exact hk.insert h hs
  | rotate h => exact hk.rotate (h.rotated hp hr)
  | flush h => exact hk.flush h hp
  | reader h => exact hk.reader h hr

end Kept

end Memtable

end VectorLsm
