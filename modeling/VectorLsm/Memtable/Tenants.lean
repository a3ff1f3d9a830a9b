import VectorLsm.Memtable.Insert
import VectorLsm.Segment.Tombstone

/-! # The rows of a memtable and those its slots had before

A slot handed out keeps what a former tenant of the buffer slot left there until its insert stores
the row. From then on the row stays, as long as the memtable is the tenant.
-/

namespace VectorLsm.Memtable

open ConcurrentMemTable Transition

variable {V : Type*} {m m' : ConcurrentMemTable V}

/-- The row of the present tenant is in the slot: recovered and published, or stored. -/
def HasRow (m : ConcurrentMemTable V) (i : ℕ) : Prop := m.ready i = true ∨ m.writer i ≠ none

instance (m : ConcurrentMemTable V) (i : ℕ) : Decidable (HasRow m i) :=
  inferInstanceAs (Decidable (_ ∨ _))

/-- A reserved slot is not written before its insert is at `publish`. -/
structure Unwritten (own : SlotIdx → Owner) (s : State V) : Prop where
  beyond : ∀ g, (own g).Live → ∀ i, (s.mt g).currentSize ≤ i → (s.mt g).writer i = none
  reserved : ∀ t g i, (s.ins t).pending = some (g, i) → (∀ r, s.ins t ≠ .publish r g i) →
    (s.mt g).writer i = none

/-- What a memtable is later: more slots handed out, and no row changed. -/
structure Aged (m m' : ConcurrentMemTable V) : Prop where
  memtableId : m'.memtableId = m.memtableId
  validSize : m.validSize ≤ m'.validSize
  ready : ∀ i, m.ready i = true → m'.ready i = true
  rows : ∀ i, HasRow m i → HasRow m' i ∧ m'.rows i = m.rows i

section Aged

theorem Aged.refl (m : ConcurrentMemTable V) : Aged m m :=
  ⟨rfl, le_rfl, fun _ h => h, fun _ h => ⟨h, rfl⟩⟩

theorem aged_bump (m : ConcurrentMemTable V) : Aged m m.bump :=
  ⟨rfl, min_le_min_right _ (Nat.le_succ _), fun _ h => h, fun _ h => ⟨h, rfl⟩⟩

theorem aged_setSealed (m : ConcurrentMemTable V) : Aged m m.setSealed :=
  ⟨rfl, le_rfl, fun _ h => h, fun _ h => ⟨h, rfl⟩⟩

theorem aged_setFlushClaimed (m : ConcurrentMemTable V) : Aged m m.setFlushClaimed :=
  ⟨rfl, le_rfl, fun _ h => h, fun _ h => ⟨h, rfl⟩⟩

theorem aged_mask (m : ConcurrentMemTable V) (i : ℕ) : Aged m (m.mask i) :=
  ⟨rfl, le_rfl, fun _ h => h, fun _ h => ⟨h, rfl⟩⟩

theorem aged_store {i : ℕ} (h : ¬ HasRow m i) (r : Row V) (t : ℕ) : Aged m (m.store i r t) where
  memtableId := rfl
  validSize := le_rfl
  ready := fun _ h => h
  rows := by
    intro j hj
    have hji : j ≠ i := by
      rintro rfl
      exact h hj
    refine ⟨hj.imp id fun hw => ?_, Function.update_of_ne hji _ _⟩
    rwa [store_writer, Function.update_of_ne hji]

theorem aged_publishSlotRelease (m : ConcurrentMemTable V) (i : ℕ) :
    Aged m (m.publishSlotRelease i) := by
  have hready : ∀ j, m.ready j = true → (m.publishSlotRelease i).ready j = true := by
    intro j hj
    rw [publishSlotRelease_ready, setReady_ready, Function.update_apply]
    split
    · rfl
    · exact hj
  exact ⟨rfl, le_rfl, hready, fun j hj => ⟨hj.imp (hready j) id, rfl⟩⟩

theorem aged_setMt {s : State V} {g : SlotIdx} (h : Aged (s.mt g) m) (g' : SlotIdx) :
    Aged (s.mt g') ((s.setMt g m).mt g') := by
  rw [State.setMt_mt]
  split
  next hg =>
    subst hg
    exact h
  next => exact .refl _

/-- Rows do not move once all slots have theirs and no more are handed out. -/
theorem Aged.mappedRows (h : Aged m m') (hv : m'.validSize = m.validSize)
    (hall : ∀ i < m.validSize, m.ready i = true) : m'.mappedRows = m.mappedRows := by
  unfold ConcurrentMemTable.mappedRows
  rw [hv]
  refine List.map_congr_left fun i hi => ?_
  rw [(h.rows i (.inl (hall i (List.mem_range.mp hi)))).2, h.memtableId]

end Aged

section Unwritten

variable {cfg : Config} {own own' : SlotIdx → Owner} {s s' : State V}

theorem Unwritten.insert (h : InsertTrans s s') (hl : Locks s) (hp : Places own s)
    (hs : Slots own s) (hu : Unwritten own s) : Unwritten own s' := by
  have hpe := hs.pending
  have hdi := hs.distinct
  obtain ⟨hb, hr⟩ := hu
  cases h with
  | stay => exact ⟨hb, hr⟩
  | control h =>
    obtain ⟨-, hpend, -, -, -, -, hopen, -⟩ := h
    constructor <;> grind [Function.update_apply]
  | @fetchFull t r g h hi =>
    have hown : own g = .growing := (hp.growing g).2 (hl.sharing t g (by simp [h]))
    constructor <;> grind [Function.update_apply]
  | @fetchSlot t r g h hi =>
    have hown : own g = .growing := (hp.growing g).2 (hl.sharing t g (by simp [h]))
    have hnone := hb g (by simp [hown]) _ le_rfl
    constructor <;> grind [Function.update_apply]
  | @write t r g i h =>
    have hpend := hpe t g i (by simp [h])
    have hv : (s.mt g).validSize ≤ (s.mt g).currentSize := min_le_left _ _
    constructor <;> grind [Function.update_apply]
  | _ => constructor <;> grind [Function.update_apply]

theorem Unwritten.rotate (h : Rotated own s own' s') (hs : Slots own s) (hu : Unwritten own s) :
    Unwritten own' s' where
  beyond g hg i hi := by
    rcases h.entered g hg with hlive | ⟨hreg, -⟩
    · rw [(h.live g hlive).2] at hi ⊢
      exact hu.beyond g hlive i hi
    · exact hreg.writer i
  reserved t g i ht hpub := by
    rw [h.pending] at ht
    have hlive : (own g).Live := (hs.pending t g i ht).1
    rw [(h.live g hlive).2]
    exact hu.reserved t g i ht fun r hr => hpub r ((h.publish t r g i).2 hr)

theorem Unwritten.flush (h : FlushTrans own s own' s') (hp : Places own s)
    (hu : Unwritten own s) : Unwritten own' s' := by
  obtain ⟨hb, hr⟩ := hu
  cases h with
  | @handoff f g h hx hm =>
    have hown : own g = .queued := (hp.queued g).2 hm
    constructor <;> grind [Function.update_apply]
  | @release f g h =>
    have hown : own g = .unlinked f := (hp.unlinked f g).2 (by simp [h])
    constructor <;> grind [Function.update_apply]
  | _ => constructor <;> grind [Function.update_apply]

theorem Unwritten.reader (h : ReaderTrans s s') (hr : Refs own s) (hs : Slots own s)
    (hu : Unwritten own s) : Unwritten own s' := by
  have hfree := fun g => hr.free_or_foreign (g := g)
  have hpe := hs.pending
  obtain ⟨hb, hu⟩ := hu
  cases h <;> constructor <;> grind

theorem Unwritten.trans (h : Trans cfg own s own' s') (hi : Inv own s) (hu : Unwritten own s) :
    Unwritten own' s' := by
  cases h with
  | insert h => exact hu.insert h hi.locks hi.places hi.slots
  | rotate h => exact hu.rotate (h.rotated hi.places hi.refs) hi.slots
  | flush h => exact hu.flush h hi.places
  | reader h => exact hu.reader h hi.refs hi.slots

theorem Start.unwritten (h : Start cfg s) : ∃ own, Inv own s ∧ Unwritten own s := by
  obtain ⟨bound, hl, hb⟩ := h.loaded
  refine ⟨_, hl.inv hb, fun g hg i _ => ?_, fun t g i ht => ?_⟩
  · have hlisted : s.growingIdx = .slot g ∨ g ∈ s.memtableIdxs :=
      startOwner_ne_nobody fun h => by simp [h] at hg
    exact (hl.present g hlisted).2.2.1.writer i
  · simp [hl.idle] at ht

theorem unwritten_of_reachable {ok : State V → Action V → Prop}
    (h : Reachable (Start cfg) (step cfg) ok s) : ∃ own, Inv own s ∧ Unwritten own s := by
  refine h.invariant (P := fun s => ∃ own, Inv own s ∧ Unwritten own s)
    (fun _ => Start.unwritten) ?_
  rintro s a s' - ⟨own, hi, hu⟩ - hs
  obtain ⟨own', ht, -⟩ := step_trans own hs
  exact ⟨own', hi.trans ht, hu.trans ht hi⟩

end Unwritten

section Tenancy

variable {cfg : Config} {own own' : SlotIdx → Owner} {s s' : State V} {g : SlotIdx}

/-- A memtable of the index is in the buffer slot, listed or still referenced. -/
structure Tenant (own : SlotIdx → Owner) (s : State V) (g : SlotIdx) : Prop where
  refCount : 0 < (s.slots g).refCount
  foreign : (s.slots g).foreign = false
  building : ∀ t, own g ≠ .building t

theorem Inv.tenant_of_live (hi : Inv own s) (hg : (own g).Live) : Tenant own s g := by
  obtain ⟨hlt, hf⟩ := hi.refs.owned g fun h => by simp [h] at hg
  exact ⟨Nat.zero_lt_of_lt hlt, hf, fun t h => by simp [h] at hg⟩

theorem InsertTrans.aged (h : InsertTrans s s') (hi : Inv own s) (hu : Unwritten own s)
    (g : SlotIdx) : Aged (s.mt g) (s'.mt g) ∧
      (own g ≠ .growing → (s'.mt g).validSize = (s.mt g).validSize) := by
  cases h with
  | @fetchFull t r g' h | @fetchSlot t r g' h =>
    have hown : own g' = .growing := (hi.places.growing g').2 (hi.locks.sharing t g' (by simp [h]))
    refine ⟨aged_setMt (aged_bump _) g, fun hg => ?_⟩
    have hne : g ≠ g' := by
      rintro rfl
      exact hg hown
    simp [hne]
  | setSealed => exact ⟨aged_setMt (aged_setSealed _) g, fun _ => by grind⟩
  | publish => exact ⟨aged_setMt (aged_publishSlotRelease _ _) g, fun _ => by grind⟩
  | @write t r g' i h =>
    refine ⟨aged_setMt (aged_store ?_ r t) g, fun _ => by grind⟩
    have hpend := hi.slots.pending t g' i (by simp [h])
    have hnone := hu.reserved t g' i (by simp [h]) (by simp [h])
    simp [HasRow, hpend.2.2, hnone]
  | _ => exact ⟨.refl _, fun _ => rfl⟩

theorem RotateTrans.mt_eq (h : RotateTrans cfg own s own' s') (hp : Places own s)
    (hg : ∀ t, own g ≠ .building t) : s'.mt g = s.mt g := by
  cases h with
  | @register t r cur new pc h =>
    have hown : own new = .building t := (hp.building t new).2 (by simp [h])
    have hne : g ≠ new := by
      rintro rfl
      exact hg t hown
    simp [hne]
  | @alloc t r cur g' => grind
  | _ => rfl

theorem FlushTrans.aged (h : FlushTrans own s own' s') (g : SlotIdx) :
    Aged (s.mt g) (s'.mt g) ∧ (s'.mt g).validSize = (s.mt g).validSize := by
  cases h with
  | claim => exact ⟨aged_setMt (aged_setFlushClaimed _) g, by grind⟩
  | @vacuumLock f g' b pc h hb =>
    have heq : ((s.setSlot g' b).setFlu f pc).mt g = s.mt g := by grind
    rw [heq]
    exact ⟨.refl _, rfl⟩
  | @release f g' h =>
    have heq : ((s.setSlot g' { s.slots g' with refCount := (s.slots g').refCount - 1 }).setFlu f
        (.released g')).mt g = s.mt g := by grind
    rw [heq]
    exact ⟨.refl _, rfl⟩
  | _ => exact ⟨.refl _, rfl⟩

theorem ReaderTrans.aged (h : ReaderTrans s s') (hg : Tenant own s g) :
    Aged (s.mt g) (s'.mt g) ∧ (s'.mt g).validSize = (s.mt g).validSize := by
  cases h with
  | mask => exact ⟨aged_setMt (aged_mask _ _) g, by grind⟩
  | @other g' rc mt' h =>
    have hne : g ≠ g' := by
      rintro rfl
      have hpos := hg.refCount
      have hown := hg.foreign
      grind
    simp only [State.setSlot_mt, if_neg hne]
    exact ⟨.refl _, trivial⟩
  | _ =>
    simp only [State.setSlot_mt]
    split
    next hgg =>
      subst hgg
      exact ⟨.refl _, rfl⟩
    next => exact ⟨.refl _, rfl⟩

/-- The memtable in a buffer slot ages, whatever happens around it. -/
theorem Trans.aged (h : Trans cfg own s own' s') (hi : Inv own s) (hu : Unwritten own s)
    (hg : Tenant own s g) : Aged (s.mt g) (s'.mt g) ∧
      (own g ≠ .growing → (s'.mt g).validSize = (s.mt g).validSize) := by
  cases h with
  | insert h => exact h.aged hi hu g
  | rotate h =>
    rw [h.mt_eq hi.places hg.building]
    exact ⟨.refl _, fun _ => rfl⟩
  | flush h => exact (h.aged g).imp id fun h _ => h
  | reader h => exact (h.aged hg).imp id fun h _ => h

theorem Trans.tenant (h : Trans cfg own s own' s') (hg : Tenant own s g)
    (hpos : 0 < (s'.slots g).refCount) : Tenant own' s' g := by
  obtain ⟨h0, hf, hb⟩ := hg
  refine ⟨hpos, ?_, ?_⟩
  · cases h with
    | insert h => cases h <;> grind
    | rotate h => cases h <;> grind
    | flush h => cases h <;> grind
    | reader h => cases h <;> grind
  · cases h with
    | insert h => exact hb
    | rotate h => cases h <;> grind [Function.update_apply]
    | flush h => cases h <;> grind [Function.update_apply]
    | reader h => exact hb

/-- A memtable the index had not before is a new one, with the next segment id. -/
theorem Trans.live (h : Trans cfg own s own' s') (hp : Places own s) (hg : (own' g).Live) :
    (own g).Live ∨ (∃ t, own g = .building t) ∧ (s'.mt g).memtableId = s.nextSegmentId := by
  cases h with
  | insert h => exact .inl hg
  | reader h => exact .inl hg
  | flush h => cases h <;> grind [Function.update_apply]
  | rotate h =>
    cases h with
    | @rotateOut t r g' _ h hx hs | @rotateOver t r g' _ h hx hs =>
      have hown : own g' = .growing := (hp.growing g').2 hs
      grind [Function.update_apply]
    | @register t r cur new pc h hpc =>
      have hown : own new = .building t := (hp.building t new).2 (by simp [h])
      grind [Function.update_apply]
    | @enqueue t r cur new h hx =>
      have hcur : own cur = .rotation t := (hp.rotation t cur).2 (by simp [h])
      grind [Function.update_apply]
    | @install t r new _ h hx =>
      have hown : own new = .fresh t := (hp.fresh t new).2 (by simp [h])
      grind [Function.update_apply]
    | _ => grind [Function.update_apply]

/-- A memtable that a rotation has dropped does not come back. -/
theorem Trans.orphan (h : Trans cfg own s own' s') (hp : Places own s) (hr : Refs own s)
    (hg : own g = .orphan) : own' g = .orphan := by
  have hfree := fun g => hr.free (g := g)
  cases h with
  | insert h => exact hg
  | reader h => exact hg
  | flush h =>
    cases h with
    | @handoff f g' h hx hm =>
      have hown : own g' = .queued := (hp.queued g').2 hm
      grind [Function.update_apply]
    | @release f g' h =>
      have hown : own g' = .unlinked f := (hp.unlinked f g').2 (by simp [h])
      grind [Function.update_apply]
    | _ => exact hg
  | rotate h =>
    cases h with
    | @rotateOut t r g' _ h hx hs | @rotateOver t r g' _ h hx hs =>
      have hown : own g' = .growing := (hp.growing g').2 hs
      grind [Function.update_apply]
    | rotateInvalid => exact hg
    | @alloc t r cur g' h h0 =>
      have hown : own g' = .nobody := hfree g' h0
      grind [Function.update_apply]
    | @register t r cur new pc h hpc =>
      have hown : own new = .building t := (hp.building t new).2 (by simp [h])
      grind [Function.update_apply]
    | @enqueue t r cur new h hx =>
      have hcur : own cur = .rotation t := (hp.rotation t cur).2 (by simp [h])
      grind [Function.update_apply]
    | @install t r new _ h hx =>
      have hown : own new = .fresh t := (hp.fresh t new).2 (by simp [h])
      grind [Function.update_apply]

/-- The index has the memtable in one of its places. -/
def Present (own : SlotIdx → Owner) (g : SlotIdx) : Prop := (own g).Live ∧ own g ≠ .orphan

theorem Trans.present (h : Trans cfg own s own' s') (hp : Places own s) (hr : Refs own s)
    (hg : Present own' g) : Present own g ∨ (s'.mt g).memtableId = s.nextSegmentId := by
  rcases h.live hp hg.1 with hl | ⟨-, hid⟩
  · exact .inl ⟨hl, fun ho => hg.2 (h.orphan hp hr ho)⟩
  · exact .inr hid

/-- From the queue a memtable goes nowhere else in the index. -/
theorem Trans.queued (h : Trans cfg own s own' s') (hp : Places own s) (hr : Refs own s)
    (hq : own g = .queued) (hg : (own' g).Live) : own' g = .queued := by
  have hfree := fun g => hr.free (g := g)
  cases h with
  | insert h => exact hq
  | reader h => exact hq
  | flush h => cases h <;> grind [Function.update_apply]
  | rotate h =>
    cases h with
    | @rotateOut t r g' _ h hx hs | @rotateOver t r g' _ h hx hs =>
      have hown : own g' = .growing := (hp.growing g').2 hs
      grind [Function.update_apply]
    | @alloc t r cur g' h h0 =>
      have hown : own g' = .nobody := hfree g' h0
      grind [Function.update_apply]
    | @register t r cur new pc h hpc =>
      have hown : own new = .building t := (hp.building t new).2 (by simp [h])
      grind [Function.update_apply]
    | @install t r new _ h hx =>
      have hown : own new = .fresh t := (hp.fresh t new).2 (by simp [h])
      grind [Function.update_apply]
    | _ => grind [Function.update_apply]

/-- A memtable leaves the index when it is handed off, with all its slots published. -/
theorem Trans.handedOff (h : Trans cfg own s own' s') (hi : Inv own s) (hg : (own g).Live)
    (hg' : ¬ (own' g).Live) : s.mt g ∈ s'.handedOff ∧ s'.mt g = s.mt g ∧
      ∀ i < (s.mt g).validSize, (s.mt g).ready i = true := by
  have hp := hi.places
  have hfree := fun g => hi.refs.free (g := g)
  have hdone := hi.slots.done
  cases h with
  | insert h => exact absurd hg hg'
  | reader h => exact absurd hg hg'
  | flush h =>
    cases h with
    | @handoff f g' h hx hm =>
      have hall := hdone f g' (by simp [h])
      grind [Function.update_apply]
    | @release f g' h =>
      have hown : own g' = .unlinked f := (hp.unlinked f g').2 (by simp [h])
      grind [Function.update_apply]
    | _ => exact absurd hg hg'
  | rotate h =>
    cases h with
    | @alloc t r cur g' h h0 =>
      have hown : own g' = .nobody := hfree g' h0
      grind [Function.update_apply]
    | _ => grind [Function.update_apply]

theorem Trans.nextSegmentId_le (h : Trans cfg own s own' s') :
    s.nextSegmentId ≤ s'.nextSegmentId := by
  cases h with
  | insert h => cases h <;> exact le_rfl
  | rotate h =>
    cases h with
    | register => exact Nat.le_succ _
    | _ => exact le_rfl
  | flush h => cases h <;> exact le_rfl
  | reader h => cases h <;> exact le_rfl

/-- What the queue hands off stays known. -/
theorem Trans.handedOff_subset (h : Trans cfg own s own' s') (hm : m ∈ s.handedOff) :
    m ∈ s'.handedOff := by
  cases h with
  | insert h => cases h <;> exact hm
  | rotate h => cases h <;> exact hm
  | flush h =>
    cases h with
    | handoff => exact List.mem_cons_of_mem _ hm
    | _ => exact hm
  | reader h => cases h <;> exact hm

/-- Bits are set by VACUUM, and by other indexes in slots of theirs. -/
theorem step_bitmap {a : Action V} {k : ℕ} (hs : step cfg s a = some s')
    (ha : ∀ g i, a ≠ .mask g i) (hg : Tenant own s g) (hk : (s'.mt g).bitmap k = true) :
    (s.mt g).bitmap k = true := by
  obtain ⟨h0, hf, -⟩ := hg
  cases a with
  | mask g i => exact absurd rfl (ha g i)
  | ins t =>
    simp only [step] at hs
    unfold insertStep at hs
    grind
  | _ =>
    simp only [step, allocStep, claimStep, flushStep, failFlush, readerStep] at hs
    grind

/-- Only its holder gives up a reference. -/
theorem step_readers {a : Action V} (hs : step cfg s a = some s') (ha : a ≠ .unref g) :
    (s.slots g).readers ≤ (s'.slots g).readers := by
  cases a with
  | ins t =>
    simp only [step] at hs
    unfold insertStep at hs
    grind [Function.update_apply]
  | _ =>
    simp only [step, allocStep, claimStep, flushStep, failFlush, readerStep] at hs
    grind [Function.update_apply]

end Tenancy

end VectorLsm.Memtable
