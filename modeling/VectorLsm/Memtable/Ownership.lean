import VectorLsm.Memtable.Transitions

/-! # Locks, places and references

The parts of the invariant that do not look at rows: what `mt_lock` and the `ROTATING`
sentinel exclude, that each slot is in the one place its owner says, and that an owned or
referenced slot is not reused.
-/

namespace VectorLsm.Memtable

variable {V : Type*}

/-- Each place of the index agrees with the ownership map. -/
structure Places (own : SlotIdx → Owner) (s : State V) : Prop where
  growing : ∀ g, own g = .growing ↔ s.growingIdx = .slot g
  queued : ∀ g, own g = .queued ↔ g ∈ s.memtableIdxs
  nodup : s.memtableIdxs.Nodup
  rotation : ∀ t g, own g = .rotation t ↔ (s.ins t).outgoing = some g
  building : ∀ t g, own g = .building t ↔ (s.ins t).building = some g
  fresh : ∀ t g, own g = .fresh t ↔ (s.ins t).fresh = some g
  unlinked : ∀ f g, own g = .unlinked f ↔ (s.flu f).unlinkedSlot = some g

/-- `mt_lock` and the `ROTATING` sentinel exclude what they should. -/
structure Locks (s : State V) : Prop where
  shared : ∀ t, t ∈ s.mtShared ↔ ((s.ins t).sharing).isSome
  sharing : ∀ t g, (s.ins t).sharing = some g → s.growingIdx = .slot g
  rotating : ∀ t, (s.ins t).rotating → s.growingIdx = .rotating
  single : ∀ t t', (s.ins t).rotating → (s.ins t').rotating → t = t'

/-- Owned and referenced slots are neither free nor another index's. -/
structure Refs (own : SlotIdx → Owner) (s : State V) : Prop where
  owned : ∀ g, own g ≠ .nobody →
    (s.slots g).readers < (s.slots g).refCount ∧ (s.slots g).foreign = false
  readers : ∀ g, (s.slots g).readers ≤ (s.slots g).refCount
  reading : ∀ g, 0 < (s.slots g).readers → (s.slots g).foreign = false
  foreign : ∀ g, (s.slots g).foreign → 0 < (s.slots g).refCount

theorem Refs.free_or_foreign {own : SlotIdx → Owner} {s : State V} (hr : Refs own s) {g : SlotIdx}
    (h : (s.slots g).refCount = 0 ∨ (s.slots g).foreign) : own g = .nobody := by
  by_contra hne
  obtain ⟨hlt, hf⟩ := hr.owned g hne
  rcases h with h | h
  · omega
  · simp [hf] at h

theorem Refs.free {own : SlotIdx → Owner} {s : State V} (hr : Refs own s) {g : SlotIdx}
    (h : (s.slots g).refCount = 0) : own g = .nobody :=
  hr.free_or_foreign (.inl h)

/-- A claimed memtable is queued and has one worker. -/
structure Claims (own : SlotIdx → Owner) (s : State V) : Prop where
  queued : ∀ f g, (s.flu f).claim = some g → own g = .queued ∧ (s.mt g).flushClaimed
  single : ∀ f f' g, (s.flu f).claim = some g → (s.flu f').claim = some g → f = f'

section Locks

variable {cfg : Config} {own own' : SlotIdx → Owner} {s s' : State V}

theorem Locks.insert (h : InsertTrans s s') (hl : Locks s) : Locks s' := by
  obtain ⟨hsh, hsg, hro, hsi⟩ := hl
  cases h with
  | stay => exact ⟨hsh, hsg, hro, hsi⟩
  | control h =>
    obtain ⟨h1, -, h3, -, -, -, -, -⟩ := h
    constructor <;> grind [Function.update_apply]
  | _ => constructor <;> grind [Function.update_apply]

theorem Locks.rotate (h : RotateTrans cfg own s own' s') (hl : Locks s) : Locks s' := by
  obtain ⟨hsh, hsg, hro, hsi⟩ := hl
  cases h with
  | rotateOut h hx hg | rotateOver h hx hg | rotateInvalid h hx hg =>
    rw [State.exclusive] at hx
    constructor <;> grind [Function.update_apply]
  | install h hx =>
    rw [State.exclusive] at hx
    constructor <;> grind [Function.update_apply]
  | register h hpc =>
    rcases hpc with ⟨rfl, -⟩ | ⟨c, rfl, -⟩ <;> constructor <;> grind [Function.update_apply]
  | _ => constructor <;> grind [Function.update_apply]

theorem Locks.flush (h : FlushTrans own s own' s') (hl : Locks s) : Locks s' := by
  obtain ⟨hsh, hsg, hro, hsi⟩ := hl
  cases h <;> exact ⟨hsh, hsg, hro, hsi⟩

theorem Locks.reader (h : ReaderTrans s s') (hl : Locks s) : Locks s' := by
  obtain ⟨hsh, hsg, hro, hsi⟩ := hl
  cases h <;> exact ⟨hsh, hsg, hro, hsi⟩

theorem Locks.trans (h : Trans cfg own s own' s') (hl : Locks s) : Locks s' := by
  cases h with
  | insert h => exact hl.insert h
  | rotate h => exact hl.rotate h
  | flush h => exact hl.flush h
  | reader h => exact hl.reader h

end Locks

section Places

variable {cfg : Config} {own own' : SlotIdx → Owner} {s s' : State V}

theorem Places.insert (h : InsertTrans s s') (hp : Places own s) : Places own s' := by
  obtain ⟨hg, hq, hn, ho, hb, hf, hu⟩ := hp
  cases h with
  | stay => exact ⟨hg, hq, hn, ho, hb, hf, hu⟩
  | control h =>
    obtain ⟨-, -, -, h4, h5, h6, -, -⟩ := h
    constructor <;> grind [Function.update_apply]
  | _ => constructor <;> grind [Function.update_apply]

theorem Places.rotate (h : RotateTrans cfg own s own' s') (hl : Locks s) (hr : Refs own s)
    (hp : Places own s) : Places own' s' := by
  obtain ⟨hg, hq, hn, ho, hb, hf, hu⟩ := hp
  cases h with
  | @rotateOut t r g _ h hx hs | @rotateOver t r g _ h hx hs =>
    have hown : own g = .growing := (hg g).2 hs
    constructor <;> grind [Function.update_apply]
  | rotateInvalid h hx hs => constructor <;> grind [Function.update_apply]
  | @alloc t r cur g h h0 =>
    have hown : own g = .nobody := hr.free h0
    constructor <;> grind [Function.update_apply]
  | @register t r cur new pc h hpc =>
    have hown : own new = .building t := (hb t new).2 (by simp [h])
    have hcur : ∀ c, cur = some c → own c = .rotation t := fun c hc => (ho t c).2 (by simp [h, hc])
    constructor <;> grind [Function.update_apply]
  | @enqueue t r cur new h hx =>
    have hown : own new = .fresh t := (hf t new).2 (by simp [h])
    have hcur : own cur = .rotation t := (ho t cur).2 (by simp [h])
    constructor <;> grind [Function.update_apply]
  | @install t r new _ h hx =>
    have hown : own new = .fresh t := (hf t new).2 (by simp [h])
    have hrot : s.growingIdx = .rotating := hl.rotating t (by simp [h])
    constructor <;> grind [Function.update_apply]

theorem Places.flush (h : FlushTrans own s own' s') (hp : Places own s) : Places own' s' := by
  obtain ⟨hg, hq, hn, ho, hb, hf, hu⟩ := hp
  cases h with
  | @handoff f g h hx hm =>
    have hown : own g = .queued := (hq g).2 hm
    have hmem := fun g' => hn.mem_erase_iff (a := g') (b := g)
    have hnodup := hn.erase g
    constructor <;> grind [Function.update_apply]
  | @release f g h =>
    have hown : own g = .unlinked f := (hu f g).2 (by simp [h])
    constructor <;> grind [Function.update_apply]
  | _ => constructor <;> grind [Function.update_apply]

theorem Places.reader (h : ReaderTrans s s') (hp : Places own s) : Places own s' := by
  obtain ⟨hg, hq, hn, ho, hb, hf, hu⟩ := hp
  cases h <;> exact ⟨hg, hq, hn, ho, hb, hf, hu⟩

theorem Places.trans (h : Trans cfg own s own' s') (hl : Locks s) (hr : Refs own s)
    (hp : Places own s) : Places own' s' := by
  cases h with
  | insert h => exact hp.insert h
  | rotate h => exact hp.rotate h hl hr
  | flush h => exact hp.flush h
  | reader h => exact hp.reader h

end Places

section Refs

variable {cfg : Config} {own own' : SlotIdx → Owner} {s s' : State V}

theorem Refs.insert (h : InsertTrans s s') (hr : Refs own s) : Refs own s' := by
  obtain ⟨ho, hr, hd, hf⟩ := hr
  cases h <;> constructor <;> grind [Function.update_apply]

theorem Refs.rotate (h : RotateTrans cfg own s own' s') (hp : Places own s) (hr : Refs own s) :
    Refs own' s' := by
  have hfree := fun g => hr.free (g := g)
  obtain ⟨ho, hr, hd, hf⟩ := hr
  cases h with
  | @rotateOut t r g _ h hx hs | @rotateOver t r g _ h hx hs =>
    have hown : own g = .growing := (hp.growing g).2 hs
    constructor <;> grind [Function.update_apply]
  | @register t r cur new pc h hpc =>
    have hown : own new = .building t := (hp.building t new).2 (by simp [h])
    constructor <;> grind [Function.update_apply]
  | @enqueue t r cur new h hx =>
    have hcur : own cur = .rotation t := (hp.rotation t cur).2 (by simp [h])
    constructor <;> grind [Function.update_apply]
  | @install t r new _ h hx =>
    have hown : own new = .fresh t := (hp.fresh t new).2 (by simp [h])
    constructor <;> grind [Function.update_apply]
  | _ => constructor <;> grind [Function.update_apply]

theorem Refs.flush (h : FlushTrans own s own' s') (hp : Places own s) (hr : Refs own s) :
    Refs own' s' := by
  obtain ⟨ho, hr, hd, hf⟩ := hr
  cases h with
  | @handoff f g h hx hm =>
    have hown : own g = .queued := (hp.queued g).2 hm
    constructor <;> grind [Function.update_apply]
  | @release f g h =>
    have hown : own g = .unlinked f := (hp.unlinked f g).2 (by simp [h])
    constructor <;> grind [Function.update_apply]
  | _ => constructor <;> grind [Function.update_apply]

theorem Refs.reader (h : ReaderTrans s s') (hp : Places own s) (hr : Refs own s) :
    Refs own s' := by
  have hfree := fun g => hr.free_or_foreign (g := g)
  obtain ⟨ho, hr, hd, hf⟩ := hr
  cases h with
  | @acquire g h =>
    have hown : own g ≠ .nobody := by
      rcases h with h | h
      · simp [(hp.growing g).2 h]
      · simp [(hp.queued g).2 h]
    constructor <;> grind [Function.update_apply]
  | _ => constructor <;> grind [Function.update_apply]

theorem Refs.trans (h : Trans cfg own s own' s') (hp : Places own s) (hr : Refs own s) :
    Refs own' s' := by
  cases h with
  | insert h => exact hr.insert h
  | rotate h => exact hr.rotate h hp
  | flush h => exact hr.flush h hp
  | reader h => exact hr.reader h hp

end Refs

section Claims

variable {cfg : Config} {own own' : SlotIdx → Owner} {s s' : State V}

theorem Claims.insert (h : InsertTrans s s') (hc : Claims own s) : Claims own s' := by
  obtain ⟨hq, hs⟩ := hc
  cases h <;> constructor <;> grind

theorem Claims.rotate (h : RotateTrans cfg own s own' s') (hp : Places own s) (hr : Refs own s)
    (hc : Claims own s) : Claims own' s' := by
  have hfree := fun g => hr.free (g := g)
  obtain ⟨hq, hs⟩ := hc
  cases h with
  | @rotateOut t r g _ h hx hs | @rotateOver t r g _ h hx hs =>
    have hown : own g = .growing := (hp.growing g).2 hs
    constructor <;> grind
  | @register t r cur new pc h hpc =>
    have hown : own new = .building t := (hp.building t new).2 (by simp [h])
    constructor <;> grind [Function.update_apply]
  | @enqueue t r cur new h hx =>
    have hcur : own cur = .rotation t := (hp.rotation t cur).2 (by simp [h])
    constructor <;> grind
  | @install t r new _ h hx =>
    have hown : own new = .fresh t := (hp.fresh t new).2 (by simp [h])
    constructor <;> grind
  | _ => constructor <;> grind [Function.update_apply]

theorem Claims.flush (h : FlushTrans own s own' s') (hp : Places own s)
    (hc : Claims own s) : Claims own' s' := by
  obtain ⟨hq, hs⟩ := hc
  cases h with
  | @claim f g h hg hc =>
    have hown : own g = .queued := (hp.queued g).2 hg
    constructor <;> grind [Function.update_apply]
  | @handoff f g h hx hm =>
    have hclaim : (s.flu f).claim = some g := by simp [h]
    constructor <;> grind [Function.update_apply]
  | @release f g h =>
    have hown : own g = .unlinked f := (hp.unlinked f g).2 (by simp [h])
    constructor <;> grind [Function.update_apply]
  | _ => constructor <;> grind [Function.update_apply]

theorem Claims.reader (h : ReaderTrans s s') (hr : Refs own s) (hc : Claims own s) :
    Claims own s' := by
  have hfree := fun g => hr.free_or_foreign (g := g)
  obtain ⟨hq, hs⟩ := hc
  cases h <;> constructor <;> grind

theorem Claims.trans (h : Trans cfg own s own' s') (hp : Places own s) (hr : Refs own s)
    (hc : Claims own s) : Claims own' s' := by
  cases h with
  | insert h => exact hc.insert h
  | rotate h => exact hc.rotate h hp hr
  | flush h => exact hc.flush h hp
  | reader h => exact hc.reader h hr

end Claims

end VectorLsm.Memtable
