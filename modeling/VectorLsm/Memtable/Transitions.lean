import VectorLsm.Memtable.Machine

/-! # What one step does

Each slot of the buffer has at most one owner among the places a memtable of the index can
be. The ownership map is not part of the state; a step comes with the change it makes to it.
-/

namespace VectorLsm.Memtable

variable {V : Type*}

inductive Owner where
  | nobody
  | growing
  /-- Taken off the growing place by a rotation that has not yet queued it. -/
  | rotation (t : ℕ)
  /-- Taken by the compare-and-swap of a rotation, still with its former contents. -/
  | building (t : ℕ)
  /-- Registered by a rotation, not yet installed. -/
  | fresh (t : ℕ)
  | queued
  | unlinked (f : ℕ)
  /-- Taken off the growing place by a rotation that will not queue it. -/
  | orphan
  deriving DecidableEq

/-- The owners under which a slot holds a memtable of the index. -/
@[simp, grind =] def Owner.Live : Owner → Prop
  | .growing | .rotation _ | .fresh _ | .queued | .orphan => True
  | .nobody | .building _ | .unlinked _ => False

namespace InsertPc

@[simp, grind =] def sharing : InsertPc V → Option SlotIdx
  | .reserve _ g | .fetchAdd _ g | .setSealed _ g | .unlock _ g _ => some g
  | .idle | .loop _ | .write _ _ _ | .publish _ _ _ | .rotate _ _ | .wait _ | .allocate _ _
  | .register _ _ _ | .enqueue _ _ _ | .install _ _ | .returned _ => none

/-- The slot reserved and not yet published. -/
@[simp, grind =] def pending : InsertPc V → Option (SlotIdx × ℕ)
  | .unlock _ g (some i) | .write _ g i | .publish _ g i => some (g, i)
  | .idle | .loop _ | .reserve _ _ | .fetchAdd _ _ | .setSealed _ _ | .unlock _ _ none
  | .rotate _ _ | .wait _ | .allocate _ _ | .register _ _ _ | .enqueue _ _ _ | .install _ _
  | .returned _ => none

@[simp, grind =] def rotating : InsertPc V → Bool
  | .allocate _ _ | .register _ _ _ | .enqueue _ _ _ | .install _ _ => true
  | .idle | .loop _ | .reserve _ _ | .fetchAdd _ _ | .setSealed _ _ | .unlock _ _ _
  | .write _ _ _ | .publish _ _ _ | .rotate _ _ | .wait _ | .returned _ => false

/-- The memtable a rotation has still to queue. -/
@[simp, grind =] def outgoing : InsertPc V → Option SlotIdx
  | .allocate _ cur | .register _ cur _ => cur
  | .enqueue _ cur _ => some cur
  | .idle | .loop _ | .reserve _ _ | .fetchAdd _ _ | .setSealed _ _ | .unlock _ _ _
  | .write _ _ _ | .publish _ _ _ | .rotate _ _ | .wait _ | .install _ _ | .returned _ => none

@[simp, grind =] def building : InsertPc V → Option SlotIdx
  | .register _ _ new => some new
  | .idle | .loop _ | .reserve _ _ | .fetchAdd _ _ | .setSealed _ _ | .unlock _ _ _
  | .write _ _ _ | .publish _ _ _ | .rotate _ _ | .wait _ | .allocate _ _ | .enqueue _ _ _
  | .install _ _ | .returned _ => none

@[simp, grind =] def fresh : InsertPc V → Option SlotIdx
  | .enqueue _ _ new | .install _ new => some new
  | .idle | .loop _ | .reserve _ _ | .fetchAdd _ _ | .setSealed _ _ | .unlock _ _ _
  | .write _ _ _ | .publish _ _ _ | .rotate _ _ | .wait _ | .allocate _ _ | .register _ _ _
  | .returned _ => none

@[simp, grind =] def isReturned : InsertPc V → Bool
  | .returned _ => true
  | .idle | .loop _ | .reserve _ _ | .fetchAdd _ _ | .setSealed _ _ | .unlock _ _ _
  | .write _ _ _ | .publish _ _ _ | .rotate _ _ | .wait _ | .allocate _ _ | .register _ _ _
  | .enqueue _ _ _ | .install _ _ => false

end InsertPc

namespace FlushPc

/-- The queued memtable a worker has claimed. -/
@[simp, grind =] def claim : FlushPc → Option SlotIdx
  | .claimed g | .waiting g | .settled g | .written g | .registered g => some g
  | .idle | .unlinked _ | .released _ | .failed => none

/-- The claimed memtable whose publishes have been waited for. -/
@[simp, grind =] def done : FlushPc → Option SlotIdx
  | .settled g | .written g | .registered g => some g
  | .idle | .claimed _ | .waiting _ | .unlinked _ | .released _ | .failed => none

theorem claim_of_done {pc : FlushPc} {g : SlotIdx} (h : pc.done = some g) :
    pc.claim = some g := by
  cases pc <;> simp_all

@[simp, grind =] def unlinkedSlot : FlushPc → Option SlotIdx
  | .unlinked g => some g
  | .idle | .claimed _ | .waiting _ | .settled _ | .written _ | .registered _ | .released _
  | .failed => none

end FlushPc

/-- Program points between which an insert holds the same things. -/
structure InsertPc.SameHold (pc pc' : InsertPc V) : Prop where
  sharing : pc'.sharing = pc.sharing
  pending : pc'.pending = pc.pending
  rotating : pc'.rotating = pc.rotating
  outgoing : pc'.outgoing = pc.outgoing
  building : pc'.building = pc.building
  fresh : pc'.fresh = pc.fresh
  open_ : ∀ r g i, pc ≠ .publish r g i ∧ pc' ≠ .publish r g i
  running : pc.isReturned = false ∧ pc'.isReturned = false

/-- What a step of an insert does outside its rotations. -/
inductive InsertTrans : State V → State V → Prop where
  | stay {s} : InsertTrans s s
  | control {s t pc} (h : (s.ins t).SameHold pc) : InsertTrans s (s.setIns t pc)
  | lockShared {s t r g} (h : s.ins t = .loop r) (hg : s.growingIdx = .slot g) :
      InsertTrans s ((s.setIns t (.reserve r g)).setShared (insert t s.mtShared))
  | fetchFull {s t r g} (h : s.ins t = .fetchAdd r g)
      (hi : (s.mt g).capacity ≤ (s.mt g).currentSize) :
      InsertTrans s ((s.setMt g (s.mt g).bump).setIns t (.setSealed r g))
  | fetchSlot {s t r g} (h : s.ins t = .fetchAdd r g)
      (hi : (s.mt g).currentSize < (s.mt g).capacity) :
      InsertTrans s
        ((s.setMt g (s.mt g).bump).setIns t (.unlock r g (some (s.mt g).currentSize)))
  | setSealed {s t r g} (h : s.ins t = .setSealed r g) :
      InsertTrans s ((s.setMt g (s.mt g).setSealed).setIns t (.unlock r g none))
  | unlockSlot {s t r g i} (h : s.ins t = .unlock r g (some i)) :
      InsertTrans s ((s.setIns t (.write r g i)).setShared (s.mtShared.erase t))
  | unlockFull {s t r g} (h : s.ins t = .unlock r g none) :
      InsertTrans s ((s.setIns t (.rotate r true)).setShared (s.mtShared.erase t))
  | write {s t r g i} (h : s.ins t = .write r g i) :
      InsertTrans s ((s.setMt g ((s.mt g).store i r t)).setIns t (.publish r g i))
  | publish {s t r g i} (h : s.ins t = .publish r g i) :
      InsertTrans s ((s.setMt g ((s.mt g).publishSlotRelease i)).setIns t (.returned r))

/-- What a step of a rotation does, to the state and to the ownership map. -/
inductive RotateTrans (cfg : Config) :
    (SlotIdx → Owner) → State V → (SlotIdx → Owner) → State V → Prop where
  | rotateOut {own s t r g id} (h : s.ins t = .rotate r true) (hx : s.exclusive)
      (hg : s.growingIdx = .slot g) (hs : (s.mt g).isSealed) :
      RotateTrans cfg own s (Function.update own g (.rotation t))
        ((s.setIns t (.allocate r (some g))).setGrowing .rotating id)
  | rotateInvalid {own s t r id} (h : s.ins t = .rotate r false) (hx : s.exclusive)
      (hg : s.growingIdx = .invalid) :
      RotateTrans cfg own s own ((s.setIns t (.allocate r none)).setGrowing .rotating id)
  | rotateOver {own s t r g id} (h : s.ins t = .rotate r false) (hx : s.exclusive)
      (hg : s.growingIdx = .slot g) :
      RotateTrans cfg own s (Function.update own g .orphan)
        ((s.setIns t (.allocate r none)).setGrowing .rotating id)
  | alloc {own s t r cur g} (h : s.ins t = .allocate r cur) (hg : (s.slots g).refCount = 0) :
      RotateTrans cfg own s (Function.update own g (.building t))
        ((s.setSlot g { s.slots g with refCount := 1 }).setIns t (.register r cur g))
  | register {own s t r cur new pc} (h : s.ins t = .register r cur new)
      (hpc : pc = .install r new ∧ cur = none ∨ ∃ c, pc = .enqueue r c new ∧ cur = some c) :
      RotateTrans cfg own s (Function.update own new (.fresh t))
        ((s.setMt new
          ((s.mt new).register cfg.rel s.nextSegmentId cfg.capacity)).setIns t pc).allocId
  | enqueue {own s t r cur new} (h : s.ins t = .enqueue r cur new) (hx : s.exclusive) :
      RotateTrans cfg own s (Function.update own cur .queued)
        ((s.setIns t (.install r new)).setQueue (s.memtableIdxs ++ [cur]))
  | install {own s t r new id} (h : s.ins t = .install r new) (hx : s.exclusive) :
      RotateTrans cfg own s (Function.update own new .growing)
        ((s.setIns t (.loop r)).setGrowing (.slot new) id)

/-- What a step of a flush does. -/
inductive FlushTrans : (SlotIdx → Owner) → State V → (SlotIdx → Owner) → State V → Prop where
  | claim {own s f g} (h : s.flu f = .idle) (hg : g ∈ s.memtableIdxs)
      (hc : (s.mt g).flushClaimed = false) :
      FlushTrans own s own ((s.setMt g (s.mt g).setFlushClaimed).setFlu f (.claimed g))
  | vacuumLock {own s f g b pc} (h : (s.flu f).unlinkedSlot = none)
      (hb : b.mt = s.mt g ∧ b.refCount = (s.slots g).refCount ∧
        b.readers = (s.slots g).readers ∧ b.foreign = (s.slots g).foreign)
      (hc : pc.claim = none ∨ pc.claim = (s.flu f).claim) (hd : pc.done = none)
      (hu : pc.unlinkedSlot = none) :
      FlushTrans own s own ((s.setSlot g b).setFlu f pc)
  | settle {own s f g} (h : s.flu f = .waiting g)
      (hr : (s.mt g).readyCnt = (s.mt g).validSize) :
      FlushTrans own s own (s.setFlu f (.settled g))
  | advance {own s f pc} (hc : pc.claim = (s.flu f).claim) (hd : pc.done = (s.flu f).done)
      (hu : pc.unlinkedSlot = (s.flu f).unlinkedSlot) : FlushTrans own s own (s.setFlu f pc)
  | handoff {own s f g} (h : s.flu f = .registered g) (hx : s.exclusive)
      (hg : g ∈ s.memtableIdxs) :
      FlushTrans own s (Function.update own g (.unlinked f))
        (((s.setFlu f (.unlinked g)).setQueue (s.memtableIdxs.erase g)).setHandedOff
          (s.mt g :: s.handedOff))
  | release {own s f g} (h : s.flu f = .unlinked g) :
      FlushTrans own s (Function.update own g .nobody)
        ((s.setSlot g { s.slots g with refCount := (s.slots g).refCount - 1 }).setFlu f
          (.released g))

/-- What searches, vacuum and other indexes do. -/
inductive ReaderTrans : State V → State V → Prop where
  | acquire {s g} (h : s.growingIdx = .slot g ∨ g ∈ s.memtableIdxs) :
      ReaderTrans s (s.setSlot g { s.slots g with
        refCount := (s.slots g).refCount + 1, readers := (s.slots g).readers + 1 })
  | unref {s g} (h : 0 < (s.slots g).readers) :
      ReaderTrans s (s.setSlot g { s.slots g with
        refCount := (s.slots g).refCount - 1, readers := (s.slots g).readers - 1 })
  | vacuumExclusive {s g b} :
      ReaderTrans s (s.setSlot g { s.slots g with vacuumExclusive := b })
  | mask {s g i} (h : 0 < (s.slots g).readers) :
      ReaderTrans s (s.setMt g ((s.mt g).mask i))
  | other {s g rc mt'} (h : (s.slots g).refCount = 0 ∨ (s.slots g).foreign) :
      ReaderTrans s (s.setSlot g { s.slots g with
        refCount := rc, mt := mt', foreign := decide (0 < rc) })

/-- What one step can do. -/
inductive Trans (cfg : Config) :
    (SlotIdx → Owner) → State V → (SlotIdx → Owner) → State V → Prop where
  | insert {own s s'} (h : InsertTrans s s') : Trans cfg own s own s'
  | rotate {own s own' s'} (h : RotateTrans cfg own s own' s') : Trans cfg own s own' s'
  | flush {own s own' s'} (h : FlushTrans own s own' s') : Trans cfg own s own' s'
  | reader {own s s'} (h : ReaderTrans s s') : Trans cfg own s own s'

/-- A rotation without `need_enqueue` enters only while there is no growing memtable. -/
def EntersEmpty (s : State V) : Action V → Prop
  | .ins t =>
      match s.ins t, s.growingIdx with
      | .rotate _ false, .slot _ => False
      | _, _ => True
  | _ => True

instance (s : State V) (a : Action V) : Decidable (EntersEmpty s a) := by
  unfold EntersEmpty
  split
  · split <;> infer_instance
  · infer_instance

/-- No growing memtable was ever dropped by a rotation. -/
def NoOrphan (own : SlotIdx → Owner) : Prop := ∀ g, own g ≠ .orphan

theorem NoOrphan.update {own : SlotIdx → Owner} (h : NoOrphan own) {g : SlotIdx} {o : Owner}
    (ho : o ≠ .orphan) : NoOrphan (Function.update own g o) := by
  intro g'
  rcases eq_or_ne g' g with rfl | hg
  · simpa using ho
  · simpa [hg] using h g'

theorem insertStep_trans {cfg : Config} {own : SlotIdx → Owner} {s s' : State V} {t : ℕ}
    (h : insertStep cfg s t = some s') : ∃ own', Trans cfg own s own' s' ∧
      (EntersEmpty s (.ins t) → NoOrphan own → NoOrphan own') := by
  unfold insertStep at h
  cases hpc : s.ins t with
  | idle | returned r | allocate r cur => simp [hpc] at h
  | loop r =>
      rw [hpc] at h
      cases hg : s.growingIdx with
      | rotating =>
          simp only [hg, Option.some.injEq] at h
          exact h ▸ ⟨own, .insert .stay, fun _ h => h⟩
      | invalid =>
          simp only [hg, Option.some.injEq] at h
          exact h ▸ ⟨own, .insert (.control (by constructor <;> simp [hpc])), fun _ h => h⟩
      | slot g =>
          simp only [hg, Option.some.injEq] at h
          exact h ▸ ⟨own, .insert (.lockShared hpc hg), fun _ h => h⟩
  | reserve r g =>
      simp only [hpc] at h
      split at h <;> cases h <;>
        exact ⟨own, .insert (.control (by constructor <;> simp [hpc])), fun _ h => h⟩
  | fetchAdd r g =>
      simp only [hpc, Option.some.injEq] at h
      split at h
      · exact h ▸ ⟨own, .insert (.fetchFull hpc ‹_›), fun _ h => h⟩
      · exact h ▸ ⟨own, .insert (.fetchSlot hpc (not_le.mp ‹_›)), fun _ h => h⟩
  | setSealed r g =>
      simp only [hpc, Option.some.injEq] at h
      exact h ▸ ⟨own, .insert (.setSealed hpc), fun _ h => h⟩
  | unlock r g i =>
      cases i <;> simp only [hpc, Option.some.injEq] at h
      · exact h ▸ ⟨own, .insert (.unlockFull hpc), fun _ h => h⟩
      · exact h ▸ ⟨own, .insert (.unlockSlot hpc), fun _ h => h⟩
  | write r g i =>
      simp only [hpc, Option.some.injEq] at h
      exact h ▸ ⟨own, .insert (.write hpc), fun _ h => h⟩
  | publish r g i =>
      simp only [hpc, Option.some.injEq] at h
      exact h ▸ ⟨own, .insert (.publish hpc), fun _ h => h⟩
  | rotate r need =>
      simp only [hpc] at h
      split at h
      case isFalse => cases h
      case isTrue hx =>
      cases hg : s.growingIdx with
      | rotating =>
          simp only [hg, Option.some.injEq] at h
          exact h ▸ ⟨own, .insert (.control (by constructor <;> simp [hpc])), fun _ h => h⟩
      | invalid =>
          cases need <;> simp only [hg, Option.some.injEq, reduceCtorEq] at h
          exact h ▸ ⟨own, .rotate (.rotateInvalid hpc hx hg), fun _ h => h⟩
      | slot g =>
          cases need with
          | false =>
              simp only [hg, Option.some.injEq] at h
              exact h ▸ ⟨_, .rotate (.rotateOver hpc hx hg), fun hok => by
                simp [EntersEmpty, hpc, hg] at hok⟩
          | true =>
              simp only [hg] at h
              split at h <;> cases h
              · exact ⟨_, .rotate (.rotateOut hpc hx hg ‹_›), fun _ h => h.update (by simp)⟩
              · exact ⟨own, .insert (.control (by constructor <;> simp [hpc])), fun _ h => h⟩
  | wait r =>
      simp only [hpc] at h
      split at h <;> cases h
      · exact ⟨own, .insert .stay, fun _ h => h⟩
      · exact ⟨own, .insert (.control (by constructor <;> simp [hpc])), fun _ h => h⟩
  | register r cur new =>
      cases cur <;> simp only [hpc, Option.some.injEq] at h
      · exact h ▸ ⟨_, .rotate (.register hpc (by simp)), fun _ h => h.update (by simp)⟩
      · exact h ▸ ⟨_, .rotate (.register hpc (by simp)), fun _ h => h.update (by simp)⟩
  | enqueue r cur new =>
      simp only [hpc] at h
      split at h
      case isFalse => cases h
      case isTrue hx =>
        split at h <;> cases h
        · exact ⟨_, .rotate (.enqueue hpc hx), fun _ h => h.update (by simp)⟩
        · exact ⟨own, .insert .stay, fun _ h => h⟩
  | install r new =>
      simp only [hpc] at h
      split at h <;> cases h
      exact ⟨_, .rotate (.install hpc ‹_›), fun _ h => h.update (by simp)⟩

theorem flushStep_trans (cfg : Config) (own : SlotIdx → Owner) {s s' : State V} {f : ℕ}
    (h : flushStep s f = some s') :
    ∃ own', Trans cfg own s own' s' ∧ (NoOrphan own → NoOrphan own') := by
  unfold flushStep at h
  cases hpc : s.flu f with
  | idle | failed => simp [hpc] at h
  | claimed g =>
      simp only [hpc] at h
      split at h <;> cases h
      exact ⟨own, .flush (.vacuumLock (by simp [hpc]) (by simp) (by simp [hpc]) rfl rfl),
        fun h => h⟩
  | waiting g =>
      simp only [hpc] at h
      split at h
      · cases h
        exact ⟨own, .flush (.vacuumLock (by simp [hpc]) (by simp) (by simp) rfl rfl), fun h => h⟩
      · split at h <;> cases h
        · exact ⟨own, .flush (.settle hpc ‹_›), fun h => h⟩
        · exact ⟨own, .insert .stay, fun h => h⟩
  | settled g | written g =>
      simp only [hpc, Option.some.injEq] at h
      exact h ▸ ⟨own, .flush (.advance (by simp [hpc]) (by simp [hpc]) (by simp [hpc])), fun h => h⟩
  | registered g =>
      simp only [hpc] at h
      split at h
      case isFalse => cases h
      case isTrue hx =>
        split at h <;> cases h
        · exact ⟨_, .flush (.handoff hpc hx ‹_›), fun h => h.update (by simp)⟩
        · exact ⟨own, .flush (.vacuumLock (by simp [hpc]) (by simp) (by simp) rfl rfl), fun h => h⟩
  | unlinked g =>
      simp only [hpc, Option.some.injEq] at h
      exact h ▸ ⟨_, .flush (.release hpc), fun h => h.update (by simp)⟩
  | released g =>
      simp only [hpc, Option.some.injEq] at h
      exact h ▸ ⟨own, .flush (.vacuumLock (by simp [hpc]) (by simp) (by simp) rfl rfl), fun h => h⟩

theorem readerStep_trans {cfg : Config} {own : SlotIdx → Owner} {s s' : State V} {a : Action V}
    (h : readerStep s a = some s') : Trans cfg own s own s' := by
  cases a with
  | call | ins | alloc | claim | flu => cases h
  | acquire g =>
      simp only [readerStep] at h
      split at h <;> cases h
      exact .reader (.acquire ‹_›)
  | unref g =>
      simp only [readerStep] at h
      split at h <;> cases h
      exact .reader (.unref ‹_›)
  | lockVacuum g | unlockVacuum g =>
      simp only [readerStep] at h
      split at h <;> cases h
      exact .reader .vacuumExclusive
  | mask g i =>
      simp only [readerStep] at h
      split at h <;> cases h
      exact .reader (.mask (And.left ‹_›))
  | other g rc mt' =>
      simp only [readerStep] at h
      split at h <;> cases h
      exact .reader (.other ‹_›)

theorem step_trans {cfg : Config} (own : SlotIdx → Owner) {s s' : State V} {a : Action V}
    (h : step cfg s a = some s') : ∃ own', Trans cfg own s own' s' ∧
      (EntersEmpty s a → NoOrphan own → NoOrphan own') := by
  cases a with
  | call t r =>
      simp only [step] at h
      split at h <;> cases h
      exact ⟨own, .insert (.control (by constructor <;> simp [*])), fun _ h => h⟩
  | ins t => exact insertStep_trans h
  | alloc t g =>
      simp only [step, allocStep] at h
      split at h
      · split at h <;> cases h
        exact ⟨_, .rotate (.alloc ‹_› ‹_›), fun _ h => h.update (by simp)⟩
      · cases h
  | claim f g =>
      simp only [step, claimStep] at h
      split at h
      case isFalse => cases h
      case isTrue hc =>
      cases h
      exact ⟨own, .flush (.claim hc.1 hc.2.1 hc.2.2), fun _ h => h⟩
  | flu f =>
      obtain ⟨own', h, ho⟩ := flushStep_trans cfg own h
      exact ⟨own', h, fun _ => ho⟩
  | acquire g | unref g | lockVacuum g | unlockVacuum g | mask g i | other g rc mt' =>
      simp only [step] at h
      exact ⟨own, readerStep_trans h, fun _ h => h⟩

end VectorLsm.Memtable
