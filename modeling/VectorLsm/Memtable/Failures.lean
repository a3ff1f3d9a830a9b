import VectorLsm.Memtable.Insert

/-! # Inserts that raise errors

The machine of `Memtable.Machine` with errors. An insert can be left by an error between the
reservation of its slot and the publish, and a rotation between the `ROTATING` sentinel and the
return of the allocation; what either of them holds besides LWLocks is not given back. The
references of searches and vacuum are kept one by one, with the way the memtable is to be searched.
-/

namespace VectorLsm.Failures

open ConcurrentMemTable Memtable Memtable.State Transition

variable {V : Type*}

/-- An entry of an `LSMSnapshot`. -/
structure SnapshotRef where
  slot : SlotIdx
  /-- Taken as the growing memtable. -/
  checkReady : Bool
  deriving DecidableEq

structure State (V : Type*) where
  base : Memtable.State V
  refs : List SnapshotRef
  /-- History: the reservations whose insert raised an error, by slot of the buffer, memtable and
  slot of the memtable. -/
  failed : List (SlotIdx × SegmentId × ℕ)

@[simps] def State.setBase (x : State V) (s : Memtable.State V) : State V := { x with base := s }

/-- The insert that reserved slot `i` of the memtable in slot `g` of the buffer raised an error. -/
def State.Failed (x : State V) (g : SlotIdx) (i : ℕ) : Prop :=
  (g, (x.base.mt g).memtableId, i) ∈ x.failed

instance (x : State V) (g : SlotIdx) (i : ℕ) : Decidable (x.Failed g i) :=
  inferInstanceAs (Decidable (_ ∈ _))

/-- An error leaves the call and releases `mt_lock`. -/
def leave (s : Memtable.State V) (t : ℕ) : Memtable.State V :=
  (s.setIns t .idle).setShared (s.mtShared.erase t)

/-- An error in `insert_lsm_index` after `reserve_slot` succeeded, or in
`allocate_new_growing_memtable`. The id and the fields of a memtable are set before its status
page is touched. -/
def failInsert (cfg : Config) (x : State V) (t : ℕ) : Option (State V) :=
  match x.base.ins t with
  | .unlock _ g (some i) | .write _ g i | .publish _ g i =>
      some { x with
        base := leave x.base t, failed := (g, (x.base.mt g).memtableId, i) :: x.failed }
  | .allocate _ _ => some (x.setBase (leave x.base t))
  | .register _ _ new =>
      some (x.setBase (leave (x.base.setMt new
        ((x.base.mt new).register cfg.rel x.base.nextSegmentId cfg.capacity)).allocId t))
  | _ => none

inductive Action (V : Type*) where
  | act (a : Memtable.Action V)
  | fail (t : ℕ)
  | acquire (g : SlotIdx)
  | unref (r : SnapshotRef)

def step (cfg : Config) (x : State V) : Action V → Option (State V)
  | .act (.acquire _) | .act (.unref _) => none
  | .act a => (Memtable.step cfg x.base a).map x.setBase
  | .fail t => failInsert cfg x t
  | .acquire g =>
      (readerStep x.base (.acquire g)).map fun s =>
        { x with base := s, refs := ⟨g, decide (x.base.growingIdx = .slot g)⟩ :: x.refs }
  | .unref r =>
      if r ∈ x.refs then
        (readerStep x.base (.unref r.slot)).map fun s =>
          { x with base := s, refs := x.refs.erase r }
      else none

/-- No search, no error yet. -/
def begin (s : Memtable.State V) : State V := ⟨s, [], []⟩

/-- What an error of an insert does to the memtables, to the ownership map and to the history. -/
inductive FailTrans (cfg : Config) (t : ℕ) : (SlotIdx → Owner) → Memtable.State V →
    (SlotIdx → Owner) → Memtable.State V → List (SlotIdx × SegmentId × ℕ) → Prop where
  | insert {own s g i} (h : (s.ins t).pending = some (g, i)) :
      FailTrans cfg t own s own (leave s t) [(g, (s.mt g).memtableId, i)]
  | allocate {own s r cur} (h : s.ins t = .allocate r cur) :
      FailTrans cfg t own s (fun g => if cur = some g then .orphan else own g) (leave s t) []
  | register {own s r cur new} (h : s.ins t = .register r cur new) :
      FailTrans cfg t own s (fun g => if cur = some g ∨ new = g then .orphan else own g)
        (leave (s.setMt new
          ((s.mt new).register cfg.rel s.nextSegmentId cfg.capacity)).allocId t) []

@[simp, grind =] theorem leave_ins (s : Memtable.State V) (t u : ℕ) :
    (leave s t).ins u = if u = t then .idle else s.ins u := by
  simp [leave, Function.update_apply]

@[simp, grind =] theorem leave_mtShared (s : Memtable.State V) (t : ℕ) :
    (leave s t).mtShared = s.mtShared.erase t := rfl

@[simp, grind =] theorem leave_slots (s : Memtable.State V) (t : ℕ) (g : SlotIdx) :
    (leave s t).slots g = s.slots g := rfl

@[simp, grind =] theorem leave_mt (s : Memtable.State V) (t : ℕ) (g : SlotIdx) :
    (leave s t).mt g = s.mt g := rfl

@[simp, grind =] theorem leave_growingIdx (s : Memtable.State V) (t : ℕ) :
    (leave s t).growingIdx = s.growingIdx := rfl

@[simp, grind =] theorem leave_memtableIdxs (s : Memtable.State V) (t : ℕ) :
    (leave s t).memtableIdxs = s.memtableIdxs := rfl

@[simp, grind =] theorem leave_nextSegmentId (s : Memtable.State V) (t : ℕ) :
    (leave s t).nextSegmentId = s.nextSegmentId := rfl

@[simp, grind =] theorem leave_flu (s : Memtable.State V) (t f : ℕ) :
    (leave s t).flu f = s.flu f := rfl

@[simp, grind =] theorem leave_handedOff (s : Memtable.State V) (t : ℕ) :
    (leave s t).handedOff = s.handedOff := rfl

/-- An insert that has a slot is in no rotation. -/
theorem none_of_pending {pc : InsertPc V} {p : SlotIdx × ℕ} (h : pc.pending = some p) :
    pc.rotating = false ∧ pc.outgoing = none ∧ pc.building = none ∧ pc.fresh = none := by
  cases pc <;> simp_all

theorem failInsert_trans {cfg : Config} (own : SlotIdx → Owner) {x x' : State V} {t : ℕ}
    (h : failInsert cfg x t = some x') : ∃ own' added,
      FailTrans cfg t own x.base own' x'.base added ∧ x'.failed = added ++ x.failed ∧
        x'.refs = x.refs := by
  unfold failInsert at h
  cases hpc : x.base.ins t with
  | unlock r g i =>
      cases i with
      | none => simp [hpc] at h
      | some i =>
          simp only [hpc, Option.some.injEq] at h
          exact h ▸ ⟨own, _, .insert (by rw [hpc]; rfl), rfl, rfl⟩
  | write r g i | publish r g i =>
      simp only [hpc, Option.some.injEq] at h
      exact h ▸ ⟨own, _, .insert (by rw [hpc]; rfl), rfl, rfl⟩
  | allocate r cur =>
      simp only [hpc, Option.some.injEq] at h
      exact h ▸ ⟨_, _, .allocate hpc, rfl, rfl⟩
  | register r cur new =>
      simp only [hpc, Option.some.injEq] at h
      exact h ▸ ⟨_, _, .register hpc, rfl, rfl⟩
  | _ => simp [hpc] at h

section Pieces

variable {cfg : Config} {own own' : SlotIdx → Owner} {s s' : Memtable.State V}
  {t : ℕ} {added : List (SlotIdx × SegmentId × ℕ)}

theorem locks_fail (h : FailTrans cfg t own s own' s' added) (hl : Locks s) : Locks s' := by
  obtain ⟨hsh, hsg, hro, hsi⟩ := hl
  cases h <;> constructor <;> grind [Function.update_apply]

/-- The memtable that a rotation took off the growing place is still the rotation's. -/
theorem own_allocate (hp : Places own s) {r : Row V} {cur : Option SlotIdx}
    (h : s.ins t = .allocate r cur) : ∀ c, cur = some c → own c = .rotation t := by
  rintro c rfl
  exact (hp.rotation t c).2 (by simp [h])

theorem own_register (hp : Places own s) {r : Row V} {cur : Option SlotIdx} {new : SlotIdx}
    (h : s.ins t = .register r cur new) :
    own new = .building t ∧ ∀ c, cur = some c → own c = .rotation t := by
  refine ⟨(hp.building t new).2 (by simp [h]), ?_⟩
  rintro c rfl
  exact (hp.rotation t c).2 (by simp [h])

/-- An error of a rotation orphans its memtables and otherwise does what a step of it does. -/
theorem rotated_allocate (hp : Places own s) {r : Row V} {cur : Option SlotIdx}
    (h : s.ins t = .allocate r cur) :
    Rotated own s (fun g => if cur = some g then .orphan else own g) (leave s t) := by
  have hcur := own_allocate hp h
  constructor <;> grind

theorem rotated_register (hp : Places own s) {r : Row V} {cur : Option SlotIdx} {new : SlotIdx}
    (h : s.ins t = .register r cur new) :
    Rotated own s (fun g => if cur = some g ∨ new = g then .orphan else own g)
      (leave (s.setMt new
        ((s.mt new).register cfg.rel s.nextSegmentId cfg.capacity)).allocId t) := by
  obtain ⟨hnew, hcur⟩ := own_register hp h
  have hreg := (s.mt new).registered cfg.rel s.nextSegmentId cfg.capacity
  constructor <;> grind

theorem places_fail (h : FailTrans cfg t own s own' s' added) (hp : Places own s) :
    Places own' s' := by
  cases h with
  | insert h =>
    have hnone := none_of_pending h
    obtain ⟨hg, hq, hn, ho, hb, hf, hu⟩ := hp
    constructor <;> grind
  | allocate h =>
    have hcur := own_allocate hp h
    obtain ⟨hg, hq, hn, ho, hb, hf, hu⟩ := hp
    constructor <;> grind [Function.update_apply]
  | register h =>
    obtain ⟨hnew, hcur⟩ := own_register hp h
    obtain ⟨hg, hq, hn, ho, hb, hf, hu⟩ := hp
    constructor <;> grind [Function.update_apply]

theorem refs_fail (h : FailTrans cfg t own s own' s' added) (hp : Places own s) (hr : Refs own s) :
    Refs own' s' := by
  obtain ⟨ho, hr, hd, hf⟩ := hr
  cases h with
  | insert h => constructor <;> grind
  | allocate h =>
    have hcur := own_allocate hp h
    constructor <;> grind
  | register h =>
    obtain ⟨hnew, hcur⟩ := own_register hp h
    constructor <;> grind [Function.update_apply]

theorem claims_fail (h : FailTrans cfg t own s own' s' added) (hp : Places own s)
    (hc : Claims own s) :
    Claims own' s' := by
  obtain ⟨hq, hs⟩ := hc
  cases h with
  | insert h => constructor <;> grind
  | allocate h =>
    have hcur := own_allocate hp h
    constructor <;> grind
  | register h =>
    obtain ⟨hnew, hcur⟩ := own_register hp h
    constructor <;> grind

theorem slots_fail (h : FailTrans cfg t own s own' s' added) (hp : Places own s) (hc : Claims own s)
    (hs : Slots own s) : Slots own' s' := by
  cases h with
  | insert h =>
    have hcl := hc.queued_of_done
    have hpl := hs.live_of_publish
    obtain ⟨hcn, hpe, hdi, hst, hdn, hfr⟩ := hs
    constructor <;> grind [Function.update_apply]
  | allocate h => exact hs.rotate (rotated_allocate hp h) hc
  | register h => exact hs.rotate (rotated_register hp h) hc

theorem names_fail (h : FailTrans cfg t own s own' s' added) (hp : Places own s)
    (hn : Names own s) :
    Names own' s' := by
  cases h with
  | insert h => exact ⟨hn.below, hn.live, hn.handedBelow, hn.handed, hn.nodup⟩
  | allocate h => exact hn.rotate (rotated_allocate hp h)
  | register h => exact hn.rotate (rotated_register hp h)

end Pieces

/-- The slots up to `max_ready_id` are published. -/
def PrefixReady (m : ConcurrentMemTable V) : Prop :=
  ∀ top ∈ m.maxReadyId, ∀ i ≤ top, m.ready i = true

theorem ready_extendReady {ready : ℕ → Bool} {cap fuel m : ℕ} (h : ∀ i ≤ m, ready i = true) :
    ∀ i ≤ extendReady ready cap fuel m, ready i = true := by
  induction fuel generalizing m with
  | zero => exact h
  | succ fuel ih =>
      rw [extendReady]
      split
      case isTrue hnext =>
        refine ih fun i hi => ?_
        rcases Nat.le_succ_iff.mp hi with hi | rfl
        · exact h i hi
        · exact hnext.2
      case isFalse => exact h

section PrefixReady

variable (m : ConcurrentMemTable V)

@[grind =] theorem prefixReady_bump : PrefixReady m.bump ↔ PrefixReady m := Iff.rfl

@[grind =] theorem prefixReady_setSealed : PrefixReady m.setSealed ↔ PrefixReady m := Iff.rfl

@[grind =] theorem prefixReady_setFlushClaimed : PrefixReady m.setFlushClaimed ↔ PrefixReady m :=
  Iff.rfl

@[grind =] theorem prefixReady_store (i : ℕ) (r : Row V) (t : ℕ) :
    PrefixReady (m.store i r t) ↔ PrefixReady m := Iff.rfl

@[grind =] theorem prefixReady_mask (i : ℕ) : PrefixReady (m.mask i) ↔ PrefixReady m := Iff.rfl

@[grind ←] theorem prefixReady_register (rel : Oid) (sid : SegmentId) (cap : ℕ) :
    PrefixReady (m.register rel sid cap) := nofun

end PrefixReady

@[grind ←] theorem PrefixReady.publishSlotRelease {m : ConcurrentMemTable V} (h : PrefixReady m)
    (i : ℕ) : PrefixReady (m.publishSlotRelease i) := by
  have hset : ∀ j, m.ready j = true ∨ j = i → (m.setReady i).ready j = true := by
    intro j hj
    rw [setReady_ready, Function.update_apply]
    split
    · rfl
    · exact hj.resolve_right ‹_›
  intro top htop j hj
  rw [publishSlotRelease_ready]
  rw [publishSlotRelease_maxReadyId, updateMaxReadyId, setReady_maxReadyId] at htop
  cases hmax : m.maxReadyId with
  | none =>
      simp only [hmax, Option.mem_def, Option.ite_none_right_eq_some] at htop
      obtain ⟨rfl, htop⟩ := htop
      obtain rfl : 0 = top := Option.some.inj htop
      exact hset j (.inr (Nat.le_zero.mp hj))
  | some last =>
      have hlast : ∀ j ≤ last, (m.setReady i).ready j = true := fun j hj =>
        hset j (.inl (h last hmax j hj))
      simp only [hmax] at htop
      split at htop
      · obtain rfl := Option.some.inj htop
        exact ready_extendReady hlast j hj
      · obtain rfl := Option.some.inj htop
        exact hlast j hj

/-- The slots of the buffer whose memtable somebody may look at. -/
def Tended (own : SlotIdx → Owner) (s : Memtable.State V) (g : SlotIdx) : Prop :=
  (own g).Live ∨ 0 < (s.slots g).readers

/-- A slot that is handed out is published, or an insert is at work on it, or its insert failed. -/
def Accounted (own : SlotIdx → Owner) (failed : List (SlotIdx × SegmentId × ℕ))
    (s : Memtable.State V) : Prop :=
  ∀ g i, (own g).Live → i < (s.mt g).validSize → (s.mt g).ready i = true ∨
    (∃ t, (s.ins t).pending = some (g, i)) ∨ (g, (s.mt g).memtableId, i) ∈ failed

/-- What the history says of the slots. -/
structure History (own : SlotIdx → Owner) (failed : List (SlotIdx × SegmentId × ℕ))
    (s : Memtable.State V) : Prop where
  below : ∀ g sid i, (g, sid, i) ∈ failed → sid < s.nextSegmentId
  unready : ∀ g i, Tended own s g → (g, (s.mt g).memtableId, i) ∈ failed →
    i < (s.mt g).validSize ∧ (s.mt g).ready i = false
  apart : ∀ t g i, (s.ins t).pending = some (g, i) → (g, (s.mt g).memtableId, i) ∉ failed
  ahead : ∀ g, Tended own s g → PrefixReady (s.mt g)
  isSealed : ∀ g, own g = .queued ∨ (∃ t, own g = .rotation t) → (s.mt g).isSealed = true
  within : ∀ f g, (s.flu f).done = some g → (s.mt g).readyCnt ≤ (s.mt g).capacity

section History

variable {cfg : Config} {own own' : SlotIdx → Owner} {s s' : Memtable.State V}
  {failed : List (SlotIdx × SegmentId × ℕ)}

theorem Accounted.of_keeps (hac : Accounted own failed s)
    (hwork : ∀ u g i, (s.ins u).pending = some (g, i) →
      (s'.ins u).pending = some (g, i) ∨ (s'.mt g).ready i = true)
    (hslot : ∀ g i, (own' g).Live → i < (s'.mt g).validSize →
      (∃ u, (s'.ins u).pending = some (g, i)) ∨ (own g).Live ∧ i < (s.mt g).validSize ∧
        (s'.mt g).memtableId = (s.mt g).memtableId ∧
        ((s.mt g).ready i = true → (s'.mt g).ready i = true)) : Accounted own' failed s' := by
  intro g i hg hi
  rcases hslot g i hg hi with hnew | ⟨hg, hi, hid, hready⟩
  · exact .inr (.inl hnew)
  · rw [hid]
    rcases hac g i hg hi with h | ⟨t, ht⟩ | h
    · exact .inl (hready h)
    · rcases hwork t g i ht with ht | h
      · exact .inr (.inl ⟨t, ht⟩)
      · exact .inl h
    · exact .inr (.inr h)

theorem Accounted.insert (h : InsertTrans s s') (hac : Accounted own failed s) :
    Accounted own failed s' := by
  cases h with
  | stay => exact hac
  | control h =>
    have hsame := h.pending
    refine hac.of_keeps (fun u g i hu => ?_) (fun g i hg hi => .inr ?_)
      <;> grind [Function.update_apply]
  | @fetchSlot t r g h hi =>
    refine hac.of_keeps (fun u g' i hu => ?_) (fun g' i hg' hi' => ?_)
    · grind [Function.update_apply]
    by_cases hnew : g' = g ∧ i = (s.mt g).currentSize
    · exact .inl ⟨t, by simp [hnew]⟩
    · exact .inr (by grind [validSize])
  | fetchFull h hi =>
    refine hac.of_keeps (fun u g i hu => ?_) (fun g i hg hi => .inr ?_)
      <;> grind [Function.update_apply, validSize]
  | _ =>
    refine hac.of_keeps (fun u g i hu => ?_) (fun g i hg hi => .inr ?_)
      <;> grind [Function.update_apply]

theorem Accounted.rotate (h : Rotated own s own' s') (hac : Accounted own failed s) :
    Accounted own' failed s' := by
  refine hac.of_keeps (fun u g i hu => .inl (h.pending u ▸ hu)) fun g i hg hi => .inr ?_
  rcases h.entered g hg with hlive | ⟨hreg, -⟩
  · have hm := (h.live g hlive).2
    exact ⟨hlive, hm ▸ hi, by rw [hm], by rw [hm]; exact id⟩
  · rw [ConcurrentMemTable.validSize, hreg.currentSize, Nat.zero_min] at hi
    exact absurd hi (Nat.not_lt_zero i)

theorem Accounted.flush (h : FlushTrans own s own' s') (hp : Places own s)
    (hac : Accounted own failed s) : Accounted own' failed s' := by
  cases h with
  | @handoff f g h hx hm =>
    have hown : own g = .queued := (hp.queued g).2 hm
    refine hac.of_keeps (fun u g i hu => ?_) (fun g i hg hi => .inr ?_)
      <;> grind [Function.update_apply]
  | @release f g h =>
    have hown : own g = .unlinked f := (hp.unlinked f g).2 (by simp [h])
    refine hac.of_keeps (fun u g i hu => ?_) (fun g i hg hi => .inr ?_)
      <;> grind [Function.update_apply]
  | _ =>
    refine hac.of_keeps (fun u g i hu => ?_) (fun g i hg hi => .inr ?_)
      <;> grind [Function.update_apply]

theorem Accounted.reader (h : ReaderTrans s s') (hr : Refs own s)
    (hac : Accounted own failed s) : Accounted own failed s' := by
  have hfree := fun g => hr.free_or_foreign (g := g)
  cases h <;> refine hac.of_keeps (fun u g i hu => ?_) (fun g i hg hi => .inr ?_) <;> grind

theorem Accounted.trans (h : Trans cfg own s own' s') (hp : Places own s) (hr : Refs own s)
    (hac : Accounted own failed s) : Accounted own' failed s' := by
  cases h with
  | insert h => exact hac.insert h
  | rotate h => exact hac.rotate (h.rotated hp hr)
  | flush h => exact hac.flush h hp
  | reader h => exact hac.reader h hr

theorem History.insert (h : InsertTrans s s') (hl : Locks s) (hp : Places own s)
    (hs : Slots own s) (hh : History own failed s) : History own failed s' := by
  have hpe := hs.pending
  have hdone := hs.done
  obtain ⟨hb, hu, ha, had, hse, hwi⟩ := hh
  cases h with
  | stay => exact ⟨hb, hu, ha, had, hse, hwi⟩
  | control h =>
    have hsame := h.pending
    constructor <;> grind [Tended]
  | @fetchFull t r g h hi | @fetchSlot t r g h hi =>
    have hown : own g = .growing := (hp.growing g).2 (hl.sharing t g (by simp [h]))
    constructor <;> grind [Function.update_apply, validSize, Tended]
  | @publish t r g i h =>
    -- A worker past its wait has found every slot published.
    have hlate : ∀ f, (s.flu f).done ≠ some g := by
      intro f hf
      obtain ⟨-, hi, hready⟩ := hpe t g i (by simp [h])
      simp [hdone f g hf i hi] at hready
    constructor <;> grind [Function.update_apply, Tended]
  | _ => constructor <;> grind [Function.update_apply, Tended]

theorem History.rotate (h : RotateTrans cfg own s own' s') (hp : Places own s) (hr : Refs own s)
    (hc : Claims own s) (hh : History own failed s) : History own' failed s' := by
  have hcl := hc.queued_of_done
  have hfree := fun g => hr.free (g := g)
  have hread := hr.readers
  obtain ⟨hb, hu, ha, had, hse, hwi⟩ := hh
  cases h with
  | @rotateOut t r g _ h hx hs | @rotateOver t r g _ h hx hs =>
    have hown : own g = .growing := (hp.growing g).2 hs
    constructor <;> grind [Function.update_apply, Tended]
  | @register t r cur new pc h hpc =>
    have hown : own new = .building t := (hp.building t new).2 (by simp [h])
    constructor <;> grind [Function.update_apply, Tended]
  | @enqueue t r cur new h hx =>
    have hcur : own cur = .rotation t := (hp.rotation t cur).2 (by simp [h])
    constructor <;> grind [Function.update_apply, Tended]
  | @install t r new _ h hx =>
    have hown : own new = .fresh t := (hp.fresh t new).2 (by simp [h])
    constructor <;> grind [Function.update_apply, Tended]
  | _ => constructor <;> grind [Function.update_apply, Tended]

theorem History.flush (h : FlushTrans own s own' s') (hp : Places own s) (hc : Claims own s)
    (hh : History own failed s) : History own' failed s' := by
  have hcl := hc.queued_of_done
  have hle := fun g => (s.mt g).validSize_le_capacity
  obtain ⟨hb, hu, ha, had, hse, hwi⟩ := hh
  cases h with
  | @handoff f g h hx hm =>
    have hown : own g = .queued := (hp.queued g).2 hm
    constructor <;> grind [Function.update_apply, Tended]
  | @release f g h =>
    have hown : own g = .unlinked f := (hp.unlinked f g).2 (by simp [h])
    constructor <;> grind [Function.update_apply, Tended]
  | _ => constructor <;> grind [Function.update_apply, Tended]

theorem History.reader (h : ReaderTrans s s') (hp : Places own s) (hr : Refs own s)
    (hc : Claims own s) (hs : Slots own s) (hh : History own failed s) :
    History own failed s' := by
  have hcl := hc.queued_of_done
  have hfree := fun g => hr.free_or_foreign (g := g)
  have hlive := fun t g i => (hs.pending t g i · |>.1)
  obtain ⟨hro, hrr, hrd, hrf⟩ := hr
  obtain ⟨hb, hu, ha, had, hse, hwi⟩ := hh
  cases h with
  | @acquire g h =>
    have hown : (own g).Live := by
      rcases h with h | h
      · simp [(hp.growing g).2 h]
      · simp [(hp.queued g).2 h]
    constructor <;> grind [Function.update_apply, Tended]
  | _ => constructor <;> grind [Function.update_apply, Tended]

theorem History.trans (h : Trans cfg own s own' s') (hl : Locks s) (hp : Places own s)
    (hr : Refs own s) (hc : Claims own s) (hs : Slots own s) (hh : History own failed s) :
    History own' failed s' := by
  cases h with
  | insert h => exact hh.insert h hl hp hs
  | rotate h => exact hh.rotate h hp hr hc
  | flush h => exact hh.flush h hp hc
  | reader h => exact hh.reader h hp hr hc hs

theorem Accounted.fail {t : ℕ} {added : List (SlotIdx × SegmentId × ℕ)}
    (h : FailTrans cfg t own s own' s' added) (hp : Places own s)
    (hac : Accounted own failed s) : Accounted own' (added ++ failed) s' := by
  cases h with
  | @insert g i h =>
    intro g' i' hg' hi'
    rcases hac g' i' hg' hi' with hready | ⟨u, hu⟩ | hf
    · exact .inl hready
    · by_cases hut : u = t
      · rw [hut, h] at hu
        obtain ⟨rfl, rfl⟩ := Prod.mk.inj (Option.some.inj hu)
        exact .inr (.inr List.mem_cons_self)
      · exact .inr (.inl ⟨u, by simpa [hut] using hu⟩)
    · exact .inr (.inr (List.mem_cons_of_mem _ hf))
  | allocate h => exact hac.rotate (rotated_allocate hp h)
  | register h => exact hac.rotate (rotated_register hp h)

theorem History.fail {t : ℕ} {added : List (SlotIdx × SegmentId × ℕ)}
    (h : FailTrans cfg t own s own' s' added) (hp : Places own s) (hc : Claims own s)
    (hs : Slots own s) (hn : Names own s) (hh : History own failed s) :
    History own' (added ++ failed) s' := by
  have hcl := hc.queued_of_done
  have hlive := hn.below
  have hdi := hs.distinct
  have hpe := hs.pending
  obtain ⟨hb, hu, ha, had, hse, hwi⟩ := hh
  cases h with
  | @insert g i h => constructor <;> grind [Tended]
  | allocate h =>
    have hcur := own_allocate hp h
    constructor <;> grind [Tended]
  | register h =>
    obtain ⟨hnew, hcur⟩ := own_register hp h
    constructor <;> grind [Tended]

end History

/-- The owners of a slot once its memtable is off the growing place for good. -/
@[simp, grind =] def Retired : Owner → Prop
  | .queued | .unlinked _ | .nobody => True
  | .growing | .rotation _ | .building _ | .fresh _ | .orphan => False

/-- The references of the snapshots are those counted, and what is searched without a look at the
ready flags has left the growing place. -/
structure Snapshots (own : SlotIdx → Owner) (refs : List SnapshotRef) (s : Memtable.State V) :
    Prop where
  counted : ∀ g, (s.slots g).readers = refs.countP (·.slot = g)
  unchecked : ∀ r ∈ refs, r.checkReady = false → Retired (own r.slot)

structure Inv (own : SlotIdx → Owner) (x : State V) : Prop where
  locks : Locks x.base
  places : Places own x.base
  refs : Refs own x.base
  claims : Claims own x.base
  slots : Slots own x.base
  names : Names own x.base
  kept : Kept own x.base
  history : History own x.failed x.base
  accounted : Accounted own x.failed x.base
  snapshots : Snapshots own x.refs x.base

section Snapshots

variable {cfg : Config} {own own' : SlotIdx → Owner} {s s' : Memtable.State V}
  {refs : List SnapshotRef}

theorem readers_of_step {a : Memtable.Action V} (h : Memtable.step cfg s a = some s')
    (hacquire : ∀ g, a ≠ .acquire g) (hunref : ∀ g, a ≠ .unref g) (g : SlotIdx) :
    (s'.slots g).readers = (s.slots g).readers := by
  cases a with
  | acquire g => exact absurd rfl (hacquire g)
  | unref g => exact absurd rfl (hunref g)
  | ins t =>
      simp only [Memtable.step, insertStep] at h
      grind [Function.update_apply]
  | _ =>
      simp only [Memtable.step, allocStep, claimStep, flushStep, failFlush, readerStep] at h
      grind [Function.update_apply]

theorem Retired.trans (h : Trans cfg own s own' s') (hp : Places own s) (hr : Refs own s)
    {g : SlotIdx} (hg : Retired (own g)) (hread : 0 < (s.slots g).readers) :
    Retired (own' g) := by
  have hle := hr.readers g
  cases h with
  | insert h | reader h => exact hg
  | rotate h =>
    cases h with
    | rotateOut h hx hs | rotateOver h hx hs =>
      have hown := (hp.growing _).2 hs
      grind [Function.update_apply]
    | rotateInvalid h hx hs => exact hg
    | alloc h h0 => grind [Function.update_apply]
    | @register t r cur new pc h hpc =>
      have hown : own new = .building t := (hp.building t new).2 (by simp [h])
      grind [Function.update_apply]
    | @enqueue t r cur new h hx =>
      have hcur : own cur = .rotation t := (hp.rotation t cur).2 (by simp [h])
      grind [Function.update_apply]
    | @install t r new _ h hx =>
      have hown : own new = .fresh t := (hp.fresh t new).2 (by simp [h])
      grind [Function.update_apply]
  | flush h =>
    cases h with
    | handoff h hx hm => grind [Function.update_apply]
    | release h => grind [Function.update_apply]
    | _ => exact hg

theorem Snapshots.reading (hs : Snapshots own refs s) {r : SnapshotRef} (h : r ∈ refs) :
    0 < (s.slots r.slot).readers := by
  rw [hs.counted]
  exact List.countP_pos_iff.mpr ⟨r, h, by simp⟩

theorem Snapshots.trans (h : Trans cfg own s own' s') (hp : Places own s) (hr : Refs own s)
    (hs : Snapshots own refs s)
    (hread : ∀ g, (s'.slots g).readers = (s.slots g).readers) : Snapshots own' refs s' where
  counted g := (hread g).trans (hs.counted g)
  unchecked r hmem hc := (hs.unchecked r hmem hc).trans h hp hr (hs.reading hmem)

theorem Snapshots.fail {t : ℕ} {added : List (SlotIdx × SegmentId × ℕ)}
    (h : FailTrans cfg t own s own' s' added) (hp : Places own s)
    (hs : Snapshots own refs s) : Snapshots own' refs s' := by
  obtain ⟨hc, hu⟩ := hs
  cases h with
  | insert h => exact ⟨hc, hu⟩
  | allocate h =>
    have hcur := own_allocate hp h
    exact ⟨hc, by grind⟩
  | register h =>
    obtain ⟨hnew, hcur⟩ := own_register hp h
    refine ⟨fun g => ?_, by grind⟩
    rw [← hc g]
    grind [Function.update_apply]

end Snapshots

theorem kept_fail {cfg : Config} {own own' : SlotIdx → Owner} {s s' : Memtable.State V}
    {t : ℕ} {added : List (SlotIdx × SegmentId × ℕ)} (h : FailTrans cfg t own s own' s' added)
    (hp : Places own s) (hk : Kept own s) : Kept own' s' := by
  cases h with
  | insert h =>
    refine hk.of_keeps (fun t r ht => .inl ?_) (fun g hg => .inl ⟨hg, Keeps.refl _⟩) fun m hm => hm
    grind
  | allocate h => exact hk.rotate (rotated_allocate hp h)
  | register h => exact hk.rotate (rotated_register hp h)

section Inv

variable {cfg : Config} {own : SlotIdx → Owner} {x x' : State V}

theorem Inv.trans {own' : SlotIdx → Owner} {s' : Memtable.State V} {refs' : List SnapshotRef}
    (hi : Inv own x) (h : Trans cfg own x.base own' s') (hsn : Snapshots own' refs' s') :
    Inv own' ⟨s', refs', x.failed⟩ where
  locks := hi.locks.trans h
  places := hi.places.trans h hi.locks hi.refs
  refs := hi.refs.trans h hi.places
  claims := hi.claims.trans h hi.places hi.refs
  slots := hi.slots.trans h hi.locks hi.places hi.refs hi.claims
  names := hi.names.trans h hi.places hi.refs
  kept := hi.kept.trans h hi.places hi.refs hi.slots
  history := hi.history.trans h hi.locks hi.places hi.refs hi.claims hi.slots
  accounted := hi.accounted.trans h hi.places hi.refs
  snapshots := hsn

theorem Inv.fail {own' : SlotIdx → Owner} {t : ℕ} {added : List (SlotIdx × SegmentId × ℕ)}
    (hi : Inv own x) (h : FailTrans cfg t own x.base own' x'.base added)
    (hf : x'.failed = added ++ x.failed) (hr : x'.refs = x.refs) : Inv own' x' where
  locks := locks_fail h hi.locks
  places := places_fail h hi.places
  refs := refs_fail h hi.places hi.refs
  claims := claims_fail h hi.places hi.claims
  slots := slots_fail h hi.places hi.claims hi.slots
  names := names_fail h hi.places hi.names
  kept := kept_fail h hi.places hi.kept
  history := hf ▸ hi.history.fail h hi.places hi.claims hi.slots hi.names
  accounted := hf ▸ hi.accounted.fail h hi.places
  snapshots := hr ▸ hi.snapshots.fail h hi.places

/-- A step of the machine without errors, other than one of a search. -/
theorem step_act {a : Memtable.Action V} (h : step cfg x (.act a) = some x') :
    ∃ s', Memtable.step cfg x.base a = some s' ∧ x' = x.setBase s' ∧
      ∀ g, (s'.slots g).readers = (x.base.slots g).readers := by
  cases a with
  | acquire | unref => cases h
  | _ =>
      obtain ⟨s', hs, rfl⟩ := Option.map_eq_some_iff.mp h
      exact ⟨s', hs, rfl, readers_of_step hs nofun nofun⟩

theorem step_acquire {g : SlotIdx} (h : step cfg x (.acquire g) = some x') :
    (x.base.growingIdx = .slot g ∨ g ∈ x.base.memtableIdxs) ∧
      ReaderTrans x.base x'.base ∧ x'.failed = x.failed ∧
      x'.refs = ⟨g, decide (x.base.growingIdx = .slot g)⟩ :: x.refs ∧
      x'.base = x.base.setSlot g { x.base.slots g with
        refCount := (x.base.slots g).refCount + 1
        readers := (x.base.slots g).readers + 1 } := by
  obtain ⟨s', hs, rfl⟩ := Option.map_eq_some_iff.mp h
  simp only [readerStep] at hs
  split at hs <;> cases hs
  exact ⟨‹_›, .acquire ‹_›, rfl, rfl, rfl⟩

theorem step_unref {r : SnapshotRef} (h : step cfg x (.unref r) = some x') :
    r ∈ x.refs ∧ ReaderTrans x.base x'.base ∧ x'.failed = x.failed ∧
      x'.refs = x.refs.erase r ∧
      x'.base = x.base.setSlot r.slot { x.base.slots r.slot with
        refCount := (x.base.slots r.slot).refCount - 1
        readers := (x.base.slots r.slot).readers - 1 } := by
  simp only [step] at h
  split at h
  case isFalse => cases h
  case isTrue hmem =>
    obtain ⟨s', hs, rfl⟩ := Option.map_eq_some_iff.mp h
    simp only [readerStep] at hs
    split at hs <;> cases hs
    exact ⟨hmem, .unref ‹_›, rfl, rfl, rfl⟩

theorem Inv.acquire {g : SlotIdx} (hi : Inv own x) (h : step cfg x (.acquire g) = some x') :
    Inv own x' := by
  obtain ⟨hg, ht, hf, hr, hb⟩ := step_acquire h
  obtain ⟨hc, hu⟩ := hi.snapshots
  have hsn : Snapshots own x'.refs x'.base := by
    rw [hr, hb]
    refine ⟨fun g' => ?_, fun r hmem hcheck => ?_⟩
    · by_cases hgg : g' = g <;> simp [hc, hgg, eq_comm]
    · rcases List.mem_cons.mp hmem with rfl | hmem
      · have hq := hg.resolve_left (of_decide_eq_false hcheck)
        simp [(hi.places.queued g).2 hq]
      · exact hu r hmem hcheck
  have := hi.trans (Trans.reader ht : Trans cfg own x.base own x'.base) hsn
  rwa [← hf] at this

theorem Inv.unref {r : SnapshotRef} (hi : Inv own x) (h : step cfg x (.unref r) = some x') :
    Inv own x' := by
  obtain ⟨hmem, ht, hf, hr, hb⟩ := step_unref h
  obtain ⟨hc, hu⟩ := hi.snapshots
  have hsn : Snapshots own x'.refs x'.base := by
    rw [hr, hb]
    refine ⟨fun g' => ?_, fun r' hmem' => hu r' (List.mem_of_mem_erase hmem')⟩
    rw [List.countP_erase]
    by_cases hgg : g' = r.slot <;> simp [hc, hgg, hmem, eq_comm]
  have := hi.trans (Trans.reader ht : Trans cfg own x.base own x'.base) hsn
  rwa [← hf] at this

theorem Inv.step {a : Action V} (hi : Inv own x) (h : step cfg x a = some x') :
    ∃ own', Inv own' x' := by
  cases a with
  | act a =>
      obtain ⟨s', hs, rfl, hread⟩ := step_act h
      obtain ⟨own', ht, -⟩ := step_trans own hs
      exact ⟨own', hi.trans ht (hi.snapshots.trans ht hi.places hi.refs hread)⟩
  | fail t =>
      obtain ⟨own', added, ht, hf, hr⟩ := failInsert_trans own h
      exact ⟨own', hi.fail ht hf hr⟩
  | acquire g => exact ⟨own, hi.acquire h⟩
  | unref r => exact ⟨own, hi.unref h⟩

theorem inv_exec {as : List (Action V)} (hi : Inv own x)
    (h : exec (Failures.step cfg) x as = some x') : ∃ own', Inv own' x' := by
  induction as generalizing x own with
  | nil =>
      obtain rfl := Option.some.inj h
      exact ⟨own, hi⟩
  | cons a as ih =>
      obtain ⟨y, hy, h⟩ := Option.bind_eq_some_iff.mp h
      obtain ⟨own', hi'⟩ := hi.step hy
      exact ih hi' h

end Inv

/-- What an index with no call in progress has besides `Loaded`. -/
structure Tidy (s : Memtable.State V) : Prop where
  ahead : ∀ g, s.growingIdx = .slot g ∨ g ∈ s.memtableIdxs → PrefixReady (s.mt g)
  isSealed : ∀ g ∈ s.memtableIdxs, (s.mt g).isSealed = true
  held : ∀ g, s.growingIdx = .slot g ∨ g ∈ s.memtableIdxs → (s.slots g).refCount = 1
  free : ∀ g, (s.slots g).foreign = false → s.growingIdx ≠ .slot g → g ∉ s.memtableIdxs →
    (s.slots g).refCount = 0

section Start

variable {cfg : Config} {pages : StatusPages V} {s s' : Memtable.State V}

theorem PrefixReady.recoverRows {m : ConcurrentMemTable V} (h : PrefixReady m)
    (rs : List (Row V)) : PrefixReady (rs.foldl recoverRow m) := by
  induction rs generalizing m with
  | nil => exact h
  | cons r rs ih => exact ih (PrefixReady.publishSlotRelease (m := { m.bump with
      rows := Function.update m.rows m.currentSize r }) h m.currentSize)

theorem tidy_empty {slots : SlotIdx → MemtableBufferSlot V} (hu : Unregistered slots) :
    Tidy (State.empty slots) where
  ahead := by simp [State.empty]
  isSealed := by simp [State.empty]
  held := by simp [State.empty]
  free g hf _ _ := by
    by_contra hne
    exact absurd ((hu g).2.mpr (Nat.pos_of_ne_zero hne)) (by simpa [State.empty] using hf)

theorem Tidy.add (ht : Tidy s) {g : SlotIdx} {m : ConcurrentMemTable V}
    (hfree : (s.slots g).refCount = 0) (hm : PrefixReady m) {idx : GrowingIdx}
    {idxs : List SlotIdx} {id next : SegmentId}
    (hin : (idx = .slot g ∧ s.growingIdx = .invalid ∧ idxs = s.memtableIdxs) ∨
      (idx = s.growingIdx ∧ idxs = s.memtableIdxs ++ [g] ∧ m.isSealed = true))
    (hs : s' = (((s.setSlot g { s.slots g with refCount := 1, mt := m }).setGrowing idx id).setQueue
      idxs).setNextId next) : Tidy s' := by
  subst hs
  obtain ⟨ha, hse, hh, hf⟩ := ht
  rcases hin with ⟨rfl, hi, rfl⟩ | ⟨rfl, rfl, hm'⟩ <;> constructor <;>
    grind [Function.update_apply]

theorem tidy_build {slots : SlotIdx → MemtableBufferSlot V} (hu : Unregistered slots)
    (h : buildLsmIndex cfg slots = some s) : Tidy s := by
  obtain ⟨⟨s', g⟩, ha, rfl⟩ := Option.map_eq_some_iff.mp h
  obtain ⟨hfree, rfl⟩ := allocate_eq ha
  exact (tidy_empty hu).add hfree (prefixReady_register _ _ _ _) (.inl ⟨rfl, rfl, rfl⟩) rfl

theorem Tidy.recoverMemtable {bound sid : SegmentId} (ht : Tidy s)
    (hr : Recovering pages s bound) (hb : bound ≤ sid) (hg : sid ≤ pages.growingSid)
    (h : recoverMemtable cfg pages s sid = some s') : Tidy s' := by
  unfold Memtable.recoverMemtable at h
  split at h
  · cases h
    exact ht
  · obtain ⟨⟨u, g⟩, ha, h⟩ := Option.bind_eq_some_iff.mp h
    obtain ⟨hfree, rfl⟩ := allocate_eq ha
    have hinv : s.growingIdx = .invalid := by
      by_contra hne
      have := hr.last hne
      lia
    have hm := (prefixReady_register (s.mt g) cfg.rel sid cfg.capacity).recoverRows
      (pages.rows sid)
    simp only [State.setSlot_mt, if_true, State.setSlot_setMt] at h
    split at h
    · cases h
      exact ht.add hfree hm (.inl ⟨rfl, hinv, rfl⟩) rfl
    · split at h <;> cases h
      exact ht.add hfree ((prefixReady_setSealed _).mpr hm) (.inr ⟨rfl, rfl, rfl⟩) rfl

theorem Tidy.foldlM {sids : List SegmentId} {bound : SegmentId} (ht : Tidy s)
    (hr : Recovering pages s bound) (hasc : sids.Pairwise (· < ·))
    (hb : ∀ sid ∈ sids, bound ≤ sid) (hg : ∀ sid ∈ sids, sid ≤ pages.growingSid)
    (h : sids.foldlM (Memtable.recoverMemtable cfg pages) s = some s') : Tidy s' := by
  induction sids generalizing s bound with
  | nil =>
      cases h
      exact ht
  | cons sid sids ih =>
      obtain ⟨u, hu, h⟩ := Option.bind_eq_some_iff.mp h
      have hbs := hb sid List.mem_cons_self
      have hgs := hg sid List.mem_cons_self
      obtain ⟨b, hle, hru⟩ := hr.step hbs hgs hu
      obtain ⟨hlt, hasc⟩ := List.pairwise_cons.mp hasc
      exact ih (ht.recoverMemtable hr hbs hgs hu) hru hasc (fun x hx => hle.trans (hlt x hx))
        (fun x hx => hg x (List.mem_cons_of_mem _ hx)) h

theorem tidy_recover {slots : SlotIdx → MemtableBufferSlot V} (hu : Unregistered slots)
    (hp : pages.Ordered) (h : recoverLsmIndex cfg pages slots = some s) : Tidy s := by
  obtain ⟨u, hfold, h⟩ := Option.bind_eq_some_iff.mp h
  have hr : Recovering pages (State.empty slots) 0 :=
    ⟨loaded_empty hu, fun hne => absurd rfl hne⟩
  have ht := (tidy_empty hu).foldlM hr hp.ascending (fun _ _ => Nat.zero_le _) hp.growing hfold
  split at h
  · obtain ⟨last, -, rfl⟩ := Option.map_eq_some_iff.mp h
    exact ⟨ht.ahead, ht.isSealed, ht.held, ht.free⟩
  · cases h
    exact ht

theorem tidy_start (h : Start cfg s) : Tidy s := by
  cases h with
  | build hu h => exact tidy_build hu h
  | recover hu hp h => exact tidy_recover hu hp h

theorem inv_begin (h : Start cfg s) : Inv (startOwner s) (begin s) := by
  obtain ⟨bound, hl, hb⟩ := h.loaded
  have hi := hl.inv hb
  have ht := tidy_start h
  have hpresent := fun g => startOwner_ne_nobody (s := s) (g := g)
  constructor
  case locks => exact hi.locks
  case places => exact hi.places
  case refs => exact hi.refs
  case claims => exact hi.claims
  case slots => exact hi.slots
  case names => exact hi.names
  case kept => exact hi.kept
  case history =>
    have hread := hl.readers
    have hidle := hl.idleFlush
    have hahead := ht.ahead
    have hsealed := ht.isSealed
    constructor <;> simp only [begin] <;> grind [Tended, startOwner]
  case accounted =>
    intro g i hg hi
    have hfill := (hl.present g (hpresent g fun h => by simp [h] at hg)).2.2.1
    exact .inl (hfill.ready i (hi.trans_le (Nat.min_le_left _ _)))
  case snapshots => exact ⟨fun g => hl.readers g, fun _ hmem => absurd hmem List.not_mem_nil⟩

end Start

section Schedule

variable {cfg : Config} {as : List (Action V)} {x : State V}

/-- The insert an action is a step of. -/
def Action.insert? : Action V → Option ℕ
  | .act a => a.insert?
  | .fail t => some t
  | .acquire _ | .unref _ => none

theorem step_ins_of_ne {y : State V} {a : Action V} {u : ℕ} (hne : a.insert? ≠ some u)
    (h : step cfg x a = some y) : y.base.ins u = x.base.ins u := by
  cases a with
  | act a =>
      obtain ⟨s', hs, rfl, -⟩ := step_act h
      exact Memtable.step_ins_of_ne hne hs
  | fail t =>
      obtain ⟨own', added, ht, -⟩ := failInsert_trans (fun _ => .nobody) h
      have hut : u ≠ t := fun h => hne (congrArg some h.symm)
      generalize hb : y.base = s' at ht
      cases ht <;> simp [hut]
  | acquire g =>
      obtain ⟨-, -, -, -, hb⟩ := step_acquire h
      rw [hb]
      rfl
  | unref r =>
      obtain ⟨-, -, -, -, hb⟩ := step_unref h
      rw [hb]
      rfl

theorem exec_ins_of_ne {y : State V} {u : ℕ} (hne : ∀ a ∈ as, a.insert? ≠ some u)
    (h : exec (step cfg) x as = some y) : y.base.ins u = x.base.ins u := by
  induction as generalizing x with
  | nil => exact congrArg (fun x => x.base.ins u) (Option.some.inj h).symm
  | cons a as ih =>
      obtain ⟨v, hv, h⟩ := Option.bind_eq_some_iff.mp h
      rw [ih (fun b hb => hne b (List.mem_cons_of_mem _ hb)) h,
        step_ins_of_ne (hne a List.mem_cons_self) hv]

/-- The steps of insert `t`. -/
def demoRun (t n : ℕ) : List (Action Unit) :=
  .act (.call t demoRow) :: List.replicate n (.act (.ins t))

end Schedule

end VectorLsm.Failures
