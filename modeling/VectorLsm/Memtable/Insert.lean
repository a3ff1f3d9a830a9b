import VectorLsm.Memtable.Start

/-! # Inserts

The invariant of the memtables holds in every state reached by rotations that look at the
growing index they replace, and it says that no returned insert is lost.
-/

namespace VectorLsm.Memtable

open ConcurrentMemTable Transition

variable {V : Type*}

/-- The invariant of the memtables of one index. -/
structure Inv (own : SlotIdx → Owner) (s : State V) : Prop where
  locks : Locks s
  places : Places own s
  refs : Refs own s
  claims : Claims own s
  slots : Slots own s
  names : Names own s
  writers : Writers own s
  kept : Kept own s

theorem Inv.trans {cfg : Config} {own own' : SlotIdx → Owner} {s s' : State V}
    (h : Trans cfg own s own' s') (hi : Inv own s) : Inv own' s' where
  locks := hi.locks.trans h
  places := hi.places.trans h hi.locks hi.refs
  refs := hi.refs.trans h hi.places
  claims := hi.claims.trans h hi.places hi.refs
  slots := hi.slots.trans h hi.locks hi.places hi.refs hi.claims
  names := hi.names.trans h hi.places hi.refs
  writers := hi.writers.trans h hi.places hi.refs hi.slots
  kept := hi.kept.trans h hi.places hi.refs hi.slots

/-- The owners in a state with no call in progress. -/
def startOwner (s : State V) (g : SlotIdx) : Owner :=
  if s.growingIdx = .slot g then .growing else if g ∈ s.memtableIdxs then .queued else .nobody

theorem startOwner_ne_nobody {s : State V} {g : SlotIdx} (h : startOwner s g ≠ .nobody) :
    s.growingIdx = .slot g ∨ g ∈ s.memtableIdxs := by
  unfold startOwner at h
  grind

theorem Loaded.inv {s : State V} {bound : SegmentId} (hl : Loaded s bound)
    (hb : bound ≤ s.nextSegmentId) : Inv (startOwner s) s := by
  have hlive : ∀ g, (startOwner s g).Live → s.growingIdx = .slot g ∨ g ∈ s.memtableIdxs :=
    fun g hg => startOwner_ne_nobody fun h => by simp [h] at hg
  have hpr := hl.present
  have hwriter : ∀ g, (startOwner s g).Live → ∀ i, (s.mt g).writer i = none :=
    fun g hg => (hpr g (hlive g hg)).2.2.1.writer
  constructor
  case locks =>
    constructor <;> simp [hl.idle, hl.shared]
  case places =>
    have hap := hl.apart
    have hid := hl.idle
    have hif := hl.idleFlush
    refine ⟨?_, ?_, hl.nodup, ?_, ?_, ?_, ?_⟩ <;> grind [startOwner]
  case refs =>
    have hre := hl.readers
    have hfo := hl.foreign
    have hown := fun g => startOwner_ne_nobody (s := s) (g := g)
    constructor <;> grind
  case claims => constructor <;> simp [hl.idleFlush]
  case slots =>
    refine ⟨fun g hg => (hpr g (hlive g hg)).2.2.1.counted, ?_, ?_, ?_, ?_, ?_⟩ <;>
      simp only [hl.idle, hl.idleFlush, startOwner] <;> grind
  case names =>
    refine ⟨fun g hg => (hpr g (hlive g hg)).2.2.2.trans_le hb,
      fun g g' hg hg' => hl.names g g' (hlive g hg) (hlive g' hg'), ?_, ?_, ?_⟩ <;>
      simp [hl.handed]
  case writers =>
    have hh := hl.handed
    constructor <;> grind
  case kept =>
    intro t r ht
    simp [hl.idle] at ht

theorem Start.inv {cfg : Config} {s : State V} (h : Start cfg s) : ∃ own, Inv own s := by
  obtain ⟨bound, hl, hb⟩ := h.loaded
  exact ⟨_, hl.inv hb⟩

theorem noOrphan_startOwner (s : State V) : NoOrphan (startOwner s) := by
  intro g
  unfold startOwner
  split_ifs <;> simp

theorem Inv.step {cfg : Config} {own : SlotIdx → Owner} {s s' : State V} {a : Action V}
    (hi : Inv own s) (hs : step cfg s a = some s') : ∃ own', Inv own' s' := by
  obtain ⟨own', ht, -⟩ := step_trans own hs
  exact ⟨own', hi.trans ht⟩

/-- The invariant holds in every reachable state. -/
theorem inv_of_reachable {cfg : Config} {ok : State V → Action V → Prop} {s : State V}
    (h : Reachable (Start cfg) (step cfg) ok s) : ∃ own, Inv own s :=
  h.invariant (P := fun s => ∃ own, Inv own s) (fun _ => Start.inv)
    fun _ _ _ _ ⟨_, hi⟩ _ hs => hi.step hs

/-- Rotations that enter on a growing index they have looked at drop no memtable. -/
theorem noOrphan_of_reachable {cfg : Config} {s : State V}
    (h : Reachable (Start cfg) (step cfg) EntersEmpty s) : ∃ own, Inv own s ∧ NoOrphan own := by
  refine h.invariant (P := fun s => ∃ own, Inv own s ∧ NoOrphan own) ?_ ?_
  · rintro s hs
    obtain ⟨bound, hl, hb⟩ := hs.loaded
    exact ⟨_, hl.inv hb, noOrphan_startOwner s⟩
  · rintro s a s' - ⟨own, hi, ho⟩ hok hs
    obtain ⟨own', ht, ho'⟩ := step_trans own hs
    exact ⟨own', hi.trans ht, ho' hok ho⟩

/-- Slot `g` is in exactly one of the places a memtable can be before it is handed off: the
growing one, the queue, or one rotation. -/
def Placed (s : State V) (g : SlotIdx) : Prop :=
  (s.growingIdx = .slot g ∧ g ∉ s.memtableIdxs ∧ ∀ t, (s.ins t).outgoing ≠ some g) ∨
  (s.growingIdx ≠ .slot g ∧ s.memtableIdxs.count g = 1 ∧ ∀ t, (s.ins t).outgoing ≠ some g) ∨
  (s.growingIdx ≠ .slot g ∧ g ∉ s.memtableIdxs ∧ ∃! t, (s.ins t).outgoing = some g)

/-- A memtable of the index: placed, or already handed off by a flush. -/
def HasMemtable (s : State V) (m : ConcurrentMemTable V) : Prop :=
  (∃ g, Placed s g ∧ s.mt g = m) ∨ m ∈ s.handedOff

/-- Each returned insert has its row in exactly one published slot of exactly one memtable. -/
def NoInsertLost (s : State V) : Prop :=
  ∀ t r, s.ins t = .returned r →
    (∃ m i, HasMemtable s m ∧ Holds m t r i) ∧
      ∀ m m' i i', HasMemtable s m → HasMemtable s m' → m.writer i = some t →
        m'.writer i' = some t → m = m' ∧ m.memtableId = m'.memtableId ∧ i = i'

theorem Places.placed_iff {own : SlotIdx → Owner} {s : State V} (hp : Places own s)
    (g : SlotIdx) :
    Placed s g ↔ own g = .growing ∨ own g = .queued ∨ ∃ t, own g = .rotation t := by
  obtain ⟨hg, hq, hn, ho, -, -, -⟩ := hp
  have hcount : s.memtableIdxs.count g = 1 ↔ g ∈ s.memtableIdxs := by
    rw [hn.count]
    split <;> simp_all
  rw [Placed, hcount]
  simp only [ne_eq, ← hg, ← hq, ← ho]
  constructor
  · rintro (⟨h, -⟩ | ⟨-, h, -⟩ | ⟨-, -, t, h, -⟩)
    · exact .inl h
    · exact .inr (.inl h)
    · exact .inr (.inr ⟨t, h⟩)
  · rintro (h | h | ⟨t, h⟩) <;> simp [h, ExistsUnique]

theorem Places.holds_placed {own : SlotIdx → Owner} {s : State V} (hp : Places own s)
    (hs : Slots own s) (hno : NoOrphan own) {g : SlotIdx} (hg : (own g).Live) {t : ℕ} {r : Row V}
    {i : ℕ} (h : Holds (s.mt g) t r i) : Placed s g := by
  rw [hp.placed_iff]
  cases ho : own g with
  | growing => exact .inl rfl
  | queued => exact .inr (.inl rfl)
  | rotation t => exact .inr (.inr ⟨t, rfl⟩)
  | fresh u =>
      -- A memtable that is not installed yet has no slot handed out.
      have hv := h.valid
      simp [validSize, hs.fresh u g ho] at hv
  | orphan => exact absurd ho (hno g)
  | nobody | building _ | unlinked _ => simp [ho] at hg

theorem Inv.live_of_placed {own : SlotIdx → Owner} {s : State V} (hi : Inv own s) {g : SlotIdx}
    (h : Placed s g) : (own g).Live := by
  rcases (hi.places.placed_iff g).1 h with h | h | ⟨t, h⟩ <;> simp [h]

theorem Inv.noInsertLost {own : SlotIdx → Owner} {s : State V} (hi : Inv own s)
    (hno : NoOrphan own) : NoInsertLost s := by
  have hw := hi.writers
  intro t r ht
  refine ⟨?_, ?_⟩
  · rcases hi.kept t r ht with ⟨g, i, hg, h⟩ | ⟨m, hm, i, h⟩
    · exact ⟨_, i, .inl ⟨g, hi.places.holds_placed hi.slots hno hg h, rfl⟩, h⟩
    · exact ⟨m, i, .inr hm, h⟩
  · rintro m m' i i' (⟨g, hg, rfl⟩ | hm) (⟨g', hg', rfl⟩ | hm') h h'
    · obtain ⟨rfl, rfl⟩ := hw.liveLive g g' i i' t (hi.live_of_placed hg) (hi.live_of_placed hg')
        h h'
      exact ⟨rfl, rfl, rfl⟩
    · exact absurd h' (hw.liveHanded g m' hm' i i' t (hi.live_of_placed hg) h)
    · exact absurd h (hw.liveHanded g' m hm i' i t (hi.live_of_placed hg') h')
    · obtain ⟨rfl, rfl⟩ := hw.handedHanded m hm m' hm' i i' t h h'
      exact ⟨rfl, rfl, rfl⟩

/-- No inserted row is lost, in every run whose rotations without `need_enqueue` enter only
while there is no growing memtable. -/
theorem insert_not_lost {cfg : Config} {s : State V}
    (h : Reachable (Start cfg) (step cfg) EntersEmpty s) : NoInsertLost s := by
  obtain ⟨own, hi, hno⟩ := noOrphan_of_reachable h
  exact hi.noInsertLost hno

section Schedule

/-- A free buffer slot with zeroed memory. -/
def zeroSlot (r : Row V) : MemtableBufferSlot V where
  refCount := 0
  mt := {
    rel := 0, memtableId := 0, capacity := 0, currentSize := 0, readyCnt := 0
    isSealed := false, flushClaimed := false, maxReadyId := none
    rows := fun _ => r, bitmap := fun _ => false, ready := fun _ => false
    writer := fun _ => none }
  readers := 0
  foreign := false
  vacuumShared := ∅
  vacuumExclusive := false

theorem unregistered_zeroSlot (r : Row V) : Unregistered fun _ => zeroSlot r :=
  fun _ => ⟨rfl, by simp [zeroSlot]⟩

def demoRow : Row Unit := ⟨7, ()⟩

def demoConfig : Config := ⟨1, 2⟩

/-- A directory that covers the only unreleased memtable: recovery leaves no growing one. -/
def flushedPages : StatusPages Unit := ⟨4, [4], 4, fun _ => []⟩

/-- Two inserts read `MT_IDX_INVALID`; the second rotates after the first has returned. -/
def twoRotations : List (Action Unit) :=
  [.call 1 demoRow, .call 2 demoRow, .ins 1, .ins 2, .ins 1, .alloc 1 0, .ins 1, .ins 1,
    .ins 1, .ins 1, .ins 1, .ins 1, .ins 1, .ins 1, .ins 2, .alloc 2 1, .ins 2, .ins 2]

theorem insertStep_ins_of_ne {cfg : Config} {s s' : State V} {t u : ℕ} (hne : u ≠ t)
    (h : insertStep cfg s t = some s') : s'.ins u = s.ins u := by
  unfold insertStep at h
  grind [Function.update_apply]

/-- The insert an action is a step of. -/
def Action.insert? : Action V → Option ℕ
  | .call t _ | .ins t | .alloc t _ => some t
  | _ => none

theorem step_ins_of_ne {cfg : Config} {s s' : State V} {a : Action V} {u : ℕ}
    (hne : a.insert? ≠ some u) (h : step cfg s a = some s') : s'.ins u = s.ins u := by
  cases a with
  | ins t => exact insertStep_ins_of_ne (fun h => hne (congrArg some h.symm)) h
  | _ =>
      simp only [step, allocStep, claimStep, flushStep, failFlush, readerStep] at h
      grind [Action.insert?, Function.update_apply]

theorem exec_ins_of_ne {cfg : Config} {s s' : State V} {as : List (Action V)} {u : ℕ}
    (hne : ∀ a ∈ as, a.insert? ≠ some u) (h : exec (step cfg) s as = some s') :
    s'.ins u = s.ins u := by
  induction as generalizing s with
  | nil => exact congrArg (State.ins · u) (Option.some.inj h).symm
  | cons a as ih =>
      obtain ⟨v, hv, h⟩ := Option.bind_eq_some_iff.mp h
      rw [ih (fun b hb => hne b (List.mem_cons_of_mem _ hb)) h,
        step_ins_of_ne (hne a List.mem_cons_self) hv]

/-- After `twoRotations` the memtable with the row of insert 1 is in no place. -/
theorem insert_can_be_lost : ¬ ∀ (cfg : Config) (s : State Unit),
    Reachable (Start cfg) (step cfg) anyStep s → NoInsertLost s := by
  intro hall
  obtain ⟨s, hrec, s', hrun, hidle, hgrow, hqueue, hhand, hret, hnew, hpc⟩ : ∃ s,
      recoverLsmIndex demoConfig flushedPages (fun _ => zeroSlot demoRow) = some s ∧ ∃ s',
        exec (step demoConfig) s twoRotations = some s' ∧ s.ins = (fun _ => .idle) ∧
        s'.growingIdx = .slot 1 ∧ s'.memtableIdxs = [] ∧ s'.handedOff = [] ∧
        s'.ins 1 = .returned demoRow ∧ (s'.mt 1).writer = (fun _ => none) ∧
        s'.ins 2 = .loop demoRow :=
    ⟨_, rfl, _, rfl, rfl, rfl, rfl, rfl, rfl, rfl, rfl⟩
  have hstart : Start demoConfig s :=
    .recover (unregistered_zeroSlot _) ⟨by decide, by decide⟩ hrec
  have hout : ∀ u, (s'.ins u).outgoing = none := by
    intro u
    rcases eq_or_ne u 1 with rfl | h1
    · rw [hret]
      rfl
    rcases eq_or_ne u 2 with rfl | h2
    · rw [hpc]
      rfl
    rw [exec_ins_of_ne (by simp [twoRotations, Action.insert?, h1.symm, h2.symm]) hrun, hidle]
    rfl
  obtain ⟨⟨m, i, hm, hh⟩, -⟩ :=
    hall _ _ ((Reachable.start hstart).of_exec (meets_anyStep _) hrun) 1 demoRow hret
  rcases hm with ⟨g, ⟨h, -⟩ | ⟨-, h, -⟩ | ⟨-, -, t, h, -⟩, rfl⟩ | hm
  · -- The growing memtable is the second rotation's, which no insert has written.
    obtain rfl : 1 = g := GrowingIdx.slot.inj (hgrow.symm.trans h)
    have hw := hh.writer
    rw [hnew] at hw
    cases hw
  · simp [hqueue] at h
  · rw [hout] at h
    cases h
  · simp [hhand] at hm

/-- One insert on a freshly built index. -/
def oneInsert : List (Action Unit) :=
  .call 1 demoRow :: List.replicate 6 (.ins 1)

theorem insert_not_lost_oneInsert : ∃ s s',
    buildLsmIndex demoConfig (fun _ => zeroSlot demoRow) = some s ∧
      exec (step demoConfig) s oneInsert = some s' ∧ s'.ins 1 = .returned demoRow ∧
      NoInsertLost s' := by
  obtain ⟨s, hbuild, s', hrun, hret, hmeets⟩ : ∃ s,
      buildLsmIndex demoConfig (fun _ => zeroSlot demoRow) = some s ∧ ∃ s',
        exec (step demoConfig) s oneInsert = some s' ∧ s'.ins 1 = .returned demoRow ∧
        Meets EntersEmpty (step demoConfig) s oneInsert :=
    ⟨_, rfl, _, rfl, rfl, by decide⟩
  have hstart : Start demoConfig s := .build (unregistered_zeroSlot _) hbuild
  exact ⟨s, s', hbuild, hrun, hret,
    insert_not_lost ((Reachable.start hstart).of_exec hmeets hrun)⟩

end Schedule

end VectorLsm.Memtable
