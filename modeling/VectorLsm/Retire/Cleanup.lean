import VectorLsm.Retire.Replaced

/-! # One clean-up for each retired segment

The count of a slot is the reference of the list and those held outside it. A clean-up follows
the one decrement that leaves zero, as long as no other drop is then between its subtraction
and its test.
-/

namespace VectorLsm.Retire

open FlushedSegmentPool Transition

/-- Every clean-up found a segment in use that was replaced and that nobody held; every replaced
segment has had one clean-up, or has none yet and somebody is still to test its count. -/
structure CleanedOnce (s : State) : Prop where
  proper : ∀ c ∈ s.cleanups, c.inUsed = true ∧ c.retired = true ∧ c.held = 0
  once : ∀ g, s.retirements g = s.cleanups.countP (fun c => c.idx = g) +
    if s.retired g = true ∧ (s.pool.seg g).inUsed = true then 1 else 0
  pending : ∀ g, s.retired g = true → (s.pool.seg g).inUsed = true → s.held g = 0 →
    0 < s.dropping g ∨ ∃ w, s.writer = some w ∧ g ∈ w.todo
  unlinked : s.writer = none → ∀ g, s.retired g = true → g ∉ s.pool.members

/-- The condition on a step: a decrement that leaves zero finds no other drop of the slot between
its subtraction and its test, and what is replaced is a run of the list. -/
def Orderly (s : State) : Action → Prop
  | .drop g => (s.pool.seg g).refCount = 1 → s.dropping g = 0
  | .writerDrop => ∀ w ∈ s.writer, ∀ g ∈ w.todo.head?,
      (s.pool.seg g).refCount = 1 → s.dropping g = 0
  | .replace olds _ => olds <:+: s.pool.members
  | .upgrade u => Pool.upgradable s.pool u → u.segmentIdx ∈ s.pool.members
  | _ => True

instance (s : State) (a : Action) : Decidable (Orderly s a) := by
  cases a <;> unfold Orderly <;> infer_instance

variable {cfg : PoolConfig} {s s' : State} {l : List ℕ} {a : Action} {g : ℕ}

theorem Inv.cleanedOnce (h : Inv s l) : CleanedOnce s where
  proper := h.proper
  once := h.once
  pending := by
    intro g hret hu hheld
    by_cases hgl : g ∈ l
    · obtain ⟨w, hw, hg⟩ := (h.live g hgl).mp hret
      rcases List.mem_append.mp hg with hd | ht
      · have hz : (s.pool.seg g).refCount = 0 := by
          have htk : Taken s g := ⟨w, hw, hd⟩
          rw [h.counts g, if_neg (fun hn => hn.2 htk), hheld]
          rfl
        have := h.last g hu hz fun hr => h.resOutside g hr hgl
        exact Or.inl (by lia)
      · exact Or.inr ⟨w, hw, ht⟩
    · have hz : (s.pool.seg g).refCount = 0 := by
        rw [h.counts g, if_neg (fun hn => hgl hn.1), hheld]
        rfl
      have hr : g ∉ s.reserved := fun hr => by simp [h.resLive g hr] at hret
      have := h.last g hu hz hr
      exact Or.inl (by lia)
  unlinked := by
    intro hw g hret hg
    rw [(h.linked hw).members] at hg
    obtain ⟨w, hw', -⟩ := (h.live g hg).mp hret
    simp [hw] at hw'

theorem inv_initial : Inv
    ⟨.initial, none, [], fun _ => 0, fun _ => 0, fun _ => false, fun _ => 0, []⟩ [] := by
  have hu : ∀ g, (FlushedSegmentPool.initial.seg g).inUsed = false := fun _ => rfl
  constructor
  case chain => exact ⟨fun _ => none, fun _ => none, trivial, by simp⟩
  case counts =>
    intro g
    simp [seg, FlushedSegmentPool.initial, FlushedSegment.initial]
  case head | tail => rfl
  all_goals simp [hu]

/-- The sound states: those with a list. -/
def Sound (s : State) : Prop := ∃ l, Inv s l

namespace Sound

theorem upgrade (h : Inv s l) (hw : s.writer = none) {u : Pool.UpgradeTask} {idx : ℕ}
    {pool : FlushedSegmentPool} (hres : s.pool.reserve = some (idx, pool))
    (hu : u.segmentIdx ∈ s.pool.members) :
    Sound ((s.reserve idx (pool.setSeg idx
      ((pool.seg idx).fill (Pool.upgradeMetadata (s.pool.seg u.segmentIdx))))).replace cfg
        [u.segmentIdx] idx) := by
  have hr := h.reserve hw hres
  have hidx : idx ∈ (s.reserve idx pool).reserved := List.mem_cons_self
  have hfill := hr.write hidx (x := (pool.seg idx).fill
    (Pool.upgradeMetadata (s.pool.seg u.segmentIdx))) (hr.resUsed idx hidx) rfl rfl rfl
  rw [(h.linked hw).members] at hu
  obtain ⟨xs, ys, rfl⟩ := List.append_of_mem hu
  exact ⟨_, hfill.replace cfg hw (by simp) hidx ⟨xs, ys, by simp⟩⟩

theorem step (h : Sound s) (ha : Orderly s a) (hs : Retire.step cfg s a = some s') : Sound s' := by
  obtain ⟨l, h⟩ := h
  cases a with
  | reserve =>
      simp only [Retire.step] at hs
      split at hs
      next hw =>
        split at hs
        next => exact ⟨l, Option.some.inj hs ▸ h⟩
        next idx pool hres => exact ⟨l, Option.some.inj hs ▸ h.reserve hw hres⟩
      next => cases hs
  | load idx m useMmap =>
      simp only [Retire.step] at hs
      split at hs
      next hidx =>
        obtain rfl := Option.some.inj hs
        refine ⟨l, h.write hidx (Pool.inUsed_load m useMmap (h.resUsed idx hidx))
          (Pool.refCount_load m useMmap) ?_ ?_⟩ <;> cases m <;> rfl
      next => cases hs
  | fill idx m =>
      simp only [Retire.step] at hs
      split at hs
      next hidx =>
        obtain rfl := Option.some.inj hs
        exact ⟨l, h.write hidx (h.resUsed idx hidx) rfl rfl rfl⟩
      next => cases hs
  | register idx =>
      simp only [Retire.step] at hs
      split at hs
      next hc =>
        obtain rfl := Option.some.inj hs
        exact h.register cfg hc.1 hc.2
      next => cases hs
  | discard idx =>
      simp only [Retire.step] at hs
      split at hs
      next hc =>
        obtain rfl := Option.some.inj hs
        exact ⟨l, h.discard hc.1 hc.2⟩
      next => cases hs
  | search =>
      simp only [Retire.step] at hs
      split at hs
      next hw =>
        obtain rfl := Option.some.inj hs
        refine ⟨l, h.acquire hw ?_⟩
        intro g hg
        rw [(h.linked hw).membersToTail] at hg
        exact (List.mem_filter.mp hg).1
      next => cases hs
  | pin lo hi =>
      simp only [Retire.step] at hs
      split at hs
      next hw =>
        split at hs
        next => exact ⟨l, Option.some.inj hs ▸ h⟩
        next g hg =>
          obtain rfl := Option.some.inj hs
          refine ⟨l, h.acquire hw ?_⟩
          have := List.mem_of_find?_eq_some hg
          rw [(h.linked hw).membersToTail] at this
          simpa using this
      next => cases hs
  | drop g =>
      simp only [Retire.step] at hs
      split at hs
      next hg =>
        obtain rfl := Option.some.inj hs
        exact ⟨l, h.drop hg ha⟩
      next => cases hs
  | check g lockFree =>
      simp only [Retire.step] at hs
      split at hs
      next hg =>
        obtain rfl := Option.some.inj hs
        refine ⟨l, h.test (by lia) ?_ lockFree⟩
        rintro w b hw hb rfl
        have hone : s.writerTests b = 1 := by simp [State.writerTests, hw, hb]
        lia
      next => cases hs
  | replace olds idx =>
      simp only [Retire.step] at hs
      split at hs
      next hc =>
        obtain rfl := Option.some.inj hs
        refine ⟨l, h.replace cfg hc.1 hc.2.1 hc.2.2 ?_⟩
        have hrun : olds <:+: s.pool.members := ha
        rwa [(h.linked hc.1).members] at hrun
      next => cases hs
  | upgrade u =>
      simp only [Retire.step] at hs
      split at hs
      next hw =>
        split at hs
        next hu =>
          split at hs
          next => exact ⟨l, Option.some.inj hs ▸ h⟩
          next idx pool hres =>
            obtain rfl := Option.some.inj hs
            exact upgrade h hw hres (ha hu)
        next => exact ⟨l, Option.some.inj hs ▸ h⟩
      next => cases hs
  | writerDrop =>
      simp only [Retire.step] at hs
      split at hs
      next idx done g todo p q hw =>
        obtain rfl := Option.some.inj hs
        exact ⟨l, h.writerDrop hw (ha _ hw g rfl)⟩
      next => cases hs
  | writerCheck =>
      simp only [Retire.step] at hs
      split at hs
      next w hw =>
        split at hs
        next g hg =>
          obtain rfl := Option.some.inj hs
          have h' := (h.setTesting hw).test (g := g) (h.testing w g hw hg) (by
            rintro w' b hw' hb -
            obtain rfl := Option.some.inj hw'
            simp at hb) false
          refine ⟨l, ?_⟩
          convert h' using 1
          unfold State.test State.cleanup
          dsimp only
          split <;> rfl
        next => cases hs
      next => cases hs
  | relink =>
      simp only [Retire.step] at hs
      split at hs
      next w hw =>
        split at hs
        next hc =>
          obtain rfl := Option.some.inj hs
          exact h.relink cfg hw hc.1
        next => cases hs
      next => cases hs

/-- One file of an index load is a reservation, a load and a registration. -/
theorem loadOne (cfg : PoolConfig) (h : Inv s l) (hw : s.writer = none)
    (hret : s.retired = fun _ => false) (useMmap : Bool) (m : SegmentMetadata) :
    ∃ l', Inv { s with pool := s.pool.loadOne cfg useMmap m } l' := by
  unfold FlushedSegmentPool.loadOne
  split
  next => exact ⟨l, h⟩
  next idx pool hres =>
    have hr := h.reserve hw hres
    have hidx : idx ∈ (s.reserve idx pool).reserved := List.mem_cons_self
    obtain ⟨l', h'⟩ := (hr.write hidx (x := (pool.seg idx).load (some m) useMmap) rfl rfl rfl
      rfl).register cfg hw hidx
    refine ⟨l', ?_⟩
    convert h' using 1
    simp [State.reserve, hret]

theorem start (h : Start cfg s) : Sound s := by
  obtain ⟨files, useMmap, rfl⟩ := h
  have hload : ∀ (files : List SegmentMetadata) (pool : FlushedSegmentPool) (l : List ℕ),
      Inv ⟨pool, none, [], fun _ => 0, fun _ => 0, fun _ => false, fun _ => 0, []⟩ l →
      Sound ⟨files.foldl (fun pool m => pool.loadOne cfg useMmap m) pool, none, [], fun _ => 0,
        fun _ => 0, fun _ => false, fun _ => 0, []⟩ := by
    intro files
    induction files with
    | nil => exact fun _ l h => ⟨l, h⟩
    | cons m files ih =>
        intro pool l h
        obtain ⟨l', h'⟩ := loadOne cfg h rfl rfl useMmap m
        exact ih _ l' h'
  exact hload files .initial [] inv_initial

end Sound

section Demo

/-- The segments 4 and 5 have just been loaded. -/
def demoStart : State where
  pool := .loadAll Pool.demoConfig false [Pool.demoFile 4 4, Pool.demoFile 5 5]
  writer := none
  reserved := []
  held := fun _ => 0
  dropping := fun _ => 0
  retired := fun _ => false
  retirements := fun _ => 0
  cleanups := []

/-- Segment 4 is rebuilt while two searches hold it. -/
def demoRebuild : List Action :=
  [.search, .search, .reserve, .fill 2 (Pool.demoFile 4 4), .replace [0] 2, .writerDrop,
    .writerCheck, .relink]

/-- The searches end one after the other. -/
def demoDrops : List Action := [.drop 0, .check 0 true, .drop 0, .check 0 true]

/-- Both subtract before either tests. -/
def demoRace : List Action := [.drop 0, .drop 0, .check 0 true, .check 0 true]

theorem start_demoStart : Start Pool.demoConfig demoStart :=
  ⟨[Pool.demoFile 4 4, Pool.demoFile 5 5], false, rfl⟩

end Demo

end VectorLsm.Retire
