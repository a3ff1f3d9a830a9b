import VectorLsm.InMemory.SameVersion

/-! # Upgrades and the offset table

The second phase of a mapped load replaces each mapped segment by a copy in memory. The copy is
to stand for the same rows, with the same table of slices; the table is not carried over.
-/

namespace VectorLsm.InMemory

open Pool FlushedSegmentPool Transition

variable {cfg : Config} {s s' : State} {t old new slot : ℕ}

/-- The upgrade of thread `t` replaces slot `old` by slot `new`. -/
structure Upgraded (cfg : Config) (s : State) (t old new : ℕ) (s' : State) : Prop where
  task : ∃ u, s.base.pc t = .upgrade u ∧ u.segmentIdx = old ∧ upgradable s.base.pool u = true
  read : ∃ i, s.work t = .index i
  reserved : ∃ pool, s.base.pool.reserve = some (new, pool)
  step : step cfg s (.run t true) = some s'

/-- The new slot stands for the rows of the old one at the same version, with the same table; its
index is of that version, and it has the bits of the updates acknowledged before. -/
def Transparent (s : State) (old new : ℕ) (s' : State) : Prop :=
  ∃ a b, s.arrays old = some a ∧ s'.arrays new = some b ∧
    (s'.base.pool.seg new).info = (s.base.pool.seg old).info ∧ b.map = a.map ∧
    b.offsets = a.offsets ∧ b.index = (s'.base.pool.seg new).info ∧
    ∀ i, a.acked i = true → b.bitmap i = true

/-- A mapped segment has its table, and a slot that is not in use points to nothing. -/
structure Tabled (s : State) : Prop where
  table : ∀ g a, s.arrays g = some a → (s.base.pool.seg g).loadState = .mmapLoaded →
    a.offsets.isSome
  free : ∀ g, (s.base.pool.seg g).inUsed = false → s.arrays g = none

theorem SameFields.loadState {pool pool' : FlushedSegmentPool} (h : SameFields pool pool') (g : ℕ) :
    (pool'.seg g).loadState = (pool.seg g).loadState := congrArg (·.2.2) (h g)

namespace Tabled

theorem setWork {w : Work} (h : Tabled s) : Tabled (s.setWork t w) := ⟨h.table, h.free⟩

theorem setUpdate {pc : UpdatePc} (h : Tabled s) : Tabled (s.setUpdate t pc) := ⟨h.table, h.free⟩

theorem setBase {b : Pool.State} {arrays : ℕ → Option Arrays}
    (ha : ∀ g a, arrays g = some a → (b.pool.seg g).loadState = .mmapLoaded → a.offsets.isSome) :
    Tabled (s.setBase b arrays) where
  table := by
    intro g a hg hl
    rw [State.setBase_arrays] at hg
    split at hg
    · exact ha g a hg hl
    · cases hg
  free := by
    intro g hg
    rw [State.setBase_base] at hg
    rw [State.setBase_arrays, hg]
    rfl

theorem quiet {b : Pool.State} (h : Tabled s) (hf : SameFields s.base.pool b.pool) :
    Tabled (s.setBase b s.arrays) :=
  setBase fun g a ha hl => h.table g a ha (by rwa [← hf.loadState])

theorem filled {b : Pool.State} {a : Arrays} (h : Tabled s)
    (hs : (b.pool.seg slot).loadState = .mmapLoaded → a.offsets.isSome)
    (hf : ∀ g ≠ slot, (b.pool.seg g).loadState = (s.base.pool.seg g).loadState) :
    Tabled (s.setBase b (s.fill slot a)) := by
  refine setBase fun g a' hg hl => ?_
  rw [State.fill, Function.update_apply] at hg
  split at hg
  case isTrue hgs =>
    subst hgs
    obtain rfl := Option.some.inj hg
    exact hs hl
  case isFalse hgs =>
    rw [hf g hgs] at hl
    exact h.table g a' hg hl

/-- A copy in memory needs no table. -/
theorem copied {b : Pool.State} {a : Arrays} {i : SegmentFileInfo} {n : ℕ} (h : Tabled s)
    (hs : data (b.pool.seg slot) = (i, n, .fullyLoaded))
    (hf : ∀ g ≠ slot, data (b.pool.seg g) = data (s.base.pool.seg g)) :
    Tabled (s.setBase b (s.fill slot a)) := by
  refine h.filled (fun hl => ?_) fun g hg => congrArg (·.2.2) (hf g hg)
  have hfull : (b.pool.seg slot).loadState = .fullyLoaded := congrArg (·.2.2) hs
  cases hl.symm.trans hfull

theorem setDeleteCount (h : Tabled s) (g n : ℕ) : Tabled (s.setDeleteCount g n) := by
  have hf : SameFields s.base.pool (s.setDeleteCount g n).base.pool := .setSeg _ rfl
  refine ⟨fun g' a ha hl => h.table g' a ha (by rwa [← hf.loadState]), fun g' hg' => h.free g' ?_⟩
  dsimp only [State.setDeleteCount, Pool.State.setPool] at hg'
  rw [seg_setSeg] at hg'
  split at hg'
  case isTrue hgg => rwa [hgg]
  case isFalse => exact hg'

/-- The bits of a slot change, or the history of those acknowledged. -/
theorem setBits {a : Arrays} (h : Tabled s) (ha : s.arrays slot = some a)
    (bitmap acked : ℕ → Bool) :
    Tabled { s with arrays := s.fill slot { a with bitmap := bitmap, acked := acked } } where
  table := by
    intro g a' hg hl
    dsimp only [State.fill] at hg
    rw [Function.update_apply] at hg
    split at hg
    case isTrue hgs =>
      subst hgs
      obtain rfl := Option.some.inj hg
      exact h.table g a ha hl
    case isFalse => exact h.table g a' hg hl
  free := by
    intro g hg
    dsimp only [State.fill]
    rw [Function.update_apply]
    split
    case isTrue hgs =>
      subst hgs
      rw [h.free g hg] at ha
      cases ha
    case isFalse => exact h.free g hg

theorem pieces (cfg : Config) : Pieces cfg anyStep Tabled where
  quiet h hf := h.quiet hf.sameFields
  update h := h.setUpdate
  searches h := ⟨h.table, h.free⟩
  idle h := h.setWork
  index h := h.setWork
  announce h := ⟨h.table, h.free⟩
  load h _ hs := h.filled (fun _ => rfl) fun g hg => congrArg (·.2.2) (hs.data_other hg)
  failed {s b t ok a slot} h _ _ _ hseg := by
    -- a failed load writes the version only
    refine setBase fun g a' ha hl => h.table g a' ha ?_
    rw [hseg] at hl
    split at hl
    case isTrue hg =>
      subst hg
      exact hl
    case isFalse => exact hl
  union {s t ok slot kind snaps a} h _ _ ha := (h.setDeleteCount slot _).setBits ha _ a.acked
  upgrade h _ hs := h.copied hs.data_self fun g hg => hs.data_other hg
  compacted h _ hs := h.copied hs.data_self fun g hg => hs.data_other hg
  read h _ _ _ _ := h.setWork
  built h _ _ _ := h.setWork
  flush h _ _ := ⟨h.table, h.free⟩
  publish h _ _ _ := h.setWork
  pull h _ _ _ := ⟨h.table, h.free⟩
  writeBitmap h _ _ := ⟨h.table, h.free⟩
  orBits {s t lo hi g f a junk} h _ _ _ ha := by
    have hset : Tabled (s.setDeleteCount g f.deleteCount) := h.setDeleteCount g _
    have hbits := hset.setBits ha (orBytes a f (s.base.pool.seg g).vecCount junk) a.acked
    exact ⟨hbits.table, hbits.free⟩
  acked {s g a acked} h ha := h.setBits ha a.bitmap acked

theorem of_start (h : Start cfg s) : Tabled s := by
  obtain ⟨files, useMmap, -, -, -, -, -, -, -, -, -, -, -, harr, -⟩ := h
  refine ⟨fun g a ha _ => ?_, fun g hg => by rw [harr, hg]; rfl⟩
  rw [harr] at ha
  split at ha
  case isTrue =>
    obtain ⟨f, -, rfl⟩ := Option.map_eq_some_iff.mp ha
    rfl
  case isFalse => cases ha

end Tabled

theorem tabled_of_reachable
    (h : Reachable (Start cfg) (step cfg) (fun s a => anyStep s a) s) : Tabled s :=
  (Tabled.pieces cfg).reachable (fun _ => Tabled.of_start) h

/-- The mapped segment had its table, and the copy has none. -/
theorem Upgraded.offsets (h : Upgraded cfg s t old new s') (hi : Tabled s) {a b : Arrays}
    (ha : s.arrays old = some a) (hb : s'.arrays new = some b) :
    a.offsets.isSome ∧ b.offsets = none := by
  obtain ⟨u, hpc, rfl, hu⟩ := h.task
  obtain ⟨i, hw⟩ := h.read
  obtain ⟨pool, hr⟩ := h.reserved
  have hs := h.step
  have hfree := hi.free new (reserve_eq hr).1
  have hmmap : (s.base.pool.seg u.segmentIdx).loadState = .mmapLoaded := by
    have := hu
    simp only [upgradable, Bool.and_eq_true, decide_eq_true_eq] at this
    exact this.2
  refine ⟨hi.table _ a ha hmmap, ?_⟩
  simp only [InMemory.step, InMemory.runStep, hpc, hw, hu, hr, ha, if_true] at hs
  obtain ⟨c, -, rfl⟩ := Option.map_eq_some_iff.mp hs
  rw [State.setBase_arrays] at hb
  split at hb
  case isTrue =>
    rw [State.fill, Function.update_self] at hb
    obtain rfl := Option.some.inj hb
    dsimp only
    rw [hfree]
    rfl
  case isFalse => cases hb

/-- No upgrade that replaces a segment is transparent. -/
theorem not_transparent_of_upgraded
    (h : Reachable (Start cfg) (step cfg) (fun s a => anyStep s a) s)
    (hu : Upgraded cfg s t old new s') : ¬ Transparent s old new s' := by
  rintro ⟨a, b, ha, hb, -, -, hoff, -, -⟩
  obtain ⟨hsome, hnone⟩ := hu.offsets (tabled_of_reachable h) ha hb
  rw [← hoff, hnone] at hsome
  cases hsome

section Demo

/-- The mapped load of `demoStart` goes on to its upgrade, up to the index. -/
def demoUpgrade : List Action := [.run 0 true, .takeUpgrade 1, .work 1]

/-- What the upgrade of thread 1 goes by. -/
def demoTask (s : State) : Option UpgradeTask × Option SegmentFileInfo × Bool × Option ℕ :=
  let u := match s.base.pc 1 with
    | .upgrade u => some u
    | _ => none
  let i := match s.work 1 with
    | .index i => some i
    | _ => none
  (u, i, u.any (upgradable s.base.pool), s.base.pool.reserve.map Prod.fst)

theorem upgraded_demoUpgrade : ∃ s s',
    exec (step demoConfig) (demoStart true) demoUpgrade = some s ∧
      Upgraded demoConfig s 1 0 1 s' := by
  have he : (exec (step demoConfig) (demoStart true) demoUpgrade).map
      (fun s => (demoTask s, (step demoConfig s (.run 1 true)).isSome)) =
      some ((some ⟨0, 4, 4⟩, some ⟨4, 4, 1⟩, true, some 1), true) := by
    decide +kernel
  obtain ⟨s, hs, hv⟩ := Option.map_eq_some_iff.mp he
  obtain ⟨htask, hstep⟩ := Prod.mk.inj hv
  obtain ⟨s', hs'⟩ := Option.isSome_iff_exists.mp hstep
  obtain ⟨hu, htask⟩ := Prod.mk.inj htask
  obtain ⟨hi, htask⟩ := Prod.mk.inj htask
  obtain ⟨hup, hres⟩ := Prod.mk.inj htask
  refine ⟨s, s', hs, ?_, ?_, ?_, hs'⟩
  · rw [hu] at hup
    split at hu
    case h_1 u hpc =>
      obtain rfl := Option.some.inj hu
      exact ⟨_, hpc, rfl, hup⟩
    case h_2 => cases hu
  · split at hi
    case h_1 i hw => exact ⟨i, hw⟩
    case h_2 => cases hi
  · obtain ⟨⟨idx, pool⟩, hr, rfl⟩ := Option.map_eq_some_iff.mp hres
    exact ⟨pool, hr⟩

theorem not_transparent : ¬ ∀ s s' t old new, Reachable (Start demoConfig) (step demoConfig)
    (fun s a => anyStep s a) s → Upgraded demoConfig s t old new s' → Transparent s old new s' := by
  intro h
  obtain ⟨s, s', hs, hu⟩ := upgraded_demoUpgrade
  have hr : Reachable (Start demoConfig) (step demoConfig) (fun s a => anyStep s a) s :=
    .of_exec (.start (start_demoStart true)) (meets_anyStep _) hs
  obtain ⟨a, b, ha, hb, -, -, hoff, -, -⟩ := h s s' 1 0 1 hr hu
  obtain ⟨hsome, hnone⟩ := hu.offsets (tabled_of_reachable hr) ha hb
  rw [← hoff, hnone] at hsome
  cases hsome

theorem not_transparent_demoUpgrade : ∃ s s',
    exec (step demoConfig) (demoStart true) demoUpgrade = some s ∧
      Upgraded demoConfig s 1 0 1 s' ∧ ¬ Transparent s 0 1 s' := by
  obtain ⟨s, s', hs, hu⟩ := upgraded_demoUpgrade
  exact ⟨s, s', hs, hu, not_transparent_of_upgraded
    (.of_exec (.start (start_demoStart true)) (meets_anyStep _) hs) hu⟩

end Demo

end VectorLsm.InMemory
