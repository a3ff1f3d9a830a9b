import VectorLsm.InMemory.Fields
import VectorLsm.Vacuum.Files

/-! # What a step does to arrays and files

Every step of the machine is a step of the pool that fills no slot, after at most one change of
the arrays, the files or the work of a thread. A property that each such change keeps is kept by
every step.
-/

namespace VectorLsm.InMemory

open Pool FlushedSegmentPool Transition

/-- A slot is filled and the others keep what goes with their arrays. -/
def FillsSlot (pool pool' : FlushedSegmentPool) (slot : ℕ)
    (c : (SegmentFileInfo × ℕ × SegmentLoadState) × ℕ) : Prop :=
  ∀ g, content (pool'.seg g) = if g = slot then c else content (pool.seg g)

namespace FillsSlot

variable {pool pool' : FlushedSegmentPool} {slot g : ℕ}
  {c : (SegmentFileInfo × ℕ × SegmentLoadState) × ℕ}

theorem self (h : FillsSlot pool pool' slot c) : content (pool'.seg slot) = c :=
  (h slot).trans (if_pos rfl)

theorem other (h : FillsSlot pool pool' slot c) (hg : g ≠ slot) :
    content (pool'.seg g) = content (pool.seg g) := (h g).trans (if_neg hg)

theorem data_self (h : FillsSlot pool pool' slot c) : data (pool'.seg slot) = c.1 :=
  congrArg Prod.fst h.self

theorem data_other (h : FillsSlot pool pool' slot c) (hg : g ≠ slot) :
    data (pool'.seg g) = data (pool.seg g) := congrArg Prod.fst (h.other hg)

end FillsSlot

/-- What a slot says of the file it was loaded from. -/
def contentOf (f : SegmentFile) : (SegmentFileInfo × ℕ × SegmentLoadState) × ℕ :=
  ((f.info, f.mapping.length, .fullyLoaded), f.deleteCount)

/-- The worker has read the bitmap of `f` into the one of slot `g`. -/
def State.orBitmap (s : State) (g : ℕ) (f : SegmentFile) (a : Arrays) (junk : ℕ → Bool) : State :=
  State.addCombined
    { s.setDeleteCount g f.deleteCount with
      arrays := s.fill g { a with bitmap := orBytes a f (s.base.pool.seg g).vecCount junk } }
    (bitmapSize f.mapping.length, bitmapSize (s.base.pool.seg g).vecCount)

/-- Each change a step makes keeps `I`, where the step meets `met`. -/
structure Pieces (cfg : Config) (met : State → Action → Prop) (I : State → Prop) : Prop where
  /-- The pool takes a step that fills no slot. -/
  quiet : ∀ {s b}, I s → SameContent s.base.pool b.pool → I (s.setBase b s.arrays)
  update : ∀ {s t pc}, I s → I (s.setUpdate t pc)
  searches : ∀ {s n}, I s → I (s.setSearches n)
  /-- A thread drops what it holds. -/
  idle : ∀ {s t}, I s → I (s.setWork t .none)
  index : ∀ {s t i}, I s → I (s.setWork t (.index i))
  announce : ∀ {s t gs}, I s → I ((s.addDeleted (gs.flatMap (·.rows))).setWork t (.groups gs))
  load : ∀ {s b slot f}, I s → f ∈ s.disk →
    FillsSlot s.base.pool b.pool slot (contentOf f) → I (s.setBase b (s.fill slot (.ofFile f)))
  /-- A failed load of an adoption writes the version all the same. -/
  failed : ∀ {s b t ok a slot}, I s → met s (.run t ok) → s.base.pc t = .adoptLoad a slot →
    ok = false ∨ s.disk.load ⟨a.startSid, a.endSid, a.version⟩ = none →
    (∀ g, b.pool.seg g = if g = slot then { s.base.pool.seg slot with version := a.version }
      else s.base.pool.seg g) → I (s.setBase b s.arrays)
  union : ∀ {s t ok slot kind snaps a}, I s → met s (.run t ok) →
    s.base.pc t = .adoptInstall slot kind snaps → s.arrays slot = some a →
    I (s.mark slot a (s.union a kind snaps (s.work t).groups?))
  upgrade : ∀ {s b idx old i a offsets}, I s → s.arrays old = some a →
    FillsSlot s.base.pool b.pool idx (((s.base.pool.seg old).info,
      (s.base.pool.seg old).vecCount, .fullyLoaded), (s.base.pool.seg old).deleteCount) →
    I (s.setBase b (s.fill idx ⟨a.map, a.bitmap, offsets, i, a.acked⟩))
  compacted : ∀ {s b t slot new offsets}, I s → s.work t = .published new →
    FillsSlot s.base.pool b.pool slot (contentOf new) →
    I (s.setBase b (s.fill slot ⟨new.mapping, new.bitmap, offsets, new.info, fun _ => false⟩))
  read : ∀ {s t task fs}, I s → met s (.work t) → s.base.pc t = .build task →
    s.work t = .none → task.olds.mapM (readSlot s) = some fs → I (s.setWork t (.files fs))
  built : ∀ {s t task fs fs' new}, I s → s.work t = .files fs →
    (fs.mapM fun f => s.disk.load f.info) = some fs' → combine task fs fs' = some new →
    I (s.setWork t (.built new))
  flush : ∀ {s t new version}, I s → s.work t = .built new →
    version = s.disk.latestVersion new.startSid new.endSid + 1 →
    I ((s.setDisk ({ new with version := version } :: s.disk)).setWork t
      (.flushed { new with version := version }))
  publish : ∀ {s t task new}, I s → met s (.work t) → s.base.pc t = .build task →
    s.work t = .flushed new → I (s.setWork t
      (.published { new with version := s.disk.latestVersion new.startSid new.endSid }))
  pull : ∀ {s f}, I s → met s (.pull f) → f.info ∉ s.disk.map (·.info) → Written f →
    I ((s.addDeleted f.masked).setDisk (f :: s.disk))
  writeBitmap : ∀ {s i f bitmap n}, I s → met s (.writeBitmap i bitmap n) →
    s.disk.load i = some f → I ((s.addDeleted (f.setBitmap bitmap n).masked).setDisk
      (s.disk.writeBitmap i bitmap n))
  orBits : ∀ {s t lo hi g f a junk}, I s → met s (.updateNext t junk) →
    s.update t = .checked lo hi g → s.disk.loadLatest lo hi = some f → s.arrays g = some a →
    I (s.orBitmap g f a junk)
  acked : ∀ {s g a acked}, I s → s.arrays g = some a →
    I { s with arrays := s.fill g { a with acked := acked } }

namespace Pieces

variable {cfg : Config} {met : State → Action → Prop} {I : State → Prop} {s s' : State} {t : ℕ}

/-- A step of the pool that is handed no file. -/
theorem pass (P : Pieces cfg met I) (h : I s) (hl : ∀ a slot, s.base.pc t ≠ .adoptLoad a slot)
    (hs : (Pool.runStep cfg.pool s.base t none).map (s.setBase · s.arrays) = some s') : I s' := by
  obtain ⟨b, hb, rfl⟩ := Option.map_eq_some_iff.mp hs
  exact P.quiet h (sameContent_runStep hb hl)

theorem latest_mem {disk : Disk} {lo hi : SegmentId} {f : SegmentFile}
    (hf : disk.loadLatest lo hi = some f) : f ∈ disk := List.mem_of_find?_eq_some hf

theorem regularLoad {slot : ℕ} {lo hi : SegmentId} {ok : Bool} (P : Pieces cfg met I) (h : I s)
    (hpc : s.base.pc t = .regularLoad slot lo hi)
    (hs : (match if ok then s.disk.loadLatest lo hi else none with
      | none => (Pool.runStep cfg.pool s.base t none).map (s.setBase · s.arrays)
      | some f =>
          (Pool.runStep cfg.pool s.base t (some (cfg.metadata f))).map
            (s.setBase · (s.fill slot (.ofFile f)))) = some s') : I s' := by
  split at hs
  case h_1 => exact P.pass h (by simp [hpc]) hs
  case h_2 f hf =>
    obtain ⟨b, hb, rfl⟩ := Option.map_eq_some_iff.mp hs
    have hload : s.disk.loadLatest lo hi = some f := by
      split at hf
      · exact hf
      · cases hf
    refine P.load h (latest_mem hload) fun g => ?_
    rw [seg_regularLoad hpc hb]
    split <;> rfl

theorem adoptLoad {a : Adoption} {slot : ℕ} {ok : Bool} (P : Pieces cfg met I) (h : I s)
    (hm : met s (.run t ok)) (hpc : s.base.pc t = .adoptLoad a slot)
    (hs : (match if ok then s.disk.load ⟨a.startSid, a.endSid, a.version⟩ else none with
      | none => (Pool.runStep cfg.pool s.base t none).map (s.setBase · s.arrays)
      | some f =>
          (Pool.runStep cfg.pool s.base t (some (cfg.metadata f))).map
            (s.setBase · (s.fill slot (.ofFile f)))) = some s') : I s' := by
  split at hs
  case h_1 hf =>
    obtain ⟨b, hb, rfl⟩ := Option.map_eq_some_iff.mp hs
    refine P.failed h hm hpc ?_ (seg_adoptLoad hpc hb)
    cases ok with
    | false => exact .inl rfl
    | true => exact .inr hf
  case h_2 f hf =>
    obtain ⟨b, hb, rfl⟩ := Option.map_eq_some_iff.mp hs
    have hload : s.disk.load ⟨a.startSid, a.endSid, a.version⟩ = some f := by
      split at hf
      · exact hf
      · cases hf
    have hi : f.info = ⟨a.startSid, a.endSid, a.version⟩ := by
      simpa using List.find?_some hload
    have hv : f.version = a.version := congrArg SegmentFileInfo.version hi
    refine P.load h (List.mem_of_find?_eq_some hload) fun g => ?_
    rw [seg_adoptLoad hpc hb]
    split
    · rw [← hv]
      rfl
    · rfl

theorem runStep {ok : Bool} (P : Pieces cfg met I) (h : I s) (hm : met s (.run t ok))
    (hs : InMemory.runStep cfg s t ok = some s') : I s' := by
  unfold InMemory.runStep at hs
  split at hs
  case h_1 _ _ slot lo hi hpc => exact P.regularLoad h hpc hs
  case h_2 _ _ a slot hpc => exact P.adoptLoad h hm hpc hs
  case h_3 _ _ slot kind snaps hpc =>
    dsimp only at hs
    split at hs
    case h_1 => exact P.pass h (by simp [hpc]) hs
    case h_2 a ha =>
      refine P.pass (P.union h hm hpc ha) (fun a' slot' => ?_) hs
      change s.base.pc t ≠ _
      simp [hpc]
  case h_4 _ _ u i hpc hw =>
    split at hs
    · split at hs
      · split at hs
        · exact P.pass h (by simp [hpc]) hs
        · cases hs
        · obtain ⟨b, hb, rfl⟩ := Option.map_eq_some_iff.mp hs
          exact P.upgrade h ‹_› (content_upgrade hpc ‹_› ‹_› hb)
      · exact P.pass h (by simp [hpc]) hs
    · cases hs
  case h_5 _ _ u hpc _ =>
    split at hs
    · cases hs
    · exact P.pass h (by simp [hpc]) hs
  case h_6 =>
    obtain rfl := Option.some.inj hs
    exact P.quiet h fun _ => rfl
  case h_7 _ _ task hpc _ =>
    split at hs
    · cases hs
    · exact P.pass h (by simp [hpc]) hs
  case h_8 _ _ task lo hi slot new hpc hw =>
    obtain ⟨b, hb, rfl⟩ := Option.map_eq_some_iff.mp hs
    have hpc' : (s.base.goto t (.compactInstall task new.startSid new.endSid slot)).pc t =
        .compactInstall task new.startSid new.endSid slot := Function.update_self ..
    exact P.compacted h hw (content_compactInstall hpc' hb)
  case h_9 _ _ p idx0 idx1 hpc =>
    obtain ⟨b, hb, rfl⟩ := Option.map_eq_some_iff.mp hs
    exact P.quiet (P.idle h) (sameContent_runStep hb (by simp [hpc]))
  case h_10 hload _ _ _ _ _ _ _ => exact P.pass h (fun a slot => hload a slot) hs

theorem workStep (P : Pieces cfg met I) (h : I s) (hm : met s (.work t))
    (hs : InMemory.workStep s t = some s') : I s' := by
  unfold InMemory.workStep at hs
  split at hs
  case h_1 =>
    obtain ⟨f, -, rfl⟩ := Option.map_eq_some_iff.mp hs
    exact P.index h
  case h_2 task hpc hw =>
    obtain ⟨fs, hfs, rfl⟩ := Option.map_eq_some_iff.mp hs
    exact P.read h hm hpc hw hfs
  case h_3 task fs hpc hw =>
    obtain ⟨new, hnew, rfl⟩ := Option.map_eq_some_iff.mp hs
    obtain ⟨fs', hfs', hcomb⟩ := Option.bind_eq_some_iff.mp hnew
    exact P.built h hw hfs' hcomb
  case h_4 task new hpc hw =>
    obtain rfl := Option.some.inj hs
    exact P.flush h hw rfl
  case h_5 task new hpc hw =>
    obtain rfl := Option.some.inj hs
    exact P.publish h hm hpc hw
  case h_6 => cases hs

theorem updateStep {junk : ℕ → Bool} (P : Pieces cfg met I) (h : I s)
    (hm : met s (.updateNext t junk)) (hs : InMemory.updateStep cfg s t junk = some s') :
    I s' := by
  unfold InMemory.updateStep at hs
  split at hs
  case h_1 => cases hs
  case h_2 => split at hs <;> (obtain rfl := Option.some.inj hs; exact P.update h)
  case h_3 lo hi g hu =>
    split at hs
    case h_1 =>
      obtain rfl := Option.some.inj hs
      exact P.update h
    case h_2 => cases hs
    case h_3 f a hf ha =>
      obtain rfl := Option.some.inj hs
      exact P.update (P.orBits h hm hu hf ha)
  case h_4 g bits hu =>
    obtain ⟨b, hb, rfl⟩ := Option.map_eq_some_iff.mp hs
    have hf := sameContent_step hb (by simp)
    split
    case h_1 => exact P.quiet (P.update h) hf
    case h_2 a ha => exact P.quiet (P.update (P.acked h ha)) hf
  case h_5 g hu =>
    obtain ⟨b, hb, rfl⟩ := Option.map_eq_some_iff.mp hs
    exact P.quiet (P.update h) (sameContent_step hb (by simp))

/-- One step of the machine. -/
theorem step {a : Action} (P : Pieces cfg met I) (h : I s) (hm : met s a)
    (hs : InMemory.step cfg s a = some s') : I s' := by
  cases a with
  | regular t lo hi =>
      obtain ⟨b, hb, rfl⟩ := Option.map_eq_some_iff.mp hs
      exact P.quiet h (sameContent_step hb (by simp))
  | adopt t a gs =>
      obtain ⟨b, hb, rfl⟩ := Option.map_eq_some_iff.mp hs
      exact P.quiet (P.announce h) (sameContent_step hb (by simp))
  | takeUpgrade t =>
      obtain ⟨b, hb, rfl⟩ := Option.map_eq_some_iff.mp hs
      exact P.quiet (P.idle h) (sameContent_step hb (by simp))
  | scan t =>
      obtain ⟨b, hb, rfl⟩ := Option.map_eq_some_iff.mp hs
      exact P.quiet h (sameContent_step hb (by simp))
  | run t ok => exact P.runStep h hm hs
  | work t => exact P.workStep h hm hs
  | pull f =>
      simp only [InMemory.step] at hs
      split at hs
      case isTrue hf =>
        obtain rfl := Option.some.inj hs
        exact P.pull h hm hf.1 hf.2
      case isFalse => cases hs
  | writeBitmap i bitmap n =>
      obtain ⟨f, hf, rfl⟩ := Option.map_eq_some_iff.mp hs
      exact P.writeBitmap h hm hf
  | update t lo hi expected =>
      simp only [InMemory.step] at hs
      split at hs
      · split at hs
        · obtain rfl := Option.some.inj hs
          exact h
        · obtain ⟨b, hb, rfl⟩ := Option.map_eq_some_iff.mp hs
          exact P.quiet (P.update h) (sameContent_step hb (by simp))
      · cases hs
  | updateNext t junk => exact P.updateStep h hm hs
  | search =>
      simp only [InMemory.step] at hs
      obtain ⟨b, hb, rfl⟩ := Option.map_eq_some_iff.mp hs
      exact P.quiet (P.searches h) (sameContent_step hb (by simp))
  | drop g =>
      simp only [InMemory.step] at hs
      split at hs
      · obtain ⟨b, hb, rfl⟩ := Option.map_eq_some_iff.mp hs
        exact P.quiet (P.searches h) (sameContent_step hb (by simp))
      · cases hs
  | check g lockFree =>
      obtain ⟨b, hb, rfl⟩ := Option.map_eq_some_iff.mp hs
      exact P.quiet h (sameContent_step hb (by simp))

/-- What holds at the start and is kept by every change holds in every state reached. -/
theorem reachable {init : State → Prop} (P : Pieces cfg met I) (hi : ∀ s, init s → I s)
    (h : Reachable init (InMemory.step cfg) met s) : I s :=
  h.invariant hi fun _ _ _ _ h hm hs => P.step h hm hs

end Pieces

end VectorLsm.InMemory
