import VectorLsm.Compaction.Calls
import VectorLsm.Compaction.Claimed

/-! # Compactions are fed well where no newer file is left behind

In a run whose claims take slots of the latest version, with a row left where they are rebuilt,
every merge thread hands the library files of one version, and the library takes them. A rebuild
of a segment with no row left ends in an error.
-/

namespace VectorLsm.Building

open Pool FlushedSegmentPool Transition InMemory

variable {I V : Type*} {cfg : Config I V} {vectors : I → List V} {s s' : State I}
  {c : InMemory.State} {t u g : ℕ} {task : MergeTask} {a : InMemory.Action}

/-- A file has the range, the version and the row count of a slot. -/
structure Matches (s : InMemory.State) (g : ℕ) (f : SegmentFile) : Prop where
  info : f.info = (s.base.pool.seg g).info
  mapping : f.mapping.length = (s.base.pool.seg g).vecCount

/-- What keeps compactions fed. -/
structure Inv (cfg : Config I V) (s : State I) : Prop where
  sound : Sound s.base
  claims : Claims s.base
  filled : Filled s.toState
  ranged : Ranged s.toState
  rows : Rows s.toState
  latest : ∀ task g, Unread s.toState task g → Latest s.disk (s.base.pool.seg g)
  unmasked : ∀ task g, Unread s.toState task g → task.operationType ≠ .merge →
    ∀ f ∈ s.disk, f.info = (s.base.pool.seg g).info → RowLeft f f.bitmap
  read : ∀ t task fs, s.base.pc t = .build task → s.work t = .files fs →
    List.Forall₂ (Matches s.toState) task.olds fs
  left : ∀ t task fs, s.base.pc t = .build task → s.work t = .files fs →
    task.operationType ≠ .merge → ∀ f ∈ fs, RowLeft f f.bitmap
  indexes : ∀ f ∈ s.disk, Indexes cfg (s.index f.info) f
  made : ∀ t task new, s.base.pc t = .build task → s.work t = .built new →
    ∃ x, s.built t = some x ∧ Indexes cfg x new

section Steps

/-- A step of the machine is one without the index files, and what it does to them. -/
inductive IndexCase (cfg : Config I V) (s : State I) (a : InMemory.Action) (s' : State I) : Prop
  | same (hi : s'.index = s.index) (hb : s'.built = s.built)
      (hf : ∀ t task fs, a = .work t → s.base.pc t = .build task → s.work t ≠ .files fs)
      (hn : ∀ t task new, a = .work t → s.base.pc t = .build task → s.work t ≠ .built new)
      (hp : ∀ f, a ≠ .pull f)
  | called (t : ℕ) (task : MergeTask) (fs : List SegmentFile) (x : I) (n : ℕ) (ha : a = .work t)
      (hpc : s.base.pc t = .build task) (hw : s.work t = .files fs)
      (hc : call cfg s task fs = some (.ok (x, n))) (hi : s'.index = s.index)
      (hb : s'.built = Function.update s.built t (some x))
  | flushed (t : ℕ) (task : MergeTask) (new : SegmentFile) (ha : a = .work t)
      (hpc : s.base.pc t = .build task) (hw : s.work t = .built new)
      (hi : s'.index = (s.built t).elim s.index (Function.update s.index
        ⟨new.startSid, new.endSid, s.disk.latestVersion new.startSid new.endSid + 1⟩))
      (hb : s'.built = s.built)
  | pulled (f : SegmentFile) (ha : a = .pull f) (hx : Indexes cfg (cfg.primary f.info) f)
      (hi : s'.index = Function.update s.index f.info (cfg.primary f.info))
      (hb : s'.built = s.built)

theorem step_cases (hs : step cfg s a = some s') :
    InMemory.step cfg.toConfig s.toState a = some s'.toState ∧ IndexCase cfg s a s' := by
  cases a with
  | work t =>
      simp only [step] at hs
      split at hs
      case h_1 task fs hpc hw =>
        split at hs
        case h_1 x n hc =>
          obtain ⟨c, hc', rfl⟩ := Option.map_eq_some_iff.mp hs
          exact ⟨hc', .called t task fs x n rfl hpc hw hc rfl rfl⟩
        case h_2 => cases hs
      case h_2 task new hpc hw =>
        obtain ⟨c, hc, rfl⟩ := Option.map_eq_some_iff.mp hs
        exact ⟨hc, .flushed t task new rfl hpc hw rfl rfl⟩
      case h_3 hf hn =>
        obtain ⟨c, hc, rfl⟩ := Option.map_eq_some_iff.mp hs
        refine ⟨hc, .same rfl rfl ?_ ?_ (by simp)⟩
        · rintro t' task fs ha hpc hw
          obtain rfl : t = t' := InMemory.Action.work.inj ha
          exact hf task fs hpc hw
        · rintro t' task new ha hpc hw
          obtain rfl : t = t' := InMemory.Action.work.inj ha
          exact hn task new hpc hw
  | pull f =>
      simp only [step] at hs
      split at hs
      next hx =>
        obtain ⟨c, hc, rfl⟩ := Option.map_eq_some_iff.mp hs
        exact ⟨hc, .pulled f rfl hx rfl rfl⟩
      next => cases hs
  | _ =>
      simp only [step] at hs
      obtain ⟨c, hc, rfl⟩ := Option.map_eq_some_iff.mp hs
      exact ⟨hc, .same rfl rfl (by simp) (by simp) (by simp)⟩

/-- What a step does to the files on disk. -/
inductive DiskCase (s : InMemory.State) (a : InMemory.Action) (d : Disk) : Prop
  | same (h : d = s.disk)
  | flushed (t : ℕ) (task : MergeTask) (new : SegmentFile) (ha : a = .work t)
      (hpc : s.base.pc t = .build task) (hw : s.work t = .built new)
      (h : d = { new with version := s.disk.latestVersion new.startSid new.endSid + 1 } :: s.disk)
  | pulled (f : SegmentFile) (ha : a = .pull f) (hn : f.info ∉ s.disk.map (·.info))
      (h : d = f :: s.disk)
  | masked (i : SegmentFileInfo) (bitmap : ℕ → Bool) (n : ℕ) (ha : a = .writeBitmap i bitmap n)
      (h : d = s.disk.writeBitmap i bitmap n)

theorem disk_update {cfg : InMemory.Config} {s c : InMemory.State} {junk : ℕ → Bool}
    (hs : InMemory.updateStep cfg s t junk = some c) : c.disk = s.disk := by
  unfold InMemory.updateStep at hs
  split at hs
  case h_1 => cases hs
  case h_2 => split at hs <;> (obtain rfl := Option.some.inj hs; rfl)
  case h_3 =>
    split at hs
    case h_1 => obtain rfl := Option.some.inj hs; rfl
    case h_2 => cases hs
    case h_3 => obtain rfl := Option.some.inj hs; rfl
  case h_4 | h_5 =>
    obtain ⟨b, -, rfl⟩ := Option.map_eq_some_iff.mp hs
    rfl

theorem disk_work {s c : InMemory.State} (hs : InMemory.workStep s t = some c) :
    DiskCase s (.work t) c.disk := by
  unfold InMemory.workStep at hs
  split at hs
  case h_1 | h_2 | h_3 =>
    obtain ⟨x, -, rfl⟩ := Option.map_eq_some_iff.mp hs
    exact .same rfl
  case h_4 task new hpc hw =>
    obtain rfl := Option.some.inj hs
    exact .flushed t task new rfl hpc hw rfl
  case h_5 =>
    obtain rfl := Option.some.inj hs
    exact .same rfl
  case h_6 => cases hs

theorem disk_step {cfg : InMemory.Config} {s c : InMemory.State} (hS : Sound s.base)
    (hC : Claims s.base) (hr : Ranged s) (hf : Feeds s a) (hs : InMemory.step cfg s a = some c) :
    DiskCase s a c.disk := by
  cases a with
  | run t ok =>
      obtain ⟨b, m, h⟩ := run_section hS hC hr hf hs
      exact .same h.disk
  | work t => exact disk_work hs
  | pull f =>
      simp only [InMemory.step] at hs
      split at hs
      next h =>
        obtain rfl := Option.some.inj hs
        exact .pulled f rfl h.1 rfl
      next => cases hs
  | writeBitmap i bitmap n =>
      obtain ⟨f, -, rfl⟩ := Option.map_eq_some_iff.mp hs
      exact .masked i bitmap n rfl rfl
  | updateNext t junk => exact .same (disk_update hs)
  | update t lo hi expected =>
      simp only [InMemory.step] at hs
      split at hs
      · split at hs
        · obtain rfl := Option.some.inj hs
          exact .same rfl
        · obtain ⟨b, -, rfl⟩ := Option.map_eq_some_iff.mp hs
          exact .same rfl
      · cases hs
  | drop g =>
      simp only [InMemory.step] at hs
      split at hs
      · obtain ⟨b, -, rfl⟩ := Option.map_eq_some_iff.mp hs
        exact .same rfl
      · cases hs
  | _ =>
      simp only [InMemory.step] at hs
      obtain ⟨b, -, rfl⟩ := Option.map_eq_some_iff.mp hs
      exact .same rfl

/-- The phases of a compaction up to the slot of its segment. -/
inductive Phase (s : InMemory.State) (t : ℕ) (task : MergeTask) (c : InMemory.State) : Prop
  | read (fs : List SegmentFile) (hw : s.work t = .none)
      (hfs : task.olds.mapM (readSlot s) = some fs) (hc : c = s.setWork t (.files fs))
  | built (fs fs' : List SegmentFile) (new : SegmentFile) (hw : s.work t = .files fs)
      (hfs : (fs.mapM fun f => s.disk.load f.info) = some fs')
      (hn : combine task fs fs' = some new) (hc : c = s.setWork t (.built new))
  | flushed (new new' : SegmentFile) (hw : s.work t = .built new)
      (hn : new' = { new with version := s.disk.latestVersion new.startSid new.endSid + 1 })
      (hc : c = (s.setDisk (new' :: s.disk)).setWork t (.flushed new'))
  | published (new new' : SegmentFile) (hw : s.work t = .flushed new)
      (hn : new' = { new with version := s.disk.latestVersion new.startSid new.endSid })
      (hc : c = s.setWork t (.published new'))

theorem phase {s c : InMemory.State} (ht : (s.base.pc t).task = some task)
    (hs : InMemory.workStep s t = some c) : s.base.pc t = .build task ∧ Phase s t task c := by
  unfold InMemory.workStep at hs
  split at hs
  case h_1 hpc _ =>
    rw [hpc] at ht
    cases ht
  case h_2 task' hpc hw =>
    obtain rfl : task' = task := by rw [hpc] at ht; exact Option.some.inj ht
    obtain ⟨fs, hfs, rfl⟩ := Option.map_eq_some_iff.mp hs
    exact ⟨hpc, .read fs hw hfs rfl⟩
  case h_3 task' fs hpc hw =>
    obtain rfl : task' = task := by rw [hpc] at ht; exact Option.some.inj ht
    obtain ⟨new, hnew, rfl⟩ := Option.map_eq_some_iff.mp hs
    obtain ⟨fs', hfs', hc⟩ := Option.bind_eq_some_iff.mp hnew
    exact ⟨hpc, .built fs fs' new hw hfs' hc rfl⟩
  case h_4 task' new hpc hw =>
    obtain rfl : task' = task := by rw [hpc] at ht; exact Option.some.inj ht
    obtain rfl := Option.some.inj hs
    exact ⟨hpc, .flushed new _ hw rfl rfl⟩
  case h_5 task' new hpc hw =>
    obtain rfl : task' = task := by rw [hpc] at ht; exact Option.some.inj ht
    obtain rfl := Option.some.inj hs
    exact ⟨hpc, .published new _ hw rfl rfl⟩
  case h_6 => cases hs

end Steps

section Invariant

theorem eq_of_start {b : Pool.State} {h : ℕ} (hS : Sound b) (hg : g ∈ b.pool.members)
    (hh : h ∈ b.pool.members)
    (he : (b.pool.seg g).segmentIdStart = (b.pool.seg h).segmentIdStart) : g = h := by
  obtain ⟨l, hl⟩ := hS
  rw [hl.members] at hg hh
  have hne : l.Pairwise fun a b' => (b.pool.seg a).segmentIdStart ≠
      (b.pool.seg b').segmentIdStart := by
    refine hl.sorted.imp_of_mem fun {a b'} ha _ hab => ?_
    have := hl.nonempty a ha
    lia
  have : Std.Symm fun a b' => (b.pool.seg a).segmentIdStart ≠ (b.pool.seg b').segmentIdStart :=
    ⟨fun _ _ => Ne.symm⟩
  by_contra hgh
  exact hne.forall hg hh hgh he

theorem head_olds (task : MergeTask) : task.olds.head? = some task.segmentIdx0 := by
  rcases olds_cases task with h | ⟨b, -, h⟩ <;> rw [h] <;> rfl

/-- A compaction of other slots does not write the range of a claimed slot. -/
theorem range_ne {s : InMemory.State} {task' : MergeTask} {new : SegmentFile} (hS : Sound s.base)
    (hC : Claims s.base) (hr : Ranged s) (hne : u ≠ t) (hu : s.base.pc u = .build task)
    (hg : g ∈ task.olds) (ht : s.base.pc t = .build task') (hw : s.work t = .built new) :
    new.info.range ≠ (s.base.pool.seg g).info.range := by
  have hut : (s.base.pc u).task = some task := by rw [hu]; rfl
  have htt : (s.base.pc t).task = some task' := by rw [ht]; rfl
  intro hrange
  have hhead := head_olds task'
  have hmem : task'.segmentIdx0 ∈ task'.olds := List.mem_of_head? hhead
  have hstart : new.startSid = (s.base.pool.seg g).segmentIdStart := congrArg Prod.fst hrange
  have hfirst := hC.first t task' htt _ hhead
  have hg' : g = task'.segmentIdx0 := by
    refine eq_of_start hS ((hC.linked u task hut).subset hg)
      ((hC.linked t task' htt).subset hmem) ?_
    rw [hfirst, ← hstart]
    exact (hr t task' new htt (by rw [hw]; rfl)).1
  exact hC.exclusive u t task task' hne hut htt g hg (hg' ▸ hmem)

theorem mem_of_unread {s : InMemory.State} (hC : Claims s.base) (hu : Unread s task g) :
    g ∈ s.base.pool.members := by
  obtain ⟨t, hpc, -, hg⟩ := hu
  exact (hC.linked t task (by rw [hpc]; rfl)).subset hg

/-- A slot is unread because it was, or because it has just been claimed. -/
theorem unread_cases {cfg : InMemory.Config} {s : InMemory.State} (hm : Moves s a c)
    (hs : InMemory.step cfg s a = some c) (hu : Unread c task g) :
    (∃ u, s.base.pc u = .build task ∧ s.work u = .none ∧ g ∈ task.olds ∧ a ≠ .work u) ∨
      ∃ t ok p idx0 idx1 pool, a = .run t ok ∧ s.base.pc t = .claim p idx0 idx1 ∧
        s.base.pool.claimTask (.ofPriority p) idx0 idx1 = some (pool, task) ∧ g ∈ task.olds := by
  obtain ⟨u, hpc, hw, hg⟩ := hu
  have htask : (c.base.pc u).task = some task := by rw [hpc]; rfl
  cases hm.task u task htask with
  | claimed p idx0 idx1 ok pool ha hpc' hc _ =>
      exact .inr ⟨u, ok, p, idx0, idx1, pool, ha, hpc', hc, hg⟩
  | kept hkept hb hwork =>
      have hnot : a ≠ .work u := by
        rintro rfl
        cases (phase hkept hs).2 with
        | read fs _ _ hc => simp [hc] at hw
        | built fs fs' new _ _ _ hc => simp [hc] at hw
        | flushed new new' _ _ hc => simp [hc] at hw
        | published new new' _ _ hc => simp [hc] at hw
      refine .inl ⟨u, hb hpc, ?_, hg, hnot⟩
      rcases hwork with hwork | hwork
      · rw [← hwork, hw]
      · exact absurd hwork hnot

namespace Inv

theorem pool_fields {s : InMemory.State} (hm : Moves s a c) (hg : g ∈ s.base.pool.members) :
    (c.base.pool.seg g).info = (s.base.pool.seg g).info ∧
      (c.base.pool.seg g).vecCount = (s.base.pool.seg g).vecCount := by
  have hd := hm.data g hg
  exact ⟨congrArg Prod.fst hd, congrArg (·.2.1) hd⟩

/-- What the claim finds. -/
theorem claimed {s : InMemory.State} {ok : Bool} {p idx0 : ℕ} {idx1 : Option ℕ}
    {pool : FlushedSegmentPool} (hf : Feeds s (.run t ok)) (hpc : s.base.pc t = .claim p idx0 idx1)
    (hc : s.base.pool.claimTask (.ofPriority p) idx0 idx1 = some (pool, task))
    (hg : g ∈ task.olds) : g ∈ s.base.pool.members ∧ Latest s.disk (s.base.pool.seg g) ∧
      (CompactionType.ofPriority p ≠ .merge →
        ∀ f ∈ s.disk, f.info = (s.base.pool.seg g).info → RowLeft f f.bitmap) := by
  have hst := hf.1
  have hcl := hf.2
  simp only [SteadyRun, hpc] at hst
  simp only [hpc] at hcl
  have hsome : (s.base.pool.claimTask (.ofPriority p) idx0 idx1).isSome := by rw [hc]; rfl
  have holds := (Claims.claimTask_eq hc).1
  exact ⟨(hst hsome).subset (holds ▸ hg), hcl hsome g (holds ▸ hg)⟩

/-- The files a merge thread is about to read. -/
theorem reads (h : Inv cfg s) (hu : Unread s.toState task g) :
    ∃ f ∈ s.disk, s.disk.loadLatest (s.base.pool.seg g).segmentIdStart
      (s.base.pool.seg g).segmentIdEnd = some f ∧ Matches s.toState g f := by
  have hg := mem_of_unread h.claims hu
  obtain ⟨a, ha⟩ := Option.isSome_iff_exists.mp (h.filled g hg)
  obtain ⟨⟨f, hf, hi, hmap⟩, hcount⟩ := h.rows.held g a ha
  have hversion : f.version = (s.base.pool.seg g).version := congrArg SegmentFileInfo.version hi
  have hv : s.disk.latestVersion (s.base.pool.seg g).segmentIdStart
      (s.base.pool.seg g).segmentIdEnd = f.version := by
    refine Disk.latestVersion_eq_of hf (by rw [hi]; rfl) fun f' hf' hr => ?_
    exact (h.latest task g hu f' hf' hr).trans_eq hversion.symm
  refine ⟨f, hf, ?_, hi, (congrArg List.length hmap).trans hcount.symm⟩
  rw [Disk.loadLatest, hv, hversion, Disk.load_eq_some h.rows.nodup]
  exact ⟨hf, hi⟩

theorem feedsCounted (h : Inv cfg s) (hf : Feeds s.toState a) : FeedsCounted s.toState a := by
  refine ⟨hf, fun t task _ hpc hw g hg f hload => ?_⟩
  obtain ⟨f', -, hload', hmatch⟩ := h.reads ⟨t, hpc, hw, hg⟩
  obtain rfl : f' = f := Option.some.inj (hload'.symm.trans hload)
  exact hmatch.mapping

/-- A newer version of the range of a claimed slot does not arrive before its files are read. -/
theorem latest_step {s c : InMemory.State} (hS : Sound s.base) (hC : Claims s.base) (hr : Ranged s)
    (hl : ∀ task g, Unread s task g → Latest s.disk (s.base.pool.seg g)) (hf : Feeds s a)
    (hm : Moves s a c) {cfg : InMemory.Config} (hs : InMemory.step cfg s a = some c) :
    ∀ task g, Unread c task g → Latest c.disk (c.base.pool.seg g) := by
  intro task g hu f hfc hrange
  have hd := disk_step hS hC hr hf hs
  rcases unread_cases hm hs hu with ⟨u, hpc, hw, hg, hnot⟩ |
    ⟨t, ok, p, idx0, idx1, pool, rfl, hpc, hc, hg⟩
  · have hu' : Unread s task g := ⟨u, hpc, hw, hg⟩
    have hmem := mem_of_unread hC hu'
    obtain ⟨hi, -⟩ := pool_fields hm hmem
    have hv : (c.base.pool.seg g).version = (s.base.pool.seg g).version :=
      congrArg SegmentFileInfo.version hi
    rw [hi] at hrange
    rw [hv]
    cases hd with
    | same h => exact hl task g hu' f (h ▸ hfc) hrange
    | flushed t task' new ha hpc' hw' h =>
        rw [h] at hfc
        rcases List.mem_cons.mp hfc with rfl | hfc
        · have hut : u ≠ t := by
            rintro rfl
            exact hnot ha
          have hne : new.info.range ≠ _ := range_ne hS hC hr hut hpc hg hpc' hw'
          exact absurd hrange hne
        · exact hl task g hu' f hfc hrange
    | pulled f' ha _ h =>
        subst ha
        rw [h] at hfc
        rcases List.mem_cons.mp hfc with rfl | hfc
        · exact hf task g hu' hrange
        · exact hl task g hu' f hfc hrange
    | masked i bitmap n ha h =>
        rw [h] at hfc
        obtain ⟨f', hf', rfl⟩ := Disk.mem_writeBitmap.mp hfc
        have := hl task g hu' f' hf'
        split at hrange <;> split <;> exact this hrange
  · obtain ⟨hmem, hlat, -⟩ := claimed hf hpc hc hg
    obtain ⟨hi, -⟩ := pool_fields hm hmem
    have hv : (c.base.pool.seg g).version = (s.base.pool.seg g).version :=
      congrArg SegmentFileInfo.version hi
    rw [hi] at hrange
    rw [hv]
    cases hd with
    | same h => exact hlat f (h ▸ hfc) hrange
    | flushed _ _ _ ha => cases ha
    | pulled _ ha => cases ha
    | masked _ _ _ ha => cases ha

theorem operationType_of_claim {pool pool' : FlushedSegmentPool} {type : CompactionType}
    {idx0 : ℕ} {idx1 : Option ℕ} (h : pool.claimTask type idx0 idx1 = some (pool', task)) :
    task.operationType = type := by
  unfold FlushedSegmentPool.claimTask at h
  split at h
  · cases h
  · split at h
    · cases h
    · split at h
      · cases h
      · obtain ⟨-, rfl⟩ := Prod.mk.inj (Option.some.inj h)
        rfl
    · obtain ⟨-, rfl⟩ := Prod.mk.inj (Option.some.inj h)
      rfl

/-- A claimed slot keeps a row until its files are read. -/
theorem unmasked_step (h : Inv cfg s) (hf : Feeds s.toState a) (hm : Moves s.toState a c)
    {cfg' : InMemory.Config} (hs : InMemory.step cfg' s.toState a = some c) :
    ∀ task g, Unread c task g → task.operationType ≠ .merge →
      ∀ f ∈ c.disk, f.info = (c.base.pool.seg g).info → RowLeft f f.bitmap := by
  intro task g hu hop f hfc hinfo
  have hd := disk_step h.sound h.claims h.ranged hf hs
  rcases unread_cases hm hs hu with ⟨u, hpc, hw, hg, hnot⟩ |
    ⟨t, ok, p, idx0, idx1, pool, rfl, hpc, hc, hg⟩
  · have hu' : Unread s.toState task g := ⟨u, hpc, hw, hg⟩
    have hold := h.unmasked task g hu' hop
    rw [(pool_fields hm (mem_of_unread h.claims hu')).1] at hinfo
    cases hd with
    | same hd => exact hold f (hd ▸ hfc) hinfo
    | flushed t task' new ha hpc' hw' hd =>
        rw [hd] at hfc
        rcases List.mem_cons.mp hfc with rfl | hfc
        · have hut : u ≠ t := by
            rintro rfl
            exact hnot ha
          have hne : new.info.range ≠ _ := range_ne h.sound h.claims h.ranged hut hpc hg hpc' hw'
          exact absurd (congrArg SegmentFileInfo.range hinfo) hne
        · exact hold f hfc hinfo
    | pulled f' ha hn hd =>
        rw [hd] at hfc
        rcases List.mem_cons.mp hfc with rfl | hfc
        · obtain ⟨f₀, hf₀, -, hmatch⟩ := h.reads hu'
          exact absurd (List.mem_map.mpr ⟨f₀, hf₀, hmatch.info.trans hinfo.symm⟩) hn
        · exact hold f hfc hinfo
    | masked i bitmap n ha hd =>
        subst ha
        rw [hd] at hfc
        obtain ⟨f', hf', rfl⟩ := Disk.mem_writeBitmap.mp hfc
        split at hinfo
        case isTrue hi =>
          rw [if_pos hi]
          exact hf task g hu' hop (hi.symm.trans hinfo) f' hf' hi
        case isFalse hi =>
          rw [if_neg hi]
          exact hold f' hf' hinfo
  · obtain ⟨hmem, -, hleft⟩ := claimed hf hpc hc hg
    rw [(pool_fields hm hmem).1] at hinfo
    cases hd with
    | same hd => exact hleft (operationType_of_claim hc ▸ hop) f (hd ▸ hfc) hinfo
    | flushed _ _ _ ha => cases ha
    | pulled _ ha => cases ha
    | masked _ _ _ ha => cases ha

/-- What a merge thread reads of a slot is its file. -/
theorem readSlot_eq (h : Inv cfg s) (hu : Unread s.toState task g) {f : SegmentFile}
    (hr : readSlot s.toState g = some f) : f ∈ s.disk ∧ Matches s.toState g f := by
  obtain ⟨f', hf', hload, hmatch⟩ := h.reads hu
  rw [readSlot, hload, Option.bind_some, takeRows, ← hmatch.mapping, if_pos le_rfl,
    List.take_length] at hr
  obtain rfl : f' = f := Option.some.inj hr
  exact ⟨hf', hmatch⟩

theorem forall₂_of_mapM {α β : Type*} {k : α → Option β} {l : List α} {r : List β}
    (h : l.mapM k = some r) : List.Forall₂ (fun x y => k x = some y) l r := by
  induction l generalizing r with
  | nil =>
      obtain rfl : r = [] := by simpa using h.symm
      exact .nil
  | cons x l ih =>
      obtain ⟨y, r', hy, hr, rfl⟩ := OnDisk.mapM_cons_eq_some.mp h
      exact .cons hy (ih hr)

/-- What merge threads have read goes with their slots. -/
theorem read_step (h : Inv cfg s) (hm : Moves s.toState a c) {cfg' : InMemory.Config}
    (hs : InMemory.step cfg' s.toState a = some c) {fs : List SegmentFile}
    (hpc : c.base.pc t = .build task) (hw : c.work t = .files fs) :
    List.Forall₂ (Matches c) task.olds fs ∧
      (task.operationType ≠ .merge → ∀ f ∈ fs, RowLeft f f.bitmap) := by
  have htask : (c.base.pc t).task = some task := by rw [hpc]; rfl
  cases hm.task t task htask with
  | claimed _ _ _ _ _ _ _ _ hnone =>
      rw [hnone] at hw
      cases hw
  | kept hkept hb hwork =>
      have hmatches : ∀ {fs}, List.Forall₂ (Matches s.toState) task.olds fs →
          List.Forall₂ (Matches c) task.olds fs := by
        intro fs hfs
        have hmem := (List.forall₂_and_left (p := (· ∈ task.olds)) _ _).mpr ⟨fun _ hg => hg, hfs⟩
        refine hmem.imp fun g f ⟨hg, hmatch⟩ => ?_
        obtain ⟨hi, hcount⟩ := pool_fields hm ((h.claims.linked t task hkept).subset hg)
        exact ⟨hmatch.info.trans hi.symm, hmatch.mapping.trans hcount.symm⟩
      have hread : s.base.pc t = .build task → s.work t = .files fs →
          List.Forall₂ (Matches c) task.olds fs ∧
            (task.operationType ≠ .merge → ∀ f ∈ fs, RowLeft f f.bitmap) :=
        fun hpc hw => ⟨hmatches (h.read t task fs hpc hw), h.left t task fs hpc hw⟩
      by_cases ha : a = .work t
      · subst ha
        obtain ⟨hpc', hphase⟩ := phase hkept hs
        cases hphase with
        | read fs' hw' hfs hc =>
            obtain rfl : fs' = fs := by simpa [hc] using hw
            have hu : ∀ g ∈ task.olds, Unread s.toState task g := fun g hg => ⟨t, hpc', hw', hg⟩
            have hslots := (List.forall₂_and_left (p := (· ∈ task.olds)) _ _).mpr
              ⟨fun _ hg => hg, forall₂_of_mapM hfs⟩
            refine ⟨hmatches (hslots.imp fun g f hr => (h.readSlot_eq (hu g hr.1) hr.2).2),
              fun hop f hf => ?_⟩
            obtain ⟨g, hg, hr⟩ := OnDisk.mem_of_mapM hfs hf
            obtain ⟨hfd, hmatch⟩ := h.readSlot_eq (hu g hg) hr
            exact h.unmasked task g (hu g hg) hop f hfd hmatch.info
        | built _ _ _ _ _ _ hc => simp [hc] at hw
        | flushed _ _ _ _ hc => simp [hc] at hw
        | published _ _ _ _ hc => simp [hc] at hw
      · rcases hwork with hwork | hwork
        · exact hread (hb hpc) (hwork ▸ hw)
        · exact absurd hwork ha

theorem combine_range {s : InMemory.State} (hC : Claims s.base)
    (ht : (s.base.pc t).task = some task) {fs fs' : List SegmentFile} {new : SegmentFile}
    (hfs : List.Forall₂ (Matches s) task.olds fs) (hn : combine task fs fs' = some new) :
    new.startSid = task.mergedStartSid ∧ new.endSid = task.mergedEndSid := by
  unfold combine at hn
  split at hn
  case h_1 f f' =>
    obtain rfl := Option.some.inj hn
    obtain ⟨i, _, hmatch, hnil, holds⟩ := List.forall₂_cons_right_iff.mp hfs
    obtain rfl := List.forall₂_nil_right_iff.mp hnil
    have hfirst := hC.first t task ht i (by rw [holds]; rfl)
    have hlast := hC.last t task ht i (by rw [holds]; rfl)
    exact ⟨(congrArg SegmentFileInfo.startSid hmatch.info).trans hfirst,
      (congrArg SegmentFileInfo.endSid hmatch.info).trans hlast⟩
  case h_2 =>
    obtain rfl := Option.some.inj hn
    exact ⟨rfl, rfl⟩
  case h_3 => cases hn

theorem ranged_step (h : Inv cfg s) (hm : Moves s.toState a c) {cfg' : InMemory.Config}
    (hs : InMemory.step cfg' s.toState a = some c) : Ranged c := by
  intro t task new htask hnew
  cases hm.task t task htask with
  | claimed _ _ _ _ _ _ _ _ hnone =>
      rw [hnone] at hnew
      cases hnew
  | kept hkept hb hwork =>
      by_cases ha : a = .work t
      · subst ha
        obtain ⟨hpc, hphase⟩ := phase hkept hs
        cases hphase with
        | read _ _ _ hc => simp [hc, newFile?] at hnew
        | built fs fs' new' hw hfs hn hc =>
            obtain rfl : new' = new := by simpa [hc, newFile?] using hnew
            exact combine_range h.claims hkept (h.read t task fs hpc hw) hn
        | flushed old new' hw hn hc =>
            obtain rfl : new' = new := by simpa [hc, newFile?] using hnew
            subst hn
            exact h.ranged t task old hkept (by rw [hw]; rfl)
        | published old new' hw hn hc =>
            obtain rfl : new' = new := by simpa [hc, newFile?] using hnew
            subst hn
            exact h.ranged t task old hkept (by rw [hw]; rfl)
      · rcases hwork with hwork | hwork
        · exact h.ranged t task new hkept (hwork ▸ hnew)
        · exact absurd hwork ha

/-- What a merge thread hands to the library. -/
theorem handed (h : Inv cfg s) {fs : List SegmentFile} (hpc : s.base.pc t = .build task)
    (hw : s.work t = .files fs) : Handed cfg s task fs ∧ ∀ f ∈ fs, Written f := by
  have htask : (s.base.pc t).task = some task := by rw [hpc]; rfl
  have hrows := h.rows.work t
  rw [hw] at hrows
  have hindex : ∀ f ∈ fs, Indexes cfg (s.index f.info) f := by
    intro f hf
    obtain ⟨d, hd, hi, hmap, -⟩ := hrows f hf
    have hx := h.indexes d hd
    rw [hi] at hx
    exact ⟨hx.1.trans (congrArg List.length hmap), hx.2⟩
  refine ⟨⟨?_, fun f hf => (hindex f hf).2, h.left t task fs hpc hw, h.claims.paired t task htask⟩,
    fun f hf => ?_⟩
  · have hmem := (List.forall₂_and_left (p := (· ∈ fs)) _ _).mpr
      ⟨fun _ hf => hf, (h.read t task fs hpc hw).flip⟩
    refine (hmem.imp fun f g ⟨hf, hmatch⟩ => ?_).flip
    exact ⟨hmatch.info, hmatch.mapping, (hindex f hf).1.trans hmatch.mapping⟩
  · obtain ⟨d, hd, -, hmap, hoff⟩ := hrows f hf
    exact (h.rows.written d hd).congr hmap hoff

theorem made_step (hk : Keeps cfg vectors) (h : Inv cfg s) (hm : Moves s.toState a s'.toState)
    (hs : InMemory.step cfg.toConfig s.toState a = some s'.toState)
    (hi : IndexCase cfg s a s') {new : SegmentFile} (hpc : s'.base.pc t = .build task)
    (hw : s'.work t = .built new) : ∃ x, s'.built t = some x ∧ Indexes cfg x new := by
  have htask : (s'.base.pc t).task = some task := by rw [hpc]; rfl
  cases hm.task t task htask with
  | claimed _ _ _ _ _ _ _ _ hnone =>
      rw [hnone] at hw
      cases hw
  | kept hkept hb hwork =>
      by_cases ha : a = .work t
      · subst ha
        obtain ⟨hpc', hphase⟩ := phase hkept hs
        cases hphase with
        | read _ _ _ hc => simp [hc] at hw
        | flushed _ _ _ _ hc => simp [hc] at hw
        | published _ _ _ _ hc => simp [hc] at hw
        | built fs fs' new' hw' hfs hn hc =>
            obtain rfl : new' = new := by simpa [hc] using hw
            cases hi with
            | same _ _ hf _ _ => exact absurd hw' (hf t task fs rfl hpc')
            | flushed t' task' new' ha hpct hwt =>
                obtain rfl := InMemory.Action.work.inj ha
                rw [hw'] at hwt
                cases hwt
            | pulled _ ha => cases ha
            | called t' task' gs x n ha hpct hwt hcall _ hbuilt =>
                obtain rfl := InMemory.Action.work.inj ha
                obtain rfl : task = task' := Pc.build.inj (hpc'.symm.trans hpct)
                obtain rfl : fs = gs := Work.files.inj (hw'.symm.trans hwt)
                obtain ⟨hhand, hwritten⟩ := h.handed hpc' hw'
                obtain ⟨y, m, hy, hdim, hcount⟩ := hhand.call hk
                have hret := Option.some.inj (hy.symm.trans hcall)
                obtain ⟨rfl, -⟩ := Prod.mk.inj (Except.ok.inj hret)
                refine ⟨y, by rw [hbuilt, Function.update_self], ?_, hdim⟩
                exact hcount hwritten fs' new' hn
      · have hold : s.work t = .built new := by
          rcases hwork with hwork | hwork
          · rw [← hwork, hw]
          · exact absurd hwork ha
        obtain ⟨x, hx, hind⟩ := h.made t task new (hb hpc) hold
        refine ⟨x, ?_, hind⟩
        cases hi with
        | same _ hbuilt => rw [hbuilt, hx]
        | flushed _ _ _ _ _ _ _ hbuilt => rw [hbuilt, hx]
        | pulled _ _ _ _ hbuilt => rw [hbuilt, hx]
        | called t' _ _ _ _ ha' _ _ _ _ hbuilt =>
            have hne : t ≠ t' := by
              rintro rfl
              exact ha ha'
            rw [hbuilt, Function.update_of_ne hne, hx]

/-- Each file on disk has its index. -/
theorem indexes_step (h : Inv cfg s) (hd : DiskCase s.toState a s'.disk)
    (hs : InMemory.step cfg.toConfig s.toState a = some s'.toState)
    (hi : IndexCase cfg s a s') : ∀ f ∈ s'.disk, Indexes cfg (s'.index f.info) f := by
  have hmask : ∀ {d : Disk} {i : SegmentFileInfo} {bitmap : ℕ → Bool} {n : ℕ},
      d = s.disk.writeBitmap i bitmap n → ∀ f ∈ d, Indexes cfg (s.index f.info) f := by
    rintro d i bitmap n rfl f hf
    obtain ⟨f', hf', rfl⟩ := Disk.mem_writeBitmap.mp hf
    have hx := h.indexes f' hf'
    split <;> exact hx
  cases hi with
  | same hindex _ _ hn hp =>
      rw [hindex]
      cases hd with
      | same hd => rw [hd]; exact h.indexes
      | flushed t task new ha hpc hw => exact absurd hw (hn t task new ha hpc)
      | pulled f ha => exact absurd ha (hp f)
      | masked i bitmap n _ hd => exact hmask hd
  | called t task fs x n ha hpc hw _ hindex =>
      rw [hindex]
      cases hd with
      | same hd => rw [hd]; exact h.indexes
      | flushed t' task' new ha' _ hw' =>
          obtain rfl := InMemory.Action.work.inj (ha.symm.trans ha')
          rw [hw] at hw'
          cases hw'
      | pulled f ha' => rw [ha] at ha'; cases ha'
      | masked i bitmap n ha' hd => exact hmask hd
  | flushed t task new ha hpc hw hindex _ =>
      subst ha
      obtain ⟨x, hx, hind⟩ := h.made t task new hpc hw
      rw [hindex, hx]
      intro f hf
      have hnot : (⟨new.startSid, new.endSid, s.disk.latestVersion new.startSid new.endSid + 1⟩ :
          SegmentFileInfo) ∉ s.disk.map (·.info) := info_notMem new rfl
      have hold : ∀ f ∈ s.disk, Indexes cfg (Function.update s.index ⟨new.startSid, new.endSid,
          s.disk.latestVersion new.startSid new.endSid + 1⟩ x f.info) f := by
        intro f hf
        have hne : f.info ≠ ⟨new.startSid, new.endSid, _⟩ := fun he =>
          hnot (he ▸ List.mem_map_of_mem hf)
        rw [Function.update_of_ne hne]
        exact h.indexes f hf
      cases hd with
      | same hd => exact hold f (hd ▸ hf)
      | flushed t' task' new' ha' _ hw' hd =>
          obtain rfl := InMemory.Action.work.inj ha'
          obtain rfl : new = new' := Work.built.inj (hw.symm.trans hw')
          rw [hd] at hf
          rcases List.mem_cons.mp hf with rfl | hf
          · change Indexes cfg (Function.update s.index _ x _) _
            rw [show ({ new with version := _ } : SegmentFile).info = ⟨new.startSid, new.endSid,
              s.disk.latestVersion new.startSid new.endSid + 1⟩ from rfl, Function.update_self]
            exact hind
          · exact hold f hf
      | pulled _ ha' => cases ha'
      | masked _ _ _ ha' => cases ha'
  | pulled f ha hx hindex _ =>
      subst ha
      simp only [InMemory.step] at hs
      split at hs
      case isTrue hn =>
        have hdisk : s'.disk = f :: s.disk := congrArg InMemory.State.disk (Option.some.inj hs).symm
        rw [hindex, hdisk]
        intro f' hf'
        rcases List.mem_cons.mp hf' with rfl | hf'
        · rw [Function.update_self]
          exact hx
        · have hne : f'.info ≠ f.info := fun he => hn.1 (List.mem_map.mpr ⟨f', hf', he⟩)
          rw [Function.update_of_ne hne]
          exact h.indexes f' hf'
      case isFalse => cases hs

theorem step (hk : Keeps cfg vectors) (h : Inv cfg s) (hf : Feeds s.toState a)
    (hs : Building.step cfg s a = some s') : Inv cfg s' := by
  obtain ⟨hc, hi⟩ := step_cases hs
  have hm := moves_step h.sound h.claims h.ranged h.filled hf hc
  have hd := disk_step h.sound h.claims h.ranged hf hc
  constructor
  case sound => exact hm.sound
  case claims => exact hm.claims
  case filled => exact hm.filled
  case ranged => exact h.ranged_step hm hc
  case rows => exact h.rows.step (h.feedsCounted hf) hc
  case latest => exact latest_step h.sound h.claims h.ranged h.latest hf hm hc
  case unmasked => exact h.unmasked_step hf hm hc
  case read => exact fun t task fs hpc hw => (h.read_step hm hc hpc hw).1
  case left => exact fun t task fs hpc hw => (h.read_step hm hc hpc hw).2
  case indexes => exact h.indexes_step hd hc hi
  case made => exact fun t task new hpc hw => h.made_step hk hm hc hi hpc hw

theorem of_start (h : Start cfg s) : Inv cfg s := by
  obtain ⟨hstart, hindex, -⟩ := h
  have hrows := Rows.of_start hstart
  obtain ⟨files, useMmap, hfiles, hpair, hne, hpool, hpc, hup, hheld, hdrop, hret, hn, -, harr,
    -⟩ := hstart
  have hbase : Pool.Start cfg.pool s.base :=
    ⟨files.map cfg.metadata, useMmap, List.pairwise_map.mpr hpair,
      List.forall_mem_map.mpr hne, hpool, hpc, hup, hheld, hdrop, hret⟩
  have hS := sound_of_start hbase
  have hnone : ∀ t task, (s.base.pc t).task ≠ some task := by
    intro t task ht
    rw [hpc, Function.update_apply] at ht
    split_ifs at ht <;> cases ht
  have hbuild : ∀ {t task}, s.base.pc t ≠ .build task := by
    intro t task ht
    exact hnone t task (by rw [ht]; rfl)
  constructor
  case sound => exact hS
  case claims => exact claims_of_start hbase
  case filled =>
    intro g hg
    have hu := inUsed_of_mem hS hg
    have hfill := filled_loadAll cfg.pool useMmap (files.map cfg.metadata) g
    rw [← hpool] at hfill
    obtain ⟨m, hm, hdata⟩ := hfill hu
    obtain ⟨f, hf, rfl⟩ := List.mem_map.mp hm
    have hinfo : (s.base.pool.seg g).info = f.info := congrArg Prod.fst hdata
    rw [harr g, if_pos hu, (Disk.load_eq_some hn).mpr ⟨hfiles f hf, hinfo.symm⟩]
    rfl
  case ranged => exact fun t task new ht => absurd ht (hnone t task)
  case rows => exact hrows
  case latest =>
    rintro task g ⟨t, ht, -⟩
    exact absurd ht hbuild
  case unmasked =>
    rintro task g ⟨t, ht, -⟩
    exact absurd ht hbuild
  case indexes => exact hindex
  all_goals exact fun t task _ ht => absurd ht hbuild

theorem fed (hk : Keeps cfg vectors) (h : Inv cfg s) : Fed cfg s := by
  constructor
  case reads =>
    intro t task hpc hw g hg
    obtain ⟨f, hf, hload, hmatch⟩ := h.reads ⟨t, hpc, hw, hg⟩
    exact ⟨f, hload, hmatch.info, hmatch.mapping, (h.indexes f hf).1.trans hmatch.mapping⟩
  case passes => exact fun t task fs hpc hw => (h.handed hpc hw).1.versions
  case unmasked => exact fun t task fs hpc hw => h.left t task fs hpc hw
  case succeeds =>
    intro t task fs hpc hw
    obtain ⟨y, n, hy, -⟩ := (h.handed hpc hw).1.call hk
    exact ⟨_, hy⟩

end Inv

end Invariant

/-- In every run whose claims take slots of the latest version, with a row left in those that are
rebuilt, no check of the library fails. -/
theorem fed_of_feeds (hk : Keeps cfg vectors)
    (h : Reachable (Start cfg) (step cfg) (fun s a => Feeds s.toState a) s) : Fed cfg s := by
  have hinv : Inv cfg s :=
    h.invariant (fun _ => Inv.of_start) fun _ _ _ _ h hf hs => h.step hk hf hs
  exact hinv.fed hk

section Demo

/-- Indexes that are lists of vectors; a segment is rebuilt once half of its rows are deleted. -/
def demoConfig : Config (List ℕ) ℕ where
  pool := ⟨10, fun deleteCount vecCount => vecCount < 2 * deleteCount⟩
  indexType := fun _ => .hnsw
  knowhere := listKnowhere
  dim := fun _ => 3
  columnDim := 3
  targetType := .hnsw
  primary := fun _ => []

theorem keeps_demoConfig : Keeps demoConfig id where
  lawful := lawful_listKnowhere
  hasRawData := fun _ => rfl
  dim_build := fun _ _ _ _ _ => rfl
  dim_add := fun _ _ _ _ => rfl
  targetType := by decide

/-- Segment 4 with three rows, masked as given. -/
def demoFile (bitmap : ℕ → Bool) : SegmentFile := .flush 4 [10, 11, 12] bitmap 1

/-- The pool with the segment in slot 0. -/
def demoPool (bitmap : ℕ → Bool) : Pool.State where
  pool := .loadAll demoConfig.pool false [demoConfig.metadata (demoFile bitmap)]
  pc := Function.update (fun _ => .idle) 0 .idle
  upgrades := []
  held := fun _ => 0
  dropping := fun _ => 0
  retired := fun _ => false

def demoStart (bitmap : ℕ → Bool) : State (List ℕ) where
  base := demoPool bitmap
  arrays := fun g => if g = 0 then some (.ofFile (demoFile bitmap)) else none
  disk := [demoFile bitmap]
  work := fun _ => .none
  update := fun _ => .idle
  searches := fun _ => 0
  deleted := (demoFile bitmap).masked
  combined := []
  index := fun _ => [100, 110, 120]
  built := fun _ => none

theorem demoPool_seg (bitmap : ℕ → Bool) (hg : g ≠ 0) :
    ((demoPool bitmap).pool.seg g).inUsed = false := by
  have hr : FlushedSegmentPool.initial.reserve = some (0, (FlushedSegmentPool.initial.setSeg 0
      { FlushedSegment.initial with inUsed := true }).setInsertIdx 1) := rfl
  have hl : (demoPool bitmap).pool = FlushedSegmentPool.initial.loadOne demoConfig.pool false
      (demoConfig.metadata (demoFile bitmap)) := rfl
  rw [hl, FlushedSegmentPool.loadOne, hr]
  dsimp only
  rw [register_inUsed, seg_setSeg, if_neg hg, seg_setInsertIdx, seg_setSeg, if_neg hg]
  rfl

theorem start_demoStart (bitmap : ℕ → Bool) : Start demoConfig (demoStart bitmap) := by
  have hmem : ∀ f ∈ (demoStart bitmap).disk, f = demoFile bitmap := by simp [demoStart]
  refine ⟨⟨[demoFile bitmap], false, by simp [demoStart], by simp, ?_, rfl, rfl, rfl, rfl, rfl, rfl,
    by simp [demoStart], fun f hf => ?_, fun g => ?_, rfl, rfl, rfl, fun f hf => ?_, rfl⟩,
    fun f hf => ?_, rfl⟩
  · simp [demoFile, SegmentFile.flush]
  · rw [hmem f hf]
    exact ⟨rfl, Nat.zero_le _, rfl⟩
  · by_cases hg : g = 0
    · subst hg
      rfl
    · have hu := demoPool_seg bitmap hg
      simp [demoStart, hu, hg]
  · rw [hmem f hf]
    exact marks_markedRows _ _
  · rw [hmem f hf]
    exact ⟨rfl, rfl⟩

/-- Thread 1 claims the segment for a rebuild and reads its files. -/
def demoRebuild : List InMemory.Action :=
  [.scan 1, .run 1 false, .run 1 false, .run 1 false, .run 1 false, .run 1 false, .run 1 false,
    .work 1]

/-- The call thread 1 is about to make. -/
def demoCall (s : State (List ℕ)) : Option (Except String (List ℕ × ℕ)) :=
  match s.base.pc 1, s.work 1 with
  | .build task, .files fs => call demoConfig s task fs
  | _, _ => none

/-- A segment with every row deleted is claimed for a rebuild, which ends in an error. -/
theorem not_fed : ¬ ∀ s, Reachable (Start demoConfig) (step demoConfig) anyStep s →
    Fed demoConfig s := by
  intro h
  have he : (exec (step demoConfig) (demoStart fun _ => true) demoRebuild).map demoCall =
      some (some (.error "MergeIndex: no vectors are selected")) := by
    decide +kernel
  obtain ⟨s, hs, hcall⟩ := Option.map_eq_some_iff.mp he
  have hfed := h s (.of_exec (.start (start_demoStart fun _ => true)) (meets_anyStep _) hs)
  unfold demoCall at hcall
  split at hcall
  case h_1 task fs hpc hw =>
    obtain ⟨r, hr⟩ := hfed.succeeds 1 task fs hpc hw
    rw [hcall] at hr
    cases Option.some.inj hr
  case h_2 => cases hcall

/-- The condition on a step that links no segment and changes no file; it can be evaluated. -/
def feedsQuiet (s : InMemory.State) : InMemory.Action → Bool
  | .scan _ => true
  | .work t =>
      match s.work t with
      | .flushed new => s.disk.latestVersion new.startSid new.endSid = new.version
      | _ => true
  | .run t _ =>
      match s.base.pc t with
      | .gate _ | .traverse _ _ => true
      | .claim p idx0 idx1 => claimOlds (.ofPriority p) idx0 idx1 <:+: s.base.pool.members ∧
          ∀ g ∈ claimOlds (.ofPriority p) idx0 idx1, Latest s.disk (s.base.pool.seg g) ∧
            ∀ f ∈ s.disk, f.info = (s.base.pool.seg g).info → RowLeft f f.bitmap
      | _ => false
  | _ => false

theorem feeds_of_quiet {s : InMemory.State} (h : feedsQuiet s a = true) : Feeds s a := by
  cases a with
  | scan t => trivial
  | work t =>
      dsimp only [feedsQuiet] at h
      unfold Feeds
      dsimp only
      split
      case h_1 task new hpc hw => simpa [hw] using h
      case h_2 => trivial
  | run t ok =>
      dsimp only [feedsQuiet] at h
      unfold Feeds SteadyRun
      dsimp only
      cases hpc : s.base.pc t with
      | gate p => exact ⟨trivial, trivial⟩
      | traverse p firstPass => exact ⟨trivial, trivial⟩
      | claim p idx0 idx1 =>
          simp only [hpc, decide_eq_true_eq] at h
          exact ⟨fun _ => h.1, fun _ g hg => ⟨(h.2 g hg).1, fun _ => (h.2 g hg).2⟩⟩
      | _ => simp [hpc] at h
  | _ => cases h

/-- With a row left, the rebuild is handed one vector, and takes it. -/
theorem fed_demoRebuild : ∃ s,
    exec (step demoConfig) (demoStart fun i => i < 2) demoRebuild = some s ∧
      demoCall s = some (.ok ([120], 1)) ∧ Fed demoConfig s := by
  have he : (exec (step demoConfig) (demoStart fun i => i < 2) demoRebuild).map demoCall =
      some (some (.ok ([120], 1))) := by
    decide +kernel
  obtain ⟨s, hs, hcall⟩ := Option.map_eq_some_iff.mp he
  have hm : Meets (fun s a => feedsQuiet s.toState a = true) (step demoConfig)
      (demoStart fun i => i < 2) demoRebuild := by
    decide +kernel
  exact ⟨s, hs, hcall, fed_of_feeds keeps_demoConfig
    (.of_exec (.start (start_demoStart fun i => i < 2)) (hm.mono fun _ _ => feeds_of_quiet) hs)⟩

end Demo

end VectorLsm.Building
