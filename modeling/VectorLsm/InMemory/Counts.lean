import VectorLsm.InMemory.SameVersion
import VectorLsm.Segment.Chain

/-! # Delete counts

A file and the arrays of a slot each go with a count of the bits set in their bitmap. Every change
keeps the two in step but for two that take the count of one bitmap for another: the worker, which
sets the bits of a file and stores its count, and a compaction that reads files with other numbers
of rows than its slots have.
-/

namespace VectorLsm.InMemory

open Pool FlushedSegmentPool Transition SegmentFile

variable {cfg : Config} {s : State} {t slot : ℕ}

section Union

variable {map rs rs' : List MappedRow} {old : ℕ → Bool} {i m : ℕ} {s₀ s : Marking}

/-- The pass sets bits of rows of the new segment. -/
theorem sets_unionWalk (h : Sets map.length s₀ s) (hrs' : rs' <+: map.drop m) :
    Sets map.length s₀ (unionWalk old i m rs rs' s) := by
  induction rs generalizing i m rs' s with
  | nil => exact h
  | cons r rs ih =>
      cases rs' with
      | nil => exact h
      | cons r' rs' =>
          have hm : m < map.length :=
            (List.getElem?_eq_some_iff.mp (getElem?_of_slice hrs')).1
          rw [unionWalk]
          split
          case isTrue =>
            refine ih ?_ (slice_tail hrs')
            split
            case isTrue => exact h.set hm
            case isFalse => exact h
          case isFalse => exact ih h hrs'

theorem sets_groupWalk {ts : List Tid} (h : Sets map.length s₀ s) (hrs : rs <+: map.drop m) :
    Sets map.length s₀ (groupWalk m rs ts s) := by
  induction rs generalizing m ts s with
  | nil => exact h
  | cons r rs ih =>
      cases ts with
      | nil => exact h
      | cons t ts =>
          have hm : m < map.length := (List.getElem?_eq_some_iff.mp (getElem?_of_slice hrs)).1
          rw [groupWalk]
          split
          case isTrue => exact ih (h.set hm) (slice_tail hrs)
          case isFalse => exact ih h (slice_tail hrs)

variable {new old : Arrays} {groups : List DpvVacuumGroup}

theorem sets_unionSegment (h : Sets new.map.length s₀ s) :
    Sets new.map.length s₀ (new.unionSegment old s) := by
  unfold Arrays.unionSegment
  split
  case h_1 oldOffsets newOffsets _ _ =>
    refine List.foldlRecOn (motive := Sets new.map.length s₀) newOffsets _ h fun m hm n _ => ?_
    split
    case h_1 => exact hm
    case h_2 => exact sets_unionWalk hm (sliceOf_drop _ _)
  case h_2 => exact h

theorem sets_unionGroups (h : Sets new.map.length s₀ s) :
    Sets new.map.length s₀ (new.unionGroups groups s) := by
  unfold Arrays.unionGroups
  split
  case h_1 => exact h
  case h_2 newOffsets _ =>
    refine List.foldlRecOn (motive := Sets new.map.length s₀) groups _ h fun m hm g _ => ?_
    split
    case h_1 => exact hm
    case h_2 => exact sets_groupWalk hm (sliceOf_drop _ _)

theorem sets_union (s : State) (a : Arrays) (kind : AdoptCase) (snaps : List PredSnap)
    (gs : List DpvVacuumGroup) :
    Sets a.map.length ⟨a.bitmap, 0⟩ (s.union a kind snaps gs) := by
  unfold State.union
  dsimp only
  generalize hm : snaps.foldl _ _ = m
  have hsnaps : Sets a.map.length ⟨a.bitmap, 0⟩ m := by
    rw [← hm]
    refine List.foldlRecOn (motive := Sets a.map.length ⟨a.bitmap, 0⟩) snaps _ (.refl _ _)
      fun m hm p _ => ?_
    split
    case h_1 => exact hm
    case h_2 => exact sets_unionSegment hm
  split
  case isTrue => exact hsnaps
  case isFalse => exact sets_unionGroups hsnaps

end Union

/-- What a slot says of its arrays: the number of rows, and that of the bits set. -/
def Tallies (c : (SegmentFileInfo × ℕ × SegmentLoadState) × ℕ) (a : Arrays) : Prop :=
  c.1.2.1 = a.map.length ∧ c.2 = countBits a.bitmap a.map.length

theorem tallies_contentOf {f : SegmentFile} {a : Arrays} (h : f.Counted)
    (hm : a.map = f.mapping) (hb : a.bitmap = f.bitmap) : Tallies (contentOf f) a := by
  unfold Tallies
  rw [hm, hb]
  exact ⟨rfl, h⟩

/-- What a compaction holds is counted. -/
def WorkCounted (disk : Disk) : Work → Prop
  | .none | .index _ | .groups _ => True
  | .files fs =>
      ∀ f ∈ fs, ∃ d ∈ disk, d.info = f.info ∧ d.mapping = f.mapping ∧ d.offsets = f.offsets
  | .built new => Written new ∧ new.Counted
  | .flushed new | .published new => new.Counted

theorem WorkCounted.mono {disk disk' : Disk} {w : Work} (h : WorkCounted disk w)
    (hg : Grows disk disk') : WorkCounted disk' w := by
  cases w with
  | files fs => exact hg.files h
  | _ => exact h

/-- The count of each file and slot is that of its bitmap. -/
structure Exact (s : State) : Prop where
  nodup : (s.disk.map (·.info)).Nodup
  written : ∀ f ∈ s.disk, Written f
  counted : ∀ f ∈ s.disk, f.Counted
  held : ∀ g a, s.arrays g = some a → Tallies (content (s.base.pool.seg g)) a
  work : ∀ t, WorkCounted s.disk (s.work t)

/-- The condition on a step: a file whose bitmap the worker reads has every bit that is set in
memory, and a compaction reads files with the row counts of its slots. -/
def UpToDate (s : State) : Action → Prop
  | .work t =>
      match s.base.pc t, s.work t with
      | .build task, .none => Counted s task
      | _, _ => True
  | .updateNext t _ =>
      match s.update t with
      | .checked lo hi g =>
          ∀ f ∈ s.disk.loadLatest lo hi, ∀ a ∈ s.arrays g,
            f.mapping.length = (s.base.pool.seg g).vecCount ∧
              ∀ i < (s.base.pool.seg g).vecCount, a.bitmap i = true → f.bitmap i = true
      | _ => True
  | _ => True

/-- The files and bitmaps the directory is handed are counted. -/
def Handed (s : State) : Action → Prop
  | .pull f => f.Counted
  | .writeBitmap i bitmap n => ∀ f ∈ s.disk.load i, n = countBits bitmap f.mapping.length
  | _ => True

namespace Exact

theorem setWork {w : Work} (h : Exact s) (hw : WorkCounted s.disk w) : Exact (s.setWork t w) where
  nodup := h.nodup
  written := h.written
  counted := h.counted
  held := h.held
  work := by
    intro u
    rw [State.setWork_work, Function.update_apply]
    split
    · exact hw
    · exact h.work u

theorem setUpdate {pc : UpdatePc} (h : Exact s) : Exact (s.setUpdate t pc) :=
  ⟨h.nodup, h.written, h.counted, h.held, h.work⟩

theorem setSearches {n : ℕ → ℕ} (h : Exact s) : Exact (s.setSearches n) :=
  ⟨h.nodup, h.written, h.counted, h.held, h.work⟩

theorem addDeleted (h : Exact s) (rows : List MappedRow) : Exact (s.addDeleted rows) :=
  ⟨h.nodup, h.written, h.counted, h.held, h.work⟩

theorem addCombined (h : Exact s) (p : ℕ × ℕ) : Exact (s.addCombined p) :=
  ⟨h.nodup, h.written, h.counted, h.held, h.work⟩

theorem setDisk {disk : Disk} (h : Exact s) (hg : Grows s.disk disk)
    (hn : (disk.map (·.info)).Nodup) (hw : ∀ f ∈ disk, Written f)
    (hc : ∀ f ∈ disk, f.Counted) : Exact (s.setDisk disk) :=
  ⟨hn, hw, hc, h.held, fun t => (h.work t).mono hg⟩

/-- The pool takes a step; the arrays that stay or are new go with their slots. -/
theorem setBase {b : Pool.State} {arrays : ℕ → Option Arrays} (h : Exact s)
    (ha : ∀ g a, arrays g = some a → Tallies (content (b.pool.seg g)) a) :
    Exact (s.setBase b arrays) where
  nodup := h.nodup
  written := h.written
  counted := h.counted
  held := by
    intro g a hg
    rw [State.setBase_arrays] at hg
    split at hg
    · exact ha g a hg
    · cases hg
  work := h.work

theorem quiet {b : Pool.State} (h : Exact s) (hc : SameContent s.base.pool b.pool) :
    Exact (s.setBase b s.arrays) :=
  h.setBase fun g a ha => by
    rw [hc g]
    exact h.held g a ha

/-- The arrays of a slot are new. -/
theorem held_fill {pool : FlushedSegmentPool} {a : Arrays} (h : Exact s)
    (hs : Tallies (content (pool.seg slot)) a)
    (hf : ∀ g ≠ slot, content (pool.seg g) = content (s.base.pool.seg g)) {g : ℕ} {a' : Arrays}
    (hg : s.fill slot a g = some a') : Tallies (content (pool.seg g)) a' := by
  rw [State.fill, Function.update_apply] at hg
  split at hg
  case isTrue hgs =>
    subst hgs
    obtain rfl := Option.some.inj hg
    exact hs
  case isFalse hgs =>
    rw [hf g hgs]
    exact h.held g a' hg

theorem filled {b : Pool.State} {a : Arrays} (h : Exact s)
    (hs : Tallies (content (b.pool.seg slot)) a)
    (hf : ∀ g ≠ slot, content (b.pool.seg g) = content (s.base.pool.seg g)) :
    Exact (s.setBase b (s.fill slot a)) :=
  h.setBase fun _ _ hg => h.held_fill hs hf hg

/-- The bitmap of a slot changes, and its count. -/
theorem setCount {a : Arrays} {n : ℕ} (h : Exact s)
    (ha : Tallies (data (s.base.pool.seg slot), n) a) :
    Exact { s.setDeleteCount slot n with arrays := s.fill slot a } where
  nodup := h.nodup
  written := h.written
  counted := h.counted
  held := by
    intro g a' hg
    have hseg : ∀ g', (s.setDeleteCount slot n).base.pool.seg g' =
        if g' = slot then { s.base.pool.seg slot with deleteCount := n }
        else s.base.pool.seg g' := fun g' => seg_setSeg ..
    refine h.held_fill ?_ (fun g' hg' => ?_) hg
    · rw [hseg, if_pos rfl]
      exact ha
    · rw [hseg, if_neg hg']
  work := h.work

theorem latest_mem (h : Exact s) {lo hi : SegmentId} {f : SegmentFile}
    (hf : s.disk.loadLatest lo hi = some f) : f ∈ s.disk :=
  ((Disk.load_eq_some h.nodup).mp hf).1

/-- The bits an adoption carries over are counted. -/
theorem mark {a : Arrays} {m : Marking} (h : Exact s) (ha : s.arrays slot = some a)
    (hm : Sets a.map.length ⟨a.bitmap, 0⟩ m) : Exact (s.mark slot a m) := by
  obtain ⟨hlen, hcount⟩ := h.held slot a ha
  have hcount : (s.base.pool.seg slot).deleteCount = countBits a.bitmap a.map.length := hcount
  have hcounts : m.Counts a.map.length a.bitmap := hm.counts rfl
  refine h.setCount ⟨hlen, ?_⟩
  dsimp only
  rw [hcount]
  exact hcounts.symm

/-- A file that has every bit set in memory has the count of the bits of both. -/
theorem orBits {f : SegmentFile} {a : Arrays} {lo hi : SegmentId} (h : Exact s)
    (junk : ℕ → Bool) (hf : s.disk.loadLatest lo hi = some f) (ha : s.arrays slot = some a)
    (hlen : f.mapping.length = (s.base.pool.seg slot).vecCount)
    (hb : ∀ i < (s.base.pool.seg slot).vecCount, a.bitmap i = true → f.bitmap i = true) :
    Exact (s.orBitmap slot f a junk) := by
  obtain ⟨hrows, -⟩ := h.held slot a ha
  have hrows : (s.base.pool.seg slot).vecCount = a.map.length := hrows
  let b := orBytes a f (s.base.pool.seg slot).vecCount junk
  have hcount : f.deleteCount = countBits b a.map.length := by
    rw [h.counted f (h.latest_mem hf), hlen, hrows]
    refine countBits_congr fun i hi => ?_
    have hbyte : i < 8 * bitmapSize a.map.length := by
      unfold bitmapSize
      omega
    rw [hrows] at hb
    dsimp only [b]
    rw [orBytes, hlen, hrows, if_pos hbyte, decide_eq_true hbyte, Bool.true_and]
    cases hab : a.bitmap i with
    | true => exact hb i hi hab
    | false => rfl
  have hset := h.setCount (a := { a with bitmap := b }) ⟨hrows, hcount⟩
  exact hset.addCombined _

/-- The new segment of a compaction, from the bitmaps read again. -/
theorem workCounted_built {task : MergeTask} {fs fs' : List SegmentFile} {new : SegmentFile}
    (h : Exact s) (hfs : WorkCounted s.disk (.files fs))
    (hl : (fs.mapM fun f => s.disk.load f.info) = some fs')
    (hc : combine task fs fs' = some new) : WorkCounted s.disk (.built new) := by
  rcases combine_cases h.nodup hfs hl hc with ⟨f, f', hd, hmap, hoff, rfl⟩ |
    ⟨f, f', hd, g, g', hd', hmap, hoff, hmap', hoff', rfl⟩
  case inl =>
    have hwf : Written f := (h.written f' hd).congr hmap hoff
    exact ⟨SegmentFile.rebuild_tiles hwf, rebuild_counted hwf _ _ _⟩
  case inr =>
    have hwf : Written (f.setBitmap f'.bitmap f'.deleteCount) := (h.written f' hd).congr hmap hoff
    have hwg : Written (g.setBitmap g'.bitmap g'.deleteCount) :=
      (h.written g' hd').congr hmap' hoff'
    exact ⟨written_merge hwf hwg,
      ((h.counted f' hd).reread hmap).merge ((h.counted g' hd').reread hmap') 0⟩

theorem flush {new : SegmentFile} (h : Exact s) (hw : s.work t = .built new) {version : ℕ}
    (hv : version = s.disk.latestVersion new.startSid new.endSid + 1) :
    Exact ((s.setDisk ({ new with version := version } :: s.disk)).setWork t
      (.flushed { new with version := version })) := by
  have hwork := h.work t
  rw [hw] at hwork
  have hd := h.setDisk (.cons { new with version := version } s.disk)
    (List.nodup_cons.mpr ⟨info_notMem new hv, h.nodup⟩)
    (List.forall_mem_cons.mpr ⟨hwork.1, h.written⟩)
    (List.forall_mem_cons.mpr ⟨hwork.2, h.counted⟩)
  exact hd.setWork hwork.2

theorem writeBitmap {f : SegmentFile} {i : SegmentFileInfo} {bitmap : ℕ → Bool} {n : ℕ}
    (h : Exact s) (hf : s.disk.load i = some f) (hn : n = countBits bitmap f.mapping.length) :
    Exact ((s.addDeleted (f.setBitmap bitmap n).masked).setDisk
      (s.disk.writeBitmap i bitmap n)) := by
  obtain ⟨hmem, rfl⟩ := (Disk.load_eq_some h.nodup).mp hf
  refine (h.addDeleted _).setDisk (.writeBitmap s.disk f.info bitmap n) ?_ ?_ ?_
  · rw [Disk.writeBitmap_info]
    exact h.nodup
  · intro _ hg'
    obtain ⟨g, hg, rfl⟩ := Disk.mem_writeBitmap.mp hg'
    split <;> exact h.written g hg
  · intro _ hg'
    obtain ⟨g, hg, rfl⟩ := Disk.mem_writeBitmap.mp hg'
    split
    case isTrue hi =>
      obtain rfl : g = f := List.inj_on_of_nodup_map h.nodup hg hmem hi
      exact hn
    case isFalse => exact h.counted g hg

/-- The invariant goes through every change. -/
theorem pieces (cfg : Config) : Pieces cfg (fun s a => UpToDate s a ∧ Handed s a) Exact where
  quiet h hc := h.quiet hc
  update h := h.setUpdate
  searches h := h.setSearches
  idle h := h.setWork (w := .none) trivial
  index {s t i} h := h.setWork (w := .index i) trivial
  announce {s t gs} h := (h.addDeleted (gs.flatMap (·.rows))).setWork (w := .groups gs) trivial
  load {s b slot f} h hf hs := by
    refine h.filled ?_ fun g hg => hs.other hg
    rw [hs.self]
    exact tallies_contentOf (h.counted f hf) rfl rfl
  failed {s b t ok a slot} h _ _ _ hseg := by
    refine h.setBase fun g a' ha => ?_
    rw [hseg]
    split
    case isTrue hg =>
      subst hg
      exact h.held g a' ha
    case isFalse => exact h.held g a' ha
  union {s t ok slot kind snaps a} h _ _ ha := h.mark ha (sets_union s a kind snaps _)
  upgrade {s b idx old i a offsets} h ha hs := by
    refine h.filled ?_ fun g hg => hs.other hg
    rw [hs.self]
    exact h.held old a ha
  compacted {s b t slot new offsets} h hw hs := by
    refine h.filled ?_ fun g hg => hs.other hg
    rw [hs.self]
    have hwork := h.work t
    rw [hw] at hwork
    exact tallies_contentOf hwork rfl rfl
  read {s t task fs} h hc hpc hw hfs := by
    obtain ⟨hc, -⟩ := hc
    simp only [UpToDate, hpc, hw] at hc
    exact h.setWork (w := .files fs) (files_read hc hfs)
  built {s t task fs fs' new} h hw hfs hcomb := by
    have hwork := h.work t
    rw [hw] at hwork
    exact h.setWork (h.workCounted_built hwork hfs hcomb)
  flush h hw hv := h.flush hw hv
  publish {s t task new} h _ _ hw := by
    have hwork := h.work t
    rw [hw] at hwork
    exact h.setWork hwork
  pull {s f} h hc hn hw := (h.addDeleted _).setDisk (.cons f s.disk)
    (List.nodup_cons.mpr ⟨hn, h.nodup⟩) (List.forall_mem_cons.mpr ⟨hw, h.written⟩)
    (List.forall_mem_cons.mpr ⟨hc.2, h.counted⟩)
  writeBitmap {s i f bitmap n} h hc hf := h.writeBitmap hf (hc.2 f hf)
  orBits {s t lo hi g f a junk} h hc hu hf ha := by
    obtain ⟨hc, -⟩ := hc
    simp only [UpToDate, hu] at hc
    obtain ⟨hlen, hb⟩ := hc f hf a ha
    exact h.orBits junk hf ha hlen hb
  acked {s g a acked} h ha := by
    have hold := h.held g a ha
    exact ⟨h.nodup, h.written, h.counted,
      fun _ _ hg => h.held_fill (a := { a with acked := acked }) hold (fun _ _ => rfl) hg, h.work⟩

end Exact

/-- Files stay on disk. -/
theorem grows_pieces (cfg : Config) (disk : Disk) :
    Pieces cfg (fun _ _ => True) fun s => Grows disk s.disk where
  quiet h _ := h
  update h := h
  searches h := h
  idle h := h
  index h := h
  announce h := h
  load h _ _ := h
  failed h _ _ _ _ := h
  union h _ _ _ := h
  upgrade h _ _ := h
  compacted h _ _ := h
  read h _ _ _ _ := h
  built h _ _ _ := h
  flush h _ _ := h.trans (.cons _ _)
  publish h _ _ _ := h
  pull h _ _ _ := h.trans (.cons _ _)
  writeBitmap h _ _ := h.trans (.writeBitmap _ _ _ _)
  orBits h _ _ _ _ := h
  acked h _ := h

theorem grows_step {s' : State} {a : Action} (h : step cfg s a = some s') :
    Grows s.disk s'.disk :=
  (grows_pieces cfg s.disk).step (.refl s.disk) trivial h

end VectorLsm.InMemory
