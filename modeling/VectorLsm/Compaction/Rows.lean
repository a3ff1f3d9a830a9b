import VectorLsm.Compaction.Inputs
import VectorLsm.InMemory.SameVersion

/-! # Row counts of slots and files

A slot that points to arrays says how many rows the file of its version has. What a compaction
holds between its phases goes with files on disk in the same way.
-/

namespace VectorLsm.Building

open Pool FlushedSegmentPool Transition InMemory

variable {s s' : InMemory.State} {t slot g : ℕ} {disk disk' : Disk}

/-- The arrays of a slot have the rows of a file of its range and version. -/
def HeldRows (disk : Disk) (d : SegmentFileInfo × ℕ × SegmentLoadState) (a : Arrays) : Prop :=
  HasFile disk d.1 a.map ∧ d.2.1 = a.map.length

/-- What a thread holds between two steps goes with files on disk. -/
def WorkRows (disk : Disk) : Work → Prop
  | .none | .index _ | .groups _ => True
  | .files fs =>
      ∀ f ∈ fs, ∃ d ∈ disk, d.info = f.info ∧ d.mapping = f.mapping ∧ d.offsets = f.offsets
  | .built new => Written new
  | .flushed new | .published new => HasFile disk new.info new.mapping

theorem WorkRows.mono {w : Work} (h : WorkRows disk w) (hg : Grows disk disk') :
    WorkRows disk' w := by
  cases w with
  | files fs => exact hg.files h
  | flushed new => exact HasFile.mono h hg
  | published new => exact HasFile.mono h hg
  | _ => exact h

/-- Files, arrays and work go together. -/
structure Rows (s : InMemory.State) : Prop where
  nodup : (s.disk.map (·.info)).Nodup
  written : ∀ f ∈ s.disk, Written f
  held : ∀ g a, s.arrays g = some a → HeldRows s.disk (data (s.base.pool.seg g)) a
  work : ∀ t, WorkRows s.disk (s.work t)

/-- The condition on a step, and the files a compaction reads have the row counts of its slots. -/
def FeedsCounted (s : InMemory.State) (a : InMemory.Action) : Prop :=
  Feeds s a ∧ ∀ t task, a = .work t → s.base.pc t = .build task → s.work t = .none →
    Counted s task

namespace Rows

theorem setWork {w : Work} (h : Rows s) (hw : WorkRows s.disk w) : Rows (s.setWork t w) where
  nodup := h.nodup
  written := h.written
  held := h.held
  work := by
    intro u
    rw [State.setWork_work, Function.update_apply]
    split
    · exact hw
    · exact h.work u

theorem setDisk (h : Rows s) (hg : Grows s.disk disk) (hn : (disk.map (·.info)).Nodup)
    (hw : ∀ f ∈ disk, Written f) : Rows (s.setDisk disk) where
  nodup := hn
  written := hw
  held := fun g a ha => ⟨(h.held g a ha).1.mono hg, (h.held g a ha).2⟩
  work := fun t => (h.work t).mono hg

theorem addDeleted (h : Rows s) (rows : List MappedRow) : Rows (s.addDeleted rows) :=
  ⟨h.nodup, h.written, h.held, h.work⟩

theorem setBase {b : Pool.State} {arrays : ℕ → Option Arrays} (h : Rows s)
    (ha : ∀ g a, arrays g = some a → HeldRows s.disk (data (b.pool.seg g)) a) :
    Rows (s.setBase b arrays) where
  nodup := h.nodup
  written := h.written
  held := by
    intro g a hg
    rw [State.setBase_arrays] at hg
    split at hg
    · exact ha g a hg
    · cases hg
  work := h.work

theorem quiet {b : Pool.State} (h : Rows s) (hf : SameFields s.base.pool b.pool) :
    Rows (s.setBase b s.arrays) :=
  h.setBase fun g a ha => by
    rw [hf g]
    exact h.held g a ha

/-- A slot is filled. -/
theorem filled {b : Pool.State} {a : Arrays} (h : Rows s)
    (hs : HeldRows s.disk (data (b.pool.seg slot)) a)
    (hf : ∀ g ≠ slot, data (b.pool.seg g) = data (s.base.pool.seg g)) :
    Rows (s.setBase b (s.fill slot a)) := by
  refine h.setBase fun g a' hg => ?_
  rw [State.fill, Function.update_apply] at hg
  split at hg
  case isTrue hgs =>
    subst hgs
    obtain rfl := Option.some.inj hg
    exact hs
  case isFalse hgs =>
    rw [hf g hgs]
    exact h.held g a' hg

/-- The bitmap of a slot and its delete count change. -/
theorem remark {a : Arrays} {b : Pool.State} {bitmap acked : ℕ → Bool} (h : Rows s)
    (ha : s.arrays slot = some a) (hf : SameFields s.base.pool b.pool) :
    Rows { s with
      base := b, arrays := s.fill slot { a with bitmap := bitmap, acked := acked } } where
  nodup := h.nodup
  written := h.written
  held := by
    intro g a' hg
    dsimp only [State.fill] at hg ⊢
    rw [hf g]
    rw [Function.update_apply] at hg
    split at hg
    case isTrue hgs =>
      subst hgs
      obtain rfl := Option.some.inj hg
      exact h.held g a ha
    case isFalse => exact h.held g a' hg
  work := h.work

theorem built {task : MergeTask} {fs fs' : List SegmentFile} {new : SegmentFile} (h : Rows s)
    (hw : s.work t = .files fs) (hfs : (fs.mapM fun f => s.disk.load f.info) = some fs')
    (hc : combine task fs fs' = some new) : Written new := by
  have hwork := h.work t
  rw [hw] at hwork
  rcases combine_cases h.nodup hwork hfs hc with ⟨f, f', hd, hmap, hoff, rfl⟩ |
    ⟨f, f', hd, g, g', hd', hmap, hoff, hmap', hoff', rfl⟩
  case inl => exact SegmentFile.rebuild_tiles ((h.written f' hd).congr hmap hoff)
  case inr =>
    have hf : Written (f.setBitmap f'.bitmap f'.deleteCount) := (h.written f' hd).congr hmap hoff
    have hg : Written (g.setBitmap g'.bitmap g'.deleteCount) :=
      (h.written g' hd').congr hmap' hoff'
    exact written_merge hf hg

theorem flush {new : SegmentFile} (h : Rows s) (hw : s.work t = .built new) {version : ℕ}
    (hv : version = s.disk.latestVersion new.startSid new.endSid + 1) :
    Rows ((s.setDisk ({ new with version := version } :: s.disk)).setWork t
      (.flushed { new with version := version })) := by
  have hwork := h.work t
  rw [hw] at hwork
  have hd := h.setDisk (.cons { new with version := version } s.disk)
    (List.nodup_cons.mpr ⟨info_notMem new hv, h.nodup⟩)
    (List.forall_mem_cons.mpr ⟨hwork, h.written⟩)
  exact hd.setWork ⟨_, List.mem_cons_self, rfl, rfl⟩

theorem writeBitmap {f : SegmentFile} {i : SegmentFileInfo} {bitmap : ℕ → Bool} {n : ℕ}
    (h : Rows s) : Rows ((s.addDeleted (f.setBitmap bitmap n).masked).setDisk
      (s.disk.writeBitmap i bitmap n)) := by
  refine (h.addDeleted _).setDisk (.writeBitmap s.disk i bitmap n) ?_ ?_
  · rw [Disk.writeBitmap_info]
    exact h.nodup
  · intro _ hg'
    obtain ⟨g, hg, rfl⟩ := Disk.mem_writeBitmap.mp hg'
    split <;> exact h.written g hg

theorem pieces (cfg : InMemory.Config) : Pieces cfg FeedsCounted Rows where
  quiet h hf := h.quiet hf.sameFields
  update h := ⟨h.nodup, h.written, h.held, h.work⟩
  searches h := ⟨h.nodup, h.written, h.held, h.work⟩
  idle {s t} h := h.setWork (w := .none) trivial
  index {s t i} h := h.setWork (w := .index i) trivial
  announce {s t gs} h := (h.addDeleted (gs.flatMap (·.rows))).setWork (w := .groups gs) trivial
  load {s b slot f} h hf hs := by
    refine h.filled ?_ fun g hg => hs.data_other hg
    rw [hs.data_self]
    exact ⟨⟨f, hf, rfl, rfl⟩, rfl⟩
  failed {s b t ok a slot} h hm hpc hload hseg := by
    have hc := hm.1
    simp only [Feeds, hpc] at hc
    have hnone := hc.2 hload
    refine h.setBase fun g a' ha => ?_
    have hg : g ≠ slot := by
      rintro rfl
      rw [hnone] at ha
      cases ha
    rw [hseg, if_neg hg]
    exact h.held g a' ha
  union h _ _ ha := h.remark ha (.setSeg _ rfl)
  upgrade {s b idx old i a offsets} h ha hs := by
    refine h.filled ?_ fun g hg => hs.data_other hg
    rw [hs.data_self]
    exact h.held old a ha
  compacted {s b t slot new offsets} h hw hs := by
    refine h.filled ?_ fun g hg => hs.data_other hg
    rw [hs.data_self]
    have hwork := h.work t
    rw [hw] at hwork
    exact ⟨hwork, rfl⟩
  read h hm hpc hw hfs := h.setWork (files_read (hm.2 _ _ rfl hpc hw) hfs)
  built h hw hfs hcomb := h.setWork (h.built hw hfs hcomb)
  flush h hw hv := h.flush hw hv
  publish {s t task new} h hm hpc hw := by
    have hc := hm.1
    simp only [Feeds, hpc, hw] at hc
    have hwork := h.work t
    rw [hw] at hwork
    rw [hc]
    exact h.setWork hwork
  pull {s f} h _ hn hw := (h.addDeleted f.masked).setDisk (.cons f s.disk)
    (List.nodup_cons.mpr ⟨hn, h.nodup⟩) (List.forall_mem_cons.mpr ⟨hw, h.written⟩)
  writeBitmap h _ _ := h.writeBitmap
  orBits {s t lo hi g f a junk} h _ _ _ ha := by
    have hr : Rows { s with
        base := (s.setDeleteCount g f.deleteCount).base
        arrays := s.fill g
          { a with bitmap := orBytes a f (s.base.pool.seg g).vecCount junk } } :=
      h.remark ha (.setSeg _ rfl)
    exact ⟨hr.nodup, hr.written, hr.held, hr.work⟩
  acked h ha := h.remark ha fun _ => rfl

theorem step {cfg : InMemory.Config} {a : InMemory.Action} (h : Rows s) (ha : FeedsCounted s a)
    (hs : InMemory.step cfg s a = some s') : Rows s' := (pieces cfg).step h ha hs

theorem of_start {cfg : InMemory.Config} (h : InMemory.Start cfg s) : Rows s := by
  have hi := inv_of_start h
  exact ⟨hi.nodup, hi.written, fun g a ha => ⟨(hi.held g a ha).hasFile, (hi.held g a ha).vecCount⟩,
    fun t => by
      obtain ⟨-, -, -, -, -, -, -, -, -, -, -, -, -, -, hwork, -⟩ := h
      rw [hwork]
      trivial⟩

end Rows

end VectorLsm.Building
