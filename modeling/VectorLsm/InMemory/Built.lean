import VectorLsm.InMemory.Fields
import VectorLsm.Segment.Rebuild
import VectorLsm.Vacuum.Files

/-! # Bits against the rows of their version

What holds of the files on disk, of the arrays of a slot and of what a compaction holds: a bit set
for a row stands for a deletion of that row. Files stay on disk, and only their bitmaps change.
-/

namespace VectorLsm

open Compact

namespace InMemory

variable {deleted deleted' : List MappedRow} {disk disk' : Disk} {f g new : SegmentFile}

/-- Every file of the first directory is in the second, with some bitmap. -/
def Grows (disk disk' : Disk) : Prop :=
  ∀ f ∈ disk, ∃ f' ∈ disk', f'.info = f.info ∧ f'.mapping = f.mapping ∧ f'.offsets = f.offsets

theorem Grows.refl (disk : Disk) : Grows disk disk := fun f hf => ⟨f, hf, rfl, rfl, rfl⟩

theorem Grows.trans {disk'' : Disk} (h : Grows disk disk') (h' : Grows disk' disk'') :
    Grows disk disk'' := by
  intro f hf
  obtain ⟨f', hf', hi, hm, ho⟩ := h f hf
  obtain ⟨g, hg, hi', hm', ho'⟩ := h' f' hf'
  exact ⟨g, hg, hi'.trans hi, hm'.trans hm, ho'.trans ho⟩

/-- Files read at some time are still there, with some bitmap. -/
theorem Grows.files {fs : List SegmentFile} (h : Grows disk disk')
    (hfs : ∀ f ∈ fs, ∃ d ∈ disk, d.info = f.info ∧ d.mapping = f.mapping ∧ d.offsets = f.offsets) :
    ∀ f ∈ fs, ∃ d ∈ disk', d.info = f.info ∧ d.mapping = f.mapping ∧ d.offsets = f.offsets := by
  intro f hf
  obtain ⟨d, hd, hi, hm, ho⟩ := hfs f hf
  obtain ⟨d', hd', hi', hm', ho'⟩ := h d hd
  exact ⟨d', hd', hi'.trans hi, hm'.trans hm, ho'.trans ho⟩

theorem Grows.cons (f : SegmentFile) (disk : Disk) : Grows disk (f :: disk) :=
  fun g hg => ⟨g, List.mem_cons_of_mem f hg, rfl, rfl, rfl⟩

theorem Grows.writeBitmap (disk : Disk) (i : SegmentFileInfo) (bitmap : ℕ → Bool) (n : ℕ) :
    Grows disk (disk.writeBitmap i bitmap n) := by
  intro f hf
  refine ⟨_, Disk.mem_writeBitmap.mpr ⟨f, hf, rfl⟩, ?_⟩
  split <;> exact ⟨rfl, rfl, rfl⟩

/-- The file of a version is on disk. -/
def HasFile (disk : Disk) (i : SegmentFileInfo) (map : List MappedRow) : Prop :=
  ∃ f ∈ disk, f.info = i ∧ f.mapping = map

theorem HasFile.mono {i : SegmentFileInfo} {map : List MappedRow} (h : HasFile disk i map)
    (hg : Grows disk disk') : HasFile disk' i map := by
  obtain ⟨f, hf, rfl, rfl⟩ := h
  obtain ⟨f', hf', hi, hm, -⟩ := hg f hf
  exact ⟨f', hf', hi, hm⟩

/-- The arrays of a slot are those of a file of its range and version. -/
structure Held (disk : Disk) (deleted : List MappedRow)
    (d : SegmentFileInfo × ℕ × SegmentLoadState) (a : Arrays) : Prop where
  hasFile : HasFile disk d.1 a.map
  vecCount : d.2.1 = a.map.length
  marks : Marks deleted a.map a.bitmap

theorem Held.mono {d : SegmentFileInfo × ℕ × SegmentLoadState} {a : Arrays}
    (h : Held disk deleted d a) (hg : Grows disk disk') (hd : ∀ r ∈ deleted, r ∈ deleted') :
    Held disk' deleted' d a :=
  ⟨h.hasFile.mono hg, h.vecCount, h.marks.mono hd⟩

/-- What a thread holds between two steps is sound. -/
def WorkOk (disk : Disk) (deleted : List MappedRow) : Work → Prop
  | .none | .index _ => True
  | .groups gs => ∀ g ∈ gs, ∀ r ∈ g.rows, r ∈ deleted
  | .files fs =>
      ∀ f ∈ fs, ∃ d ∈ disk, d.info = f.info ∧ d.mapping = f.mapping ∧ d.offsets = f.offsets
  | .built new => Written new ∧ Marks deleted new.mapping new.bitmap
  | .flushed new | .published new =>
      HasFile disk new.info new.mapping ∧ Marks deleted new.mapping new.bitmap

theorem WorkOk.mono {w : Work} (h : WorkOk disk deleted w) (hg : Grows disk disk')
    (hd : ∀ r ∈ deleted, r ∈ deleted') : WorkOk disk' deleted' w := by
  cases w with
  | none => trivial
  | index i => trivial
  | groups gs => exact fun g hgs r hr => hd r (h g hgs r hr)
  | files fs => exact hg.files h
  | built new => exact ⟨h.1, h.2.mono hd⟩
  | flushed new => exact ⟨h.1.mono hg, h.2.mono hd⟩
  | published new => exact ⟨h.1.mono hg, h.2.mono hd⟩

section Compaction

theorem Written.congr {f' : SegmentFile} (h : Written f') (hm : f'.mapping = f.mapping)
    (ho : f'.offsets = f.offsets) : Written f := by
  unfold Written at h ⊢
  rwa [hm, ho] at h

/-- No file of a range is of a later version than the latest. -/
theorem info_notMem (f : SegmentFile) {version : ℕ}
    (hv : version = disk.latestVersion f.startSid f.endSid + 1) :
    (⟨f.startSid, f.endSid, version⟩ : SegmentFileInfo) ∉ disk.map (·.info) := by
  intro hmem
  obtain ⟨g, hg, hi⟩ := List.mem_map.mp hmem
  have hle := Disk.le_latestVersion hg
  obtain ⟨h₁, h₂, h₃⟩ : g.startSid = f.startSid ∧ g.endSid = f.endSid ∧ g.version = version :=
    SegmentFileInfo.mk.injEq .. ▸ hi
  rw [h₁, h₂, h₃, hv] at hle
  omega

/-- A rebuild takes the bits of the rows it keeps from the bitmap read again. -/
theorem marks_rebuild (hw : Written f) {fresh : ℕ → Bool} (snapshot : ℕ → Bool) {version : ℕ}
    (hm : Marks deleted f.mapping fresh) :
    Marks deleted (f.rebuild snapshot fresh version).mapping
      (f.rebuild snapshot fresh version).bitmap := by
  intro w row hrow hb
  have hb := ((SegmentFile.rebuild_copied snapshot fresh hw).bitmap w).mp hb
  obtain ⟨j, -, hj, rfl, hf⟩ := hb
  rw [SegmentFile.rebuild_mapping hw, getElem?_compact _ hj] at hrow
  exact hm j row hrow hf

theorem marks_join {start last : SegmentId} {version : ℕ}
    (hf : Marks deleted f.mapping f.bitmap) (hg : Marks deleted g.mapping g.bitmap) :
    Marks deleted (f.join g start last version).mapping (f.join g start last version).bitmap := by
  intro i row hrow hb
  dsimp only [SegmentFile.join] at hrow hb
  split at hb
  case isTrue hi =>
    rw [List.getElem?_append_left hi] at hrow
    exact hf i row hrow hb
  case isFalse hi =>
    rw [List.getElem?_append_right (Nat.le_of_not_lt hi)] at hrow
    exact hg _ row hrow (Bool.and_eq_true_iff.mp hb).2

theorem marks_merge {version : ℕ} (hf : Marks deleted f.mapping f.bitmap)
    (hg : Marks deleted g.mapping g.bitmap) :
    Marks deleted (f.merge g version).mapping (f.merge g version).bitmap := by
  unfold SegmentFile.merge
  split
  · exact marks_join hf hg
  · exact marks_join hg hf

theorem written_merge {version : ℕ} (hf : Written f) (hg : Written g) :
    Written (f.merge g version) := by
  unfold SegmentFile.merge
  split
  · exact join_tiles hf hg
  · exact join_tiles hg hf

/-- A file read again is the one read first, with its bitmap of now. -/
theorem reread (hn : (disk.map (·.info)).Nodup) {f' : SegmentFile}
    (hf : ∃ d ∈ disk, d.info = f.info ∧ d.mapping = f.mapping ∧ d.offsets = f.offsets)
    (hl : disk.load f.info = some f') :
    f' ∈ disk ∧ f'.mapping = f.mapping ∧ f'.offsets = f.offsets := by
  obtain ⟨d, hd, hi, hm, ho⟩ := hf
  obtain ⟨hfd, hfi⟩ := (Disk.load_eq_some hn).mp hl
  obtain rfl : d = f' := List.inj_on_of_nodup_map hn hd hfd (hi.trans hfi.symm)
  exact ⟨hd, hm, ho⟩

/-- The new segment of a compaction, from one file or two with their bitmaps of now. -/
theorem combine_cases {task : MergeTask} {fs fs' : List SegmentFile}
    (hn : (disk.map (·.info)).Nodup)
    (h : ∀ f ∈ fs, ∃ d ∈ disk, d.info = f.info ∧ d.mapping = f.mapping ∧ d.offsets = f.offsets)
    (hl : (fs.mapM fun f => disk.load f.info) = some fs') (hc : combine task fs fs' = some new) :
    (∃ f : SegmentFile, ∃ f' ∈ disk, f'.mapping = f.mapping ∧ f'.offsets = f.offsets ∧
      new = f.rebuild f.bitmap f'.bitmap 0) ∨
    ∃ f : SegmentFile, ∃ f' ∈ disk, ∃ g : SegmentFile, ∃ g' ∈ disk,
      f'.mapping = f.mapping ∧ f'.offsets = f.offsets ∧
      g'.mapping = g.mapping ∧ g'.offsets = g.offsets ∧
      new = { (f.setBitmap f'.bitmap f'.deleteCount).merge
        (g.setBitmap g'.bitmap g'.deleteCount) 0 with
        startSid := task.mergedStartSid, endSid := task.mergedEndSid } := by
  unfold combine at hc
  split at hc
  case h_1 f f' =>
    obtain rfl := Option.some.inj hc
    obtain ⟨b, r, hlf, -, he⟩ := OnDisk.mapM_cons_eq_some.mp hl
    obtain ⟨rfl, -⟩ := List.cons.inj he
    obtain ⟨hd, hmap, hoff⟩ := reread hn (h f List.mem_cons_self) hlf
    exact .inl ⟨f, f', hd, hmap, hoff, rfl⟩
  case h_2 f g f' g' =>
    obtain rfl := Option.some.inj hc
    obtain ⟨b, r, hlf, hr, he⟩ := OnDisk.mapM_cons_eq_some.mp hl
    obtain ⟨rfl, rfl⟩ := List.cons.inj he
    obtain ⟨c, r', hlg, -, he'⟩ := OnDisk.mapM_cons_eq_some.mp hr
    obtain ⟨rfl, -⟩ := List.cons.inj he'
    obtain ⟨hd, hmap, hoff⟩ := reread hn (h f List.mem_cons_self) hlf
    obtain ⟨hd', hmap', hoff'⟩ :=
      reread hn (h g (List.mem_cons_of_mem f List.mem_cons_self)) hlg
    exact .inr ⟨f, f', hd, g, g', hd', hmap, hoff, hmap', hoff', rfl⟩
  case h_3 => cases hc

theorem workOk_built {task : MergeTask} {fs fs' : List SegmentFile}
    (hn : (disk.map (·.info)).Nodup) (hw : ∀ f ∈ disk, Written f)
    (hm : ∀ f ∈ disk, Marks deleted f.mapping f.bitmap)
    (h : WorkOk disk deleted (.files fs)) (hl : (fs.mapM fun f => disk.load f.info) = some fs')
    (hc : combine task fs fs' = some new) : WorkOk disk deleted (.built new) := by
  rcases combine_cases hn h hl hc with ⟨f, f', hd, hmap, hoff, rfl⟩ |
    ⟨f, f', hd, g, g', hd', hmap, hoff, hmap', hoff', rfl⟩
  case inl =>
    have hwf : Written f := (hw f' hd).congr hmap hoff
    have hmf : Marks deleted f.mapping f'.bitmap := hmap ▸ hm f' hd
    exact ⟨SegmentFile.rebuild_tiles hwf, marks_rebuild hwf _ hmf⟩
  case inr =>
    have hwf : Written (f.setBitmap f'.bitmap f'.deleteCount) := (hw f' hd).congr hmap hoff
    have hwg : Written (g.setBitmap g'.bitmap g'.deleteCount) := (hw g' hd').congr hmap' hoff'
    have hmf : Marks deleted f.mapping f'.bitmap := hmap ▸ hm f' hd
    have hmg : Marks deleted g.mapping g'.bitmap := hmap' ▸ hm g' hd'
    exact ⟨written_merge hwf hwg, marks_merge hmf hmg⟩

end Compaction

end InMemory

end VectorLsm
