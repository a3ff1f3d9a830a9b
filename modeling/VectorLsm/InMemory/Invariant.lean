import VectorLsm.InMemory.Built
import VectorLsm.InMemory.Pieces

/-! # The invariant of the arrays

The worker compares the version of a slot with the one it is asked for, and then reads the bitmap
of the latest version it finds on disk. The condition on a step is that the directory still
answers with the version that was compared; each step that meets it keeps the arrays of the slots
with the files of their versions.
-/

namespace VectorLsm.InMemory

open Pool FlushedSegmentPool Transition

variable {cfg : Config} {s s' : State} {t slot : ℕ}

/-- The pool's segments have the rows of their range and version, a bit set for a row stands for a
deletion of that row, and the bitmaps read by the worker had the length of the ones in memory. -/
structure SameVersion (s : State) : Prop where
  rows : ∀ g ∈ s.base.pool.members, ∀ a ∈ s.arrays g,
    HasFile s.disk (s.base.pool.seg g).info a.map ∧ (s.base.pool.seg g).vecCount = a.map.length
  marks : ∀ g ∈ s.base.pool.members, ∀ a ∈ s.arrays g, Marks s.deleted a.map a.bitmap
  lengths : ∀ p ∈ s.combined, p.1 = p.2

/-- The files a compaction reads have the row counts of its slots. -/
def Counted (s : State) (task : MergeTask) : Prop :=
  ∀ g ∈ task.olds, ∀ f ∈ s.disk.loadLatest (s.base.pool.seg g).segmentIdStart
    (s.base.pool.seg g).segmentIdEnd, f.mapping.length = (s.base.pool.seg g).vecCount

/-- They are those of the directory. -/
theorem files_read {task : MergeTask} {fs : List SegmentFile} (hc : Counted s task)
    (hl : task.olds.mapM (readSlot s) = some fs) : ∀ f ∈ fs, ∃ d ∈ s.disk,
      d.info = f.info ∧ d.mapping = f.mapping ∧ d.offsets = f.offsets := by
  intro f hf
  obtain ⟨g, hg, hread⟩ := OnDisk.mem_of_mapM hl hf
  obtain ⟨d, hd, htake⟩ := Option.bind_eq_some_iff.mp hread
  have hlen := hc g hg d hd
  unfold takeRows at htake
  split at htake
  case isTrue =>
    obtain rfl := Option.some.inj htake
    refine ⟨d, List.mem_of_find?_eq_some hd, rfl, ?_, rfl⟩
    dsimp only
    rw [← hlen, List.take_length]
  case isFalse => cases htake

/-- The condition on a step: the latest version on disk is the one the reader goes by, and what an
adoption matches by tid are the same rows. -/
def Current (s : State) : Action → Prop
  | .run t ok =>
      match s.base.pc t with
      | .adoptLoad a slot =>
          ok = false ∨ s.disk.load ⟨a.startSid, a.endSid, a.version⟩ = none → s.arrays slot = none
      | .adoptInstall slot _ snaps =>
          ∀ a ∈ s.arrays slot,
            (∀ p ∈ snaps, ∀ old ∈ s.arrays p.segIdx, a.AgreesWith old) ∧
              ∀ g ∈ (s.work t).groups?, a.AgreesWithGroup g
      | _ => True
  | .work t =>
      match s.base.pc t, s.work t with
      | .build task, .none => Counted s task
      | .build _, .flushed new => s.disk.latestVersion new.startSid new.endSid = new.version
      | _, _ => True
  | .updateNext t _ =>
      match s.update t with
      | .checked lo hi g =>
          ∀ f ∈ s.disk.loadLatest lo hi, f.info = (s.base.pool.seg g).info
      | _ => True
  | _ => True

/-- What the bits of a run go by. -/
structure Inv (s : State) : Prop where
  nodup : (s.disk.map (·.info)).Nodup
  written : ∀ f ∈ s.disk, Written f
  marks : ∀ f ∈ s.disk, Marks s.deleted f.mapping f.bitmap
  held : ∀ g a, s.arrays g = some a → Held s.disk s.deleted (data (s.base.pool.seg g)) a
  work : ∀ t, WorkOk s.disk s.deleted (s.work t)
  lengths : ∀ p ∈ s.combined, p.1 = p.2

namespace Inv

theorem sameVersion (h : Inv s) : SameVersion s where
  rows := fun g _ a ha => ⟨(h.held g a ha).hasFile, (h.held g a ha).vecCount⟩
  marks := fun g _ a ha => (h.held g a ha).marks
  lengths := h.lengths

theorem setWork {w : Work} (h : Inv s) (hw : WorkOk s.disk s.deleted w) : Inv (s.setWork t w) where
  nodup := h.nodup
  written := h.written
  marks := h.marks
  held := h.held
  work := by
    intro u
    rw [State.setWork_work, Function.update_apply]
    split
    · exact hw
    · exact h.work u
  lengths := h.lengths

theorem setUpdate {pc : UpdatePc} (h : Inv s) : Inv (s.setUpdate t pc) :=
  ⟨h.nodup, h.written, h.marks, h.held, h.work, h.lengths⟩

theorem setSearches {n : ℕ → ℕ} (h : Inv s) : Inv (s.setSearches n) :=
  ⟨h.nodup, h.written, h.marks, h.held, h.work, h.lengths⟩

theorem addCombined {p : ℕ × ℕ} (h : Inv s) (hp : p.1 = p.2) : Inv (s.addCombined p) where
  nodup := h.nodup
  written := h.written
  marks := h.marks
  held := h.held
  work := h.work
  lengths := by
    intro q hq
    rcases List.mem_cons.mp hq with rfl | hq
    · exact hp
    · exact h.lengths q hq

theorem addDeleted (h : Inv s) (rows : List MappedRow) : Inv (s.addDeleted rows) := by
  have hd : ∀ r ∈ s.deleted, r ∈ (s.addDeleted rows).deleted := fun r hr =>
    List.mem_append_right rows hr
  exact ⟨h.nodup, h.written, fun f hf => (h.marks f hf).mono hd,
    fun g a ha => (h.held g a ha).mono (.refl _) hd, fun t => (h.work t).mono (.refl _) hd,
    h.lengths⟩

theorem setDisk {disk : Disk} (h : Inv s) (hg : Grows s.disk disk)
    (hn : (disk.map (·.info)).Nodup) (hw : ∀ f ∈ disk, Written f)
    (hm : ∀ f ∈ disk, Marks s.deleted f.mapping f.bitmap) : Inv (s.setDisk disk) where
  nodup := hn
  written := hw
  marks := hm
  held := fun g a ha => (h.held g a ha).mono hg fun _ hr => hr
  work := fun t => (h.work t).mono hg fun _ hr => hr
  lengths := h.lengths

/-- The pool takes a step; the arrays that stay or are new go with their slots. -/
theorem setBase {b : Pool.State} {arrays : ℕ → Option Arrays} (h : Inv s)
    (ha : ∀ g a, arrays g = some a → Held s.disk s.deleted (data (b.pool.seg g)) a) :
    Inv (s.setBase b arrays) where
  nodup := h.nodup
  written := h.written
  marks := h.marks
  held := by
    intro g a hg
    rw [State.setBase_arrays] at hg
    split at hg
    · exact ha g a hg
    · cases hg
  work := h.work
  lengths := h.lengths

theorem quiet {b : Pool.State} (h : Inv s) (hf : SameFields s.base.pool b.pool) :
    Inv (s.setBase b s.arrays) :=
  h.setBase fun g a ha => by
    rw [hf g]
    exact h.held g a ha

/-- A slot is filled. -/
theorem filled {b : Pool.State} {a : Arrays} (h : Inv s)
    (hs : Held s.disk s.deleted (data (b.pool.seg slot)) a)
    (hf : ∀ g ≠ slot, data (b.pool.seg g) = data (s.base.pool.seg g)) :
    Inv (s.setBase b (s.fill slot a)) := by
  refine h.setBase fun g a' hg => ?_
  rw [State.fill, Function.update_apply] at hg
  split at hg
  case isTrue hgs =>
    subst hgs
    obtain rfl := Option.some.inj hg
    exact hs
  case isFalse hgs =>
    rw [hf g hgs]
    exact h.held g a' hg

/-- A failed load leaves a slot that points to nothing. -/
theorem unfilled {b : Pool.State} (h : Inv s) (hs : s.arrays slot = none)
    (hf : ∀ g ≠ slot, data (b.pool.seg g) = data (s.base.pool.seg g)) :
    Inv (s.setBase b s.arrays) := by
  refine h.setBase fun g a hg => ?_
  have hgs : g ≠ slot := by
    rintro rfl
    rw [hs] at hg
    cases hg
  rw [hf g hgs]
  exact h.held g a hg

theorem setDeleteCount (h : Inv s) (g n : ℕ) : Inv (s.setDeleteCount g n) := by
  have hf : SameFields s.base.pool (s.setDeleteCount g n).base.pool := .setSeg _ rfl
  refine ⟨h.nodup, h.written, h.marks, fun g' a ha => ?_, h.work, h.lengths⟩
  rw [hf g']
  exact h.held g' a ha

/-- The bitmap of a slot changes. -/
theorem setBitmap {a : Arrays} {bitmap : ℕ → Bool} (h : Inv s) (ha : s.arrays slot = some a)
    (hm : Marks s.deleted a.map bitmap) (acked : ℕ → Bool) :
    Inv { s with arrays := s.fill slot { a with bitmap := bitmap, acked := acked } } where
  nodup := h.nodup
  written := h.written
  marks := h.marks
  held := by
    intro g a' hg
    dsimp only [State.fill] at hg
    rw [Function.update_apply] at hg
    split at hg
    case isTrue hgs =>
      subst hgs
      obtain rfl := Option.some.inj hg
      have := h.held g a ha
      exact ⟨this.hasFile, this.vecCount, hm⟩
    case isFalse => exact h.held g a' hg
  work := h.work
  lengths := h.lengths

theorem mark {a : Arrays} {m : Marking} (h : Inv s) (ha : s.arrays slot = some a)
    (hm : Marks s.deleted a.map m.bitmap) : Inv (s.mark slot a m) :=
  (h.setDeleteCount slot _).setBitmap ha hm a.acked

/-- What an adoption carries over are deletions of the rows it sets them for. -/
theorem marks_union {a : Arrays} {kind : AdoptCase} {snaps : List PredSnap}
    {gs : List DpvVacuumGroup} (h : Inv s) (ha : s.arrays slot = some a)
    (hold : ∀ p ∈ snaps, ∀ old ∈ s.arrays p.segIdx, a.AgreesWith old)
    (hg : ∀ g ∈ gs, ∀ r ∈ g.rows, r ∈ s.deleted) (hga : ∀ g ∈ gs, a.AgreesWithGroup g) :
    Marks s.deleted a.map (s.union a kind snaps gs).bitmap := by
  unfold State.union
  dsimp only
  split
  case' isFalse => refine Arrays.marks_unionGroups ?_ hg hga
  all_goals
    refine List.foldlRecOn (motive := fun m : Marking => Marks s.deleted a.map m.bitmap) snaps _
      (h.held slot a ha).marks fun m hm p hp => ?_
    split
    case h_1 => exact hm
    case h_2 old hso =>
      exact Arrays.marks_unionSegment hm (h.held _ old hso).marks (hold p hp old hso)

theorem latest_mem (h : Inv s) {lo hi : SegmentId} {f : SegmentFile}
    (hf : s.disk.loadLatest lo hi = some f) : f ∈ s.disk :=
  ((Disk.load_eq_some h.nodup).mp hf).1

theorem adoptInstall {kind : AdoptCase} {snaps : List PredSnap} {a : Arrays} (h : Inv s)
    (ha : s.arrays slot = some a)
    (hc : (∀ p ∈ snaps, ∀ old ∈ s.arrays p.segIdx, a.AgreesWith old) ∧
      ∀ g ∈ (s.work t).groups?, a.AgreesWithGroup g) :
    Inv (s.mark slot a (s.union a kind snaps (s.work t).groups?)) := by
  refine h.mark ha (h.marks_union ha hc.1 ?_ hc.2)
  have hw := h.work t
  cases hwt : s.work t with
  | groups gs =>
      rw [hwt] at hw
      exact hw
  | _ => simp [Work.groups?]

theorem flush {new : SegmentFile} (h : Inv s) (hw : s.work t = .built new) {version : ℕ}
    (hv : version = s.disk.latestVersion new.startSid new.endSid + 1) :
    Inv ((s.setDisk ({ new with version := version } :: s.disk)).setWork t
      (.flushed { new with version := version })) := by
  have hwork := h.work t
  rw [hw] at hwork
  have hd := h.setDisk (.cons { new with version := version } s.disk) ?_ ?_ ?_
  · exact hd.setWork ⟨⟨_, List.mem_cons_self, rfl, rfl⟩, hwork.2⟩
  · exact List.nodup_cons.mpr ⟨info_notMem new hv, h.nodup⟩
  · exact List.forall_mem_cons.mpr ⟨hwork.1, h.written⟩
  · exact List.forall_mem_cons.mpr ⟨hwork.2, h.marks⟩

/-- What the worker reads at the version of the slot are deletions of the slot's rows. -/
theorem combineBits {lo hi : SegmentId} {f : SegmentFile} {a : Arrays}
    (h : Inv s) (junk : ℕ → Bool) (hf : s.disk.loadLatest lo hi = some f)
    (ha : s.arrays slot = some a) (hi : f.info = (s.base.pool.seg slot).info) :
    f.mapping.length = (s.base.pool.seg slot).vecCount ∧
      Marks s.deleted a.map (orBytes a f (s.base.pool.seg slot).vecCount junk) := by
  have hmem := h.latest_mem hf
  have hheld := h.held slot a ha
  obtain ⟨d, hd, hdi, hdm⟩ := hheld.hasFile
  obtain rfl : d = f := List.inj_on_of_nodup_map h.nodup hd hmem (hdi.trans hi.symm)
  have hlen : (s.base.pool.seg slot).vecCount = d.mapping.length := by
    rw [hdm]
    exact hheld.vecCount
  refine ⟨hlen.symm, fun i row hrow hb => ?_⟩
  have hbound : i < d.mapping.length := by
    rw [hdm]
    exact (List.getElem?_eq_some_iff.mp hrow).1
  rw [orBytes, hlen, Bool.or_eq_true, Bool.and_eq_true] at hb
  rcases hb with hb | ⟨-, hb⟩
  · exact hheld.marks i row hrow hb
  · have hbyte : i < 8 * bitmapSize d.mapping.length := by
      unfold bitmapSize
      omega
    rw [if_pos hbyte] at hb
    exact h.marks d hmem i row (by rw [hdm]; exact hrow) hb

theorem pull {f : SegmentFile} (h : Inv s) (hn : f.info ∉ s.disk.map (·.info))
    (hw : Written f) : Inv ((s.addDeleted f.masked).setDisk (f :: s.disk)) := by
  have hd := h.addDeleted f.masked
  have hm : Marks (s.addDeleted f.masked).deleted f.mapping f.bitmap :=
    (marks_markedRows f.mapping f.bitmap).mono fun r hr => List.mem_append_left _ hr
  refine hd.setDisk (.cons f s.disk) ?_ ?_ ?_
  · rw [List.map_cons, List.nodup_cons]
    exact ⟨hn, h.nodup⟩
  · exact List.forall_mem_cons.mpr ⟨hw, h.written⟩
  · exact List.forall_mem_cons.mpr ⟨hm, hd.marks⟩

theorem writeBitmap {i : SegmentFileInfo} {f : SegmentFile} {bitmap : ℕ → Bool} {n : ℕ}
    (h : Inv s) (hf : s.disk.load i = some f) :
    Inv ((s.addDeleted (f.setBitmap bitmap n).masked).setDisk
      (s.disk.writeBitmap i bitmap n)) := by
  have hd := h.addDeleted (f.setBitmap bitmap n).masked
  obtain ⟨hmem, rfl⟩ := (Disk.load_eq_some h.nodup).mp hf
  refine hd.setDisk (.writeBitmap s.disk f.info bitmap n) ?_ ?_ ?_
  · rw [Disk.writeBitmap_info]
    exact h.nodup
  · intro _ hg'
    obtain ⟨g, hg, rfl⟩ := Disk.mem_writeBitmap.mp hg'
    split <;> exact h.written g hg
  · intro _ hg'
    obtain ⟨g, hg, rfl⟩ := Disk.mem_writeBitmap.mp hg'
    split
    case isTrue hi =>
      obtain rfl : g = f := List.inj_on_of_nodup_map h.nodup hg hmem hi
      exact (marks_markedRows g.mapping bitmap).mono fun r hr => List.mem_append_left _ hr
    case isFalse => exact hd.marks g hg

theorem pieces (cfg : Config) : Pieces cfg Current Inv where
  quiet h hf := h.quiet hf.sameFields
  update h := h.setUpdate
  searches h := h.setSearches
  idle {s t} h := h.setWork (w := .none) trivial
  index {s t i} h := h.setWork (w := .index i) trivial
  announce {s t gs} h := by
    have hd := h.addDeleted (gs.flatMap (·.rows))
    refine hd.setWork fun g hg r hr => ?_
    exact List.mem_append_left _ (List.mem_flatMap.mpr ⟨g, hg, hr⟩)
  load {s b slot f} h hf hs := by
    refine h.filled ?_ fun g hg => hs.data_other hg
    rw [hs.data_self]
    exact ⟨⟨f, hf, rfl, rfl⟩, rfl, h.marks f hf⟩
  failed {s b t ok a slot} h hc hpc hload hseg := by
    simp only [Current, hpc] at hc
    exact h.unfilled (hc hload) fun g hg => by rw [hseg, if_neg hg]
  union {s t ok slot kind snaps a} h hc hpc ha := by
    simp only [Current, hpc] at hc
    exact h.adoptInstall ha (hc a ha)
  upgrade {s b idx old i a offsets} h ha hs := by
    refine h.filled ?_ fun g hg => hs.data_other hg
    rw [hs.data_self]
    have hold := h.held old a ha
    exact ⟨hold.hasFile, hold.vecCount, hold.marks⟩
  compacted {s b t slot new offsets} h hw hs := by
    refine h.filled ?_ fun g hg => hs.data_other hg
    rw [hs.data_self]
    have hwork := h.work t
    rw [hw] at hwork
    exact ⟨hwork.1, rfl, hwork.2⟩
  read {s t task fs} h hc hpc hw hfs := by
    simp only [Current, hpc, hw] at hc
    exact h.setWork (w := .files fs) (files_read hc hfs)
  built {s t task fs fs' new} h hw hfs hcomb := by
    have hwork := h.work t
    rw [hw] at hwork
    exact h.setWork (workOk_built h.nodup h.written h.marks hwork hfs hcomb)
  flush h hw hv := h.flush hw hv
  publish {s t task new} h hc hpc hw := by
    simp only [Current, hpc, hw] at hc
    have hwork := h.work t
    rw [hw] at hwork
    rw [hc]
    exact h.setWork hwork
  pull h _ hn hw := h.pull hn hw
  writeBitmap h _ hf := h.writeBitmap hf
  orBits {s t lo hi g f a junk} h hc hu hf ha := by
    simp only [Current, hu] at hc
    obtain ⟨hlen, hm⟩ := h.combineBits junk hf ha (hc f hf)
    have hset : Inv (s.setDeleteCount g f.deleteCount) := h.setDeleteCount g _
    exact (hset.setBitmap ha hm a.acked).addCombined (congrArg bitmapSize hlen)
  acked {s g a acked} h ha := h.setBitmap ha (h.held g a ha).marks acked

end Inv

end VectorLsm.InMemory
