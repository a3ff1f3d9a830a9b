import VectorLsm.Segment.Rebuild
import Mathlib.Logic.Relation
import Mathlib.Data.List.Perm.Basic
import Mathlib.Data.List.Range

/-! # Descent from the memtables

Every segment file of a primary comes from flushed memtables by rebuilds and merges. Its offset
table tiles its rows, names each segment id of its range once, and the slice of a segment id is
what is left of that memtable, in slot order.
-/

namespace VectorLsm

open Compact SegmentFile

namespace SegmentFile

structure Descends (tids : SegmentId → List Tid) (f : SegmentFile) : Prop where
  range : f.startSid ≤ f.endSid
  tiles : Tiles 0 f.offsets f.mapping.length
  sids : (f.offsets.map (·.sid)).Perm (List.range' f.startSid (f.endSid + 1 - f.startSid))
  slices : ∀ o ∈ f.offsets, (f.slice o).Sublist (memtableRows o.sid (tids o.sid))

variable {tids : SegmentId → List Tid} {f g : SegmentFile}

theorem Descends.nodup (h : f.Descends tids) : (f.offsets.map (·.sid)).Nodup :=
  h.sids.nodup_iff.mpr List.nodup_range'

theorem Descends.exists_offset (h : f.Descends tids) {sid : SegmentId} (hlo : f.startSid ≤ sid)
    (hhi : sid ≤ f.endSid) : ∃ o ∈ f.offsets, o.sid = sid := by
  have hm : sid ∈ f.offsets.map (·.sid) := by
    rw [h.sids.mem_iff, List.mem_range'_1]
    lia
  exact List.mem_map.mp hm

theorem Descends.flush (sid : SegmentId) (bitmap : ℕ → Bool) (version : ℕ) :
    (flush sid (tids sid) bitmap version).Descends tids where
  range := le_rfl
  tiles := ⟨rfl, Nat.zero_le _, by simp [SegmentFile.flush, memtableRows, Tiles]⟩
  sids := by simp [SegmentFile.flush]
  slices := by
    intro o ho
    obtain rfl : o = ⟨sid, 0, (tids sid).length⟩ := List.mem_singleton.mp ho
    exact (List.take_sublist _ _).trans (List.drop_sublist _ _)

theorem Descends.setBitmap (h : f.Descends tids) (bitmap : ℕ → Bool) (n : ℕ) :
    (f.setBitmap bitmap n).Descends tids :=
  ⟨h.range, h.tiles, h.sids, h.slices⟩

theorem rebuild_slice {snapshot fresh : ℕ → Bool} {version : ℕ} {o : SegmentOffsetRange}
    (ht : Tiles 0 f.offsets f.mapping.length) (ho : o ∈ f.offsets) :
    (f.rebuild snapshot fresh version).slice (o.move (kept snapshot)) =
      compact snapshot o.startOffset (f.slice o) := by
  obtain ⟨-, hse, he⟩ := ht.mem ho
  simp only [slice, rebuild_mapping ht, SegmentOffsetRange.move_startOffset,
    SegmentOffsetRange.move_endOffset]
  exact slice_compact _ hse he

theorem Descends.rebuild (h : f.Descends tids) (snapshot fresh : ℕ → Bool) (version : ℕ) :
    (f.rebuild snapshot fresh version).Descends tids where
  range := h.range
  tiles := rebuild_tiles h.tiles
  sids := by
    rw [rebuild_offsets h.tiles, List.map_map]
    exact h.sids
  slices := by
    intro o ho
    rw [rebuild_offsets h.tiles] at ho
    obtain ⟨p, hp, rfl⟩ := List.mem_map.mp ho
    rw [rebuild_slice h.tiles hp]
    exact (compact_sublist _ _).trans (h.slices p hp)

theorem join_slice_larger {start last : SegmentId} {version : ℕ} {o : SegmentOffsetRange}
    (ht : Tiles 0 f.offsets f.mapping.length) (ho : o ∈ f.offsets) :
    (join f g start last version).slice o = f.slice o := by
  obtain ⟨-, hse, he⟩ := ht.mem ho
  simp only [slice, join]
  rw [List.drop_append_of_le_length (hse.trans he), List.take_append_of_le_length]
  rw [List.length_drop]
  omega

theorem join_slice_smaller {start last : SegmentId} {version : ℕ} {o : SegmentOffsetRange} :
    (join f g start last version).slice (o.shift f.mapping.length) = g.slice o := by
  simp only [slice, join, SegmentOffsetRange.shift_startOffset, SegmentOffsetRange.shift_endOffset]
  rw [List.drop_append, List.drop_eq_nil_of_le (Nat.le_add_left _ _), List.nil_append,
    Nat.add_sub_cancel, Nat.add_sub_add_right]

theorem Descends.join (hf : f.Descends tids) (hg : g.Descends tids) {start last : SegmentId}
    {version : ℕ} (hsl : start ≤ last)
    (hsids : (f.offsets.map (·.sid) ++ g.offsets.map (·.sid)).Perm
      (List.range' start (last + 1 - start))) :
    (join f g start last version).Descends tids where
  range := hsl
  tiles := join_tiles hf.tiles hg.tiles
  sids := by
    have hmap : (g.offsets.map (·.shift f.mapping.length)).map (·.sid) =
        g.offsets.map (·.sid) := by
      rw [List.map_map]
      rfl
    simp only [SegmentFile.join, List.map_append, hmap]
    exact hsids
  slices := by
    intro o ho
    rcases List.mem_append.mp ho with ho | ho
    · rw [join_slice_larger hf.tiles ho]
      exact hf.slices o ho
    · obtain ⟨p, hp, rfl⟩ := List.mem_map.mp ho
      rw [join_slice_smaller]
      exact hg.slices p hp

theorem Descends.merge (hf : f.Descends tids) (hg : g.Descends tids)
    (hadj : f.endSid + 1 = g.startSid) (version : ℕ) : (f.merge g version).Descends tids := by
  have hrf := hf.range
  have hrg := hg.range
  have hr : List.range' f.startSid (f.endSid + 1 - f.startSid) ++
      List.range' g.startSid (g.endSid + 1 - g.startSid) =
      List.range' f.startSid (g.endSid + 1 - f.startSid) := by
    have hsum : g.endSid + 1 - f.startSid =
        (f.endSid + 1 - f.startSid) + (g.endSid + 1 - g.startSid) := by lia
    have hstart : g.startSid = f.startSid + (f.endSid + 1 - f.startSid) := by lia
    rw [hsum, hstart, List.range'_append_1]
  have hp := hf.sids.append hg.sids
  rw [hr] at hp
  have hle : f.startSid ≤ g.endSid := by lia
  unfold SegmentFile.merge
  split
  · exact hf.join hg hle hp
  · exact hg.join hf hle (List.perm_append_comm.trans hp)

end SegmentFile

/-- The segment files of a primary: no file is ever removed. -/
abbrev Disk := List SegmentFile

theorem le_foldr_max {v : ℕ} {vs : List ℕ} (h : v ∈ vs) : v ≤ vs.foldr max 0 := by
  induction vs with
  | nil => cases h
  | cons w vs ih =>
      rcases List.mem_cons.mp h with rfl | h
      · exact Nat.le_max_left _ _
      · exact (ih h).trans (Nat.le_max_right _ _)

namespace Disk

/-- `find_latest_segment_version`: 0 without a file of the range. -/
def latestVersion (d : Disk) (start last : SegmentId) : ℕ :=
  ((d.filter fun f => f.startSid = start ∧ f.endSid = last).map (·.version)).foldr max 0

theorem le_latestVersion {d : Disk} {f : SegmentFile} (h : f ∈ d) :
    f.version ≤ d.latestVersion f.startSid f.endSid := by
  have hm : f.version ∈ (d.filter fun g => g.startSid = f.startSid ∧ g.endSid = f.endSid).map
      (·.version) :=
    List.mem_map.mpr ⟨f, by simpa using h, rfl⟩
  exact le_foldr_max hm

end Disk

/-- The operations of a primary on its segment files. `flush_segment_to_disk` writes the version
after the latest one of the range. -/
inductive PrimaryStep (tids : SegmentId → List Tid) : Disk → Disk → Prop
  | flush (d : Disk) (sid : SegmentId) (bitmap : ℕ → Bool) :
      PrimaryStep tids d (.flush sid (tids sid) bitmap (d.latestVersion sid sid + 1) :: d)
  /-- A new subversion of a bitmap. -/
  | vacuum (d₁ d₂ : Disk) (f : SegmentFile) (bitmap : ℕ → Bool) (n : ℕ)
      (hmask : ∀ i, f.bitmap i = true → bitmap i = true) :
      PrimaryStep tids (d₁ ++ f :: d₂) (d₁ ++ f.setBitmap bitmap n :: d₂)
  | rebuild (d : Disk) (f : SegmentFile) (snapshot : ℕ → Bool) (hf : f ∈ d)
      (hlatest : f.version = d.latestVersion f.startSid f.endSid)
      (hsnap : ∀ i, snapshot i = true → f.bitmap i = true) :
      PrimaryStep tids d
        (f.rebuild snapshot f.bitmap (d.latestVersion f.startSid f.endSid + 1) :: d)
  | merge (d : Disk) (f g : SegmentFile) (hf : f ∈ d) (hg : g ∈ d)
      (hadj : f.endSid + 1 = g.startSid)
      (hlatest : f.version = d.latestVersion f.startSid f.endSid)
      (hlatest' : g.version = d.latestVersion g.startSid g.endSid) :
      PrimaryStep tids d (f.merge g (d.latestVersion f.startSid g.endSid + 1) :: d)

/-- Disks later in the same history. -/
abbrev Leads (tids : SegmentId → List Tid) : Disk → Disk → Prop :=
  Relation.ReflTransGen (PrimaryStep tids)

theorem PrimaryStep.descends {tids : SegmentId → List Tid} {d d' : Disk}
    (h : PrimaryStep tids d d') (hd : ∀ f ∈ d, f.Descends tids) :
    ∀ f ∈ d', f.Descends tids := by
  intro k hk
  cases h with
  | flush _ sid bitmap =>
      rcases List.mem_cons.mp hk with rfl | hk
      · exact .flush sid bitmap _
      · exact hd k hk
  | vacuum d₁ d₂ f bitmap n hmask =>
      simp only [List.mem_append, List.mem_cons] at hk hd
      rcases hk with hk | rfl | hk
      · exact hd k (.inl hk)
      · exact (hd f (.inr (.inl rfl))).setBitmap bitmap n
      · exact hd k (.inr (.inr hk))
  | rebuild _ f snapshot hf hlatest hsnap =>
      rcases List.mem_cons.mp hk with rfl | hk
      · exact (hd f hf).rebuild snapshot f.bitmap _
      · exact hd k hk
  | merge _ f g hf hg hadj hlatest hlatest' =>
      rcases List.mem_cons.mp hk with rfl | hk
      · exact (hd f hf).merge (hd g hg) hadj _
      · exact hd k hk

theorem Leads.descends {tids : SegmentId → List Tid} {d : Disk} (h : Leads tids [] d) :
    ∀ f ∈ d, f.Descends tids := by
  induction h with
  | refl => intro f hf; cases hf
  | tail _ hs ih => exact hs.descends ih

end VectorLsm
