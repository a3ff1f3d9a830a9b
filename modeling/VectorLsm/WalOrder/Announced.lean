import VectorLsm.Vacuum.Files
import VectorLsm.WalOrder.Machine

/-! # Announced rows

A row is announced when a tombstone record names its memtable slot. The records of a pass over a
segment file name each row that the pass masks. A rebuild and a merge copy no bit but those of
the bitmaps they read again, so their files mask announced rows when the files they come from do.
-/

namespace VectorLsm

namespace SegmentFile

open Compact

variable {f g : SegmentFile} {r : MappedRow} {version : ℕ}

/-- Each slice holds rows of the segment id that the offset table has for it. -/
structure Labelled (f : SegmentFile) : Prop where
  sound : f.Sound
  label : ∀ o ∈ f.offsets, ∀ r ∈ f.slice o, r.sid = o.sid

theorem Labelled.setBitmap (h : f.Labelled) (bitmap : ℕ → Bool) (n : ℕ) :
    (f.setBitmap bitmap n).Labelled :=
  ⟨h.sound.setBitmap bitmap n, h.label⟩

theorem Labelled.setVersion (h : f.Labelled) : { f with version := version }.Labelled :=
  ⟨⟨h.sound.range, h.sound.tiles, h.sound.rows⟩, h.label⟩

/-- Nothing but the range, the rows and the offset table counts. -/
theorem Labelled.congr (h : f.Labelled) (hi : g.info = f.info) (hm : g.mapping = f.mapping)
    (ho : g.offsets = f.offsets) : g.Labelled := by
  obtain ⟨hs, he, -⟩ := SegmentFileInfo.mk.injEq .. ▸ hi
  refine ⟨⟨?_, ?_, ?_⟩, ?_⟩
  · rw [hs, he]
    exact h.sound.range
  · rw [hm, ho]
    exact h.sound.tiles
  · rw [hm, hs, he]
    exact h.sound.rows
  · unfold slice
    rw [hm, ho]
    exact h.label

theorem mem_memtableRows {sid : SegmentId} {tids : List Tid} (h : r ∈ memtableRows sid tids) :
    r.sid = sid := by
  obtain ⟨p, -, rfl⟩ := List.mem_map.mp h
  rfl

theorem memtableRows_getElem? {sid : SegmentId} {tids : List Tid} {k : ℕ}
    (h : (memtableRows sid tids)[k]? = some r) : r.sid = sid ∧ r.slot = k := by
  rw [memtableRows, List.getElem?_map, Option.map_eq_some_iff] at h
  obtain ⟨p, hp, rfl⟩ := h
  rw [List.getElem?_zipIdx, Option.map_eq_some_iff] at hp
  obtain ⟨t, -, rfl⟩ := hp
  exact ⟨rfl, Nat.zero_add k⟩

theorem Labelled.flush (sid : SegmentId) (tids : List Tid) (bitmap : ℕ → Bool) :
    (flush sid tids bitmap version).Labelled := by
  have hlen : (memtableRows sid tids).length = tids.length := by simp [memtableRows]
  refine ⟨⟨le_rfl, ⟨rfl, Nat.zero_le _, hlen.symm⟩, ?_⟩, ?_⟩
  · intro r hr
    have := mem_memtableRows hr
    exact ⟨this.ge, this.le⟩
  · intro o ho r hr
    obtain rfl := List.mem_singleton.mp ho
    exact mem_memtableRows (List.mem_of_mem_drop (List.mem_of_mem_take hr))

theorem Labelled.rebuild {snapshot fresh : ℕ → Bool} (h : f.Labelled) :
    (f.rebuild snapshot fresh version).Labelled := by
  refine ⟨h.sound.rebuild, ?_⟩
  intro o ho r hr
  rw [rebuild_offsets h.sound.tiles] at ho
  obtain ⟨p, hp, rfl⟩ := List.mem_map.mp ho
  rw [rebuild_slice h.sound.tiles hp] at hr
  exact h.label p hp r ((compact_sublist _ _).subset hr)

theorem join_label {start last : SegmentId} (hf : f.Labelled) (hg : g.Labelled) :
    ∀ o ∈ (join f g start last version).offsets,
      ∀ r ∈ (join f g start last version).slice o, r.sid = o.sid := by
  intro o ho r hr
  rcases List.mem_append.mp ho with ho | ho
  · rw [join_slice_larger hf.sound.tiles ho] at hr
    exact hf.label o ho r hr
  · obtain ⟨p, hp, rfl⟩ := List.mem_map.mp ho
    rw [join_slice_smaller] at hr
    exact hg.label p hp r hr

theorem Labelled.merge (hf : f.Labelled) (hg : g.Labelled) (h : f.endSid < g.startSid) :
    (f.merge g version).Labelled := by
  refine ⟨hf.sound.merge hg.sound h, ?_⟩
  unfold SegmentFile.merge
  split
  · exact join_label hf hg
  · exact join_label hg hf

/-- The rows a file masks. -/
def Masked (f : SegmentFile) (r : MappedRow) : Prop :=
  ∃ k, f.mapping[k]? = some r ∧ f.bitmap k = true

/-- A rebuild masks what the reloaded bitmap does. -/
theorem Masked.of_rebuild {snapshot fresh : ℕ → Bool} (ht : Tiles 0 f.offsets f.mapping.length)
    (h : (f.rebuild snapshot fresh version).Masked r) :
    ∃ k, f.mapping[k]? = some r ∧ fresh k = true := by
  obtain ⟨w, hw, hb⟩ := h
  rw [rebuild_mapping ht] at hw
  obtain ⟨k, hs, hk, hkw⟩ := exists_of_getElem?_compact hw
  simp only [Nat.zero_add, kept_zero] at hs hkw
  obtain ⟨j, -, hj, hjw, hf⟩ := ((rebuild_copied snapshot fresh ht).bitmap w).mp hb
  obtain rfl : j = k := kept_inj hj hs (hjw.trans hkw.symm)
  exact ⟨j, hk, hf⟩

theorem Masked.of_join {start last : SegmentId} (h : (join f g start last version).Masked r) :
    f.Masked r ∨ g.Masked r := by
  obtain ⟨k, hk, hb⟩ := h
  unfold SegmentFile.join at hk hb
  dsimp only at hk hb
  rcases Nat.lt_or_ge k f.mapping.length with hlt | hge
  · left
    rw [List.getElem?_append_left hlt] at hk
    rw [if_pos hlt] at hb
    exact ⟨k, hk, hb⟩
  · right
    rw [List.getElem?_append_right hge] at hk
    rw [if_neg (by omega)] at hb
    exact ⟨_, hk, (Bool.and_eq_true_iff.mp hb).2⟩

theorem Masked.of_merge (h : (f.merge g version).Masked r) : f.Masked r ∨ g.Masked r := by
  unfold SegmentFile.merge at h
  split at h
  · exact h.of_join
  · exact h.of_join.symm

/-- Vacuum masks the rows that were masked and the dead ones. -/
theorem Masked.of_vacuum {callback : Tid → Bool} {v : SegmentVacuum}
    (hv : f.vacuum callback = some v) (h : (f.setBitmap v.bitmap version).Masked r) :
    f.Masked r ∨ r ∈ f.newlyDead callback := by
  obtain ⟨k, hk, hb⟩ := h
  cases hf : f.bitmap k with
  | true => exact Or.inl ⟨k, hk, hf⟩
  | false =>
      rcases (vacuum_bitmap hv k).mp hb with hb | ⟨r', hr', hd⟩
      · rw [hf] at hb
        cases hb
      · obtain rfl : r = r' := Option.some.inj (hk.symm.trans hr')
        exact Or.inr (mem_newlyDead.mpr ⟨k, hk, hf, hd⟩)

/-- Each dead row is named by a record that carries its segment id. -/
theorem Labelled.exists_tombstone {callback : Tid → Bool} (h : f.Labelled)
    (hr : r ∈ f.newlyDead callback) :
    ∃ t ∈ f.tombstones callback, t.sid = r.sid ∧ r ∈ f.namedRows t := by
  obtain ⟨s, hs, hc⟩ := vacuum_collected callback h.sound.tiles
  obtain ⟨k, hk, hb, hd⟩ := mem_newlyDead.mp hr
  have hrange := h.sound.rows r (List.mem_of_getElem? hk)
  unfold tombstones namedRows
  rw [hs]
  dsimp only
  by_cases heq : f.startSid = f.endSid
  · have hmem : k ∈ (s.entries 0).map (·.sidLocalIdx) := by
      rw [hc.single heq, mem_idx_collectRows, List.take_length]
      refine ⟨Nat.zero_le k, r, hk, ?_⟩
      rw [hb, hd]
      rfl
    obtain ⟨e, he, hek⟩ := List.mem_map.mp hmem
    rw [if_pos heq, if_neg (List.ne_nil_of_mem he)]
    refine ⟨_, List.mem_singleton_self _, ?_, ?_⟩
    · dsimp only
      lia
    · rw [if_pos heq]
      exact List.mem_filterMap.mpr ⟨e, he, hek ▸ hk⟩
  · obtain ⟨o, ho, hlo, hhi⟩ := h.sound.tiles.exists_mem (Nat.zero_le k)
      (List.getElem?_eq_some_iff.mp hk).1
    obtain ⟨j, hj⟩ := List.mem_iff_getElem?.mp ho
    have hslice : (f.slice o)[k - o.startOffset]? = some r := (slice_getElem? hlo hhi).trans hk
    have hle := (h.sound.tiles.mem ho).2.2
    have hmem : k - o.startOffset ∈ (s.entries j).map (·.sidLocalIdx) := by
      have hlen : (f.slice o).length ≤ f.mapping.length - o.startOffset :=
        (List.length_take_le _ _).trans (by omega)
      rw [hc.entries heq j o hj, mem_idx_collectRows, List.take_of_length_le hlen]
      refine ⟨Nat.zero_le _, r, hslice, ?_⟩
      rw [dead, Nat.add_sub_cancel' hlo, hb, hd]
      rfl
    obtain ⟨e, he, hek⟩ := List.mem_map.mp hmem
    have hz : (o, j) ∈ f.offsets.zipIdx := List.mem_zipIdx_iff_getElem?.mpr hj
    have hne : s.entries j ≠ [] := List.ne_nil_of_mem he
    rw [if_neg heq]
    refine ⟨_, List.mem_map_of_mem (List.mem_filter.mpr ⟨hz, decide_eq_true hne⟩), ?_, ?_⟩
    · exact (h.label o ho r (List.mem_of_getElem? hslice)).symm
    · rw [if_neg heq]
      refine List.mem_flatMap.mpr ⟨o, List.mem_filter.mpr ⟨ho, decide_eq_true rfl⟩, ?_⟩
      exact List.mem_filterMap.mpr ⟨e, he, hek ▸ hslice⟩

end SegmentFile

namespace WalOrder

variable {wal wal' : List Record} {f g new : SegmentFile} {r : MappedRow} {sid : SegmentId}
  {slot : ℕ}

/-- The record is a tombstone for the memtable slot. -/
def Record.Names (rec : Record) (sid : SegmentId) (slot : ℕ) : Prop :=
  match rec with
  | .vacuumTombstones t slots => t.sid = sid ∧ slot ∈ slots
  | .segment _ => False

instance (rec : Record) : Decidable (rec.Names sid slot) := by
  unfold Record.Names
  cases rec <;> infer_instance

def Announced (wal : List Record) (sid : SegmentId) (slot : ℕ) : Prop :=
  ∃ rec ∈ wal, rec.Names sid slot

instance : Decidable (Announced wal sid slot) :=
  inferInstanceAs (Decidable (∃ rec ∈ wal, rec.Names sid slot))

/-- All that the file masks is announced. -/
def Covered (wal : List Record) (f : SegmentFile) : Prop :=
  ∀ r, f.Masked r → Announced wal r.sid r.slot

/-- Each announced file masks rows announced before it only. -/
def Ordered (wal : List Record) : Prop :=
  ∀ pre new, pre ++ [.segment new] <+: wal → Covered pre new

theorem Announced.append (h : Announced wal sid slot) : Announced (wal ++ wal') sid slot := by
  obtain ⟨rec, hr, hn⟩ := h
  exact ⟨rec, List.mem_append_left _ hr, hn⟩

theorem Announced.of_names {rec : Record} (h : rec.Names sid slot) :
    Announced (wal ++ [rec]) sid slot :=
  ⟨rec, List.mem_append_right _ (List.mem_singleton_self rec), h⟩

theorem Covered.append (h : Covered wal f) : Covered (wal ++ wal') f := fun r hr =>
  (h r hr).append

theorem Covered.setVersion {version : ℕ} (h : Covered wal f) :
    Covered wal { f with version := version } := h

/-- A file without a mask. -/
theorem Covered.of_clear (h : ∀ k, f.bitmap k = false) : Covered wal f := by
  rintro r ⟨k, -, hk⟩
  rw [h k] at hk
  cases hk

theorem Ordered.concat {rec : Record} (h : Ordered wal)
    (hnew : ∀ new, rec = .segment new → Covered wal new) : Ordered (wal ++ [rec]) := by
  intro pre new hpre
  rcases List.prefix_concat_iff.mp hpre with heq | hlt
  · obtain ⟨rfl, hr⟩ := List.append_inj' heq rfl
    exact hnew new (List.cons.inj hr).1.symm
  · exact h pre new hlt

theorem Ordered.nil : Ordered [] := by
  intro pre new h
  have := h.length_le
  simp at this

/-- What a compaction writes, from files of which it has read the bitmaps again. -/
theorem compact_covered {files fresh : List SegmentFile} (hlab : ∀ f ∈ fresh, f.Labelled)
    (hcov : ∀ f ∈ fresh, Covered wal f) (hread : fresh.map (·.mapping) = files.map (·.mapping))
    (hinfo : fresh.map (·.info) = files.map (·.info))
    (hoff : fresh.map (·.offsets) = files.map (·.offsets)) (hord : InOrder files)
    (h : OnDisk.compact files fresh = some new) : new.Labelled ∧ Covered wal new := by
  unfold OnDisk.compact at h
  split at h
  next f f' =>
    obtain rfl := Option.some.inj h
    have hm : f'.mapping = f.mapping := by simpa using hread
    have hi : f'.info = f.info := by simpa using hinfo
    have ho : f'.offsets = f.offsets := by simpa using hoff
    have hf' := hlab f' (List.mem_singleton_self f')
    have hf := hf'.congr hi.symm hm.symm ho.symm
    refine ⟨hf.rebuild, fun r hr => ?_⟩
    obtain ⟨k, hk, hb⟩ := hr.of_rebuild hf.sound.tiles
    exact hcov f' (List.mem_singleton_self f') r ⟨k, hm ▸ hk, hb⟩
  next f₁ f₂ f' g' =>
    obtain rfl := Option.some.inj h
    obtain ⟨hi, hi'⟩ : f'.info = f₁.info ∧ g'.info = f₂.info := by simpa using hinfo
    have hf' := hlab f' List.mem_cons_self
    have hg' := hlab g' (List.mem_cons_of_mem _ List.mem_cons_self)
    have hlt : f'.endSid < g'.startSid := by
      have hf : f'.endSid = f₁.endSid := congrArg SegmentFileInfo.endSid hi
      have hg : g'.startSid = f₂.startSid := congrArg SegmentFileInfo.startSid hi'
      rw [hf, hg]
      exact hord
    refine ⟨hf'.merge hg' hlt, fun r hr => ?_⟩
    rcases hr.of_merge with hr | hr
    · exact hcov f' List.mem_cons_self r hr
    · exact hcov g' (List.mem_cons_of_mem _ List.mem_cons_self) r hr
  next => cases h

end WalOrder

end VectorLsm
