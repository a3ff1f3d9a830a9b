import Mathlib.Data.List.Nodup
import VectorLsm.Segment.Grouped
import VectorLsm.Segment.Marks

/-! # Rows by name

A row is known by its segment id and its slot in the memtable of that id. No segment file has a
name twice, and the entries of a tombstone record, looked up in the store the record is about,
are the rows of the pass that wrote it.
-/

namespace VectorLsm

open SegmentFile

def MappedRow.name (r : MappedRow) : SegmentId × ℕ := (r.sid, r.slot)

/-- The rows a record names, with `owner` the rows of its store from the start of its slice. -/
def VacuumTombstones.rows (rec : VacuumTombstones) (owner : List MappedRow) : List MappedRow :=
  rec.entries.filterMap fun e => owner[e.sidLocalIdx]?

/-- The rows a record about a segment file names. -/
def SegmentFile.namedBy (f : SegmentFile) (rec : VacuumTombstones) : List MappedRow :=
  match f.offsets.find? (·.sid = rec.sid) with
  | none => []
  | some o => rec.rows (f.slice o)

section Marked

variable {p q : ℕ → MappedRow → Bool} {i : ℕ} {rs rs' owner : List MappedRow}

theorem markedRows_append :
    markedRows p i (rs ++ rs') = markedRows p i rs ++ markedRows p (i + rs.length) rs' := by
  induction rs generalizing i with
  | nil => rfl
  | cons r rs ih =>
      have hn : i + (r :: rs).length = i + 1 + rs.length := by
        rw [List.length_cons]
        omega
      simp only [List.cons_append, markedRows, ih, hn]
      split <;> rfl

theorem markedRows_shift (k : ℕ) :
    markedRows p (i + k) rs = markedRows (fun j => p (j + k)) i rs := by
  induction rs generalizing i with
  | nil => rfl
  | cons r rs ih =>
      have hn : i + k + 1 = i + 1 + k := by omega
      rw [markedRows, markedRows, hn, ih]

theorem markedRows_sublist (p : ℕ → MappedRow → Bool) (i : ℕ) (rs : List MappedRow) :
    (markedRows p i rs).Sublist rs := by
  induction rs generalizing i with
  | nil => exact .slnil
  | cons r rs ih =>
      rw [markedRows]
      split
      · exact (ih _).cons_cons _
      · exact (ih _).cons _

theorem markedRows_sublist_of_imp (i : ℕ) (rs : List MappedRow)
    (h : ∀ j r, p j r = true → q j r = true) :
    (markedRows p i rs).Sublist (markedRows q i rs) := by
  induction rs generalizing i with
  | nil => exact .slnil
  | cons r rs ih =>
      rw [markedRows, markedRows]
      cases hp : p i r with
      | true =>
          rw [if_pos rfl, if_pos (h i r hp)]
          exact (ih (i + 1)).cons_cons r
      | false =>
          rw [if_neg Bool.false_ne_true]
          split
          · exact (ih (i + 1)).cons r
          · exact ih (i + 1)

/-- A predicate that picks from the rows of another one picks all of them, or fewer. -/
theorem markedRows_eq_iff (h : ∀ j r, p j r = true → q j r = true) :
    markedRows p i rs = markedRows q i rs ↔
      ∀ j r, rs[j]? = some r → q (i + j) r = true → p (i + j) r = true := by
  induction rs generalizing i with
  | nil => simp [markedRows]
  | cons a rs ih =>
      have hsplit : (∀ j r, (a :: rs)[j]? = some r → q (i + j) r = true → p (i + j) r = true) ↔
          (q i a = true → p i a = true) ∧
            ∀ j r, rs[j]? = some r → q (i + 1 + j) r = true → p (i + 1 + j) r = true := by
        constructor
        · refine fun hall => ⟨fun hq => hall 0 a rfl hq, fun j r hj hq => ?_⟩
          rw [Nat.add_assoc, Nat.add_comm 1] at hq ⊢
          exact hall (j + 1) r hj hq
        · rintro ⟨h0, hall⟩ j r hj hq
          cases j with
          | zero =>
              obtain rfl : a = r := Option.some.inj hj
              exact h0 hq
          | succ j =>
              rw [← Nat.add_assoc, Nat.add_right_comm] at hq ⊢
              exact hall j r hj hq
      rw [hsplit, ← ih, markedRows, markedRows]
      cases hp : p i a with
      | true => simp [h i a hp]
      | false =>
          cases hq : q i a with
          | false => simp
          | true =>
              have hlen := (markedRows_sublist_of_imp (i + 1) rs h).length_le
              refine iff_of_false (fun heq => ?_) fun hc => Bool.false_ne_true (hc.1 rfl)
              rw [if_neg Bool.false_ne_true, if_pos rfl] at heq
              rw [heq, List.length_cons] at hlen
              omega

/-- The entries, looked up, are the rows. -/
theorem filterMap_collectRows (h : ∀ j r, rs[j]? = some r → owner[i + j]? = some r) :
    (collectRows p i rs).filterMap (fun e => owner[e.sidLocalIdx]?) = markedRows p i rs := by
  induction rs generalizing i with
  | nil => rfl
  | cons a rs ih =>
      have h0 : owner[i]? = some a := h 0 a rfl
      have htail := ih (i := i + 1) fun j r hj => by
        rw [Nat.add_assoc, Nat.add_comm 1]
        exact h (j + 1) r hj
      rw [collectRows, markedRows]
      split
      · simp only [List.filterMap_cons, h0, htail]
      · exact htail

theorem rows_collectRows (p : ℕ → MappedRow → Bool) (rs : List MappedRow) (rec : VacuumTombstones)
    (h : rec.entries = collectRows p 0 rs) : rec.rows rs = markedRows p 0 rs := by
  rw [VacuumTombstones.rows, h]
  refine filterMap_collectRows fun j r hj => ?_
  rwa [Nat.zero_add]

end Marked

section Memtable

variable {V : Type*} (mt : ConcurrentMemTable V)

theorem ConcurrentMemTable.nodup_names : (mt.mappedRows.map (·.name)).Nodup := by
  rw [mappedRows, List.map_map]
  refine List.nodup_range.map fun i j h => ?_
  exact (Prod.mk.injEq .. ▸ h).2

/-- The record of a memtable names the rows its pass has found. -/
theorem ConcurrentMemTable.tombstones_rows (d : Disk) (checkReady : Bool)
    (callback : Tid → Bool) :
    (mt.tombstones d checkReady callback).toList.flatMap (·.rows mt.mappedRows) =
      markedRows (mt.dead checkReady callback) 0 mt.mappedRows := by
  have hrows := rows_collectRows (mt.dead checkReady callback) mt.mappedRows
  unfold tombstones
  dsimp only
  split
  next hnil =>
    have := hrows ⟨0, 0, false, []⟩ hnil.symm
    rw [← this]
    rfl
  next =>
    split
    · exact (List.flatMap_singleton ..).trans (hrows _ rfl)
    · exact (List.flatMap_singleton ..).trans (hrows _ rfl)

end Memtable

namespace SegmentFile

variable {f g : SegmentFile} {tids tids' : SegmentId → List Tid} {callback : Tid → Bool}
  {os : List SegmentOffsetRange} {o : SegmentOffsetRange} {lo hi : ℕ}

/-- The rows between two entries of the table, one slice after the other. -/
theorem flatMap_slice (ht : Tiles lo os hi) :
    os.flatMap f.slice = (f.mapping.drop lo).take (hi - lo) := by
  induction os generalizing lo with
  | nil =>
      obtain rfl : lo = hi := ht
      simp
  | cons o os ih =>
      obtain ⟨rfl, hle, ht⟩ := ht
      have hhi := ht.le
      have hsum : hi - o.startOffset = (o.endOffset - o.startOffset) + (hi - o.endOffset) := by
        omega
      rw [List.flatMap_cons, ih ht, slice, hsum, List.take_add, List.drop_drop,
        Nat.add_sub_cancel' hle]

theorem Descends.mapping_eq (h : f.Descends tids) : f.offsets.flatMap f.slice = f.mapping := by
  rw [flatMap_slice h.tiles, List.drop_zero, Nat.sub_zero, List.take_length]

theorem slice_length (ht : Tiles 0 f.offsets f.mapping.length) (ho : o ∈ f.offsets) :
    (f.slice o).length = o.endOffset - o.startOffset := by
  have := ht.mem ho
  rw [slice, List.length_take, List.length_drop]
  omega

theorem nodup_memtableRows (sid : SegmentId) (ts : List Tid) :
    ((memtableRows sid ts).map (·.name)).Nodup := by
  have hmap : ((memtableRows sid ts).map (·.name)).map (·.2) = ts.zipIdx.map (·.2) := by
    rw [memtableRows, List.map_map, List.map_map]
    rfl
  refine List.Nodup.of_map (·.2) ?_
  rw [hmap, List.zipIdx_map_snd]
  exact List.nodup_range'

theorem name_of_mem_slice (h : f.Descends tids) (ho : o ∈ f.offsets) {r : MappedRow}
    (hr : r ∈ f.slice o) : r.name.1 = o.sid := by
  have := (h.slices o ho).subset hr
  obtain ⟨p, -, rfl⟩ := List.mem_map.mp this
  rfl

/-- No file has a name twice. -/
theorem Descends.nodup_names (h : f.Descends tids) : (f.mapping.map (·.name)).Nodup := by
  rw [← h.mapping_eq, List.map_flatMap, List.nodup_flatMap]
  constructor
  · intro o ho
    exact ((h.slices o ho).map _).nodup (nodup_memtableRows o.sid _)
  · refine (List.pairwise_map.mp h.nodup).imp_of_mem fun {a b} ha hb hne => ?_
    intro n hna hnb
    obtain ⟨r, hr, rfl⟩ := List.mem_map.mp hna
    obtain ⟨r', hr', hname⟩ := List.mem_map.mp hnb
    refine hne ?_
    rw [← name_of_mem_slice h ha hr, ← name_of_mem_slice h hb hr', hname]

/-- The rows newly masked, slice by slice. -/
theorem flatMap_markedRows {p : ℕ → MappedRow → Bool} (ht : Tiles lo os hi)
    (hos : ∀ o ∈ os, (f.slice o).length = o.endOffset - o.startOffset) :
    os.flatMap (fun o => markedRows (fun j => p (j + o.startOffset)) 0 (f.slice o)) =
      markedRows p lo (os.flatMap f.slice) := by
  induction os generalizing lo with
  | nil => rfl
  | cons o os ih =>
      obtain ⟨rfl, hle, ht⟩ := ht
      have hlen := hos o List.mem_cons_self
      rw [List.flatMap_cons, List.flatMap_cons, markedRows_append, hlen, Nat.add_sub_cancel' hle,
        ih ht fun o' ho' => hos o' (List.mem_cons_of_mem o ho'), ← markedRows_shift, Nat.zero_add]

theorem namedBy_record (h : f.Descends tids) (ho : o ∈ f.offsets) :
    (f.record callback o).toList.flatMap f.namedBy =
      markedRows (f.dead callback o) 0 (f.slice o) := by
  have hrows := rows_collectRows (f.dead callback o) (f.slice o)
  have hfind : f.offsets.find? (·.sid = o.sid) = some o := by
    cases hf : f.offsets.find? (·.sid = o.sid) with
    | none =>
        have hne := List.find?_eq_none.mp hf o ho
        simp at hne
    | some o' =>
        have hsid : o'.sid = o.sid := by simpa using List.find?_some hf
        rw [List.inj_on_of_nodup_map h.nodup (List.mem_of_find?_eq_some hf) ho hsid]
  rw [record]
  split
  next hnil =>
    have := hrows ⟨0, 0, false, []⟩ hnil.symm
    rw [← this]
    rfl
  next =>
    refine (List.flatMap_singleton ..).trans ?_
    rw [namedBy, hfind]
    exact hrows _ rfl

/-- The records of a file name the rows its pass has found. -/
theorem flatMap_namedBy (h : f.Descends tids) (callback : Tid → Bool) :
    (f.tombstones callback).flatMap f.namedBy = f.newlyDead callback := by
  have hall : (f.offsets.filterMap (f.record callback)).flatMap f.namedBy =
      f.offsets.flatMap fun o => (f.record callback o).toList.flatMap f.namedBy := by
    rw [List.filterMap_eq_flatMap_toList, List.flatMap_assoc]
  have hslices : (f.offsets.flatMap fun o => (f.record callback o).toList.flatMap f.namedBy) =
      f.offsets.flatMap fun o =>
        markedRows (fun j r => !f.bitmap (j + o.startOffset) && callback r.tid) 0 (f.slice o) := by
    refine List.flatMap_congr fun o ho => ?_
    rw [namedBy_record h ho]
    refine congrArg (markedRows · 0 (f.slice o)) (funext fun j => funext fun r => ?_)
    rw [dead, Nat.add_comm]
  have hmarked := flatMap_markedRows (f := f) (p := fun j r => !f.bitmap j && callback r.tid)
    h.tiles fun o => slice_length h.tiles
  rw [h.mapping_eq] at hmarked
  rw [tombstones_eq h, hall, hslices]
  exact hmarked

/-- The file goes back to memtables. -/
def Descended (f : SegmentFile) : Prop := ∃ tids, f.Descends tids

/-- Only the memtables of the range matter. -/
theorem Descends.congr (h : f.Descends tids)
    (heq : ∀ sid, f.startSid ≤ sid → sid ≤ f.endSid → tids sid = tids' sid) :
    f.Descends tids' where
  range := h.range
  tiles := h.tiles
  sids := h.sids
  slices := by
    intro o ho
    have hm := h.sids.mem_iff.mp (List.mem_map_of_mem ho)
    rw [List.mem_range'_1] at hm
    rw [← heq o.sid hm.1 (by lia)]
    exact h.slices o ho

namespace Descended

theorem flush (sid : SegmentId) (ts : List Tid) (bitmap : ℕ → Bool) (version : ℕ) :
    (SegmentFile.flush sid ts bitmap version).Descended :=
  ⟨fun _ => ts, .flush sid bitmap version⟩

theorem setBitmap (h : f.Descended) (bitmap : ℕ → Bool) (n : ℕ) :
    (f.setBitmap bitmap n).Descended := by
  obtain ⟨tids, h⟩ := h
  exact ⟨tids, h.setBitmap bitmap n⟩

theorem setVersion (h : f.Descended) (version : ℕ) :
    SegmentFile.Descended { f with version := version } := by
  obtain ⟨tids, h⟩ := h
  exact ⟨tids, h.range, h.tiles, h.sids, h.slices⟩

theorem rebuild (h : f.Descended) (snapshot fresh : ℕ → Bool) (version : ℕ) :
    (f.rebuild snapshot fresh version).Descended := by
  obtain ⟨tids, h⟩ := h
  exact ⟨tids, h.rebuild snapshot fresh version⟩

theorem merge (hf : f.Descended) (hg : g.Descended) (hadj : f.endSid + 1 = g.startSid)
    (version : ℕ) : (f.merge g version).Descended := by
  obtain ⟨tids, hf⟩ := hf
  obtain ⟨tids', hg⟩ := hg
  let both : SegmentId → List Tid := fun sid => if sid ≤ f.endSid then tids sid else tids' sid
  have hf' : f.Descends both := hf.congr fun sid _ hhi => by simp [both, hhi]
  have hg' : g.Descends both := hg.congr fun sid hlo _ => by
    have hgt : ¬ sid ≤ f.endSid := by lia
    simp [both, hgt]
  exact ⟨both, hf'.merge hg' hadj version⟩

theorem nodup_names (h : f.Descended) : (f.mapping.map (·.name)).Nodup := by
  obtain ⟨tids, h⟩ := h
  exact h.nodup_names

theorem flatMap_namedBy (h : f.Descended) (callback : Tid → Bool) :
    (f.tombstones callback).flatMap f.namedBy = f.newlyDead callback := by
  obtain ⟨tids, h⟩ := h
  exact SegmentFile.flatMap_namedBy h callback

end Descended

end SegmentFile

end VectorLsm
