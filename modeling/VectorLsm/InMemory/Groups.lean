import VectorLsm.InMemory.Union
import VectorLsm.Segment.Named
import VectorLsm.Segment.RedoExact

/-! # Memtable deletions carried into a segment

The fetcher lists the masked tids of each memtable that an adopted segment displaces, in the
order of the slots. The pass over the slice of the segment that looks for them stops for good at
a tid whose row the primary has compacted out.
-/

namespace VectorLsm

open Subsequence

variable {V : Type*}

/-- The rows of a memtable whose bits are set. -/
def ConcurrentMemTable.maskedRows (mt : ConcurrentMemTable V) : List MappedRow :=
  markedRows (fun j _ => mt.bitmap j) 0 mt.mappedRows

namespace InMemory

/-- "Collect deletion bits as per-sid groups", over the memtables that the segment covers. -/
def collectGroups (mts : List (ConcurrentMemTable V)) : List DpvVacuumGroup :=
  (mts.map fun mt => ⟨mt.memtableId, mt.maskedRows⟩).filter fun g => g.rows ≠ []

/-- A new segment and the memtables it covers: each slice keeps the order of the slots, and any
rows may be gone from it. -/
structure Covered (new : Arrays) (offsets : List SegmentOffsetRange)
    (mts : List (ConcurrentMemTable V)) : Prop where
  table : new.offsets = some offsets
  tiles : Tiles 0 offsets new.map.length
  sids : (offsets.map (·.sid)).Nodup
  rows : ∀ o ∈ offsets, ∀ r ∈ sliceOf new.map o, r.sid = o.sid
  ids : (mts.map (·.memtableId)).Nodup
  slices : ∀ mt ∈ mts, ∀ o ∈ offsets, o.sid = mt.memtableId →
    (sliceOf new.map o).Sublist mt.mappedRows

/-- The bits of the surviving rows masked in their memtables are set, no other, and the count
is that of the bits newly set. -/
structure CarriesGroups (new : Arrays) (mts : List (ConcurrentMemTable V)) : Prop where
  mask : ∀ i row, new.map[i]? = some row →
    ((new.unionGroups (collectGroups mts) ⟨new.bitmap, 0⟩).bitmap i = true ↔
      new.bitmap i = true ∨ ∃ mt ∈ mts, row.sid = mt.memtableId ∧ mt.bitmap row.slot = true)
  other : ∀ i, new.map.length ≤ i →
    (new.unionGroups (collectGroups mts) ⟨new.bitmap, 0⟩).bitmap i = new.bitmap i
  count : countBits (new.unionGroups (collectGroups mts) ⟨new.bitmap, 0⟩).bitmap new.map.length =
    countBits new.bitmap new.map.length +
      (new.unionGroups (collectGroups mts) ⟨new.bitmap, 0⟩).applied

section Walk

variable {s : Marking} {m k n : ℕ} {rs : List MappedRow} {ts : List Tid}

/-- The pass is the one that the redo of a record makes. -/
theorem groupWalk_eq : groupWalk m rs ts s =
    tombstoneWalk m (rs.map (·.tid)) (ts.map fun t => ⟨0, t⟩) s := by
  induction rs generalizing m ts s with
  | nil => rfl
  | cons r rs ih =>
      cases ts with
      | nil => rfl
      | cons t ts =>
          rw [groupWalk, List.map_cons, List.map_cons, tombstoneWalk, ih, ih]
          rfl

theorem groupWalk_bitmap : (groupWalk m rs ts s).bitmap k = true ↔ s.bitmap k = true ∨
    (m ≤ k ∧ ∃ r, rs[k - m]? = some r ∧ Next ts ((rs.take (k - m)).map (·.tid)) r.tid) := by
  have htids : (ts.map fun t => (⟨0, t⟩ : VacuumEntry)).map (·.tid) = ts := by
    rw [List.map_map]
    exact List.map_id ts
  rw [groupWalk_eq, tombstoneWalk_bitmap, htids]
  refine or_congr_right (and_congr_right fun _ => ?_)
  rw [List.getElem?_map, List.map_take]
  constructor
  · rintro ⟨t, ht, hn⟩
    obtain ⟨r, hr, rfl⟩ := Option.map_eq_some_iff.mp ht
    exact ⟨r, hr, hn⟩
  · rintro ⟨r, hr, hn⟩
    exact ⟨r.tid, by rw [hr]; rfl, hn⟩

theorem groupWalk_counts {b : ℕ → Bool} (h : s.Counts n b) (hn : m + rs.length ≤ n) :
    (groupWalk m rs ts s).Counts n b := by
  rw [groupWalk_eq]
  exact tombstoneWalk_counts h (by rwa [List.length_map])

end Walk

section Groups

variable {new : Arrays} {offsets : List SegmentOffsetRange} {groups : List DpvVacuumGroup}
  {s : Marking} {k n : ℕ}

/-- The row at `k` is in the slice of the group and is the next that the pass looks for. -/
def DpvVacuumGroup.Takes (g : DpvVacuumGroup) (map : List MappedRow)
    (offsets : List SegmentOffsetRange) (k : ℕ) : Prop :=
  ∃ o, offsets.find? (·.sid = g.sid) = some o ∧ o.startOffset ≤ k ∧
    ∃ r : MappedRow, (sliceOf map o)[k - o.startOffset]? = some r ∧
      Next (g.rows.map (·.tid)) (((sliceOf map o).take (k - o.startOffset)).map (·.tid)) r.tid

theorem unionGroups_bitmap (ho : new.offsets = some offsets) :
    (new.unionGroups groups s).bitmap k = true ↔
      s.bitmap k = true ∨ ∃ g ∈ groups, g.Takes new.map offsets k := by
  unfold Arrays.unionGroups
  rw [ho]
  dsimp only
  induction groups generalizing s with
  | nil => simp
  | cons g gs ih =>
      rw [List.foldl_cons, ih]
      have hsplit : (∃ g' ∈ g :: gs, g'.Takes new.map offsets k) ↔
          g.Takes new.map offsets k ∨ ∃ g' ∈ gs, g'.Takes new.map offsets k := by simp
      rw [hsplit, ← or_assoc]
      refine or_congr_left ?_
      unfold DpvVacuumGroup.Takes
      split
      case h_1 hnone => simp [hnone]
      case h_2 o hsome => simp [hsome, groupWalk_bitmap]

theorem length_sliceOf_le (map : List MappedRow) (o : SegmentOffsetRange) :
    o.startOffset + (sliceOf map o).length ≤ max o.startOffset map.length := by
  rw [sliceOf, List.length_take, List.length_drop]
  omega

theorem unionGroups_counts {b : ℕ → Bool} (ho : new.offsets = some offsets)
    (ht : Tiles 0 offsets new.map.length) (h : s.Counts new.map.length b) :
    (new.unionGroups groups s).Counts new.map.length b := by
  unfold Arrays.unionGroups
  rw [ho]
  dsimp only
  induction groups generalizing s with
  | nil => exact h
  | cons g gs ih =>
      rw [List.foldl_cons]
      apply ih
      split
      case h_1 => exact h
      case h_2 o hfind =>
        apply groupWalk_counts h
        have hm := ht.mem (List.mem_of_find?_eq_some hfind)
        have := length_sliceOf_le new.map o
        omega

end Groups

section Carries

variable {new : Arrays} {offsets : List SegmentOffsetRange} {mts : List (ConcurrentMemTable V)}

theorem masked_maskedRows {mt : ConcurrentMemTable V} {row : MappedRow} (h : row ∈ mt.mappedRows) :
    Masked mt.maskedRows row.slot ↔ mt.bitmap row.slot = true := by
  obtain ⟨j, hj⟩ := List.mem_iff_getElem?.mp h
  obtain ⟨hlt, rfl⟩ := ConcurrentMemTable.mappedRows_getElem?.mp hj
  constructor
  · rintro ⟨r, hr, hslot⟩
    obtain ⟨i, hi, hb⟩ := (mem_markedRows _ _ _).mp hr
    obtain ⟨-, rfl⟩ := ConcurrentMemTable.mappedRows_getElem?.mp hi
    rw [Nat.zero_add] at hb
    exact hslot ▸ hb
  · intro hb
    exact ⟨_, (mem_markedRows _ _ _).mpr ⟨j, hj, by rwa [Nat.zero_add]⟩, rfl⟩

theorem sliceOf_lt {map : List MappedRow} {o : SegmentOffsetRange} {j : ℕ} {row : MappedRow}
    (h : (sliceOf map o)[j]? = some row) : o.startOffset + j < o.endOffset := by
  have := (List.getElem?_eq_some_iff.mp h).1.trans_le (List.length_take_le _ _)
  omega

theorem sliceOf_getElem? {map : List MappedRow} {o : SegmentOffsetRange} {j : ℕ}
    {row : MappedRow} (h : (sliceOf map o)[j]? = some row) :
    map[o.startOffset + j]? = some row := by
  have := sliceOf_lt h
  rwa [sliceOf, List.getElem?_take_of_lt (by omega), List.getElem?_drop] at h

/-- A scan of the table finds the entry of a segment id. -/
theorem find?_sid {o : SegmentOffsetRange} {sid : SegmentId} (hn : (offsets.map (·.sid)).Nodup)
    (ho : o ∈ offsets) (hsid : o.sid = sid) : offsets.find? (·.sid = sid) = some o := by
  cases hf : offsets.find? (·.sid = sid) with
  | none => exact absurd (decide_eq_true hsid) (by simpa using List.find?_eq_none.mp hf o ho)
  | some o' =>
      have hs : o'.sid = sid := by simpa using List.find?_some hf
      rw [List.inj_on_of_nodup_map hn (List.mem_of_find?_eq_some hf) ho (hs.trans hsid.symm)]

/-- The rows that the pass takes for a memtable. -/
theorem Covered.takes_iff (h : Covered new offsets mts) {o : SegmentOffsetRange}
    (ho : o ∈ offsets) {j : ℕ} {row : MappedRow} (hj : (sliceOf new.map o)[j]? = some row) :
    (∃ g ∈ collectGroups mts, g.Takes new.map offsets (o.startOffset + j)) ↔
      ∃ mt ∈ mts, o.sid = mt.memtableId ∧
        Next (mt.maskedRows.map (·.tid)) (((sliceOf new.map o).take j).map (·.tid)) row.tid := by
  have hlt := sliceOf_lt hj
  constructor
  · rintro ⟨g, hg, o', ho', hle, r, hr, hn⟩
    obtain ⟨mt, hmt, rfl⟩ := List.mem_map.mp (List.mem_filter.mp hg).1
    have hlt' := sliceOf_lt hr
    obtain rfl : o = o' := h.tiles.eq_of_mem ho (List.mem_of_find?_eq_some ho')
      ⟨Nat.le_add_right _ _, hlt⟩ ⟨hle, by omega⟩
    rw [Nat.add_sub_cancel_left] at hr hn
    obtain rfl : row = r := Option.some.inj (hj.symm.trans hr)
    exact ⟨mt, hmt, by simpa using List.find?_some ho', hn⟩
  · rintro ⟨mt, hmt, hsid, hn⟩
    have hne : mt.maskedRows ≠ [] := by
      intro hnil
      rw [hnil] at hn
      cases hn
    refine ⟨⟨mt.memtableId, mt.maskedRows⟩, ?_, o, ?_, Nat.le_add_right _ _, row, ?_⟩
    · exact List.mem_filter.mpr ⟨List.mem_map_of_mem hmt, decide_eq_true hne⟩
    · exact find?_sid h.sids ho hsid
    · rw [Nat.add_sub_cancel_left]
      exact ⟨hj, hn⟩

/-- Adoption carries memtable deletions exactly when, in each slice, every row not yet masked is
the next of the memtable's masked tids just when it is masked there. -/
theorem carriesGroups_iff (new : Arrays) (offsets : List SegmentOffsetRange)
    (mts : List (ConcurrentMemTable V)) (h : Covered new offsets mts) :
    CarriesGroups new mts ↔ ∀ mt ∈ mts, ∀ o ∈ offsets, o.sid = mt.memtableId →
      InStep mt.maskedRows new.bitmap o.startOffset (sliceOf new.map o) := by
  have hone : ∀ {mt mt'}, mt ∈ mts → mt' ∈ mts → mt.memtableId = mt'.memtableId → mt = mt' :=
    fun hm hm' heq => List.inj_on_of_nodup_map h.ids hm hm' heq
  constructor
  · intro hc mt hmt o ho hsid j row hj hb
    have hrow := (h.slices mt hmt o ho hsid).subset (List.mem_of_getElem? hj)
    have hrsid := h.rows o ho row (List.mem_of_getElem? hj)
    have hm := hc.mask _ row (sliceOf_getElem? hj)
    rw [unionGroups_bitmap h.table, h.takes_iff ho hj] at hm
    simp only [hb, Bool.false_eq_true, false_or] at hm
    rw [masked_maskedRows hrow]
    constructor
    · intro hn
      obtain ⟨mt', hmt', hs, hbit⟩ := hm.mp ⟨mt, hmt, hsid, hn⟩
      obtain rfl := hone hmt hmt' (hsid.symm.trans (hrsid.symm.trans hs))
      exact hbit
    · intro hbit
      obtain ⟨mt', hmt', hs, hn⟩ := hm.mpr ⟨mt, hmt, hrsid.trans hsid, hbit⟩
      obtain rfl := hone hmt hmt' (hsid.symm.trans hs)
      exact hn
  · intro hstep
    constructor
    case mask =>
      intro i row hi
      obtain ⟨o, ho, hlo, hhi⟩ := h.tiles.exists_mem (Nat.zero_le i)
        (List.getElem?_eq_some_iff.mp hi).1
      have hj : (sliceOf new.map o)[i - o.startOffset]? = some row := by
        rw [sliceOf, List.getElem?_take_of_lt (by omega), List.getElem?_drop,
          Nat.add_sub_cancel' hlo, hi]
      have hrsid := h.rows o ho row (List.mem_of_getElem? hj)
      have htakes := h.takes_iff ho hj
      rw [Nat.add_sub_cancel' hlo] at htakes
      rw [unionGroups_bitmap h.table, htakes]
      dsimp only
      cases hb : new.bitmap i with
      | true => simp
      | false =>
          simp only [Bool.false_eq_true, false_or]
          refine exists_congr fun mt => and_congr_right fun hmt => ?_
          rw [hrsid]
          refine and_congr_right fun hsid => ?_
          have hrow := (h.slices mt hmt o ho hsid).subset (List.mem_of_getElem? hj)
          rw [← masked_maskedRows hrow]
          exact hstep mt hmt o ho hsid _ row hj (by rwa [Nat.add_sub_cancel' hlo])
    case other =>
      intro i hi
      rw [Bool.eq_iff_iff, unionGroups_bitmap h.table]
      refine or_iff_left ?_
      rintro ⟨g, -, o, ho, hle, r, hr, -⟩
      have := sliceOf_getElem? hr
      rw [Nat.add_sub_cancel' hle] at this
      exact absurd (List.getElem?_eq_some_iff.mp this).1 (Nat.not_lt.mpr hi)
    case count => exact unionGroups_counts h.table h.tiles rfl

/-- Where a memtable has no tid twice: no row to be masked comes after a masked row that is gone
from the slice. -/
theorem carriesGroups_iff_of_distinct (h : Covered new offsets mts)
    (hd : ∀ mt ∈ mts, (mt.mappedRows.map (·.tid)).Nodup) :
    CarriesGroups new mts ↔ ∀ mt ∈ mts, ∀ o ∈ offsets, o.sid = mt.memtableId → ∀ j row i,
      (sliceOf new.map o)[j]? = some row → new.bitmap (o.startOffset + j) = false →
      mt.maskedRows[i]? = some row → mt.maskedRows.take i ⊆ sliceOf new.map o := by
  rw [carriesGroups_iff new offsets mts h]
  refine forall₂_congr fun mt hmt => forall₂_congr fun o ho => forall_congr' fun hsid => ?_
  have hslots : (mt.mappedRows.map (·.slot)).Nodup := by
    have : mt.mappedRows.map (·.slot) = List.range mt.validSize := by
      rw [ConcurrentMemTable.mappedRows, List.map_map]
      exact List.map_id _
    rw [this]
    exact List.nodup_range
  exact inStep_iff_of_distinct (hd mt hmt) hslots (h.slices mt hmt o ho hsid)
    (markedRows_sublist _ _ _)

/-- The second row of the memtable, masked, is gone; the third one keeps its masked bit only in
the memtable. -/
def demoMemtable : ConcurrentMemTable Unit where
  rel := 0
  memtableId := 4
  capacity := 3
  currentSize := 3
  readyCnt := 3
  isSealed := true
  flushClaimed := true
  maxReadyId := some 2
  rows := fun i => ⟨10 + i, ()⟩
  bitmap := fun i => decide (0 < i)
  ready := fun _ => true
  writer := fun _ => none

def demoCompacted : Arrays where
  map := [⟨10, 4, 0⟩, ⟨12, 4, 2⟩]
  bitmap := fun _ => false
  offsets := some [⟨4, 0, 2⟩]
  index := ⟨4, 4, 2⟩
  acked := fun _ => false

theorem covered_demoCompacted : Covered demoCompacted [⟨4, 0, 2⟩] [demoMemtable] where
  table := rfl
  tiles := ⟨rfl, by decide, rfl⟩
  sids := by decide
  rows := by decide
  ids := by decide
  slices := by decide

theorem not_carriesGroups : ¬ ∀ (new : Arrays) (offsets : List SegmentOffsetRange)
    (mts : List (ConcurrentMemTable Unit)), Covered new offsets mts → CarriesGroups new mts := by
  intro h
  have hm := (h _ _ _ covered_demoCompacted).mask 1 ⟨12, 4, 2⟩ rfl
  have hbit := hm.mpr (.inr ⟨demoMemtable, List.mem_singleton_self _, rfl, rfl⟩)
  have hclear : (demoCompacted.unionGroups (collectGroups [demoMemtable])
      ⟨demoCompacted.bitmap, 0⟩).bitmap 1 = false := by decide
  rw [hclear] at hbit
  cases hbit

theorem carriesGroups_iff_demoCompacted : CarriesGroups demoCompacted [demoMemtable] ↔
    ∀ mt ∈ [demoMemtable], ∀ o ∈ ([⟨4, 0, 2⟩] : List SegmentOffsetRange), o.sid = mt.memtableId →
      InStep mt.maskedRows demoCompacted.bitmap o.startOffset (sliceOf demoCompacted.map o) :=
  carriesGroups_iff _ _ _ covered_demoCompacted

end Carries

end InMemory

end VectorLsm
