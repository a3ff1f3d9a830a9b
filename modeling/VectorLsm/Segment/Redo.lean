import VectorLsm.Lib.Subsequence
import VectorLsm.Segment.Tombstone

/-! # Redo of tombstone records

The startup process of a standby applies a record to the memtable and to the segment file that
represent the record's segment id: by position where it takes the standby's store to be the
primary's, and otherwise in one pass over the rows that advances in the record at each tid it
meets.
-/

namespace VectorLsm

open SegmentFile Subsequence

/-- A bitmap and the count of the bits newly set in it. -/
structure Marking where
  bitmap : ℕ → Bool
  applied : ℕ

/-- `if (!IS_SLOT_SET(..)) { SET_SLOT(..); applied++; }`. -/
def Marking.set (s : Marking) (m : ℕ) : Marking :=
  if s.bitmap m then s else ⟨Function.update s.bitmap m true, s.applied + 1⟩

/-- The two-pointer merge, from row `m` on. -/
def tombstoneWalk : ℕ → List Tid → List VacuumEntry → Marking → Marking
  | _, [], _, s => s
  | _, _ :: _, [], s => s
  | m, t :: ts, e :: es, s =>
      if t = e.tid then tombstoneWalk (m + 1) ts es (s.set m)
      else tombstoneWalk (m + 1) ts (e :: es) s

/-- The entries applied by position, in the slots from `start` to `last`. -/
def tombstoneFast (start last : ℕ) (entries : List VacuumEntry) (s : Marking) : Marking :=
  entries.foldl
    (fun s e => if start + e.sidLocalIdx < last then s.set (start + e.sidLocalIdx) else s) s

/-- `offset_index_for_sid`, the bounds `lo` and `hi + 1`. -/
def offsetIndexForSid (offsets : List SegmentOffsetRange) (sid : SegmentId) :
    ℕ → ℕ → ℕ → Option ℕ
  | 0, _, _ => none
  | fuel + 1, lo, hi =>
      if lo < hi then
        let mid := lo + (hi - 1 - lo) / 2
        match offsets[mid]? with
        | none => none
        | some o =>
            if o.sid = sid then some mid
            else if o.sid < sid then offsetIndexForSid offsets sid fuel (mid + 1) hi
            else offsetIndexForSid offsets sid fuel lo mid
      else none

section Apply

variable {V : Type*}

/-- `apply_entries_to_memtable_locked`. -/
def VacuumTombstones.applyToMemtable (rec : VacuumTombstones) (mt : ConcurrentMemTable V) :
    ConcurrentMemTable V :=
  let s : Marking := ⟨mt.bitmap, 0⟩
  if rec.isMemtableOwner then
    { mt with bitmap := (tombstoneFast 0 mt.capacity rec.entries s).bitmap }
  else
    { mt with
      bitmap := (tombstoneWalk 0 (mt.mappedRows.map (·.tid)) rec.entries s).bitmap }

/-- The slice of the record's segment id, if the lookup in the offset table finds it. -/
def SegmentFile.offsetOf (f : SegmentFile) (sid : SegmentId) : Option SegmentOffsetRange :=
  (offsetIndexForSid f.offsets sid (f.endSid + 1 - f.startSid) 0 (f.endSid + 1 - f.startSid)).bind
    fun oi => f.offsets[oi]?

/-- The record is applied by position. -/
def VacuumTombstones.fastPath (rec : VacuumTombstones) (f : SegmentFile) : Bool :=
  decide (f.version = rec.ownerVersion) && !rec.isMemtableOwner

/-- The bits set for the slice `o`. -/
def VacuumTombstones.mark (rec : VacuumTombstones) (f : SegmentFile) (o : SegmentOffsetRange)
    (s : Marking) : Marking :=
  if rec.fastPath f then tombstoneFast o.startOffset o.endOffset rec.entries s
  else tombstoneWalk o.startOffset ((f.slice o).map (·.tid)) rec.entries s

/-- The new bitmap subversion that `apply_to_disk_file_for_sid` writes. -/
def VacuumTombstones.applyToSegment (rec : VacuumTombstones) (f : SegmentFile) : SegmentFile :=
  match f.offsetOf rec.sid with
  | none => f
  | some o =>
      let s := rec.mark f o ⟨f.bitmap, 0⟩
      f.setBitmap s.bitmap (f.deleteCount + s.applied)

end Apply

section Marking

variable {s : Marking} {es : List VacuumEntry} {ts : List Tid} {m n i start last : ℕ}

theorem Marking.set_bitmap (k : ℕ) :
    (s.set m).bitmap k = true ↔ s.bitmap k = true ∨ k = m := by
  unfold Marking.set
  split
  case isTrue h =>
    refine ⟨.inl, ?_⟩
    rintro (h' | rfl)
    · exact h'
    · exact h
  case isFalse h =>
    dsimp only
    rw [Function.update_apply]
    split
    case isTrue hk => simp [hk]
    case isFalse hk => simp [hk]

/-- The count follows the bits below `n`. -/
def Marking.Counts (n : ℕ) (b : ℕ → Bool) (s : Marking) : Prop :=
  countBits s.bitmap n = countBits b n + s.applied

theorem countBits_congr {b b' : ℕ → Bool} (h : ∀ i < n, b i = b' i) :
    countBits b n = countBits b' n :=
  List.countP_congr fun i hi => by rw [h i (List.mem_range.mp hi)]

theorem countBits_update {b : ℕ → Bool} (hm : m < n) (hb : b m = false) :
    countBits (Function.update b m true) n = countBits b n + 1 := by
  induction n with
  | zero => omega
  | succ n ih =>
      rw [countBits_succ, countBits_succ]
      rcases Nat.lt_succ_iff_lt_or_eq.mp hm with hlt | rfl
      · rw [ih hlt, Function.update_of_ne (by omega)]
        omega
      · have hc : countBits (Function.update b m true) m = countBits b m :=
          countBits_congr fun i hi => Function.update_of_ne (by omega) _ _
        simp [hc, hb]

theorem Marking.Counts.set {b : ℕ → Bool} (h : s.Counts n b) (hm : m < n) :
    (s.set m).Counts n b := by
  unfold Marking.set
  split
  case isTrue => exact h
  case isFalse hb =>
    have := countBits_update hm (Bool.not_eq_true _ ▸ hb)
    rw [Marking.Counts] at h ⊢
    dsimp only
    omega

theorem tombstoneFast_bitmap (k : ℕ) :
    (tombstoneFast start last es s).bitmap k = true ↔ s.bitmap k = true ∨
      (start ≤ k ∧ k < last ∧ k - start ∈ es.map (·.sidLocalIdx)) := by
  induction es generalizing s with
  | nil => simp [tombstoneFast]
  | cons e es ih =>
      have hidx : k - start ∈ (e :: es).map (·.sidLocalIdx) ↔
          k - start = e.sidLocalIdx ∨ k - start ∈ es.map (·.sidLocalIdx) := List.mem_cons
      rw [tombstoneFast, List.foldl_cons, ← tombstoneFast, ih, hidx]
      split
      case isTrue h =>
        rw [Marking.set_bitmap, or_assoc]
        refine or_congr_right ⟨?_, ?_⟩
        · rintro (rfl | ⟨h1, h2, h3⟩)
          · exact ⟨Nat.le_add_right _ _, h, .inl (Nat.add_sub_cancel_left _ _)⟩
          · exact ⟨h1, h2, .inr h3⟩
        · rintro ⟨h1, h2, h3 | h3⟩
          · exact .inl (by omega)
          · exact .inr ⟨h1, h2, h3⟩
      case isFalse h =>
        refine or_congr_right ⟨fun ⟨h1, h2, h3⟩ => ⟨h1, h2, .inr h3⟩, ?_⟩
        rintro ⟨h1, h2, h3 | h3⟩
        · omega
        · exact ⟨h1, h2, h3⟩

theorem tombstoneFast_counts {b : ℕ → Bool} (h : s.Counts n b) (hlast : last ≤ n) :
    (tombstoneFast start last es s).Counts n b := by
  induction es generalizing s with
  | nil => exact h
  | cons e es ih =>
      rw [tombstoneFast, List.foldl_cons, ← tombstoneFast]
      refine ih ?_
      split
      case isTrue hlt => exact h.set (hlt.trans_le hlast)
      case isFalse => exact h

/-- The pass marks a row when its tid is the next of the record's tids that the rows before it
have not used up. -/
theorem tombstoneWalk_bitmap (k : ℕ) :
    (tombstoneWalk m ts es s).bitmap k = true ↔ s.bitmap k = true ∨
      (m ≤ k ∧ ∃ t, ts[k - m]? = some t ∧ Next (es.map (·.tid)) (ts.take (k - m)) t) := by
  induction ts generalizing m es s with
  | nil => simp [tombstoneWalk]
  | cons t ts ih =>
      cases es with
      | nil => simp [tombstoneWalk, Next]
      | cons e es =>
          -- Row `m` is `t`; the rows after it are those of the rest of the pass.
          have hsplit : ∀ {P : ℕ → Tid → Prop},
              (m ≤ k ∧ ∃ t', (t :: ts)[k - m]? = some t' ∧ P (k - m) t') ↔
              (k = m ∧ P 0 t) ∨
                (m + 1 ≤ k ∧ ∃ t', ts[k - (m + 1)]? = some t' ∧ P (k - (m + 1) + 1) t') := by
            intro P
            rcases Nat.lt_trichotomy k m with hlt | rfl | hlt
            · constructor <;> intro h <;> omega
            · simp
            · have hk : k - m = k - (m + 1) + 1 := by omega
              have hne : k ≠ m := by omega
              simp [hk, hne, hlt.le, Nat.succ_le_of_lt hlt]
          have := hsplit (P := fun j t' => Next ((e :: es).map (·.tid)) ((t :: ts).take j) t')
          rw [this, tombstoneWalk]
          split
          case isTrue hte =>
            rw [ih, Marking.set_bitmap, or_assoc]
            refine or_congr_right (or_congr ?_ (and_congr_right fun _ => ?_))
            · simp [Next, hte]
            · simp [Next, cursor_cons, hte]
          case isFalse hte =>
            have hne : ¬ Next ((e :: es).map (·.tid)) [] t := by
              simpa [Next] using Ne.symm hte
            rw [ih]
            refine or_congr_right ((and_congr_right fun _ => ?_).trans
              (or_iff_right fun h => hne h.2).symm)
            simp [Next, cursor_cons, hte]

theorem tombstoneWalk_counts {b : ℕ → Bool} (h : s.Counts n b) (hn : m + ts.length ≤ n) :
    (tombstoneWalk m ts es s).Counts n b := by
  induction ts generalizing m es s with
  | nil => exact h
  | cons t ts ih =>
      rw [List.length_cons] at hn
      cases es with
      | nil => exact h
      | cons e es =>
          rw [tombstoneWalk]
          split
          · exact ih (h.set (by omega)) (by omega)
          · exact ih h (by omega)

end Marking

section Mark

variable {rec : VacuumTombstones} {f : SegmentFile} {o : SegmentOffsetRange} {s : Marking} {n : ℕ}

/-- The positions whose bits the record sets in the slice `o`. -/
def VacuumTombstones.Marks (rec : VacuumTombstones) (f : SegmentFile) (o : SegmentOffsetRange)
    (j : ℕ) : Prop :=
  if rec.fastPath f then j < o.endOffset - o.startOffset ∧ j ∈ rec.entries.map (·.sidLocalIdx)
  else ∃ row, (f.slice o)[j]? = some row ∧
    Next (rec.entries.map (·.tid)) (((f.slice o).take j).map (·.tid)) row.tid

theorem VacuumTombstones.mark_bitmap (k : ℕ) : (rec.mark f o s).bitmap k = true ↔
    s.bitmap k = true ∨ (o.startOffset ≤ k ∧ rec.Marks f o (k - o.startOffset)) := by
  unfold VacuumTombstones.mark VacuumTombstones.Marks
  split
  · rw [tombstoneFast_bitmap]
    refine or_congr_right (and_congr_right fun h => and_congr_left fun _ => ?_)
    omega
  · rw [tombstoneWalk_bitmap]
    refine or_congr_right (and_congr_right fun h => ?_)
    simp only [List.getElem?_map, Option.map_eq_some_iff, List.map_take]
    constructor
    · rintro ⟨_, ⟨row, hrow, rfl⟩, hn⟩
      exact ⟨row, hrow, hn⟩
    · rintro ⟨row, hrow, hn⟩
      exact ⟨_, ⟨row, hrow, rfl⟩, hn⟩

theorem VacuumTombstones.mark_counts (rec : VacuumTombstones) {b : ℕ → Bool} (h : s.Counts n b)
    (hlo : o.startOffset ≤ n) (hhi : o.endOffset ≤ n) (hn : f.mapping.length = n) :
    (rec.mark f o s).Counts n b := by
  unfold VacuumTombstones.mark
  split
  · exact tombstoneFast_counts h hhi
  · refine tombstoneWalk_counts h ?_
    have : (f.slice o).length ≤ f.mapping.length - o.startOffset := by
      rw [SegmentFile.slice, List.length_take, List.length_drop]
      exact Nat.min_le_right _ _
    rw [List.length_map]
    omega

/-- A second pass finds all its bits set. -/
theorem VacuumTombstones.mark_mark (rec : VacuumTombstones) {b : ℕ → Bool}
    (hlo : o.startOffset ≤ f.mapping.length) (hhi : o.endOffset ≤ f.mapping.length) :
    rec.mark f o ⟨(rec.mark f o ⟨b, 0⟩).bitmap, 0⟩ = ⟨(rec.mark f o ⟨b, 0⟩).bitmap, 0⟩ := by
  have hb : (rec.mark f o ⟨(rec.mark f o ⟨b, 0⟩).bitmap, 0⟩).bitmap =
      (rec.mark f o ⟨b, 0⟩).bitmap := by
    funext k
    rw [Bool.eq_iff_iff, mark_bitmap]
    refine or_iff_left_of_imp fun h => ?_
    rw [mark_bitmap]
    exact .inr h
  have hc := rec.mark_counts (f := f) (o := o)
    (s := ⟨(rec.mark f o ⟨b, 0⟩).bitmap, 0⟩) (b := (rec.mark f o ⟨b, 0⟩).bitmap) rfl hlo hhi rfl
  rw [Marking.Counts, hb] at hc
  generalize rec.mark f o ⟨(rec.mark f o ⟨b, 0⟩).bitmap, 0⟩ = s at hb hc
  obtain ⟨bitmap, applied⟩ := s
  obtain rfl : bitmap = _ := hb
  obtain rfl : applied = 0 := by
    dsimp only at hc
    omega
  rfl

end Mark

theorem offsetIndexForSid_sid {offsets : List SegmentOffsetRange} {sid : SegmentId}
    {fuel lo hi oi : ℕ} (h : offsetIndexForSid offsets sid fuel lo hi = some oi) :
    ∃ o, offsets[oi]? = some o ∧ o.sid = sid := by
  induction fuel generalizing lo hi with
  | zero => cases h
  | succ fuel ih =>
      rw [offsetIndexForSid] at h
      split at h
      case isFalse => cases h
      case isTrue =>
        dsimp only at h
        split at h
        case h_1 => cases h
        case h_2 o ho =>
          split_ifs at h with h1 h2
          · obtain rfl := Option.some.inj h
            exact ⟨o, ho, h1⟩
          · exact ih h
          · exact ih h

theorem SegmentFile.offsetOf_mem {f : SegmentFile} {sid : SegmentId} {o : SegmentOffsetRange}
    (h : f.offsetOf sid = some o) : o ∈ f.offsets ∧ o.sid = sid := by
  obtain ⟨oi, hoi, ho⟩ := Option.bind_eq_some_iff.mp h
  obtain ⟨o', ho', hsid⟩ := offsetIndexForSid_sid hoi
  obtain rfl : o = o' := Option.some.inj (ho.symm.trans ho')
  exact ⟨List.mem_of_getElem? ho, hsid⟩

end VectorLsm
