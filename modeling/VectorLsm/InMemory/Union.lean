import VectorLsm.Segment.Redo
import VectorLsm.Segment.Scan

/-! # Bits carried over by an adoption

A segment that is adopted takes over the deletion bits of the segments and memtables it
displaces. The rows of one segment id are matched by tid, in one pass over two slices whose rows
are in the same order.
-/

namespace VectorLsm.InMemory

/-- `DpvVacuumGroup`, its tids with the rows they were taken from. -/
structure DpvVacuumGroup where
  sid : SegmentId
  rows : List MappedRow
  deriving DecidableEq

/-- What the slot of a segment points to. -/
structure Arrays where
  map : List MappedRow
  bitmap : ℕ → Bool
  /-- `NULL` where the table is not set. -/
  offsets : Option (List SegmentOffsetRange)
  /-- The file version the index is that of. -/
  index : SegmentFileInfo
  /-- History: the bits of the VACUUM updates that were acknowledged. -/
  acked : ℕ → Bool

/-- The rows an entry of an offset table delimits. -/
def sliceOf (map : List MappedRow) (o : SegmentOffsetRange) : List MappedRow :=
  (map.drop o.startOffset).take (o.endOffset - o.startOffset)

/-- `union_segment_bitmap_via_offset_merge` on one segment id, from row `i` of the old segment and
row `m` of the new one on. -/
def unionWalk (old : ℕ → Bool) : ℕ → ℕ → List MappedRow → List MappedRow → Marking → Marking
  | _, _, [], _, s => s
  | _, _, _ :: _, [], s => s
  | i, m, r :: rs, r' :: rs', s =>
      if r.tid = r'.tid then unionWalk old (i + 1) (m + 1) rs rs' (if old i then s.set m else s)
      -- the new segment has dropped the row
      else unionWalk old (i + 1) m rs (r' :: rs') s

/-- `union_deletion_entries_into_new_seg` on one group, from row `m` on. -/
def groupWalk : ℕ → List MappedRow → List Tid → Marking → Marking
  | _, [], _, s => s
  | _, _ :: _, [], s => s
  | m, r :: rs, t :: ts, s =>
      if r.tid = t then groupWalk (m + 1) rs ts (s.set m) else groupWalk (m + 1) rs (t :: ts) s

namespace Arrays

variable (new old : Arrays)

/-- `union_segment_bitmap_via_offset_merge`. -/
def unionSegment (s : Marking) : Marking :=
  match old.offsets, new.offsets with
  | some oldOffsets, some newOffsets =>
      newOffsets.foldl (fun s n =>
        match oldOffsets.find? (·.sid = n.sid) with
        | none => s
        | some o =>
            unionWalk old.bitmap o.startOffset n.startOffset (sliceOf old.map o)
              (sliceOf new.map n) s) s
  | _, _ => s

/-- `union_deletion_entries_into_new_seg`. -/
def unionGroups (groups : List DpvVacuumGroup) (s : Marking) : Marking :=
  match new.offsets with
  | none => s
  | some newOffsets =>
      groups.foldl (fun s g =>
        match newOffsets.find? (·.sid = g.sid) with
        | none => s
        | some n =>
            groupWalk n.startOffset (sliceOf new.map n) (g.rows.map (·.tid)) s) s

end Arrays

/-- Every bit set for a row of the array is a deletion of the row. -/
def Marks (deleted : List MappedRow) (map : List MappedRow) (bitmap : ℕ → Bool) : Prop :=
  ∀ i row, map[i]? = some row → bitmap i = true → row ∈ deleted

/-- A tid names the same row in two slices. -/
def SameRows (rs rs' : List MappedRow) : Prop := ∀ r ∈ rs, ∀ r' ∈ rs', r.tid = r'.tid → r = r'

instance (rs rs' : List MappedRow) : Decidable (SameRows rs rs') :=
  inferInstanceAs (Decidable (∀ r ∈ rs, ∀ r' ∈ rs', r.tid = r'.tid → r = r'))

section Marks

variable {deleted deleted' map rs rs' : List MappedRow} {bitmap old : ℕ → Bool} {i m : ℕ}
  {s : Marking}

theorem Marks.mono (h : Marks deleted map bitmap) (hd : ∀ r ∈ deleted, r ∈ deleted') :
    Marks deleted' map bitmap :=
  fun i row hr hb => hd row (h i row hr hb)

/-- The rows with a bit set. -/
theorem marks_markedRows (map : List MappedRow) (bitmap : ℕ → Bool) :
    Marks (markedRows (fun i _ => bitmap i) 0 map) map bitmap := by
  intro i row hr hb
  rw [mem_markedRows]
  exact ⟨i, hr, by rwa [Nat.zero_add]⟩

theorem Marks.set {row : MappedRow} (h : Marks deleted map s.bitmap) (hm : map[m]? = some row)
    (hr : row ∈ deleted) : Marks deleted map (s.set m).bitmap := by
  intro i row' hi hb
  rcases (Marking.set_bitmap i).mp hb with hb | rfl
  · exact h i row' hi hb
  · obtain rfl : row = row' := Option.some.inj (hm ▸ hi)
    exact hr

/-- A slice from row `m` on begins with the row at `m`. -/
theorem getElem?_of_slice {r : MappedRow} (h : r :: rs <+: map.drop m) : map[m]? = some r := by
  obtain ⟨t, ht⟩ := h
  rw [← List.head?_drop, ← ht]
  rfl

theorem slice_tail {r : MappedRow} (h : r :: rs <+: map.drop m) : rs <+: map.drop (m + 1) := by
  obtain ⟨t, ht⟩ := h
  refine ⟨t, ?_⟩
  rw [← List.tail_drop, ← ht]
  rfl

theorem sliceOf_drop (map : List MappedRow) (o : SegmentOffsetRange) :
    sliceOf map o <+: map.drop o.startOffset := List.take_prefix _ _

/-- The pass sets bits of rows that the old segment masks. -/
theorem Marks.unionWalk {oldMap : List MappedRow} (h : Marks deleted map s.bitmap)
    (ho : Marks deleted oldMap old) (hrs : rs <+: oldMap.drop i) (hrs' : rs' <+: map.drop m)
    (hs : SameRows rs rs') :
    Marks deleted map (InMemory.unionWalk old i m rs rs' s).bitmap := by
  induction rs generalizing i m rs' s with
  | nil => exact h
  | cons r rs ih =>
      cases rs' with
      | nil => exact h
      | cons r' rs' =>
          have hrow := getElem?_of_slice hrs
          have hrow' := getElem?_of_slice hrs'
          have htail : SameRows rs rs' := fun a ha b hb =>
            hs a (List.mem_cons_of_mem r ha) b (List.mem_cons_of_mem r' hb)
          have hskip : SameRows rs (r' :: rs') := fun a ha b hb =>
            hs a (List.mem_cons_of_mem r ha) b hb
          rw [InMemory.unionWalk]
          split
          case isTrue ht =>
            obtain rfl := hs r List.mem_cons_self r' List.mem_cons_self ht
            refine ih ?_ (slice_tail hrs) (slice_tail hrs') htail
            split
            case isTrue hb => exact h.set hrow' (ho i r hrow hb)
            case isFalse => exact h
          case isFalse => exact ih h (slice_tail hrs) hrs' hskip

/-- The pass sets bits of rows that the group names. -/
theorem Marks.groupWalk {gs : List MappedRow} (h : Marks deleted map s.bitmap)
    (hg : ∀ r ∈ gs, r ∈ deleted) (hrs : rs <+: map.drop m) (hs : SameRows gs rs) :
    Marks deleted map (InMemory.groupWalk m rs (gs.map (·.tid)) s).bitmap := by
  induction rs generalizing m gs s with
  | nil => exact h
  | cons r rs ih =>
      cases gs with
      | nil => exact h
      | cons g gs =>
          have htail : SameRows gs rs := fun a ha b hb =>
            hs a (List.mem_cons_of_mem g ha) b (List.mem_cons_of_mem r hb)
          have hskip : SameRows (g :: gs) rs := fun a ha b hb =>
            hs a ha b (List.mem_cons_of_mem r hb)
          rw [List.map_cons, InMemory.groupWalk]
          split
          case isTrue ht =>
            obtain rfl := hs g List.mem_cons_self r List.mem_cons_self ht.symm
            exact ih (h.set (getElem?_of_slice hrs) (hg g List.mem_cons_self))
              (fun a ha => hg a (List.mem_cons_of_mem g ha)) (slice_tail hrs) htail
          case isFalse =>
            rw [← List.map_cons]
            exact ih h hg (slice_tail hrs) hskip

end Marks

namespace Arrays

variable {new old : Arrays} {deleted : List MappedRow} {groups : List DpvVacuumGroup} {s : Marking}

/-- Within a segment id that both segments have, a tid names the same row. -/
def AgreesWith (new old : Arrays) : Prop :=
  ∀ oldOffsets ∈ old.offsets, ∀ newOffsets ∈ new.offsets, ∀ n ∈ newOffsets,
    ∀ o ∈ oldOffsets.find? (·.sid = n.sid), SameRows (sliceOf old.map o) (sliceOf new.map n)

/-- Within a group's segment id, a tid names the row it was taken from. -/
def AgreesWithGroup (new : Arrays) (g : DpvVacuumGroup) : Prop :=
  ∀ newOffsets ∈ new.offsets, ∀ n ∈ newOffsets.find? (·.sid = g.sid),
    SameRows g.rows (sliceOf new.map n)

theorem marks_unionSegment (h : Marks deleted new.map s.bitmap)
    (ho : Marks deleted old.map old.bitmap) (ha : new.AgreesWith old) :
    Marks deleted new.map (new.unionSegment old s).bitmap := by
  unfold unionSegment
  split
  case h_1 oldOffsets newOffsets hoo hno =>
    have ha : ∀ n ∈ newOffsets, ∀ o ∈ oldOffsets.find? (·.sid = n.sid),
        SameRows (sliceOf old.map o) (sliceOf new.map n) := ha _ hoo _ hno
    clear hno
    induction newOffsets generalizing s with
    | nil => exact h
    | cons n ns ih =>
        rw [List.foldl_cons]
        refine ih ?_ fun n' hn' => ha n' (List.mem_cons_of_mem n hn')
        split
        case h_1 => exact h
        case h_2 o hfind =>
          exact h.unionWalk ho (sliceOf_drop _ _) (sliceOf_drop _ _)
            (ha n List.mem_cons_self o hfind)
  case h_2 => exact h

theorem marks_unionGroups (h : Marks deleted new.map s.bitmap)
    (hg : ∀ g ∈ groups, ∀ r ∈ g.rows, r ∈ deleted) (ha : ∀ g ∈ groups, new.AgreesWithGroup g) :
    Marks deleted new.map (new.unionGroups groups s).bitmap := by
  unfold unionGroups
  split
  case h_1 => exact h
  case h_2 newOffsets hno =>
    induction groups generalizing s with
    | nil => exact h
    | cons g gs ih =>
        rw [List.foldl_cons]
        refine ih ?_ (fun g' hg' => hg g' (List.mem_cons_of_mem g hg'))
          fun g' hg' => ha g' (List.mem_cons_of_mem g hg')
        split
        case h_1 => exact h
        case h_2 n hfind =>
          exact h.groupWalk (hg g List.mem_cons_self) (sliceOf_drop _ _)
            (ha g List.mem_cons_self _ hno n hfind)

end Arrays

end VectorLsm.InMemory
