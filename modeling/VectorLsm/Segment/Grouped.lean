import VectorLsm.Segment.Chain

/-! # Deletions by segment id

The loop of VACUUM over a segment keeps a cursor in the offset table. Whatever the order of the
table and the empty slices in it, the records are one for each slice with newly dead rows, which
they name by their position in the slice.
-/

namespace VectorLsm

open SegmentFile

section Collect

variable {p : ℕ → MappedRow → Bool} {i : ℕ} {rs : List MappedRow}

theorem mem_collectRows {e : VacuumEntry} : e ∈ collectRows p i rs ↔
    ∃ j r, rs[j]? = some r ∧ p (i + j) r = true ∧ e = ⟨i + j, r.tid⟩ := by
  induction rs generalizing i with
  | nil => simp [collectRows]
  | cons a rs ih =>
      have hcase : (∃ j r, (a :: rs)[j]? = some r ∧ p (i + j) r = true ∧ e = ⟨i + j, r.tid⟩) ↔
          (p i a = true ∧ e = ⟨i, a.tid⟩) ∨
            ∃ j r, rs[j]? = some r ∧ p (i + 1 + j) r = true ∧ e = ⟨i + 1 + j, r.tid⟩ := by
        constructor
        · rintro ⟨j, r, hj, h⟩
          cases j with
          | zero =>
              obtain rfl := Option.some.inj hj
              exact .inl h
          | succ j =>
              rw [Nat.add_comm j 1, ← Nat.add_assoc] at h
              exact .inr ⟨j, r, hj, h⟩
        · rintro (h | ⟨j, r, hj, h⟩)
          · exact ⟨0, a, rfl, h⟩
          · refine ⟨j + 1, r, hj, ?_⟩
            rwa [Nat.add_comm j 1, ← Nat.add_assoc]
      rw [hcase, ← ih, collectRows]
      split
      case isTrue hp => rw [List.mem_cons, and_iff_right hp]
      case isFalse hp => rw [or_iff_right fun h => hp h.1]

theorem pairwise_collectRows :
    ((collectRows p i rs).map (·.sidLocalIdx)).Pairwise (· < ·) := by
  induction rs generalizing i with
  | nil => exact .nil
  | cons r rs ih =>
      rw [collectRows]
      split
      · rw [List.map_cons]
        refine .cons (fun k hk => ?_) ih
        exact ((mem_idx_collectRows p (i + 1) rs).mp hk).1
      · exact ih

theorem length_collectRows_le : (collectRows p i rs).length ≤ rs.length := by
  induction rs generalizing i with
  | nil => rfl
  | cons r rs ih =>
      rw [collectRows]
      split
      · exact Nat.succ_le_succ ih
      · exact ih.trans (Nat.le_succ _)

end Collect

namespace SegmentFile

variable {tids : SegmentId → List Tid} {f : SegmentFile} {callback : Tid → Bool}
  {s : SegmentVacuum}

/-- The record for a slice. -/
def record (f : SegmentFile) (callback : Tid → Bool) (o : SegmentOffsetRange) :
    Option VacuumTombstones :=
  let entries := collectRows (f.dead callback o) 0 (f.slice o)
  if entries = [] then none else some ⟨o.sid, f.version, false, entries⟩

theorem record_eq_some {o : SegmentOffsetRange} {rec : VacuumTombstones} :
    f.record callback o = some rec ↔ collectRows (f.dead callback o) 0 (f.slice o) ≠ [] ∧
      rec = ⟨o.sid, f.version, false, collectRows (f.dead callback o) 0 (f.slice o)⟩ := by
  rw [record]
  split
  case isTrue h => exact iff_of_false (Option.some_ne_none rec).symm fun h' => h'.1 h
  case isFalse h => rw [Option.some_inj, and_iff_right h, eq_comm]

/-- The entries kept by position in the table, put under the segment ids. -/
theorem filter_zipIdx_eq {os : List SegmentOffsetRange} {n version : ℕ}
    {kept : ℕ → List VacuumEntry} {found : SegmentOffsetRange → List VacuumEntry}
    (h : ∀ k o, os[k]? = some o → kept (n + k) = found o) :
    ((os.zipIdx n).filter fun p => kept p.2 ≠ []).map
        (fun p => (⟨p.1.sid, version, false, kept p.2⟩ : VacuumTombstones)) =
      os.filterMap fun o =>
        if found o = [] then none else some ⟨o.sid, version, false, found o⟩ := by
  induction os generalizing n with
  | nil => rfl
  | cons o os ih =>
      have h0 : kept n = found o := h 0 o rfl
      have htail := ih (n := n + 1) fun k o hk => by
        have := h (k + 1) o hk
        rwa [Nat.add_comm k 1, ← Nat.add_assoc] at this
      rw [List.zipIdx_cons, List.filter_cons, List.filterMap_cons]
      by_cases hnil : found o = []
      · simp only [h0, hnil, ne_eq, not_true_eq_false, decide_false, Bool.false_eq_true, if_false,
          if_true]
        exact htail
      · simp only [h0, hnil, ne_eq, not_false_eq_true, decide_true, if_true, if_false,
          List.map_cons]
        exact congrArg _ htail

/-- The table of a single-sid segment has one entry, for all its rows. -/
theorem Descends.single_offset (h : f.Descends tids) (heq : f.startSid = f.endSid) :
    f.offsets = [⟨f.startSid, 0, f.mapping.length⟩] := by
  have hlen := h.sids.length_eq
  rw [List.length_map, List.length_range', ← heq, Nat.add_sub_cancel_left] at hlen
  obtain ⟨o, ho⟩ := List.length_eq_one_iff.mp hlen
  have ht := h.tiles
  obtain ⟨o', hm, hsid⟩ := h.exists_offset le_rfl h.range
  rw [ho] at ht hm ⊢
  obtain rfl := List.mem_singleton.mp hm
  obtain ⟨hs, -, he⟩ := ht
  obtain ⟨sid, lo, hi⟩ := o'
  obtain rfl : lo = 0 := hs
  obtain rfl : hi = f.mapping.length := he
  obtain rfl : sid = f.startSid := hsid
  rfl

/-- The records of a segment, slice by slice. -/
theorem tombstones_eq (hf : f.Descends tids) :
    f.tombstones callback = f.offsets.filterMap (f.record callback) := by
  obtain ⟨s, hs, hc⟩ := vacuum_collected callback hf.tiles
  rw [tombstones, hs]
  dsimp only
  split
  case isTrue heq =>
    have hall : s.entries 0 =
        collectRows (f.dead callback ⟨f.startSid, 0, f.mapping.length⟩) 0 f.mapping := by
      rw [hc.single heq, List.take_length]
      exact collectRows_congr _ _ _ fun j r _ => by simp [dead]
    rw [hf.single_offset heq, List.filterMap_cons, List.filterMap_nil, record, hall, slice]
    simp only [List.drop_zero, Nat.sub_zero, List.take_length]
    split
    · rfl
    · rfl
  case isFalse hne =>
    refine filter_zipIdx_eq (n := 0) fun k o hk => ?_
    have hle := (hf.tiles.mem (List.mem_of_getElem? hk)).2.2
    have hlen : (f.slice o).length ≤ f.mapping.length - o.startOffset :=
      (List.length_take_le _ _).trans (by omega)
    rw [Nat.zero_add, hc.entries hne k o hk, List.take_of_length_le hlen]

theorem SegmentVacuum_loop_append {i : ℕ} {rs rs' : List MappedRow} :
    SegmentVacuum.loop f callback s i (rs ++ rs') =
      (SegmentVacuum.loop f callback s i rs).bind fun s' =>
        SegmentVacuum.loop f callback s' (i + rs.length) rs' := by
  induction rs generalizing i s with
  | nil => rfl
  | cons r rs ih =>
      have hn : i + (r :: rs).length = i + 1 + rs.length := by
        rw [List.length_cons]
        omega
      rw [List.cons_append, SegmentVacuum.loop, SegmentVacuum.loop, Option.bind_assoc, hn]
      exact congrArg _ (funext fun s' => ih)

/-- The loop stopped before row `n`. -/
theorem vacuum_collected_take (callback : Tid → Bool) (ht : Tiles 0 f.offsets f.mapping.length)
    {n : ℕ} (hn : n ≤ f.mapping.length) :
    ∃ s, SegmentVacuum.loop f callback (.init f) 0 (f.mapping.take n) = some s ∧
      Collected f callback n s := by
  induction n with
  | zero => exact ⟨_, rfl, .init⟩
  | succ n ih =>
      obtain ⟨s, hs, hc⟩ := ih (Nat.le_of_succ_le hn)
      have hrow := List.getElem?_eq_getElem (Nat.lt_of_succ_le hn)
      obtain ⟨s', hs', hc'⟩ := hc.next ht hrow
      refine ⟨s', ?_, hc'⟩
      rw [List.take_succ_eq_append_getElem (Nat.lt_of_succ_le hn), SegmentVacuum_loop_append, hs,
        Option.bind_some, List.length_take_of_le (Nat.le_of_succ_le hn), Nat.zero_add,
        SegmentVacuum.loop, hs']
      rfl

/-- What grouping by segment id is to do. -/
structure Grouped (f : SegmentFile) (callback : Tid → Bool) : Prop where
  /-- No row lies beyond the table. -/
  noError : f.vacuum callback ≠ none
  /-- A newly dead row is listed under the segment id whose slice has it. -/
  listed : ∀ o ∈ f.offsets, ∀ i row, f.mapping[i]? = some row → o.startOffset ≤ i →
    i < o.endOffset → f.bitmap i = false → callback row.tid = true →
    ∃ rec ∈ f.tombstones callback, rec.sid = o.sid ∧
      ⟨i - o.startOffset, row.tid⟩ ∈ rec.entries
  /-- Nothing else is listed. -/
  only : ∀ rec ∈ f.tombstones callback, rec.entries ≠ [] ∧ ∃ o ∈ f.offsets, o.sid = rec.sid ∧
    ∀ e ∈ rec.entries, o.startOffset + e.sidLocalIdx < o.endOffset ∧
      ∃ row, f.mapping[o.startOffset + e.sidLocalIdx]? = some row ∧ e.tid = row.tid ∧
        f.bitmap (o.startOffset + e.sidLocalIdx) = false ∧ callback row.tid = true
  /-- One record for a segment id. -/
  once : ((f.tombstones callback).map (·.sid)).Nodup
  ascending : ∀ rec ∈ f.tombstones callback,
    (rec.entries.map (·.sidLocalIdx)).Pairwise (· < ·)
  /-- At no row does a buffer hold more than it was allocated for. -/
  buffers : ∀ n ≤ f.mapping.length, ∃ s,
    SegmentVacuum.loop f callback (.init f) 0 (f.mapping.take n) = some s ∧
    (f.startSid = f.endSid → (s.entries 0).length ≤ f.mapping.length) ∧
    (f.startSid ≠ f.endSid → ∀ k o, f.offsets[k]? = some o →
      (s.entries k).length ≤ o.endOffset - o.startOffset)

end SegmentFile

end VectorLsm
