import VectorLsm.Segment.Descent

/-! # Tombstone records

`bulk_delete_lsm_index` names the rows it masks in a WAL record for each segment id: by their
position in the store it vacuums, a memtable or a slice of a segment file, and by their tid.
-/

namespace VectorLsm

open SegmentFile

/-- `xl_dpv_vacuum_entry`. -/
structure VacuumEntry where
  sidLocalIdx : ℕ
  tid : Tid
  deriving DecidableEq, Repr

/-- `xl_dpv_vacuum_tombstones` with its entries. -/
structure VacuumTombstones where
  sid : SegmentId
  ownerVersion : ℕ
  isMemtableOwner : Bool
  entries : List VacuumEntry
  deriving DecidableEq, Repr

/-- The rows at which `p` holds, named by their position from `i` on. -/
def collectRows (p : ℕ → MappedRow → Bool) : ℕ → List MappedRow → List VacuumEntry
  | _, [] => []
  | i, r :: rs => if p i r then ⟨i, r.tid⟩ :: collectRows p (i + 1) rs else collectRows p (i + 1) rs

/-- The rows at which `p` holds. -/
def markedRows (p : ℕ → MappedRow → Bool) : ℕ → List MappedRow → List MappedRow
  | _, [] => []
  | i, r :: rs => if p i r then r :: markedRows p (i + 1) rs else markedRows p (i + 1) rs

section Collect

variable (p : ℕ → MappedRow → Bool) (i : ℕ) (rs rs' : List MappedRow)

theorem collectRows_append :
    collectRows p i (rs ++ rs') = collectRows p i rs ++ collectRows p (i + rs.length) rs' := by
  induction rs generalizing i with
  | nil => rfl
  | cons r rs ih =>
      have hn : i + (r :: rs).length = i + 1 + rs.length := by rw [List.length_cons]; omega
      simp only [List.cons_append, collectRows, ih, hn]
      split <;> rfl

theorem map_tid_collectRows :
    (collectRows p i rs).map (·.tid) = (markedRows p i rs).map (·.tid) := by
  induction rs generalizing i with
  | nil => rfl
  | cons r rs ih =>
      simp only [collectRows, markedRows]
      split
      · exact congrArg (r.tid :: ·) (ih _)
      · exact ih _

theorem mem_idx_collectRows {j : ℕ} :
    j ∈ (collectRows p i rs).map (·.sidLocalIdx) ↔
      i ≤ j ∧ ∃ r, rs[j - i]? = some r ∧ p j r = true := by
  induction rs generalizing i with
  | nil => simp [collectRows]
  | cons r rs ih =>
      have hrec : (j ∈ (collectRows p (i + 1) rs).map (·.sidLocalIdx)) ↔
          i < j ∧ ∃ r', (r :: rs)[j - i]? = some r' ∧ p j r' = true := by
        rw [ih]
        refine and_congr_right fun h => ?_
        have hj : j - i = j - (i + 1) + 1 := by omega
        rw [hj, List.getElem?_cons_succ]
      have hcase : (i ≤ j ∧ ∃ r', (r :: rs)[j - i]? = some r' ∧ p j r' = true) ↔
          (j = i ∧ p i r = true) ∨ i < j ∧ ∃ r', (r :: rs)[j - i]? = some r' ∧ p j r' = true := by
        constructor
        · rintro ⟨hle, hr⟩
          rcases hle.eq_or_lt with rfl | hlt
          · rw [Nat.sub_self, List.getElem?_cons_zero] at hr
            obtain ⟨r', hr', hp⟩ := hr
            exact .inl ⟨rfl, Option.some.inj hr' ▸ hp⟩
          · exact .inr ⟨hlt, hr⟩
        · rintro (⟨rfl, hp⟩ | ⟨hlt, hr⟩)
          · exact ⟨le_rfl, r, by rw [Nat.sub_self, List.getElem?_cons_zero], hp⟩
          · exact ⟨hlt.le, hr⟩
      rw [hcase, collectRows]
      split
      case isTrue hp => simp [hrec, hp]
      case isFalse hp => simp [hrec, hp]

theorem mem_markedRows {r : MappedRow} :
    r ∈ markedRows p i rs ↔ ∃ j, rs[j]? = some r ∧ p (i + j) r = true := by
  induction rs generalizing i with
  | nil => simp [markedRows]
  | cons a rs ih =>
      have hcase : (∃ j, (a :: rs)[j]? = some r ∧ p (i + j) r = true) ↔
          (a = r ∧ p i r = true) ∨ ∃ j, rs[j]? = some r ∧ p (i + 1 + j) r = true := by
        constructor
        · rintro ⟨j, hj, hp⟩
          cases j with
          | zero => exact .inl ⟨Option.some.inj hj, hp⟩
          | succ j =>
              refine .inr ⟨j, hj, ?_⟩
              rwa [Nat.add_assoc, Nat.add_comm 1]
        · rintro (⟨rfl, hp⟩ | ⟨j, hj, hp⟩)
          · exact ⟨0, rfl, hp⟩
          · refine ⟨j + 1, hj, ?_⟩
            rwa [Nat.add_assoc, Nat.add_comm 1] at hp
      rw [hcase, markedRows]
      split
      case isTrue hp =>
        rw [List.mem_cons, ih, eq_comm]
        refine or_congr_left ⟨fun h => ⟨h, h ▸ hp⟩, And.left⟩
      case isFalse hp =>
        rw [ih]
        refine (or_iff_right ?_).symm
        rintro ⟨rfl, h⟩
        exact hp h

theorem collectRows_congr {q : ℕ → MappedRow → Bool}
    (h : ∀ j r, rs[j]? = some r → p (i + j) r = q (i + j) r) :
    collectRows p i rs = collectRows q i rs := by
  induction rs generalizing i with
  | nil => rfl
  | cons r rs ih =>
      have h0 : p i r = q i r := h 0 r rfl
      have ht : collectRows p (i + 1) rs = collectRows q (i + 1) rs := by
        refine ih _ fun j r hj => ?_
        have := h (j + 1) r hj
        rwa [Nat.add_comm j 1, ← Nat.add_assoc] at this
      rw [collectRows, collectRows, h0, ht]

end Collect

section Memtable

variable {V : Type*}

/-- The slots handed out, as the mapping file would list them. -/
def ConcurrentMemTable.mappedRows (mt : ConcurrentMemTable V) : List MappedRow :=
  (List.range mt.validSize).map fun i => ⟨(mt.rows i).tid, mt.memtableId, i⟩

/-- The loops over a memtable; that over the growing one looks at the ready flags. -/
def ConcurrentMemTable.dead (mt : ConcurrentMemTable V) (checkReady : Bool)
    (callback : Tid → Bool) (i : ℕ) (r : MappedRow) : Bool :=
  (!checkReady || mt.ready i) && callback r.tid

/-- The record for a memtable. Its owner is the segment file once the memtable is on disk. -/
def ConcurrentMemTable.tombstones (mt : ConcurrentMemTable V) (d : Disk) (checkReady : Bool)
    (callback : Tid → Bool) : Option VacuumTombstones :=
  let entries := collectRows (mt.dead checkReady callback) 0 mt.mappedRows
  if entries = [] then none
  else if ∃ f ∈ d, f.startSid = mt.memtableId ∧ f.endSid = mt.memtableId then
    some ⟨mt.memtableId, d.latestVersion mt.memtableId mt.memtableId, false, entries⟩
  else some ⟨mt.memtableId, 0, true, entries⟩

end Memtable

/-- The locals of the loop over a flushed segment. -/
structure SegmentVacuum where
  bitmap : ℕ → Bool
  changed : Bool
  deleteCount : ℕ
  curOffIdx : ℕ
  /-- `per_sid_entries`; the single-sid path has its buffer at 0. -/
  entries : ℕ → List VacuumEntry

namespace SegmentVacuum

def init (f : SegmentFile) : SegmentVacuum := ⟨f.bitmap, false, f.deleteCount, 0, fun _ => []⟩

/-- The slice of row `i`, from the window on. -/
def advance (offsets : List SegmentOffsetRange) (i cur : ℕ) : ℕ :=
  skipWhile (fun o => o.endOffset ≤ i) offsets offsets.length cur

/-- A dead row that is not masked yet. -/
def mark (s : SegmentVacuum) (i : ℕ) : SegmentVacuum :=
  { s with
    bitmap := Function.update s.bitmap i true
    changed := true
    deleteCount := s.deleteCount + 1 }

def push (s : SegmentVacuum) (k : ℕ) (e : VacuumEntry) : SegmentVacuum :=
  { s with entries := Function.update s.entries k (s.entries k ++ [e]) }

/-- One turn of the loop; `none` is `elog(ERROR)` beyond the offset table. -/
def next (f : SegmentFile) (callback : Tid → Bool) (s : SegmentVacuum) (i : ℕ)
    (row : MappedRow) : Option SegmentVacuum :=
  if !s.bitmap i && callback row.tid then
    if f.startSid = f.endSid then some ((s.mark i).push 0 ⟨i, row.tid⟩)
    else
      let k := advance f.offsets i s.curOffIdx
      match f.offsets[k]? with
      | none => none
      | some o => some { (s.mark i).push k ⟨i - o.startOffset, row.tid⟩ with curOffIdx := k }
  else some s

def loop (f : SegmentFile) (callback : Tid → Bool) :
    SegmentVacuum → ℕ → List MappedRow → Option SegmentVacuum
  | s, _, [] => some s
  | s, i, row :: rows => (s.next f callback i row).bind fun s' => loop f callback s' (i + 1) rows

end SegmentVacuum

namespace SegmentFile

/-- The loop of step 3 over one segment. -/
def vacuum (f : SegmentFile) (callback : Tid → Bool) : Option SegmentVacuum :=
  SegmentVacuum.loop f callback (.init f) 0 f.mapping

/-- One record for each segment id with newly dead rows. -/
def tombstones (f : SegmentFile) (callback : Tid → Bool) : List VacuumTombstones :=
  match f.vacuum callback with
  | none => []
  | some s =>
      if f.startSid = f.endSid then
        if s.entries 0 = [] then [] else [⟨f.startSid, f.version, false, s.entries 0⟩]
      else
        (f.offsets.zipIdx.filter fun p => s.entries p.2 ≠ []).map fun p =>
          ⟨p.1.sid, f.version, false, s.entries p.2⟩

/-- The rows of the slice that vacuum finds dead. -/
def dead (f : SegmentFile) (callback : Tid → Bool) (o : SegmentOffsetRange) (j : ℕ)
    (r : MappedRow) : Bool :=
  !f.bitmap (o.startOffset + j) && callback r.tid

/-- What the loop has collected from the rows below `i`. -/
structure Collected (f : SegmentFile) (callback : Tid → Bool) (i : ℕ) (s : SegmentVacuum) :
    Prop where
  bitmap : ∀ j, i ≤ j → s.bitmap j = f.bitmap j
  window : ∀ k o, f.offsets[k]? = some o → k < s.curOffIdx → o.endOffset ≤ i
  entries : f.startSid ≠ f.endSid → ∀ k o, f.offsets[k]? = some o →
    s.entries k = collectRows (f.dead callback o) 0 ((f.slice o).take (i - o.startOffset))
  single : f.startSid = f.endSid →
    s.entries 0 = collectRows (fun j r => !f.bitmap j && callback r.tid) 0 (f.mapping.take i)

variable {f : SegmentFile} {callback : Tid → Bool}

theorem Collected.init : Collected f callback 0 (.init f) where
  bitmap := fun _ _ => rfl
  window := fun _ _ _ h => absurd h (Nat.not_lt_zero _)
  entries := fun _ k o _ => by simp [SegmentVacuum.init, collectRows]
  single := fun _ => rfl

theorem slice_getElem? {o : SegmentOffsetRange} {i : ℕ} (hlo : o.startOffset ≤ i)
    (hhi : i < o.endOffset) : (f.slice o)[i - o.startOffset]? = f.mapping[i]? := by
  rw [slice, List.getElem?_take_of_lt (by omega), List.getElem?_drop]
  congr 1
  omega

/-- The row at the end of a prefix, as the list of entries grows. -/
theorem collectRows_take_succ {p : ℕ → MappedRow → Bool} {rows : List MappedRow} {n : ℕ}
    {row : MappedRow} (h : rows[n]? = some row) :
    collectRows p 0 (rows.take (n + 1)) =
      collectRows p 0 (rows.take n) ++ if p n row then [⟨n, row.tid⟩] else [] := by
  obtain ⟨hn, rfl⟩ := List.getElem?_eq_some_iff.mp h
  rw [List.take_succ_eq_append_getElem hn, collectRows_append, Nat.zero_add,
    List.length_take_of_le hn.le]
  rfl

/-- A row outside the slice does not change what is collected from the slice. -/
theorem slice_take_of_not_mem {o : SegmentOffsetRange} {i : ℕ}
    (h : ¬ (o.startOffset ≤ i ∧ i < o.endOffset)) :
    (f.slice o).take (i + 1 - o.startOffset) = (f.slice o).take (i - o.startOffset) := by
  rcases Nat.lt_or_ge i o.startOffset with hi | hi
  · have h1 : i + 1 - o.startOffset = 0 := by omega
    have h2 : i - o.startOffset = 0 := by omega
    rw [h1, h2]
  · have hlen : (f.slice o).length ≤ o.endOffset - o.startOffset := List.length_take_le _ _
    rw [List.take_of_length_le (by omega), List.take_of_length_le (by omega)]

theorem Collected.next {i : ℕ} {s : SegmentVacuum} {row : MappedRow}
    (ht : Tiles 0 f.offsets f.mapping.length) (hrow : f.mapping[i]? = some row)
    (h : Collected f callback i s) :
    ∃ s', s.next f callback i row = some s' ∧ Collected f callback (i + 1) s' := by
  have hi := (List.getElem?_eq_some_iff.mp hrow).1
  obtain ⟨o, ho, hlo, hhi⟩ := ht.exists_mem (Nat.zero_le i) hi
  obtain ⟨k, hk⟩ := List.mem_iff_getElem?.mp ho
  have hother : ∀ k' o', f.offsets[k']? = some o' → k' ≠ k →
      ¬ (o'.startOffset ≤ i ∧ i < o'.endOffset) := by
    intro k' o' hk' hne hin
    obtain ⟨hk1, rfl⟩ := List.getElem?_eq_some_iff.mp hk
    obtain ⟨hk2, rfl⟩ := List.getElem?_eq_some_iff.mp hk'
    have hpw := List.pairwise_iff_getElem.mp ht.pairwise
    rcases Nat.lt_or_gt_of_ne hne with hlt | hlt
    · have := hpw k' k hk2 hk1 hlt
      omega
    · have := hpw k k' hk1 hk2 hlt
      omega
  have hsucc : i + 1 - o.startOffset = i - o.startOffset + 1 := by omega
  have hsplit := collectRows_take_succ (p := f.dead callback o)
    ((slice_getElem? hlo hhi).trans hrow)
  have hdead : f.dead callback o (i - o.startOffset) row = (!s.bitmap i && callback row.tid) := by
    rw [dead, Nat.add_sub_cancel' hlo, h.bitmap i le_rfl]
  unfold SegmentVacuum.next
  cases hd : !s.bitmap i && callback row.tid with
  | false =>
      refine ⟨s, rfl, fun j hj => h.bitmap j (by omega),
        fun k' o' hk' hlt => (h.window k' o' hk' hlt).trans (Nat.le_succ i), ?_, ?_⟩
      · intro hne k' o' hk'
        rw [h.entries hne k' o' hk']
        by_cases hkk : k' = k
        · subst hkk
          obtain rfl : o = o' := Option.some.inj (hk.symm.trans hk')
          rw [hsucc, hsplit, hdead, hd, if_neg Bool.false_ne_true, List.append_nil]
        · rw [slice_take_of_not_mem (hother k' o' hk' hkk)]
      · intro heq
        rw [h.single heq, collectRows_take_succ hrow, ← h.bitmap i le_rfl, hd,
          if_neg Bool.false_ne_true, List.append_nil]
  | true =>
      have hbit : ∀ j, i + 1 ≤ j → (s.mark i).bitmap j = f.bitmap j := by
        intro j hj
        have hne : j ≠ i := by omega
        simp [SegmentVacuum.mark, hne, h.bitmap j (by omega)]
      by_cases heq : f.startSid = f.endSid
      · refine ⟨(s.mark i).push 0 ⟨i, row.tid⟩, by simp [heq], hbit,
          fun k' o' hk' hlt => (h.window k' o' hk' hlt).trans (Nat.le_succ i),
          fun hne => absurd heq hne, fun _ => ?_⟩
        rw [collectRows_take_succ hrow, ← h.bitmap i le_rfl, hd, if_pos rfl, ← h.single heq]
        simp [SegmentVacuum.push, SegmentVacuum.mark]
      · have hcur : s.curOffIdx ≤ k := by
          by_contra hlt
          have := h.window k o hk (Nat.lt_of_not_le hlt)
          omega
        have hadv : SegmentVacuum.advance f.offsets i s.curOffIdx = k :=
          ht.skipWhile_eq (fun o h => by simp [h]) (fun o _ h => by simpa using h) hk hlo hhi hcur
        refine ⟨{ (s.mark i).push k ⟨i - o.startOffset, row.tid⟩ with curOffIdx := k },
          by simp [heq, hadv, hk], hbit, ?_, ?_, fun h => absurd h heq⟩
        · intro k' o' hk' hlt
          obtain ⟨hk1, rfl⟩ := List.getElem?_eq_some_iff.mp hk
          obtain ⟨hk2, rfl⟩ := List.getElem?_eq_some_iff.mp hk'
          have := List.pairwise_iff_getElem.mp ht.pairwise k' k hk2 hk1 hlt
          omega
        · intro hne k' o' hk'
          by_cases hkk : k' = k
          · subst hkk
            obtain rfl : o = o' := Option.some.inj (hk.symm.trans hk')
            rw [hsucc, hsplit, hdead, hd, if_pos rfl, ← h.entries hne k' o hk]
            simp [SegmentVacuum.push, SegmentVacuum.mark]
          · rw [slice_take_of_not_mem (hother k' o' hk' hkk), ← h.entries hne k' o' hk']
            simp [SegmentVacuum.push, SegmentVacuum.mark, hkk]

theorem Collected.loop {i : ℕ} {s : SegmentVacuum} {rows : List MappedRow}
    (ht : Tiles 0 f.offsets f.mapping.length) (hrows : f.mapping.drop i = rows)
    (h : Collected f callback i s) :
    ∃ s', SegmentVacuum.loop f callback s i rows = some s' ∧
      Collected f callback (i + rows.length) s' := by
  induction rows generalizing i s with
  | nil => exact ⟨s, rfl, h⟩
  | cons row rows ih =>
      have hrow : f.mapping[i]? = some row := by rw [← List.head?_drop, hrows]; rfl
      obtain ⟨s₁, hs₁, h₁⟩ := h.next ht hrow
      have hrows' : f.mapping.drop (i + 1) = rows := by rw [← List.tail_drop, hrows, List.tail_cons]
      obtain ⟨s', hs', h'⟩ := ih hrows' h₁
      refine ⟨s', by rw [SegmentVacuum.loop, hs₁]; exact hs', ?_⟩
      rwa [List.length_cons, Nat.add_comm rows.length, ← Nat.add_assoc]

theorem vacuum_collected (callback : Tid → Bool) (ht : Tiles 0 f.offsets f.mapping.length) :
    ∃ s, f.vacuum callback = some s ∧ Collected f callback f.mapping.length s := by
  have h₀ : Collected f callback 0 (.init f) := .init
  obtain ⟨s, hs, h⟩ := h₀.loop ht (List.drop_zero (l := f.mapping))
  rw [Nat.zero_add] at h
  exact ⟨s, hs, h⟩

/-- A record for a segment names the dead rows of one slice, by their position in it. -/
theorem tombstones_entries {tids : SegmentId → List Tid} {rec : VacuumTombstones}
    (hf : f.Descends tids) (h : rec ∈ f.tombstones callback) :
    rec.ownerVersion = f.version ∧ rec.isMemtableOwner = false ∧
      ∃ o ∈ f.offsets, o.sid = rec.sid ∧
        rec.entries = collectRows (f.dead callback o) 0 (f.slice o) := by
  obtain ⟨s, hs, hc⟩ := vacuum_collected callback hf.tiles
  rw [tombstones, hs] at h
  dsimp only at h
  split_ifs at h with heq hnil
  · cases h
  · obtain rfl := List.mem_singleton.mp h
    obtain ⟨o, ho, hsid⟩ := hf.exists_offset le_rfl hf.range
    -- The table of a single-sid segment has one entry, for all its rows.
    have hone : f.offsets = [o] := by
      have hlen := hf.sids.length_eq
      rw [List.length_map, List.length_range', ← heq, Nat.add_sub_cancel_left] at hlen
      obtain ⟨o', ho'⟩ := List.length_eq_one_iff.mp hlen
      rw [ho'] at ho ⊢
      rw [List.mem_singleton.mp ho]
    have ht := hf.tiles
    rw [hone] at ht
    obtain ⟨hstart, -, hend⟩ := ht
    have hend : o.endOffset = f.mapping.length := hend
    refine ⟨rfl, rfl, o, ho, hsid, ?_⟩
    rw [hc.single heq, List.take_length, slice, hstart, hend, List.drop_zero, Nat.sub_zero,
      List.take_length]
    exact collectRows_congr _ _ _ fun j r _ => by simp [dead, hstart]
  · obtain ⟨⟨o, k⟩, hp, rfl⟩ := List.mem_map.mp h
    have hk := List.mem_zipIdx_iff_getElem?.mp (List.mem_filter.mp hp).1
    refine ⟨rfl, rfl, o, List.mem_of_getElem? hk, rfl, ?_⟩
    have hle : o.endOffset ≤ f.mapping.length := (hf.tiles.mem (List.mem_of_getElem? hk)).2.2
    have hlen : (f.slice o).length ≤ f.mapping.length - o.startOffset :=
      (List.length_take_le _ _).trans (by omega)
    exact (hc.entries heq k o hk).trans (by rw [List.take_of_length_le hlen])

end SegmentFile

end VectorLsm
