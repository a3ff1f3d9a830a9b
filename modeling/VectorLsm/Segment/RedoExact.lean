import VectorLsm.Segment.Redo

/-! # Exactness of the redo

A record reads correctly against a store of the standby when, by position, its rows are where
the primary had them and, by tid, each row to be masked is the next one of the record that the
pass looks for.
-/

namespace VectorLsm

open SegmentFile Subsequence

variable {V : Type*}

/-- A store by which a standby represents a segment id. -/
inductive Store (V : Type*) where
  | memtable (mt : ConcurrentMemTable V)
  | segment (f : SegmentFile)

/-- A record that `bulk_delete_lsm_index` emits over a primary's disk, the rows of the segment
id in the store it vacuums, and those of them it masks. -/
inductive Emits (V : Type*) (tids : SegmentId → List Tid) (d : Disk) :
    VacuumTombstones → List MappedRow → List MappedRow → Prop
  | memtable (mt : ConcurrentMemTable V) (checkReady : Bool) (callback : Tid → Bool)
      (rec : VacuumTombstones)
      (hrows : ∀ i < mt.validSize, mt.ready i = true →
        (tids mt.memtableId)[i]? = some (mt.rows i).tid)
      (h : mt.tombstones d checkReady callback = some rec) :
      Emits V tids d rec mt.mappedRows
        (markedRows (mt.dead checkReady callback) 0 mt.mappedRows)
  | segment (f : SegmentFile) (callback : Tid → Bool) (rec : VacuumTombstones)
      (o : SegmentOffsetRange) (hf : f ∈ d) (h : rec ∈ f.tombstones callback)
      (ho : o ∈ f.offsets) (hsid : o.sid = rec.sid) :
      Emits V tids d rec (f.slice o) (markedRows (f.dead callback o) 0 (f.slice o))

/-- The stores by which a standby that redoes a record of disk `d` may represent `sid`: a
memtable with the redone rows, or a file pulled earlier or later with its own bitmap. -/
inductive Represents (tids : SegmentId → List Tid) (d : Disk) (sid : SegmentId) :
    Store V → Prop
  | memtable (mt : ConcurrentMemTable V) (hsid : mt.memtableId = sid)
      (hrows : ∀ i < mt.validSize, mt.ready i = true → (tids sid)[i]? = some (mt.rows i).tid) :
      Represents tids d sid (.memtable mt)
  | segment (d' : Disk) (f : SegmentFile) (bitmap : ℕ → Bool) (n : ℕ)
      (hd' : Leads tids [] d') (h : Leads tids d d' ∨ Leads tids d' d) (hf : f ∈ d')
      (hlo : f.startSid ≤ sid) (hhi : sid ≤ f.endSid) :
      Represents tids d sid (.segment (f.setBitmap bitmap n))

/-- The row of a slot is among the rows the primary masked. -/
def Masked (marked : List MappedRow) (slot : ℕ) : Prop := ∃ r ∈ marked, r.slot = slot

/-- The record masks the rows the primary masked and no other, once. -/
structure ExactMemtable (rec : VacuumTombstones) (marked : List MappedRow)
    (mt : ConcurrentMemTable V) : Prop where
  mask : ∀ i < mt.validSize,
    ((rec.applyToMemtable mt).bitmap i = true ↔ mt.bitmap i = true ∨ Masked marked i)
  other : ∀ i, ¬ Masked marked i → (rec.applyToMemtable mt).bitmap i = mt.bitmap i
  again : rec.applyToMemtable (rec.applyToMemtable mt) = rec.applyToMemtable mt

/-- The record masks the surviving rows the primary masked and no other, counts the new bits,
and changes nothing when applied again. -/
structure ExactSegment (rec : VacuumTombstones) (marked : List MappedRow) (f : SegmentFile) :
    Prop where
  mask : ∀ i row, f.mapping[i]? = some row → ((rec.applyToSegment f).bitmap i = true ↔
    f.bitmap i = true ∨ (row.sid = rec.sid ∧ Masked marked row.slot))
  count : (rec.applyToSegment f).deleteCount + countBits f.bitmap f.mapping.length =
    f.deleteCount + countBits (rec.applyToSegment f).bitmap f.mapping.length
  again : rec.applyToSegment (rec.applyToSegment f) = rec.applyToSegment f

def Exact (rec : VacuumTombstones) (marked : List MappedRow) : Store V → Prop
  | .memtable mt => ExactMemtable rec marked mt
  | .segment f => ExactSegment rec marked f

/-- Position by position, an unmasked row of the slice is to be masked when the row of the
vacuumed slice at its position was. -/
def Aligned (owner marked : List MappedRow) (bitmap : ℕ → Bool) (start : ℕ)
    (rows : List MappedRow) : Prop :=
  ∀ j row, rows[j]? = some row → bitmap (start + j) = false →
    ((∃ r ∈ marked, owner[j]? = some r) ↔ Masked marked row.slot)

/-- An unmasked row is to be masked when its tid is the next one of the masked rows' tids, after
the longest prefix of them that occurs in order before it. -/
def InStep (marked : List MappedRow) (bitmap : ℕ → Bool) (start : ℕ) (rows : List MappedRow) :
    Prop :=
  ∀ j row, rows[j]? = some row → bitmap (start + j) = false →
    (Next (marked.map (·.tid)) ((rows.take j).map (·.tid)) row.tid ↔ Masked marked row.slot)

def ReadsSegment (rec : VacuumTombstones) (owner marked : List MappedRow) (f : SegmentFile) :
    Prop :=
  match f.offsetOf rec.sid with
  | none => ∀ i row, f.mapping[i]? = some row → row.sid = rec.sid → f.bitmap i = false →
      ¬ Masked marked row.slot
  | some o =>
      if rec.fastPath f then Aligned owner marked f.bitmap o.startOffset (f.slice o)
      else InStep marked f.bitmap o.startOffset (f.slice o)

/-- The record reads correctly against the store. -/
def Reads (rec : VacuumTombstones) (owner marked : List MappedRow) : Store V → Prop
  | .memtable mt => rec.isMemtableOwner = true ∨ InStep marked mt.bitmap 0 mt.mappedRows
  | .segment f => ReadsSegment rec owner marked f

section Emitted

variable {tids : SegmentId → List Tid} {d : Disk} {rec : VacuumTombstones}
  {owner marked : List MappedRow}

/-- The entries of a record are the positions and the tids of the masked rows. -/
theorem Emits.entries (hd : Leads tids [] d) (h : Emits V tids d rec owner marked) :
    rec.entries.map (·.tid) = marked.map (·.tid) ∧
      ∀ j, j ∈ rec.entries.map (·.sidLocalIdx) ↔ ∃ r ∈ marked, owner[j]? = some r := by
  obtain ⟨p, hmarked, hentries, hnodup⟩ : ∃ p, marked = markedRows p 0 owner ∧
      rec.entries = collectRows p 0 owner ∧ owner.Nodup := by
    cases h with
    | memtable mt checkReady callback _ hrows h =>
        refine ⟨_, rfl, ?_, ?_⟩
        · unfold ConcurrentMemTable.tombstones at h
          dsimp only at h
          split_ifs at h
          · exact (Option.some.inj h) ▸ rfl
          · exact (Option.some.inj h) ▸ rfl
        · exact List.nodup_range.map fun i j h => congrArg MappedRow.slot h
    | segment f callback _ o hf h ho hsid =>
        have hdesc := hd.descends f hf
        obtain ⟨-, -, o', ho', hsid', he⟩ := tombstones_entries hdesc h
        obtain rfl : o' = o :=
          List.inj_on_of_nodup_map hdesc.nodup ho' ho (hsid'.trans hsid.symm)
        refine ⟨_, rfl, he, (hdesc.slices o' ho').nodup ?_⟩
        refine List.Nodup.of_map (·.slot) ?_
        rw [memtableRows, List.map_map]
        simpa [Function.comp_def, List.zipIdx_map_snd] using List.nodup_range'
  subst hmarked
  refine ⟨hentries ▸ map_tid_collectRows p 0 owner, fun j => ?_⟩
  rw [hentries, mem_idx_collectRows]
  constructor
  · rintro ⟨-, r, hr, hp⟩
    exact ⟨r, (mem_markedRows p 0 owner).mpr ⟨j, hr, by rwa [Nat.zero_add]⟩, hr⟩
  · rintro ⟨r, hr, hj⟩
    obtain ⟨i, hi, hp⟩ := (mem_markedRows p 0 owner).mp hr
    obtain ⟨hj', hjr⟩ := List.getElem?_eq_some_iff.mp hj
    obtain ⟨hi', hir⟩ := List.getElem?_eq_some_iff.mp hi
    obtain rfl : i = j := (hnodup.getElem_inj_iff).mp (hir.trans hjr.symm)
    rw [Nat.zero_add] at hp
    exact ⟨Nat.zero_le _, r, hj, hp⟩

end Emitted

section Segment

variable {tids : SegmentId → List Tid} {f : SegmentFile} {o : SegmentOffsetRange}
  {rec : VacuumTombstones} {owner marked : List MappedRow}

/-- The slice of a segment id holds its rows and no other. -/
theorem SegmentFile.Descends.sid_eq_iff (h : f.Descends tids) (ho : o ∈ f.offsets) {i : ℕ}
    {row : MappedRow} (hrow : f.mapping[i]? = some row) :
    row.sid = o.sid ↔ o.startOffset ≤ i ∧ i < o.endOffset := by
  have hmem : ∀ o' ∈ f.offsets, o'.startOffset ≤ i → i < o'.endOffset → row.sid = o'.sid := by
    intro o' ho' hlo hhi
    have hm := (h.slices o' ho').subset
      (List.mem_of_getElem? ((slice_getElem? hlo hhi).trans hrow))
    obtain ⟨q, -, rfl⟩ := List.mem_map.mp hm
    rfl
  refine ⟨fun hsid => ?_, fun hi => hmem o ho hi.1 hi.2⟩
  obtain ⟨o', ho', hlo, hhi⟩ := h.tiles.exists_mem (Nat.zero_le i)
    (List.getElem?_eq_some_iff.mp hrow).1
  obtain rfl : o' = o :=
    List.inj_on_of_nodup_map h.nodup ho' ho ((hmem o' ho' hlo hhi).symm.trans hsid)
  exact ⟨hlo, hhi⟩

theorem applyToSegment_of_offsetOf (h : f.offsetOf rec.sid = some o) :
    rec.applyToSegment f = f.setBitmap (rec.mark f o ⟨f.bitmap, 0⟩).bitmap
      (f.deleteCount + (rec.mark f o ⟨f.bitmap, 0⟩).applied) := by
  rw [VacuumTombstones.applyToSegment, h]

theorem exactSegment_iff (hf : f.Descends tids) (ho : f.offsetOf rec.sid = some o) :
    ExactSegment rec marked f ↔ ∀ j row, (f.slice o)[j]? = some row →
      f.bitmap (o.startOffset + j) = false → (rec.Marks f o j ↔ Masked marked row.slot) := by
  obtain ⟨hmem, hsid⟩ := offsetOf_mem ho
  obtain ⟨-, hse, he⟩ := hf.tiles.mem hmem
  have happly := applyToSegment_of_offsetOf ho
  constructor
  · intro h j row hj hb
    have hlt : j < o.endOffset - o.startOffset :=
      (List.getElem?_eq_some_iff.mp hj).1.trans_le (List.length_take_le _ _)
    have hi : f.mapping[o.startOffset + j]? = some row := by
      rwa [← slice_getElem? (Nat.le_add_right _ _) (by omega), Nat.add_sub_cancel_left]
    have hm := h.mask _ row hi
    have hrs : row.sid = rec.sid :=
      ((hf.sid_eq_iff hmem hi).mpr ⟨Nat.le_add_right _ _, by omega⟩).trans hsid
    rw [happly, setBitmap_bitmap, VacuumTombstones.mark_bitmap, Nat.add_sub_cancel_left] at hm
    simpa [hrs, hb] using hm
  · intro h
    refine ⟨fun i row hi => ?_, ?_, ?_⟩
    · rw [happly, setBitmap_bitmap, VacuumTombstones.mark_bitmap]
      dsimp only
      cases hb : f.bitmap i with
      | true => simp
      | false =>
          simp only [Bool.false_eq_true, false_or, ← hsid, hf.sid_eq_iff hmem hi, and_assoc]
          refine and_congr_right fun hlo => ?_
          by_cases hhi : i < o.endOffset
          · have hj := (slice_getElem? (f := f) hlo hhi).trans hi
            have := h _ row hj (by rwa [Nat.add_sub_cancel' hlo])
            rw [this, and_iff_right hhi]
          · refine iff_of_false ?_ fun h => hhi h.1
            have hnone : (f.slice o)[i - o.startOffset]? = none :=
              List.getElem?_eq_none ((List.length_take_le _ _).trans (by omega))
            unfold VacuumTombstones.Marks
            split
            · omega
            · simp [hnone]
    · have hc := rec.mark_counts (f := f) (o := o)
        (s := ⟨f.bitmap, 0⟩) (b := f.bitmap) rfl (hse.trans he) he rfl
      rw [Marking.Counts] at hc
      rw [happly]
      simp only [SegmentFile.setBitmap]
      omega
    · have hmm := rec.mark_mark (f := f) (o := o) (b := f.bitmap)
        (hse.trans he) he
      rw [happly]
      generalize rec.mark f o ⟨f.bitmap, 0⟩ = s at hmm
      have hset : rec.mark (f.setBitmap s.bitmap (f.deleteCount + s.applied)) o ⟨s.bitmap, 0⟩ =
          ⟨s.bitmap, 0⟩ := hmm
      have ho' : (f.setBitmap s.bitmap (f.deleteCount + s.applied)).offsetOf rec.sid = some o := ho
      rw [applyToSegment_of_offsetOf ho']
      exact congrArg (fun m : Marking =>
        f.setBitmap m.bitmap (f.deleteCount + s.applied + m.applied)) hset

theorem exactSegment_iff_of_none (ho : f.offsetOf rec.sid = none) :
    ExactSegment rec marked f ↔ ∀ i row, f.mapping[i]? = some row → row.sid = rec.sid →
      f.bitmap i = false → ¬ Masked marked row.slot := by
  have happly : rec.applyToSegment f = f := by rw [VacuumTombstones.applyToSegment, ho]
  constructor
  · intro h i row hi hsid hb hm
    have := (h.mask i row hi).mpr (.inr ⟨hsid, hm⟩)
    rw [happly, hb] at this
    cases this
  · intro h
    refine ⟨fun i row hi => ?_, by rw [happly], by rw [happly, happly]⟩
    rw [happly]
    refine (or_iff_left_of_imp fun ⟨hsid, hm⟩ => ?_).symm
    by_contra hb
    exact h i row hi hsid (Bool.not_eq_true _ ▸ hb) hm

end Segment

section Memtable

variable {rec : VacuumTombstones} {marked : List MappedRow} {mt : ConcurrentMemTable V}

theorem ConcurrentMemTable.mappedRows_getElem? {j : ℕ} {row : MappedRow} :
    mt.mappedRows[j]? = some row ↔
      j < mt.validSize ∧ row = ⟨(mt.rows j).tid, mt.memtableId, j⟩ := by
  rw [ConcurrentMemTable.mappedRows, List.getElem?_map]
  rcases Nat.lt_or_ge j mt.validSize with h | h
  · simp [h, eq_comm]
  · simp [Nat.not_lt.mpr h]

/-- By position a record of a memtable masks the same slots on the standby. -/
theorem exactMemtable_of_owner (h : rec.isMemtableOwner = true)
    (hidx : ∀ j, j ∈ rec.entries.map (·.sidLocalIdx) ↔ Masked marked j) :
    ExactMemtable rec marked mt := by
  have happly : ∀ m : ConcurrentMemTable V, rec.applyToMemtable m =
      { m with bitmap := (tombstoneFast 0 m.capacity rec.entries ⟨m.bitmap, 0⟩).bitmap } :=
    fun m => if_pos h
  have hb : ∀ m : ConcurrentMemTable V, ∀ i, (rec.applyToMemtable m).bitmap i = true ↔
      m.bitmap i = true ∨ (i < m.capacity ∧ Masked marked i) := by
    intro m i
    rw [happly, tombstoneFast_bitmap, Nat.sub_zero, hidx]
    simp
  refine ⟨fun i hi => ?_, fun i hi => ?_, ?_⟩
  · rw [hb, and_iff_right (hi.trans_le mt.validSize_le_capacity)]
  · rw [Bool.eq_iff_iff, hb]
    exact or_iff_left fun h => hi h.2
  · have hcap : (rec.applyToMemtable mt).capacity = mt.capacity := by rw [happly]
    have hbit : (rec.applyToMemtable (rec.applyToMemtable mt)).bitmap =
        (rec.applyToMemtable mt).bitmap := by
      funext i
      rw [Bool.eq_iff_iff, hb, hcap]
      exact or_iff_left_of_imp fun h => (hb mt i).mpr (.inr h)
    rw [happly] at hbit ⊢
    exact congrArg (fun b => { rec.applyToMemtable mt with bitmap := b }) hbit

theorem exactMemtable_iff (h : rec.isMemtableOwner = false)
    (htid : rec.entries.map (·.tid) = marked.map (·.tid)) :
    ExactMemtable rec marked mt ↔ InStep marked mt.bitmap 0 mt.mappedRows := by
  have happly : ∀ m : ConcurrentMemTable V, rec.applyToMemtable m = { m with
      bitmap := (tombstoneWalk 0 (m.mappedRows.map (·.tid)) rec.entries ⟨m.bitmap, 0⟩).bitmap } :=
    fun m => if_neg (by simp [h])
  have hb : ∀ m : ConcurrentMemTable V, ∀ i, (rec.applyToMemtable m).bitmap i = true ↔
      m.bitmap i = true ∨ ∃ row, m.mappedRows[i]? = some row ∧
        Next (marked.map (·.tid)) ((m.mappedRows.take i).map (·.tid)) row.tid := by
    intro m i
    rw [happly, tombstoneWalk_bitmap, htid, Nat.sub_zero]
    simp only [List.getElem?_map, Option.map_eq_some_iff, List.map_take, Nat.zero_le, true_and]
    refine or_congr_right ⟨?_, ?_⟩
    · rintro ⟨_, ⟨row, hrow, rfl⟩, hn⟩
      exact ⟨row, hrow, hn⟩
    · rintro ⟨row, hrow, hn⟩
      exact ⟨_, ⟨row, hrow, rfl⟩, hn⟩
  constructor
  · intro hex j row hj hbit
    obtain ⟨hlt, hrow⟩ := ConcurrentMemTable.mappedRows_getElem?.mp hj
    rw [Nat.zero_add] at hbit
    have := hex.mask j hlt
    rw [hb, hbit, hj] at this
    simpa [hrow] using this
  · intro hin
    have hstep : ∀ i row, mt.mappedRows[i]? = some row → mt.bitmap i = false →
        (Next (marked.map (·.tid)) ((mt.mappedRows.take i).map (·.tid)) row.tid ↔
          Masked marked i) := by
      intro i row hi hbit
      have := hin i row hi (by rwa [Nat.zero_add])
      rwa [(ConcurrentMemTable.mappedRows_getElem?.mp hi).2] at this ⊢
    refine ⟨fun i hi => ?_, fun i hi => ?_, ?_⟩
    · have hrow := ConcurrentMemTable.mappedRows_getElem?.mpr ⟨hi, rfl⟩
      rw [hb]
      cases hbit : mt.bitmap i with
      | true => simp
      | false => simpa [hrow] using hstep i _ hrow hbit
    · rw [Bool.eq_iff_iff, hb]
      refine or_iff_left_of_imp ?_
      rintro ⟨row, hrow, hn⟩
      by_contra hbit
      exact hi ((hstep i row hrow (Bool.not_eq_true _ ▸ hbit)).mp hn)
    · have hrows : (rec.applyToMemtable mt).mappedRows = mt.mappedRows := by
        rw [happly]
        rfl
      have hbit : (rec.applyToMemtable (rec.applyToMemtable mt)).bitmap =
          (rec.applyToMemtable mt).bitmap := by
        funext i
        rw [Bool.eq_iff_iff, hb, hrows]
        exact or_iff_left_of_imp fun h => (hb mt i).mpr (.inr h)
      rw [happly] at hbit ⊢
      exact congrArg (fun b => { rec.applyToMemtable mt with bitmap := b }) hbit

end Memtable

/-- A record of a memtable has the slots of the masked rows for positions. -/
theorem Emits.owner_slots {tids : SegmentId → List Tid} {d : Disk} {rec : VacuumTombstones}
    {owner marked : List MappedRow} (hd : Leads tids [] d)
    (h : Emits V tids d rec owner marked) (hown : rec.isMemtableOwner = true) (j : ℕ) :
    j ∈ rec.entries.map (·.sidLocalIdx) ↔ Masked marked j := by
  rw [(h.entries hd).2]
  cases h with
  | memtable mt checkReady callback _ hrows h =>
      constructor
      · rintro ⟨r, hr, hj⟩
        exact ⟨r, hr, by rw [(ConcurrentMemTable.mappedRows_getElem?.mp hj).2]⟩
      · rintro ⟨r, hr, rfl⟩
        obtain ⟨i, hi, -⟩ := (mem_markedRows _ 0 _).mp hr
        have hslot : r.slot = i := by rw [(ConcurrentMemTable.mappedRows_getElem?.mp hi).2]
        exact ⟨r, hr, hslot ▸ hi⟩
  | segment f callback _ o hf h ho hsid =>
      rw [(tombstones_entries (hd.descends f hf) h).2.1] at hown
      cases hown

theorem exactSegment_iff_reads {tids : SegmentId → List Tid} {f : SegmentFile}
    {rec : VacuumTombstones} {owner marked : List MappedRow} (hf : f.Descends tids)
    (htid : rec.entries.map (·.tid) = marked.map (·.tid))
    (hidx : ∀ j, j ∈ rec.entries.map (·.sidLocalIdx) ↔ ∃ r ∈ marked, owner[j]? = some r) :
    ExactSegment rec marked f ↔ ReadsSegment rec owner marked f := by
  unfold ReadsSegment
  split
  case h_1 ho => exact exactSegment_iff_of_none ho
  case h_2 o ho =>
    have hmem := hf.tiles.mem (offsetOf_mem ho).1
    have hlen : (f.slice o).length = o.endOffset - o.startOffset := by
      rw [slice, List.length_take, List.length_drop]
      omega
    rw [exactSegment_iff hf ho]
    unfold VacuumTombstones.Marks
    split
    · refine forall₃_congr fun j row hj => imp_congr_right fun _ => iff_congr ?_ Iff.rfl
      rw [hidx, and_iff_right]
      exact hlen ▸ (List.getElem?_eq_some_iff.mp hj).1
    · refine forall₃_congr fun j row hj => imp_congr_right fun _ => iff_congr ?_ Iff.rfl
      simp [hj, htid]

/-- Against the slice the record was made from, a record reads correctly by position. -/
theorem aligned_self {owner marked : List MappedRow} (bitmap : ℕ → Bool) (start : ℕ)
    (hsub : marked ⊆ owner) (hslots : (owner.map (·.slot)).Nodup) :
    Aligned owner marked bitmap start owner := by
  intro j row hj _
  constructor
  · rintro ⟨r, hr, hrj⟩
    obtain rfl : row = r := Option.some.inj (hj.symm.trans hrj)
    exact ⟨row, hr, rfl⟩
  · rintro ⟨r, hr, hslot⟩
    obtain rfl : r = row :=
      List.inj_on_of_nodup_map hslots (hsub hr) (List.mem_of_getElem? hj) hslot
    exact ⟨r, hr, hj⟩

/-- Where the tids of the memtable are distinct, the pass is in step when no unmasked row to be
masked comes in the record after a row that is gone from the slice. -/
theorem inStep_iff_of_distinct {l rows marked : List MappedRow} {bitmap : ℕ → Bool} {start : ℕ}
    (htids : (l.map (·.tid)).Nodup) (hslots : (l.map (·.slot)).Nodup) (hrows : rows.Sublist l)
    (hmarked : marked.Sublist l) :
    InStep marked bitmap start rows ↔ ∀ j row i, rows[j]? = some row →
      bitmap (start + j) = false → marked[i]? = some row → marked.take i ⊆ rows := by
  have htid : ∀ {r r'}, r ∈ l → r' ∈ l → r.tid = r'.tid → r = r' := fun hr hr' h =>
    List.inj_on_of_nodup_map htids hr hr' h
  have hmask : ∀ {row}, row ∈ l → (Masked marked row.slot ↔ row ∈ marked) := by
    refine fun hrow => ⟨?_, fun h => ⟨_, h, rfl⟩⟩
    rintro ⟨r, hr, hslot⟩
    exact List.inj_on_of_nodup_map hslots (hmarked.subset hr) hrow hslot ▸ hr
  have hnext : ∀ {j row}, rows[j]? = some row →
      (Next (marked.map (·.tid)) ((rows.take j).map (·.tid)) row.tid ↔
        ∃ i, marked[i]? = some row ∧ marked.take i ⊆ rows) := by
    intro j row hj
    have hrow := hrows.subset (List.mem_of_getElem? hj)
    rw [List.map_take, next_iff_of_nodup htids (hmarked.map _) (hrows.map _)
      (by rw [List.getElem?_map, hj]; rfl)]
    refine exists_congr fun i => ?_
    rw [List.getElem?_map, Option.map_eq_some_iff, ← List.map_take]
    constructor
    · rintro ⟨⟨r, hr, ht⟩, hsub⟩
      obtain rfl := htid (hmarked.subset (List.mem_of_getElem? hr)) hrow ht
      refine ⟨hr, fun x hx => ?_⟩
      obtain ⟨y, hy, hyx⟩ := List.mem_map.mp (hsub (List.mem_map_of_mem hx))
      obtain rfl := htid (hrows.subset hy) (hmarked.subset (List.mem_of_mem_take hx)) hyx
      exact hy
    · rintro ⟨hi, hsub⟩
      exact ⟨⟨row, hi, rfl⟩, List.map_subset _ hsub⟩
  have hmn := (htids.of_map).sublist hmarked
  constructor
  · intro h j row i hj hb hi
    obtain ⟨i', hi', hsub⟩ := (hnext hj).mp
      ((h j row hj hb).mpr ((hmask (hrows.subset (List.mem_of_getElem? hj))).mpr
        (List.mem_of_getElem? hi)))
    obtain ⟨hl, hr⟩ := List.getElem?_eq_some_iff.mp hi
    obtain ⟨hl', hr'⟩ := List.getElem?_eq_some_iff.mp hi'
    obtain rfl := hmn.getElem_inj_iff.mp (hr.trans hr'.symm)
    exact hsub
  · intro h j row hj hb
    rw [hnext hj, hmask (hrows.subset (List.mem_of_getElem? hj))]
    refine ⟨fun ⟨i, hi, _⟩ => List.mem_of_getElem? hi, fun hm => ?_⟩
    obtain ⟨i, hi⟩ := List.mem_iff_getElem?.mp hm
    exact ⟨i, hi, h j row i hj hb hi⟩

section Example

/-- The memtables 3 and 4 at their flush. -/
def demoTids : SegmentId → List Tid
  | 3 => [10, 11, 12]
  | 4 => [20]
  | _ => []

def noBits : ℕ → Bool := fun _ => false

/-- The first version of segment 3, as flushed. -/
def demoFlushed : SegmentFile := .flush 3 (demoTids 3) noBits 1

/-- Row 0 of segment 3 vacuumed. -/
def demoVacuumed : SegmentFile := demoFlushed.setBitmap (Function.update noBits 0 true) 1

/-- Segment 3 without its masked row. -/
def demoRebuilt : SegmentFile := demoVacuumed.rebuild demoVacuumed.bitmap demoVacuumed.bitmap 2

def demoNeighbour : SegmentFile := .flush 4 (demoTids 4) noBits 1

/-- The first version of the range from 3 to 4. -/
def demoMerged : SegmentFile := demoRebuilt.merge demoNeighbour 1

def demoDisk : Disk := [demoMerged, demoRebuilt, demoNeighbour, demoVacuumed]

theorem leads_demoDisk : Leads demoTids [] demoDisk := by
  refine .tail (.tail (.tail (.tail (.tail .refl (.flush [] 3 noBits))
    (.vacuum [] [] demoFlushed (Function.update noBits 0 true) 1 ?_))
    (.flush [demoVacuumed] 4 noBits))
    (.rebuild [demoNeighbour, demoVacuumed] demoVacuumed demoVacuumed.bitmap ?_ ?_ ?_))
    (.merge [demoRebuilt, demoNeighbour, demoVacuumed] demoRebuilt demoNeighbour ?_ ?_ ?_ ?_ ?_)
  · exact fun i h => by cases h
  · simp
  · rfl
  · exact fun _ h => h
  · simp
  · simp
  · rfl
  · rfl
  · rfl

/-- The row with tid 12 is found dead in the merged segment, at position 1 of slice 3. -/
def demoTombstones : VacuumTombstones := ⟨3, 1, false, [⟨1, 12⟩]⟩

theorem emits_demoTombstones :
    Emits Unit demoTids demoDisk demoTombstones [⟨11, 3, 1⟩, ⟨12, 3, 2⟩] [⟨12, 3, 2⟩] :=
  .segment demoMerged (· == 12) demoTombstones ⟨3, 0, 2⟩ (by simp [demoDisk])
    (List.mem_singleton.mpr rfl) (List.mem_cons_self) rfl

theorem represents_demoDisk {f : SegmentFile} (hf : f ∈ demoDisk) (hlo : f.startSid ≤ 3)
    (hhi : 3 ≤ f.endSid) :
    Represents (V := Unit) demoTids demoDisk demoTombstones.sid (.segment f) :=
  .segment demoDisk f f.bitmap f.deleteCount leads_demoDisk (.inl .refl) hf hlo hhi

end Example

end VectorLsm
