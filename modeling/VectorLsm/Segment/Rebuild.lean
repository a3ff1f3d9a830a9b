import VectorLsm.Segment.File
import Mathlib.Order.Basic

/-! # Rebuild

`rebuild_index_pool` drops the rows masked in the bitmap it has built the index from, takes
the bits of the others from the reloaded bitmap, and recomputes the offset table on the way.
-/

namespace VectorLsm

open Compact

/-- `new_offsets[j]` while the rows are copied; `none` is the `SIZE_MAX` sentinel. -/
structure NewOffset where
  sid : SegmentId
  startOffset : Option ℕ
  endOffset : ℕ
  deriving DecidableEq

/-- The row written at `w` belongs to the slice. -/
def NewOffset.extend (w : ℕ) (o : NewOffset) : NewOffset :=
  ⟨o.sid, some (o.startOffset.getD w), w + 1⟩

/-- "Fix empty offset ranges". -/
def fixEmpty : ℕ → List NewOffset → List SegmentOffsetRange
  | _, [] => []
  | prevEnd, o :: os =>
      match o.startOffset with
      | none => ⟨o.sid, prevEnd, prevEnd⟩ :: fixEmpty prevEnd os
      | some s => ⟨o.sid, s, o.endOffset⟩ :: fixEmpty o.endOffset os

/-- "Advance offset window" at row `i`: past empty slices and those that end before it. -/
def advanceSid (offsets : List SegmentOffsetRange) (i cur : ℕ) : ℕ :=
  skipWhile (fun o => o.startOffset = o.endOffset || o.endOffset ≤ i) offsets offsets.length cur

/-- The locals of the copying loop. -/
structure RebuildState where
  writeIdx : ℕ
  curSidIdx : ℕ
  mapping : List MappedRow
  bitmap : ℕ → Bool
  deleteCount : ℕ
  offsets : List NewOffset

namespace RebuildState

def init (f : SegmentFile) : RebuildState :=
  ⟨0, 0, [], fun _ => false, 0, f.offsets.map fun o => ⟨o.sid, none, 0⟩⟩

/-- One turn of the loop. -/
def next (f : SegmentFile) (snapshot fresh : ℕ → Bool) (s : RebuildState) (i : ℕ)
    (row : MappedRow) : RebuildState :=
  let cur := advanceSid f.offsets i s.curSidIdx
  if snapshot i then { s with curSidIdx := cur }
  else
    { writeIdx := s.writeIdx + 1
      curSidIdx := cur
      mapping := s.mapping ++ [row]
      bitmap := if fresh i then Function.update s.bitmap s.writeIdx true else s.bitmap
      deleteCount := s.deleteCount + if fresh i then 1 else 0
      offsets :=
        match f.offsets[cur]? with
        | none => s.offsets
        | some o =>
            if o.startOffset ≤ i ∧ i < o.endOffset then s.offsets.modify cur (·.extend s.writeIdx)
            else s.offsets }

/-- The loop from row `i` on. -/
def loop (f : SegmentFile) (snapshot fresh : ℕ → Bool) :
    RebuildState → ℕ → List MappedRow → RebuildState
  | s, _, [] => s
  | s, i, row :: rows => loop f snapshot fresh (s.next f snapshot fresh i row) (i + 1) rows

end RebuildState

/-- The files written by `rebuild_index_pool`. -/
def SegmentFile.rebuild (f : SegmentFile) (snapshot fresh : ℕ → Bool) (version : ℕ) :
    SegmentFile :=
  let s := RebuildState.loop f snapshot fresh (.init f) 0 f.mapping
  { f with
    version := version
    mapping := s.mapping
    offsets := fixEmpty 0 s.offsets
    bitmap := s.bitmap
    deleteCount := s.deleteCount }

theorem advanceSid_eq {offsets : List SegmentOffsetRange} {cur hi i j : ℕ}
    {o : SegmentOffsetRange} (ht : Tiles 0 offsets hi) (ho : offsets[j]? = some o)
    (hlo : o.startOffset ≤ i) (hhi : i < o.endOffset) (hcur : cur ≤ j) :
    advanceSid offsets i cur = j := by
  refine ht.skipWhile_eq (fun o h => by simp [h]) (fun o h h' => ?_) ho hlo hhi hcur
  have : o.startOffset ≠ o.endOffset := by omega
  simp [this, h']

section Loop

variable {f : SegmentFile} {snapshot fresh : ℕ → Bool}

/-- The new entry of a slice once the rows below `i` are copied. -/
def partialOffset (snapshot : ℕ → Bool) (i : ℕ) (o : SegmentOffsetRange) : NewOffset :=
  let s := kept snapshot (min i o.startOffset)
  let e := kept snapshot (min i o.endOffset)
  if s < e then ⟨o.sid, some (kept snapshot o.startOffset), e⟩ else ⟨o.sid, none, 0⟩

theorem partialOffset_of_not_mem {i : ℕ} {o : SegmentOffsetRange}
    (hle : o.startOffset ≤ o.endOffset) (h : ¬ (o.startOffset ≤ i ∧ i < o.endOffset)) :
    partialOffset snapshot (i + 1) o = partialOffset snapshot i o := by
  unfold partialOffset
  rcases Nat.lt_or_ge i o.startOffset with hi | hi
  · have h1 : min (i + 1) o.startOffset = i + 1 := by omega
    have h2 : min (i + 1) o.endOffset = i + 1 := by omega
    have h3 : min i o.startOffset = i := by omega
    have h4 : min i o.endOffset = i := by omega
    simp [h1, h2, h3, h4]
  · have h1 : min (i + 1) o.startOffset = min i o.startOffset := by omega
    have h2 : min (i + 1) o.endOffset = min i o.endOffset := by omega
    simp [h1, h2]

theorem partialOffset_of_dropped {i : ℕ} {o : SegmentOffsetRange}
    (hle : o.startOffset ≤ o.endOffset) (hs : snapshot i = true) :
    partialOffset snapshot (i + 1) o = partialOffset snapshot i o := by
  by_cases h : o.startOffset ≤ i ∧ i < o.endOffset
  · have h1 : min (i + 1) o.startOffset = min i o.startOffset := by omega
    have h2 : min (i + 1) o.endOffset = i + 1 := by omega
    have h3 : min i o.endOffset = i := by omega
    simp [partialOffset, h1, h2, h3, kept_succ, hs]
  · exact partialOffset_of_not_mem hle h

theorem partialOffset_extend {i : ℕ} {o : SegmentOffsetRange} (hlo : o.startOffset ≤ i)
    (hhi : i < o.endOffset) (hs : snapshot i = false) :
    partialOffset snapshot (i + 1) o = (partialOffset snapshot i o).extend (kept snapshot i) := by
  have h1 : min (i + 1) o.startOffset = o.startOffset := by omega
  have h2 : min (i + 1) o.endOffset = i + 1 := by omega
  have h3 : min i o.startOffset = o.startOffset := by omega
  have h4 : min i o.endOffset = i := by omega
  have hk := kept_mono (p := snapshot) hlo
  have hlt : kept snapshot o.startOffset < kept snapshot i + 1 := by omega
  simp only [partialOffset, h1, h2, h3, h4, kept_succ, hs, Bool.false_eq_true, if_false, if_pos hlt]
  split
  · simp [NewOffset.extend]
  · have : kept snapshot o.startOffset = kept snapshot i := by omega
    simp [NewOffset.extend, this]

/-- What the loop has done once the rows below `i` are copied. -/
structure RebuildState.Copied (f : SegmentFile) (snapshot fresh : ℕ → Bool) (i : ℕ)
    (s : RebuildState) : Prop where
  writeIdx : s.writeIdx = kept snapshot i
  window : ∀ j o, f.offsets[j]? = some o → j < s.curSidIdx →
    o.startOffset = o.endOffset ∨ o.endOffset ≤ i
  mapping : s.mapping = compact snapshot 0 (f.mapping.take i)
  bitmap : ∀ w, s.bitmap w = true ↔
    ∃ j < i, snapshot j = false ∧ kept snapshot j = w ∧ fresh j = true
  deleteCount : s.deleteCount = countBits (fun j => !snapshot j && fresh j) i
  offsets : s.offsets = f.offsets.map (partialOffset snapshot i)

theorem countBits_succ (b : ℕ → Bool) (n : ℕ) :
    countBits b (n + 1) = countBits b n + if b n then 1 else 0 := by
  simp [countBits, List.range_succ]

theorem RebuildState.Copied.init : (RebuildState.init f).Copied f snapshot fresh 0 where
  writeIdx := rfl
  window := fun _ _ _ h => absurd h (Nat.not_lt_zero _)
  mapping := rfl
  bitmap := by simp [RebuildState.init]
  deleteCount := rfl
  offsets := by simp [RebuildState.init, partialOffset]

theorem RebuildState.Copied.next {i : ℕ} {s : RebuildState} {row : MappedRow}
    (ht : Tiles 0 f.offsets f.mapping.length) (hrow : f.mapping[i]? = some row)
    (h : s.Copied f snapshot fresh i) :
    (s.next f snapshot fresh i row).Copied f snapshot fresh (i + 1) := by
  obtain ⟨hi, rfl⟩ := List.getElem?_eq_some_iff.mp hrow
  obtain ⟨o, ho, hlo, hhi⟩ := ht.exists_mem (Nat.zero_le i) hi
  obtain ⟨j, hj, rfl⟩ := List.mem_iff_getElem.mp ho
  have hj? : f.offsets[j]? = some f.offsets[j] := List.getElem?_eq_getElem hj
  -- The window has not passed the slice of row `i`.
  have hcur : s.curSidIdx ≤ j := by
    by_contra hlt
    rcases h.window j _ hj? (Nat.lt_of_not_le hlt) with h | h <;> omega
  have hadv : advanceSid f.offsets i s.curSidIdx = j := advanceSid_eq ht hj? hlo hhi hcur
  have hwindow : ∀ k o, f.offsets[k]? = some o → k < j →
      o.startOffset = o.endOffset ∨ o.endOffset ≤ i + 1 := by
    intro k o hk hkj
    obtain ⟨hk', rfl⟩ := List.getElem?_eq_some_iff.mp hk
    have := List.pairwise_iff_getElem.mp ht.pairwise k j hk' hj hkj
    exact .inr (by omega)
  have htake : f.mapping.take (i + 1) = f.mapping.take i ++ [f.mapping[i]] :=
    List.take_succ_eq_append_getElem hi
  have hlen : (f.mapping.take i).length = i := List.length_take_of_le hi.le
  have hle : ∀ o ∈ f.offsets, o.startOffset ≤ o.endOffset := fun o ho => (ht.mem ho).2.1
  unfold RebuildState.next
  rw [hadv]
  cases hs : snapshot i with
  | true =>
      constructor
      case writeIdx => simp [h.writeIdx, kept_succ, hs]
      case window => simpa using hwindow
      case mapping =>
        rw [if_pos rfl, h.mapping, htake, compact_snoc, hlen, hs, if_pos rfl, List.append_nil]
      case bitmap =>
        intro w
        simp only [if_true, h.bitmap]
        constructor
        · rintro ⟨k, hk, hr⟩
          exact ⟨k, by omega, hr⟩
        · rintro ⟨k, hk, hr⟩
          refine ⟨k, ?_, hr⟩
          rcases Nat.lt_succ_iff_lt_or_eq.mp hk with hk | rfl
          · exact hk
          · rw [hs] at hr
            cases hr.1
      case deleteCount => simp [h.deleteCount, countBits_succ, hs]
      case offsets =>
        simp only [if_true, h.offsets]
        exact List.map_congr_left fun o ho => (partialOffset_of_dropped (hle o ho) hs).symm
  | false =>
      constructor
      case writeIdx => simp [h.writeIdx, kept_succ, hs]
      case window => simpa using hwindow
      case mapping =>
        rw [if_neg Bool.false_ne_true, h.mapping, htake, compact_snoc, hlen, hs,
          if_neg Bool.false_ne_true]
      case bitmap =>
        intro w
        simp only [Bool.false_eq_true, if_false]
        have hsplit : (∃ k < i + 1, snapshot k = false ∧ kept snapshot k = w ∧ fresh k = true) ↔
            (∃ k < i, snapshot k = false ∧ kept snapshot k = w ∧ fresh k = true) ∨
              (kept snapshot i = w ∧ fresh i = true) := by
          constructor
          · rintro ⟨k, hk, hr⟩
            rcases Nat.lt_succ_iff_lt_or_eq.mp hk with hk | rfl
            · exact .inl ⟨k, hk, hr⟩
            · exact .inr hr.2
          · rintro (⟨k, hk, hr⟩ | hr)
            · exact ⟨k, by omega, hr⟩
            · exact ⟨i, by omega, hs, hr⟩
        rw [hsplit, ← h.bitmap, ← h.writeIdx]
        split
        case isTrue hf =>
          rw [Function.update_apply]
          split
          case isTrue hw => simp [hw, hf]
          case isFalse hw => simp [Ne.symm hw]
        case isFalse hf => simp [hf]
      case deleteCount => simp [h.deleteCount, countBits_succ, hs]
      case offsets =>
        simp only [Bool.false_eq_true, if_false, hj?, hlo, hhi, and_self, if_true, h.offsets,
          h.writeIdx]
        refine List.ext_getElem (by simp) fun k hk hk' => ?_
        simp only [List.length_map] at hk'
        rw [List.getElem_modify, List.getElem_map, List.getElem_map]
        split
        case isTrue hjk =>
          subst hjk
          exact (partialOffset_extend hlo hhi hs).symm
        case isFalse hjk =>
          refine (partialOffset_of_not_mem (hle _ (List.getElem_mem hk')) fun hin => hjk ?_).symm
          have hpw := List.pairwise_iff_getElem.mp ht.pairwise
          rcases lt_trichotomy j k with hlt | heq | hlt
          · have := hpw j k hj hk' hlt
            omega
          · exact heq
          · have := hpw k j hk' hj hlt
            omega

theorem RebuildState.Copied.loop {i : ℕ} {s : RebuildState} {rows : List MappedRow}
    (ht : Tiles 0 f.offsets f.mapping.length) (hrows : f.mapping.drop i = rows)
    (h : s.Copied f snapshot fresh i) :
    (RebuildState.loop f snapshot fresh s i rows).Copied f snapshot fresh (i + rows.length) := by
  induction rows generalizing i s with
  | nil => exact h
  | cons row rows ih =>
      have hrow : f.mapping[i]? = some row := by rw [← List.head?_drop, hrows]; rfl
      have hi : i < f.mapping.length := (List.getElem?_eq_some_iff.mp hrow).1
      have hn : i + (row :: rows).length = i + 1 + rows.length := by
        rw [List.length_cons]
        omega
      rw [RebuildState.loop, hn]
      refine ih ?_ (h.next ht hrow)
      rw [← List.tail_drop, hrows, List.tail_cons]

/-- Empty slices get their place between their neighbours. -/
theorem fixEmpty_partialOffset {lo hi : ℕ} {os : List SegmentOffsetRange} (ht : Tiles lo os hi) :
    fixEmpty (kept snapshot lo) (os.map (partialOffset snapshot hi)) =
      os.map (·.move (kept snapshot)) := by
  induction os generalizing lo with
  | nil => rfl
  | cons o os ih =>
      obtain ⟨rfl, hle, hr⟩ := ht
      have h1 : min hi o.startOffset = o.startOffset := by have := hr.le; omega
      have h2 : min hi o.endOffset = o.endOffset := by have := hr.le; omega
      have hk := kept_mono (p := snapshot) hle
      simp only [List.map_cons, fixEmpty, partialOffset, h1, h2]
      split_ifs with hlt
      · simp only [ih hr]
        rfl
      · have he : kept snapshot o.endOffset = kept snapshot o.startOffset := by omega
        have hih := ih hr
        rw [he] at hih
        simp [hih, SegmentOffsetRange.move, he]

end Loop

namespace SegmentFile

variable {f : SegmentFile} {snapshot fresh : ℕ → Bool} {version : ℕ}

theorem rebuild_copied (snapshot fresh : ℕ → Bool) (ht : Tiles 0 f.offsets f.mapping.length) :
    (RebuildState.loop f snapshot fresh (.init f) 0 f.mapping).Copied f snapshot fresh
      f.mapping.length := by
  have h : (RebuildState.init f).Copied f snapshot fresh 0 := .init
  have := h.loop ht (List.drop_zero (l := f.mapping))
  rwa [Nat.zero_add] at this

theorem rebuild_mapping (ht : Tiles 0 f.offsets f.mapping.length) :
    (f.rebuild snapshot fresh version).mapping = compact snapshot 0 f.mapping := by
  have := (rebuild_copied snapshot fresh ht).mapping
  rwa [List.take_length] at this

theorem rebuild_offsets (ht : Tiles 0 f.offsets f.mapping.length) :
    (f.rebuild snapshot fresh version).offsets = f.offsets.map (·.move (kept snapshot)) := by
  have := (rebuild_copied snapshot fresh ht).offsets
  exact (congrArg (fixEmpty 0) this).trans (fixEmpty_partialOffset ht)

theorem rebuild_tiles (ht : Tiles 0 f.offsets f.mapping.length) :
    Tiles 0 (f.rebuild snapshot fresh version).offsets
      (f.rebuild snapshot fresh version).mapping.length := by
  have hl := length_compact (p := snapshot) 0 f.mapping
  rw [kept_zero, Nat.add_zero, Nat.zero_add] at hl
  rw [rebuild_offsets ht, rebuild_mapping ht, hl]
  exact ht.move kept_mono

end SegmentFile

end VectorLsm
