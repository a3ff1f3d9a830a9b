import VectorLsm.Lib.Compact
import VectorLsm.Memtable.Basic

/-! # Segment files

A flushed segment covers a range of segment ids. Its mapping file holds the heap pointers of
its rows; the offset file tells the rows of each segment id apart. Rows are only ever dropped
by a rebuild, and a merge puts the larger of two segments first.
-/

namespace VectorLsm

structure SegmentOffsetRange where
  sid : SegmentId
  startOffset : ℕ
  endOffset : ℕ
  deriving DecidableEq, Repr

namespace SegmentOffsetRange

/-- The entry of a slice that follows `n` other rows. -/
@[simps] def shift (n : ℕ) (o : SegmentOffsetRange) : SegmentOffsetRange :=
  ⟨o.sid, o.startOffset + n, o.endOffset + n⟩

/-- The entry after the positions before it moved. -/
@[simps] def move (f : ℕ → ℕ) (o : SegmentOffsetRange) : SegmentOffsetRange :=
  ⟨o.sid, f o.startOffset, f o.endOffset⟩

end SegmentOffsetRange

/-- An entry of the mapping file. -/
structure MappedRow where
  tid : Tid
  /-- History: the memtable slot the row was written to. -/
  sid : SegmentId
  slot : ℕ
  deriving DecidableEq, Repr

/-- The files of one version of a segment, with the latest subversion of its bitmap. -/
structure SegmentFile where
  startSid : SegmentId
  endSid : SegmentId
  version : ℕ
  mapping : List MappedRow
  offsets : List SegmentOffsetRange
  bitmap : ℕ → Bool
  deleteCount : ℕ

/-- The set bits below `n`. -/
def countBits (bitmap : ℕ → Bool) (n : ℕ) : ℕ := (List.range n).countP bitmap

namespace SegmentFile

variable (f g : SegmentFile)

@[simps] def setBitmap (bitmap : ℕ → Bool) (deleteCount : ℕ) : SegmentFile :=
  { f with bitmap := bitmap, deleteCount := deleteCount }

/-- The rows an entry of the offset table delimits. -/
def slice (o : SegmentOffsetRange) : List MappedRow :=
  (f.mapping.drop o.startOffset).take (o.endOffset - o.startOffset)

/-- The rows of a memtable in slot order. -/
def memtableRows (sid : SegmentId) (tids : List Tid) : List MappedRow :=
  tids.zipIdx.map fun p => ⟨p.1, sid, p.2⟩

/-- What `prepare_for_flushing` hands to `flush_segment_to_disk`. -/
def flush (sid : SegmentId) (tids : List Tid) (bitmap : ℕ → Bool) (version : ℕ) : SegmentFile where
  startSid := sid
  endSid := sid
  version := version
  mapping := memtableRows sid tids
  offsets := [⟨sid, 0, tids.length⟩]
  bitmap := bitmap
  deleteCount := countBits bitmap tids.length

/-- `merge_adjacent_segments_pool` with `larger` put first; the bitmaps are the reloaded ones. -/
def join (larger smaller : SegmentFile) (startSid endSid : SegmentId) (version : ℕ) :
    SegmentFile where
  startSid := startSid
  endSid := endSid
  version := version
  mapping := larger.mapping ++ smaller.mapping
  offsets := larger.offsets ++ smaller.offsets.map (·.shift larger.mapping.length)
  bitmap := fun i =>
    if i < larger.mapping.length then larger.bitmap i
    else decide (i < larger.mapping.length + smaller.mapping.length) &&
      smaller.bitmap (i - larger.mapping.length)
  deleteCount := larger.deleteCount + smaller.deleteCount

/-- `merge_adjacent_segments_pool` on adjacent segments, `f` the lower one. -/
def merge (version : ℕ) : SegmentFile :=
  if g.mapping.length ≤ f.mapping.length then join f g f.startSid g.endSid version
  else join g f f.startSid g.endSid version

end SegmentFile

/-- An offset table lists slices that follow each other from `lo` to `hi`. -/
def Tiles : ℕ → List SegmentOffsetRange → ℕ → Prop
  | lo, [], hi => lo = hi
  | lo, o :: os, hi => o.startOffset = lo ∧ lo ≤ o.endOffset ∧ Tiles o.endOffset os hi

namespace Tiles

variable {lo mid hi n : ℕ} {os os' : List SegmentOffsetRange} {o o' : SegmentOffsetRange}

theorem le (h : Tiles lo os hi) : lo ≤ hi := by
  induction os generalizing lo with
  | nil => exact h.le
  | cons o os ih => exact h.2.1.trans (ih h.2.2)

theorem append (h : Tiles lo os mid) (h' : Tiles mid os' hi) : Tiles lo (os ++ os') hi := by
  induction os generalizing lo with
  | nil =>
      obtain rfl : lo = mid := h
      exact h'
  | cons o os ih => exact ⟨h.1, h.2.1, ih h.2.2⟩

theorem shift (h : Tiles lo os hi) : Tiles (lo + n) (os.map (·.shift n)) (hi + n) := by
  induction os generalizing lo with
  | nil => exact congrArg (· + n) h
  | cons o os ih =>
      exact ⟨congrArg (· + n) h.1, Nat.add_le_add_right h.2.1 n, ih h.2.2⟩

theorem move {f : ℕ → ℕ} (hf : Monotone f) (h : Tiles lo os hi) :
    Tiles (f lo) (os.map (·.move f)) (f hi) := by
  induction os generalizing lo with
  | nil => exact congrArg f h
  | cons o os ih => exact ⟨congrArg f h.1, hf h.2.1, ih h.2.2⟩

theorem mem (h : Tiles lo os hi) (ho : o ∈ os) :
    lo ≤ o.startOffset ∧ o.startOffset ≤ o.endOffset ∧ o.endOffset ≤ hi := by
  induction os generalizing lo with
  | nil => cases ho
  | cons a os ih =>
      obtain ⟨hs, hle, ht⟩ := h
      rcases List.mem_cons.mp ho with rfl | ho
      · exact ⟨hs.ge, hs.trans_le hle, ht.le⟩
      · have := ih ht ho
        exact ⟨hle.trans this.1, this.2⟩

theorem pairwise (h : Tiles lo os hi) :
    os.Pairwise fun a b => a.endOffset ≤ b.startOffset := by
  induction os generalizing lo with
  | nil => exact .nil
  | cons a os ih => exact .cons (fun b hb => (h.2.2.mem hb).1) (ih h.2.2)

/-- Every position has its slice. -/
theorem exists_mem {i : ℕ} (h : Tiles lo os hi) (hlo : lo ≤ i) (hhi : i < hi) :
    ∃ o ∈ os, o.startOffset ≤ i ∧ i < o.endOffset := by
  induction os generalizing lo with
  | nil =>
      obtain rfl : lo = hi := h
      omega
  | cons a os ih =>
      obtain ⟨hs, -, ht⟩ := h
      rcases Nat.lt_or_ge i a.endOffset with hi' | hi'
      · exact ⟨a, List.mem_cons_self, hs.trans_le hlo, hi'⟩
      · obtain ⟨o, ho, hoi⟩ := ih ht hi'
        exact ⟨o, List.mem_cons_of_mem _ ho, hoi⟩

/-- No position lies in two slices. -/
theorem eq_of_mem {i : ℕ} (h : Tiles lo os hi) (ho : o ∈ os) (ho' : o' ∈ os)
    (hi : o.startOffset ≤ i ∧ i < o.endOffset) (hi' : o'.startOffset ≤ i ∧ i < o'.endOffset) :
    o = o' := by
  obtain ⟨j, hj, rfl⟩ := List.mem_iff_getElem.mp ho
  obtain ⟨k, hk, rfl⟩ := List.mem_iff_getElem.mp ho'
  have hp := List.pairwise_iff_getElem.mp h.pairwise
  rcases Nat.lt_trichotomy j k with hlt | rfl | hlt
  · have := hp j k hj hk hlt
    omega
  · rfl
  · have := hp k j hk hj hlt
    omega

end Tiles

theorem join_tiles {f g : SegmentFile} {start last : SegmentId} {version : ℕ}
    (hf : Tiles 0 f.offsets f.mapping.length) (hg : Tiles 0 g.offsets g.mapping.length) :
    Tiles 0 (SegmentFile.join f g start last version).offsets
      (SegmentFile.join f g start last version).mapping.length := by
  have hsh := hg.shift (n := f.mapping.length)
  rw [Nat.zero_add, Nat.add_comm] at hsh
  simpa [SegmentFile.join] using hf.append hsh

/-- The loops that advance in an offset table while the current entry is to be skipped. -/
def skipWhile (skip : SegmentOffsetRange → Bool) (offsets : List SegmentOffsetRange) :
    ℕ → ℕ → ℕ
  | 0, cur => cur
  | fuel + 1, cur =>
      match offsets[cur]? with
      | none => cur
      | some o => if skip o then skipWhile skip offsets fuel (cur + 1) else cur

theorem skipWhile_eq {skip : SegmentOffsetRange → Bool} {offsets : List SegmentOffsetRange}
    {fuel cur j : ℕ} {o : SegmentOffsetRange} (ho : offsets[j]? = some o)
    (hstop : skip o = false) (hcur : cur ≤ j) (hf : j ≤ cur + fuel)
    (hskip : ∀ k o, offsets[k]? = some o → cur ≤ k → k < j → skip o = true) :
    skipWhile skip offsets fuel cur = j := by
  induction fuel generalizing cur with
  | zero => exact Nat.le_antisymm hcur hf
  | succ fuel ih =>
      rw [skipWhile]
      rcases hcur.eq_or_lt with rfl | hlt
      · simp [ho, hstop]
      · have hj := (List.getElem?_eq_some_iff.mp ho).1
        have hc : offsets[cur]? = some offsets[cur] := List.getElem?_eq_getElem (hlt.trans hj)
        simp only [hc, hskip cur _ hc le_rfl hlt, if_true]
        exact ih hlt (by omega) fun k o hk hle => hskip k o hk (by omega)

/-- In a table of consecutive slices, the loop that skips what ends before row `i`, and maybe
empty slices, stops on the slice of row `i`. -/
theorem Tiles.skipWhile_eq {skip : SegmentOffsetRange → Bool} {offsets : List SegmentOffsetRange}
    {cur hi i j : ℕ} {o : SegmentOffsetRange} (ht : Tiles 0 offsets hi)
    (hskip : ∀ o, o.endOffset ≤ i → skip o = true)
    (hstop : ∀ o, o.startOffset ≤ i → i < o.endOffset → skip o = false)
    (ho : offsets[j]? = some o) (hlo : o.startOffset ≤ i) (hhi : i < o.endOffset)
    (hcur : cur ≤ j) : skipWhile skip offsets offsets.length cur = j := by
  obtain ⟨hj, rfl⟩ := List.getElem?_eq_some_iff.mp ho
  refine VectorLsm.skipWhile_eq ho (hstop _ hlo hhi) hcur (by omega) fun k o hk _ hkj => ?_
  obtain ⟨hk', rfl⟩ := List.getElem?_eq_some_iff.mp hk
  have := List.pairwise_iff_getElem.mp ht.pairwise k j hk' hj hkj
  exact hskip _ (by omega)

end VectorLsm
