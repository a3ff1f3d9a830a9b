import VectorLsm.Lib.Bitmap
import VectorLsm.Segment.Chain
import VectorLsm.Segment.Marks

/-! # What rebuilds and merges write

A rebuild writes the rows that its bitmap snapshot leaves, in their old order, and carries over
the bits that were set since. A merge writes all rows of both segments, those of the larger one
first. The vectors of the index, the mapping, the bitmap and the offset table stay in step.
-/

namespace VectorLsm

open Compact SegmentFile Bitmap

variable {I V : Type*}

/-- What is handed to `flush_segment_to_disk`. -/
structure PrepareFlushMetaData (I : Type*) where
  startSid : SegmentId
  endSid : SegmentId
  validRows : ℕ
  index : I
  bitmap : ℕ → Bool
  deleteCount : ℕ
  map : List MappedRow
  offsets : List SegmentOffsetRange

/-- The files written for it. -/
@[simps] def PrepareFlushMetaData.file (p : PrepareFlushMetaData I) (version : ℕ) :
    SegmentFile where
  startSid := p.startSid
  endSid := p.endSid
  version := version
  mapping := p.map
  offsets := p.offsets
  bitmap := p.bitmap
  deleteCount := p.deleteCount

/-- `rebuild_index_pool`, from the bitmap loaded with the index and the one reloaded. -/
def rebuildIndexPool (mergeIndex : I → (ℕ → Bool) → ℕ → Option (I × ℕ)) (f : SegmentFile)
    (index : I) (snapshot fresh : ℕ → Bool) : Option (PrepareFlushMetaData I) :=
  (mergeIndex index snapshot f.mapping.length).map fun (newIndex, newIndexCount) =>
    let s := RebuildState.loop f snapshot fresh (.init f) 0 f.mapping
    { startSid := f.startSid
      endSid := f.endSid
      validRows := newIndexCount
      index := newIndex
      bitmap := s.bitmap
      deleteCount := s.deleteCount
      map := s.mapping
      offsets := fixEmpty 0 s.offsets }

/-- "Build merged bitmap", byte by byte. -/
def mergedBitmap (larger smaller : ℕ → Bool) (largerCount smallerCount : ℕ) : Bytes :=
  clearStray (largerCount + smallerCount)
    (copyBits smaller largerCount smallerCount
      (copyBits larger 0 largerCount (zeros (largerCount + smallerCount))))

/-- `merge_adjacent_segments_pool`: of `fresh0` and `fresh1` the bitmaps and delete counts are
read, of `seg0` and `seg1` everything else. -/
def mergeAdjacentSegmentsPool (mergeTwoIndices : I → ℕ → I → ℕ → Option (I × ℕ))
    (seg0 seg1 : SegmentFile) (index0 index1 : I) (fresh0 fresh1 : SegmentFile) :
    Option (PrepareFlushMetaData I) :=
  let first := seg1.mapping.length ≤ seg0.mapping.length
  let larger := if first then seg0 else seg1
  let smaller := if first then seg1 else seg0
  let freshLarger := if first then fresh0 else fresh1
  let freshSmaller := if first then fresh1 else fresh0
  let largerCount := larger.mapping.length
  let smallerCount := smaller.mapping.length
  (mergeTwoIndices (if first then index0 else index1) largerCount
      (if first then index1 else index0) smallerCount).map fun (mergedIndex, mergedCount) =>
    { startSid := seg0.startSid
      endSid := seg1.endSid
      validRows := mergedCount
      index := mergedIndex
      bitmap := isSlotSet
        (mergedBitmap freshLarger.bitmap freshSmaller.bitmap largerCount smallerCount)
      deleteCount := fresh0.deleteCount + fresh1.deleteCount
      map := larger.mapping ++ smaller.mapping
      offsets := larger.offsets ++ smaller.offsets.map (·.shift largerCount) }

namespace SegmentFile

/-- The rows not masked in the snapshot, with their old positions. -/
def survivors (f : SegmentFile) (snapshot : ℕ → Bool) : List (MappedRow × ℕ) :=
  f.mapping.zipIdx.filter fun r => !snapshot r.2

end SegmentFile

/-- What the two functions use of an index of the vector library. -/
structure Knowhere (I V : Type*) where
  hasRawData : I → Bool
  count : I → ℕ
  getVectorByIds : I → List ℕ → Option (List V)
  build : List V → I
  add : I → List V → Option I

namespace Knowhere

variable (k : Knowhere I V)

/-- `MergeIndex`; `none` is `elog(ERROR)`. -/
def mergeIndex (index : I) (bitmap : ℕ → Bool) (count : ℕ) : Option (I × ℕ) :=
  if k.hasRawData index = false then none
  else if k.count index ≠ count then none
  else
    let selectedIds := (List.range count).filter (!bitmap ·)
    -- "TODO: handle this case"
    if selectedIds = [] then none
    else (k.getVectorByIds index selectedIds).map fun vs => (k.build vs, selectedIds.length)

/-- `MergeTwoIndices`; `none` is `elog(ERROR)`. -/
def mergeTwoIndices (lindex : I) (lcount : ℕ) (sindex : I) (scount : ℕ) : Option (I × ℕ) :=
  if lcount < scount then none
  else if k.hasRawData lindex = false ∨ k.hasRawData sindex = false then none
  else if k.count lindex ≠ lcount ∨ k.count sindex ≠ scount then none
  else
    (k.getVectorByIds sindex (List.range scount)).bind fun vs =>
      (k.add lindex vs).bind fun merged =>
        if k.count merged ≠ lcount + scount then none else some (merged, k.count merged)

/-- The library keeps vectors in the order in which they are given to it. -/
structure Lawful (vectors : I → List V) : Prop where
  count : ∀ index, k.count index = (vectors index).length
  getVectorByIds : ∀ index ids, (∀ i ∈ ids, i < (vectors index).length) →
    k.getVectorByIds index ids = some (ids.filterMap fun i => (vectors index)[i]?)
  build : ∀ vs, vectors (k.build vs) = vs
  add : ∀ index vs, ∃ merged, k.add index vs = some merged ∧ vectors merged = vectors index ++ vs

end Knowhere

/-- An index that is a list of vectors. -/
def listKnowhere : Knowhere (List V) V where
  hasRawData := fun _ => true
  count := List.length
  getVectorByIds := fun index ids => some (ids.filterMap fun i => index[i]?)
  build := id
  add := fun index vs => some (index ++ vs)

section Index

variable (vectors : I → List V)

/-- `MergeIndex` builds over the unmasked vectors in order. -/
def BuildsInOrder (mergeIndex : I → (ℕ → Bool) → ℕ → Option (I × ℕ)) (index : I)
    (bitmap : ℕ → Bool) (count : ℕ) : Prop :=
  ∃ new, mergeIndex index bitmap count = some (new, (List.range count).countP (!bitmap ·)) ∧
    vectors new = ((vectors index).zipIdx.filter fun v => !bitmap v.2).map (·.1)

/-- `MergeTwoIndices` appends the smaller index's vectors in order. -/
def AppendsInOrder (mergeTwoIndices : I → ℕ → I → ℕ → Option (I × ℕ)) (lindex : I) (lcount : ℕ)
    (sindex : I) (scount : ℕ) : Prop :=
  ∃ merged, mergeTwoIndices lindex lcount sindex scount = some (merged, lcount + scount) ∧
    vectors merged = vectors lindex ++ vectors sindex

variable {vectors} {k : Knowhere I V} {bitmap : ℕ → Bool} {count : ℕ}

theorem filterMap_range_filter {α : Type*} (l : List α) (p : ℕ → Bool) :
    ((List.range l.length).filter p).filterMap (fun i => l[i]?) =
      (l.zipIdx.filter fun a => p a.2).map (·.1) := by
  induction l using List.reverseRecOn with
  | nil => rfl
  | append_singleton l a ih =>
      have hcongr : ((List.range l.length).filter p).filterMap (fun i => (l ++ [a])[i]?) =
          ((List.range l.length).filter p).filterMap (fun i => l[i]?) := by
        refine List.filterMap_congr fun i hi => ?_
        have hlt := List.mem_range.mp (List.mem_filter.mp hi).1
        exact List.getElem?_append_left hlt
      rw [List.length_append, List.length_singleton, List.range_succ, List.filter_append,
        List.filterMap_append, hcongr, ih, List.zipIdx_append, List.filter_append, List.map_append]
      cases h : p l.length <;> simp [h]

/-- Where a row is left, `MergeIndex` does what is asked of it. -/
theorem mergeIndex_buildsInOrder {index : I} (hk : k.Lawful vectors)
    (hraw : k.hasRawData index = true) (hcount : (vectors index).length = count)
    (hleft : ∃ i < count, bitmap i = false) :
    BuildsInOrder vectors k.mergeIndex index bitmap count := by
  subst hcount
  obtain ⟨i, hi, hb⟩ := hleft
  have hne : (List.range (vectors index).length).filter (!bitmap ·) ≠ [] :=
    List.ne_nil_of_mem (List.mem_filter.mpr ⟨List.mem_range.mpr hi, by rw [hb]; rfl⟩)
  have hget := hk.getVectorByIds index ((List.range (vectors index).length).filter (!bitmap ·))
    fun i hi => List.mem_range.mp (List.mem_filter.mp hi).1
  refine ⟨k.build _, ?_, (hk.build _).trans (filterMap_range_filter _ (!bitmap ·))⟩
  rw [Knowhere.mergeIndex, hraw, hk.count, List.countP_eq_length_filter]
  dsimp only
  rw [hget]
  simp [hne]

/-- Where every row is masked, it fails. -/
theorem mergeIndex_eq_none {index : I} (h : ∀ i < count, bitmap i = true) :
    k.mergeIndex index bitmap count = none := by
  have hnil : (List.range count).filter (!bitmap ·) = [] := by
    rw [List.filter_eq_nil_iff]
    intro i hi
    simp [h i (List.mem_range.mp hi)]
  simp [Knowhere.mergeIndex, hnil]

theorem mergeTwoIndices_appendsInOrder {lindex sindex : I} (hk : k.Lawful vectors)
    (hl : k.hasRawData lindex = true) (hs : k.hasRawData sindex = true)
    (hle : (vectors sindex).length ≤ (vectors lindex).length) :
    AppendsInOrder vectors k.mergeTwoIndices lindex (vectors lindex).length sindex
      (vectors sindex).length := by
  have hget := hk.getVectorByIds sindex (List.range (vectors sindex).length)
    fun i hi => List.mem_range.mp hi
  have hall := filterMap_range_filter (vectors sindex) fun _ => true
  simp only [List.filter_true, List.zipIdx_map_fst] at hall
  rw [hall] at hget
  obtain ⟨merged, hadd, hvec⟩ := hk.add lindex (vectors sindex)
  have hcount : k.count merged = (vectors lindex).length + (vectors sindex).length := by
    rw [hk.count, hvec, List.length_append]
  refine ⟨merged, ?_, hvec⟩
  rw [Knowhere.mergeTwoIndices, hl, hs, hk.count, hk.count, hget]
  simp [hle.not_gt, hadd, hcount]

theorem lawful_listKnowhere : (listKnowhere (V := V)).Lawful id where
  count := fun _ => rfl
  getVectorByIds := fun _ _ _ => rfl
  build := fun _ => rfl
  add := fun index vs => ⟨index ++ vs, rfl, rfl⟩

end Index

/-- What a rebuild is to write for `f`. -/
structure KeepsLive (vectors : I → List V) (f : SegmentFile) (index : I)
    (snapshot fresh : ℕ → Bool) (p : PrepareFlushMetaData I) : Prop where
  map : p.map = (f.survivors snapshot).map (·.1)
  /-- The row was masked in the reload only. -/
  bitmap : ∀ w, p.bitmap w = true ↔ ∃ r ∈ (f.survivors snapshot)[w]?, fresh r.2 = true
  deleteCount : p.deleteCount = countBits p.bitmap p.map.length
  sids : (p.offsets.map (·.sid)).Perm (List.range' f.startSid (f.endSid + 1 - f.startSid))
  slices : ∀ version, ∀ o ∈ p.offsets, (p.file version).slice o =
    ((f.survivors snapshot).filter fun r => r.1.sid = o.sid).map (·.1)
  rows : p.validRows = p.map.length
  vectors : vectors p.index = ((vectors index).zipIdx.filter fun v => !snapshot v.2).map (·.1)

/-- What a merge of `f` and `g` is to write, with the bits of `f'` and `g'`. -/
structure KeepsAll (vectors : I → List V) (f g f' g' : SegmentFile) (i j : I)
    (p : PrepareFlushMetaData I) : Prop where
  map : p.map = if g.mapping.length ≤ f.mapping.length then f.mapping ++ g.mapping
    else g.mapping ++ f.mapping
  bitmap : ∀ k, p.bitmap k = true ↔
    if g.mapping.length ≤ f.mapping.length then
      (k < f.mapping.length ∧ f'.bitmap k = true) ∨
        ∃ m < g.mapping.length, k = f.mapping.length + m ∧ g'.bitmap m = true
    else
      (k < g.mapping.length ∧ g'.bitmap k = true) ∨
        ∃ m < f.mapping.length, k = g.mapping.length + m ∧ f'.bitmap m = true
  deleteCount : p.deleteCount = countBits p.bitmap p.map.length
  sids : (p.offsets.map (·.sid)).Perm (List.range' f.startSid (g.endSid + 1 - f.startSid))
  slices : ∀ version, ∀ o ∈ p.offsets, (p.file version).slice o =
    (if o.sid ≤ f.endSid then f else g).mapping.filter (·.sid = o.sid)
  rows : p.validRows = p.map.length
  vectors : vectors p.index = if g.mapping.length ≤ f.mapping.length then vectors i ++ vectors j
    else vectors j ++ vectors i

section Rebuild

variable {p : ℕ → Bool}

theorem compact_zipIdx {α : Type*} (l : List α) (n : ℕ) :
    compact p n (l.zipIdx n) = (l.zipIdx n).filter fun a => !p a.2 := by
  induction l generalizing n with
  | nil => rfl
  | cons a l ih =>
      rw [List.zipIdx_cons, compact, List.filter_cons, ih]
      cases p n <;> rfl

theorem map_compact {α β : Type*} (g : α → β) (l : List α) (n : ℕ) :
    (compact p n l).map g = compact p n (l.map g) := by
  induction l generalizing n with
  | nil => rfl
  | cons a l ih =>
      rw [List.map_cons, compact, compact, ← ih]
      split <;> rfl

variable {f : SegmentFile} {snapshot fresh : ℕ → Bool} {tids : SegmentId → List Tid}

theorem SegmentFile.survivors_eq : f.survivors snapshot = compact snapshot 0 f.mapping.zipIdx :=
  (compact_zipIdx _ _).symm

theorem SegmentFile.survivors_map : (f.survivors snapshot).map (·.1) =
    compact snapshot 0 f.mapping := by
  rw [survivors_eq, map_compact, List.zipIdx_map_fst]

/-- The rows of the rebuilt file and where they come from. -/
theorem SegmentFile.mem_survivors_getElem? {w : ℕ} {r : MappedRow × ℕ} :
    (f.survivors snapshot)[w]? = some r ↔
      f.mapping[r.2]? = some r.1 ∧ snapshot r.2 = false ∧ kept snapshot r.2 = w := by
  obtain ⟨row, j⟩ := r
  rw [survivors_eq]
  constructor
  · intro h
    obtain ⟨k, hs, hk, hw⟩ := exists_of_getElem?_compact h
    simp only [Nat.zero_add, kept_zero] at hs hw
    rw [List.getElem?_zipIdx, Option.map_eq_some_iff] at hk
    obtain ⟨row', hrow, heq⟩ := hk
    rw [Nat.zero_add] at heq
    obtain ⟨rfl, rfl⟩ := Prod.mk.inj heq
    exact ⟨hrow, hs, hw⟩
  · rintro ⟨hrow, hs, rfl⟩
    dsimp only at hrow hs ⊢
    rw [getElem?_compact _ hs, List.getElem?_zipIdx, hrow]
    simp

theorem kept_eq_countP (n : ℕ) : kept p n = (List.range n).countP (!p ·) := by
  induction n with
  | zero => rfl
  | succ n ih =>
      rw [kept_succ, ih, List.range_succ, List.countP_append]
      cases h : p n <;> simp [h]

theorem kept_eq_self_iff (n : ℕ) : kept p n = n ↔ ∀ i < n, p i = false := by
  have hlen : (List.range n).countP (!p ·) = (List.range n).length ↔ _ := List.countP_eq_length
  rw [List.length_range, ← kept_eq_countP] at hlen
  rw [hlen]
  simp

/-- A rebuild that drops no row leaves the rows where they are, with the bits read again. -/
theorem rebuild_of_length_le {f : SegmentFile} {snapshot fresh : ℕ → Bool} {version : ℕ}
    (ht : Tiles 0 f.offsets f.mapping.length)
    (hl : f.mapping.length ≤ (f.rebuild snapshot fresh version).mapping.length) :
    (f.rebuild snapshot fresh version).mapping = f.mapping ∧
      ∀ k < f.mapping.length, fresh k = true →
        (f.rebuild snapshot fresh version).bitmap k = true := by
  have hmap : (f.rebuild snapshot fresh version).mapping = compact snapshot 0 f.mapping :=
    rebuild_mapping ht
  rw [hmap] at hl ⊢
  have heq : compact snapshot 0 f.mapping = f.mapping := (compact_sublist 0 _).eq_of_length_le hl
  refine ⟨heq, fun k hk hf => ?_⟩
  have hlen := length_compact (p := snapshot) 0 f.mapping
  rw [heq, kept_zero, Nat.add_zero, Nat.zero_add] at hlen
  have hnone := (kept_eq_self_iff _).mp hlen.symm
  have hself : kept snapshot k = k :=
    (kept_eq_self_iff k).mpr fun i hi => hnone i (hi.trans hk)
  exact ((rebuild_copied snapshot fresh ht).bitmap k).mpr ⟨k, hk, hnone k hk, hself, hf⟩

end Rebuild

section Merge

variable {tids : SegmentId → List Tid} {f g f' g' : SegmentFile}

theorem isSlotSet_mergedBitmap {larger smaller : ℕ → Bool} {m n k : ℕ} :
    isSlotSet (mergedBitmap larger smaller m n) k = true ↔
      (k < m ∧ larger k = true) ∨ ∃ i < n, k = m + i ∧ smaller i = true := by
  have hsize : (zeros (m + n)).length = (m + n + 7) / 8 := by
    rw [zeros, List.length_replicate, bitmapSize]
  have hbytes : m + n ≤ 8 * (zeros (m + n)).length := by
    rw [hsize]
    omega
  rw [mergedBitmap, isSlotSet_clearStray (by simp [hsize, bitmapSize]),
    isSlotSet_copyBits (by simpa using hbytes), isSlotSet_copyBits (by omega), isSlotSet_zeros]
  constructor
  · rintro ⟨(h | ⟨i, hi, hl, rfl⟩) | ⟨i, hi, hs, rfl⟩, -⟩
    · cases h
    · rw [Nat.zero_add]
      exact .inl ⟨hi, hl⟩
    · exact .inr ⟨i, hi, rfl, hs⟩
  · rintro (⟨hk, hl⟩ | ⟨i, hi, rfl, hs⟩)
    · exact ⟨.inl (.inr ⟨k, hk, hl, (Nat.zero_add k).symm⟩), by omega⟩
    · exact ⟨.inr ⟨i, hi, hs, rfl⟩, by omega⟩

theorem join_bitmap {start last : SegmentId} {version k : ℕ} :
    (join f g start last version).bitmap k = true ↔ (k < f.mapping.length ∧ f.bitmap k = true) ∨
      ∃ i < g.mapping.length, k = f.mapping.length + i ∧ g.bitmap i = true := by
  simp only [SegmentFile.join]
  constructor
  · intro h
    split at h
    case isTrue hk => exact .inl ⟨hk, h⟩
    case isFalse hk =>
      rw [Bool.and_eq_true, decide_eq_true_eq] at h
      exact .inr ⟨k - f.mapping.length, by omega, by omega, h.2⟩
  · rintro (⟨hk, hl⟩ | ⟨i, hi, rfl, hs⟩)
    · rwa [if_pos hk]
    · rw [if_neg (by omega), Nat.add_sub_cancel_left, hs, Bool.and_true, decide_eq_true_eq]
      omega

/-- The bytes written are the bits of the merged file. -/
theorem isSlotSet_join {start last : SegmentId} {version : ℕ} :
    isSlotSet (mergedBitmap f.bitmap g.bitmap f.mapping.length g.mapping.length) =
      (join f g start last version).bitmap := by
  funext k
  rw [Bool.eq_iff_iff, isSlotSet_mergedBitmap, join_bitmap]

/-- The rows of a file belong to its range. -/
theorem SegmentFile.Descends.sid_mem (h : f.Descends tids) {r : MappedRow} (hr : r ∈ f.mapping) :
    f.startSid ≤ r.sid ∧ r.sid ≤ f.endSid := by
  obtain ⟨i, hi⟩ := List.mem_iff_getElem?.mp hr
  obtain ⟨o, ho, hlo, hhi⟩ := h.tiles.exists_mem (Nat.zero_le i)
    (List.getElem?_eq_some_iff.mp hi).1
  have hsid := (h.sid_eq_iff ho hi).mpr ⟨hlo, hhi⟩
  have hm : o.sid ∈ f.offsets.map (·.sid) := List.mem_map_of_mem ho
  rw [h.sids.mem_iff, List.mem_range'_1] at hm
  rw [hsid]
  have := h.range
  lia

/-- Of a segment id, one of the two files has all rows. -/
theorem SegmentFile.Descends.filter_merge (hf : f.Descends tids) (hg : g.Descends tids)
    (hadj : f.endSid + 1 = g.startSid) (version : ℕ) (sid : SegmentId) :
    (f.merge g version).mapping.filter (·.sid = sid) =
      (if sid ≤ f.endSid then f else g).mapping.filter (·.sid = sid) := by
  have hgone : sid ≤ f.endSid → g.mapping.filter (·.sid = sid) = [] := by
    intro hle
    rw [List.filter_eq_nil_iff]
    intro r hr heq
    have := hg.sid_mem hr
    rw [decide_eq_true_eq] at heq
    lia
  have hfone : ¬ sid ≤ f.endSid → f.mapping.filter (·.sid = sid) = [] := by
    intro hlt
    rw [List.filter_eq_nil_iff]
    intro r hr heq
    have := hf.sid_mem hr
    rw [decide_eq_true_eq] at heq
    lia
  unfold SegmentFile.merge SegmentFile.join
  split
  · rw [List.filter_append]
    split
    case isTrue h => rw [hgone h, List.append_nil]
    case isFalse h => rw [hfone h, List.nil_append]
  · rw [List.filter_append]
    split
    case isTrue h => rw [hgone h, List.nil_append]
    case isFalse h => rw [hfone h, List.append_nil]

/-- The files written are those of `merge`, from the subversions that are reloaded. -/
theorem mergeAdjacentSegmentsPool_file {mergeTwoIndices : I → ℕ → I → ℕ → Option (I × ℕ)}
    {i j merged : I} {count n n' : ℕ} {b b' : ℕ → Bool}
    (hm : (if g.mapping.length ≤ f.mapping.length then
        mergeTwoIndices i f.mapping.length j g.mapping.length
      else mergeTwoIndices j g.mapping.length i f.mapping.length) = some (merged, count)) :
    ∃ p, mergeAdjacentSegmentsPool mergeTwoIndices f g i j (f.setBitmap b n) (g.setBitmap b' n') =
        some p ∧ p.index = merged ∧ p.validRows = count ∧
      ∀ version, p.file version = (f.setBitmap b n).merge (g.setBitmap b' n') version := by
  unfold mergeAdjacentSegmentsPool SegmentFile.merge
  by_cases hle : g.mapping.length ≤ f.mapping.length
  · simp only [hle, if_true, setBitmap_mapping] at hm ⊢
    refine ⟨_, by rw [hm]; rfl, rfl, rfl, fun version => ?_⟩
    have hb : _ = (join (f.setBitmap b n) (g.setBitmap b' n') f.startSid g.endSid version).bitmap :=
      isSlotSet_join
    simp only [setBitmap_mapping] at hb
    rw [PrepareFlushMetaData.file, hb]
    rfl
  · simp only [hle, if_false, setBitmap_mapping] at hm ⊢
    refine ⟨_, by rw [hm]; rfl, rfl, rfl, fun version => ?_⟩
    have hb : _ = (join (g.setBitmap b' n') (f.setBitmap b n) f.startSid g.endSid version).bitmap :=
      isSlotSet_join
    simp only [setBitmap_mapping] at hb
    rw [PrepareFlushMetaData.file, hb, Nat.add_comm]
    rfl

/-- A merge keeps all rows, with the bits as reloaded. -/
theorem merge_keepsAll (vectors : I → List V)
    (mergeTwoIndices : I → ℕ → I → ℕ → Option (I × ℕ)) (tids : SegmentId → List Tid)
    (f g : SegmentFile) (i j : I) (ms ms' : List ℕ) (hf : Chain tids f) (hg : Chain tids g)
    (hadj : f.endSid + 1 = g.startSid) (hms : ∀ m ∈ ms, m < f.mapping.length)
    (hms' : ∀ m ∈ ms', m < g.mapping.length)
    (hm : if g.mapping.length ≤ f.mapping.length then
        AppendsInOrder vectors mergeTwoIndices i f.mapping.length j g.mapping.length
      else AppendsInOrder vectors mergeTwoIndices j g.mapping.length i f.mapping.length) :
    ∃ p, mergeAdjacentSegmentsPool mergeTwoIndices f g i j (f.markRows ms) (g.markRows ms') =
        some p ∧
      KeepsAll vectors f g (f.markRows ms) (g.markRows ms') i j p := by
  -- The call succeeds whichever of the two is the larger.
  obtain ⟨merged, hcall, hvec⟩ : ∃ merged, (if g.mapping.length ≤ f.mapping.length then
        mergeTwoIndices i f.mapping.length j g.mapping.length
      else mergeTwoIndices j g.mapping.length i f.mapping.length) =
        some (merged, f.mapping.length + g.mapping.length) ∧
      vectors merged = if g.mapping.length ≤ f.mapping.length then vectors i ++ vectors j
        else vectors j ++ vectors i := by
    split
    case isTrue hle =>
      rw [if_pos hle] at hm
      exact hm
    case isFalse hle =>
      rw [if_neg hle, AppendsInOrder, Nat.add_comm] at hm
      exact hm
  have hmarked := (hf.markRows ms hms).merge (hg.markRows ms' hms') hadj 0
  obtain ⟨p, hp, rfl, hrows, hfile⟩ := mergeAdjacentSegmentsPool_file hcall
  refine ⟨p, hp, ?_⟩
  have hfile : ∀ version, p.file version = (f.markRows ms).merge (g.markRows ms') version := hfile
  have hmap : p.map = ((f.markRows ms).merge (g.markRows ms') 0).mapping :=
    congrArg SegmentFile.mapping (hfile 0)
  have hlen : p.map.length = f.mapping.length + g.mapping.length := by
    rw [hmap, SegmentFile.merge]
    split
    · exact List.length_append
    · exact List.length_append.trans (Nat.add_comm _ _)
  constructor
  case map =>
    rw [hmap, SegmentFile.merge, apply_ite SegmentFile.mapping]
    rfl
  case bitmap =>
    intro k
    have hb : p.bitmap = ((f.markRows ms).merge (g.markRows ms') 0).bitmap :=
      congrArg SegmentFile.bitmap (hfile 0)
    rw [hb, SegmentFile.merge]
    split
    case isTrue hle =>
      have hle : g.mapping.length ≤ f.mapping.length := hle
      rw [if_pos hle, join_bitmap]
      rfl
    case isFalse hle =>
      have hle : ¬ g.mapping.length ≤ f.mapping.length := hle
      rw [if_neg hle, join_bitmap]
      rfl
  case deleteCount =>
    have hc := hmarked.counted
    rw [← hfile 0] at hc
    exact hc
  case sids =>
    have hs := hmarked.descends.sids
    rw [merge_startSid, merge_endSid, ← hfile 0] at hs
    exact hs
  case slices =>
    intro version o ho
    have hd := ((hf.markRows ms hms).merge (hg.markRows ms' hms') hadj version).descends
    rw [← hfile version] at hd
    have hone := (hf.markRows ms hms).descends.filter_merge (hg.markRows ms' hms').descends hadj
      version o.sid
    have hsame : (if o.sid ≤ f.endSid then f.markRows ms else g.markRows ms').mapping =
        (if o.sid ≤ f.endSid then f else g).mapping := by
      split
      · rfl
      · rfl
    rw [hd.slice_eq_filter ho, hfile version, ← hsame]
    exact hone
  case rows => rw [hrows, hlen]
  case vectors => exact hvec

theorem merge_keepsAll_demo :
    ∃ p, mergeAdjacentSegmentsPool listKnowhere.mergeTwoIndices demoLower demoUpper [70] [80, 90]
        (demoLower.markRows []) (demoUpper.markRows [1]) = some p ∧
      KeepsAll id demoLower demoUpper (demoLower.markRows []) (demoUpper.markRows [1]) [70]
        [80, 90] p :=
  merge_keepsAll id listKnowhere.mergeTwoIndices demoRows _ _ _ _ _ _ chain_demoLower
    chain_demoUpper rfl (by decide) (by decide) ⟨[80, 90, 70], rfl, rfl⟩

end Merge

end VectorLsm
