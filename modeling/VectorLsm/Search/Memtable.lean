import VectorLsm.Memtable.Basic
import VectorLsm.Search.Combine
import VectorLsm.Search.Library

/-! # Searching a memtable

A growing memtable is searched in bulk up to `max_ready_id` and slot by slot from there on, a
sealed one in bulk over all slots that were handed out. The bulk search takes the rows to be
packed, takes every slot to be written, and returns as many results as it has slots.
-/

namespace VectorLsm.Search

open TopK

/-- The fields of `ConcurrentMemTableData` that say which slots there are and where their vectors
lie. -/
structure SlotTable where
  dim : ℕ
  /-- The size of a tuple over its dimensions. -/
  elemSize : ℕ
  elemSize_pos : 0 < elemSize
  capacity : ℕ
  currentSize : ℕ
  /-- `none` is the initial `UINT32_MAX`. -/
  maxReadyId : Option ℕ
  ready : ℕ → Bool
  bitmap : ℕ → Bool

/-- What the slots hold: `tids`, with what lies around the array, and the vectors as words of four
bytes. -/
structure Contents where
  tids : ℤ → ℤ
  blob : ℕ → BitVec 32

/-- `topKVector`. -/
structure TopKVector (D : Type) where
  numResults : ℕ
  distances : List D
  vids : List ℤ
  deriving DecidableEq, Repr

/-- What a search returns, and the positions at which it read `tids`. -/
structure MemtableResult (D : Type) where
  pairs : List (DistancePair D)
  reads : List ℤ

namespace SlotTable

variable (t : SlotTable) (c : Contents)

def validNum : ℕ := min t.currentSize t.capacity

/-- `MAXALIGN`. -/
def maxAlign (n : ℕ) : ℕ := (n + 7) / 8 * 8

def vecBytesPerRow : ℕ := t.dim * t.elemSize

def stride : ℕ := maxAlign t.vecBytesPerRow

/-- The words at `VEC_PTR_AT`. -/
def vecPtrAt (i : ℕ) : List (BitVec 32) :=
  (List.range t.dim).map fun j => c.blob (i * (t.stride / 4) + j)

/-- Row `i` of an array of `dim` floats a row. -/
def packedRow (i : ℕ) : List (BitVec 32) :=
  (List.range t.dim).map fun j => c.blob (i * t.dim + j)

/-- The slots from `lo` on that are published and not masked. -/
def readySlots (lo hi : ℕ) : List ℕ :=
  (List.range' lo (hi - lo)).filter fun i => t.ready i && !t.bitmap i

end SlotTable

variable {D : Type} [LinearOrder D]

section Model

variable (lib : Library D) (distance : List (BitVec 32) → D) (t : SlotTable) (c : Contents)

/-- A slot's own distance and tid. -/
def pairAt (i : ℕ) : DistancePair D := ⟨distance (t.vecPtrAt c i), c.tids i⟩

/-- `qsort` by `compare_distance`. -/
def sortPairs (pairs : List (DistancePair D)) : List (DistancePair D) :=
  pairs.mergeSort fun p q => decide (p.distance ≤ q.distance)

/-- `BruteForceSearch` over the vectors of the memtable. -/
def bruteForceSearch (count k : ℕ) : TopKVector D :=
  match lib (fun i => distance (t.packedRow c i)) t.bitmap count k with
  | some (distances, ids) =>
      let actualK := min k count
      ⟨actualK, distances.take actualK, ids.take actualK⟩
  | none => ⟨0, [], []⟩

/-- The conversion of vector indexes to tids. -/
def TopKVector.toPairs (r : TopKVector D) : List (DistancePair D) :=
  List.zipWith (fun d vid => ⟨d, c.tids vid⟩) r.distances r.vids

def searchMemtableCommon (k : ℕ) (checkReady : Bool) : MemtableResult D :=
  let validNum := t.validNum
  if validNum = 0 then ⟨[], []⟩
  else if checkReady then
    match t.maxReadyId with
    | none =>
        let slots := t.readySlots 0 validNum
        ⟨(sortPairs (slots.map (pairAt distance t c))).take k, slots.map Nat.cast⟩
    | some maxReady =>
        let readyLimit := min (maxReady + 1) validNum
        let remaining := t.readySlots readyLimit validNum
        let remainingPairs := sortPairs (remaining.map (pairAt distance t c))
        let result := bruteForceSearch lib distance t c readyLimit k
        -- with two empty lists the early return is what the merge gives
        ⟨mergeTopKPairs k remainingPairs (result.toPairs c), remaining.map Nat.cast ++ result.vids⟩
  else
    let result := bruteForceSearch lib distance t c validNum k
    ⟨result.toPairs c, result.vids⟩

/-- The rows a search is to look at. -/
def publishedRows : List (DistancePair D) :=
  (t.readySlots 0 t.validNum).map (pairAt distance t c)

end Model

/-- The result is the `k` nearest published rows that are not masked, and no tid was read but of
a published slot. -/
structure MemtableResult.Exact (r : MemtableResult D) (distance : List (BitVec 32) → D)
    (t : SlotTable) (c : Contents) (k : ℕ) : Prop where
  nearest : Nearest DistancePair.distance k (publishedRows distance t c) r.pairs
  reads : ∀ pos ∈ r.reads, ∃ i < t.validNum, t.ready i = true ∧ pos = i

/-- Whatever the slots hold, whatever the query, a search that rests on an exact library is
exact. -/
def SearchExact (t : SlotTable) (k : ℕ) (checkReady : Bool) : Prop :=
  ∀ (D : Type) [LinearOrder D] (distance : List (BitVec 32) → D) (lib : Library D) (c : Contents),
    lib.Exact → (searchMemtableCommon lib distance t c k checkReady).Exact distance t c k

/-- The slots that are searched in bulk. -/
def SlotTable.bulk (t : SlotTable) (checkReady : Bool) : ℕ :=
  if checkReady then
    match t.maxReadyId with
    | none => 0
    | some maxReady => min (maxReady + 1) t.validNum
  else t.validNum

/-- What the bulk search takes for granted. -/
structure SlotTable.Searchable (t : SlotTable) (k : ℕ) (checkReady : Bool) : Prop where
  enough : min k (t.bulk checkReady) ≤ (unmasked t.bitmap (t.bulk checkReady)).length
  ready : ∀ i ∈ unmasked t.bitmap (t.bulk checkReady), t.ready i = true
  packed : ∀ i ∈ unmasked t.bitmap (t.bulk checkReady), i = 0 ∨ t.stride = 4 * t.dim

variable {t : SlotTable} {c : Contents} {lib : Library D} {distance : List (BitVec 32) → D}
variable {k : ℕ} {checkReady : Bool}

theorem sortPairs_ordered (pairs : List (DistancePair D)) :
    Ordered DistancePair.distance (sortPairs pairs) := by
  have htrans (a b c : DistancePair D) (hab : decide (a.distance ≤ b.distance) = true)
      (hbc : decide (b.distance ≤ c.distance) = true) : decide (a.distance ≤ c.distance) = true :=
    decide_eq_true ((of_decide_eq_true hab).trans (of_decide_eq_true hbc))
  have htotal (a b : DistancePair D) :
      (decide (a.distance ≤ b.distance) || decide (b.distance ≤ a.distance)) = true := by
    simpa using le_total a.distance b.distance
  exact (List.pairwise_mergeSort htrans htotal pairs).imp of_decide_eq_true

theorem sortPairs_perm (pairs : List (DistancePair D)) : pairs.Perm (sortPairs pairs) :=
  (List.mergeSort_perm pairs _).symm

theorem bulk_le (t : SlotTable) (checkReady : Bool) : t.bulk checkReady ≤ t.validNum := by
  unfold SlotTable.bulk
  split
  · split
    · exact Nat.zero_le _
    · exact min_le_right _ _
  · exact le_rfl

theorem vecPtrAt_eq {i : ℕ} (h : i = 0 ∨ t.stride = 4 * t.dim) :
    t.packedRow c i = t.vecPtrAt c i := by
  rcases h with rfl | h
  · simp [SlotTable.packedRow, SlotTable.vecPtrAt]
  · rw [SlotTable.packedRow, SlotTable.vecPtrAt, h, Nat.mul_div_cancel_left _ (by decide)]

theorem readySlots_append {n : ℕ} (hn : n ≤ t.validNum) :
    t.readySlots 0 n ++ t.readySlots n t.validNum = t.readySlots 0 t.validNum := by
  have happ := List.range'_append_1 (s := 0) (m := n) (n := t.validNum - n)
  rw [Nat.zero_add, Nat.add_sub_cancel' hn] at happ
  unfold SlotTable.readySlots
  rw [← List.filter_append, Nat.sub_zero, Nat.sub_zero, happ]

theorem mem_readySlots {lo hi i : ℕ} : i ∈ t.readySlots lo hi ↔
    lo ≤ i ∧ i < hi ∧ t.ready i = true ∧ t.bitmap i = false := by
  rw [SlotTable.readySlots, List.mem_filter, List.mem_range'_1, Bool.and_eq_true,
    Bool.not_eq_true', and_assoc]
  exact and_congr_right fun _ => and_congr_left fun _ => by omega

/-- Where every slot is published, the mask alone says which rows count. -/
theorem readySlots_eq_unmasked {n : ℕ} (h : ∀ i ∈ unmasked t.bitmap n, t.ready i = true) :
    t.readySlots 0 n = unmasked t.bitmap n := by
  rw [SlotTable.readySlots, unmasked, Nat.sub_zero, ← List.range_eq_range']
  refine List.filter_congr fun i hi => ?_
  cases hb : t.bitmap i with
  | true => simp
  | false => simp [h i (mem_unmasked.mpr ⟨List.mem_range.mp hi, hb⟩)]

omit [LinearOrder D] in
theorem zipWith_toPairs (dist : ℕ → D) (best : List ℕ) :
    List.zipWith (fun d vid => (⟨d, c.tids vid⟩ : DistancePair D)) (best.map dist)
      (best.map Nat.cast) = best.map fun i => ⟨dist i, c.tids i⟩ := by
  rw [List.zipWith_map, List.zipWith_self]

/-- With enough rows left, the bulk search returns the `k` nearest of them and no padding. -/
theorem bruteForceSearch_spec (distance : List (BitVec 32) → D) (c : Contents)
    (hlib : lib.Exact) {n : ℕ} (hn : 0 < n)
    (henough : min k n ≤ (unmasked t.bitmap n).length) :
    ∃ best, Nearest (fun i => distance (t.packedRow c i)) k (unmasked t.bitmap n) best ∧
      bruteForceSearch lib distance t c n k =
        ⟨min k n, best.map fun i => distance (t.packedRow c i), best.map Nat.cast⟩ := by
  obtain ⟨best, ⟨distances, ids⟩, hans, ha⟩ :=
    hlib (fun i => distance (t.packedRow c i)) t.bitmap n k hn
  have hlen : best.length = min k n := by
    have := ha.nearest.length_eq
    have := length_unmasked_le t.bitmap n
    omega
  refine ⟨best, ha.nearest, ?_⟩
  have hd := ha.distances
  have hi := ha.ids
  simp only at hd hi
  rw [bruteForceSearch, hans]
  simp only [hi]
  rw [← hlen, hd, List.take_left' (List.length_map _)]

/-- The pairs and the reads of a bulk search that takes nothing for granted wrongly. -/
theorem bruteForceSearch_exact (distance : List (BitVec 32) → D) (c : Contents)
    (hlib : lib.Exact) {n : ℕ} (hn : 0 < n)
    (henough : min k n ≤ (unmasked t.bitmap n).length)
    (hready : ∀ i ∈ unmasked t.bitmap n, t.ready i = true)
    (hpacked : ∀ i ∈ unmasked t.bitmap n, i = 0 ∨ t.stride = 4 * t.dim) :
    Nearest DistancePair.distance k ((t.readySlots 0 n).map (pairAt distance t c))
      ((bruteForceSearch lib distance t c n k).toPairs c) ∧
    ∀ pos ∈ (bruteForceSearch lib distance t c n k).vids,
      ∃ i < n, t.ready i = true ∧ pos = i := by
  obtain ⟨best, hbest, heq⟩ := bruteForceSearch_spec distance c hlib hn henough
  have hmem (i : ℕ) (hi : i ∈ best) : i ∈ unmasked t.bitmap n := hbest.subset hi
  have hpairs : (bruteForceSearch lib distance t c n k).toPairs c =
      best.map (pairAt distance t c) := by
    rw [heq, TopKVector.toPairs, zipWith_toPairs]
    refine List.map_congr_left fun i hi => ?_
    rw [pairAt, vecPtrAt_eq (hpacked i (hmem i hi))]
  constructor
  · rw [hpairs, readySlots_eq_unmasked hready]
    exact hbest.map _ fun i hi => by rw [pairAt, vecPtrAt_eq (hpacked i hi)]
  · intro pos hpos
    rw [heq] at hpos
    obtain ⟨i, hi, rfl⟩ := List.mem_map.mp hpos
    exact ⟨i, (mem_unmasked.mp (hmem i hi)).1, hready i (hmem i hi), rfl⟩

theorem exact_of_none (h : t.maxReadyId = none) :
    (searchMemtableCommon lib distance t c k true).Exact distance t c k := by
  unfold searchMemtableCommon
  simp only [h, ↓reduceIte]
  split
  · rename_i h0
    refine ⟨?_, fun pos hpos => absurd hpos List.not_mem_nil⟩
    rw [publishedRows, h0]
    exact Nearest.self List.Pairwise.nil (Nat.zero_le _)
  · refine ⟨nearest_take (sortPairs_ordered _) (sortPairs_perm _), fun pos hpos => ?_⟩
    obtain ⟨i, hi, rfl⟩ := List.mem_map.mp hpos
    obtain ⟨_, hlt, hready, _⟩ := mem_readySlots.mp hi
    exact ⟨i, hlt, hready, rfl⟩

theorem exact_of_some {m : ℕ} (hlib : lib.Exact) (h : t.maxReadyId = some m)
    (hs : t.Searchable k true) :
    (searchMemtableCommon lib distance t c k true).Exact distance t c k := by
  have hbulk : t.bulk true = min (m + 1) t.validNum := by simp [SlotTable.bulk, h]
  obtain ⟨henough, hready, hpacked⟩ := hs
  rw [hbulk] at henough hready hpacked
  unfold searchMemtableCommon
  simp only [h, ↓reduceIte]
  split
  · rename_i h0
    refine ⟨?_, fun pos hpos => absurd hpos List.not_mem_nil⟩
    rw [publishedRows, h0]
    exact Nearest.self List.Pairwise.nil (Nat.zero_le _)
  · obtain ⟨hnear, hreads⟩ := bruteForceSearch_exact distance c hlib
      (show 0 < min (m + 1) t.validNum by omega) henough hready hpacked
    set n := min (m + 1) t.validNum
    set remaining := (t.readySlots n t.validNum).map (pairAt distance t c)
    have hle : n ≤ t.validNum := min_le_right _ _
    constructor
    · have hrem : Nearest DistancePair.distance (max k remaining.length) remaining
          (sortPairs remaining) := by
        have hp := sortPairs_perm remaining
        exact (Nearest.self (sortPairs_ordered remaining)
          (hp.length_eq ▸ le_max_right k remaining.length)).perm hp.symm
      have := hrem.merge hnear (le_max_left k _) le_rfl
      rw [← mergeTopKPairs_eq] at this
      refine this.perm ?_
      rw [publishedRows, ← readySlots_append hle, List.map_append]
      exact List.perm_append_comm
    · intro pos hpos
      rcases List.mem_append.mp hpos with hpos | hpos
      · obtain ⟨i, hi, rfl⟩ := List.mem_map.mp hpos
        obtain ⟨_, hlt, hready, _⟩ := mem_readySlots.mp hi
        exact ⟨i, hlt, hready, rfl⟩
      · obtain ⟨i, hlt, hready, rfl⟩ := hreads pos hpos
        exact ⟨i, hlt.trans_le hle, hready, rfl⟩

theorem exact_of_sealed (hlib : lib.Exact) (hs : t.Searchable k false) :
    (searchMemtableCommon lib distance t c k false).Exact distance t c k := by
  unfold searchMemtableCommon
  simp only [Bool.false_eq_true, ↓reduceIte]
  split
  · rename_i h0
    refine ⟨?_, fun pos hpos => absurd hpos List.not_mem_nil⟩
    rw [publishedRows, h0]
    exact Nearest.self List.Pairwise.nil (Nat.zero_le _)
  · obtain ⟨hnear, hreads⟩ := bruteForceSearch_exact distance c hlib
      (show 0 < t.validNum by omega) hs.enough hs.ready hs.packed
    exact ⟨hnear, hreads⟩

theorem Searchable.exact (hs : t.Searchable k checkReady) : SearchExact t k checkReady := by
  intro D _ distance lib c hlib
  cases checkReady with
  | false => exact exact_of_sealed hlib hs
  | true =>
      cases h : t.maxReadyId with
      | none => exact exact_of_none h
      | some m => exact exact_of_some hlib h hs

/-- What the bulk search reads is read. -/
theorem vids_subset_reads (hpos : 0 < t.bulk checkReady) {pos : ℤ}
    (h : pos ∈ (bruteForceSearch lib distance t c (t.bulk checkReady) k).vids) :
    pos ∈ (searchMemtableCommon lib distance t c k checkReady).reads := by
  have hv : t.validNum ≠ 0 := by
    have := bulk_le t checkReady
    omega
  unfold searchMemtableCommon
  rw [if_neg hv]
  cases checkReady with
  | false => exact h
  | true =>
      cases hm : t.maxReadyId with
      | none => simp [SlotTable.bulk, hm] at hpos
      | some m =>
          have hbulk : t.bulk true = min (m + 1) t.validNum := by simp [SlotTable.bulk, hm]
          rw [hbulk] at h
          simp only [↓reduceIte]
          exact List.mem_append_right _ h

/-- Slots that hold nothing but their number as tid. -/
def plainContents : Contents := ⟨id, fun _ => 1⟩

theorem vids_sorting (pad : D) (i n : ℕ) :
    (bruteForceSearch (sorting pad i) distance t c n k).vids =
      ((((unmasked t.bitmap n).mergeSort
          (before (fun j => distance (t.packedRow c j)) i)).take k).map Nat.cast ++
        List.replicate (k - (((unmasked t.bitmap n).mergeSort
          (before (fun j => distance (t.packedRow c j)) i)).take k).length) (-1)).take (min k n) :=
  rfl

theorem SearchExact.enough (h : SearchExact t k checkReady) :
    min k (t.bulk checkReady) ≤ (unmasked t.bitmap (t.bulk checkReady)).length := by
  by_contra hlt
  rw [not_le] at hlt
  set n := t.bulk checkReady with hn
  have hexact := h ℕ (fun _ => 0) (sorting 0 0) plainContents (sorting_exact 0 0)
  have hread : (-1 : ℤ) ∈
      (bruteForceSearch (sorting 0 0) (fun _ => 0) t plainContents n k).vids := by
    rw [vids_sorting, List.take_append, List.length_map, List.length_take, List.length_mergeSort,
      List.take_replicate]
    refine List.mem_append_right _ (List.mem_replicate.mpr ⟨?_, rfl⟩)
    omega
  obtain ⟨i, _, _, hi⟩ := hexact.reads _ (vids_subset_reads (by omega) hread)
  omega

theorem SearchExact.ready (hk : 0 < k) (h : SearchExact t k checkReady) :
    ∀ i ∈ unmasked t.bitmap (t.bulk checkReady), t.ready i = true := by
  intro i hi
  have hib := (mem_unmasked.mp hi).1
  have hexact := h ℕ (fun _ => 0) (sorting 0 i) plainContents (sorting_exact i 0)
  have hread : (i : ℤ) ∈
      (bruteForceSearch (sorting 0 i) (fun _ => 0) t plainContents (t.bulk checkReady) k).vids := by
    have hfirst := mem_take_sorted (fun _ => (0 : ℕ)) i hk hi fun _ _ => le_rfl
    rw [vids_sorting, List.take_append]
    refine List.mem_append_left _ ?_
    rw [List.take_of_length_le]
    · exact List.mem_map_of_mem hfirst
    · have := length_unmasked_le t.bitmap (t.bulk checkReady)
      rw [List.length_map, List.length_take, List.length_mergeSort]
      omega
  obtain ⟨j, _, hj, hij⟩ := hexact.reads _ (vids_subset_reads (by omega) hread)
  rwa [Int.ofNat_inj.mp hij]

/-- The distance of a row is its first word. -/
def firstWord (row : List (BitVec 32)) : ℕ := (row.headD 0).toNat

/-- Slot `i` is the nearest: the words are 1 but for the first one of its vector. -/
def nearestContents (t : SlotTable) (i : ℕ) : Contents :=
  ⟨id, fun o => if o = i * (t.stride / 4) then 0 else 1⟩

theorem firstWord_vecPtrAt (hd : 0 < t.dim) (i j : ℕ) :
    firstWord (t.vecPtrAt (nearestContents t i) j) =
      if j * (t.stride / 4) = i * (t.stride / 4) then 0 else 1 := by
  obtain ⟨d, hd⟩ : ∃ d, t.dim = d + 1 := ⟨t.dim - 1, by omega⟩
  rw [SlotTable.vecPtrAt, firstWord, hd, List.range_succ_eq_map]
  simp only [nearestContents, List.map_cons, List.headD_cons, Nat.add_zero]
  split
  · rfl
  · rfl

theorem firstWord_packedRow (hd : 0 < t.dim) (i j : ℕ) :
    firstWord (t.packedRow (nearestContents t i) j) =
      if j * t.dim = i * (t.stride / 4) then 0 else 1 := by
  obtain ⟨d, hd⟩ : ∃ d, t.dim = d + 1 := ⟨t.dim - 1, by omega⟩
  rw [SlotTable.packedRow, firstWord, hd, List.range_succ_eq_map]
  simp only [nearestContents, List.map_cons, List.headD_cons, Nat.add_zero]
  split
  · rfl
  · rfl

/-- Every pair comes from the bulk search or from a slot behind it. -/
theorem mem_pairs (hv : 0 < t.bulk checkReady) {p : DistancePair D}
    (h : p ∈ (searchMemtableCommon lib distance t c k checkReady).pairs) :
    p ∈ (bruteForceSearch lib distance t c (t.bulk checkReady) k).toPairs c ∨
      ∃ j, t.bulk checkReady ≤ j ∧ p = pairAt distance t c j := by
  have hne : t.validNum ≠ 0 := by
    have := bulk_le t checkReady
    omega
  unfold searchMemtableCommon at h
  rw [if_neg hne] at h
  cases checkReady with
  | false => exact Or.inl h
  | true =>
      cases hm : t.maxReadyId with
      | none => simp [SlotTable.bulk, hm] at hv
      | some m =>
          have hbulk : t.bulk true = min (m + 1) t.validNum := by simp [SlotTable.bulk, hm]
          simp only [hm, ↓reduceIte] at h
          rw [mergeTopKPairs_eq] at h
          rw [hbulk]
          rcases mem_merged.mp (List.mem_of_mem_take h) with h | h
          · obtain ⟨j, hj, rfl⟩ := List.mem_map.mp ((sortPairs_perm _).mem_iff.mpr h)
            exact Or.inr ⟨j, (mem_readySlots.mp hj).1, rfl⟩
          · exact Or.inl h

theorem SearchExact.packed (hk : 0 < k) (h : SearchExact t k checkReady) :
    ∀ i ∈ unmasked t.bitmap (t.bulk checkReady), i = 0 ∨ t.stride = 4 * t.dim := by
  intro i hi
  by_contra hne
  rw [not_or] at hne
  obtain ⟨hi0, hstride⟩ := hne
  have hib := (mem_unmasked.mp hi).1
  have hd : 0 < t.dim := by
    by_contra hz
    refine hstride ?_
    rw [show t.dim = 0 by omega, SlotTable.stride, SlotTable.vecBytesPerRow,
      show t.dim = 0 by omega, Nat.zero_mul]
    rfl
  have hs : t.stride / 4 ≠ t.dim ∧ 0 < t.stride / 4 := by
    have h8 : t.stride = (t.dim * t.elemSize + 7) / 8 * 8 := rfl
    have := Nat.mul_pos hd t.elemSize_pos
    omega
  have hready : i ∈ t.readySlots 0 t.validNum :=
    mem_readySlots.mpr
      ⟨Nat.zero_le _, hib.trans_le (bulk_le t _), h.ready hk i hi, (mem_unmasked.mp hi).2⟩
  obtain ⟨c, hstored, hpacked, htids⟩ : ∃ c : Contents,
      (∀ j, firstWord (t.vecPtrAt c j) =
        if j * (t.stride / 4) = i * (t.stride / 4) then 0 else 1) ∧
      (∀ j, firstWord (t.packedRow c j) = if j * t.dim = i * (t.stride / 4) then 0 else 1) ∧
      c.tids = id :=
    ⟨nearestContents t i, firstWord_vecPtrAt hd i, firstWord_packedRow hd i, rfl⟩
  have hexact := h ℕ firstWord (sorting 0 0) c (sorting_exact 0 0)
  have hmem : pairAt firstWord t c i ∈ publishedRows firstWord t c := List.mem_map_of_mem hready
  -- the true distance of slot `i` is 0, that of every other slot 1
  have hfound : pairAt firstWord t c i ∈
      (searchMemtableCommon (sorting 0 0) firstWord t c k checkReady).pairs := by
    rcases hexact.nearest.cases hmem with hin | ⟨hlen, hle⟩
    · exact hin
    · obtain ⟨x, hx⟩ := List.exists_mem_of_length_pos (hlen.symm ▸ hk)
      obtain ⟨j, _, rfl⟩ := List.mem_map.mp (hexact.nearest.subset hx)
      have hx0 := hle _ hx
      simp only [pairAt, hstored, if_true] at hx0
      split at hx0
      · rename_i hji
        rwa [Nat.eq_of_mul_eq_mul_right hs.2 hji] at hx
      · omega
  rcases mem_pairs (by omega) hfound with hbulk | ⟨j, hj, hij⟩
  · obtain ⟨best, _, heq⟩ := bruteForceSearch_spec firstWord c
      (sorting_exact 0 0) (show 0 < t.bulk checkReady by omega) h.enough
    rw [heq, TopKVector.toPairs, zipWith_toPairs] at hbulk
    obtain ⟨j, _, hij⟩ := List.mem_map.mp hbulk
    have hid : c.tids j = c.tids i := congrArg DistancePair.id hij
    have hdist := congrArg DistancePair.distance hij
    rw [htids] at hid
    rw [Int.ofNat_inj.mp hid] at hdist
    simp only [pairAt, hpacked, hstored, if_true] at hdist
    split at hdist
    · rename_i hii
      exact hs.1 (Nat.eq_of_mul_eq_mul_left (Nat.pos_of_ne_zero hi0) hii).symm
    · omega
  · have hid : c.tids i = c.tids j := congrArg DistancePair.id hij
    rw [htids] at hid
    have := Int.ofNat_inj.mp hid
    omega

section Growing

variable {V : Type}

/-- Every slot up to `max_ready_id` is published. -/
def ReadyUpTo (mt : ConcurrentMemTable V) : Prop :=
  ∀ m, mt.maxReadyId = some m → ∀ i ≤ m, mt.ready i = true

/-- The patterns of reserved, written, published and masked slots. -/
inductive SlotPattern : ConcurrentMemTable V → Prop
  | register (mt : ConcurrentMemTable V) (rel : Oid) (sid : SegmentId) (cap : ℕ) :
      SlotPattern (mt.register rel sid cap)
  | reserve {mt} : SlotPattern mt → SlotPattern mt.bump
  | store {mt} (i : ℕ) (r : Row V) (w : ℕ) : SlotPattern mt → SlotPattern (mt.store i r w)
  | publish {mt} (i : ℕ) : SlotPattern mt → SlotPattern (mt.publishSlotRelease i)
  | mask {mt} (i : ℕ) : SlotPattern mt → SlotPattern (mt.mask i)
  | setSealed {mt} : SlotPattern mt → SlotPattern mt.setSealed

variable {mt : ConcurrentMemTable V}

theorem extendReady_ready (ready : ℕ → Bool) (cap fuel m : ℕ) (h : ∀ i ≤ m, ready i = true) :
    ∀ i ≤ ConcurrentMemTable.extendReady ready cap fuel m, ready i = true := by
  induction fuel generalizing m with
  | zero => exact h
  | succ fuel ih =>
      unfold ConcurrentMemTable.extendReady
      split
      · rename_i hnext
        refine ih (m + 1) fun i hi => ?_
        rcases Nat.lt_or_eq_of_le hi with hlt | rfl
        · exact h i (by omega)
        · exact hnext.2
      · exact h

theorem ReadyUpTo.publish (h : ReadyUpTo mt) (i : ℕ) : ReadyUpTo (mt.publishSlotRelease i) := by
  have hset (j : ℕ) (hj : mt.ready j = true ∨ j = i) : (mt.setReady i).ready j = true := by
    rw [ConcurrentMemTable.setReady_ready]
    by_cases hji : j = i
    · rw [hji, Function.update_self]
    · rw [Function.update_of_ne hji]
      exact hj.resolve_right hji
  intro m hm j hj
  rw [ConcurrentMemTable.publishSlotRelease_maxReadyId, ConcurrentMemTable.updateMaxReadyId] at hm
  rw [ConcurrentMemTable.setReady_maxReadyId] at hm
  split at hm
  · split at hm
    · obtain rfl : 0 = m := by simpa using hm
      exact hset j (Or.inr (by omega))
    · exact absurd hm (by simp)
  · rename_i n hn
    have hold (l : ℕ) (hl : l ≤ n) : (mt.setReady i).ready l = true := hset l (Or.inl (h n hn l hl))
    split at hm
    · obtain rfl := Option.some.inj hm
      exact extendReady_ready _ _ _ n hold j hj
    · obtain rfl := Option.some.inj hm
      exact hold j hj

theorem SlotPattern.readyUpTo (h : SlotPattern mt) : ReadyUpTo mt := by
  induction h with
  | register mt rel sid cap => exact fun m hm => absurd hm (by simp)
  | reserve _ ih => exact ih
  | store i r w _ ih => exact ih
  | publish i _ ih => exact ih.publish i
  | mask i _ ih => exact ih
  | setSealed _ ih => exact ih

/-- The slots of a memtable of an index with `dim` dimensions. -/
def SlotTable.of (mt : ConcurrentMemTable V) (dim elemSize : ℕ) (h : 0 < elemSize) :
    SlotTable where
  dim := dim
  elemSize := elemSize
  elemSize_pos := h
  capacity := mt.capacity
  currentSize := mt.currentSize
  maxReadyId := mt.maxReadyId
  ready := mt.ready
  bitmap := mt.bitmap

theorem SlotPattern.bulk_ready (h : SlotPattern mt) {dim elemSize : ℕ} (he : 0 < elemSize) :
    ∀ i < (SlotTable.of mt dim elemSize he).bulk true, mt.ready i = true := by
  intro i hi
  unfold SlotTable.bulk SlotTable.of at hi
  simp only [↓reduceIte] at hi
  split at hi
  · exact absurd hi (Nat.not_lt_zero i)
  · rename_i m hm
    exact h.readyUpTo m hm i (by omega)

/-- A growing memtable is searched exactly if enough rows are left and the rows lie packed. -/
theorem growing_exact_iff (h : SlotPattern mt) {dim elemSize : ℕ} (he : 0 < elemSize)
    (hk : 0 < k) {t : SlotTable} (ht : t = SlotTable.of mt dim elemSize he) :
    SearchExact t k true ↔ min k (t.bulk true) ≤ (unmasked t.bitmap (t.bulk true)).length ∧
      ∀ i ∈ unmasked t.bitmap (t.bulk true), i = 0 ∨ t.stride = 4 * t.dim := by
  subst ht
  refine ⟨fun hs => ⟨hs.enough, hs.packed hk⟩, fun hs => Searchable.exact ⟨hs.1, ?_, hs.2⟩⟩
  exact fun i hi => h.bulk_ready he i (mem_unmasked.mp hi).1

end Growing

/-- A search is exact for every content exactly if the bulk search has enough rows left, all of
them published, and finds them where they were written. -/
theorem searchExact_iff (hk : 0 < k) : SearchExact t k checkReady ↔ t.Searchable k checkReady :=
  ⟨fun h => ⟨h.enough, h.ready hk, h.packed hk⟩, Searchable.exact⟩

/-- A sealed memtable with one row, which is deleted. -/
def demoDeleted : SlotTable where
  dim := 2
  elemSize := 8
  elemSize_pos := by decide
  capacity := 4
  currentSize := 1
  maxReadyId := some 0
  ready := fun i => decide (i < 1)
  bitmap := fun i => decide (i = 0)

theorem searchExact_iff_demoDeleted :
    SearchExact demoDeleted 1 false ↔ demoDeleted.Searchable 1 false :=
  searchExact_iff (by decide)

/-- The padding of the library is taken for a slot. -/
theorem not_searchExact : ¬ ∀ (t : SlotTable) (k : ℕ) (checkReady : Bool), 0 < k →
    SearchExact t k checkReady := by
  intro h
  exact absurd (h demoDeleted 1 false (by decide)).enough (by decide)

end VectorLsm.Search
