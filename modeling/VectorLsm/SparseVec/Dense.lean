import VectorLsm.SparseVec.Basic

/-! # Sparse and dense vectors

The functions on sparse vectors against the vectors they stand for: the conversions are inverse to
each other, the comparison is that of the dense vectors, and the loops of the distances visit in
order what a walk over all dimensions would. A part of a dense vector is what lies in its window.
-/

namespace VectorLsm.SparseVec

open Half Sparse

variable {v w : SparseVector} {l a b : List (ℕ × UInt32)} {x : List UInt32} {i k n m : ℕ}
  {value : UInt32}

/-! ## The dense vector -/

/-- The elements from index `k` on. -/
def dense (k n : ℕ) (l : List (ℕ × UInt32)) : List UInt32 :=
  (List.range' k n).map fun i => (l.lookup i).getD 0

theorem dense_succ : dense k (n + 1) l = (l.lookup k).getD 0 :: dense (k + 1) n l := by
  rw [dense, List.range'_succ, List.map_cons, dense]

/-- An entry before the first index is not seen. -/
theorem dense_cons_of_lt (h : i < k) : dense k n ((i, value) :: l) = dense k n l :=
  List.map_congr_left fun j hj => by
    have hle := (List.mem_range'_1.mp hj).1
    rw [lookup_cons_of_ne (by omega)]

theorem getElem?_dense (h : i < n) : (dense k n l)[i]? = some ((l.lookup (k + i)).getD 0) := by
  rw [dense, List.getElem?_map, List.getElem?_range' h, Option.map_some, Nat.one_mul]

/-- Elements that are set one after the other, each at an index of its own. -/
theorem getElem?_setAll (hl : Ascending n l) (hx : x.length = n) (hi : i < n) :
    (setAll x l)[i]? = some ((l.lookup i).getD (x[i]?.getD 0)) := by
  induction l generalizing x with
  | nil => rw [setAll, List.getElem?_eq_getElem (hx ▸ hi)]; rfl
  | cons e l ih =>
      obtain ⟨j, y⟩ := e
      rw [setAll, ih hl.tail (by rw [List.length_set, hx])]
      rcases eq_or_ne i j with rfl | hne
      · -- no later entry has this index
        have hnone : l.lookup i = none := lookup_eq_none hl.lt_of_mem
        rw [lookup_cons_self, hnone, List.getElem?_set_self (hx ▸ hi)]
        rfl
      · rw [lookup_cons_of_ne hne, List.getElem?_set_ne hne.symm]

theorem length_setAll : (setAll x l).length = x.length := by
  induction l generalizing x with
  | nil => rfl
  | cons e l ih => rw [setAll, ih, List.length_set]

/-- The elements are those of the entries, and zero elsewhere. -/
theorem setAll_eq_dense (h : Ascending n l) :
    setAll (List.replicate n 0) l = dense 0 n l := by
  refine List.ext_getElem? fun i => ?_
  rcases Nat.lt_or_ge i n with hi | hi
  · rw [getElem?_setAll h List.length_replicate hi, getElem?_dense hi, Nat.zero_add,
      List.getElem?_replicate_of_lt hi]
    rfl
  · rw [List.getElem?_eq_none, List.getElem?_eq_none]
    · rwa [dense, List.length_map, List.length_range']
    · rwa [length_setAll, List.length_replicate]

/-! ## Back and forth -/

/-- What is not zero in the dense vector are the entries. -/
theorem nonZero_dense (hl : Ascending (k + n) l) (hk : From k l)
    (h0 : ∀ e ∈ l, isZero e.2 = false) : nonZero k (dense k n l) = l := by
  induction n generalizing k l with
  | zero =>
      cases l with
      | nil => rfl
      | cons e l =>
          have hlt := hl.lt e List.mem_cons_self
          have hle := hk e List.mem_cons_self
          omega
  | succ n ih =>
      have hl' : Ascending (k + 1 + n) l := by rwa [Nat.add_right_comm, Nat.add_assoc]
      rw [dense_succ]
      rcases hk.cases hl' with ⟨x, l, rfl, hk', hl⟩ | hk'
      · have hx : isZero x = false := h0 (k, x) List.mem_cons_self
        rw [lookup_cons_self, Option.getD_some, nonZero, hx, dense_cons_of_lt (Nat.lt_succ_self k),
          ih hl hk' fun e he => h0 e (List.mem_cons_of_mem _ he)]
        rfl
      · have hzero : isZero 0 = true := rfl
        rw [lookup_eq_none hk', Option.getD_none, nonZero, hzero, ih hl' hk' h0]
        rfl

theorem from_nonZero : From k (nonZero k x) := by
  induction x generalizing k with
  | nil => exact fun e he => absurd he List.not_mem_nil
  | cons y x ih =>
      rw [nonZero]
      split
      · exact fun e he => (Nat.le_succ k).trans (ih e he)
      · intro e he
        rcases List.mem_cons.mp he with rfl | he
        · exact le_rfl
        · exact (Nat.le_succ k).trans (ih e he)

theorem ascending_nonZero : Ascending (k + x.length) (nonZero k x) := by
  induction x generalizing k with
  | nil => exact ⟨List.Pairwise.nil, fun e he => absurd he List.not_mem_nil⟩
  | cons y x ih =>
      have hlen : k + (y :: x).length = k + 1 + x.length := by rw [List.length_cons]; omega
      rw [nonZero, hlen]
      split
      · exact ih
      · refine ⟨List.pairwise_cons.mpr ⟨from_nonZero, ih.sorted⟩, fun e he => ?_⟩
        rcases List.mem_cons.mp he with rfl | he
        · exact Nat.lt_add_right _ (Nat.lt_succ_self k)
        · exact ih.lt e he

theorem mem_nonZero {e : ℕ × UInt32} (h : e ∈ nonZero k x) :
    e.2 ∈ x ∧ isZero e.2 = false := by
  induction x generalizing k with
  | nil => exact absurd h List.not_mem_nil
  | cons y x ih =>
      rw [nonZero] at h
      split at h
      · exact (ih h).imp_left (List.mem_cons_of_mem _)
      next hy =>
        rcases List.mem_cons.mp h with rfl | h
        · exact ⟨List.mem_cons_self, Bool.eq_false_iff.mpr hy⟩
        · exact (ih h).imp_left (List.mem_cons_of_mem _)

theorem length_nonZero_le : (nonZero k x).length ≤ x.length := by
  induction x generalizing k with
  | nil => exact le_rfl
  | cons y x ih =>
      rw [nonZero]
      split
      · exact ih.trans (Nat.le_succ _)
      · exact Nat.succ_le_succ ih

/-- The dense vector of the entries is the vector, with its zeros positive. -/
theorem dense_nonZero : dense k x.length (nonZero k x) =
    x.map fun value => if isZero value then 0 else value := by
  induction x generalizing k with
  | nil => rfl
  | cons y x ih =>
      rw [List.length_cons, dense_succ, List.map_cons, nonZero]
      split
      · rw [lookup_eq_none from_nonZero, Option.getD_none, ih]
      · rw [lookup_cons_self, Option.getD_some, dense_cons_of_lt (Nat.lt_succ_self k), ih]

theorem checkDimOf_eq_ok {type : String} {max dim : ℕ} (h1 : 1 ≤ dim) (hmax : dim ≤ max) :
    checkDimOf type max dim = .ok () := by
  rw [checkDimOf, if_neg (by omega), if_neg (by omega)]

theorem checkExpectedDim_eq_ok {dim : ℤ} : checkExpectedDim (-1) dim = .ok () := by
  rw [checkExpectedDim, if_neg fun h => h.1 rfl]

theorem Vector.wellFormed (x : Vector) : WellFormed ⟨x.x.length, nonZero 0 x.x⟩ := by
  have hasc := @ascending_nonZero x.x 0
  rw [Nat.zero_add] at hasc
  exact ⟨x.one_le, x.le.trans (by decide), length_nonZero_le.trans x.le, hasc,
    fun e he => x.finite e.2 (mem_nonZero he).1, fun e he => (mem_nonZero he).2⟩

theorem vectorToSparsevec_eq (x : Vector) :
    vectorToSparsevec (-1) x.x = .ok ⟨x.x.length, nonZero 0 x.x⟩ := by
  rw [vectorToSparsevec, checkDim,
    checkDimOf_eq_ok x.one_le (x.le.trans (by decide)), checkExpectedDim_eq_ok]
  rfl

theorem sparsevecToVector_eq (v : Stored) (h : v.1.dim ≤ vectorMaxDim) :
    sparsevecToVector (-1) v.1 = .ok (dense 0 v.1.dim v.1.elements) := by
  rw [sparsevecToVector, checkVectorDim, checkDimOf_eq_ok v.2.one_le_dim h,
    checkExpectedDim_eq_ok, setAll_eq_dense v.2.ascending]
  rfl

theorem sparsevecToVector_error (v : Stored) (h : vectorMaxDim < v.1.dim) :
    sparsevecToVector (-1) v.1 = .error (.manyDims "vector" vectorMaxDim) := by
  rw [sparsevecToVector, checkVectorDim, checkDimOf, if_neg (by omega), if_pos (by omega)]
  rfl

/-- A sparse vector is that of its dense vector, if that has not too many dimensions. A dense
vector becomes a sparse one that may be stored, and is its dense vector, with zeros positive. -/
theorem conversions :
    (∀ v : Stored, (sparsevecToVector (-1) v.1).bind (vectorToSparsevec (-1)) =
      if v.1.dim ≤ vectorMaxDim then .ok v.1
      else .error (.manyDims "vector" vectorMaxDim)) ∧
    ∀ x : Vector, ∃ v : Stored, vectorToSparsevec (-1) x.x = .ok v.1 ∧
      sparsevecToVector (-1) v.1 =
        .ok (x.x.map fun value => if isZero value then 0 else value) := by
  refine ⟨fun v => ?_, fun x => ⟨⟨_, x.wellFormed⟩, vectorToSparsevec_eq x, ?_⟩⟩
  · split
    next hle =>
      have hasc : Ascending (0 + v.1.dim) v.1.elements := by
        rw [Nat.zero_add]
        exact v.2.ascending
      have hlen : (dense 0 v.1.dim v.1.elements).length = v.1.dim := by
        rw [dense, List.length_map, List.length_range']
      rw [sparsevecToVector_eq v hle]
      change vectorToSparsevec (-1) (dense 0 v.1.dim v.1.elements) = _
      rw [vectorToSparsevec, checkDim, hlen, checkDimOf_eq_ok v.2.one_le_dim v.2.dim_le,
        checkExpectedDim_eq_ok, nonZero_dense hasc From.zero v.2.ne_zero]
      rfl
    next hgt =>
      rw [sparsevecToVector_error v (Nat.lt_of_not_le hgt)]
      rfl
  · rw [sparsevecToVector_eq ⟨_, x.wellFormed⟩ x.le, dense_nonZero]

/-! ## The comparison -/

/-- Dimensions are compared where the elements agree. -/
def cmpDims (n m : ℕ) : ℤ := if n < m then -1 else if m < n then 1 else 0

theorem floatLt_irrefl : floatLt value value = false := by simp [floatLt]

/-- What is not zero lies on one side of it. -/
theorem floatLt_zero (h : isZero value = false) : floatLt 0 value = !floatLt value 0 := by
  have hne : floatVal value ≠ 0 := of_decide_eq_false h
  have hzero : floatVal 0 = 0 := rfl
  simp only [floatLt, hzero]
  rcases lt_or_gt_of_ne hne with hlt | hgt
  · rw [decide_eq_true hlt, decide_eq_false hlt.not_gt]
    rfl
  · rw [decide_eq_true hgt, decide_eq_false hgt.not_gt]
    rfl

theorem cmpElements_nil_left (hb : From n b) :
    cmpElements n m [] b = cmpDims n m := by
  cases b with
  | nil => rfl
  | cons e b =>
      have hge := hb e List.mem_cons_self
      rw [cmpElements, if_neg (Nat.not_lt.mpr hge), cmpDims]

theorem cmpElements_nil_right (ha : From m a) :
    cmpElements n m a [] = cmpDims n m := by
  cases a with
  | nil => rfl
  | cons e a =>
      have hge := ha e List.mem_cons_self
      rw [cmpElements, if_neg (Nat.not_lt.mpr hge), cmpDims]

/-- An entry against a zero of the other vector. -/
theorem cmpElements_left (hb : From (k + 1) b) (hm : k < m) :
    cmpElements n m ((k, value) :: a) b = if floatLt value 0 then -1 else 1 := by
  cases b with
  | nil => rw [cmpElements, if_pos hm]
  | cons e b =>
      have hlt : k < e.1 := hb e List.mem_cons_self
      rw [cmpElements, if_pos hlt]

theorem cmpElements_right (ha : From (k + 1) a) (hn : k < n) :
    cmpElements n m a ((k, value) :: b) = if floatLt value 0 then 1 else -1 := by
  cases a with
  | nil => rw [cmpElements, if_pos hn]
  | cons e a =>
      have hlt : k < e.1 := ha e List.mem_cons_self
      rw [cmpElements, if_neg (Nat.not_lt.mpr hlt.le), if_pos hlt]

theorem From.nil_of_lt (hl : From n l) (hlt : ∀ e ∈ l, e.1 < n) : l = [] := by
  rw [List.eq_nil_iff_forall_not_mem]
  exact fun e he => absurd (hlt e he) (Nat.not_lt.mpr (hl e he))

theorem cmpElements_eq (ha : Ascending (k + n) a) (hb : Ascending (k + m) b)
    (hka : From k a) (hkb : From k b) (h0a : ∀ e ∈ a, isZero e.2 = false)
    (h0b : ∀ e ∈ b, isZero e.2 = false) :
    cmpElements (k + n) (k + m) a b = vectorCmpInternal (dense k n a) (dense k m b) := by
  induction n generalizing k m a b with
  | zero =>
      obtain rfl : a = [] := From.nil_of_lt hka ha.lt
      rw [Nat.add_zero, cmpElements_nil_left hkb, cmpDims]
      cases m with
      | zero => simp [dense, vectorCmpInternal]
      | succ m =>
          rw [dense_succ, if_pos (by omega)]
          rfl
  | succ n ih =>
      cases m with
      | zero =>
          obtain rfl : b = [] := From.nil_of_lt hkb hb.lt
          rw [Nat.add_zero k, cmpElements_nil_right hka, cmpDims, dense_succ,
            if_neg (by omega), if_pos (by omega)]
          rfl
      | succ m =>
          have hn : k + (n + 1) = k + 1 + n := by omega
          have hm : k + (m + 1) = k + 1 + m := by omega
          rw [hn] at ha
          rw [hm] at hb
          rw [dense_succ, dense_succ, vectorCmpInternal]
          rcases hka.cases ha with ⟨x, a, rfl, hka', ha'⟩ | hka'
          · have hx : isZero x = false := h0a (k, x) List.mem_cons_self
            rw [lookup_cons_self, Option.getD_some, dense_cons_of_lt (Nat.lt_succ_self k)]
            rcases hkb.cases hb with ⟨y, b, rfl, hkb', hb'⟩ | hkb'
            · rw [lookup_cons_self, Option.getD_some, dense_cons_of_lt (Nat.lt_succ_self k),
                cmpElements, if_neg (Nat.lt_irrefl k), if_neg (Nat.lt_irrefl k), hn, hm,
                ih ha' hb' hka' hkb' (fun e he => h0a e (List.mem_cons_of_mem _ he))
                  fun e he => h0b e (List.mem_cons_of_mem _ he)]
            · rw [lookup_eq_none hkb', Option.getD_none, cmpElements_left hkb' (by omega),
                floatLt_zero hx]
              cases floatLt x 0 <;> rfl
          · rw [lookup_eq_none hka', Option.getD_none]
            rcases hkb.cases hb with ⟨y, b, rfl, hkb', hb'⟩ | hkb'
            · have hy : isZero y = false := h0b (k, y) List.mem_cons_self
              rw [lookup_cons_self, Option.getD_some, cmpElements_right hka' (by omega),
                floatLt_zero hy]
              cases floatLt y 0 <;> rfl
            · rw [lookup_eq_none hkb', Option.getD_none, floatLt_irrefl, hn, hm,
                ih ha hb hka' hkb' h0a h0b]
              rfl

/-- Sparse vectors compare as the dense vectors they stand for, also of different dimensions. -/
theorem sparsevecCmpInternal_eq (a b : Stored) :
    sparsevecCmpInternal a.1 b.1 =
      vectorCmpInternal (setAll (List.replicate a.1.dim 0) a.1.elements)
        (setAll (List.replicate b.1.dim 0) b.1.elements) := by
  have ha : Ascending (0 + a.1.dim) a.1.elements := by
    rw [Nat.zero_add]
    exact a.2.ascending
  have hb : Ascending (0 + b.1.dim) b.1.elements := by
    rw [Nat.zero_add]
    exact b.2.ascending
  rw [setAll_eq_dense a.2.ascending, setAll_eq_dense b.2.ascending,
    ← cmpElements_eq ha hb From.zero From.zero a.2.ne_zero b.2.ne_zero, Nat.zero_add,
    Nat.zero_add, sparsevecCmpInternal]

/-! ## The loops -/

section Loops

variable {α : Type*} {both : α → UInt32 → UInt32 → α} {left right : α → UInt32 → α} {acc : α}
  {bpos : ℕ} {bi : Option ℕ}

/-- The inner loop goes on in the second vector up to the entry of the first. -/
theorem merge_innerLoop {rest : List (ℕ × UInt32)} (hdrop : b.drop bpos = rest)
    (hbi : bi ≠ some i) :
    merge both left right acc ((i, value) :: a) rest =
      merge both left right
        (if (innerLoop both right i value acc bpos bi rest).2.2 = some i then
            (innerLoop both right i value acc bpos bi rest).1
          else left (innerLoop both right i value acc bpos bi rest).1 value)
        a (b.drop (innerLoop both right i value acc bpos bi rest).2.1) := by
  induction rest generalizing acc bpos bi with
  | nil =>
      rw [innerLoop, if_neg hbi, hdrop, merge]
  | cons e rest ih =>
      obtain ⟨j, y⟩ := e
      have hnext : b.drop (bpos + 1) = rest := by
        rw [← List.drop_drop, hdrop, List.drop_one, List.tail_cons]
      rw [merge]
      rcases Nat.lt_trichotomy i j with hlt | rfl | hgt
      · -- passed
        have hne : some j ≠ some i := fun h => hlt.ne' (Option.some.inj h)
        rw [if_neg hlt.ne, if_neg hlt.not_gt]
        simp only [innerLoop, if_neg hlt.ne, if_neg hlt.not_gt, if_neg hlt.not_ge, if_pos hlt.le,
          if_neg hne, hdrop]
      · -- found
        simp only [innerLoop, if_true, le_refl, hnext]
      · -- the entry of the second vector comes first
        have hne : some j ≠ some i := fun h => hgt.ne (Option.some.inj h)
        rw [if_neg hgt.ne', if_pos hgt, ih hnext hne]
        simp only [innerLoop, if_neg hgt.ne', if_pos hgt, if_pos hgt.le, if_neg hgt.not_ge]

theorem outerLoop_eq_merge :
    outerLoop both left right b acc bpos a = merge both left right acc a (b.drop bpos) := by
  induction a generalizing acc bpos with
  | nil => rw [outerLoop, merge_nil_left]
  | cons e a ih =>
      obtain ⟨i, x⟩ := e
      rw [outerLoop, merge_innerLoop rfl (Option.some_ne_none i).symm]
      exact ih

end Loops

/-- The loops add up what a walk over all dimensions in order adds up. -/
theorem sum_eq_walk (t : Terms) (a b : Stored) (hdim : a.1.dim = b.1.dim) :
    t.sum a.1 b.1 = walk t.both t.left t.right a.1.dim a.1.elements b.1.elements 0 := by
  have hb := b.2.ascending
  rw [← hdim] at hb
  rw [Terms.sum, outerLoop_eq_merge, List.drop_zero, merge_eq_walk _ _ _ a.2.ascending hb]

/-- What a function on two vectors answers when it adds up its terms over all dimensions. -/
def answer (t : Terms) (a b : SparseVector) : Except Error UInt32 :=
  if a.dim = b.dim then .ok (walk t.both t.left t.right a.dim a.elements b.elements 0)
  else .error (.differentDims a.dim b.dim)

theorem bind_checkDims (t : Terms) (a b : Stored) :
    (do checkDims a.1 b.1; return t.sum a.1 b.1) = answer t a.1 b.1 := by
  rw [checkDims, answer]
  by_cases h : a.1.dim = b.1.dim
  · rw [if_neg (not_not.mpr h), if_pos h, ← sum_eq_walk t a b h]
    rfl
  · rw [if_pos h, if_neg h]
    rfl

/-- The distances and the inner product add up, in whatever arithmetic, exactly the terms of a
walk over all dimensions in order: at an index of both vectors, at one of either, or none. -/
theorem distances_eq_answer (ar : Arith) (a b : Stored) :
    sparsevecL2SquaredDistance ar a.1 b.1 = answer ar.l2Squared a.1 b.1 ∧
      sparsevecInnerProduct ar a.1 b.1 = answer ar.innerProduct a.1 b.1 ∧
      sparsevecL1Distance ar a.1 b.1 = answer ar.l1 a.1 b.1 :=
  ⟨bind_checkDims _ a b, bind_checkDims _ a b, bind_checkDims _ a b⟩

/-! ## Parts of a vector -/

section Subvector

variable {α : Type} {ax : List α} {start count : ℤ}

/-- The values with an index from `start` up to `start + count`, counted from one. -/
def window (ax : List α) (start count : ℤ) : List α :=
  ((ax.zipIdx 1).filter fun e => start ≤ e.2 ∧ e.2 < start + count).map Prod.fst

theorem copyFrom_eq (h : i + n ≤ ax.length) : copyFrom ax i n = some ((ax.drop i).take n) := by
  induction n generalizing i with
  | zero => rfl
  | succ n ih =>
      have hi : i < ax.length := by omega
      rw [copyFrom, ih (by omega), List.getElem?_eq_getElem hi, List.drop_eq_getElem_cons hi,
        List.take_succ_cons]
      rfl

theorem filter_zipIdx (lo hi : ℤ) :
    ((ax.zipIdx k).filter fun e => lo ≤ e.2 ∧ e.2 < hi).map Prod.fst =
      (ax.take (hi - k).toNat).drop (lo - k).toNat := by
  induction ax generalizing k with
  | nil => simp
  | cons value ax ih =>
      have ih := ih (k := k + 1)
      rw [List.zipIdx_cons, List.filter_cons]
      rcases le_or_gt hi k with hhi | hhi
      · have hzero : (hi - k).toNat = 0 ∧ (hi - (k + 1 : ℕ)).toNat = 0 := by omega
        rw [hzero.2, List.take_zero, List.drop_nil] at ih
        rw [hzero.1, List.take_zero, List.drop_nil, ← ih, if_neg (by simp; omega)]
      · have hsucc : (hi - k).toNat = (hi - (k + 1 : ℕ)).toNat + 1 := by omega
        rw [hsucc, List.take_succ_cons]
        rcases le_or_gt lo k with hlo | hlo
        · have hzero : (lo - k).toNat = 0 ∧ (lo - (k + 1 : ℕ)).toNat = 0 := by omega
          rw [hzero.2, List.drop_zero] at ih
          rw [hzero.1, List.drop_zero, ← ih, if_pos (by simp; omega), List.map_cons]
        · have hsucc' : (lo - k).toNat = (lo - (k + 1 : ℕ)).toNat + 1 := by omega
          rw [hsucc', List.drop_succ_cons, ← ih, if_neg (by simp; omega)]

theorem window_eq : window ax start count =
    (ax.drop (start - 1).toNat).take ((start + count - 1).toNat - (start - 1).toNat) := by
  rw [window, filter_zipIdx, List.drop_take]
  rfl

theorem window_eq_nil : window ax start count = [] ↔
    min ax.length (start + count - 1).toNat ≤ (start - 1).toNat := by
  rw [window_eq, ← List.length_eq_zero_iff, List.length_take, List.length_drop]
  omega

theorem int32_eq {n : ℤ} (h : -2 ^ 31 ≤ n ∧ n < 2 ^ 31) : int32 n = some n := if_pos h

theorem windowEnd_eq {dim : ℤ} (hdim : 1 ≤ dim ∧ dim < 2 ^ 31 - 1)
    (hs : -2 ^ 31 ≤ start ∧ start < 2 ^ 31) (hc : 1 ≤ count ∧ count < 2 ^ 31) :
    windowEnd dim start count = some (min (dim + 1) (start + count)) := by
  rw [windowEnd, int32_eq (by omega), Option.bind_eq_bind, Option.bind_some]
  split_ifs with hlast
  · rw [int32_eq (by omega), min_eq_left (by omega)]
  · rw [int32_eq (by omega), min_eq_right (by omega)]

theorem subvectorOf_eq (type : String) {max : ℕ} (hax : 1 ≤ ax.length) (hle : ax.length ≤ max)
    (hmax : max < 2 ^ 31 - 1) (hs : -2 ^ 31 ≤ start ∧ start < 2 ^ 31) (hc : count < 2 ^ 31) :
    subvectorOf type max ax start count =
      some (if window ax start count = [] then .error (.noDim type)
        else .ok (window ax start count)) := by
  have hnil : window ax start count = [] ↔
      min ax.length (start + count - 1).toNat ≤ (start - 1).toNat := window_eq_nil
  by_cases hcount : count < 1
  · rw [subvectorOf, if_pos hcount, if_pos (hnil.mpr (by omega))]
  rw [subvectorOf, if_neg hcount, windowEnd_eq (by omega) hs (by omega), Option.bind_some,
    copyWindow]
  by_cases hlast : ¬ start < 1 ∧ ax.length < start
  · rw [if_pos hlast, if_pos (hnil.mpr (by omega))]
  rw [if_neg hlast]
  have hfirst : (if start < 1 then 1 else start) = (start - 1).toNat + 1 := by
    split_ifs <;> omega
  set first := (start - 1).toNat with hf
  set stop := min (ax.length + 1 : ℤ) (start + count) with hstop
  have hin : -2 ^ 31 ≤ stop - (first + 1 : ℤ) ∧ stop - (first + 1 : ℤ) < 2 ^ 31 := by omega
  simp only [hfirst]
  rw [int32_eq hin, Option.bind_eq_bind, Option.bind_some, checkDimOf]
  by_cases hempty : stop - (first + 1 : ℤ) < 1
  · rw [if_pos hempty, if_pos (hnil.mpr (by omega))]
  · have hne : window ax start count ≠ [] := fun h => hempty (by have := hnil.mp h; omega)
    rw [if_neg hempty, if_neg (by omega), if_neg hne]
    have hcopy : copyFrom ax first (stop - (first + 1 : ℤ)).toNat =
        some (window ax start count) := by
      rw [copyFrom_eq (by omega), window_eq, Option.some_inj, List.take_eq_take_iff,
        List.length_drop]
      omega
    have hpos : ((first + 1 : ℤ) - 1).toNat = first := by omega
    dsimp only
    rw [hpos, hcopy]
    rfl

/-- For all arguments no operation overflows and no read is out of bounds, and the result is what
lies in the window. -/
theorem subvectors_eq (start count : Int32) :
    (∀ a : Vector, subvector a start.toInt count.toInt =
      some (if window a.x start.toInt count.toInt = [] then .error (.noDim "vector")
        else .ok (window a.x start.toInt count.toInt))) ∧
    ∀ a : HalfVector, halfvecSubvector a start.toInt count.toInt =
      some (if window a.x start.toInt count.toInt = [] then .error (.noDim "halfvec")
        else .ok (window a.x start.toInt count.toInt)) := by
  have hs : -2 ^ 31 ≤ start.toInt ∧ start.toInt < 2 ^ 31 := ⟨start.le_toInt, start.toInt_lt⟩
  have hc : count.toInt < 2 ^ 31 := count.toInt_lt
  exact ⟨fun a => subvectorOf_eq "vector" a.one_le a.le (by decide) hs hc,
    fun a => subvectorOf_eq "halfvec" a.one_le a.le (by decide) hs hc⟩

end Subvector

end VectorLsm.SparseVec
