import Mathlib.Data.List.Range
import VectorLsm.Lib.TopK

/-! # What is assumed of the index library

A search of the library is given rows, by their distances to the query, a mask and the number of
results wanted. It answers with the nearest rows that are not masked, and fills the places that
are left with id -1.
-/

namespace VectorLsm.Search

open TopK

variable {D : Type} [LinearOrder D]

/-- The rows a mask leaves, of the first `count`. -/
def unmasked (mask : ℕ → Bool) (count : ℕ) : List ℕ :=
  (List.range count).filter fun i => !mask i

/-- Distances of the rows, mask, number of rows and number of results: the distances and ids that
are found, or a failure. -/
abbrev Library (D : Type) := (ℕ → D) → (ℕ → Bool) → ℕ → ℕ → Option (List D × List ℤ)

/-- An answer names the rows of `best` and pads to `k`. -/
structure Answers (dist : ℕ → D) (mask : ℕ → Bool) (count k : ℕ) (best : List ℕ)
    (answer : List D × List ℤ) : Prop where
  nearest : Nearest dist k (unmasked mask count) best
  distances : answer.1.take best.length = best.map dist
  length_distances : answer.1.length = k
  ids : answer.2 = best.map Nat.cast ++ List.replicate (k - best.length) (-1)

/-- Every search of some rows is answered with the nearest ones. -/
def Library.Exact (lib : Library D) : Prop :=
  ∀ dist mask count k, 0 < count →
    ∃ best answer, lib dist mask count k = some answer ∧ Answers dist mask count k best answer

theorem mem_unmasked {mask : ℕ → Bool} {count i : ℕ} :
    i ∈ unmasked mask count ↔ i < count ∧ mask i = false := by
  rw [unmasked, List.mem_filter, List.mem_range, Bool.not_eq_true']

theorem length_unmasked_le (mask : ℕ → Bool) (count : ℕ) :
    (unmasked mask count).length ≤ count :=
  (List.length_filter_le _ _).trans List.length_range.le

/-- The order of a search that takes row `i` first among ties. -/
def before (dist : ℕ → D) (i : ℕ) (a b : ℕ) : Bool :=
  decide (dist a < dist b) || (decide (dist a = dist b) && (decide (a = i) || decide (b ≠ i)))

/-- A library that sorts, with row `i` first among ties and `pad` as the distance of what is
missing. -/
def sorting (pad : D) (i : ℕ) : Library D := fun dist mask count k =>
  let best := ((unmasked mask count).mergeSort (before dist i)).take k
  some (best.map dist ++ List.replicate (k - best.length) pad,
    best.map Nat.cast ++ List.replicate (k - best.length) (-1))

section Sorting

variable (dist : ℕ → D) (i : ℕ)

theorem le_of_before {a b : ℕ} (h : before dist i a b = true) : dist a ≤ dist b := by
  rw [before, Bool.or_eq_true, Bool.and_eq_true, decide_eq_true_eq, decide_eq_true_eq] at h
  rcases h with h | ⟨h, _⟩
  · exact h.le
  · exact h.le

theorem before_trans (a b c : ℕ) (hab : before dist i a b = true) (hbc : before dist i b c = true) :
    before dist i a c = true := by
  have hab' := le_of_before dist i hab
  have hbc' := le_of_before dist i hbc
  simp only [before, Bool.or_eq_true, Bool.and_eq_true, decide_eq_true_eq] at hab hbc ⊢
  rcases hab with hab | ⟨hab, ha⟩
  · exact Or.inl (hab.trans_le hbc')
  · rcases hbc with hbc | ⟨hbc, hb⟩
    · exact Or.inl (hab'.trans_lt hbc)
    · refine Or.inr ⟨hab.trans hbc, ?_⟩
      rcases ha with ha | ha
      · exact Or.inl ha
      · exact Or.inr (hb.resolve_left ha)

theorem before_total (a b : ℕ) : (before dist i a b || before dist i b a) = true := by
  simp only [before, Bool.or_eq_true, Bool.and_eq_true, decide_eq_true_eq]
  rcases lt_trichotomy (dist a) (dist b) with h | h | h
  · exact Or.inl (Or.inl h)
  · by_cases ha : a = i
    · exact Or.inl (Or.inr ⟨h, Or.inl ha⟩)
    · exact Or.inr (Or.inr ⟨h.symm, Or.inr ha⟩)
  · exact Or.inr (Or.inl h)

theorem pairwise_sorted (rows : List ℕ) :
    (rows.mergeSort (before dist i)).Pairwise fun a b => before dist i a b = true :=
  List.pairwise_mergeSort (before_trans dist i) (before_total dist i) rows

theorem ordered_sorted (rows : List ℕ) : Ordered dist (rows.mergeSort (before dist i)) :=
  (pairwise_sorted dist i rows).imp (le_of_before dist i)

theorem sorting_exact (pad : D) : (sorting pad i).Exact := by
  intro dist mask count k _
  refine ⟨_, _, rfl, nearest_take (ordered_sorted dist i _) (List.mergeSort_perm _ _).symm, ?_, ?_,
    rfl⟩
  · rw [List.take_left' (List.length_map _)]
  · rw [List.length_append, List.length_map, List.length_replicate, List.length_take]
    omega

/-- A row that no other is nearer than comes first if the library prefers it. -/
theorem mem_take_sorted {mask : ℕ → Bool} {count k : ℕ} (hk : 0 < k) (hi : i ∈ unmasked mask count)
    (hle : ∀ j ∈ unmasked mask count, dist i ≤ dist j) :
    i ∈ ((unmasked mask count).mergeSort (before dist i)).take k := by
  have hmem : i ∈ (unmasked mask count).mergeSort (before dist i) := List.mem_mergeSort.mpr hi
  have hsorted := pairwise_sorted dist i (unmasked mask count)
  have hsub (j : ℕ) (hj : j ∈ (unmasked mask count).mergeSort (before dist i)) :
      dist i ≤ dist j := hle j (List.mem_mergeSort.mp hj)
  obtain ⟨n, rfl⟩ : ∃ n, k = n + 1 := ⟨k - 1, by omega⟩
  cases hw : (unmasked mask count).mergeSort (before dist i) with
  | nil => rw [hw] at hmem; exact absurd hmem List.not_mem_nil
  | cons a w =>
      rw [hw] at hmem hsorted hsub
      rw [List.take_succ_cons]
      rcases List.mem_cons.mp hmem with rfl | hmem
      · exact List.mem_cons_self
      · have hab := List.rel_of_pairwise_cons hsorted hmem
        simp only [before, Bool.or_eq_true, Bool.and_eq_true, decide_eq_true_eq, ne_eq,
          not_true_eq_false, or_false] at hab
        rcases hab with hlt | ⟨_, rfl⟩
        · exact absurd hlt (not_lt.mpr (hsub a List.mem_cons_self))
        · exact List.mem_cons_self

end Sorting

end VectorLsm.Search
