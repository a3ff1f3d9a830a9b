import Mathlib.Data.List.Dedup

/-! # Counting different entries

A counter that is raised by the length of every batch is right about the number of different
entries as long as no entry of a batch was there before or is there twice.
-/

namespace Distinct

variable {α : Type*} [DecidableEq α] {l m fresh seen hits : List α} {a : α} {n : ℕ}

/-- The number of different entries. -/
def distinct (l : List α) : ℕ := l.dedup.length

@[simp] theorem distinct_nil : distinct ([] : List α) = 0 := rfl

theorem distinct_cons_of_mem (h : a ∈ l) : distinct (a :: l) = distinct l := by
  rw [distinct, List.dedup_cons_of_mem h, distinct]

theorem distinct_cons_of_notMem (h : a ∉ l) : distinct (a :: l) = distinct l + 1 := by
  rw [distinct, List.dedup_cons_of_notMem h, List.length_cons, distinct]

theorem distinct_append_le (l m : List α) : distinct (l ++ m) ≤ l.length + distinct m := by
  induction l with
  | nil => simp
  | cons a l ih =>
      rw [List.cons_append, List.length_cons]
      by_cases ha : a ∈ l ++ m
      · rw [distinct_cons_of_mem ha]
        omega
      · rw [distinct_cons_of_notMem ha]
        omega

/-- A batch is counted in full where it has no entry twice and none of the entries before. -/
theorem distinct_append_eq_iff :
    distinct (l ++ m) = l.length + distinct m ↔ l.Nodup ∧ ∀ a ∈ l, a ∉ m := by
  induction l with
  | nil => simp
  | cons a l ih =>
      have hle := distinct_append_le l m
      rw [List.cons_append, List.length_cons, List.nodup_cons, List.forall_mem_cons]
      by_cases ha : a ∈ l ++ m
      · rw [distinct_cons_of_mem ha]
        refine iff_of_false (by omega) ?_
        rintro ⟨⟨hal, -⟩, ham, -⟩
        rcases List.mem_append.mp ha with h | h
        · exact hal h
        · exact ham h
      · rw [distinct_cons_of_notMem ha]
        rw [List.mem_append, not_or] at ha
        have hc : distinct (l ++ m) + 1 = l.length + 1 + distinct m ↔
            distinct (l ++ m) = l.length + distinct m := by omega
        rw [hc, ih, and_iff_right ha.1, and_iff_right ha.2]

/-- The counter after a batch of which the entries `fresh` are noted down. -/
theorem add_eq_distinct_iff (hn : distinct seen ≤ n) (hs : fresh.Sublist hits) :
    n + hits.length = distinct (fresh ++ seen) ↔
      n = distinct seen ∧ fresh = hits ∧ hits.Nodup ∧ ∀ a ∈ hits, a ∉ seen := by
  have hle := distinct_append_le fresh seen
  have hlen := hs.length_le
  constructor
  · intro h
    obtain rfl : fresh = hits := hs.eq_of_length (by omega)
    have heq : distinct (fresh ++ seen) = fresh.length + distinct seen := by omega
    exact ⟨by omega, rfl, distinct_append_eq_iff.mp heq⟩
  · rintro ⟨rfl, rfl, hnd, hnew⟩
    rw [distinct_append_eq_iff.mpr ⟨hnd, hnew⟩, Nat.add_comm]

/-- The counter never falls behind. -/
theorem distinct_append_le_add (hn : distinct seen ≤ n) (hs : fresh.Sublist hits) :
    distinct (fresh ++ seen) ≤ n + hits.length := by
  have hle := distinct_append_le fresh seen
  have hlen := hs.length_le
  omega

end Distinct
