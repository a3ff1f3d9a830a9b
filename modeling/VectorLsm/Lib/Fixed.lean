import Mathlib.Data.Nat.Digits.Defs
import Mathlib.Data.List.Basic
import Mathlib.Tactic.Ring

/-! # Numbers at a fixed width

A number printed with leading zeros at a width that holds it. At one width such texts are equal
for equal numbers only, and a name that joins several of them can be taken apart again.
-/

namespace Fixed

variable {b k m n : ℕ} {xs ys : List Char}

/-- The number `n` to base `b` at width `k`, most significant digit first. -/
def padded (b : ℕ) : ℕ → ℕ → List Char
  | 0, _ => []
  | k + 1, n => padded b k (n / b) ++ [(n % b).digitChar]

@[simp] theorem length_padded (b k n : ℕ) : (padded b k n).length = k := by
  induction k generalizing n with
  | zero => rfl
  | succ k ih => rw [padded, List.length_append, ih, List.length_singleton]

theorem mem_padded {c : Char} (hb : 0 < b) (h : c ∈ padded b k n) : ∃ d < b, c = d.digitChar := by
  induction k generalizing n with
  | zero => cases h
  | succ k ih =>
      rcases List.mem_append.mp h with h | h
      · exact ih h
      · exact ⟨n % b, Nat.mod_lt n hb, List.mem_singleton.mp h⟩

theorem digitChar_inj (hm : m < 16) (hn : n < 16) (h : m.digitChar = n.digitChar) : m = n := by
  have hall : ∀ m < 16, ∀ n < 16, m.digitChar = n.digitChar → m = n := by decide
  exact hall m hm n hn h

theorem padded_inj (hb : 0 < b) (hb' : b ≤ 16) (hm : m < b ^ k) (hn : n < b ^ k)
    (h : padded b k m = padded b k n) : m = n := by
  induction k generalizing m n with
  | zero =>
      rw [pow_zero, Nat.lt_one_iff] at hm hn
      rw [hm, hn]
  | succ k ih =>
      obtain ⟨hq, hr⟩ := List.append_inj' h rfl
      have hdiv : m / b = n / b :=
        ih (Nat.div_lt_of_lt_mul (by rwa [pow_succ'] at hm))
          (Nat.div_lt_of_lt_mul (by rwa [pow_succ'] at hn)) hq
      have hmod : m % b = n % b :=
        digitChar_inj ((Nat.mod_lt m hb).trans_le hb') ((Nat.mod_lt n hb).trans_le hb')
          (List.singleton_inj.mp hr)
      rw [← Nat.div_add_mod m b, hdiv, hmod, Nat.div_add_mod]

/-- A padded number in front of a text can be told from it. -/
theorem padded_append_inj (hb : 0 < b) (hb' : b ≤ 16) (hm : m < b ^ k) (hn : n < b ^ k) :
    padded b k m ++ xs = padded b k n ++ ys ↔ m = n ∧ xs = ys := by
  constructor
  · intro h
    obtain ⟨hpad, hrest⟩ :=
      List.append_inj h ((length_padded b k m).trans (length_padded b k n).symm)
    exact ⟨padded_inj hb hb' hm hn hpad, hrest⟩
  · rintro ⟨rfl, rfl⟩
    rfl

end Fixed
