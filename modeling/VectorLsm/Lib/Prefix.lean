import Mathlib.Data.List.Basic
import Mathlib.Order.MinMax
import Mathlib.Tactic.TypeStar

/-! # Cuts of a log

A property of every list that is left of a log when its end is cut off.
-/

namespace Log

variable {α : Type*} {P Q : List α → Prop} {lo : ℕ} {l : List α}

/-- `P` holds of `l` and of what each cut leaves of it that spares the first `lo` elements. -/
def Cuts (P : List α → Prop) (lo : ℕ) (l : List α) : Prop :=
  ∀ n, lo ≤ n → n ≤ l.length → P (l.take n)

namespace Cuts

theorem self (h : Cuts P lo l) (hlo : lo ≤ l.length) : P l := by
  have := h l.length hlo le_rfl
  rwa [List.take_length] at this

theorem imp (h : Cuts P lo l) (hpq : ∀ l, P l → Q l) : Cuts Q lo l := fun n hlo hn =>
  hpq _ (h n hlo hn)

theorem mono {lo' : ℕ} (h : Cuts P lo l) (hlo : lo ≤ lo') : Cuts P lo' l := fun n hn =>
  h n (hlo.trans hn)

/-- A cut of a cut is a cut. -/
theorem take (h : Cuts P lo l) (m : ℕ) : Cuts P lo (l.take m) := by
  intro n hlo hn
  rw [List.length_take] at hn
  rw [List.take_take, min_eq_left (hn.trans (min_le_left _ _))]
  exact h n hlo (hn.trans (min_le_right _ _))

theorem concat {a : α} (h : Cuts P lo l) (ha : P (l ++ [a])) : Cuts P lo (l ++ [a]) := by
  intro n hlo hn
  rw [List.length_append, List.length_singleton] at hn
  rcases Nat.le_succ_iff.mp hn with hle | rfl
  · rw [List.take_append_of_le_length hle]
    exact h n hlo hle
  · rwa [List.take_of_length_le (by simp)]

theorem nil (h : P []) : Cuts P lo [] := by
  intro n _ hn
  rwa [List.take_nil]

/-- A log no part of which can be lost has no cut but itself. -/
theorem of_length (h : P l) : Cuts P l.length l := by
  intro n hlo hn
  rwa [List.take_of_length_le hlo]

end Cuts

end Log
