import Mathlib.Algebra.BigOperators.Group.List.Basic
import Mathlib.Algebra.Order.Group.Nat
import Mathlib.Algebra.GroupWithZero.Nat

/-! # Tallies over a list of parties

What the parties of a list hold together, when one of them changes at a time.
-/

namespace Tally

variable {α : Type*} (f : α → ℕ) {l : List α} {t u : ℕ} {x y z : α}

/-- The sum of what the members of `l` contribute. -/
def tally (l : List α) : ℕ := (l.map f).sum

@[simp] theorem tally_nil : tally f [] = 0 := rfl

@[simp] theorem tally_cons (x : α) (l : List α) : tally f (x :: l) = f x + tally f l := by
  simp [tally]

@[simp] theorem tally_append (l m : List α) : tally f (l ++ m) = tally f l + tally f m := by
  simp [tally]

theorem getElem?_set_iff (h : l[t]? = some x) :
    (l.set t y)[u]? = some z ↔ u = t ∧ z = y ∨ u ≠ t ∧ l[u]? = some z := by
  have ht : t < l.length := (List.getElem?_eq_some_iff.mp h).1
  by_cases hu : u = t
  · subst hu
    simp [ht, eq_comm]
  · simp [hu, Ne.symm hu]

theorem set_self (h : l[t]? = some x) : l.set t x = l := by
  obtain ⟨ht, rfl⟩ := List.getElem?_eq_some_iff.mp h
  exact List.set_getElem_self ht

/-- One party gives up what it held for what it holds now. -/
theorem tally_set (h : l[t]? = some x) (y : α) :
    tally f (l.set t y) + f x = tally f l + f y := by
  induction l generalizing t with
  | nil => simp at h
  | cons a l ih =>
      cases t with
      | zero =>
          obtain rfl : a = x := by simpa using h
          simp only [List.set_cons_zero, tally_cons]
          omega
      | succ t =>
          have := ih (by simpa using h)
          simp only [List.set_cons_succ, tally_cons]
          omega

theorem le_tally (h : l[t]? = some x) : f x ≤ tally f l := by
  induction l generalizing t with
  | nil => simp at h
  | cons a l ih =>
      cases t with
      | zero =>
          obtain rfl : a = x := by simpa using h
          simp
      | succ t =>
          have := ih (by simpa using h)
          simp only [tally_cons]
          omega

/-- Two parties hold no more than all of them. -/
theorem add_le_tally (h : l[t]? = some x) (h' : l[u]? = some y) (hne : t ≠ u) :
    f x + f y ≤ tally f l := by
  induction l generalizing t u with
  | nil => simp at h
  | cons a l ih =>
      cases t with
      | zero =>
          obtain rfl : a = x := by simpa using h
          cases u with
          | zero => exact absurd rfl hne
          | succ u =>
              have := le_tally f (l := l) (t := u) (by simpa using h')
              simp only [tally_cons]
              omega
      | succ t =>
          cases u with
          | zero =>
              obtain rfl : a = y := by simpa using h'
              have := le_tally f (l := l) (t := t) (by simpa using h)
              simp only [tally_cons]
              omega
          | succ u =>
              have := ih (t := t) (u := u) (by simpa using h) (by simpa using h')
                fun heq => hne (congrArg Nat.succ heq)
              simp only [tally_cons]
              omega

theorem tally_eq_zero : tally f l = 0 ↔ ∀ x ∈ l, f x = 0 := by
  induction l with
  | nil => simp
  | cons a l ih => simp [ih]

theorem exists_of_tally_pos (h : 0 < tally f l) :
    ∃ (t : ℕ) (x : α), l[t]? = some x ∧ 0 < f x := by
  by_contra hno
  refine absurd ((tally_eq_zero f).mpr fun x hx => ?_) h.ne'
  obtain ⟨t, ht, rfl⟩ := List.mem_iff_getElem.mp hx
  by_contra hpos
  exact hno ⟨t, _, List.getElem?_eq_getElem ht, Nat.pos_of_ne_zero hpos⟩

theorem tally_congr {g : α → ℕ} (h : ∀ x ∈ l, f x = g x) : tally f l = tally g l :=
  congrArg List.sum (List.map_congr_left h)

end Tally
