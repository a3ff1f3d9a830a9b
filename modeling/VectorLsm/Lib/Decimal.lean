import Mathlib.Data.List.Infix
import Mathlib.Data.List.TakeWhile
import Mathlib.Tactic.TypeStar

/-! # Decimal fields of a name

A number is written with its decimal digits; what follows it begins with another character. Names
with the same fields can be compared field by field.
-/

namespace Decimal

variable {α : Type*}

/-- Two fields that end where `P` fails agree up to there, or not at all. -/
theorem field_prefix_iff {P : α → Prop} {a b : α} {xs ys : List α} (ha : ¬ P a) (hb : ¬ P b) :
    ∀ {l l' : List α}, (∀ c ∈ l, P c) → (∀ c ∈ l', P c) →
      (l ++ a :: xs <+: l' ++ b :: ys ↔ l = l' ∧ a = b ∧ xs <+: ys)
  | [], [], _, _ => by simp [List.cons_prefix_cons]
  | [], c :: l', _, hl' => by
      have hac : a ≠ c := by
        rintro rfl
        exact ha (hl' a List.mem_cons_self)
      simp [List.cons_prefix_cons, hac]
  | c :: l, [], hl, _ => by
      have hcb : c ≠ b := by
        rintro rfl
        exact hb (hl c List.mem_cons_self)
      simp [List.cons_prefix_cons, hcb]
  | c :: l, c' :: l', hl, hl' => by
      have ih : l ++ a :: xs <+: l' ++ b :: ys ↔ l = l' ∧ a = b ∧ xs <+: ys :=
        field_prefix_iff ha hb (fun x hx => hl x (List.mem_cons_of_mem _ hx))
          fun x hx => hl' x (List.mem_cons_of_mem _ hx)
      rw [List.cons_append, List.cons_append, List.cons_prefix_cons, ih, List.cons.injEq,
        and_assoc]

theorem field_eq_iff {P : α → Prop} {a b : α} {xs ys l l' : List α} (ha : ¬ P a) (hb : ¬ P b)
    (hl : ∀ c ∈ l, P c) (hl' : ∀ c ∈ l', P c) :
    l ++ a :: xs = l' ++ b :: ys ↔ l = l' ∧ a = b ∧ xs = ys := by
  constructor
  · intro h
    obtain ⟨rfl, rfl, -⟩ := (field_prefix_iff ha hb hl hl').mp ⟨[], by rw [List.append_nil, h]⟩
    refine ⟨rfl, rfl, ?_⟩
    simpa using h
  · rintro ⟨rfl, rfl, rfl⟩
    rfl

/-- The number as `%u` prints it. -/
def digits (n : ℕ) : List Char := Nat.toDigits 10 n

theorem isDigit_of_mem {n : ℕ} {c : Char} (h : c ∈ digits n) : c.isDigit :=
  Nat.isDigit_of_mem_toDigits (by decide) (by decide) h

theorem digits_injective : Function.Injective digits := by
  intro m n h
  have hmn := congrArg (fun ds => Nat.ofDigitChars 10 ds 0) h
  simpa [digits] using hmn

@[simp] theorem digits_inj {m n : ℕ} : digits m = digits n ↔ m = n := digits_injective.eq_iff

theorem number_prefix_iff {a b : Char} {xs ys : List Char} {m n : ℕ} (ha : ¬ a.isDigit)
    (hb : ¬ b.isDigit) :
    digits m ++ a :: xs <+: digits n ++ b :: ys ↔ m = n ∧ a = b ∧ xs <+: ys := by
  rw [field_prefix_iff (P := (·.isDigit)) ha hb (fun _ => isDigit_of_mem)
    (fun _ => isDigit_of_mem), digits_inj]

theorem number_eq_iff {a b : Char} {xs ys : List Char} {m n : ℕ} (ha : ¬ a.isDigit)
    (hb : ¬ b.isDigit) :
    digits m ++ a :: xs = digits n ++ b :: ys ↔ m = n ∧ a = b ∧ xs = ys := by
  rw [field_eq_iff (P := (·.isDigit)) ha hb (fun _ => isDigit_of_mem)
    (fun _ => isDigit_of_mem), digits_inj]

/-- The number at the head of a text. -/
def value (s : List Char) : ℕ := Nat.ofDigitChars 10 (s.takeWhile Char.isDigit) 0

theorem value_digits {n : ℕ} {xs : List Char} (hx : ∀ c ∈ xs.head?, ¬ c.isDigit) :
    value (digits n ++ xs) = n := by
  have hrest : xs.takeWhile Char.isDigit = [] := by
    cases xs with
    | nil => rfl
    | cons c xs => exact List.takeWhile_cons_of_neg (hx c rfl)
  rw [value, List.takeWhile_append_of_pos fun _ => isDigit_of_mem, hrest, List.append_nil]
  simp [digits]

theorem head_digits (n : ℕ) : ∃ c ds, digits n = c :: ds ∧ c.isDigit := by
  cases h : digits n with
  | nil => exact absurd h Nat.toDigits_ne_nil
  | cons c ds => exact ⟨c, ds, rfl, isDigit_of_mem (h ▸ List.mem_cons_self)⟩

end Decimal
