import Mathlib.Algebra.Group.Nat.Defs
import Mathlib.Data.List.Basic
import Mathlib.Data.Nat.Notation

/-! # Bitmaps in bytes

A bitmap of `n` bits takes `(n + 7) / 8` bytes; bit `i` is bit `i % 8` of byte `i / 8`. What lies
behind the bytes is read as unset.
-/

namespace Bitmap

abbrev Bytes := List (BitVec 8)

def isSlotSet (b : Bytes) (i : ℕ) : Bool := (b.getD (i / 8) 0).getLsbD (i % 8)

def setSlot (b : Bytes) (i : ℕ) : Bytes := b.modify (i / 8) (· ||| BitVec.twoPow 8 (i % 8))

def bitmapSize (n : ℕ) : ℕ := (n + 7) / 8

/-- `calloc` of the bytes for `n` bits. -/
def zeros (n : ℕ) : Bytes := List.replicate (bitmapSize n) 0

/-- The bits of `src` below `n` are set from bit `base` on. -/
def copyBits (src : ℕ → Bool) (base : ℕ) : ℕ → Bytes → Bytes
  | 0, b => b
  | n + 1, b =>
      let b := copyBits src base n b
      if src n then setSlot b (base + n) else b

/-- The bits of the last byte from bit `n` on are cleared. -/
def clearStray (n : ℕ) (b : Bytes) : Bytes :=
  if n % 8 = 0 then b
  else b.modify (bitmapSize n - 1) (· &&& BitVec.ofNat 8 (2 ^ (n % 8) - 1))

variable {b : Bytes} {src : ℕ → Bool} {i j n base : ℕ}

theorem isSlotSet_zeros (n i : ℕ) : isSlotSet (zeros n) i = false := by
  have h0 : (zeros n).getD (i / 8) 0 = 0 := by
    rw [zeros, List.getD_eq_getElem?_getD, List.getElem?_replicate]
    split <;> rfl
  rw [isSlotSet, h0]
  exact BitVec.getLsbD_zero

@[simp] theorem length_setSlot : (setSlot b i).length = b.length := List.length_modify _ _ _

theorem getD_modify {k m : ℕ} {f : BitVec 8 → BitVec 8} (hk : k < b.length) :
    (b.modify k f).getD m 0 = if k = m then f (b.getD m 0) else b.getD m 0 := by
  rw [List.getD_eq_getElem?_getD, List.getElem?_modify, List.getD_eq_getElem?_getD]
  by_cases h : k = m
  · subst h
    simp [List.getElem?_eq_getElem hk]
  · simp [h]

theorem isSlotSet_setSlot (hi : i / 8 < b.length) :
    isSlotSet (setSlot b i) j = true ↔ isSlotSet b j = true ∨ j = i := by
  rw [isSlotSet, setSlot, getD_modify hi]
  by_cases h : i / 8 = j / 8
  · rw [if_pos h, BitVec.getLsbD_or, BitVec.getLsbD_twoPow, Bool.or_eq_true]
    refine or_congr_right ?_
    rw [Bool.and_eq_true, decide_eq_true_eq, decide_eq_true_eq]
    omega
  · rw [if_neg h]
    have hne : j ≠ i := by
      rintro rfl
      exact h rfl
    rw [or_iff_left hne, isSlotSet]

@[simp] theorem length_copyBits : (copyBits src base n b).length = b.length := by
  induction n with
  | zero => rfl
  | succ n ih =>
      rw [copyBits]
      split
      · rw [length_setSlot, ih]
      · exact ih

theorem isSlotSet_copyBits (hn : base + n ≤ 8 * b.length) :
    isSlotSet (copyBits src base n b) j = true ↔
      isSlotSet b j = true ∨ ∃ i < n, src i = true ∧ j = base + i := by
  induction n with
  | zero => simp [copyBits]
  | succ n ih =>
      have ih := ih (by omega)
      have hsplit : (∃ i < n + 1, src i = true ∧ j = base + i) ↔
          (∃ i < n, src i = true ∧ j = base + i) ∨ (src n = true ∧ j = base + n) := by
        constructor
        · rintro ⟨i, hi, h⟩
          rcases Nat.lt_succ_iff_lt_or_eq.mp hi with hi | rfl
          · exact .inl ⟨i, hi, h⟩
          · exact .inr h
        · rintro (⟨i, hi, h⟩ | h)
          · exact ⟨i, Nat.lt_succ_of_lt hi, h⟩
          · exact ⟨n, Nat.lt_succ_self n, h⟩
      rw [copyBits, hsplit, ← or_assoc, ← ih]
      split
      case isTrue hs =>
        rw [isSlotSet_setSlot (by rw [length_copyBits]; omega), and_iff_right hs]
      case isFalse hs =>
        rw [or_iff_left fun h => hs h.1]

theorem isSlotSet_of_le (h : 8 * b.length ≤ i) : isSlotSet b i = false := by
  have h0 : b.getD (i / 8) 0 = 0 := by
    rw [List.getD_eq_getElem?_getD, List.getElem?_eq_none (by omega)]
    rfl
  rw [isSlotSet, h0]
  exact BitVec.getLsbD_zero

theorem isSlotSet_clearStray (hb : b.length = bitmapSize n) :
    isSlotSet (clearStray n b) i = true ↔ isSlotSet b i = true ∧ i < n := by
  have hsize : bitmapSize n = (n + 7) / 8 := rfl
  -- Behind the last byte no bit is set.
  have hlast : isSlotSet b i = true → i < 8 * b.length := by
    intro h
    by_contra hlt
    rw [isSlotSet_of_le (Nat.le_of_not_lt hlt)] at h
    cases h
  rw [clearStray]
  split
  case isTrue h0 =>
    refine (and_iff_left_of_imp fun h => ?_).symm
    have := hlast h
    omega
  case isFalse h0 =>
    rw [isSlotSet, getD_modify (by omega)]
    split
    case isTrue hk =>
      have hbit : (BitVec.ofNat 8 (2 ^ (n % 8) - 1)).getLsbD (i % 8) = decide (i % 8 < n % 8) := by
        rw [BitVec.getLsbD_ofNat, Nat.testBit_two_pow_sub_one]
        simp [Nat.mod_lt]
      rw [BitVec.getLsbD_and, Bool.and_eq_true, hbit, decide_eq_true_eq, isSlotSet]
      refine and_congr_right fun _ => ?_
      omega
    case isFalse hk =>
      refine (and_iff_left_of_imp fun h => ?_).symm
      have := hlast h
      omega

end Bitmap
