import Mathlib.Algebra.Order.Ring.Nat
import Mathlib.Data.List.Basic
import Mathlib.Tactic.Ring

/-! # Little endian numbers

The bytes of a number, least significant first, at a fixed width. Numbers below the bound of the
width and lists of that many bytes correspond to each other.
-/

namespace LittleEndian

/-- The bytes of a number. -/
def bytes : ℕ → ℕ → List UInt8
  | 0, _ => []
  | k + 1, n => UInt8.ofNat (n % 256) :: bytes k (n / 256)

/-- The number that bytes stand for. -/
def value : List UInt8 → ℕ
  | [] => 0
  | b :: bs => b.toNat + 256 * value bs

variable {k n : ℕ}

@[simp] theorem length_bytes (k n : ℕ) : (bytes k n).length = k := by
  induction k generalizing n with
  | zero => rfl
  | succ k ih => rw [bytes, List.length_cons, ih]

theorem value_lt (bs : List UInt8) : value bs < 256 ^ bs.length := by
  induction bs with
  | nil => exact Nat.one_pos
  | cons b bs ih =>
      have hb : b.toNat < 256 := b.toNat_lt
      rw [value, List.length_cons, pow_succ]
      omega

theorem value_bytes (h : n < 256 ^ k) : value (bytes k n) = n := by
  induction k generalizing n with
  | zero => exact (Nat.lt_one_iff.mp h).symm
  | succ k ih =>
      have hdiv : n / 256 < 256 ^ k := Nat.div_lt_of_lt_mul (by rwa [pow_succ'] at h)
      have hmod : (UInt8.ofNat (n % 256)).toNat = n % 256 := by
        rw [UInt8.toNat_ofNat']
        exact Nat.mod_eq_of_lt (Nat.mod_lt n (by decide))
      rw [bytes, value, ih hdiv, hmod, Nat.mod_add_div]

theorem bytes_value {bs : List UInt8} (h : bs.length = k) : bytes k (value bs) = bs := by
  induction bs generalizing k with
  | nil =>
      obtain rfl := h
      rfl
  | cons b bs ih =>
      obtain rfl := h
      have hb : b.toNat < 256 := b.toNat_lt
      have hmod : (b.toNat + 256 * value bs) % 256 = b.toNat := by omega
      have hdiv : (b.toNat + 256 * value bs) / 256 = value bs := by omega
      rw [List.length_cons, bytes, value, hmod, hdiv, ih rfl, UInt8.ofNat_toNat]

end LittleEndian
