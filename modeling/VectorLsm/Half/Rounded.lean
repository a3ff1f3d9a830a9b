import Mathlib.Tactic.IntervalCases
import VectorLsm.Half.Convert

/-! # The conversions are correct

A half becomes the float of the same value. A float becomes the nearest half, ties to even, with
overflow and underflow as the format has them, so that the way there and back is the identity.
-/

namespace VectorLsm.Half

/-! ## Values -/

section Value

variable {p e m : ℕ}

theorem value_normal (he : e ≠ 0) (hm : m < 2 ^ p) :
    value p (e * 2 ^ p + m) = (2 ^ p + m) * 2 ^ (e - 1) := by
  have hdiv : (e * 2 ^ p + m) / 2 ^ p = e := by
    rw [Nat.mul_comm, Nat.mul_add_div (Nat.two_pow_pos p), Nat.div_eq_of_lt hm, Nat.add_zero]
  have hmod : (e * 2 ^ p + m) % 2 ^ p = m := by
    rw [Nat.mul_comm, Nat.mul_add_mod, Nat.mod_eq_of_lt hm]
  rw [value, hdiv, hmod, if_neg he]

theorem value_subnormal (hm : m < 2 ^ p) : value p m = m := by
  rw [value, if_pos (Nat.div_eq_of_lt hm)]

/-- The step from the last number of one exponent to the first of the next is like those before. -/
theorem value_next (he : e ≠ 0) (hm : m ≤ 2 ^ p) :
    value p (e * 2 ^ p + m) = (2 ^ p + m) * 2 ^ (e - 1) := by
  rcases Nat.lt_or_eq_of_le hm with hlt | rfl
  · exact value_normal he hlt
  · have h := value_normal (p := p) (Nat.succ_ne_zero e) (Nat.two_pow_pos p)
    obtain ⟨e, rfl⟩ := Nat.exists_eq_succ_of_ne_zero he
    rw [← Nat.succ_mul, ← Nat.add_zero (_ * _), h, Nat.succ_sub_one, Nat.succ_sub_one, pow_succ]
    ring

theorem value_first (hm : m ≤ 2 ^ p) : value p m = m := by
  rcases Nat.lt_or_eq_of_le hm with hlt | rfl
  · exact value_subnormal hlt
  · have h := value_normal (p := p) Nat.one_ne_zero (Nat.two_pow_pos p)
    rwa [Nat.one_mul, Nat.add_zero, Nat.sub_self, pow_zero, Nat.mul_one] at h

theorem strictMono_value (p : ℕ) : StrictMono (value p) := by
  refine strictMono_nat_of_lt_succ fun b => ?_
  have hb : b = b / 2 ^ p * 2 ^ p + b % 2 ^ p := (Nat.div_add_mod' b (2 ^ p)).symm
  have hlt : b % 2 ^ p < 2 ^ p := Nat.mod_lt b (Nat.two_pow_pos p)
  rcases Nat.eq_zero_or_pos (b / 2 ^ p) with h0 | hpos
  · rw [h0, Nat.zero_mul, Nat.zero_add] at hb
    rw [hb, value_first hlt.le, value_first hlt]
    exact Nat.lt_succ_self _
  · rw [hb, Nat.add_assoc, value_next hpos.ne' hlt.le, value_next hpos.ne' hlt]
    exact Nat.mul_lt_mul_of_pos_right (by omega) (Nat.two_pow_pos _)

theorem strictMono_halfPoint : StrictMono halfPoint := fun _ _ h =>
  Nat.mul_lt_mul_of_pos_right (strictMono_value 10 h) (Nat.two_pow_pos 125)

end Value

/-! ## Bits -/

section Bits

variable {n e m s diff : ℕ}

theorem and_mask (n s w : ℕ) : (n &&& (2 ^ w - 1) <<< s) >>> s = n / 2 ^ s % 2 ^ w := by
  rw [Nat.shiftRight_and_distrib, Nat.shiftLeft_shiftRight, Nat.and_two_pow_sub_one_eq_mod,
    Nat.shiftRight_eq_div_pow]

theorem and_field (n s w : ℕ) : n &&& (2 ^ w - 1) <<< s = n / 2 ^ s % 2 ^ w * 2 ^ s := by
  rw [← and_mask, ← Nat.shiftLeft_eq]
  refine Nat.eq_of_testBit_eq fun i => ?_
  simp only [Nat.testBit_shiftLeft, Nat.testBit_shiftRight, Nat.testBit_and]
  by_cases hi : s ≤ i
  · simp [hi]
  · simp [hi]

theorem and_sign {s : ℕ} (h : n < 2 ^ (s + 1)) : n &&& 2 ^ s = n / 2 ^ s * 2 ^ s := by
  have hlt : n / 2 ^ s < 2 := Nat.div_lt_of_lt_mul (by rwa [pow_succ] at h)
  rw [Nat.and_two_pow, Nat.toNat_testBit, Nat.mod_eq_of_lt hlt]

theorem shiftLeft_or (h : m < 2 ^ s) : e <<< s ||| m = e * 2 ^ s + m := by
  rw [← Nat.shiftLeft_add_eq_or_of_lt h, Nat.shiftLeft_eq]

end Bits

/-! ## From half to float -/

section ToFloat

variable {e m : ℕ}

/-- The loop shifts the leading bit of a subnormal to its place and takes it off. -/
theorem normalize_spec (i : ℕ) (exponent : ℤ) (hm : m < 2 ^ 10) (hi : 2 ^ 10 ≤ m * 2 ^ i) :
    ∃ j ≤ i, ∃ m' < 2 ^ 10, 0 < j ∧ m * 2 ^ j = 2 ^ 10 + m' ∧
      normalize i exponent m = (exponent - j, m') := by
  induction i generalizing m exponent with
  | zero => omega
  | succ i ih =>
      have hshift : m <<< 1 = 2 * m := by rw [Nat.shiftLeft_eq, pow_one, Nat.mul_comm]
      have hbit : m <<< 1 >>> 10 % 2 = 2 * m / 2 ^ 10 := by
        rw [hshift, Nat.shiftRight_eq_div_pow]
        omega
      rw [normalize]
      simp only [hbit]
      split
      · rename_i h1
        refine ⟨1, by omega, 2 * m - 2 ^ 10, by omega, Nat.one_pos, by omega, ?_⟩
        rw [hshift, show 0x03FF = 2 ^ 10 - 1 from rfl, Nat.and_two_pow_sub_one_eq_mod,
          Nat.cast_one, Nat.mod_eq_sub_mod (by omega), Nat.mod_eq_of_lt (by omega)]
      · rename_i h1
        have hm2 : 2 * m < 2 ^ 10 := by omega
        have hi2 : 2 ^ 10 ≤ 2 * m * 2 ^ i := by
          rw [pow_succ] at hi
          calc 2 ^ 10 ≤ m * (2 ^ i * 2) := hi
            _ = 2 * m * 2 ^ i := by ring
        obtain ⟨j, hj, m', hm', hpos, heq, hnorm⟩ := ih (exponent - 1) hm2 hi2
        refine ⟨j + 1, by omega, m', hm', by omega, ?_, ?_⟩
        · rw [← heq, pow_succ]
          ring
        · rw [hshift, hnorm]
          congr 1
          push_cast
          ring

/-- A finite half becomes the finite float of its value. -/
theorem floatBits_finite (he : e < 31) (hm : m < 2 ^ 10) :
    floatBits e m < floatInf ∧ floatValue (floatBits e m) = halfPoint (e * 2 ^ 10 + m) := by
  have hm13 : m <<< 13 = m * 2 ^ 13 := Nat.shiftLeft_eq m 13
  rcases Nat.eq_zero_or_pos e with rfl | hpos
  · rw [Nat.zero_mul, Nat.zero_add, halfPoint, value_subnormal hm]
    rcases Nat.eq_zero_or_pos m with rfl | hm0
    · exact ⟨by decide, by decide⟩
    · obtain ⟨j, hj, m', hm', hj0, heq, hnorm⟩ := normalize_spec (m := m) 10 (-14) hm
        (Nat.le_mul_of_pos_left _ hm0)
      have hexp : ((-14 : ℤ) - j + 127).toNat = 113 - j := by omega
      have hbits : floatBits 0 m = (113 - j) * 2 ^ 23 + m' * 2 ^ 13 := by
        rw [floatBits, if_neg (by decide), if_pos rfl, if_pos hm0.ne', hnorm]
        simp only [hexp]
        rw [Nat.shiftLeft_eq m', shiftLeft_or (by omega)]
      refine ⟨by rw [hbits, floatInf]; omega, ?_⟩
      have hpow : (2 : ℕ) ^ 125 = 2 ^ j * (2 ^ 13 * 2 ^ (113 - j - 1)) := by
        rw [← pow_add, ← pow_add]
        congr 1
        omega
      rw [hbits, floatValue, value_normal (by omega) (by omega), hpow]
      calc (2 ^ 23 + m' * 2 ^ 13) * 2 ^ (113 - j - 1)
          = (2 ^ 10 + m') * (2 ^ 13 * 2 ^ (113 - j - 1)) := by ring
        _ = m * (2 ^ j * (2 ^ 13 * 2 ^ (113 - j - 1))) := by rw [← heq]; ring
  · have hbits : floatBits e m = (e + 112) * 2 ^ 23 + m * 2 ^ 13 := by
      rw [floatBits, if_neg (by omega), if_neg (by omega), hm13, shiftLeft_or (by omega),
        Nat.add_sub_assoc (by decide)]
    refine ⟨by rw [hbits, floatInf]; omega, ?_⟩
    have hpow : (2 : ℕ) ^ 13 * 2 ^ (e + 112 - 1) = 2 ^ (e - 1) * 2 ^ 125 := by
      rw [← pow_add, ← pow_add]
      congr 1
      omega
    rw [hbits, floatValue, value_normal (by omega) (by omega), halfPoint,
      value_normal hpos.ne' hm]
    calc (2 ^ 23 + m * 2 ^ 13) * 2 ^ (e + 112 - 1)
        = (2 ^ 10 + m) * (2 ^ 13 * 2 ^ (e + 112 - 1)) := by ring
      _ = (2 ^ 10 + m) * 2 ^ (e - 1) * 2 ^ 125 := by rw [hpow]; ring

theorem floatBits_inf : floatBits 31 0 = floatInf := rfl

/-- The payload of a NaN keeps its place behind the quiet bit. -/
theorem floatBits_nan (hm : m < 2 ^ 10) (h0 : m ≠ 0) :
    floatBits 31 m = 0xFF * 2 ^ 23 + (2 ^ 9 ||| m) * 2 ^ 13 := by
  have hlt : 2 ^ 9 ||| m < 2 ^ 10 := Nat.or_lt_two_pow (by decide) hm
  have hor : (0x7FC00000 : ℕ) ||| m <<< 13 = (0xFF <<< 10 ||| (2 ^ 9 ||| m)) <<< 13 := by
    rw [Nat.shiftLeft_or_distrib, Nat.shiftLeft_or_distrib, ← Nat.or_assoc]
    rfl
  rw [floatBits, if_pos rfl, if_neg h0, hor, shiftLeft_or hlt, Nat.shiftLeft_eq, Nat.add_mul,
    Nat.mul_assoc, ← pow_add]

end ToFloat

/-! ## From float to half -/

section ToHalf

open NearestEven

variable {E F x : ℕ}

theorem and_fff (x : ℕ) : x &&& 0x00000FFF = x % 2 ^ 12 :=
  Nat.and_two_pow_sub_one_eq_mod x 12

/-- The guard bit and the bits behind it round the normal numbers to even. -/
theorem guard_normal (x : ℕ) :
    (if x >>> 12 % 4 = 3 ∨ x >>> 12 % 4 = 1 ∧ x &&& 0x00000FFF ≠ 0 then x >>> 13 + 1
      else x >>> 13) = roundEven x 13 := by
  rw [and_fff, roundEven, Nat.shiftRight_eq_div_pow, Nat.shiftRight_eq_div_pow]
  split <;> split <;> omega

/-- For the subnormal numbers the bits that the first shift drops are looked at in part only. The
others are dropped from numbers that have no guard bit. -/
theorem guard_subnormal {diff : ℕ} (hF : F < 2 ^ 23) (hd : 1 ≤ diff) (hd' : diff ≤ 14)
    (hx : x = F >>> diff + 1 <<< (23 - diff)) :
    (if x >>> 12 % 4 = 3 ∨ x >>> 12 % 4 = 1 ∧ (F &&& 0x00000FFF) ||| (x &&& 0x00000FFF) ≠ 0
      then x >>> 13 + 1 else x >>> 13) = roundEven (2 ^ 23 + F) (13 + diff) := by
  have hne : (F &&& 0x00000FFF) ||| (x &&& 0x00000FFF) ≠ 0 ↔ F % 2 ^ 12 ≠ 0 ∨ x % 2 ^ 12 ≠ 0 := by
    rw [and_fff, and_fff, Ne, Nat.or_eq_zero_iff]
    omega
  simp only [hne, roundEven, Nat.shiftRight_eq_div_pow]
  rw [Nat.shiftRight_eq_div_pow, Nat.shiftLeft_eq, Nat.one_mul] at hx
  clear hne
  interval_cases diff <;> split <;> split <;> omega

/-- A carry out of the kept bits moves to the next exponent, of a subnormal to the first normal
number and of the last exponent to infinity. -/
theorem roundBits_eq {e : ℤ} {s r : ℕ}
    (hr : (if x >>> 12 % 4 = 3 ∨ x >>> 12 % 4 = 1 ∧ s ≠ 0 then x >>> 13 + 1 else x >>> 13) = r)
    (hle : r ≤ 2 ^ 10) (he : -15 ≤ e ∨ r < 2 ^ 10) :
    roundBits e x s = min (if -14 ≤ e then (e + 15).toNat * 2 ^ 10 + r else r) halfInf := by
  have hinf : halfInf = 31 * 2 ^ 10 := rfl
  rcases Nat.lt_or_eq_of_le hle with hlt | h1024
  · have hne : ¬ r = 1024 := hlt.ne
    simp only [roundBits, hr, hne, if_false, shiftLeft_or hlt]
    split_ifs <;> omega
  · have heq : r = 1024 := h1024
    simp only [roundBits, hr, heq, if_true, Nat.or_zero, Nat.shiftLeft_eq]
    split_ifs <;> omega

theorem roundEven_le {n k : ℕ} : roundEven n k ≤ n / 2 ^ k + 1 :=
  Nat.add_le_add_left (by split <;> omega) _

theorem halfPoint_halfInf : halfPoint halfInf = 2 ^ 23 * 2 ^ 142 := by
  rw [halfPoint, show halfInf = 31 * 2 ^ 10 + 0 from rfl, value_normal (by decide) (by decide),
    Nat.add_zero, ← pow_add, ← pow_add, ← pow_add]

theorem overflow (hE : 143 ≤ E) (hF : F < 2 ^ 23) :
    NearestEven halfPoint halfInf (floatValue (E * 2 ^ 23 + F)) halfInf := by
  refine of_top_le strictMono_halfPoint ?_
  rw [halfPoint_halfInf, floatValue, value_normal (by omega) hF]
  exact Nat.mul_le_mul (Nat.le_add_right _ _) (Nat.pow_le_pow_right (by decide) (by omega))

theorem underflow (hE : E ≤ 98) (hF : F < 2 ^ 23) :
    NearestEven halfPoint halfInf (floatValue (E * 2 ^ 23 + F)) 0 := by
  have hsmall : floatValue (E * 2 ^ 23 + F) < 2 ^ 24 * 2 ^ 97 := by
    rcases Nat.eq_zero_or_pos E with rfl | hpos
    · rw [Nat.zero_mul, Nat.zero_add, floatValue, value_subnormal hF]
      exact hF.trans (by decide)
    · rw [floatValue, value_normal hpos.ne' hF]
      calc (2 ^ 23 + F) * 2 ^ (E - 1)
          ≤ (2 ^ 23 + F) * 2 ^ 97 :=
            Nat.mul_le_mul_left _ (Nat.pow_le_pow_right (by decide) (by omega))
        _ < 2 ^ 24 * 2 ^ 97 := Nat.mul_lt_mul_of_pos_right (by omega) (by decide)
  have h0 : halfPoint 0 = 0 := rfl
  have h1 : halfPoint (0 + 1) = 2 ^ 125 := rfl
  refine of_lower strictMono_halfPoint (by decide) (by rw [h0]; exact Nat.zero_le _) (.inl ?_)
  rw [h0, h1, Nat.zero_add]
  omega

theorem kept_lt {d diff : ℕ} (hd : d ≤ 11) (hdiff : d ≤ diff) (hF : F < 2 ^ 23) :
    (2 ^ 23 + F) / 2 ^ (13 + diff) < 2 ^ (11 - d) := by
  refine Nat.div_lt_of_lt_mul ?_
  calc 2 ^ 23 + F < 2 ^ (13 + d) * 2 ^ (11 - d) := by
        rw [← pow_add, show 13 + d + (11 - d) = 24 by omega]
        omega
    _ ≤ 2 ^ (13 + diff) * 2 ^ (11 - d) :=
      Nat.mul_le_mul_right _ (Nat.pow_le_pow_right (by decide) (by omega))

/-- The subnormal halves are the multiples of `2 ^ 125`. -/
theorem halfBits_subnormal (h98 : 98 < E) (h113 : E < 113) (hF : F < 2 ^ 23) :
    NearestEven halfPoint halfInf (floatValue (E * 2 ^ 23 + F))
      (roundEven (2 ^ 23 + F) (13 + (113 - E))) := by
  have hkept : (2 ^ 23 + F) / 2 ^ (13 + (113 - E)) < 2 ^ 10 :=
    kept_lt (d := 1) (by decide) (by omega) hF
  have hpoint : ∀ i ≤ (2 ^ 23 + F) / 2 ^ (13 + (113 - E)) + 1,
      halfPoint (0 + i) = (0 + i * 2 ^ (13 + (113 - E))) * 2 ^ (E - 1) := by
    intro i hi
    have hi10 : i ≤ 2 ^ 10 := by omega
    have hexp : 13 + (113 - E) + (E - 1) = 125 := by omega
    rw [Nat.zero_add, Nat.zero_add, halfPoint, value_first hi10, Nat.mul_assoc, ← pow_add, hexp]
  have hv : floatValue (E * 2 ^ 23 + F) = (0 + (2 ^ 23 + F)) * 2 ^ (E - 1) := by
    rw [floatValue, value_normal (by omega) hF, Nat.zero_add]
  have h : NearestEven halfPoint halfInf (floatValue (E * 2 ^ 23 + F))
      (0 + roundEven (2 ^ 23 + F) (13 + (113 - E))) :=
    of_uniform strictMono_halfPoint (Nat.two_pow_pos _) (by decide)
      (by rw [Nat.zero_add]; exact hkept.trans (by decide)) hv hpoint
  rwa [Nat.zero_add] at h

theorem halfBits_normal (h113 : 113 ≤ E) (h143 : E < 143) (hF : F < 2 ^ 23) :
    NearestEven halfPoint halfInf (floatValue (E * 2 ^ 23 + F))
      ((E - 112) * 2 ^ 10 + roundEven F 13) := by
  have hkept : F / 2 ^ 13 < 2 ^ 10 := Nat.div_lt_of_lt_mul hF
  refine of_uniform (o := 2 ^ 23) (s := 2 ^ (E - 1)) strictMono_halfPoint (Nat.two_pow_pos _)
    ((by decide : Even (2 ^ 10)).mul_left _) ?_ ?_ fun i hi => ?_
  · rw [show halfInf = 31 * 2 ^ 10 from rfl]
    omega
  · rw [floatValue, value_normal (by omega) hF]
  · have hexp : (2 : ℕ) ^ (E - 112 - 1) * 2 ^ 125 = 2 ^ 13 * 2 ^ (E - 1) := by
      rw [← pow_add, ← pow_add]
      congr 1
      omega
    rw [halfPoint, value_next (by omega) (by omega), Nat.mul_assoc, hexp]
    ring

/-- A float becomes the nearest half, where infinity counts as the power of two that follows the
largest half. -/
theorem halfBits_nearest (hE : E < 255 ∨ E = 255 ∧ F = 0) (hF : F < 2 ^ 23) :
    NearestEven halfPoint halfInf (floatValue (E * 2 ^ 23 + F)) (halfBits E F) := by
  rcases hE with hE | ⟨rfl, rfl⟩
  swap
  · exact overflow (by decide) hF
  rw [halfBits, if_neg (by omega), if_neg (by omega)]
  dsimp only
  split
  swap
  · exact underflow (by omega) hF
  rename_i h98
  split
  · rename_i h14
    have hdiff : (-((E : ℤ) - 127) - 14).toNat = 113 - E := by omega
    have hkept : (2 ^ 23 + F) / 2 ^ (13 + (113 - E)) < 2 ^ 10 :=
      kept_lt (d := 1) (by decide) (by omega) hF
    have hle : roundEven (2 ^ 23 + F) (13 + (113 - E)) ≤ (2 ^ 23 + F) / 2 ^ (13 + (113 - E)) + 1 :=
      roundEven_le
    have hcarry : -15 ≤ (E : ℤ) - 127 ∨ roundEven (2 ^ 23 + F) (13 + (113 - E)) < 2 ^ 10 := by
      rcases Nat.lt_or_ge E 112 with hlt | hge
      · have hless : (2 ^ 23 + F) / 2 ^ (13 + (113 - E)) < 2 ^ 9 :=
          kept_lt (d := 2) (by decide) (by omega) hF
        omega
      · omega
    rw [hdiff, roundBits_eq (guard_subnormal hF (by omega) (by omega) rfl) (by omega) hcarry,
      if_neg (by omega), Nat.min_eq_left (by rw [show halfInf = 31 * 2 ^ 10 from rfl]; omega)]
    exact halfBits_subnormal h98 (by omega) hF
  · rename_i h14
    have hkept : F / 2 ^ 13 < 2 ^ 10 := Nat.div_lt_of_lt_mul hF
    have hle : roundEven F 13 ≤ F / 2 ^ 13 + 1 := roundEven_le
    have hexp : ((E : ℤ) - 127 + 15).toNat = E - 112 := by omega
    rw [roundBits_eq (guard_normal F) (by omega) (.inl (by omega)), if_pos (by omega), hexp]
    rcases Nat.lt_or_ge E 143 with h143 | h143
    · rw [Nat.min_eq_left (by rw [show halfInf = 31 * 2 ^ 10 from rfl]; omega)]
      exact halfBits_normal (by omega) h143 hF
    · rw [Nat.min_eq_right (by rw [show halfInf = 31 * 2 ^ 10 from rfl]; omega)]
      exact overflow h143 hF

end ToHalf

/-! ## Whole numbers -/

section Whole

variable {e m E F : ℕ}

theorem floatBits_lt (he : e < 2 ^ 5) (hm : m < 2 ^ 10) : floatBits e m < 2 ^ 31 := by
  rcases Nat.lt_or_ge e 31 with hlt | hge
  · exact (floatBits_finite hlt hm).1.trans (by decide)
  · obtain rfl : e = 31 := by omega
    by_cases h0 : m = 0
    · rw [h0, floatBits_inf]
      decide
    · have hor : 2 ^ 9 ||| m < 2 ^ 10 := Nat.or_lt_two_pow (by decide) hm
      rw [floatBits_nan hm h0]
      omega

theorem halfBits_nan (hF : F ≠ 0) : halfBits 255 F = 0x7E00 ||| F >>> 13 := by
  rw [halfBits, if_neg (fun h => hF h.2), if_pos rfl]

theorem halfBits_lt (hE : E < 2 ^ 8) (hF : F < 2 ^ 23) : halfBits E F < 2 ^ 15 := by
  by_cases hnan : E = 255 ∧ F ≠ 0
  · obtain ⟨rfl, h0⟩ := hnan
    have hshift : F >>> 13 < 2 ^ 15 := by
      rw [Nat.shiftRight_eq_div_pow]
      omega
    rw [halfBits_nan h0]
    exact Nat.or_lt_two_pow (by decide) hshift
  · have hle := (halfBits_nearest (E := E) (F := F) (by omega) hF).le_top
    exact hle.trans_lt (by decide)

variable (h : UInt16) (f : UInt32)

theorem halfToFloat4_toNat : (halfToFloat4 h).toNat = halfSign h * 2 ^ 31 +
    floatBits (halfMagnitude h / 2 ^ 10) (halfMagnitude h % 2 ^ 10) := by
  have hlt : h.toNat < 2 ^ 16 := h.toNat_lt
  have hsign : (h.toNat &&& 0x8000) <<< 16 = (h.toNat / 2 ^ 15) <<< 31 := by
    rw [show 0x8000 = 2 ^ 15 from rfl, and_sign hlt, Nat.shiftLeft_eq, Nat.shiftLeft_eq,
      Nat.mul_assoc, ← pow_add]
  have hexp : (h.toNat &&& 0x7C00) >>> 10 = h.toNat % 2 ^ 15 / 2 ^ 10 := by
    rw [show 0x7C00 = (2 ^ 5 - 1) <<< 10 from rfl, and_mask]
    omega
  have hman : h.toNat &&& 0x03FF = h.toNat % 2 ^ 15 % 2 ^ 10 := by
    rw [show 0x03FF = 2 ^ 10 - 1 from rfl, Nat.and_two_pow_sub_one_eq_mod]
    omega
  have hbits := floatBits_lt (e := h.toNat % 2 ^ 15 / 2 ^ 10) (m := h.toNat % 2 ^ 15 % 2 ^ 10)
    (by omega) (by omega)
  rw [halfToFloat4, hsign, hexp, hman, UInt32.toNat_ofNat', shiftLeft_or hbits, halfSign,
    halfMagnitude, Nat.mod_eq_of_lt (by omega)]

theorem float4ToHalfUnchecked_toNat : (float4ToHalfUnchecked f).toNat = floatSign f * 2 ^ 15 +
    halfBits (floatMagnitude f / 2 ^ 23) (floatMagnitude f % 2 ^ 23) := by
  have hlt : f.toNat < 2 ^ 32 := f.toNat_lt
  have hsign : (f.toNat &&& 0x80000000) >>> 16 = (f.toNat / 2 ^ 31) <<< 15 := by
    rw [show 0x80000000 = 2 ^ 31 from rfl, and_sign hlt, Nat.shiftRight_eq_div_pow,
      Nat.shiftLeft_eq]
    omega
  have hexp : (f.toNat &&& 0x7F800000) >>> 23 = f.toNat % 2 ^ 31 / 2 ^ 23 := by
    rw [show 0x7F800000 = (2 ^ 8 - 1) <<< 23 from rfl, and_mask]
    omega
  have hman : f.toNat &&& 0x007FFFFF = f.toNat % 2 ^ 31 % 2 ^ 23 := by
    rw [show 0x007FFFFF = 2 ^ 23 - 1 from rfl, Nat.and_two_pow_sub_one_eq_mod]
    omega
  have hbits := halfBits_lt (E := f.toNat % 2 ^ 31 / 2 ^ 23) (F := f.toNat % 2 ^ 31 % 2 ^ 23)
    (by omega) (by omega)
  rw [float4ToHalfUnchecked, hsign, hexp, hman, UInt16.toNat_ofNat', shiftLeft_or hbits, floatSign,
    floatMagnitude, Nat.mod_eq_of_lt (by omega)]

theorem sign_magnitude {s b n : ℕ} (hb : b < 2 ^ n) :
    (s * 2 ^ n + b) / 2 ^ n = s ∧ (s * 2 ^ n + b) % 2 ^ n = b := by
  rw [Nat.mul_comm]
  exact ⟨by rw [Nat.mul_add_div (Nat.two_pow_pos n), Nat.div_eq_of_lt hb, Nat.add_zero],
    by rw [Nat.mul_add_mod, Nat.mod_eq_of_lt hb]⟩

theorem halfToFloat4_fields : floatSign (halfToFloat4 h) = halfSign h ∧
    floatMagnitude (halfToFloat4 h) =
      floatBits (halfMagnitude h / 2 ^ 10) (halfMagnitude h % 2 ^ 10) := by
  have hlt : halfMagnitude h < 2 ^ 15 := Nat.mod_lt _ (by decide)
  rw [floatSign, floatMagnitude, halfToFloat4_toNat]
  exact sign_magnitude (floatBits_lt (by omega) (Nat.mod_lt _ (by decide)))

theorem float4ToHalfUnchecked_fields : halfSign (float4ToHalfUnchecked f) = floatSign f ∧
    halfMagnitude (float4ToHalfUnchecked f) =
      halfBits (floatMagnitude f / 2 ^ 23) (floatMagnitude f % 2 ^ 23) := by
  have hlt : floatMagnitude f < 2 ^ 31 := Nat.mod_lt _ (by decide)
  rw [halfSign, halfMagnitude, float4ToHalfUnchecked_toNat]
  exact sign_magnitude (halfBits_lt (by omega) (Nat.mod_lt _ (by decide)))

/-- A half becomes the float with its sign and its value, infinity becomes infinity and a NaN a
NaN. -/
theorem halfToFloat4_exact :
    floatSign (halfToFloat4 h) = halfSign h ∧
      (halfMagnitude h < halfInf → floatMagnitude (halfToFloat4 h) < floatInf ∧
        floatValue (floatMagnitude (halfToFloat4 h)) = halfPoint (halfMagnitude h)) ∧
      (halfMagnitude h = halfInf → floatMagnitude (halfToFloat4 h) = floatInf) ∧
      (halfInf < halfMagnitude h → floatInf < floatMagnitude (halfToFloat4 h)) := by
  obtain ⟨hsign, hmag⟩ := halfToFloat4_fields h
  have hinf : halfInf = 31 * 2 ^ 10 := rfl
  have hlt : halfMagnitude h < 2 ^ 15 := Nat.mod_lt _ (by decide)
  have hm : halfMagnitude h % 2 ^ 10 < 2 ^ 10 := Nat.mod_lt _ (by decide)
  rw [hsign, hmag]
  refine ⟨rfl, fun hfin => ?_, fun heq => ?_, fun hnan => ?_⟩
  · have hbits := floatBits_finite (e := halfMagnitude h / 2 ^ 10) (by omega) hm
    rwa [Nat.div_add_mod'] at hbits
  · rw [heq, hinf]
    rfl
  · rw [show halfMagnitude h / 2 ^ 10 = 31 by omega, floatBits_nan hm (by omega)]
    have hquiet : 2 ^ 9 ≤ 2 ^ 9 ||| halfMagnitude h % 2 ^ 10 := Nat.left_le_or
    rw [floatInf]
    omega

/-- A float becomes the nearest half with its sign, ties to even, beyond the largest half as if
infinity were the next power of two; a NaN becomes a NaN. -/
theorem float4ToHalfUnchecked_nearest :
    halfSign (float4ToHalfUnchecked f) = floatSign f ∧
      (floatMagnitude f ≤ floatInf → NearestEven halfPoint halfInf (floatValue (floatMagnitude f))
        (halfMagnitude (float4ToHalfUnchecked f))) ∧
      (floatInf < floatMagnitude f → halfInf < halfMagnitude (float4ToHalfUnchecked f)) := by
  obtain ⟨hsign, hmag⟩ := float4ToHalfUnchecked_fields f
  have hinf : floatInf = 255 * 2 ^ 23 := rfl
  have hlt : floatMagnitude f < 2 ^ 31 := Nat.mod_lt _ (by decide)
  rw [hsign, hmag]
  refine ⟨rfl, fun hnum => ?_, fun hnan => ?_⟩
  · have hnear := halfBits_nearest (E := floatMagnitude f / 2 ^ 23) (F := floatMagnitude f % 2 ^ 23)
      (by omega) (Nat.mod_lt _ (by decide))
    rwa [Nat.div_add_mod'] at hnear
  · rw [show floatMagnitude f / 2 ^ 23 = 255 by omega, halfBits_nan (by omega)]
    exact lt_of_lt_of_le (by decide) Nat.left_le_or

theorem and_magnitude : h.toNat &&& 0x7FFF = halfMagnitude h :=
  Nat.and_two_pow_sub_one_eq_mod h.toNat 15

theorem isNan_iff : isNan h = true ↔ halfInf < halfMagnitude h := by
  have hfield : h.toNat &&& 0x7C00 = h.toNat / 2 ^ 10 % 2 ^ 5 * 2 ^ 10 := and_field h.toNat 10 5
  rw [isNan, and_magnitude, hfield, Bool.and_eq_true, decide_eq_true_eq, decide_eq_true_eq,
    halfMagnitude, halfInf]
  omega

theorem isInf_iff : isInf h = true ↔ halfMagnitude h = halfInf := by
  rw [isInf, and_magnitude, decide_eq_true_eq, halfInf]

theorem floatIsInf_iff : floatIsInf f = true ↔ floatMagnitude f = floatInf := by
  rw [floatIsInf, show 0x7FFFFFFF = 2 ^ 31 - 1 from rfl, Nat.and_two_pow_sub_one_eq_mod,
    decide_eq_true_eq, floatMagnitude, floatInf]

theorem half_eq : h.toNat = halfSign h * 2 ^ 15 + halfMagnitude h :=
  (Nat.div_add_mod' h.toNat (2 ^ 15)).symm

/-- The way to `float` and back is the identity but for the quiet bit of a NaN. -/
theorem float4ToHalfUnchecked_halfToFloat4 :
    float4ToHalfUnchecked (halfToFloat4 h) = if isNan h then h ||| 0x0200 else h := by
  obtain ⟨hsign, hfin, hinf, -⟩ := halfToFloat4_exact h
  obtain ⟨hsign', hnear, -⟩ := float4ToHalfUnchecked_nearest (halfToFloat4 h)
  have hlt : halfMagnitude h < 2 ^ 15 := Nat.mod_lt _ (by decide)
  apply UInt16.toNat_inj.mp
  rw [half_eq (float4ToHalfUnchecked _), hsign', hsign]
  split
  · rename_i hnan
    have hm : halfMagnitude h % 2 ^ 10 < 2 ^ 10 := Nat.mod_lt _ (by decide)
    have hgt := (isNan_iff h).mp hnan
    have hexp : halfMagnitude h / 2 ^ 10 = 31 := by
      rw [halfInf] at hgt
      omega
    have hpay : halfMagnitude h % 2 ^ 10 ≠ 0 := by
      rw [halfInf] at hgt
      omega
    have hor : 2 ^ 9 ||| halfMagnitude h % 2 ^ 10 < 2 ^ 10 := Nat.or_lt_two_pow (by decide) hm
    obtain ⟨-, hmag⟩ := halfToFloat4_fields h
    obtain ⟨-, hmag'⟩ := float4ToHalfUnchecked_fields (halfToFloat4 h)
    rw [hexp, floatBits_nan hm hpay] at hmag
    have hback : halfMagnitude (float4ToHalfUnchecked (halfToFloat4 h)) =
        0x7E00 ||| (2 ^ 9 ||| halfMagnitude h % 2 ^ 10) := by
      have hquiet : 2 ^ 9 ≤ 2 ^ 9 ||| halfMagnitude h % 2 ^ 10 := Nat.left_le_or
      have hE : (0xFF * 2 ^ 23 + (2 ^ 9 ||| halfMagnitude h % 2 ^ 10) * 2 ^ 13) / 2 ^ 23 = 255 := by
        omega
      rw [hmag', hmag, hE, halfBits_nan (by omega), Nat.shiftRight_eq_div_pow]
      congr 1
      omega
    -- both sides are the sign, the exponent of a NaN, the quiet bit and the payload
    have hwhole : h.toNat = halfSign h <<< 15 ||| (31 <<< 10 ||| halfMagnitude h % 2 ^ 10) := by
      rw [shiftLeft_or hm, shiftLeft_or (by omega)]
      have := half_eq h
      omega
    have hlt' : 0x7E00 ||| (2 ^ 9 ||| halfMagnitude h % 2 ^ 10) < 2 ^ 15 :=
      Nat.or_lt_two_pow (by decide) (hor.trans (by decide))
    rw [hback, UInt16.toNat_or, hwhole, ← shiftLeft_or hlt', Nat.or_assoc, Nat.or_assoc,
      Nat.or_comm (halfMagnitude h % 2 ^ 10), ← Nat.or_assoc (31 <<< 10), ← Nat.or_assoc 0x7E00]
    rfl
  · rename_i hnum
    have hle : halfMagnitude h ≤ halfInf := Nat.not_lt.mp fun hgt => hnum ((isNan_iff h).mpr hgt)
    have hmag : halfMagnitude (float4ToHalfUnchecked (halfToFloat4 h)) = halfMagnitude h := by
      rcases Nat.lt_or_eq_of_le hle with hlt | heq
      · have hn := hnear (hfin hlt).1.le
        rw [(hfin hlt).2] at hn
        exact hn.unique strictMono_halfPoint (.self strictMono_halfPoint hle)
      · have hn := hnear (hinf heq).le
        rw [hinf heq] at hn
        rw [heq]
        exact hn.unique strictMono_halfPoint (overflow (E := 255) (F := 0) (by decide) (by decide))
    rw [hmag, ← half_eq]

/-- Just the finite floats from the middle between the largest half and the next power of two on are
out of range. -/
theorem float4ToHalf_eq_none_iff : float4ToHalf f = none ↔
    floatMagnitude f < floatInf ∧ 65520 * 2 ^ 149 ≤ floatValue (floatMagnitude f) := by
  obtain ⟨-, hnear, hnan⟩ := float4ToHalfUnchecked_nearest f
  have hlast : halfPoint 0x7BFF + halfPoint (0x7BFF + 1) = 2 * (65520 * 2 ^ 149) := by decide
  have hnone : float4ToHalf f = none ↔
      halfMagnitude (float4ToHalfUnchecked f) = halfInf ∧ floatMagnitude f ≠ floatInf := by
    rw [float4ToHalf, ← isInf_iff, Ne, ← floatIsInf_iff]
    cases isInf (float4ToHalfUnchecked f) <;> cases floatIsInf f <;> simp
  rw [hnone]
  rcases Nat.lt_or_ge floatInf (floatMagnitude f) with hgt | hle
  · have := hnan hgt
    exact iff_of_false (fun h => by omega) (fun h => by omega)
  · have hn : NearestEven halfPoint (0x7BFF + 1) (floatValue (floatMagnitude f))
        (halfMagnitude (float4ToHalfUnchecked f)) := hnear hle
    have htop := hn.eq_top_iff strictMono_halfPoint (by decide)
    rw [hlast, Nat.mul_le_mul_left_iff (by decide)] at htop
    rw [show halfInf = 0x7BFF + 1 from rfl, htop, and_comm]
    exact and_congr_left' ⟨fun hne => lt_of_le_of_ne hle hne, fun hlt => hlt.ne⟩

end Whole

end VectorLsm.Half
