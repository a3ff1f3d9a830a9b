import Mathlib.Algebra.Order.Group.Unbundled.Int
import Mathlib.Algebra.Order.Ring.Int
import Mathlib.Algebra.Group.Nat.Even
import Mathlib.Order.Monotone.Basic
import Mathlib.Tactic.Ring
import Mathlib.Tactic.Linarith

/-! # Rounding to the nearest point of a grid

A grid is a strictly increasing sequence of numbers, of which the points up to a last one are to be
had. A number is rounded to the nearest of them, and between two at the same distance to the one
with the even index. Where the grid is uniform this is what a guard bit and a sticky bit decide.
-/

/-- `b` is the index, up to `top`, of the point of `f` nearest to `v`, ties to the even one. -/
structure NearestEven (f : ℕ → ℕ) (top v b : ℕ) : Prop where
  le_top : b ≤ top
  nearest : ∀ c ≤ top, |(v : ℤ) - f b| ≤ |(v : ℤ) - f c|
  even : ∀ c ≤ top, c ≠ b → |(v : ℤ) - f c| = |(v : ℤ) - f b| → Even b

namespace NearestEven

variable {f : ℕ → ℕ} {top v b c lo : ℕ}

/-- Beyond the grid its last point is the nearest. -/
theorem of_top_le (hf : StrictMono f) (h : f top ≤ v) : NearestEven f top v top := by
  have hlt : ∀ c ≤ top, c ≠ top → f c < f top := fun c hc hne => hf (lt_of_le_of_ne hc hne)
  refine ⟨le_rfl, fun c hc => ?_, fun c hc hne heq => ?_⟩
  · have := hf.monotone hc
    rw [abs_of_nonneg (by omega), abs_of_nonneg (by omega)]
    omega
  · have := hlt c hc hne
    rw [abs_of_nonneg (by omega), abs_of_nonneg (by omega)] at heq
    omega

/-- Below the middle of two neighbours the lower is the nearest, and in the middle if it is even. -/
theorem of_lower (hf : StrictMono f) (htop : lo < top) (hlo : f lo ≤ v)
    (h : 2 * v < f lo + f (lo + 1) ∨ 2 * v = f lo + f (lo + 1) ∧ Even lo) :
    NearestEven f top v lo := by
  have hstep : f lo < f (lo + 1) := hf (Nat.lt_succ_self lo)
  -- every other point lies beyond one of the two neighbours
  have hout : ∀ c, c ≤ lo ∨ lo + 1 ≤ c := fun c => by omega
  refine ⟨htop.le, fun c _ => ?_, fun c _ hne heq => ?_⟩
  · rw [abs_of_nonneg (by omega)]
    rcases hout c with hc | hc
    · have := hf.monotone hc
      rw [abs_of_nonneg (by omega)]
      omega
    · have := hf.monotone hc
      rw [abs_of_nonpos (by omega)]
      omega
  · rw [abs_of_nonneg (a := (v : ℤ) - f lo) (by omega)] at heq
    rcases hout c with hc | hc
    · have := hf (lt_of_le_of_ne hc hne)
      rw [abs_of_nonneg (by omega)] at heq
      omega
    · have := hf.monotone hc
      rw [abs_of_nonpos (by omega)] at heq
      rcases h with h | h
      · omega
      · exact h.2

/-- Above the middle of two neighbours the upper is the nearest, and in the middle if it is even. -/
theorem of_upper (hf : StrictMono f) (htop : lo < top) (hhi : v ≤ f (lo + 1))
    (h : f lo + f (lo + 1) < 2 * v ∨ f lo + f (lo + 1) = 2 * v ∧ ¬ Even lo) :
    NearestEven f top v (lo + 1) := by
  have hstep : f lo < f (lo + 1) := hf (Nat.lt_succ_self lo)
  have hout : ∀ c, c ≤ lo ∨ lo + 1 ≤ c := fun c => by omega
  refine ⟨htop, fun c _ => ?_, fun c _ hne heq => ?_⟩
  · rw [abs_of_nonpos (by omega)]
    rcases hout c with hc | hc
    · have := hf.monotone hc
      rw [abs_of_nonneg (by omega)]
      omega
    · have := hf.monotone hc
      rw [abs_of_nonpos (by omega)]
      omega
  · rw [abs_of_nonpos (a := (v : ℤ) - f (lo + 1)) (by omega)] at heq
    rcases hout c with hc | hc
    · have := hf.monotone hc
      rw [abs_of_nonneg (by omega)] at heq
      rcases h with h | h
      · omega
      · exact Nat.even_add_one.mpr h.2
    · have := hf (lt_of_le_of_ne hc (Ne.symm hne))
      rw [abs_of_nonpos (by omega)] at heq
      omega

theorem unique (hf : StrictMono f) (hb : NearestEven f top v b) (hc : NearestEven f top v c) :
    b = c := by
  have hdist : |(v : ℤ) - f b| = |(v : ℤ) - f c| :=
    le_antisymm (hb.nearest c hc.le_top) (hc.nearest b hb.le_top)
  by_contra hne
  have heven := hb.even c hc.le_top (Ne.symm hne) hdist.symm
  have heven' := hc.even b hb.le_top hne hdist
  -- an odd index between the two is nearer than both
  have hbetween : ∀ {b c : ℕ}, b < c → Even b → Even c → c ≤ top → NearestEven f top v b →
      |(v : ℤ) - f b| = |(v : ℤ) - f c| → False := by
    intro b c hlt he he' hle hn hd
    have hsucc : b + 1 ≠ c := by
      rintro rfl
      exact Nat.even_add_one.mp he' he
    have h₁ : f b < f (b + 1) := hf (Nat.lt_succ_self b)
    have h₂ : f (b + 1) < f c := hf (by omega)
    have hmid := hn.nearest (b + 1) (by omega)
    rcases abs_cases ((v : ℤ) - f b) with h | h <;>
      rcases abs_cases ((v : ℤ) - f c) with h' | h' <;>
      rcases abs_cases ((v : ℤ) - f (b + 1)) with h'' | h'' <;> omega
  rcases Nat.lt_or_gt_of_ne hne with hlt | hlt
  · exact hbetween hlt heven heven' hc.le_top hb hdist
  · exact hbetween hlt heven' heven hb.le_top hc hdist.symm

/-- A point of the grid is rounded to itself. -/
theorem self (hf : StrictMono f) (hb : b ≤ top) : NearestEven f top (f b) b := by
  refine ⟨hb, fun c _ => ?_, fun c _ hne heq => ?_⟩
  · rw [sub_self, abs_zero]
    exact abs_nonneg _
  · rw [sub_self, abs_zero, abs_eq_zero, sub_eq_zero] at heq
    exact absurd (hf.injective (Nat.cast_injective heq)).symm hne

/-- Which numbers are rounded to the last point, where its index is even. -/
theorem eq_top_iff (hf : StrictMono f) (htop : Even (top + 1)) (hb : NearestEven f (top + 1) v b) :
    b = top + 1 ↔ f top + f (top + 1) ≤ 2 * v := by
  constructor
  · rintro rfl
    by_contra hlt
    have h := hb.nearest top (Nat.le_succ top)
    have hstep : f top < f (top + 1) := hf (Nat.lt_succ_self top)
    rcases abs_cases ((v : ℤ) - f top) with h' | h' <;>
      rcases abs_cases ((v : ℤ) - f (top + 1)) with h'' | h'' <;> omega
  · intro h
    rcases Nat.lt_or_ge v (f (top + 1)) with hlt | hge
    · have hstep : f top < f (top + 1) := hf (Nat.lt_succ_self top)
      have hodd : ¬ Even top := Nat.even_add_one.mp htop
      have hmid := (lt_or_eq_of_le h).imp_right fun heq => And.intro heq hodd
      exact unique hf hb (of_upper hf (Nat.lt_succ_self top) hlt.le hmid)
    · exact unique hf hb (of_top_le hf hge)

/-! ## Uniform stretches -/

/-- The multiple of `2 ^ k` nearest to `n`, ties to even. -/
def roundEven (n k : ℕ) : ℕ :=
  n / 2 ^ k + if 2 ^ k < 2 * (n % 2 ^ k) ∨ 2 ^ k = 2 * (n % 2 ^ k) ∧ n / 2 ^ k % 2 = 1
    then 1 else 0

/-- On a stretch of the grid of step `2 ^ k * s` that begins at an even index. -/
theorem of_uniform (hf : StrictMono f) {start o n k s : ℕ} (hs : 0 < s) (heven : Even start)
    (htop : start + n / 2 ^ k < top) (hv : v = (o + n) * s)
    (hpoint : ∀ i ≤ n / 2 ^ k + 1, f (start + i) = (o + i * 2 ^ k) * s) :
    NearestEven f top v (start + roundEven n k) := by
  have hn : n = n / 2 ^ k * 2 ^ k + n % 2 ^ k := (Nat.div_add_mod' n (2 ^ k)).symm
  have hr : n % 2 ^ k < 2 ^ k := Nat.mod_lt n (Nat.two_pow_pos k)
  have hlo := hpoint (n / 2 ^ k) (Nat.le_succ _)
  have hhi : f (start + n / 2 ^ k + 1) = (o + (n / 2 ^ k + 1) * 2 ^ k) * s := hpoint _ le_rfl
  rw [Nat.succ_mul] at hhi
  unfold roundEven
  generalize n / 2 ^ k = q at *
  generalize n % 2 ^ k = r at *
  generalize q * 2 ^ k = base at *
  generalize 2 ^ k = step at *
  obtain rfl := hn
  have hsum : f (start + q) + f (start + q + 1) = (2 * (o + base) + step) * s := by
    rw [hlo, hhi]
    ring
  have htwice : 2 * v = (2 * (o + base) + 2 * r) * s := by
    rw [hv]
    ring
  have hparity : Even (start + q) ↔ Even q := Nat.even_add.trans (iff_true_left heven)
  split
  · rename_i h
    change NearestEven f top v (start + q + 1)
    refine of_upper hf htop ?_ ?_
    · rw [hhi, hv]
      exact Nat.mul_le_mul_right s (by omega)
    · rw [hsum, htwice, Nat.mul_lt_mul_right hs, Nat.mul_left_inj hs.ne', hparity]
      exact h.imp (by omega) fun h => ⟨by omega, Nat.not_even_iff.mpr h.2⟩
  · rename_i h
    change NearestEven f top v (start + q)
    refine of_lower hf htop ?_ ?_
    · rw [hlo, hv]
      exact Nat.mul_le_mul_right s (by omega)
    · rw [hsum, htwice, Nat.mul_lt_mul_right hs, Nat.mul_left_inj hs.ne', hparity]
      rw [Nat.even_iff]
      omega

end NearestEven
