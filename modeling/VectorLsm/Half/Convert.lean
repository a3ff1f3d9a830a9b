import Mathlib.Data.Nat.Bitwise
import VectorLsm.Lib.NearestEven

/-! # Half precision

The elements of a `halfvec` have 16 bits, and distances are computed in `float`. Both conversions
are written out on the bits of the two formats, for machines that have no instruction for them.
-/

namespace VectorLsm.Half

/-! ## Conversions -/

/-- `HalfIsNan`. -/
def isNan (num : UInt16) : Bool :=
  num.toNat &&& 0x7C00 = 0x7C00 && num.toNat &&& 0x7FFF ≠ 0x7C00

/-- `HalfIsInf`. -/
def isInf (num : UInt16) : Bool := num.toNat &&& 0x7FFF = 0x7C00

/-- The loop of `HalfToFloat4` that normalizes a subnormal. -/
def normalize : ℕ → ℤ → ℕ → ℤ × ℕ
  | 0, exponent, mantissa => (exponent, mantissa)
  | i + 1, exponent, mantissa =>
      let mantissa := mantissa <<< 1
      let exponent := exponent - 1
      if (mantissa >>> 10) % 2 = 1 then (exponent, mantissa &&& 0x03FF)
      else normalize i exponent mantissa

/-- The bits of `HalfToFloat4` below the sign. The exponent is unsigned in the source, where it
wraps around until the bias is added. -/
def floatBits (exponent mantissa : ℕ) : ℕ :=
  if exponent = 31 then
    if mantissa = 0 then 0x7F800000 ||| mantissa <<< 13 else 0x7FC00000 ||| mantissa <<< 13
  else if exponent = 0 then
    if mantissa ≠ 0 then
      let normal := normalize 10 (-14) mantissa
      (normal.1 + 127).toNat <<< 23 ||| normal.2 <<< 13
    else mantissa <<< 13
  else (exponent + 127 - 15) <<< 23 ||| mantissa <<< 13

/-- `HalfToFloat4`. -/
def halfToFloat4 (num : UInt16) : UInt32 :=
  let bin := num.toNat
  UInt32.ofNat ((bin &&& 0x8000) <<< 16 ||| floatBits ((bin &&& 0x7C00) >>> 10) (bin &&& 0x03FF))

/-- The end of the conversion: the kept bits are rounded by the guard bit and what `s` says of the
bits behind it. -/
def roundBits (exponent : ℤ) (mantissa s : ℕ) : ℕ :=
  let gr := (mantissa >>> 12) % 4
  let m := if gr = 3 ∨ gr = 1 ∧ s ≠ 0 then (mantissa >>> 13) + 1 else mantissa >>> 13
  let carry := m = 1024
  let exponent := if carry then exponent + 1 else exponent
  let m := if carry then 0 else m
  if 15 < exponent then 0x7C00
  else if -14 ≤ exponent then (exponent + 15).toNat <<< 10 ||| m else m

/-- The bits of `Float4ToHalfUnchecked` below the sign. -/
def halfBits (exponent mantissa : ℕ) : ℕ :=
  if exponent = 255 ∧ mantissa = 0 then 0x7C00
  else if exponent = 255 then 0x7E00 ||| mantissa >>> 13
  else if 98 < exponent then
    let exponent : ℤ := exponent - 127
    let s := mantissa &&& 0x00000FFF
    if exponent < -14 then
      let diff := (-exponent - 14).toNat
      let mantissa := (mantissa >>> diff) + 1 <<< (23 - diff)
      roundBits exponent mantissa (s ||| mantissa &&& 0x00000FFF)
    else roundBits exponent mantissa s
  else 0

/-- `Float4ToHalfUnchecked`. -/
def float4ToHalfUnchecked (num : UInt32) : UInt16 :=
  let bin := num.toNat
  UInt16.ofNat ((bin &&& 0x80000000) >>> 16 |||
    halfBits ((bin &&& 0x7F800000) >>> 23) (bin &&& 0x007FFFFF))

/-- `isinf` of a `float`. -/
def floatIsInf (num : UInt32) : Bool := num.toNat &&& 0x7FFFFFFF = 0x7F800000

/-- `Float4ToHalf`; `none` is its `ERROR` that the number is out of range. -/
def float4ToHalf (num : UInt32) : Option UInt16 :=
  let result := float4ToHalfUnchecked num
  if isInf result && !floatIsInf num then none else some result

/-! ## The numbers the bits stand for -/

/-- The value of the bits below the sign of a format with `p` mantissa bits, in units of its least
number. The formula goes on beyond the finite numbers; at the bits of infinity it gives the next
power of two. -/
def value (p b : ℕ) : ℕ :=
  if b / 2 ^ p = 0 then b else (2 ^ p + b % 2 ^ p) * 2 ^ (b / 2 ^ p - 1)

/-- In units of `2 ^ (-149)`. -/
def floatValue (b : ℕ) : ℕ := value 23 b

/-- The halves among the floats; the unit of a half is `2 ^ (-24)`. -/
def halfPoint (b : ℕ) : ℕ := value 10 b * 2 ^ 125

/-- The bits below the sign. -/
def halfMagnitude (num : UInt16) : ℕ := num.toNat % 2 ^ 15

def floatMagnitude (num : UInt32) : ℕ := num.toNat % 2 ^ 31

/-- The sign bit. -/
def halfSign (num : UInt16) : ℕ := num.toNat / 2 ^ 15

def floatSign (num : UInt32) : ℕ := num.toNat / 2 ^ 31

/-- The bits of infinity. -/
def halfInf : ℕ := 0x7C00

def floatInf : ℕ := 0x7F800000

end VectorLsm.Half
