import Mathlib.Data.List.Sort
import VectorLsm.Lib.Decimal
import VectorLsm.SparseVec.Wire

/-! # The text of a sparse vector

Entries with indices from one on, in braces, and the dimension behind a slash. The parser takes the
entries in any order and drops zeros; it sorts what is left and checks the indices then. Reading
and printing of floats are those of the C library and of the server.
-/

namespace VectorLsm.SparseVec

open Half Sparse

/-! ## Numbers -/

/-- How floats are read and printed. -/
structure FloatText where
  /-- The value, the length of the text it was read from, and whether `errno` is `ERANGE`. -/
  strtof : List Char → UInt32 × ℕ × Bool
  floatToShortestDecimal : UInt32 → List Char

/-- `sparsevec_isspace`. -/
def isSpace (ch : Char) : Bool :=
  ch = ' ' || ch = '\t' || ch = '\n' || ch = '\r' || ch = '\x0b' || ch = '\x0c'

def skipSpaces (pt : List Char) : List Char := pt.dropWhile isSpace

def longMax : ℤ := 2 ^ 63 - 1
def longMin : ℤ := -2 ^ 63
def intMax : ℤ := 2 ^ 31 - 1
def intMin : ℤ := -2 ^ 31

/-- A number kept between two bounds. -/
def clamp (lo hi z : ℤ) : ℤ := if hi < z then hi else if z < lo then lo else z

/-- A sign, the length of its text, and what follows it. -/
def readSign : List Char → ℤ × ℕ × List Char
  | '-' :: text => (-1, 1, text)
  | '+' :: text => (1, 1, text)
  | text => (1, 0, text)

/-- `strtol` at base ten: the value, and the length of the text it was read from, which is zero
where there is no number. -/
def strtol (pt : List Char) : ℤ × ℕ :=
  let spaces := (pt.takeWhile isSpace).length
  let (sign, signs, text) := readSign (pt.drop spaces)
  let digits := text.takeWhile Char.isDigit
  if digits = [] then (0, 0)
  else (clamp longMin longMax (sign * Decimal.value text), spaces + signs + digits.length)

/-! ## Reading -/

section Reading

variable (ft : FloatText) (lit : List Char)

/-- The error of a text that is no sparse vector. -/
def invalid (detail : String) : Error := .invalidSyntax (.ofList lit) detail

/-- One turn of the loop over the entries, up to the character behind the value: the entry, from
one on, and that character and what follows it. -/
def readElement (pt : List Char) : Except Error ((ℤ × UInt32) × List Char) :=
  let pt := skipSpaces pt
  if pt = [] then .error (invalid lit "")
  else
    let (index, n) := strtol pt
    if n = 0 then .error (invalid lit "")
    else
      match skipSpaces (pt.drop n) with
      | ':' :: pt =>
          let pt := skipSpaces pt
          let (value, m, erange) := ft.strtof pt
          if m = 0 then .error (invalid lit "")
          else if erange && (isZero value || floatIsInf value) then
            .error (.outOfRange (.ofList (pt.take m)))
          else
            match checkElement value with
            | .error e => .error e
            | .ok () => .ok ((clamp (intMin + 1) intMax index, value), skipSpaces (pt.drop m))
      | _ => .error (invalid lit "")

theorem length_skipSpaces_le (pt : List Char) : (skipSpaces pt).length ≤ pt.length :=
  (List.dropWhile_suffix isSpace).length_le

/-- A turn takes a part of the text. -/
theorem length_readElement {pt rest : List Char} {e : ℤ × UInt32}
    (h : readElement ft lit pt = .ok (e, rest)) : rest.length < pt.length := by
  unfold readElement at h
  dsimp only at h
  split_ifs at h
  split at h
  next text hcolon =>
    split_ifs at h
    split at h
    · cases h
    · obtain ⟨-, rfl⟩ := Prod.mk.inj (Except.ok.inj h)
      have htext := length_skipSpaces_le text
      have hall := length_skipSpaces_le ((skipSpaces pt).drop (strtol (skipSpaces pt)).2)
      have hpt := length_skipSpaces_le pt
      rw [hcolon, List.length_cons, List.length_drop] at hall
      refine (length_skipSpaces_le _).trans_lt ?_
      rw [List.length_drop]
      omega
  next => cases h

/-- The loop over the entries, with room for `maxNnz` that are not zero. -/
def readElements (maxNnz : ℕ) (elements : List (ℤ × UInt32)) (pt : List Char) :
    Except Error (List (ℤ × UInt32) × List Char) :=
  if elements.length = maxNnz then .error (.ranOutOfBuffer (.ofList lit))
  else
    match h : readElement ft lit pt with
    | .error e => .error e
    | .ok ((index, value), rest) =>
        -- from one on in the text, from zero on in the vector
        let elements := if isZero value then elements else elements ++ [(index - 1, value)]
        match rest with
        | ',' :: rest => readElements maxNnz elements rest
        | '}' :: rest => .ok (elements, rest)
        | _ => .error (invalid lit "")
termination_by pt.length
decreasing_by
  have hlt := length_readElement ft lit h
  rw [List.length_cons] at hlt
  omega

/-- The loop over the sorted entries: the indices are checked as they are stored. -/
def checkIndices (dim : ℤ) : Option ℤ → List ℤ → Except Error Unit
  | _, [] => .ok ()
  | prev, index :: indices => do
      checkIndex dim prev index
      checkIndices dim (some index) indices

/-- The part of `sparsevec_in` behind the closing brace: the dimension. -/
def readDim (pt : List Char) : Except Error ℤ :=
  match skipSpaces pt with
  | '/' :: pt =>
      let pt := skipSpaces pt
      let (dim, n) := strtol pt
      if n = 0 then .error (invalid lit "")
      else if skipSpaces (pt.drop n) ≠ [] then .error (invalid lit "Junk after closing.")
      else .ok (clamp intMin intMax dim)
  | _ => .error (invalid lit "Unexpected end of input.")

/-- The part of `sparsevec_in` inside the braces. -/
def readBraces (maxNnz : ℕ) : Except Error (List (ℤ × UInt32) × List Char) :=
  match skipSpaces lit with
  | '{' :: pt =>
      match skipSpaces pt with
      | '}' :: pt => .ok ([], pt)
      | pt => readElements ft lit maxNnz [] pt
  | _ => .error (invalid lit "Vector contents must start with \"\x7b\".")

/-- The commas of the text bound the number of its entries. -/
def countMaxNnz : ℕ := 1 + lit.count ','

/-- `CompareIndices`; the order of equal indices does not matter, they are refused. -/
def sortElements (elements : List (ℤ × UInt32)) : List (ℤ × UInt32) :=
  elements.mergeSort fun a b => a.1 ≤ b.1

def sparsevecIn (typmod : ℤ) : Except Error SparseVector := do
  let maxNnz := countMaxNnz lit
  if sparsevecMaxNnz < maxNnz then .error .manyNnz
  else
    let (elements, pt) ← readBraces ft lit maxNnz
    let dim ← readDim lit pt
    checkDim dim
    checkExpectedDim typmod dim
    let elements := sortElements elements
    checkIndices dim none (elements.map Prod.fst)
    return ⟨dim.toNat, elements.map fun e => (e.1.toNat, e.2)⟩

end Reading

/-! ## Printing -/

section Printing

variable (ft : FloatText)

/-- An entry as it is printed. -/
def printElement (e : ℕ × UInt32) : List Char :=
  Decimal.digits (e.1 + 1) ++ ':' :: ft.floatToShortestDecimal e.2

/-- The loop over the entries, with commas between them. -/
def printElements : List (ℕ × UInt32) → List Char
  | [] => []
  | [e] => printElement ft e
  | e :: elements => printElement ft e ++ ',' :: printElements elements

/-- The text of entries and a dimension. -/
def print (dim : ℕ) (elements : List (ℕ × UInt32)) : List Char :=
  '{' :: (printElements ft elements ++ '}' :: '/' :: Decimal.digits dim)

def sparsevecOut (v : SparseVector) : List Char := print ft v.dim v.elements

end Printing

end VectorLsm.SparseVec
