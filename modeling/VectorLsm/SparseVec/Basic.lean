import VectorLsm.Half.Convert
import VectorLsm.Lib.Sparse

/-! # Sparse vectors

A `sparsevec` holds its dimension and the entries that are not zero, by ascending index. Here are
its type, its conversions to and from the dense `vector`, and the functions that go through two
sparse vectors at once: distances, the inner product and the comparison. Floats are their bits.
-/

namespace VectorLsm.SparseVec

open Half Sparse

/-! ## Floats -/

def isNan (value : UInt32) : Bool := floatInf < floatMagnitude value

/-- The value of a finite float, in units of `2 ^ (-149)`. -/
def floatVal (value : UInt32) : ℤ :=
  if floatSign value = 0 then floatValue (floatMagnitude value)
  else -(floatValue (floatMagnitude value))

/-- `value == 0`, of either sign. -/
def isZero (value : UInt32) : Bool := floatVal value = 0

/-- `<` of finite floats. -/
def floatLt (x y : UInt32) : Bool := floatVal x < floatVal y

/-! ## The type -/

/-- `SPARSEVEC_MAX_DIM`. -/
def sparsevecMaxDim : ℕ := 1000000000

/-- `SPARSEVEC_MAX_NNZ`. -/
def sparsevecMaxNnz : ℕ := 16000

/-- `SparseVector`, with its two arrays as one list of entries. -/
structure SparseVector where
  dim : ℕ
  elements : List (ℕ × UInt32)
  deriving DecidableEq, Repr

def SparseVector.nnz (v : SparseVector) : ℕ := v.elements.length

/-- What a value of the type keeps to. -/
structure WellFormed (v : SparseVector) : Prop where
  one_le_dim : 1 ≤ v.dim
  dim_le : v.dim ≤ sparsevecMaxDim
  nnz_le : v.nnz ≤ sparsevecMaxNnz
  ascending : Ascending v.dim v.elements
  finite : ∀ e ∈ v.elements, isNan e.2 = false ∧ floatIsInf e.2 = false
  ne_zero : ∀ e ∈ v.elements, isZero e.2 = false

/-- A sparse vector as it is stored. -/
def Stored : Type := { v : SparseVector // WellFormed v }

/-- `VECTOR_MAX_DIM`. -/
def vectorMaxDim : ℕ := 16000

/-- A dense vector as it is stored. -/
structure Vector where
  x : List UInt32
  one_le : 1 ≤ x.length
  le : x.length ≤ vectorMaxDim
  finite : ∀ value ∈ x, isNan value = false ∧ floatIsInf value = false

/-- `HALFVEC_MAX_DIM`. -/
def halfvecMaxDim : ℕ := 16000

structure HalfVector where
  x : List UInt16
  one_le : 1 ≤ x.length
  le : x.length ≤ halfvecMaxDim

/-! ## Checks -/

inductive Error where
  | differentDims (a b : ℕ)
  | expectedDim (typmod dim : ℤ)
  | noDim (type : String)
  | manyDims (type : String) (max : ℕ)
  | negativeNnz
  | manyNnz
  | moreThanDims
  | outOfBounds
  | notAscending
  | duplicates
  | nan
  | infinite
  | unused (n : ℤ)
  | zeroValue
  | insufficientData
  | ranOutOfBuffer (lit : String)
  | invalidSyntax (lit detail : String)
  | outOfRange (text : String)
  deriving DecidableEq, Repr

def Error.errmsg : Error → String
  | differentDims a b => s!"different sparsevec dimensions {a} and {b}"
  | expectedDim typmod dim => s!"expected {typmod} dimensions, not {dim}"
  | noDim type => s!"{type} must have at least 1 dimension"
  | manyDims type max => s!"{type} cannot have more than {max} dimensions"
  | negativeNnz => "sparsevec cannot have negative number of elements"
  | manyNnz => "sparsevec cannot have more than 16000 non-zero elements"
  | moreThanDims => "sparsevec cannot have more elements than dimensions"
  | outOfBounds => "sparsevec index out of bounds"
  | notAscending => "sparsevec indices must be in ascending order"
  | duplicates => "sparsevec indices must not contain duplicates"
  | nan => "NaN not allowed in sparsevec"
  | infinite => "infinite value not allowed in sparsevec"
  | unused n => s!"expected unused to be 0, not {n}"
  | zeroValue => "binary representation of sparsevec cannot contain zero values"
  | insufficientData => "insufficient data left in message"
  | ranOutOfBuffer lit => s!"ran out of buffer: \"{lit}\""
  | invalidSyntax lit _ => s!"invalid input syntax for type sparsevec: \"{lit}\""
  | outOfRange text => s!"\"{text}\" is out of range for type sparsevec"

def Error.errdetail : Error → String
  | invalidSyntax _ detail => detail
  | _ => ""

/-- `CheckDims`. -/
def checkDims (a b : SparseVector) : Except Error Unit :=
  if a.dim ≠ b.dim then .error (.differentDims a.dim b.dim) else .ok ()

/-- `CheckExpectedDim`. -/
def checkExpectedDim (typmod dim : ℤ) : Except Error Unit :=
  if typmod ≠ -1 ∧ typmod ≠ dim then .error (.expectedDim typmod dim) else .ok ()

/-- `CheckDim` of a type. -/
def checkDimOf (type : String) (max : ℕ) (dim : ℤ) : Except Error Unit :=
  if dim < 1 then .error (.noDim type)
  else if max < dim then .error (.manyDims type max)
  else .ok ()

/-- `CheckDim` of sparsevec.c. -/
def checkDim : ℤ → Except Error Unit := checkDimOf "sparsevec" sparsevecMaxDim

/-- `CheckDim` of vector.c. -/
def checkVectorDim : ℤ → Except Error Unit := checkDimOf "vector" vectorMaxDim

/-! ## Dense vectors -/

/-- The loop of `sparsevec_to_vector` over the entries. -/
def setAll (x : List UInt32) : List (ℕ × UInt32) → List UInt32
  | [] => x
  | (i, value) :: elements => setAll (x.set i value) elements

def sparsevecToVector (typmod : ℤ) (v : SparseVector) : Except Error (List UInt32) := do
  checkVectorDim v.dim
  checkExpectedDim typmod v.dim
  return setAll (List.replicate v.dim 0) v.elements

/-- The loop of `vector_to_sparsevec`, from index `i` on. -/
def nonZero : ℕ → List UInt32 → List (ℕ × UInt32)
  | _, [] => []
  | i, x :: xs => if isZero x then nonZero (i + 1) xs else (i, x) :: nonZero (i + 1) xs

def vectorToSparsevec (typmod : ℤ) (x : List UInt32) : Except Error SparseVector := do
  checkDim x.length
  checkExpectedDim typmod x.length
  return ⟨x.length, nonZero 0 x⟩

/-- `vector_cmp_internal`. -/
def vectorCmpInternal : List UInt32 → List UInt32 → ℤ
  | [], [] => 0
  | [], _ :: _ => -1
  | _ :: _, [] => 1
  | x :: a, y :: b => if floatLt x y then -1 else if floatLt y x then 1 else vectorCmpInternal a b

section Subvector

variable {α : Type}

/-- The value of an operation of `int32`, none where it overflows. -/
def int32 (n : ℤ) : Option ℤ := if -2 ^ 31 ≤ n ∧ n < 2 ^ 31 then some n else none

/-- The loop that copies `n` values from index `i` on; none where it reads behind the end. -/
def copyFrom (ax : List α) : ℕ → ℕ → Option (List α)
  | _, 0 => some []
  | i, n + 1 => do
      let value ← ax[i]?
      let values ← copyFrom ax (i + 1) n
      return value :: values

/-- `end`. -/
def windowEnd (dim start count : ℤ) : Option ℤ := do
  let last ← int32 (dim - count)
  if last < start then int32 (dim + 1) else int32 (start + count)

/-- What follows once `end` is known. -/
def copyWindow (type : String) (max : ℕ) (ax : List α) (start stop : ℤ) :
    Option (Except Error (List α)) :=
  if ¬ start < 1 ∧ ax.length < start then some (.error (.noDim type))
  else do
    let start := if start < 1 then 1 else start
    let dim ← int32 (stop - start)
    match checkDimOf type max dim with
    | .error e => some (.error e)
    | .ok () => (copyFrom ax (start - 1).toNat dim.toNat).map .ok

/-- `subvector` of a type; none where an operation overflows or a read is out of bounds. -/
def subvectorOf (type : String) (max : ℕ) (ax : List α) (start count : ℤ) :
    Option (Except Error (List α)) :=
  if count < 1 then some (.error (.noDim type))
  else (windowEnd ax.length start count).bind (copyWindow type max ax start)

def subvector (a : Vector) : ℤ → ℤ → Option (Except Error (List UInt32)) :=
  subvectorOf "vector" vectorMaxDim a.x

def halfvecSubvector (a : HalfVector) : ℤ → ℤ → Option (Except Error (List UInt16)) :=
  subvectorOf "halfvec" halfvecMaxDim a.x

end Subvector

/-! ## Two sparse vectors -/

/-- The loop of `sparsevec_cmp_internal`, and what comes behind it. -/
def cmpElements (aDim bDim : ℕ) : List (ℕ × UInt32) → List (ℕ × UInt32) → ℤ
  | (i, x) :: a, (j, y) :: b =>
      if i < j then if floatLt x 0 then -1 else 1
      else if j < i then if floatLt y 0 then 1 else -1
      else if floatLt x y then -1
      else if floatLt y x then 1
      else cmpElements aDim bDim a b
  | [], (j, y) :: _ =>
      if j < aDim then if floatLt y 0 then 1 else -1
      else if aDim < bDim then -1 else if bDim < aDim then 1 else 0
  | (i, x) :: _, [] =>
      if i < bDim then if floatLt x 0 then -1 else 1
      else if aDim < bDim then -1 else if bDim < aDim then 1 else 0
  | [], [] => if aDim < bDim then -1 else if bDim < aDim then 1 else 0

def sparsevecCmpInternal (a b : SparseVector) : ℤ :=
  cmpElements a.dim b.dim a.elements b.elements

section Loops

variable {α : Type*} (both : α → UInt32 → UInt32 → α) (left right : α → UInt32 → α)

/-- The inner loop of the distances, from position `j` of the second vector on: the accumulator,
`bpos` and the last index it looked at. -/
def innerLoop (ai : ℕ) (ax : UInt32) :
    α → ℕ → Option ℕ → List (ℕ × UInt32) → α × ℕ × Option ℕ
  | acc, bpos, bi, [] => (acc, bpos, bi)
  | acc, bpos, _, (bi, bx) :: b =>
      let acc := if ai = bi then both acc ax bx else if bi < ai then right acc bx else acc
      let bpos := if bi ≤ ai then bpos + 1 else bpos
      if ai ≤ bi then (acc, bpos, some bi) else innerLoop ai ax acc bpos (some bi) b

/-- The outer loop, and the entries of the second vector that are left. -/
def outerLoop (b : List (ℕ × UInt32)) : α → ℕ → List (ℕ × UInt32) → α
  | acc, bpos, [] => (b.drop bpos).foldl (fun acc e => right acc e.2) acc
  | acc, bpos, (ai, ax) :: a =>
      let (acc, bpos, bi) := innerLoop both right ai ax acc bpos none (b.drop bpos)
      outerLoop b (if bi = some ai then acc else left acc ax) bpos a

end Loops

/-- The arithmetic of the target's `float`. -/
structure Arith where
  add : UInt32 → UInt32 → UInt32
  sub : UInt32 → UInt32 → UInt32
  mul : UInt32 → UInt32 → UInt32
  fabs : UInt32 → UInt32

/-- What a function adds up at an index of both vectors, and at one of either. -/
structure Terms where
  both : UInt32 → UInt32 → UInt32 → UInt32
  left : UInt32 → UInt32 → UInt32
  right : UInt32 → UInt32 → UInt32

namespace Arith

variable (ar : Arith)

/-- The terms of `SparsevecL2SquaredDistance`. -/
def l2Squared : Terms where
  both d x y := ar.add d (ar.mul (ar.sub x y) (ar.sub x y))
  left d x := ar.add d (ar.mul x x)
  right d y := ar.add d (ar.mul y y)

/-- The terms of `SparsevecInnerProduct`; an index of one vector only is passed over. -/
def innerProduct : Terms where
  both d x y := ar.add d (ar.mul x y)
  left d _ := d
  right d _ := d

/-- The terms of `sparsevec_l1_distance`. -/
def l1 : Terms where
  both d x y := ar.add d (ar.fabs (ar.sub x y))
  left d x := ar.add d (ar.fabs x)
  right d y := ar.add d (ar.fabs y)

end Arith

/-- The loops over two vectors, from zero. -/
def Terms.sum (t : Terms) (a b : SparseVector) : UInt32 :=
  outerLoop t.both t.left t.right b.elements 0 0 a.elements

def sparsevecL2SquaredDistance (ar : Arith) (a b : SparseVector) : Except Error UInt32 := do
  checkDims a b
  return ar.l2Squared.sum a b

def sparsevecInnerProduct (ar : Arith) (a b : SparseVector) : Except Error UInt32 := do
  checkDims a b
  return ar.innerProduct.sum a b

def sparsevecL1Distance (ar : Arith) (a b : SparseVector) : Except Error UInt32 := do
  checkDims a b
  return ar.l1.sum a b

end VectorLsm.SparseVec
