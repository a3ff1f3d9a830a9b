import VectorLsm.Lib.LittleEndian
import VectorLsm.SparseVec.Basic

/-! # The binary form of a sparse vector

Dimension, number of entries, a reserved word, the indices and the values, as words in network
byte order. What is received is checked as it is read; what passes is exactly what is sent.
-/

namespace VectorLsm.SparseVec

open Half Sparse

/-! ## Words -/

/-- A word of four bytes as a signed number. -/
def toSigned (n : ℕ) : ℤ := if n < 2 ^ 31 then n else n - 2 ^ 32

/-- The bytes of a signed number that fits. -/
def toUnsigned (z : ℤ) : ℕ := (z % 2 ^ 32).toNat

/-- `pq_sendint` of four bytes. -/
def sendInt (z : ℤ) : List UInt8 := (LittleEndian.bytes 4 (toUnsigned z)).reverse

/-- `pq_sendfloat4`. -/
def sendFloat4 (value : UInt32) : List UInt8 := (LittleEndian.bytes 4 value.toNat).reverse

/-- `pq_getmsgbytes` of four bytes, as a number. -/
def getWord (buf : List UInt8) : Except Error (ℕ × List UInt8) :=
  if buf.length < 4 then .error .insufficientData
  else .ok (LittleEndian.value (buf.take 4).reverse, buf.drop 4)

/-- `pq_getmsgint` of four bytes, stored as an `int32`. -/
def getInt (buf : List UInt8) : Except Error (ℤ × List UInt8) := do
  let (n, buf) ← getWord buf
  return (toSigned n, buf)

/-- `pq_getmsgfloat4`. -/
def getFloat4 (buf : List UInt8) : Except Error (UInt32 × List UInt8) := do
  let (n, buf) ← getWord buf
  return (.ofNat n, buf)

/-! ## Sending and receiving -/

def sparsevecSend (v : SparseVector) : List UInt8 :=
  sendInt v.dim ++ sendInt v.nnz ++ sendInt 0 ++
    v.elements.flatMap (fun e => sendInt e.1) ++ v.elements.flatMap fun e => sendFloat4 e.2

/-- `CheckNnz`. -/
def checkNnz (nnz dim : ℤ) : Except Error Unit :=
  if nnz < 0 then .error .negativeNnz
  else if sparsevecMaxNnz < nnz then .error .manyNnz
  else if dim < nnz then .error .moreThanDims
  else .ok ()

/-- `CheckIndex`, with the index before it, if any. -/
def checkIndex (dim : ℤ) (prev : Option ℤ) (index : ℤ) : Except Error Unit :=
  if index < 0 ∨ dim ≤ index then .error .outOfBounds
  else
    match prev with
    | none => .ok ()
    | some prev =>
        if index < prev then .error .notAscending
        else if index = prev then .error .duplicates
        else .ok ()

/-- `CheckElement`. -/
def checkElement (value : UInt32) : Except Error Unit :=
  if isNan value then .error .nan
  else if floatIsInf value then .error .infinite
  else .ok ()

/-- `sparsevec_recv` wants the reserved word to be zero. -/
def checkUnused (unused : ℤ) : Except Error Unit :=
  if unused ≠ 0 then .error (.unused unused) else .ok ()

/-- `sparsevec_recv` wants no value to be zero. -/
def checkNonZero (value : UInt32) : Except Error Unit :=
  if isZero value then .error .zeroValue else .ok ()

/-- The loop over the indices. -/
def recvIndices (dim : ℤ) : Option ℤ → ℕ → List UInt8 → Except Error (List ℕ × List UInt8)
  | _, 0, buf => return ([], buf)
  | prev, n + 1, buf => do
      let (index, buf) ← getInt buf
      checkIndex dim prev index
      let (indices, buf) ← recvIndices dim (some index) n buf
      return (index.toNat :: indices, buf)

/-- The loop over the values. -/
def recvValues : ℕ → List UInt8 → Except Error (List UInt32 × List UInt8)
  | 0, buf => return ([], buf)
  | n + 1, buf => do
      let (value, buf) ← getFloat4 buf
      checkElement value
      checkNonZero value
      let (values, buf) ← recvValues n buf
      return (value :: values, buf)

/-- `sparsevec_recv`: the vector, and what is left in the message. -/
def sparsevecRecv (typmod : ℤ) (buf : List UInt8) : Except Error (SparseVector × List UInt8) := do
  let (dim, buf) ← getInt buf
  let (nnz, buf) ← getInt buf
  let (unused, buf) ← getInt buf
  checkDim dim
  checkNnz nnz dim
  checkExpectedDim typmod dim
  checkUnused unused
  let (indices, buf) ← recvIndices dim none nnz.toNat buf
  let (values, buf) ← recvValues nnz.toNat buf
  return (⟨dim.toNat, indices.zip values⟩, buf)

/-! ## What is read -/

section Reading

variable {α β : Type} {x : Except Error α} {f : α → Except Error β} {b : β} {buf rest : List UInt8}
  {z dim nnz typmod : ℤ} {n : ℕ} {value : UInt32} {prev : Option ℤ}

theorem bind_eq_ok : (x >>= f) = .ok b ↔ ∃ a, x = .ok a ∧ f a = .ok b := by
  cases x with
  | error e =>
      refine ⟨fun h => ?_, fun ⟨a, h, _⟩ => ?_⟩
      · cases h
      · cases h
  | ok a =>
      refine ⟨fun h => ⟨a, rfl, h⟩, fun ⟨a', h, hf⟩ => ?_⟩
      cases h
      exact hf

/-- A number that an `int32` holds. -/
def Int32Range (z : ℤ) : Prop := -2 ^ 31 ≤ z ∧ z < 2 ^ 31

theorem toSigned_toUnsigned (h : Int32Range z) : toSigned (toUnsigned z) = z := by
  obtain ⟨hlo, hhi⟩ := h
  unfold toSigned toUnsigned
  split <;> omega

theorem toUnsigned_toSigned (h : n < 2 ^ 32) : toUnsigned (toSigned n) = n := by
  unfold toSigned toUnsigned
  split <;> omega

theorem toSigned_range (h : n < 2 ^ 32) : Int32Range (toSigned n) := by
  unfold toSigned Int32Range
  split <;> omega

theorem toUnsigned_lt : toUnsigned z < 2 ^ 32 := by
  unfold toUnsigned
  omega

/-- A word is read where its bytes are. -/
theorem getWord_eq_ok : getWord buf = .ok (n, rest) ↔
    n < 2 ^ 32 ∧ buf = (LittleEndian.bytes 4 n).reverse ++ rest := by
  unfold getWord
  split
  next hshort =>
    refine ⟨fun h => (by cases h), fun ⟨_, h⟩ => ?_⟩
    rw [h, List.length_append, List.length_reverse, LittleEndian.length_bytes] at hshort
    omega
  next hlong =>
    have hlen : (buf.take 4).length = 4 := List.length_take_of_le (Nat.not_lt.mp hlong)
    constructor
    · intro h
      obtain ⟨rfl, rfl⟩ := Prod.mk.inj (Except.ok.inj h)
      have hlt := LittleEndian.value_lt (buf.take 4).reverse
      rw [List.length_reverse, hlen] at hlt
      refine ⟨hlt, ?_⟩
      rw [LittleEndian.bytes_value (by rw [List.length_reverse, hlen]), List.reverse_reverse,
        List.take_append_drop]
    · rintro ⟨hn, rfl⟩
      have hbytes : (LittleEndian.bytes 4 n).reverse.length = 4 := by
        rw [List.length_reverse, LittleEndian.length_bytes]
      rw [List.take_left' hbytes, List.drop_left' hbytes, List.reverse_reverse,
        LittleEndian.value_bytes hn]

theorem getInt_eq_ok : getInt buf = .ok (z, rest) ↔ Int32Range z ∧ buf = sendInt z ++ rest := by
  unfold getInt
  rw [bind_eq_ok]
  constructor
  · rintro ⟨⟨n, buf'⟩, hword, h⟩
    obtain ⟨rfl, rfl⟩ := Prod.mk.inj (Except.ok.inj h)
    obtain ⟨hn, rfl⟩ := getWord_eq_ok.mp hword
    exact ⟨toSigned_range hn, by rw [sendInt, toUnsigned_toSigned hn]⟩
  · rintro ⟨hz, rfl⟩
    refine ⟨(toUnsigned z, rest), getWord_eq_ok.mpr ⟨toUnsigned_lt, rfl⟩, ?_⟩
    change Except.ok (toSigned (toUnsigned z), rest) = _
    rw [toSigned_toUnsigned hz]

theorem getFloat4_eq_ok : getFloat4 buf = .ok (value, rest) ↔ buf = sendFloat4 value ++ rest := by
  unfold getFloat4
  rw [bind_eq_ok]
  constructor
  · rintro ⟨⟨n, buf'⟩, hword, h⟩
    obtain ⟨rfl, rfl⟩ := Prod.mk.inj (Except.ok.inj h)
    obtain ⟨hn, rfl⟩ := getWord_eq_ok.mp hword
    rw [sendFloat4, UInt32.toNat_ofNat', Nat.mod_eq_of_lt hn]
  · rintro rfl
    refine ⟨(value.toNat, rest), getWord_eq_ok.mpr ⟨value.toNat_lt, rfl⟩, ?_⟩
    change Except.ok (UInt32.ofNat value.toNat, rest) = _
    rw [UInt32.ofNat_toNat]

/-! ### Checks that pass -/

theorem checkDimOf_eq_ok_iff {type : String} {max : ℕ} :
    checkDimOf type max dim = .ok () ↔ 1 ≤ dim ∧ dim ≤ max := by
  unfold checkDimOf
  split_ifs <;> simp <;> omega

theorem checkNnz_eq_ok_iff :
    checkNnz nnz dim = .ok () ↔ 0 ≤ nnz ∧ nnz ≤ sparsevecMaxNnz ∧ nnz ≤ dim := by
  unfold checkNnz
  split_ifs <;> simp <;> omega

theorem checkExpectedDim_eq_ok_iff :
    checkExpectedDim typmod dim = .ok () ↔ typmod = -1 ∨ typmod = dim := by
  unfold checkExpectedDim
  split_ifs with h
  · simp only [false_iff]
    omega
  · simp only [true_iff]
    omega

theorem checkIndex_eq_ok_iff : checkIndex dim prev z = .ok () ↔
    0 ≤ z ∧ z < dim ∧ ∀ i ∈ prev, i < z := by
  unfold checkIndex
  split_ifs with h
  · simp only [false_iff]
    omega
  · cases prev with
    | none => simp; omega
    | some i =>
        dsimp only
        split_ifs <;> simp <;> omega

theorem checkElement_eq_ok_iff : checkElement value = .ok () ↔
    isNan value = false ∧ floatIsInf value = false := by
  unfold checkElement
  split_ifs <;> simp_all

theorem checkUnused_eq_ok_iff : checkUnused z = .ok () ↔ z = 0 := by
  unfold checkUnused
  split_ifs with h <;> simpa using h

theorem checkNonZero_eq_ok_iff : checkNonZero value = .ok () ↔ isZero value = false := by
  unfold checkNonZero
  split_ifs with h <;> simpa using h

/-! ### Arrays -/

/-- Indices in order behind another, if there is one. -/
def Follows (dim : ℤ) : Option ℤ → List ℕ → Prop
  | _, [] => True
  | prev, i :: is => (i : ℤ) < dim ∧ (∀ p ∈ prev, p < i) ∧ Follows dim (some i) is

theorem recvIndices_eq_ok {indices : List ℕ} (hdim : dim < 2 ^ 31) :
    recvIndices dim prev n buf = .ok (indices, rest) ↔
      indices.length = n ∧ Follows dim prev indices ∧
        buf = indices.flatMap (fun i : ℕ => sendInt (i : ℤ)) ++ rest := by
  induction n generalizing prev buf indices with
  | zero =>
      rw [recvIndices]
      constructor
      · intro h
        obtain ⟨rfl, rfl⟩ := Prod.mk.inj (Except.ok.inj h)
        exact ⟨rfl, trivial, rfl⟩
      · rintro ⟨hlen, -, rfl⟩
        obtain rfl := List.length_eq_zero_iff.mp hlen
        rfl
  | succ n ih =>
      rw [recvIndices]
      constructor
      · intro h
        obtain ⟨⟨index, buf₁⟩, hint, h⟩ := bind_eq_ok.mp h
        obtain ⟨_, hcheck, h⟩ := bind_eq_ok.mp h
        obtain ⟨⟨is, buf₂⟩, hrec, h⟩ := bind_eq_ok.mp h
        obtain ⟨rfl, rfl⟩ := Prod.mk.inj (Except.ok.inj h)
        obtain ⟨-, rfl⟩ := getInt_eq_ok.mp hint
        obtain ⟨h0, hlt, hprev⟩ := checkIndex_eq_ok_iff.mp hcheck
        obtain ⟨hlen, hfollows, rfl⟩ := ih.mp hrec
        obtain ⟨i, rfl⟩ := Int.eq_ofNat_of_zero_le h0
        refine ⟨congrArg Nat.succ hlen, ⟨hlt, hprev, hfollows⟩, ?_⟩
        rw [Int.toNat_natCast, List.flatMap_cons, List.append_assoc]
      · rintro ⟨hlen, hfollows, rfl⟩
        cases indices with
        | nil => cases hlen
        | cons i is =>
            obtain ⟨hlt, hprev, hfollows⟩ := hfollows
            have hrange : Int32Range i := ⟨by omega, by omega⟩
            rw [List.flatMap_cons, List.append_assoc]
            refine bind_eq_ok.mpr ⟨_, getInt_eq_ok.mpr ⟨hrange, rfl⟩, ?_⟩
            refine bind_eq_ok.mpr ⟨(), checkIndex_eq_ok_iff.mpr ⟨by omega, hlt, hprev⟩, ?_⟩
            exact bind_eq_ok.mpr ⟨_, ih.mpr ⟨Nat.succ_injective hlen, hfollows, rfl⟩, rfl⟩

theorem recvValues_eq_ok {values : List UInt32} :
    recvValues n buf = .ok (values, rest) ↔
      values.length = n ∧
        (∀ v ∈ values, (isNan v = false ∧ floatIsInf v = false) ∧ isZero v = false) ∧
        buf = values.flatMap sendFloat4 ++ rest := by
  induction n generalizing buf values with
  | zero =>
      rw [recvValues]
      constructor
      · intro h
        obtain ⟨rfl, rfl⟩ := Prod.mk.inj (Except.ok.inj h)
        exact ⟨rfl, fun v hv => absurd hv List.not_mem_nil, rfl⟩
      · rintro ⟨hlen, -, rfl⟩
        obtain rfl := List.length_eq_zero_iff.mp hlen
        rfl
  | succ n ih =>
      rw [recvValues]
      constructor
      · intro h
        obtain ⟨⟨v, buf₁⟩, hfloat, h⟩ := bind_eq_ok.mp h
        obtain ⟨_, hcheck, h⟩ := bind_eq_ok.mp h
        obtain ⟨_, hzero, h⟩ := bind_eq_ok.mp h
        obtain ⟨⟨vs, buf₂⟩, hrec, h⟩ := bind_eq_ok.mp h
        obtain ⟨rfl, rfl⟩ := Prod.mk.inj (Except.ok.inj h)
        obtain rfl := getFloat4_eq_ok.mp hfloat
        obtain ⟨hlen, hvalues, rfl⟩ := ih.mp hrec
        refine ⟨congrArg Nat.succ hlen, List.forall_mem_cons.mpr
          ⟨⟨checkElement_eq_ok_iff.mp hcheck, checkNonZero_eq_ok_iff.mp hzero⟩, hvalues⟩, ?_⟩
        rw [List.flatMap_cons, List.append_assoc]
      · rintro ⟨hlen, hvalues, rfl⟩
        cases values with
        | nil => cases hlen
        | cons v vs =>
            obtain ⟨⟨hfinite, hzero⟩, hvalues⟩ := List.forall_mem_cons.mp hvalues
            rw [List.flatMap_cons, List.append_assoc]
            refine bind_eq_ok.mpr ⟨_, getFloat4_eq_ok.mpr rfl, ?_⟩
            refine bind_eq_ok.mpr ⟨(), checkElement_eq_ok_iff.mpr hfinite, ?_⟩
            refine bind_eq_ok.mpr ⟨(), checkNonZero_eq_ok_iff.mpr hzero, ?_⟩
            exact bind_eq_ok.mpr ⟨_, ih.mpr ⟨Nat.succ_injective hlen, hvalues, rfl⟩, rfl⟩

theorem follows_iff {indices : List ℕ} : Follows dim prev indices ↔
    indices.Pairwise (· < ·) ∧ (∀ i ∈ indices, (i : ℤ) < dim) ∧
      ∀ p ∈ prev, ∀ i ∈ indices, p < (i : ℤ) := by
  induction indices generalizing prev with
  | nil => simp [Follows]
  | cons i is ih =>
      rw [Follows, ih, List.pairwise_cons]
      constructor
      · rintro ⟨hlt, hprev, hsorted, hbelow, hlater⟩
        have hi : ∀ j ∈ is, i < j := fun j hj => Int.ofNat_lt.mp (hlater i rfl j hj)
        refine ⟨⟨hi, hsorted⟩, List.forall_mem_cons.mpr ⟨hlt, hbelow⟩, fun p hp => ?_⟩
        exact List.forall_mem_cons.mpr ⟨hprev p hp, fun j hj =>
          (hprev p hp).trans (Int.ofNat_lt.mpr (hi j hj))⟩
      · rintro ⟨⟨hi, hsorted⟩, hbelow, hprev⟩
        obtain ⟨hlt, hbelow⟩ := List.forall_mem_cons.mp hbelow
        refine ⟨hlt, fun p hp => hprev p hp i List.mem_cons_self, hsorted, hbelow, ?_⟩
        rintro p hp j hj
        obtain rfl := Option.some.inj hp
        exact Int.ofNat_lt.mpr (hi j hj)

theorem follows_map_fst {elements : List (ℕ × UInt32)} {d : ℕ} :
    Follows d none (elements.map Prod.fst) ↔ Ascending d elements := by
  rw [follows_iff, List.pairwise_map]
  constructor
  · rintro ⟨hsorted, hbelow, -⟩
    exact ⟨hsorted, fun e he => Int.ofNat_lt.mp (hbelow e.1 (List.mem_map_of_mem he))⟩
  · rintro ⟨hsorted, hlt⟩
    refine ⟨hsorted, fun i hi => ?_, fun p hp => absurd hp (Option.not_mem_none p)⟩
    obtain ⟨e, he, rfl⟩ := List.mem_map.mp hi
    exact Int.ofNat_lt.mpr (hlt e he)

end Reading

theorem sparsevecSend_append (v : SparseVector) (rest : List UInt8) :
    sparsevecSend v ++ rest = sendInt v.dim ++ (sendInt v.nnz ++ (sendInt 0 ++
      ((v.elements.map Prod.fst).flatMap (fun i : ℕ => sendInt (i : ℤ)) ++
        ((v.elements.map Prod.snd).flatMap sendFloat4 ++ rest)))) := by
  rw [sparsevecSend, List.flatMap_map, List.flatMap_map]
  simp only [List.append_assoc]

/-- What is received, whatever the bytes, is well formed and of the expected dimension, and the
bytes read are those that sending it gives; and all that is sent so is received. -/
theorem sparsevecRecv_eq_ok_iff (typmod : ℤ) (buf rest : List UInt8) (v : SparseVector) :
    sparsevecRecv typmod buf = .ok (v, rest) ↔
      WellFormed v ∧ (typmod = -1 ∨ typmod = v.dim) ∧ buf = sparsevecSend v ++ rest := by
  rw [sparsevecRecv]
  constructor
  · intro h
    obtain ⟨⟨dim, buf₁⟩, hdim, h⟩ := bind_eq_ok.mp h
    obtain ⟨⟨nnz, buf₂⟩, hnnz, h⟩ := bind_eq_ok.mp h
    obtain ⟨⟨unused, buf₃⟩, hunused, h⟩ := bind_eq_ok.mp h
    obtain ⟨_, hcheckDim, h⟩ := bind_eq_ok.mp h
    obtain ⟨_, hcheckNnz, h⟩ := bind_eq_ok.mp h
    obtain ⟨_, hexpected, h⟩ := bind_eq_ok.mp h
    obtain ⟨_, hzero, h⟩ := bind_eq_ok.mp h
    obtain ⟨⟨indices, buf₄⟩, hindices, h⟩ := bind_eq_ok.mp h
    obtain ⟨⟨values, buf₅⟩, hvalues, h⟩ := bind_eq_ok.mp h
    obtain ⟨rfl, rfl⟩ := Prod.mk.inj (Except.ok.inj h)
    obtain ⟨hrange, rfl⟩ := getInt_eq_ok.mp hdim
    obtain ⟨-, rfl⟩ := getInt_eq_ok.mp hnnz
    obtain ⟨-, rfl⟩ := getInt_eq_ok.mp hunused
    obtain ⟨h1, hmax⟩ := checkDimOf_eq_ok_iff.mp hcheckDim
    obtain ⟨h0, hnnzMax, hnnzDim⟩ := checkNnz_eq_ok_iff.mp hcheckNnz
    obtain rfl := checkUnused_eq_ok_iff.mp hzero
    obtain ⟨d, rfl⟩ := Int.eq_ofNat_of_zero_le (by omega : 0 ≤ dim)
    obtain ⟨n, rfl⟩ := Int.eq_ofNat_of_zero_le h0
    obtain ⟨hlen, hfollows, rfl⟩ := (recvIndices_eq_ok hrange.2).mp hindices
    obtain ⟨hlen', hall, rfl⟩ := recvValues_eq_ok.mp hvalues
    rw [Int.toNat_natCast] at hlen hlen' ⊢
    have hfst : (indices.zip values).map Prod.fst = indices :=
      List.map_fst_zip (hlen.trans hlen'.symm).le
    have hsnd : (indices.zip values).map Prod.snd = values :=
      List.map_snd_zip (hlen'.trans hlen.symm).le
    have hzip : (indices.zip values).length = n := by
      rw [List.length_zip, hlen, hlen', Nat.min_self]
    have hasc : Ascending d (indices.zip values) := follows_map_fst.mp (hfst.symm ▸ hfollows)
    have hvalue : ∀ e ∈ indices.zip values, e.2 ∈ values := fun e he =>
      hsnd ▸ List.mem_map_of_mem he
    refine ⟨⟨Int.ofNat_le.mp h1, Int.ofNat_le.mp hmax, ?_, hasc,
      fun e he => (hall e.2 (hvalue e he)).1,
      fun e he => (hall e.2 (hvalue e he)).2⟩, checkExpectedDim_eq_ok_iff.mp hexpected, ?_⟩
    · exact hzip.trans_le (by omega)
    · rw [sparsevecSend_append, hfst, hsnd, SparseVector.nnz, hzip]
  · rintro ⟨hv, htypmod, rfl⟩
    have hmax : (v.dim : ℤ) ≤ sparsevecMaxDim := Int.ofNat_le.mpr hv.dim_le
    have hnnz : (v.nnz : ℤ) ≤ sparsevecMaxNnz := Int.ofNat_le.mpr hv.nnz_le
    have hnnzDim : (v.nnz : ℤ) ≤ v.dim := Int.ofNat_le.mpr hv.ascending.length_le
    have h1 : (1 : ℤ) ≤ v.dim := Int.ofNat_le.mpr hv.one_le_dim
    have hbig : (sparsevecMaxDim : ℤ) < 2 ^ 31 := by decide
    rw [sparsevecSend_append]
    refine bind_eq_ok.mpr ⟨_, getInt_eq_ok.mpr ⟨⟨by omega, by omega⟩, rfl⟩, ?_⟩
    refine bind_eq_ok.mpr ⟨_, getInt_eq_ok.mpr ⟨⟨by omega, by omega⟩, rfl⟩, ?_⟩
    refine bind_eq_ok.mpr ⟨_, getInt_eq_ok.mpr ⟨⟨by omega, by omega⟩, rfl⟩, ?_⟩
    refine bind_eq_ok.mpr ⟨(), checkDimOf_eq_ok_iff.mpr ⟨h1, hmax⟩, ?_⟩
    refine bind_eq_ok.mpr ⟨(), checkNnz_eq_ok_iff.mpr ⟨by omega, hnnz, hnnzDim⟩, ?_⟩
    refine bind_eq_ok.mpr ⟨(), checkExpectedDim_eq_ok_iff.mpr htypmod, ?_⟩
    refine bind_eq_ok.mpr ⟨(), checkUnused_eq_ok_iff.mpr rfl, ?_⟩
    refine bind_eq_ok.mpr ⟨(v.elements.map Prod.fst, _), (recvIndices_eq_ok (by omega)).mpr
      ⟨by rw [List.length_map, SparseVector.nnz, Int.toNat_natCast],
        follows_map_fst.mpr hv.ascending, rfl⟩, ?_⟩
    refine bind_eq_ok.mpr ⟨(v.elements.map Prod.snd, _), recvValues_eq_ok.mpr
      ⟨by rw [List.length_map, SparseVector.nnz, Int.toNat_natCast], fun value hvalue => ?_, rfl⟩,
      ?_⟩
    · obtain ⟨e, he, rfl⟩ := List.mem_map.mp hvalue
      exact ⟨hv.finite e he, hv.ne_zero e he⟩
    · have hzip : (v.elements.map Prod.fst).zip (v.elements.map Prod.snd) = v.elements :=
        (List.zip_of_prod rfl rfl).symm
      change Except.ok ((⟨(v.dim : ℤ).toNat, _⟩ : SparseVector), rest) = _
      rw [hzip, Int.toNat_natCast]

end VectorLsm.SparseVec
