import VectorLsm.Lib.LittleEndian

/-! # Structs in memory

A codec gives the bytes of a value at a fixed size, as a struct lies in memory: its fields in
order, little endian, with padding between them. What the padding holds is whatever lay there
before, so that writing depends on it and reading does not.
-/

/-- How the values of a type lie in memory. -/
structure Codec (α : Type*) where
  size : ℕ
  /-- The bytes of a value over what lay in memory. -/
  write : (ℕ → UInt8) → α → List UInt8
  read : List UInt8 → α
  length_write : ∀ junk a, (write junk a).length = size
  read_write : ∀ junk a, read (write junk a) = a

namespace Codec

open LittleEndian

variable {α β : Type*} (c : Codec α) (d : Codec β) {junk junk' : ℕ → UInt8} {a b : α}
  {bs rest : List UInt8} {off n i : ℕ}

attribute [simp] length_write read_write

/-- What lies behind the first `n` bytes. -/
def behind (junk : ℕ → UInt8) (n : ℕ) : ℕ → UInt8 := fun i => junk (n + i)

/-! ## Fields -/

/-- A number of `k` bytes, through its embedding into the natural numbers. -/
def number (k : ℕ) (toNat : α → ℕ) (ofNat : ℕ → α) (lt : ∀ a, toNat a < 256 ^ k)
    (ofNat_toNat : ∀ a, ofNat (toNat a) = a) : Codec α where
  size := k
  write _ a := bytes k (toNat a)
  read bs := ofNat (value bs)
  length_write _ _ := length_bytes _ _
  read_write _ a := by rw [value_bytes (lt a), ofNat_toNat]

def uint16 : Codec UInt16 :=
  number 2 UInt16.toNat UInt16.ofNat (fun n => n.toNat_lt) fun n => UInt16.ofNat_toNat

def uint32 : Codec UInt32 :=
  number 4 UInt32.toNat UInt32.ofNat (fun n => n.toNat_lt) fun n => UInt32.ofNat_toNat

def uint64 : Codec UInt64 :=
  number 8 UInt64.toNat UInt64.ofNat (fun n => n.toNat_lt) fun n => UInt64.ofNat_toNat

def int64 : Codec Int64 :=
  number 8 (fun n => n.toUInt64.toNat) (fun n => (UInt64.ofNat n).toInt64)
    (fun n => n.toUInt64.toNat_lt) fun n => by rw [UInt64.ofNat_toNat, Int64.toInt64_toUInt64]

/-- Bytes that belong to no field. -/
def pad (k : ℕ) : Codec Unit where
  size := k
  write junk _ := (List.range k).map junk
  read _ := ()
  length_write _ _ := by rw [List.length_map, List.length_range]
  read_write _ _ := rfl

/-! ## Structs -/

/-- A field and what follows it. -/
def prod : Codec (α × β) where
  size := c.size + d.size
  write junk p := c.write junk p.1 ++ d.write (behind junk c.size) p.2
  read bs := (c.read (bs.take c.size), d.read (bs.drop c.size))
  length_write junk p := by rw [List.length_append, length_write, length_write]
  read_write junk p := by
    have h : (c.write junk p.1).length = c.size := c.length_write junk p.1
    rw [List.take_left' h, List.drop_left' h, read_write, read_write]

/-- A struct, through its fields. -/
def map (f : β → α) (g : α → β) (hgf : ∀ b, g (f b) = b) : Codec β where
  size := c.size
  write junk b := c.write junk (f b)
  read bs := g (c.read bs)
  length_write junk b := c.length_write junk (f b)
  read_write junk b := by rw [read_write, hgf]

/-! ## Codecs without padding -/

/-- What lay in memory does not show. -/
def Dense : Prop := ∀ junk junk' a, c.write junk a = c.write junk' a

theorem dense_number {k : ℕ} {toNat : α → ℕ} {ofNat : ℕ → α} {lt : ∀ a, toNat a < 256 ^ k}
    {ofNat_toNat : ∀ a, ofNat (toNat a) = a} : (number k toNat ofNat lt ofNat_toNat).Dense :=
  fun _ _ _ => rfl

variable {c d} in
theorem Dense.prod (hc : c.Dense) (hd : d.Dense) : (c.prod d).Dense := fun junk junk' p => by
  change c.write junk p.1 ++ _ = c.write junk' p.1 ++ _
  rw [hc junk junk', hd _ (behind junk' c.size)]

variable {c} in
theorem Dense.map {f : β → α} {g : α → β} {hgf : ∀ b, g (f b) = b} (hc : c.Dense) :
    (c.map f g hgf).Dense := fun junk junk' b => hc junk junk' (f b)

/-! ## Reading from memory -/

/-- The value at an offset; there is none where the memory ends before it does. -/
def readAt (bs : List UInt8) (off : ℕ) : Option α :=
  if off + c.size ≤ bs.length then some (c.read ((bs.drop off).take c.size)) else none

theorem readAt_eq_none : c.readAt bs off = none ↔ bs.length < off + c.size := by
  unfold readAt
  split
  · exact ⟨fun h => absurd h (Option.some_ne_none _), fun h => by omega⟩
  · exact ⟨fun _ => by omega, fun _ => rfl⟩

theorem readAt_write : c.readAt (c.write junk a ++ rest) 0 = some a := by
  have h : (c.write junk a).length = c.size := c.length_write junk a
  have hle : 0 + c.size ≤ (c.write junk a ++ rest).length := by
    rw [List.length_append, h]
    omega
  rw [readAt, if_pos hle, List.drop_zero, List.take_left' h, read_write]

theorem readAt_append (h : bs.length = n) :
    c.readAt (bs ++ rest) (n + off) = c.readAt rest off := by
  have hdrop : (bs ++ rest).drop (n + off) = rest.drop off := by
    rw [← List.drop_drop, List.drop_left' h]
  rw [readAt, readAt, hdrop, List.length_append, h]
  simp only [Nat.add_assoc, Nat.add_le_add_iff_left]

/-! ## Arrays -/

/-- The elements of an array, one behind the other. -/
def writeAll : (ℕ → UInt8) → List α → List UInt8
  | _, [] => []
  | junk, a :: as => c.write junk a ++ writeAll (behind junk c.size) as

/-- The elements of an array of length `n` from an offset on. -/
def readAll (bs : List UInt8) : ℕ → ℕ → Option (List α)
  | _, 0 => some []
  | off, n + 1 => do
      let a ← c.readAt bs off
      let as ← readAll bs (off + c.size) n
      return a :: as

@[simp] theorem length_writeAll (as : List α) :
    (c.writeAll junk as).length = as.length * c.size := by
  induction as generalizing junk with
  | nil => exact (Nat.zero_mul _).symm
  | cons a as ih =>
      rw [writeAll, List.length_append, length_write, ih, List.length_cons, Nat.succ_mul,
        Nat.add_comm]

variable {c} in
theorem Dense.writeAll (hc : c.Dense) (as : List α) :
    c.writeAll junk as = c.writeAll junk' as := by
  induction as generalizing junk junk' with
  | nil => rfl
  | cons a as ih => rw [Codec.writeAll, Codec.writeAll, hc junk junk', ih]

theorem readAll_append (h : bs.length = n) :
    ∀ i off, c.readAll (bs ++ rest) (n + off) i = c.readAll rest off i := by
  intro i
  induction i with
  | zero => exact fun _ => rfl
  | succ i ih =>
      intro off
      rw [readAll, readAll, c.readAt_append h, Nat.add_assoc, ih]

theorem readAll_writeAll {as : List α} (h : n ≤ as.length) :
    c.readAll (c.writeAll junk as ++ rest) 0 n = some (as.take n) := by
  induction n generalizing as junk with
  | zero => rfl
  | succ n ih =>
      cases as with
      | nil => exact absurd h (Nat.not_succ_le_zero n)
      | cons a as =>
          have hrest : c.readAll (c.write junk a ++ (c.writeAll (behind junk c.size) as ++ rest))
              c.size n = some (as.take n) :=
            (c.readAll_append (c.length_write junk a) n 0).trans (ih (Nat.le_of_succ_le_succ h))
          rw [writeAll, List.append_assoc, readAll, readAt_write, Nat.zero_add, hrest]
          rfl

/-- An array is read in full exactly when the memory holds it. -/
theorem readAll_eq_none (h : off ≤ bs.length) :
    c.readAll bs off n = none ↔ bs.length < off + n * c.size := by
  induction n generalizing off with
  | zero =>
      have hsome : c.readAll bs off 0 ≠ none := Option.some_ne_none _
      exact ⟨fun hn => absurd hn hsome, fun hlt => by omega⟩
  | succ n ih =>
      have hmul : (n + 1) * c.size = n * c.size + c.size := Nat.succ_mul n c.size
      cases ha : c.readAt bs off with
      | none =>
          have hlt := c.readAt_eq_none.mp ha
          simp only [readAll, ha, Option.bind_eq_bind, Option.bind_none, true_iff]
          omega
      | some a =>
          have hle : off + c.size ≤ bs.length := by
            by_contra hlt
            rw [c.readAt_eq_none.mpr (by omega)] at ha
            cases ha
          have hrec := ih hle
          simp only [readAll, ha, Option.bind_eq_bind, Option.bind_some, Option.pure_def,
            Option.bind_eq_none_iff, reduceCtorEq, imp_false]
          rw [← Option.eq_none_iff_forall_ne_some, hrec]
          omega

end Codec
