import Mathlib.Data.Fin.Tuple.Basic
import VectorLsm.Lib.Blob
import VectorLsm.Lib.Codec

/-! # Structs in a block of memory

A struct is written over the bytes at its address and read back from them. A write says which
bytes it may change; what is read from other bytes stays.
-/

namespace Blob

variable {B : Type*} {m m' m'' : ℕ → B} {off lo hi lo' hi' : ℕ} {src : List B}

/-- The change from one block to the other lies between two addresses. -/
def Within (m m' : ℕ → B) (lo hi : ℕ) : Prop := ∀ a, a < lo ∨ hi ≤ a → m' a = m a

theorem Within.refl : Within m m lo hi := fun _ _ => rfl

theorem Within.trans (h : Within m m' lo hi) (h' : Within m' m'' lo hi) : Within m m'' lo hi :=
  fun a ha => (h' a ha).trans (h a ha)

theorem Within.mono (h : Within m m' lo hi) (hlo : lo' ≤ lo) (hhi : hi ≤ hi') :
    Within m m' lo' hi' := fun a ha => h a (ha.imp hlo.trans_lt' hhi.trans)

theorem within_memcpy : Within m (memcpy m off src) off (off + src.length) :=
  fun _ ha => ha.elim memcpy_of_lt memcpy_of_ge

end Blob

namespace Codec

open Blob (Within)

variable {α : Type*} (c : Codec α) {m m' : ℕ → UInt8} {a : α} {as : List α}
  {off lo hi n : ℕ}

/-! ## One struct -/

/-- The value at an address. -/
def peek (m : ℕ → UInt8) (off : ℕ) : α := c.read (Blob.load m off c.size)

/-- The block with a value at an address; the padding keeps its bytes. -/
def poke (m : ℕ → UInt8) (off : ℕ) (a : α) : ℕ → UInt8 :=
  Blob.memcpy m off (c.write (behind m off) a)

theorem within_poke : Within m (c.poke m off a) off (off + c.size) := by
  have h := @Blob.within_memcpy _ m off (c.write (behind m off) a)
  rwa [length_write] at h

@[simp] theorem peek_poke : c.peek (c.poke m off a) off = a := by
  have h := @Blob.load_memcpy_same _ m off (c.write (behind m off) a)
  rw [length_write] at h
  rw [peek, poke, h, read_write]

theorem peek_congr (h : ∀ a, off ≤ a → a < off + c.size → m' a = m a) :
    c.peek m' off = c.peek m off := by
  rw [peek, Blob.load_congr h, peek]

/-- What lies before or behind the change is read as it was. -/
theorem peek_of_within (h : Within m m' lo hi) (ha : off + c.size ≤ lo ∨ hi ≤ off) :
    c.peek m' off = c.peek m off :=
  c.peek_congr fun a hlo hhi => h a (ha.imp hhi.trans_le hlo.trans')

/-- The first field of a struct lies where the struct lies. -/
theorem peek_prod_fst {β : Type*} (d : Codec β) :
    ((c.prod d).peek m off).1 = c.peek m off := by
  have htake : (Blob.load m off (c.size + d.size)).take c.size = Blob.load m off c.size := by
    rw [Blob.load, Blob.load, ← List.map_take, List.take_range, Nat.min_eq_left (by omega)]
  exact congrArg c.read htake

/-! ## Arrays -/

/-- The elements of an array at an address. -/
def peekAll (m : ℕ → UInt8) : ℕ → ℕ → List α
  | _, 0 => []
  | off, n + 1 => c.peek m off :: peekAll m (off + c.size) n

@[simp] theorem length_peekAll : (c.peekAll m off n).length = n := by
  induction n generalizing off with
  | zero => rfl
  | succ n ih => rw [peekAll, List.length_cons, ih]

theorem getElem?_peekAll {k : ℕ} (h : k < n) :
    (c.peekAll m off n)[k]? = some (c.peek m (off + k * c.size)) := by
  induction k generalizing off n with
  | zero =>
      obtain ⟨n, rfl⟩ := Nat.exists_eq_succ_of_ne_zero h.ne'
      rw [Nat.zero_mul]
      rfl
  | succ k ih =>
      obtain ⟨n, rfl⟩ := Nat.exists_eq_succ_of_ne_zero (Nat.ne_zero_of_lt h)
      rw [peekAll, List.getElem?_cons_succ, ih (Nat.lt_of_succ_lt_succ h), Nat.succ_mul,
        Nat.add_assoc, Nat.add_comm c.size]

/-- The block with the elements of an array at an address. -/
def pokeAll : (ℕ → UInt8) → ℕ → List α → ℕ → UInt8
  | m, _, [] => m
  | m, off, a :: as => pokeAll (c.poke m off a) (off + c.size) as

theorem within_pokeAll : Within m (c.pokeAll m off as) off (off + c.size * as.length) := by
  induction as generalizing m off with
  | nil => exact Within.refl
  | cons a as ih =>
      have hsize : c.size * (a :: as).length = c.size + c.size * as.length := by
        rw [List.length_cons, Nat.mul_succ, Nat.add_comm]
      rw [hsize, pokeAll]
      exact (c.within_poke.mono le_rfl (by omega)).trans (ih.mono (by omega) (by omega))

theorem peekAll_of_within (h : Within m m' lo hi)
    (ha : off + c.size * n ≤ lo ∨ hi ≤ off) : c.peekAll m' off n = c.peekAll m off n := by
  induction n generalizing off with
  | zero => rfl
  | succ n ih =>
      rw [Nat.mul_succ] at ha
      rw [peekAll, peekAll, c.peek_of_within h (by omega), ih (by omega)]

theorem peekAll_pokeAll : c.peekAll (c.pokeAll m off as) off as.length = as := by
  induction as generalizing m off with
  | nil => rfl
  | cons a as ih =>
      rw [pokeAll, List.length_cons, peekAll, ih,
        c.peek_of_within c.within_pokeAll (.inl le_rfl), peek_poke]

/-! ## Arrays inside structs -/

/-- Nothing. -/
def unit : Codec Unit := pad 0

/-- An array of a fixed length. -/
def array : (n : ℕ) → Codec (Fin n → α)
  | 0 => unit.map (fun _ => ()) (fun _ => Fin.elim0) fun _ => funext fun i => i.elim0
  | n + 1 => (c.prod (array n)).map (fun v => (v 0, Fin.tail v)) (fun p => Fin.cons p.1 p.2)
      fun v => Fin.cons_self_tail v

@[simp] theorem size_array : (c.array n).size = n * c.size := by
  induction n with
  | zero => exact (Nat.zero_mul _).symm
  | succ n ih =>
      change c.size + (c.array n).size = _
      rw [ih, Nat.succ_mul, Nat.add_comm]

end Codec
