import Mathlib.Algebra.BigOperators.Fin
import Mathlib.Data.BitVec
import VectorLsm.SparseVec.Basic

/-! # Bit strings

A vector can be cut to one bit a dimension, and bit strings have two distances. These count bits
in words of 64 bits, or in eight of them at once, and in bytes at the end. Bits are numbered from
the highest of the first byte on.
-/

namespace VectorLsm.Bits

open Finset

/-- The bytes from a pointer on. -/
abbrev Bytes := ℕ → BitVec 8

/-- `uint64`. -/
abbrev Word := BitVec 64

/-- The pointer moved along. -/
def advance (x : Bytes) (n : ℕ) : Bytes := fun i => x (n + i)

def bit (x : Bytes) (k : ℕ) : Bool := (x (k / 8)).getMsbD (k % 8)

/-! ## Counting -/

/-- `memcpy` of `n` bytes into an integer. -/
def load : (n : ℕ) → Bytes → BitVec (8 * n)
  | 0, _ => 0#0
  | n + 1, x => load n (advance x 1) ++ x 0

def popcount64 (x : Word) : Word := x.cpop

/-- An entry of `pg_number_of_ones`. -/
def numberOfOnes (x : BitVec 8) : Word := x.cpop.setWidth 64

/-- `for (; bytes >= size; bytes -= size)`, which is taken `turns` times and moves both pointers
along. -/
def blocks {σ : Type*} (size : ℕ) (body : σ → Bytes → Bytes → σ) : ℕ → Bytes → Bytes → σ → σ
  | 0, _, _, s => s
  | turns + 1, ax, bx, s =>
      blocks size body turns (advance ax size) (advance bx size) (body s ax bx)

/-- `_mm512_loadu_si512`, as eight words. -/
def lanes (x : Bytes) (j : Fin 8) : Word := load 8 (advance x (8 * j))

/-- `_mm512_reduce_add_epi64`. -/
def reduceAdd (v : Fin 8 → Word) : Word := ∑ j, v j

section Hamming

variable (bytes : ℕ) (ax bx : Bytes) (distance : Word)

def bitHammingDistanceDefault : Word :=
  let distance := blocks 8 (fun d ax bx => d + popcount64 (load 8 ax ^^^ load 8 bx))
    (bytes / 8) ax bx distance
  blocks 1 (fun d ax bx => d + numberOfOnes (ax 0 ^^^ bx 0)) (bytes % 8)
    (advance ax (bytes / 8 * 8)) (advance bx (bytes / 8 * 8)) distance

def bitHammingDistanceAvx512Popcount : Word :=
  let dist := blocks 64 (fun d ax bx j => d j + popcount64 (lanes ax j ^^^ lanes bx j))
    (bytes / 64) ax bx fun _ => 0
  bitHammingDistanceDefault (bytes % 64) (advance ax (bytes / 64 * 64))
    (advance bx (bytes / 64 * 64)) (distance + reduceAdd dist)

end Hamming

/-- The counters of the Jaccard distance. -/
@[ext] structure Counts (α : Type*) where
  ab : α
  aa : α
  bb : α

/-- The arithmetic of the target's `double`. -/
structure Arith (δ : Type) where
  one : δ
  ofWord : Word → δ
  sub : δ → δ → δ
  div : δ → δ → δ

section Jaccard

variable {δ : Type} (ar : Arith δ) (bytes : ℕ) (ax bx : Bytes) (c : Counts Word)

/-- The loops of `BitJaccardDistanceDefault`. -/
def countsDefault : Counts Word :=
  let c := blocks 8 (fun c ax bx => ⟨c.ab + popcount64 (load 8 ax &&& load 8 bx),
    c.aa + popcount64 (load 8 ax), c.bb + popcount64 (load 8 bx)⟩) (bytes / 8) ax bx c
  blocks 1 (fun c ax bx => ⟨c.ab + numberOfOnes (ax 0 &&& bx 0), c.aa + numberOfOnes (ax 0),
    c.bb + numberOfOnes (bx 0)⟩) (bytes % 8) (advance ax (bytes / 8 * 8))
      (advance bx (bytes / 8 * 8)) c

/-- What they make of the counts. -/
def Arith.answer : δ :=
  if c.ab = 0 then ar.one
  else ar.sub ar.one (ar.div (ar.ofWord c.ab) (ar.ofWord (c.aa + c.bb - c.ab)))

def bitJaccardDistanceDefault : δ := ar.answer (countsDefault bytes ax bx c)

/-- The loop of `BitJaccardDistanceAvx512Popcount`. -/
def countsAvx512Popcount : Counts (Fin 8 → Word) :=
  blocks 64 (fun c ax bx => ⟨fun j => c.ab j + popcount64 (lanes ax j &&& lanes bx j),
    fun j => c.aa j + popcount64 (lanes ax j), fun j => c.bb j + popcount64 (lanes bx j)⟩)
      (bytes / 64) ax bx ⟨fun _ => 0, fun _ => 0, fun _ => 0⟩

def bitJaccardDistanceAvx512Popcount : δ :=
  let x := countsAvx512Popcount bytes ax bx
  bitJaccardDistanceDefault ar (bytes % 64) (advance ax (bytes / 64 * 64))
    (advance bx (bytes / 64 * 64))
    ⟨c.ab + reduceAdd x.ab, c.aa + reduceAdd x.aa, c.bb + reduceAdd x.bb⟩

end Jaccard

/-! ### What the loops count -/

/-- An operation on the bits of two words. -/
abbrev Op := (w : ℕ) → BitVec w → BitVec w → BitVec w

/-- Each bit of the result is that of the operation on the parts. -/
def Splits (op : Op) : Prop :=
  ∀ {w v : ℕ} (x x' : BitVec w) (y y' : BitVec v),
    op (w + v) (x ++ y) (x' ++ y') = op w x x' ++ op v y y'

theorem splits_xor : Splits fun _ x y => x ^^^ y := fun _ _ _ _ => BitVec.xor_append

theorem splits_and : Splits fun _ x y => x &&& y := fun _ _ _ _ => BitVec.and_append

theorem splits_left : Splits fun _ x _ => x := fun _ _ _ _ => rfl

theorem splits_right : Splits fun _ _ y => y := fun _ _ _ _ => rfl

/-- The bits that are set in the result of an operation on `n` bytes. -/
def count (op : Op) (n : ℕ) (ax bx : Bytes) : ℕ :=
  ∑ i ∈ range n, (op 8 (ax i) (bx i)).cpop.toNat

section Count

variable {op : Op} {m n : ℕ} {ax bx : Bytes}

theorem count_add : count op (m + n) ax bx =
    count op m ax bx + count op n (advance ax m) (advance bx m) :=
  sum_range_add _ m n

theorem count_one : count op 1 ax bx = (op 8 (ax 0) (bx 0)).cpop.toNat := sum_range_one _

theorem cpop_load (hop : Splits op) :
    (op (8 * n) (load n ax) (load n bx)).cpop.toNat = count op n ax bx := by
  induction n generalizing ax bx with
  | zero =>
      rw [BitVec.eq_nil (op (8 * 0) _ _)]
      rfl
  | succ n ih =>
      change (op (8 * n + 8) (load n _ ++ ax 0) (load n _ ++ bx 0)).cpop.toNat = _
      rw [hop, BitVec.toNat_cpop_append, ih, Nat.add_comm n 1, count_add, count_one,
        Nat.add_comm]

theorem popcount64_load (hop : Splits op) :
    popcount64 (op 64 (load 8 ax) (load 8 bx)) = (count op 8 ax bx : ℕ) := by
  rw [← cpop_load hop]
  simp [popcount64]

theorem numberOfOnes_eq : numberOfOnes (op 8 (ax 0) (bx 0)) = (count op 1 ax bx : ℕ) := by
  rw [count_one]
  apply BitVec.eq_of_toNat_eq
  simp [numberOfOnes]

/-- Eight words at once. -/
theorem sum_lanes (hop : Splits op) :
    ∑ j, popcount64 (op 64 (lanes ax j) (lanes bx j)) = (count op 64 ax bx : ℕ) := by
  have hall : ∀ n, ∑ j ∈ range n, count op 8 (advance ax (8 * j)) (advance bx (8 * j)) =
      count op (8 * n) ax bx := by
    intro n
    induction n with
    | zero => rfl
    | succ n ih => rw [sum_range_succ, ih, ← count_add, Nat.mul_succ]
  rw [← hall 8, sum_range, Nat.cast_sum]
  exact sum_congr rfl fun j _ => popcount64_load hop

/-- If a turn adds what it counts, so does the loop. -/
theorem blocks_count {σ : Type*} {size : ℕ} {body : σ → Bytes → Bytes → σ} (r : σ → Word)
    (h : ∀ s ax bx, r (body s ax bx) = r s + (count op size ax bx : ℕ)) (turns : ℕ) (s : σ) :
    r (blocks size body turns ax bx s) = r s + (count op (turns * size) ax bx : ℕ) := by
  induction turns generalizing ax bx s with
  | zero => simp [blocks, count]
  | succ turns ih =>
      rw [blocks, ih, h, add_assoc, ← Nat.cast_add, ← count_add, Nat.succ_mul, Nat.add_comm size]

/-- The loop over words and the one over the rest. -/
theorem loops_count {σ : Type*} (hop : Splits op) {word byte : σ → Bytes → Bytes → σ} (r : σ → Word)
    (hword : ∀ s ax bx, r (word s ax bx) = r s + popcount64 (op 64 (load 8 ax) (load 8 bx)))
    (hbyte : ∀ s ax bx, r (byte s ax bx) = r s + numberOfOnes (op 8 (ax 0) (bx 0)))
    (bytes : ℕ) (s : σ) :
    r (blocks 1 byte (bytes % 8) (advance ax (bytes / 8 * 8)) (advance bx (bytes / 8 * 8))
      (blocks 8 word (bytes / 8) ax bx s)) = r s + (count op bytes ax bx : ℕ) := by
  have h₁ : ∀ s ax bx, r (byte s ax bx) = r s + (count op 1 ax bx : ℕ) := fun s ax bx => by
    rw [hbyte, numberOfOnes_eq]
  have h₈ : ∀ s ax bx, r (word s ax bx) = r s + (count op 8 ax bx : ℕ) := fun s ax bx => by
    rw [hword, popcount64_load hop]
  rw [blocks_count r h₁, blocks_count r h₈, add_assoc, ← Nat.cast_add, Nat.mul_one, ← count_add,
    Nat.div_add_mod']

theorem reduceAdd_zero : reduceAdd (fun _ => 0) = 0 := sum_const_zero

/-- The loop over eight words at once, from zero, and what comes behind it. -/
theorem lanes_count {σ : Type*} (hop : Splits op) {body : σ → Bytes → Bytes → σ}
    (r : σ → Fin 8 → Word) (h : ∀ s ax bx j, r (body s ax bx) j =
      r s j + popcount64 (op 64 (lanes ax j) (lanes bx j))) (bytes : ℕ) {s : σ}
    (hs : r s = fun _ => 0) (w : Word) :
    w + reduceAdd (r (blocks 64 body (bytes / 64) ax bx s)) + (count op (bytes % 64)
      (advance ax (bytes / 64 * 64)) (advance bx (bytes / 64 * 64)) : ℕ) =
        w + (count op bytes ax bx : ℕ) := by
  have hbody : ∀ s ax bx, reduceAdd (r (body s ax bx)) =
      reduceAdd (r s) + (count op 64 ax bx : ℕ) := by
    intro s ax bx
    rw [reduceAdd, reduceAdd, ← sum_lanes hop, ← sum_add_distrib]
    exact sum_congr rfl fun j _ => h s ax bx j
  rw [blocks_count (fun s => reduceAdd (r s)) hbody, hs, reduceAdd_zero, zero_add, add_assoc,
    ← Nat.cast_add, ← count_add, Nat.div_add_mod']

end Count

theorem hammingDefault_eq_count (bytes : ℕ) (ax bx : Bytes) (distance : Word) :
    bitHammingDistanceDefault bytes ax bx distance =
      distance + (count (fun _ x y => x ^^^ y) bytes ax bx : ℕ) := by
  unfold bitHammingDistanceDefault
  refine loops_count splits_xor (fun d => d) (fun _ _ _ => ?_) (fun _ _ _ => ?_) bytes distance
  · rfl
  · rfl

theorem hammingAvx512_eq_count (bytes : ℕ) (ax bx : Bytes) (distance : Word) :
    bitHammingDistanceAvx512Popcount bytes ax bx distance =
      distance + (count (fun _ x y => x ^^^ y) bytes ax bx : ℕ) := by
  unfold bitHammingDistanceAvx512Popcount
  rw [hammingDefault_eq_count]
  refine lanes_count splits_xor (fun d => d) (fun _ _ _ _ => ?_) bytes ?_ distance
  · rfl
  · rfl

theorem countsDefault_eq (bytes : ℕ) (ax bx : Bytes) (c : Counts Word) :
    countsDefault bytes ax bx c = ⟨c.ab + (count (fun _ x y => x &&& y) bytes ax bx : ℕ),
      c.aa + (count (fun _ x _ => x) bytes ax bx : ℕ),
      c.bb + (count (fun _ _ y => y) bytes ax bx : ℕ)⟩ := by
  ext1
  · exact loops_count splits_and Counts.ab (fun _ _ _ => rfl) (fun _ _ _ => rfl) bytes c
  · exact loops_count splits_left Counts.aa (fun _ _ _ => rfl) (fun _ _ _ => rfl) bytes c
  · exact loops_count splits_right Counts.bb (fun _ _ _ => rfl) (fun _ _ _ => rfl) bytes c

/-- What the lanes have counted, with the rest. -/
theorem countsAvx512_eq (bytes : ℕ) (ax bx : Bytes) (c : Counts Word) :
    countsDefault (bytes % 64) (advance ax (bytes / 64 * 64)) (advance bx (bytes / 64 * 64))
      ⟨c.ab + reduceAdd (countsAvx512Popcount bytes ax bx).ab,
        c.aa + reduceAdd (countsAvx512Popcount bytes ax bx).aa,
        c.bb + reduceAdd (countsAvx512Popcount bytes ax bx).bb⟩ = countsDefault bytes ax bx c := by
  rw [countsDefault_eq, countsDefault_eq]
  unfold countsAvx512Popcount
  ext1
  · exact lanes_count splits_and Counts.ab (fun _ _ _ _ => by rfl) bytes (by rfl) c.ab
  · exact lanes_count splits_left Counts.aa (fun _ _ _ _ => by rfl) bytes (by rfl) c.aa
  · exact lanes_count splits_right Counts.bb (fun _ _ _ _ => by rfl) bytes (by rfl) c.bb

theorem jaccardAvx512_eq_default {δ : Type} (ar : Arith δ) (bytes : ℕ) (ax bx : Bytes)
    (c : Counts Word) : bitJaccardDistanceAvx512Popcount ar bytes ax bx c =
      bitJaccardDistanceDefault ar bytes ax bx c := by
  unfold bitJaccardDistanceAvx512Popcount bitJaccardDistanceDefault
  exact congrArg ar.answer (countsAvx512_eq bytes ax bx c)

/-! ### Bits -/

theorem toNat_cpop_eq {w : ℕ} (x : BitVec w) : x.cpop.toNat = #{k ∈ range w | x.getMsbD k} := by
  have hrec : ∀ n acc (y : BitVec w), y.cpopNatRec n acc = acc + #{k ∈ range n | y.getLsbD k} := by
    intro n
    induction n with
    | zero => simp
    | succ n ih =>
        intro acc y
        rw [BitVec.cpopNatRec_succ, ih, range_add_one, filter_insert]
        cases hb : y.getLsbD n
        · simp
        · simp
          omega
  rw [← BitVec.cpop_reverse, BitVec.toNat_cpop, hrec, Nat.zero_add]
  simp only [BitVec.getLsbD_reverse]

/-- The bits of the result of an operation, byte by byte. -/
theorem count_eq_card (op : Op) (n : ℕ) (ax bx : Bytes) : count op n ax bx =
    #{k ∈ range (8 * n) | (op 8 (ax (k / 8)) (bx (k / 8))).getMsbD (k % 8)} := by
  rw [card_filter]
  induction n with
  | zero => rfl
  | succ n ih =>
      rw [Nat.mul_succ, sum_range_add, ← ih, count_add, count_one, toNat_cpop_eq, card_filter]
      congr 1
      refine sum_congr rfl fun j hj => ?_
      have hj := mem_range.mp hj
      have hdiv : (8 * n + j) / 8 = n := by omega
      have hmod : (8 * n + j) % 8 = j := by omega
      rw [hdiv, hmod]
      rfl

theorem count_xor (n : ℕ) (ax bx : Bytes) : count (fun _ x y => x ^^^ y) n ax bx =
    #{k ∈ range (8 * n) | bit ax k ≠ bit bx k} := by
  rw [count_eq_card]
  refine congrArg card (filter_congr fun k _ => ?_)
  rw [BitVec.getMsbD_xor, bit, bit, bne_iff_ne]

theorem count_and (n : ℕ) (ax bx : Bytes) : count (fun _ x y => x &&& y) n ax bx =
    #{k ∈ range (8 * n) | bit ax k ∧ bit bx k} := by
  rw [count_eq_card]
  refine congrArg card (filter_congr fun k _ => ?_)
  rw [BitVec.getMsbD_and, bit, bit, Bool.and_eq_true]

theorem count_left (n : ℕ) (ax bx : Bytes) :
    count (fun _ x _ => x) n ax bx = #{k ∈ range (8 * n) | bit ax k} :=
  count_eq_card _ n ax bx

theorem count_right (n : ℕ) (ax bx : Bytes) :
    count (fun _ _ y => y) n ax bx = #{k ∈ range (8 * n) | bit bx k} :=
  count_eq_card _ n ax bx

/-- Whatever the length, both implementations add the number of bits that differ. -/
theorem bitHammingDistance_eq (bytes : ℕ) (ax bx : Bytes) (distance : Word) :
    bitHammingDistanceDefault bytes ax bx distance =
      distance + (#{k ∈ range (8 * bytes) | bit ax k ≠ bit bx k} : ℕ) ∧
    bitHammingDistanceAvx512Popcount bytes ax bx distance =
      distance + (#{k ∈ range (8 * bytes) | bit ax k ≠ bit bx k} : ℕ) := by
  rw [hammingDefault_eq_count, hammingAvx512_eq_count, count_xor]
  exact ⟨rfl, rfl⟩

/-! ## Bit strings -/

/-- `VarBit`. Behind the bits of the string, none is set. -/
structure VarBit where
  len : ℕ
  bits : Bytes
  len_lt : len < 2 ^ 31
  padded : ∀ k, len ≤ k → bit bits k = false

/-- `VARBITBYTES`. -/
def VarBit.bytes (a : VarBit) : ℕ := (a.len + 7) / 8

inductive Error where
  | differentLengths (a b : ℕ)
  deriving DecidableEq, Repr

def Error.errmsg : Error → String
  | differentLengths a b => s!"different bit lengths {a} and {b}"

/-- `CheckDims`. -/
def checkDims (a b : VarBit) : Except Error Unit :=
  if a.len ≠ b.len then .error (.differentLengths a.len b.len) else .ok ()

section Distances

variable {δ : Type} (ar : Arith δ) (avx512 : Bool) (a b : VarBit)

/-- The answer is the `double` of this number. -/
def hammingDistance : Except Error Word := do
  checkDims a b
  return if avx512 then bitHammingDistanceAvx512Popcount a.bytes a.bits b.bits 0
    else bitHammingDistanceDefault a.bytes a.bits b.bits 0

def jaccardDistance : Except Error δ := do
  checkDims a b
  return if avx512 then bitJaccardDistanceAvx512Popcount ar a.bytes a.bits b.bits ⟨0, 0, 0⟩
    else bitJaccardDistanceDefault ar a.bytes a.bits b.bits ⟨0, 0, 0⟩

end Distances

theorem VarBit.lt_len (a : VarBit) (k : ℕ) (h : bit a.bits k) : k < a.len := by
  by_contra hle
  rw [a.padded k (Nat.not_lt.mp hle)] at h
  cases h

/-- The bits behind the string do not count. -/
theorem card_filter_bytes {p : ℕ → Prop} [DecidablePred p] (a : VarBit)
    (hp : ∀ k, p k → k < a.len) :
    #{k ∈ range (8 * a.bytes) | p k} = #{k ∈ range a.len | p k} := by
  congr 1
  ext k
  simp only [mem_filter, mem_range]
  refine and_congr_left fun hk => ⟨fun _ => hp k hk, fun hlt => ?_⟩
  unfold VarBit.bytes
  omega

theorem checkDims_eq (a b : VarBit) {α : Type} (x : α) :
    (do checkDims a b; return x) =
      if a.len = b.len then .ok x else .error (.differentLengths a.len b.len) := by
  rw [checkDims, ite_not]
  split_ifs <;> rfl

theorem bytes_eq {a b : VarBit} (h : a.len = b.len) : a.bytes = b.bytes := by
  rw [VarBit.bytes, VarBit.bytes, h]

theorem hammingDistance_eq (avx512 : Bool) (a b : VarBit) : hammingDistance avx512 a b =
    if a.len = b.len then .ok (#{k ∈ range a.len | bit a.bits k ≠ bit b.bits k} : ℕ)
    else .error (.differentLengths a.len b.len) := by
  rw [hammingDistance, checkDims_eq]
  by_cases hlen : a.len = b.len
  · have hp : ∀ k, bit a.bits k ≠ bit b.bits k → k < a.len := by
      intro k hk
      by_contra hle
      rw [a.padded k (Nat.not_lt.mp hle), b.padded k (hlen ▸ Nat.not_lt.mp hle)] at hk
      exact hk rfl
    rw [if_pos hlen, if_pos hlen, hammingDefault_eq_count, hammingAvx512_eq_count, ite_self,
      count_xor, card_filter_bytes a hp, zero_add]
  · rw [if_neg hlen, if_neg hlen]

theorem answer_eq {δ : Type} (ar : Arith δ) {s t : Finset ℕ} (hs : #(s ∩ t) < 2 ^ 64) :
    ar.answer ⟨(#(s ∩ t) : ℕ), (#s : ℕ), (#t : ℕ)⟩ = if #(s ∩ t) = 0 then ar.one
      else ar.sub ar.one (ar.div (ar.ofWord (#(s ∩ t) : ℕ)) (ar.ofWord (#(s ∪ t) : ℕ))) := by
  have hzero : ((#(s ∩ t) : ℕ) : Word) = 0 ↔ #(s ∩ t) = 0 := by
    rw [← BitVec.toNat_inj, BitVec.natCast_eq_ofNat, BitVec.toNat_ofNat, Nat.mod_eq_of_lt hs]
    rfl
  have hunion : ((#s : ℕ) : Word) + (#t : ℕ) - (#(s ∩ t) : ℕ) = (#(s ∪ t) : ℕ) := by
    rw [← Nat.cast_add, ← card_union_add_card_inter, Nat.cast_add, add_sub_cancel_right]
  rw [Arith.answer, hunion]
  exact if_congr hzero rfl rfl

/-- Both implementations: one, less the bits of both over those of either. -/
theorem jaccardDistance_eq {δ : Type} (ar : Arith δ) (avx512 : Bool) (a b : VarBit) :
    jaccardDistance ar avx512 a b =
      if a.len = b.len then .ok
        (if #{k ∈ range a.len | bit a.bits k ∧ bit b.bits k} = 0 then ar.one
        else ar.sub ar.one (ar.div
          (ar.ofWord (#{k ∈ range a.len | bit a.bits k ∧ bit b.bits k} : ℕ))
          (ar.ofWord (#{k ∈ range a.len | bit a.bits k ∨ bit b.bits k} : ℕ))))
      else .error (.differentLengths a.len b.len) := by
  rw [jaccardDistance, checkDims_eq]
  by_cases hlen : a.len = b.len
  · have hlt : #{k ∈ range a.len | bit a.bits k ∧ bit b.bits k} < 2 ^ 64 := by
      refine (card_filter_le _ _).trans_lt ?_
      rw [card_range]
      exact a.len_lt.trans (by decide)
    rw [if_pos hlen, if_pos hlen, jaccardAvx512_eq_default, ite_self, bitJaccardDistanceDefault,
      countsDefault_eq, count_and, count_left, count_right, card_filter_bytes a a.lt_len,
      bytes_eq hlen, card_filter_bytes b b.lt_len, ← bytes_eq hlen,
      card_filter_bytes a fun k hk => a.lt_len k hk.1, ← hlen, filter_and, filter_or]
    simp only [zero_add]
    rw [filter_and] at hlt
    exact congrArg Except.ok (answer_eq ar hlt)
  · rw [if_neg hlen, if_neg hlen]

/-! ## Quantization -/

/-- `b |= p << (7 - j)`. -/
def setBit (b : BitVec 8) (p : Bool) (j : ℕ) : BitVec 8 :=
  b ||| (BitVec.ofBool p).setWidth 8 <<< (7 - j)

def resultByte (positive : ℕ → Bool) : BitVec 8 :=
  (List.range 8).foldl (fun b j => setBit b (positive j) j) 0

/-- The loops of `binary_quantize`, over whole bytes and over the rest. -/
def quantize (dim : ℕ) (positive : ℕ → Bool) : Bytes :=
  let count := dim / 8 * 8
  let rx := (List.range' 0 (dim / 8) 8).foldl (fun rx i =>
    Function.update rx (i / 8) (resultByte fun j => positive (i + j))) fun _ => 0
  (List.range' count (dim - count)).foldl (fun rx i =>
    Function.update rx (i / 8) (setBit (rx (i / 8)) (positive i) (i % 8))) rx

section Quantize

variable {positive : ℕ → Bool} {rx : Bytes} {b : BitVec 8} {p : Bool} {i j k n q : ℕ}

theorem getMsbD_setBit (hi : i < 8) (hj : j < 8) :
    (setBit b p j).getMsbD i = (b.getMsbD i || (decide (i = j) && p)) := by
  have hone : ∀ (p : Bool) (i j : Fin 8), ((BitVec.ofBool p).setWidth 8 <<< (7 - j.val)).getMsbD i =
      (decide (i.val = j.val) && p) := by
    decide
  rw [setBit, BitVec.getMsbD_or, hone p ⟨i, hi⟩ ⟨j, hj⟩]

theorem getMsbD_resultByte (hi : i < 8) : (resultByte positive).getMsbD i = positive i := by
  have hall : ∀ n ≤ 8, ((List.range n).foldl (fun b j => setBit b (positive j) j)
      (0 : BitVec 8)).getMsbD i = (decide (i < n) && positive i) := by
    intro n hn
    induction n with
    | zero => simp
    | succ n ih =>
        rw [List.range_succ, List.foldl_append, List.foldl_cons, List.foldl_nil,
          getMsbD_setBit hi hn, ih (Nat.le_of_succ_le hn)]
        rcases Nat.lt_trichotomy i n with hlt | rfl | hlt
        · simp [hlt, hlt.ne, Nat.lt_succ_of_lt hlt]
        · simp
        · simp [hlt.ne', Nat.not_lt.mpr hlt.le, Nat.not_lt.mpr (Nat.succ_le_of_lt hlt)]
  rw [resultByte, hall 8 le_rfl, decide_eq_true hi, Bool.true_and]

theorem bit_update :
    bit (Function.update rx q b) k = if k / 8 = q then b.getMsbD (k % 8) else bit rx k := by
  unfold bit
  rw [Function.update_apply]
  split_ifs <;> rfl

/-- The bytes of the loop over whole bytes. -/
theorem bit_bytes : bit ((List.range' 0 n 8).foldl (fun rx i =>
    Function.update rx (i / 8) (resultByte fun j => positive (i + j))) fun _ => 0) k =
      (decide (k < n * 8) && positive k) := by
  induction n with
  | zero => simp [bit]
  | succ n ih =>
      rw [List.range'_concat, List.foldl_append, List.foldl_cons, List.foldl_nil, bit_update, ih,
        Nat.zero_add, Nat.mul_div_cancel_left n (by decide : 0 < 8)]
      split_ifs with hk
      · have hsum : 8 * n + k % 8 = k := by omega
        rw [getMsbD_resultByte (Nat.mod_lt k (by decide)), hsum,
          decide_eq_true (by omega : k < (n + 1) * 8), Bool.true_and]
      · congr 2
        rw [eq_iff_iff]
        omega

theorem bit_quantize {dim : ℕ} :
    bit (quantize dim positive) k = (decide (k < dim) && positive k) := by
  have hrest : ∀ (count n : ℕ) (rx : Bytes), (∀ k, bit rx k = (decide (k < count) && positive k)) →
      ∀ k, bit ((List.range' count n).foldl (fun rx i =>
        Function.update rx (i / 8) (setBit (rx (i / 8)) (positive i) (i % 8))) rx) k =
          (decide (k < count + n) && positive k) := by
    intro count n rx hrx
    induction n with
    | zero => exact hrx
    | succ n ih =>
        intro k
        have hmod : ∀ i, i % 8 < 8 := fun i => Nat.mod_lt i (by decide)
        rw [List.range'_concat, List.foldl_append, List.foldl_cons, List.foldl_nil, bit_update,
          Nat.one_mul, getMsbD_setBit (hmod k) (hmod _)]
        split_ifs with hk
        · rw [← hk]
          change (bit _ k || _) = _
          rw [ih]
          rcases eq_or_ne k (count + n) with rfl | hne
          · simp
          · have hmod : k % 8 ≠ (count + n) % 8 := by omega
            have hlt : (k < count + n) = (k < count + (n + 1)) := by
              rw [eq_iff_iff]
              omega
            rw [decide_eq_false hmod, Bool.false_and, Bool.or_false]
            simp only [hlt]
        · rw [ih]
          congr 2
          rw [eq_iff_iff]
          omega
  rw [quantize, hrest _ _ _ (fun k => bit_bytes), Nat.add_sub_cancel' (Nat.div_mul_le_self dim 8)]

/-- One bit a dimension. -/
def quantized {α : Type*} (positive : α → Bool) (x : List α) (h : x.length < 2 ^ 31) : VarBit where
  len := x.length
  bits := quantize x.length fun i => (x[i]?.map positive).getD false
  len_lt := h
  padded k hk := by rw [bit_quantize, decide_eq_false (Nat.not_lt.mpr hk), Bool.false_and]

theorem card_ne_eq_countP {α : Type*} (f : α → Bool) {x y : List α} (h : x.length = y.length) :
    #{i ∈ range x.length | (x[i]?.map f).getD false ≠ (y[i]?.map f).getD false} =
      (x.zip y).countP fun e => f e.1 != f e.2 := by
  rw [card_filter]
  induction x generalizing y with
  | nil => rfl
  | cons u x ih =>
      obtain ⟨v, y, rfl⟩ := List.exists_cons_of_length_eq_add_one h.symm
      rw [List.length_cons, sum_range_succ', List.zip_cons_cons, List.countP_cons,
        ← ih (Nat.succ.inj h)]
      congr 1
      simp

theorem hammingDistance_quantized {α : Type*} (f : α → Bool) (avx512 : Bool) {x y : List α}
    (hx : x.length < 2 ^ 31) (hy : y.length < 2 ^ 31) :
    hammingDistance avx512 (quantized f x hx) (quantized f y hy) =
      if x.length = y.length then .ok (((x.zip y).countP fun e => f e.1 != f e.2 : ℕ) : Word)
      else .error (.differentLengths x.length y.length) := by
  rw [hammingDistance_eq]
  change (if x.length = y.length then _ else _) = _
  by_cases h : x.length = y.length
  · rw [if_pos h, if_pos h, ← card_ne_eq_countP f h]
    refine congrArg (fun s : Finset ℕ => Except.ok ((#s : ℕ) : Word))
      (filter_congr fun k hk => ?_)
    have hk : k < x.length := mem_range.mp hk
    have hky : k < y.length := h ▸ hk
    change bit (quantize _ _) k ≠ bit (quantize _ _) k ↔ _
    rw [bit_quantize, bit_quantize, decide_eq_true hk, decide_eq_true hky, Bool.true_and,
      Bool.true_and]
  · rw [if_neg h, if_neg h]
    rfl

end Quantize

/-- `ax[i] > 0`. -/
def isPositive (value : UInt32) : Bool := SparseVec.floatLt 0 value

def binaryQuantize (a : SparseVec.Vector) : VarBit :=
  quantized isPositive a.x (a.le.trans_lt (by decide))

def halfvecBinaryQuantize (a : SparseVec.HalfVector) : VarBit :=
  quantized (fun num => isPositive (Half.halfToFloat4 num)) a.x (a.le.trans_lt (by decide))

/-- The distance of two cut vectors is the number of dimensions of which one is positive and the
other is not. -/
theorem hammingDistance_binaryQuantize (avx512 : Bool) :
    (∀ a b : SparseVec.Vector, hammingDistance avx512 (binaryQuantize a) (binaryQuantize b) =
      if a.x.length = b.x.length then
        .ok (((a.x.zip b.x).countP fun e => isPositive e.1 != isPositive e.2 : ℕ) : Word)
      else .error (.differentLengths a.x.length b.x.length)) ∧
    ∀ a b : SparseVec.HalfVector,
      hammingDistance avx512 (halfvecBinaryQuantize a) (halfvecBinaryQuantize b) =
        if a.x.length = b.x.length then
          .ok (((a.x.zip b.x).countP fun e => isPositive (Half.halfToFloat4 e.1) !=
            isPositive (Half.halfToFloat4 e.2) : ℕ) : Word)
        else .error (.differentLengths a.x.length b.x.length) :=
  ⟨fun _ _ => hammingDistance_quantized _ avx512 _ _,
    fun _ _ => hammingDistance_quantized _ avx512 _ _⟩

end VectorLsm.Bits
