import Mathlib.Data.List.Induction
import Mathlib.Order.Basic
import Mathlib.Order.Nat

/-! # A block of memory

Bytes by their position, and copies into it. What is read back depends on which copies touched
the bytes that are read.
-/

namespace Blob

variable {B : Type*}

/-- The block after a copy to an offset. -/
def memcpy (m : ℕ → B) (off : ℕ) (src : List B) : ℕ → B :=
  fun a => if off ≤ a then src[a - off]?.getD (m a) else m a

/-- The bytes at an offset. -/
def load (m : ℕ → B) (off n : ℕ) : List B := (List.range n).map fun k => m (off + k)

variable {m m' : ℕ → B} {off n a : ℕ} {src : List B}

@[simp] theorem length_load : (load m off n).length = n := by
  simp [load]

theorem load_congr (h : ∀ a, off ≤ a → a < off + n → m a = m' a) :
    load m off n = load m' off n :=
  List.map_congr_left fun _ hk => h _ (Nat.le_add_right ..)
    (Nat.add_lt_add_left (List.mem_range.mp hk) _)

theorem memcpy_of_lt (h : a < off) : memcpy m off src a = m a :=
  if_neg (Nat.not_le.mpr h)

theorem memcpy_of_ge (h : off + src.length ≤ a) : memcpy m off src a = m a := by
  unfold memcpy
  split
  · rw [List.getElem?_eq_none (by omega), Option.getD_none]
  · rfl

theorem load_memcpy_same : load (memcpy m off src) off src.length = src := by
  refine List.ext_getElem (by simp) fun k hk hk' => ?_
  simp [load, memcpy, hk']

/-- A copy is not seen in bytes it does not touch. -/
theorem load_memcpy_of_disjoint {off' : ℕ} (h : off' + src.length ≤ off ∨ off + n ≤ off') :
    load (memcpy m off' src) off n = load m off n := by
  refine load_congr fun a hlo hhi => ?_
  rcases h with h | h
  · exact memcpy_of_ge (h.trans hlo)
  · exact memcpy_of_lt (hhi.trans_le h)

/-- Copies of items to offsets of their own. -/
def memcpyAll {ι : Type*} (at_ : ι → ℕ) (m : ℕ → B) (items : List (ι × List B)) : ℕ → B :=
  items.foldl (fun m x => memcpy m (at_ x.1) x.2) m

/-- What was copied last to an offset is read back, when no copy touches the bytes of another. -/
theorem load_memcpyAll {ι : Type*} {at_ : ι → ℕ} {size : ℕ}
    {items : List (ι × List B)} (hsize : ∀ x ∈ items, x.2.length = size)
    (hapart : ∀ x ∈ items, ∀ y ∈ items, x.1 ≠ y.1 →
      at_ x.1 + size ≤ at_ y.1 ∨ at_ y.1 + size ≤ at_ x.1)
    (hnodup : (items.map Prod.fst).Nodup) {x : ι × List B} (hx : x ∈ items) :
    load (memcpyAll at_ m items) (at_ x.1) size = x.2 := by
  induction items using List.reverseRecOn generalizing m with
  | nil => cases hx
  | append_singleton items y ih =>
      rw [memcpyAll, List.foldl_append, List.foldl_cons, List.foldl_nil]
      have hy : y.2.length = size := hsize y (by simp)
      rcases List.mem_append.mp hx with hx' | hx'
      · have hne : x.1 ≠ y.1 := by
          rw [List.map_append, List.nodup_append] at hnodup
          exact hnodup.2.2 _ (List.mem_map_of_mem hx') _ (by simp)
        rw [load_memcpy_of_disjoint]
        · refine ih (fun z hz => hsize z (List.mem_append_left _ hz))
            (fun z hz w hw => hapart z (List.mem_append_left _ hz) w (List.mem_append_left _ hw))
            ?_ hx'
          exact hnodup.sublist ((List.sublist_append_left _ _).map _)
        · rw [hy]
          exact (hapart x hx y (by simp) hne).symm
      · obtain rfl := List.mem_singleton.mp hx'
        rw [← hy]
        exact load_memcpy_same

end Blob
