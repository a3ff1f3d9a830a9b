import Mathlib.Data.List.Basic
import Mathlib.Data.Nat.ModEq

/-! # Ring buffers

Slots of a memory used in turn, from a head to a tail. When a slot keeps what was put into it
until it is its turn again, the slots from the head on hold a queue of bounded length.
-/

/-- Slots in a memory. What fits into a slot is read from it, also when others are filled. -/
structure Slots (M α : Type*) where
  Fits : α → Prop
  put : M → ℕ → α → M
  get : M → ℕ → Option α
  get_put_self : ∀ m i a, Fits a → get (put m i a) i = some a
  get_put_of_ne : ∀ m i j a b, Fits a → Fits b → i ≠ j → get m j = some b →
    get (put m i a) j = some b

namespace Ring

variable {M α : Type*} {slots : Slots M α} {size head tail count : ℕ} {m : M}
  {q : List α} {a : α} {i j k : ℕ}

/-- Slots that lie less than a turn apart are different. -/
theorem mod_ne_mod (hij : i < j) (hlt : j < i + size) : i % size ≠ j % size := by
  intro h
  have hdvd : size ∣ j - i := (Nat.modEq_iff_dvd' hij.le).mp h
  exact absurd (Nat.le_of_dvd (by omega) hdvd) (by omega)

/-- The slots from the head on hold the queue, and the tail is the first behind them. -/
structure Holds (slots : Slots M α) (size : ℕ) (m : M) (head tail count : ℕ) (q : List α) :
    Prop where
  count_eq : count = q.length
  le : q.length ≤ size
  fits : ∀ a ∈ q, slots.Fits a
  tail_eq : tail = (head + q.length) % size
  head_lt : head < size
  get : ∀ k (h : k < q.length), slots.get m ((head + k) % size) = some q[k]

theorem holds_nil (h : 0 < size) : Holds slots size m 0 0 0 [] where
  count_eq := rfl
  le := Nat.zero_le _
  fits _ h := absurd h List.not_mem_nil
  tail_eq := (Nat.zero_mod _).symm
  head_lt := h
  get _ h := absurd h (Nat.not_lt_zero _)

namespace Holds

theorem full_iff (h : Holds slots size m head tail count q) :
    count = size ↔ q.length = size := by
  rw [h.count_eq]

theorem empty_iff (h : Holds slots size m head tail count q) : count = 0 ↔ q = [] := by
  rw [h.count_eq, List.length_eq_zero_iff]

/-- The slot at the tail is put into and the tail goes on. -/
theorem enqueue (h : Holds slots size m head tail count q) (ha : slots.Fits a)
    (hroom : count ≠ size) :
    Holds slots size (slots.put m tail a) head ((tail + 1) % size) (count + 1) (q ++ [a]) := by
  have hlt : q.length < size := lt_of_le_of_ne h.le fun hq => hroom (h.full_iff.mpr hq)
  refine ⟨by simp [h.count_eq], ?_, fun b hb => ?_, ?_, h.head_lt, fun k hk => ?_⟩
  · rwa [List.length_append, List.length_singleton]
  · rcases List.mem_append.mp hb with hb | hb
    · exact h.fits b hb
    · rwa [List.mem_singleton.mp hb]
  · rw [h.tail_eq, List.length_append, List.length_singleton, Nat.mod_add_mod, Nat.add_assoc]
  rw [List.length_append, List.length_singleton] at hk
  rcases Nat.lt_or_ge k q.length with hkq | hkq
  · have hne : tail ≠ (head + k) % size := by
      rw [h.tail_eq]
      exact (mod_ne_mod (by omega) (by omega)).symm
    rw [List.getElem_append_left hkq]
    exact slots.get_put_of_ne _ _ _ _ _ ha (h.fits _ (List.getElem_mem hkq)) hne (h.get k hkq)
  · obtain rfl : k = q.length := by omega
    rw [← h.tail_eq, slots.get_put_self _ _ _ ha]
    simp

/-- The slot at the head is the front of the queue. -/
theorem front (h : Holds slots size m head tail count (a :: q)) :
    slots.get m head = some a := by
  have hget := h.get 0 (Nat.zero_lt_succ _)
  rwa [Nat.add_zero, Nat.mod_eq_of_lt h.head_lt] at hget

/-- The head goes on. -/
theorem dequeue (h : Holds slots size m head tail count (a :: q)) :
    Holds slots size m ((head + 1) % size) tail (count - 1) q := by
  have hle := h.le
  rw [List.length_cons] at hle
  refine ⟨by rw [h.count_eq]; rfl, by omega, fun b hb => h.fits b (List.mem_cons_of_mem _ hb), ?_,
    Nat.mod_lt _ (by omega), fun k hk => ?_⟩
  · rw [h.tail_eq, List.length_cons, Nat.mod_add_mod, Nat.add_assoc, Nat.add_comm 1]
  · have hslot : ((head + 1) % size + k) % size = (head + (k + 1)) % size := by
      rw [Nat.mod_add_mod, Nat.add_assoc, Nat.add_comm 1]
    rw [hslot, h.get (k + 1) (Nat.succ_lt_succ hk), List.getElem_cons_succ]

end Holds

end Ring
