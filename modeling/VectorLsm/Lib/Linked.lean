import Mathlib.Data.Finset.Card
import Mathlib.Data.List.Perm.Basic
import Mathlib.Data.List.Nodup
import Mathlib.Order.Interval.Finset.Nat
import Mathlib.Tactic.TypeStar

/-! # Singly linked lists

Cells named by `α` with a partial successor map. `Path` is the ghost content of the map: the cells
met from `p` on, up to the link `q`. A path that ends is found again by every walk, and it meets
no cell twice.
-/

namespace Linked

variable {α β : Type*} {next next' : α → Option α} {p q : Option α} {l l' xs ys : List α} {a b : α}

/-- From `p` the links lead over the cells of `l` and on to `q`. -/
def Path (next : α → Option α) : Option α → List α → Option α → Prop
  | p, [], q => p = q
  | p, a :: l, q => p = some a ∧ Path next (next a) l q

theorem path_cons : Path next p (a :: l) q ↔ p = some a ∧ Path next (next a) l q := Iff.rfl

theorem path_singleton : Path next (some a) [a] q ↔ next a = q := by simp [Path]

theorem path_append : Path next p (xs ++ ys) q ↔ ∃ m, Path next p xs m ∧ Path next m ys q := by
  induction xs generalizing p with
  | nil => simp [Path]
  | cons a xs ih => simp only [List.cons_append, path_cons, ih, and_assoc, exists_and_left]

theorem Path.congr (hn : ∀ a ∈ l, next' a = next a) (h : Path next p l q) : Path next' p l q := by
  induction l generalizing p with
  | nil => exact h
  | cons a l ih =>
      obtain ⟨hp, hl⟩ := h
      refine ⟨hp, ?_⟩
      rw [hn a List.mem_cons_self]
      exact ih (fun b hb => hn b (List.mem_cons_of_mem a hb)) hl

theorem Path.head (h : Path next p l none) : p = l.head? := by
  cases l with
  | nil => exact h
  | cons a l => exact h.1

theorem Path.unique (h : Path next p l none) (h' : Path next p l' none) : l = l' := by
  induction l generalizing p l' with
  | nil =>
      obtain rfl : p = none := h
      cases l' with
      | nil => rfl
      | cons b l' => cases h'.1
  | cons a l ih =>
      obtain ⟨rfl, hl⟩ := h
      cases l' with
      | nil => cases h'
      | cons b l' =>
          obtain ⟨hb, hl'⟩ := h'
          obtain rfl := Option.some.inj hb
          rw [ih hl hl']

theorem Path.rest (h : Path next p l q) (ha : a ∈ l) :
    ∃ xs ys, l = xs ++ a :: ys ∧ Path next (next a) ys q := by
  obtain ⟨xs, ys, rfl⟩ := List.append_of_mem ha
  obtain ⟨m, -, -, hys⟩ := path_append.mp h
  exact ⟨xs, ys, rfl, hys⟩

/-- A list that ends has no cycle. -/
theorem Path.nodup (h : Path next p l none) : l.Nodup := by
  induction l generalizing p with
  | nil => exact List.nodup_nil
  | cons a l ih =>
      obtain ⟨rfl, hl⟩ := h
      refine List.nodup_cons.mpr ⟨fun ha => ?_, ih hl⟩
      obtain ⟨xs, ys, rfl, hys⟩ := hl.rest ha
      have hlen := congrArg List.length (hl.unique hys)
      simp at hlen
      omega

theorem Path.next_mem (h : Path next p l none) (ha : a ∈ l) (hb : next a = some b) : b ∈ l := by
  obtain ⟨xs, ys, rfl, hys⟩ := h.rest ha
  rw [hb] at hys
  have hmem : b ∈ ys := List.mem_of_head? hys.head.symm
  exact List.mem_append_right xs (List.mem_cons_of_mem a hmem)

theorem Path.eq_concat (h : Path next p l none) (ha : a ∈ l) (hn : next a = none) :
    ∃ xs, l = xs ++ [a] := by
  obtain ⟨xs, ys, rfl, hys⟩ := h.rest ha
  rw [hn] at hys
  obtain rfl : ys = [] := List.head?_eq_none_iff.mp hys.head.symm
  exact ⟨xs, rfl⟩

/-- The last cell is led on to a list of other cells. -/
theorem Path.append (h : Path next p (xs ++ [a]) none) (hys : Path next q ys none)
    (hd : a ∉ ys) (ha : next' a = q) (hn : ∀ b, b ≠ a → next' b = next b) :
    Path next' p ((xs ++ [a]) ++ ys) none := by
  have hnd : a ∉ xs := by
    intro hx
    exact (List.nodup_append.mp h.nodup).2.2 a hx a (List.mem_singleton_self a) rfl
  obtain ⟨m, hxs, hm⟩ := path_append.mp h
  refine path_append.mpr ⟨q, path_append.mpr ⟨m, ?_, hm.1, ha⟩, ?_⟩
  · exact hxs.congr fun b hb => hn b (ne_of_mem_of_not_mem hb hnd)
  · exact hys.congr fun b hb => hn b (ne_of_mem_of_not_mem hb hd)

section Walk

/-- The walk to the cell that leads nowhere, over at most `fuel` cells. -/
def last (next : α → Option α) : ℕ → α → Option α
  | 0, _ => none
  | fuel + 1, a =>
      match next a with
      | none => some a
      | some b => last next fuel b

theorem last_eq {fuel : ℕ} (h : Path next (some a) l none) (hf : l.length ≤ fuel) :
    last next fuel a = l.getLast? := by
  induction fuel generalizing a l with
  | zero =>
      obtain rfl := List.length_eq_zero_iff.mp (Nat.le_zero.mp hf)
      cases h
  | succ fuel ih =>
      cases l with
      | nil => cases h
      | cons c l =>
          obtain ⟨hc, hl⟩ := h
          obtain rfl := Option.some.inj hc
          cases l with
          | nil =>
              have hn : next a = none := hl
              simp [last, hn]
          | cons b l =>
              have hn : next a = some b := hl.1
              rw [hn] at hl
              have hlast := ih hl (Nat.le_of_succ_le_succ hf)
              simpa [last, hn] using hlast

/-- From every cell of a list the walk ends at its last one. -/
theorem Path.last_eq {fuel : ℕ} (h : Path next p l none) (ha : a ∈ l) (hf : l.length ≤ fuel) :
    last next fuel a = l.getLast? := by
  obtain ⟨xs, ys, rfl, hys⟩ := h.rest ha
  have hlen : (a :: ys).length ≤ fuel := le_trans (by simp) hf
  have hpath : Path next (some a) (a :: ys) none := path_cons.mpr ⟨rfl, hys⟩
  rw [Linked.last_eq hpath hlen, List.getLast?_append_of_ne_nil _ (List.cons_ne_nil a ys)]

theorem length_le_of_lt {l : List ℕ} {n : ℕ} (h : l.Nodup) (hlt : ∀ a ∈ l, a < n) :
    l.length ≤ n := by
  have hsub : l.toFinset ⊆ Finset.range n := fun a ha =>
    Finset.mem_range.mpr (hlt a (List.mem_toFinset.mp ha))
  calc l.length = l.toFinset.card := (List.toFinset_card_of_nodup h).symm
    _ ≤ (Finset.range n).card := Finset.card_le_card hsub
    _ = n := Finset.card_range n

end Walk

section Contents

/-- One cell of a list changes its content. -/
theorem flatMap_perm (f f' : α → List β) (hl : l.Nodup) (ha : a ∈ l)
    (hf : ∀ b, b ≠ a → f' b = f b) :
    ∃ rest, (l.flatMap f).Perm (f a ++ rest) ∧ (l.flatMap f').Perm (f' a ++ rest) := by
  obtain ⟨xs, ys, rfl⟩ := List.append_of_mem ha
  have hnd : a ∉ xs ++ ys := (List.nodup_middle.mp hl).notMem
  have hrest : (xs ++ ys).flatMap f' = (xs ++ ys).flatMap f :=
    List.flatMap_congr fun b hb => hf b (ne_of_mem_of_not_mem hb hnd)
  refine ⟨(xs ++ ys).flatMap f, ?_, ?_⟩
  · exact (List.perm_middle.flatMap_right f)
  · rw [← hrest]
    exact (List.perm_middle.flatMap_right f')

end Contents

end Linked
