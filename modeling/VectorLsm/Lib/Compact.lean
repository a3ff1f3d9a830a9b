import Mathlib.Data.List.Basic
import Mathlib.Data.List.TakeDrop
import Mathlib.Logic.Function.Basic
import Mathlib.Order.Monotone.Basic

/-! # Compaction of an indexed list

`compact p n l` keeps the entries of `l` whose position, counted from `n`, is not in `p`;
`kept p n` counts the positions below `n` that stay. A slice of the compacted list is the
compaction of a slice, at the bounds moved by `kept`.
-/

namespace Compact

variable {α : Type*} (p : ℕ → Bool)

def compact : ℕ → List α → List α
  | _, [] => []
  | n, a :: l => if p n then compact (n + 1) l else a :: compact (n + 1) l

/-- The positions below `n` that stay. -/
def kept : ℕ → ℕ
  | 0 => 0
  | n + 1 => if p n then kept n else kept n + 1

variable {p}

@[simp] theorem kept_zero : kept p 0 = 0 := rfl

theorem kept_succ (n : ℕ) : kept p (n + 1) = kept p n + if p n then 0 else 1 := by
  rw [kept]
  split <;> rfl

theorem kept_mono : Monotone (kept p) :=
  monotone_nat_of_le_succ fun n => by rw [kept_succ]; exact Nat.le_add_right _ _

@[simp] theorem compact_nil (n : ℕ) : compact p n ([] : List α) = [] := rfl

theorem compact_append (n : ℕ) (l l' : List α) :
    compact p n (l ++ l') = compact p n l ++ compact p (n + l.length) l' := by
  induction l generalizing n with
  | nil => rfl
  | cons a l ih =>
      have hn : n + (l.length + 1) = n + 1 + l.length := by omega
      simp only [List.cons_append, compact, ih, List.length_cons, hn]
      split <;> rfl

theorem length_compact (n : ℕ) (l : List α) :
    (compact p n l).length + kept p n = kept p (n + l.length) := by
  induction l generalizing n with
  | nil => exact Nat.zero_add _
  | cons a l ih =>
      have hn : n + (l.length + 1) = n + 1 + l.length := by omega
      rw [compact, List.length_cons, hn, ← ih, kept_succ]
      split
      · simp
      · simp
        omega

theorem compact_sublist (n : ℕ) (l : List α) : (compact p n l).Sublist l := by
  induction l generalizing n with
  | nil => exact .slnil
  | cons a l ih =>
      rw [compact]
      split
      · exact (ih _).cons _
      · exact (ih _).cons_cons _

theorem length_compact_take {k : ℕ} (l : List α) (hk : k ≤ l.length) :
    (compact p 0 (l.take k)).length = kept p k := by
  have := length_compact (p := p) 0 (l.take k)
  rwa [List.length_take_of_le hk, Nat.zero_add, kept_zero, Nat.add_zero] at this

theorem compact_split {k : ℕ} (l : List α) (hk : k ≤ l.length) :
    compact p 0 l = compact p 0 (l.take k) ++ compact p k (l.drop k) := by
  have := compact_append (p := p) 0 (l.take k) (l.drop k)
  rwa [List.take_append_drop, Nat.zero_add, List.length_take_of_le hk] at this

/-- A prefix of the compacted list is the compaction of a prefix. -/
theorem take_compact {k : ℕ} (l : List α) (hk : k ≤ l.length) :
    (compact p 0 l).take (kept p k) = compact p 0 (l.take k) := by
  rw [compact_split l hk]
  exact List.take_left' (length_compact_take l hk)

theorem drop_compact {k : ℕ} (l : List α) (hk : k ≤ l.length) :
    (compact p 0 l).drop (kept p k) = compact p k (l.drop k) := by
  rw [compact_split l hk]
  exact List.drop_left' (length_compact_take l hk)

/-- A slice of the compacted list is the compaction of the slice. -/
theorem slice_compact {a b : ℕ} (l : List α) (hab : a ≤ b) (hb : b ≤ l.length) :
    ((compact p 0 l).drop (kept p a)).take (kept p b - kept p a) =
      compact p a ((l.drop a).take (b - a)) := by
  rw [← List.drop_take, take_compact l hb]
  have ha : a ≤ (l.take b).length := by rw [List.length_take_of_le hb]; exact hab
  rw [drop_compact _ ha, List.drop_take]

theorem compact_snoc (l : List α) (a : α) :
    compact p 0 (l ++ [a]) =
      compact p 0 l ++ if p l.length then [] else [a] := by
  rw [compact_append, Nat.zero_add, compact, compact_nil]

theorem getElem?_compact (l : List α) {i : ℕ} (hi : p i = false) :
    (compact p 0 l)[kept p i]? = l[i]? := by
  rcases Nat.lt_or_ge i l.length with h | h
  · have hd := drop_compact (p := p) l h.le
    have hc : (compact p i (l.drop i))[0]? = l[i]? := by
      rw [List.drop_eq_getElem_cons h, compact, hi]
      simp [h]
    rw [← hc, ← hd, List.getElem?_drop, Nat.add_zero]
  · have hlen := length_compact (p := p) 0 l
    have hk := kept_mono (p := p) h
    rw [List.getElem?_eq_none h, List.getElem?_eq_none]
    simp only [kept_zero, Nat.zero_add, Nat.add_zero] at hlen
    omega

theorem kept_lt {i j : ℕ} (hi : p i = false) (h : i < j) : kept p i < kept p j := by
  have hs := kept_succ (p := p) i
  rw [hi, if_neg Bool.false_ne_true] at hs
  have hle : kept p (i + 1) ≤ kept p j := kept_mono h
  omega

theorem kept_inj {i j : ℕ} (hi : p i = false) (hj : p j = false) (h : kept p i = kept p j) :
    i = j := by
  rcases lt_trichotomy i j with hlt | heq | hlt
  · exact absurd h (kept_lt hi hlt).ne
  · exact heq
  · exact absurd h.symm (kept_lt hj hlt).ne

/-- Each entry of the compacted list was at a position that stays. -/
theorem exists_of_getElem?_compact {n w : ℕ} {l : List α} {a : α}
    (h : (compact p n l)[w]? = some a) :
    ∃ k, p (n + k) = false ∧ l[k]? = some a ∧ kept p (n + k) = kept p n + w := by
  induction l generalizing n w with
  | nil => simp at h
  | cons b l ih =>
      have hk := kept_succ (p := p) n
      have key : ∀ {w}, (compact p (n + 1) l)[w]? = some a →
          ∃ k, p (n + k) = false ∧ (b :: l)[k]? = some a ∧
            kept p (n + k) = kept p (n + 1) + w := by
        intro w h
        obtain ⟨k, hp, hl, hw⟩ := ih h
        have hn : n + (k + 1) = n + 1 + k := by omega
        exact ⟨k + 1, by rwa [hn], by simpa using hl, by rw [hn, hw]⟩
      rw [compact] at h
      split at h
      next hp =>
        obtain ⟨k, hpk, hl, hw⟩ := key h
        rw [if_pos hp] at hk
        exact ⟨k, hpk, hl, by omega⟩
      next hp =>
        rw [if_neg hp] at hk
        cases w with
        | zero => exact ⟨0, by simpa using hp, by simpa using h, rfl⟩
        | succ w =>
            obtain ⟨k, hpk, hl, hw⟩ := key (by simpa using h)
            exact ⟨k, hpk, hl, by omega⟩

end Compact
