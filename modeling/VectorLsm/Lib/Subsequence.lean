import Mathlib.Data.List.Nodup
import Mathlib.Data.List.TakeDrop
import Mathlib.Tactic.TypeStar

/-! # Greedy subsequence matching

One pass over a text that advances in a pattern whenever the next symbol is met. `cursor u t`
is how far the pass over `t` gets in `u`: the length of the longest prefix of `u` that occurs
in order in `t`.
-/

namespace Subsequence

variable {α : Type*} [DecidableEq α]

def cursor : List α → List α → ℕ
  | [], _ => 0
  | _ :: _, [] => 0
  | a :: u, b :: t => if b = a then cursor u t + 1 else cursor (a :: u) t

@[simp] theorem cursor_nil_left (t : List α) : cursor [] t = 0 := by cases t <;> rfl

@[simp] theorem cursor_nil_right (u : List α) : cursor u [] = 0 := by cases u <;> rfl

theorem cursor_cons (a : α) (u : List α) (b : α) (t : List α) :
    cursor (a :: u) (b :: t) = if b = a then cursor u t + 1 else cursor (a :: u) t := rfl

theorem cursor_le_length (u t : List α) : cursor u t ≤ u.length := by
  induction t generalizing u with
  | nil => simp
  | cons b t ih =>
      cases u with
      | nil => simp
      | cons a u =>
          rw [cursor_cons]
          split
          · exact Nat.succ_le_succ (ih u)
          · exact ih _

/-- What the pass has matched occurs in order. -/
theorem take_cursor_sublist (u t : List α) : (u.take (cursor u t)).Sublist t := by
  induction t generalizing u with
  | nil => simp
  | cons b t ih =>
      cases u with
      | nil => simp
      | cons a u =>
          rw [cursor_cons]
          split
          case isTrue h =>
            rw [List.take_succ_cons, h]
            exact (ih u).cons_cons _
          case isFalse h => exact (ih _).cons _

/-- No longer prefix occurs in order: the greedy pass is best. -/
theorem le_cursor_of_sublist {u t : List α} {j : ℕ} (hj : j ≤ u.length)
    (h : (u.take j).Sublist t) : j ≤ cursor u t := by
  induction t generalizing u j with
  | nil =>
      have hz : (u.take j).length = 0 := by rw [List.sublist_nil.mp h]; rfl
      rw [List.length_take_of_le hj] at hz
      exact hz ▸ Nat.zero_le _
  | cons b t ih =>
      cases u with
      | nil => exact hj
      | cons a u =>
          cases j with
          | zero => exact Nat.zero_le _
          | succ j =>
              rw [List.take_succ_cons] at h
              rw [cursor_cons]
              split
              case isTrue hba =>
                subst hba
                exact Nat.succ_le_succ
                  (ih (Nat.le_of_succ_le_succ hj) (List.cons_sublist_cons.mp h))
              case isFalse hba =>
                refine ih hj ?_
                rw [List.take_succ_cons]
                cases h with
                | cons _ h => exact h
                | cons_cons _ h => exact absurd rfl hba

theorem cursor_append (u t t' : List α) :
    cursor u (t ++ t') = cursor u t + cursor (u.drop (cursor u t)) t' := by
  induction t generalizing u with
  | nil => simp
  | cons b t ih =>
      cases u with
      | nil => simp
      | cons a u =>
          simp only [List.cons_append, cursor_cons]
          split
          · rw [ih, List.drop_succ_cons]
            omega
          · exact ih _

/-- The symbol after `t` is matched when it is the next of the pattern. -/
def Next (u t : List α) (b : α) : Prop := u[cursor u t]? = some b

instance (u t : List α) (b : α) : Decidable (Next u t b) := inferInstanceAs (Decidable (_ = _))

theorem cursor_snoc (u t : List α) (b : α) :
    cursor u (t ++ [b]) = cursor u t + if Next u t b then 1 else 0 := by
  rw [cursor_append]
  congr 1
  cases hd : u.drop (cursor u t) with
  | nil =>
      have hn : ¬ Next u t b := by
        simp [Next, List.getElem?_eq_none (List.drop_eq_nil_iff.mp hd)]
      rw [cursor_nil_left, if_neg hn]
  | cons a u' =>
      have hn : Next u t b ↔ b = a := by
        rw [Next, ← List.head?_drop, hd, List.head?_cons, Option.some_inj, eq_comm]
      simp only [cursor_cons, cursor_nil_right, hn, Nat.zero_add]

section Placed

variable {u t : List α} {a b : α} {j p : ℕ}

/-- The shortest part of the text with the first `j + 1` symbols of the pattern in order ends
at `p`. -/
def Placed (u t : List α) (j p : ℕ) : Prop :=
  j < u.length ∧ p < t.length ∧ (u.take (j + 1)).Sublist (t.take (p + 1)) ∧
    ¬ (u.take (j + 1)).Sublist (t.take p)

instance (u t : List α) (j p : ℕ) : Decidable (Placed u t j p) :=
  inferInstanceAs (Decidable (_ ∧ _))

omit [DecidableEq α] in
theorem not_placed_nil_left : ¬ Placed [] t j p := fun h => absurd h.1 (Nat.not_lt_zero j)

omit [DecidableEq α] in
theorem not_placed_nil_right : ¬ Placed u [] j p := fun h => absurd h.2.1 (Nat.not_lt_zero p)

omit [DecidableEq α] in
/-- Where the next symbol is met, the pass goes on with both. -/
theorem placed_cons_self : Placed (a :: u) (a :: t) j p ↔
    (j = 0 ∧ p = 0) ∨ ∃ j' p', j = j' + 1 ∧ p = p' + 1 ∧ Placed u t j' p' := by
  cases p with
  | zero =>
      cases j with
      | zero => simp [Placed]
      | succ j =>
          refine iff_of_false ?_ (by simp)
          rintro ⟨hj, -, hs, -⟩
          rw [List.length_cons] at hj
          have := hs.length_le
          simp only [List.length_take, List.length_cons] at this
          omega
  | succ p =>
      cases j with
      | zero => simp [Placed, List.take_succ_cons]
      | succ j => simp [Placed, List.take_succ_cons]

omit [DecidableEq α] in
/-- Where another symbol is met, it goes on in the text. -/
theorem placed_cons_of_ne (h : b ≠ a) : Placed (a :: u) (b :: t) j p ↔
    ∃ p', p = p' + 1 ∧ Placed (a :: u) t j p' := by
  have hskip : ∀ l, (a :: u.take j).Sublist (b :: l) ↔ (a :: u.take j).Sublist l := by
    intro l
    refine ⟨fun hs => ?_, fun hs => hs.cons b⟩
    cases hs with
    | cons _ hs => exact hs
    | cons_cons _ hs => exact absurd rfl h
  cases p with
  | zero =>
      refine iff_of_false ?_ (by simp)
      rintro ⟨-, -, hs, -⟩
      rw [List.take_succ_cons, List.take_succ_cons, List.take_zero, hskip] at hs
      exact List.cons_ne_nil _ _ (List.sublist_nil.mp hs)
  | succ p =>
      have hone : (∃ p', p + 1 = p' + 1 ∧ Placed (a :: u) t j p') ↔ Placed (a :: u) t j p := by
        simp
      rw [hone, Placed, Placed]
      simp only [List.take_succ_cons, hskip, List.length_cons, Nat.add_lt_add_iff_right]

omit [DecidableEq α] in
theorem Placed.unique {q : ℕ} (hp : Placed u t j p) (hq : Placed u t j q) : p = q := by
  have hle : ∀ {p q}, Placed u t j p → Placed u t j q → q ≤ p := by
    intro p q hp hq
    by_contra hlt
    exact hq.2.2.2 (hp.2.2.1.trans (List.take_sublist_take_left (by omega)))
  exact Nat.le_antisymm (hle hq hp) (hle hp hq)

omit [DecidableEq α] in
/-- A symbol has its place when the text has the pattern up to it, and the place is no later. -/
theorem exists_placed {n : ℕ} (hj : j < u.length) (hn : n ≤ t.length)
    (h : (u.take (j + 1)).Sublist (t.take n)) : ∃ p < n, Placed u t j p := by
  induction n with
  | zero =>
      have := h.length_le
      rw [List.length_take_of_le (by omega), List.take_zero, List.length_nil] at this
      omega
  | succ n ih =>
      by_cases hs : (u.take (j + 1)).Sublist (t.take n)
      · obtain ⟨p, hp, hpl⟩ := ih (Nat.le_of_succ_le hn) hs
        exact ⟨p, Nat.lt_succ_of_lt hp, hpl⟩
      · exact ⟨n, Nat.lt_succ_self n, hj, Nat.lt_of_succ_le hn, h, hs⟩

end Placed

omit [DecidableEq α] in
/-- Sublists of a list without repetitions are ordered by inclusion. -/
theorem sublist_of_subset {l s t : List α} (hl : l.Nodup) (hs : s.Sublist l) (ht : t.Sublist l)
    (hst : s ⊆ t) : s.Sublist t := by
  induction l generalizing s t with
  | nil => rw [List.sublist_nil.mp hs]; exact List.nil_sublist _
  | cons a l ih =>
      obtain ⟨ha, hl⟩ := List.nodup_cons.mp hl
      cases hs with
      | cons _ hs =>
          have has : a ∉ s := fun h => ha (hs.subset h)
          cases ht with
          | cons _ ht => exact ih hl hs ht hst
          | cons_cons _ ht =>
              refine (ih hl hs ht fun x hx => ?_).cons _
              exact (List.mem_cons.mp (hst hx)).resolve_left fun h => has (h ▸ hx)
      | cons_cons _ hs =>
          cases ht with
          | cons _ ht => exact absurd (ht.subset (hst List.mem_cons_self)) ha
          | cons_cons _ ht =>
              refine (ih hl hs ht fun x hx => ?_).cons_cons _
              refine (List.mem_cons.mp (hst (List.mem_cons_of_mem _ hx))).resolve_left ?_
              rintro rfl
              exact ha (hs.subset hx)

/-- When pattern and text are taken from one list without repetitions, a symbol of the text is
matched if it is in the pattern and the text has all that the pattern has before it. -/
theorem next_iff_of_nodup {l u t : List α} {b : α} {j : ℕ} (hl : l.Nodup) (hu : u.Sublist l)
    (ht : t.Sublist l) (hj : t[j]? = some b) :
    Next u (t.take j) b ↔ ∃ i, u[i]? = some b ∧ u.take i ⊆ t := by
  obtain ⟨hjl, rfl⟩ := List.getElem?_eq_some_iff.mp hj
  constructor
  · intro h
    exact ⟨_, h, fun x hx => List.mem_of_mem_take ((take_cursor_sublist _ _).subset hx)⟩
  · rintro ⟨i, hi, hsub⟩
    obtain ⟨hil, hib⟩ := List.getElem?_eq_some_iff.mp hi
    have htn : t.Nodup := hl.sublist ht
    have hdrop : (t[j] :: t.drop (j + 1)).Sublist t := by
      rw [← List.drop_eq_getElem_cons hjl]
      exact List.drop_sublist _ _
    -- What the pattern has before the symbol stands before it in the text.
    have hbefore : u.take i ⊆ t.take j := by
      intro x hx
      have hxt := hsub hx
      rw [← List.take_append_drop j t, List.drop_eq_getElem_cons hjl, List.mem_append,
        List.mem_cons] at hxt
      have hxb : [x, t[j]].Sublist l := by
        have h : (u.take i ++ [t[j]]).Sublist u := by
          rw [← hib, ← List.take_succ_eq_append_getElem hil]
          exact List.take_sublist _ _
        exact ((List.singleton_sublist.mpr hx).append (List.Sublist.refl _)).trans (h.trans hu)
      have hne : x ≠ t[j] := by
        rintro rfl
        simpa using hl.sublist hxb
      rcases hxt with h | h | h
      · exact h
      · exact absurd h hne
      · have hbx : [t[j], x].Sublist l :=
          ((List.singleton_sublist.mpr h).cons_cons t[j]).trans (hdrop.trans ht)
        have heq : [x, t[j]] = [t[j], x] :=
          (sublist_of_subset hl hxb hbx (by simp)).eq_of_length rfl
        exact absurd (List.cons.inj heq).1 hne
    have hge : i ≤ cursor u (t.take j) :=
      le_cursor_of_sublist (Nat.le_of_lt hil)
        (sublist_of_subset hl ((List.take_sublist _ _).trans hu)
          ((List.take_sublist _ _).trans ht) hbefore)
    have hle : cursor u (t.take j) ≤ i := by
      by_contra hlt
      have hmem : t[j] ∈ t.take j := by
        refine (take_cursor_sublist u (t.take j)).subset ?_
        rw [← hib]
        exact List.mem_take_iff_getElem.mpr ⟨i, by omega, rfl⟩
      obtain ⟨k, hk, hkj⟩ := List.mem_take_iff_getElem.mp hmem
      have := htn.getElem_inj_iff.mp hkj
      omega
    rw [Next, Nat.le_antisymm hle hge, hi]

end Subsequence
