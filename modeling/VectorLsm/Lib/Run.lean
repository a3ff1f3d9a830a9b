import Mathlib.Data.List.DropRight
import Mathlib.Data.List.Infix
import Mathlib.Tactic.TypeStar

/-! # Runs of a list

A run is a contiguous part of a list. `splice` puts one element in its place; the runs that
share no element with it are still there.
-/

namespace Run

variable {α : Type*}

/-- What precedes the elements where `keep` fails, the new element, what follows them. -/
def splice (keep : α → Bool) (new : α) (l : List α) : List α :=
  l.takeWhile keep ++ new :: l.rtakeWhile keep

variable {keep : α → Bool} {new x : α} {a c l ps qs : List α}

theorem rtakeWhile_append (hq : ∀ y ∈ qs.getLast?, keep y = false) (hne : qs ≠ [])
    (hc : ∀ y ∈ c, keep y = true) : (l ++ qs ++ c).rtakeWhile keep = c := by
  obtain ⟨qs', y, rfl⟩ := List.eq_nil_or_concat qs |>.resolve_left hne
  rw [List.concat_eq_append] at hq ⊢
  have hy : keep y = false := hq y (by simp)
  unfold List.rtakeWhile
  simp only [List.reverse_append, List.reverse_cons, List.reverse_nil, List.nil_append,
    List.cons_append]
  rw [List.takeWhile_append_of_pos (by simpa using hc), List.takeWhile_cons_of_neg (by simp [hy]),
    List.append_nil, List.reverse_reverse]

theorem splice_append (hne : qs ≠ []) (hq : ∀ y ∈ qs, keep y = false)
    (ha : ∀ y ∈ a, keep y = true) (hc : ∀ y ∈ c, keep y = true) :
    splice keep new (a ++ qs ++ c) = a ++ new :: c := by
  unfold splice
  rw [rtakeWhile_append (fun y hy => hq y (List.mem_of_getLast? hy)) hne hc, List.append_assoc,
    List.takeWhile_append_of_pos ha]
  cases qs with
  | nil => exact absurd rfl hne
  | cons y qs =>
      rw [List.cons_append, List.takeWhile_cons_of_neg (by simp [hq y List.mem_cons_self]),
        List.append_nil]

/-- A run that shares nothing with another one is on one of its sides. -/
theorem infix_or_infix (h : ps <:+: a ++ qs ++ c) (hd : ∀ y ∈ ps, y ∉ qs) (hne : qs ≠ []) :
    ps <:+: a ∨ ps <:+: c := by
  rcases eq_or_ne ps [] with rfl | hps
  · exact Or.inl (List.nil_infix)
  obtain ⟨p, ps', rfl⟩ := List.exists_cons_of_ne_nil hps
  obtain ⟨q, qs', rfl⟩ := List.exists_cons_of_ne_nil hne
  obtain ⟨a', c', h⟩ := h
  rw [List.append_assoc, List.append_assoc] at h
  rcases List.append_eq_append_iff.mp h with ⟨d, rfl, hd'⟩ | ⟨d, rfl, hd'⟩
  · -- The run starts in `a`.
    rcases List.append_eq_append_iff.mp hd' with ⟨e, rfl, -⟩ | ⟨e, he, hc⟩
    · exact Or.inl ⟨a', e, by rw [List.append_assoc]⟩
    · cases e with
      | nil =>
          rw [List.append_nil] at he
          exact Or.inl ⟨a', [], by rw [← he, List.append_nil]⟩
      | cons z e =>
          obtain rfl : q = z := by simpa using (List.cons.inj hc).1
          exact absurd List.mem_cons_self (hd q (he ▸ List.mem_append_right d List.mem_cons_self))
  · rcases List.append_eq_append_iff.mp hd' with ⟨e, rfl, hc⟩ | ⟨e, he, hc⟩
    · exact Or.inr ⟨e, c', by rw [hc, List.append_assoc]⟩
    · cases e with
      | nil => exact Or.inr ⟨[], c', by simpa using hc⟩
      | cons z e =>
          obtain rfl : p = z := (List.cons.inj hc).1
          exact absurd (he ▸ List.mem_append_right d List.mem_cons_self)
            (hd p List.mem_cons_self)

/-- Such a run survives the splice. -/
theorem infix_splice (h : ps <:+: a ++ qs ++ c) (hd : ∀ y ∈ ps, y ∉ qs) (hne : qs ≠ []) :
    ps <:+: a ++ new :: c := by
  rcases infix_or_infix h hd hne with ⟨s, t, rfl⟩ | ⟨s, t, rfl⟩
  · exact ⟨s, t ++ new :: c, by simp⟩
  · exact ⟨a ++ new :: s, t, by simp⟩

end Run
