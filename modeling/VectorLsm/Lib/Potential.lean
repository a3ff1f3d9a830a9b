import Mathlib.Algebra.Order.BigOperators.Group.Finset
import VectorLsm.Lib.Transition

/-! # Amortised cost

Steps that a potential pays for: a run costs no more than the potential it starts with. A
potential that sums over threads changes by the share of the thread that moves.
-/

namespace Transition

variable {σ α : Type*} {step : σ → α → Option σ} {ok : σ → α → Prop} {s s' : σ} {a : α}

/-- The cost of a run. -/
def spent (cost : σ → α → ℕ) (step : σ → α → Option σ) : σ → List α → ℕ
  | _, [] => 0
  | s, a :: as => cost s a +
      match step s a with
      | none => 0
      | some s' => spent cost step s' as

@[simp] theorem spent_nil (cost : σ → α → ℕ) : spent cost step s [] = 0 := rfl

theorem spent_cons (cost : σ → α → ℕ) (hs : step s a = some s') (as : List α) :
    spent cost step s (a :: as) = cost s a + spent cost step s' as := by
  rw [spent, hs]

/-- The potential method: an invariant under which each admitted step costs at most what it
takes off the potential. -/
theorem spent_add_le {P : σ → Prop} (cost : σ → α → ℕ) (potential : σ → ℕ)
    (hstep : ∀ s a s', P s → ok s a → step s a = some s' →
      P s' ∧ cost s a + potential s' ≤ potential s)
    {as : List α} (h : P s) (hm : Meets ok step s as) (he : exec step s as = some s') :
    P s' ∧ spent cost step s as + potential s' ≤ potential s := by
  induction as generalizing s with
  | nil =>
      obtain rfl : s = s' := Option.some.inj he
      exact ⟨h, by simp⟩
  | cons a as ih =>
      obtain ⟨u, hu, he⟩ := Option.bind_eq_some_iff.mp he
      obtain ⟨ha, hm⟩ := hm
      rw [hu] at hm
      obtain ⟨hP, hcost⟩ := hstep s a u h ha hu
      obtain ⟨hP', hrest⟩ := ih hP hm he
      rw [spent_cons cost hu]
      exact ⟨hP', by omega⟩

section Threads

variable {β : Type*} {n t : ℕ}

/-- One of the threads moves. -/
theorem sum_update_add (ht : t < n) (f : β → ℕ) (pc : ℕ → β) (b : β) :
    (∑ u ∈ Finset.range n, f (Function.update pc t b u)) + f (pc t) =
      (∑ u ∈ Finset.range n, f (pc u)) + f b := by
  have hmem := Finset.mem_range.mpr ht
  rw [← Finset.add_sum_erase _ _ hmem, ← Finset.add_sum_erase _ (fun u => f (pc u)) hmem]
  have hrest : ∑ u ∈ (Finset.range n).erase t, f (Function.update pc t b u) =
      ∑ u ∈ (Finset.range n).erase t, f (pc u) := by
    refine Finset.sum_congr rfl fun u hu => ?_
    rw [Function.update_of_ne (Finset.ne_of_mem_erase hu)]
  rw [hrest, Function.update_self]
  omega

/-- A thread outside the range moves. -/
theorem sum_update_of_le (ht : n ≤ t) (f : β → ℕ) (pc : ℕ → β) (b : β) :
    ∑ u ∈ Finset.range n, f (Function.update pc t b u) = ∑ u ∈ Finset.range n, f (pc u) := by
  refine Finset.sum_congr rfl fun u hu => ?_
  have := Finset.mem_range.mp hu
  rw [Function.update_of_ne (by omega)]

end Threads

end Transition
