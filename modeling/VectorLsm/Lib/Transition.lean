import Mathlib.Data.Option.Basic
import Mathlib.Tactic.TypeStar

/-! # Guarded transition systems

A system is an executable step `σ → α → Option σ`, undefined where the action is not
enabled. Runs are lists of actions. Reachability carries a condition on the steps a run may
take, so that a safety result can name the runs it is about.
-/

namespace Transition

variable {σ τ α β : Type*}

/-- The state after a list of actions, if each of them is enabled in turn. -/
def exec (step : σ → α → Option σ) : σ → List α → Option σ
  | s, [] => some s
  | s, a :: as => (step s a).bind fun s' => exec step s' as

/-- Every step of the run from `s` meets `ok`. -/
def Meets (ok : σ → α → Prop) (step : σ → α → Option σ) : σ → List α → Prop
  | _, [] => True
  | s, a :: as => ok s a ∧
      match step s a with
      | none => True
      | some s' => Meets ok step s' as

instance Meets.decidable (ok : σ → α → Prop) [∀ s a, Decidable (ok s a)]
    (step : σ → α → Option σ) : ∀ s as, Decidable (Meets ok step s as)
  | _, [] => .isTrue trivial
  | s, a :: as => by
      unfold Meets
      cases step s a with
      | none => infer_instance
      | some s' =>
          have := Meets.decidable ok step s' as
          infer_instance

/-- The states of the runs from `init` whose steps all meet `ok`. -/
inductive Reachable (init : σ → Prop) (step : σ → α → Option σ) (ok : σ → α → Prop) : σ → Prop
  | start {s : σ} (h : init s) : Reachable init step ok s
  | next {s s' : σ} {a : α} (h : Reachable init step ok s) (hok : ok s a)
      (hs : step s a = some s') : Reachable init step ok s'

/-- The condition every step meets. -/
def anyStep : σ → α → Prop := fun _ _ => True

section Runs

variable {init : σ → Prop} {step : σ → α → Option σ} {ok ok' : σ → α → Prop} {s s' : σ}

@[simp] theorem exec_nil : exec step s [] = some s := rfl

@[simp] theorem exec_cons (a : α) (as : List α) :
    exec step s (a :: as) = (step s a).bind fun s' => exec step s' as := rfl

theorem exec_append (as bs : List α) :
    exec step s (as ++ bs) = (exec step s as).bind fun s' => exec step s' bs := by
  induction as generalizing s with
  | nil => rfl
  | cons a as ih =>
      simp only [List.cons_append, exec_cons, Option.bind_assoc]
      exact congrArg _ (funext fun _ => ih)

theorem meets_anyStep (as : List α) : Meets anyStep step s as := by
  induction as generalizing s with
  | nil => trivial
  | cons a as ih =>
      refine ⟨trivial, ?_⟩
      cases step s a with
      | none => trivial
      | some s' => exact ih

theorem Meets.mono (hok : ∀ s a, ok s a → ok' s a) {as : List α} (h : Meets ok step s as) :
    Meets ok' step s as := by
  induction as generalizing s with
  | nil => trivial
  | cons a as ih =>
      obtain ⟨ha, has⟩ := h
      refine ⟨hok s a ha, ?_⟩
      cases hs : step s a with
      | none => trivial
      | some s' =>
          rw [hs] at has
          exact ih has

theorem Reachable.mono (hok : ∀ s a, ok s a → ok' s a) (h : Reachable init step ok s) :
    Reachable init step ok' s := by
  induction h with
  | start h => exact .start h
  | next _ ha hs ih => exact .next ih (hok _ _ ha) hs

/-- A run from a reachable state ends in a reachable state. -/
theorem Reachable.of_exec {as : List α} (h : Reachable init step ok s)
    (hm : Meets ok step s as) (he : exec step s as = some s') : Reachable init step ok s' := by
  induction as generalizing s with
  | nil =>
      obtain rfl : s = s' := Option.some.inj he
      exact h
  | cons a as ih =>
      obtain ⟨u, hu, he'⟩ := Option.bind_eq_some_iff.mp he
      obtain ⟨ha, hm⟩ := hm
      rw [hu] at hm
      exact ih (h.next ha hu) hm he'

/-- The induction rule: what holds at the start and is kept by each admitted step from a
reachable state holds in every state reached. -/
theorem Reachable.invariant {P : σ → Prop} (hinit : ∀ s, init s → P s)
    (hstep : ∀ s a s', Reachable init step ok s → P s → ok s a → step s a = some s' → P s')
    (h : Reachable init step ok s) : P s := by
  induction h with
  | start h => exact hinit _ h
  | next h ha hs ih => exact hstep _ _ _ h ih ha hs

end Runs

section Simulation

variable {init : σ → Prop} {step : σ → α → Option σ} {ok : σ → α → Prop}
  {init' : τ → Prop} {step' : τ → β → Option τ} {ok' : τ → β → Prop} {s : σ}

/-- The simulation rule: `f` carries reachable states to reachable states when each admitted
step is, seen through `f`, a run of the other system. -/
theorem Reachable.map (f : σ → τ) (hinit : ∀ s, init s → init' (f s))
    (hstep : ∀ s a s', Reachable init step ok s → ok s a → step s a = some s' →
      ∃ bs, Meets ok' step' (f s) bs ∧ exec step' (f s) bs = some (f s'))
    (h : Reachable init step ok s) : Reachable init' step' ok' (f s) := by
  induction h with
  | start h => exact .start (hinit _ h)
  | next h ha hs ih =>
      obtain ⟨bs, hm, he⟩ := hstep _ _ _ h ha hs
      exact ih.of_exec hm he

end Simulation

end Transition
