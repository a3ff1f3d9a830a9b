import VectorLsm.Search.Matched

/-! # Every result is for its own search

The step and run lemmas of the result slots, and the search whose backend reads the answer to
the query it gave up before.
-/

namespace VectorLsm.Search

open Transition

variable {D V I : Type} {cfg : Config D V I} {s s' : State D V I} {a : Action V I}

namespace Inv

theorem step (h : Inv cfg s) (ha : Alone s a) (hs : Search.step cfg s a = some s') :
    Inv cfg s' := by
  cases a with
  | send p q =>
      simp only [Search.step] at hs
      split at hs
      next =>
        split at hs
        next => exact Option.some.inj hs ▸ h
        next =>
          obtain rfl := Option.some.inj hs
          exact h.send (not_outstanding ha.1 fun n c hc => ha.2 n (h.ctxLt n c hc) c hc)
      next => cases hs
  | submit =>
      simp only [Search.step] at hs
      split at hs
      next => exact Option.some.inj hs ▸ h
      next =>
        obtain rfl := Option.some.inj hs
        apply h.setRing
        · simp
        · simp [TaskSlot.req]
  | abort p =>
      obtain rfl := Option.some.inj hs
      apply h.setBackend <;> rintro n q ⟨⟩
  | check p =>
      simp only [Search.step] at hs
      split at hs
      next n q hb =>
        split at hs
        next hst =>
          obtain rfl := Option.some.inj hs
          apply h.setBackend
          · rintro n q ⟨⟩
          · rintro m q' ⟨⟩
            cases h.waiting p n q hb with
            | running _ hz => simp [hz] at hst
            | done ho hslot => exact ⟨ho, hslot⟩
        next => exact Option.some.inj hs ▸ h
      next => cases hs
  | consume p =>
      simp only [Search.step] at hs
      split at hs
      next n q hb =>
        obtain rfl := Option.some.inj hs
        obtain ⟨-, ⟨gs, hpairs⟩, hcount⟩ := h.reading p n q hb
        have h' := h.setBackend (p := p) (b := .idle) (by rintro n q ⟨⟩) (by rintro n q ⟨⟩)
        have hnew : Matches cfg ⟨n, q, (s.results p).resultCount, (s.results p).pairs⟩ :=
          ⟨by rw [hcount], by rw [hpairs], by rw [hcount], gs, by rw [hpairs]⟩
        constructor
        case consumed =>
          intro c hc
          rcases List.mem_cons.mp hc with rfl | hc
          · exact hnew
          · exact h.consumed c hc
        case ringLt => exact h'.ringLt
        case ctxLt => exact h'.ctxLt
        case ringOnce => exact h'.ringOnce
        case apart => exact h'.apart
        case alone => exact h'.alone
        case sound => exact h'.sound
        case waiting => exact fun p n q hb => (h'.waiting p n q hb).congr rfl rfl rfl
        case reading => exact h'.reading
      next => cases hs
  | dispatch =>
      simp only [Search.step] at hs
      split at hs
      next => cases hs
      next n p q ring hr =>
        obtain rfl := Option.some.inj hs
        exact h.dispatch hr _
      next ring hr =>
        obtain rfl := Option.some.inj hs
        apply h.setRing
        · simp [hr]
        · rw [hr]
          rfl
  | finish n i =>
      simp only [Search.step] at hs
      split at hs
      next => cases hs
      next c hc =>
        split at hs
        next cell hi =>
          split at hs
          next hcell =>
            obtain rfl := Option.some.inj hs
            have hnext := (h.sound n c hc).finish hi hcell
            have h' := h.setContext hc (show (c.finish cfg i cell).procno = c.procno from rfl)
              (show (c.finish cfg i cell).query = c.query from rfl) rfl hnext
            simpa [State.setResult] using h'
          next => cases hs
        next => cases hs
  | writeCount n =>
      simp only [Search.step] at hs
      split at hs
      next c hc =>
        split at hs
        next hph =>
          obtain rfl := Option.some.inj hs
          have hsound := h.sound n c hc
          have hnext : ({ c with phase := .counted } : Context D V I).Sound cfg n
              { s.results c.procno with
                resultCount := ⟨(c.finalPairs cfg).length, some n⟩ } :=
            ⟨hsound.searched, hsound.remaining, fun _ => hsound.merged (by simp [hph]),
              fun _ => rfl, by simp⟩
          exact h.setContext hc rfl rfl rfl hnext
        next => cases hs
      next => cases hs
  | writePairs n =>
      simp only [Search.step] at hs
      split at hs
      next c hc =>
        split at hs
        next hph =>
          obtain rfl := Option.some.inj hs
          have hsound := h.sound n c hc
          have hnext : ({ c with phase := .written } : Context D V I).Sound cfg n
              { s.results c.procno with pairs := ⟨c.finalPairs cfg, some n⟩ } :=
            ⟨hsound.searched, hsound.remaining, fun _ => hsound.merged (by simp [hph]),
              fun _ => hsound.counted (Or.inl hph), fun _ => rfl⟩
          exact h.setContext hc rfl rfl rfl hnext
        next => cases hs
      next => cases hs
  | publish n =>
      simp only [Search.step] at hs
      split at hs
      next c hc =>
        split at hs
        next hph =>
          obtain rfl := Option.some.inj hs
          exact h.publish hc hph
        next => cases hs
      next => cases hs
  | setPool relid gs =>
      obtain rfl := Option.some.inj hs
      constructor
      case waiting => exact fun p n q hb => (h.waiting p n q hb).congr rfl rfl rfl
      case ringLt => exact h.ringLt
      case ctxLt => exact h.ctxLt
      case ringOnce => exact h.ringOnce
      case apart => exact h.apart
      case alone => exact h.alone
      case sound => exact h.sound
      case reading => exact h.reading
      case consumed => exact h.consumed

end Inv

/-- Every result a backend uses was computed for its own search, in every run in which no process
sends a search while an earlier one of its own is under way. -/
theorem results_match (h : Reachable Init (step cfg) Alone s) :
    ∀ c ∈ s.consumed, Matches cfg c := by
  have hinv : Inv cfg s := h.invariant (fun _ => Inv.init) fun _ _ _ _ hi ha hs => hi.step ha hs
  exact hinv.consumed

section Demo

/-- A library that finds the query itself, and room for two tasks. -/
def demoConfig : Config ℕ ℤ Unit where
  ringSize := 2
  le := fun a b => decide (a ≤ b)
  vectorIndexSearch := fun _ v _ _ => [⟨0, v⟩]

/-- An index with one segment. -/
def demoStart : State ℕ ℤ Unit where
  ring := []
  contexts := fun _ => none
  results := fun _ => ⟨0, ⟨0, none⟩, ⟨[], none⟩⟩
  backends := fun _ => .idle
  pools := fun _ => [⟨3, 3, ()⟩]
  next := 0
  consumed := []

def demoQuery (v : ℤ) : Query ℤ := ⟨1, v, 5, 0, []⟩

/-- The worker and its threads handle search `n`. -/
def demoSearch (n : ℕ) : List (Action ℤ Unit) :=
  [.finish n 0, .writeCount n, .writePairs n, .publish n]

/-- Process 4 gives up its first search, but its second one is sent after the threads are done
with the first. -/
def demoPatient : List (Action ℤ Unit) :=
  [.send 4 (demoQuery 7), .dispatch, .abort 4] ++ demoSearch 0 ++
    [.send 4 (demoQuery 8), .dispatch] ++ demoSearch 1 ++ [.check 4, .consume 4]

/-- It sends the second one while the threads are at the first. -/
def demoHasty : List (Action ℤ Unit) :=
  [.send 4 (demoQuery 7), .dispatch, .abort 4, .send 4 (demoQuery 8)] ++ demoSearch 0 ++
    [.check 4, .consume 4]

theorem init_demoStart : Init demoStart :=
  ⟨rfl, fun _ => rfl, fun _ => rfl, fun _ => rfl, rfl⟩

/-- A search that follows an aborted one in time gets its own result. -/
theorem results_match_demoPatient :
    ∃ s, exec (step demoConfig) demoStart demoPatient = some s ∧
      s.consumed = [⟨1, demoQuery 8, ⟨1, some 1⟩, ⟨[⟨0, 8⟩], some 1⟩⟩] ∧
      ∀ c ∈ s.consumed, Matches demoConfig c := by
  have hrun : (exec (step demoConfig) demoStart demoPatient).map State.consumed =
      some [⟨1, demoQuery 8, ⟨1, some 1⟩, ⟨[⟨0, 8⟩], some 1⟩⟩] := by decide +kernel
  obtain ⟨s, hs, hc⟩ := Option.map_eq_some_iff.mp hrun
  have hmeets : Meets Alone (step demoConfig) demoStart demoPatient := by decide +kernel
  exact ⟨s, hs, hc, results_match ((Reachable.start init_demoStart).of_exec hmeets hs)⟩

/-- A search sent while the threads still work for an aborted one may get the result of that. -/
theorem not_results_match :
    ¬ ∀ (cfg : Config ℕ ℤ Unit) s, Reachable Init (step cfg) anyStep s →
      ∀ c ∈ s.consumed, Matches cfg c := by
  intro h
  have hrun : (exec (step demoConfig) demoStart demoHasty).map State.consumed =
      some [⟨1, demoQuery 8, ⟨1, some 0⟩, ⟨[⟨0, 7⟩], some 0⟩⟩] := by decide +kernel
  obtain ⟨s, hs, hc⟩ := Option.map_eq_some_iff.mp hrun
  have hmatch := h demoConfig s ((Reachable.start init_demoStart).of_exec (meets_anyStep _) hs)
  have hbad := (hmatch ⟨1, demoQuery 8, ⟨1, some 0⟩, ⟨[⟨0, 7⟩], some 0⟩⟩ (by simp [hc])).countReq
  simp at hbad

end Demo

end VectorLsm.Search
