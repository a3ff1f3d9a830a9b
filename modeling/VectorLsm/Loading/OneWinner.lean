import VectorLsm.Loading.Machine

/-! # One winner

At most one attempt at a time has the index in `LOADING_INDEX`. It publishes what it has loaded
or gives the slot back, as long as no load leaves a segment out and no winner is terminated at
the barrier.
-/

namespace VectorLsm.Loading

open Transition IndexBuffer

variable {timeoutMs : ℕ} {s s' : State} {p : ℕ}

/-- What holds of the slot in every state: there is one attempt at a time; an attempt that is
over has published a completed load, or has left `WRITABLE`; only a reader of a `QUERYABLE` slot
has returned true; and the slot has moved along its life only. -/
structure OneWinner (s : State) : Prop where
  winner : ∀ p q, (s.pc p).owns → (s.pc q).owns → p = q
  loading : s.valid = .loadingIndex ↔ ∃ p, (s.pc p).owns
  attempts : ∀ a ∈ s.attempts,
    a.load = some 0 ∧ a.left = .queryable ∨ a.load ≠ some 0 ∧ a.left = .writable
  published : s.valid = .queryable → ∃ a ∈ s.attempts, a.load = some 0
  returned : ∀ p, s.pc p = .returned true → s.valid = .queryable
  moves : ∀ m ∈ s.moves, Neighbours m.1 m.2

/-- The condition on a step: no load leaves a segment out, and no reader that has won the
compare-and-swap is terminated at the barrier. -/
def Sane (s : State) : Action → Prop
  | .load _ leftOut => leftOut = 0
  | .run p => ∀ waited, s.pc p = .slept waited → s.interrupt p ≠ some .die
  | _ => True

/-- What the load of a process has come to, by the place of the process. -/
def Tracks (s : State) (p : ℕ) : Prop :=
  match s.pc p with
  | .won | .barrier _ | .slept _ | .submit | .revert | .restore =>
      s.task p = .none ∧ s.loaded p = none
  | .loading =>
      (s.task p = .executed → s.loaded p = some 0) ∧
        (s.maintDone p = true → s.task p = .none ∧ s.loaded p = some 0)
  | .publish => s.task p = .none ∧ s.loaded p = some 0
  | _ => s.task p = .none

structure Inv (s : State) : Prop extends OneWinner s where
  tracks : ∀ p, Tracks s p

/-- A step of `p` leaves what the other processes have loaded. -/
theorem Tracks.congr (h : Tracks s p) (hpc : s'.pc p = s.pc p) (ht : s'.task p = s.task p)
    (hl : s'.loaded p = s.loaded p) (hd : s'.maintDone p = s.maintDone p) : Tracks s' p := by
  unfold Tracks at h ⊢
  rw [hpc, ht, hl, hd]
  exact h

namespace Inv

theorem init (h : Init s) : Inv s where
  winner p _ hp := by
    rw [h.pc p] at hp
    cases hp
  loading := by
    constructor
    · intro hv
      rw [h.valid] at hv
      cases hv
    · rintro ⟨p, hp⟩
      rw [h.pc p] at hp
      cases hp
  attempts := by simp [h.attempts]
  published hv := by
    rw [h.valid] at hv
    cases hv
  returned p hp := by
    rw [h.pc p] at hp
    cases hp
  moves := by simp [h.moves]
  tracks p := by
    unfold Tracks
    rw [h.pc p]
    exact h.task p

/-- No attempt begins or ends, and the slot stays as it is. -/
theorem keep (h : Inv s) (howns : ∀ q, (s'.pc q).owns = (s.pc q).owns)
    (hr : ∀ q, s'.pc q = .returned true → s.pc q = .returned true ∨ s.valid = .queryable)
    (hv : s'.valid = s.valid) (ha : s'.attempts = s.attempts) (hm : s'.moves = s.moves)
    (ht : ∀ q, Tracks s' q) : Inv s' where
  winner q q' hq hq' := by
    rw [howns] at hq hq'
    exact h.winner q q' hq hq'
  loading := by
    simp only [hv, howns]
    exact h.loading
  attempts := ha ▸ h.attempts
  published := by
    rw [hv, ha]
    exact h.published
  returned q hq := by
    rw [hv]
    rcases hr q hq with hq | hq
    · exact h.returned q hq
    · exact hq
  moves := hm ▸ h.moves
  tracks := ht

/-- What a process keeps for itself does not matter to the others. -/
theorem setLocal (h : Inv s) (hpc : s'.pc = s.pc) (hv : s'.valid = s.valid)
    (ha : s'.attempts = s.attempts) (hm : s'.moves = s.moves)
    (ht : ∀ q, Tracks s' q) : Inv s' :=
  h.keep (fun q => by rw [hpc]) (fun q hq => .inl (by rwa [hpc] at hq)) hv ha hm ht

/-- A reader goes on inside or outside its attempt. -/
theorem advance (h : Inv s) {pc : Pc} (hpc : s'.pc = Function.update s.pc p pc)
    (hv : s'.valid = s.valid) (ha : s'.attempts = s.attempts) (hm : s'.moves = s.moves)
    (hother : ∀ q, q ≠ p → s'.task q = s.task q ∧ s'.loaded q = s.loaded q ∧
      s'.maintDone q = s.maintDone q)
    (hown : pc.owns = (s.pc p).owns) (hr : pc = .returned true → s.valid = .queryable)
    (ht : Tracks s' p) : Inv s' := by
  refine h.keep ?_ ?_ hv ha hm ?_
  · intro q
    rw [hpc, Function.update_apply]
    split
    next hq => rw [hq, hown]
    next => rfl
  · intro q hq
    rw [hpc, Function.update_apply] at hq
    split at hq
    next => exact .inr (hr hq)
    next => exact .inl hq
  · intro q
    by_cases hq : q = p
    · rwa [hq]
    · obtain ⟨h₁, h₂, h₃⟩ := hother q hq
      exact (h.tracks q).congr (by rw [hpc, Function.update_of_ne hq]) h₁ h₂ h₃

theorem goto (h : Inv s) {pc : Pc} (hown : pc.owns = (s.pc p).owns)
    (hr : pc = .returned true → s.valid = .queryable) (ht : Tracks (s.goto p pc) p) :
    Inv (s.goto p pc) :=
  h.advance rfl rfl rfl rfl (fun _ _ => ⟨rfl, rfl, rfl⟩) hown hr ht

/-- The slot moves before any reader is at work on it. -/
theorem store (h : Inv s) {v : LSMSlotState} (hn : Neighbours s.valid v)
    (hs : stage s.valid < 3) (hv : stage v < 3) : Inv (s.store v) := by
  have hload : s.valid ≠ .loadingIndex := by
    intro he
    rw [he] at hs
    exact absurd hs (by decide)
  have hquery : s.valid ≠ .queryable := by
    intro he
    rw [he] at hs
    exact absurd hs (by decide)
  constructor
  case tracks => exact fun q => (h.tracks q).congr rfl rfl rfl rfl
  constructor
  case winner => exact h.winner
  case loading =>
    constructor
    · rintro (rfl : v = .loadingIndex)
      exact absurd hv (by decide)
    · intro hp
      exact absurd (h.loading.mpr hp) hload
  case attempts => exact h.attempts
  case published =>
    rintro (rfl : v = .queryable)
    exact absurd hv (by decide)
  case returned => exact fun q hq => absurd (h.returned q hq) hquery
  case moves =>
    intro m hm
    rcases List.mem_cons.mp hm with rfl | hm
    · exact hn
    · exact h.moves m hm

/-- A reader wins the compare-and-swap. -/
theorem win (h : Inv s) (hpc : s.pc p = .swap) (hv : s.valid = .writable) :
    Inv (((s.store .loadingIndex).setLoaded p none).goto p .won) := by
  have hnone : ∀ q, (s.pc q).owns = false := by
    intro q
    rw [← Bool.not_eq_true]
    intro hq
    have := h.loading.mpr ⟨q, hq⟩
    rw [hv] at this
    cases this
  have howns : ∀ q, ((Function.update s.pc p Pc.won) q).owns = true ↔ q = p := by
    intro q
    rw [Function.update_apply]
    split
    next hq => simp [hq, Pc.owns]
    next hq => simp [hq, hnone q]
  constructor
  case tracks =>
    intro q
    by_cases hq : q = p
    · subst hq
      have := h.tracks q
      rw [Tracks, hpc] at this
      simp [Tracks, this]
    · exact (h.tracks q).congr (by simp [hq]) rfl (by simp [hq]) rfl
  constructor
  case winner =>
    intro q q' hq hq'
    exact ((howns q).mp hq).trans ((howns q').mp hq').symm
  case loading => exact ⟨fun _ => ⟨p, (howns p).mpr rfl⟩, fun _ => rfl⟩
  case attempts => exact h.attempts
  case published => exact fun hq => by cases hq
  case returned =>
    intro q hq
    by_cases hqp : q = p
    · simp [hqp] at hq
    · have := h.returned q (by simpa [hqp] using hq)
      rw [hv] at this
      cases this
  case moves =>
    intro m hm
    rcases List.mem_cons.mp hm with rfl | hm
    · rw [hv]
      decide
    · exact h.moves m hm

/-- The winner is done: the slot is `QUERYABLE` if its load is complete, `WRITABLE` again
if not. -/
theorem finish (h : Inv s) (hown : (s.pc p).owns = true) {v : LSMSlotState} {pc : Pc}
    (hpc : pc.owns = false) (htask : s.task p = .none) (hplace : pc = .returned true ∨ pc = .raised)
    (hv : s.loaded p = some 0 ∧ v = .queryable ∨
      s.loaded p ≠ some 0 ∧ v = .writable ∧ pc ≠ .returned true) :
    Inv (((s.store v).ended p).goto p pc) := by
  have hload : s.valid = .loadingIndex := h.loading.mpr ⟨p, hown⟩
  have howns : ∀ q, ((Function.update s.pc p pc) q).owns = false := by
    intro q
    rw [Function.update_apply]
    split
    next => exact hpc
    next hq =>
      rw [← Bool.not_eq_true]
      exact fun hq' => hq (h.winner q p hq' hown)
  constructor
  case tracks =>
    intro q
    by_cases hq : q = p
    · subst hq
      rcases hplace with rfl | rfl <;> simpa [Tracks] using htask
    · exact (h.tracks q).congr (by simp [hq]) rfl rfl rfl
  constructor
  case winner =>
    intro q q' hq
    exact absurd hq (Bool.eq_false_iff.mp (howns q))
  case loading =>
    constructor
    · intro hvl
      rcases hv with ⟨-, rfl⟩ | ⟨-, rfl, -⟩ <;> cases hvl
    · rintro ⟨q, hq⟩
      exact absurd hq (Bool.eq_false_iff.mp (howns q))
  case attempts =>
    intro a ha
    rcases List.mem_cons.mp ha with rfl | ha
    · rcases hv with hv | ⟨hl, hv, -⟩
      · exact .inl hv
      · exact .inr ⟨hl, hv⟩
    · exact h.attempts a ha
  case published =>
    intro hvq
    rcases hv with ⟨hl, -⟩ | ⟨-, rfl, -⟩
    · exact ⟨_, List.mem_cons_self, hl⟩
    · cases hvq
  case returned =>
    intro q hq
    by_cases hqp : q = p
    · subst hqp
      rcases hv with ⟨-, hv⟩ | ⟨-, -, hne⟩
      · exact hv
      · exact absurd (by simpa using hq) hne
    · have := h.returned q (by simpa [hqp] using hq)
      rw [hload] at this
      cases this
  case moves =>
    intro m hm
    rcases List.mem_cons.mp hm with rfl | hm
    · rw [hload]
      rcases hv with ⟨-, rfl⟩ | ⟨-, rfl, -⟩ <;> decide
    · exact h.moves m hm

theorem runStep (h : Inv s) (ha : Sane s (.run p)) (hs : Loading.runStep timeoutMs s p = some s') :
    Inv s' := by
  have ht := h.tracks p
  unfold Loading.runStep at hs
  unfold Tracks at ht
  cases hpc : s.pc p with
  | called =>
      simp only [hpc] at hs ht
      split at hs
      next hv =>
        obtain rfl := Option.some.inj hs
        exact h.goto (by rw [hpc]; rfl) (fun _ => hv) (by simpa [Tracks] using ht)
      all_goals
        obtain rfl := Option.some.inj hs
        exact h.goto (by rw [hpc]; rfl) (fun hr => by cases hr) (by simpa [Tracks] using ht)
  | swap =>
      simp only [hpc] at hs ht
      split at hs
      next hv =>
        obtain rfl := Option.some.inj hs
        exact h.win hpc hv
      next =>
        obtain rfl := Option.some.inj hs
        exact h.goto (by rw [hpc]; rfl) (fun hr => by cases hr) (by simpa [Tracks] using ht)
  | barrier waited =>
      simp only [hpc] at hs ht
      split_ifs at hs <;>
        · obtain rfl := Option.some.inj hs
          exact h.goto (by rw [hpc]; rfl) (fun hr => by cases hr) (by simpa [Tracks] using ht)
  | slept waited =>
      have hdie := ha waited hpc
      simp only [hpc] at hs ht
      split at hs
      next =>
        obtain rfl := Option.some.inj hs
        exact h.goto (by rw [hpc]; rfl) (fun hr => by cases hr) (by simpa [Tracks] using ht)
      next =>
        obtain rfl := Option.some.inj hs
        have hi : Inv (s.setInterrupt p none) := h.setLocal rfl rfl rfl rfl h.tracks
        exact hi.goto (by rw [State.setInterrupt_pc, hpc]; rfl) (fun hr => by cases hr)
          (by simpa [Tracks] using ht)
      next hi => exact absurd hi hdie
  | loading =>
      simp only [hpc] at hs ht
      split at hs
      next hd =>
        obtain rfl := Option.some.inj hs
        exact h.goto (by rw [hpc]; rfl) (fun hr => by cases hr)
          (by simpa [Tracks] using ht.2 hd)
      next =>
        obtain rfl := Option.some.inj hs
        exact h
  | publish =>
      simp only [hpc] at hs ht
      obtain rfl := Option.some.inj hs
      exact h.finish (by rw [hpc]; rfl) rfl ht.1 (.inl rfl) (.inl ⟨ht.2, rfl⟩)
  | revert =>
      simp only [hpc] at hs ht
      obtain rfl := Option.some.inj hs
      have he : Inv (s.setError true) := h.setLocal rfl rfl rfl rfl h.tracks
      exact he.goto (by rw [State.setError_pc, hpc]; rfl) (fun hr => by cases hr)
        (by simpa [Tracks] using ht)
  | restore =>
      simp only [hpc] at hs ht
      obtain rfl := Option.some.inj hs
      refine h.finish (by rw [hpc]; rfl) rfl ht.1 (.inr rfl) (.inr ⟨?_, rfl, fun hr => by cases hr⟩)
      rw [ht.2]
      exact fun hl => by cases hl
  | waiting =>
      simp only [hpc] at hs ht
      split at hs
      next hv =>
        obtain rfl := Option.some.inj hs
        exact h.goto (by rw [hpc]; rfl) (fun _ => hv) (by simpa [Tracks] using ht)
      all_goals
        obtain rfl := Option.some.inj hs
        exact h.goto (by rw [hpc]; rfl) (fun hr => by cases hr) (by simpa [Tracks] using ht)
  | sleeping =>
      simp only [hpc] at hs ht
      split at hs
      next =>
        obtain rfl := Option.some.inj hs
        exact h.goto (by rw [hpc]; rfl) (fun hr => by cases hr) (by simpa [Tracks] using ht)
      next =>
        obtain rfl := Option.some.inj hs
        have hi : Inv (s.setInterrupt p none) := h.setLocal rfl rfl rfl rfl h.tracks
        exact hi.goto (by rw [State.setInterrupt_pc, hpc]; rfl) (fun hr => by cases hr)
          (by simpa [Tracks] using ht)
      next =>
        obtain rfl := Option.some.inj hs
        exact h.goto (by rw [hpc]; rfl) (fun hr => by cases hr) (by simpa [Tracks] using ht)
  | idle | won | submit | returned | raised | dead =>
      simp only [hpc] at hs
      cases hs

/-- Only a reader in the wait of `submit_and_wait_maintenance` has a load under way. -/
theorem loading_of_task (h : Inv s) (ht : s.task p ≠ .none) : s.pc p = .loading := by
  have htr := h.tracks p
  unfold Tracks at htr
  cases hpc : s.pc p with
  | loading => rfl
  | won | barrier | slept | submit | revert | restore | publish =>
      rw [hpc] at htr
      exact absurd htr.1 ht
  | idle | called | swap | waiting | sleeping | returned | raised | dead =>
      rw [hpc] at htr
      exact absurd htr ht

/-- A step of the worker on the load of `p`. -/
theorem work (h : Inv s) (ht : s.task p ≠ .none) (hpc : s'.pc = s.pc) (hv : s'.valid = s.valid)
    (ha : s'.attempts = s.attempts) (hm : s'.moves = s.moves)
    (hother : ∀ q, q ≠ p → s'.task q = s.task q ∧ s'.loaded q = s.loaded q ∧
      s'.maintDone q = s.maintDone q)
    (hown : (s'.task p = .executed → s'.loaded p = some 0) ∧
      (s'.maintDone p = true → s'.task p = .none ∧ s'.loaded p = some 0)) : Inv s' := by
  have hload := h.loading_of_task ht
  have hsame : s'.pc = Function.update s.pc p .loading := by
    rw [hpc, ← hload, Function.update_eq_self]
  refine h.advance hsame hv ha hm hother (by rw [hload]) (fun hr => by cases hr) ?_
  unfold Tracks
  rw [hpc, hload]
  exact hown

theorem step {a : Action} (h : Inv s) (ha : Sane s a) (hs : Loading.step timeoutMs s a = some s') :
    Inv s' := by
  cases a with
  | register =>
      simp only [Loading.step] at hs
      split at hs
      next hv =>
        obtain rfl := Option.some.inj hs
        exact h.store (by rw [hv]; decide) (by rw [hv]; decide) (by decide)
      next => cases hs
  | recovered | recoveryFailed =>
      simp only [Loading.step] at hs
      split at hs
      next hv =>
        obtain rfl := Option.some.inj hs
        exact h.store (by rw [hv]; decide) (by rw [hv]; decide) (by decide)
      next => cases hs
  | call p =>
      simp only [Loading.step] at hs
      split at hs
      next hf =>
        obtain rfl := Option.some.inj hs
        have ht := h.tracks p
        unfold Tracks at ht
        cases hpc : s.pc p <;> simp only [hpc] at hf ht <;> try cases hf.1
        all_goals
          exact h.goto (by rw [hpc]; rfl) (fun hr => by cases hr) (by simpa [Tracks] using ht)
      next => cases hs
  | start p standby =>
      simp only [Loading.step] at hs
      split at hs
      next hpc =>
        obtain rfl := Option.some.inj hs
        have ht := h.tracks p
        rw [Tracks, hpc] at ht
        have he : Inv (s.setError false) := h.setLocal rfl rfl rfl rfl h.tracks
        cases standby <;>
          exact he.goto (by rw [State.setError_pc, hpc]; rfl) (fun hr => by cases hr)
            (by simpa [Tracks] using ht)
      next => cases hs
  | submit p outcome =>
      simp only [Loading.step] at hs
      split at hs
      next hpc =>
        have ht := h.tracks p
        rw [Tracks, hpc] at ht
        cases outcome with
        | inRing =>
            obtain rfl := Option.some.inj hs
            refine h.advance rfl rfl rfl rfl (fun q hq => ?_) (by rw [hpc]; rfl)
              (fun hr => by cases hr) ?_
            · simp [hq]
            · simp [Tracks]
        | noSegment =>
            obtain rfl := Option.some.inj hs
            exact h.goto (by rw [hpc]; rfl) (fun hr => by cases hr) (by simpa [Tracks] using ht)
        | ringFull =>
            obtain rfl := Option.some.inj hs
            refine h.advance rfl rfl rfl rfl (fun q hq => ?_) (by rw [hpc]; rfl)
              (fun hr => by cases hr) ?_
            · simp [hq]
            · simpa [Tracks] using ht
      next => cases hs
  | run p => exact h.runStep ha hs
  | interrupt p i =>
      obtain rfl := Option.some.inj hs
      exact h.setLocal rfl rfl rfl rfl h.tracks
  | fetched =>
      obtain rfl := Option.some.inj hs
      exact h.setLocal rfl rfl rfl rfl h.tracks
  | load p leftOut =>
      obtain rfl : leftOut = 0 := ha
      simp only [Loading.step] at hs
      split at hs
      next ht =>
        obtain rfl := Option.some.inj hs
        have hpc := h.loading_of_task (p := p) (by rw [ht]; exact fun hn => by cases hn)
        have htr := h.tracks p
        rw [Tracks, hpc] at htr
        refine h.work (p := p) (by rw [ht]; exact fun hn => by cases hn) rfl rfl rfl rfl ?_ ?_
        · intro q hq
          simp [hq]
        · refine ⟨fun _ => by simp, fun hd => ?_⟩
          have := (htr.2 hd).1
          rw [ht] at this
          cases this
      next => cases hs
  | drop p =>
      simp only [Loading.step] at hs
      split at hs
      next ht =>
        obtain rfl := Option.some.inj hs
        have hpc := h.loading_of_task (p := p) (by rw [ht]; exact fun hn => by cases hn)
        have htr := h.tracks p
        rw [Tracks, hpc] at htr
        refine h.work (p := p) (by rw [ht]; exact fun hn => by cases hn) rfl rfl rfl rfl ?_ ?_
        · intro q hq
          simp [hq]
        · refine ⟨fun he => by simp at he, fun hd => ?_⟩
          have := (htr.2 hd).1
          rw [ht] at this
          cases this
      next => cases hs
  | setDone p =>
      simp only [Loading.step] at hs
      split at hs
      next ht =>
        obtain rfl := Option.some.inj hs
        have hpc := h.loading_of_task (p := p) (by rw [ht]; exact fun hn => by cases hn)
        have htr := h.tracks p
        rw [Tracks, hpc] at htr
        refine h.work (p := p) (by rw [ht]; exact fun hn => by cases hn) rfl rfl rfl rfl ?_ ?_
        · intro q hq
          simp [hq]
        · exact ⟨fun he => by simp at he, fun _ => ⟨by simp, htr.1 ht⟩⟩
      next => cases hs

end Inv

/-- A slot that a failed attempt has given back can be won by any reader. -/
theorem can_retry (hv : s.valid = .writable) (hf : (s.pc p).free) :
    ∃ s', exec (step timeoutMs) s [.call p, .run p, .run p] = some s' ∧ (s'.pc p).owns ∧
      s'.valid = .loadingIndex := by
  have hw : s.valid.isWritable := by rw [hv]; rfl
  have hcall : step timeoutMs s (.call p) = some (s.goto p .called) := if_pos ⟨hf, hw⟩
  have hread : step timeoutMs (s.goto p .called) (.run p) =
      some ((s.goto p .called).goto p .swap) := by
    simp [step, runStep, hv]
  have hswap : step timeoutMs ((s.goto p .called).goto p .swap) (.run p) =
      some (((((s.goto p .called).goto p .swap).store .loadingIndex).setLoaded p none).goto p
        .won) := by
    simp [step, runStep, hv]
  refine ⟨((((s.goto p .called).goto p .swap).store .loadingIndex).setLoaded p none).goto p .won,
    ?_, ?_, rfl⟩
  · rw [exec_cons, hcall, Option.bind_some, exec_cons, hread, Option.bind_some, exec_cons, hswap]
    rfl
  · simp [Pc.owns]

section Demo

def demoStart : State where
  valid := .free
  stateError := false
  pc := fun _ => .idle
  interrupt := fun _ => none
  maintDone := fun _ => false
  task := fun _ => .none
  onDisk := false
  loaded := fun _ => none
  attempts := []
  moves := []

theorem init_demoStart : Init demoStart := ⟨rfl, fun _ => rfl, fun _ => rfl, rfl, rfl⟩

/-- Reader `p` wins the slot and submits the load, which leaves out some segments. -/
def demoLoad (p leftOut : ℕ) : List Action :=
  [.register, .recovered, .call p, .run p, .run p, .start p false, .submit p .inRing,
    .load p leftOut, .setDone p, .run p, .run p]

/-- Reader 1 runs into the timeout of the standby barrier while reader 2 waits, which then
returns false; reader 2 tries again and is cancelled during the load. -/
def demoRetry : List Action :=
  [.register, .recovered, .call 1, .run 1, .run 1, .call 2, .start 1 true, .run 1, .run 2, .run 2,
    .run 1, .run 1, .run 1, .run 1, .run 2, .run 2, .fetched, .call 2, .run 2, .run 2,
    .start 2 true, .run 2, .submit 2 .inRing, .interrupt 2 .cancel, .load 2 0, .setDone 2, .run 2,
    .run 2]

instance (s : State) (a : Action) : Decidable (Sane s a) := by
  unfold Sane
  split
  case h_2 p =>
    cases hpc : s.pc p with
    | slept w =>
        exact decidable_of_iff (s.interrupt p ≠ some .die)
          ⟨fun h _ _ => h, fun h => h w rfl⟩
    | _ => exact .isTrue (fun _ h => by cases h)
  all_goals infer_instance

end Demo

end VectorLsm.Loading
