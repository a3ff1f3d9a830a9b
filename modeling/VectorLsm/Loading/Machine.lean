import VectorLsm.IndexBuffer.Machine

/-! # Index loading

The readers of one slot in `ensure_index_loaded`. The winner of the compare-and-swap waits on a
standby for the initial segment, has the vector index worker load the index and publishes it;
the others wait for the outcome. Each access to `valid` or `state_error`, each look at the
completion flag and each point at which an interrupt is honoured is a step.
-/

namespace VectorLsm.Loading

open IndexBuffer

/-- The value of a state in `LSMSlotState`, which follows the life of a slot. -/
def stage : LSMSlotState → ℕ
  | .free => 0
  | .recovering => 1
  | .writable => 2
  | .loadingIndex => 3
  | .queryable => 4

/-- A move along the life of a slot, by one state. -/
def Neighbours (v w : LSMSlotState) : Prop := stage v + 1 = stage w ∨ stage w + 1 = stage v

instance (v w : LSMSlotState) : Decidable (Neighbours v w) := inferInstanceAs (Decidable (_ ∨ _))

/-- A cancel is an `ERROR`, which `PG_CATCH` sees; a termination ends the process at once. -/
inductive Interrupt where
  | cancel
  | die
  deriving DecidableEq, Repr

/-- How the submission of the load ends. -/
inductive Submission where
  | inRing
  /-- No memory for the task, the flag not yet cleared. -/
  | noSegment
  | ringFull
  deriving DecidableEq, Repr

/-- The load a reader has submitted: on its way to a thread, or executed and not yet flagged. -/
inductive Task where
  | none
  | queued
  | executed
  deriving DecidableEq, Repr

/-- Where a reader stands in `ensure_index_loaded`. -/
inductive Pc where
  | idle
  | called
  /-- `WRITABLE` was read. -/
  | swap
  | won
  /-- The standby barrier, before it looks for the segment and behind the sleep. -/
  | barrier (waitedMs : ℕ)
  | slept (waitedMs : ℕ)
  /-- Interrupts are held from here to the publish. -/
  | submit
  | loading
  | publish
  /-- `PG_CATCH`, before `state_error` and before `valid` is written. -/
  | revert
  | restore
  /-- Behind a lost compare-and-swap: before `valid` is read, and on the condition variable. -/
  | waiting
  | sleeping
  | returned (loaded : Bool)
  | raised
  | dead
  deriving DecidableEq, Repr

/-- The reader has won the compare-and-swap and its attempt is not over. -/
def Pc.owns : Pc → Bool
  | .won | .barrier _ | .slept _ | .submit | .loading | .publish | .revert | .restore => true
  | _ => false

/-- Outside `ensure_index_loaded`. -/
def Pc.free : Pc → Bool
  | .idle | .returned _ | .raised => true
  | _ => false

/-- History: an attempt that is over. `load` is the number of segments that its load left out,
`left` the state in which the attempt has left the slot. -/
structure Attempt where
  load : Option ℕ
  left : LSMSlotState
  deriving DecidableEq, Repr

structure State where
  valid : LSMSlotState
  stateError : Bool
  pc : ℕ → Pc
  /-- The pending interrupt of a process. -/
  interrupt : ℕ → Option Interrupt
  maintDone : ℕ → Bool
  task : ℕ → Task
  /-- `dpv_initial_segment_on_disk`. -/
  onDisk : Bool
  /-- History: what the load left out that a process submitted in its attempt. -/
  loaded : ℕ → Option ℕ
  attempts : List Attempt
  /-- History: the stores to `valid`, with the value they replace. -/
  moves : List (LSMSlotState × LSMSlotState)

namespace State

variable (s : State)

@[simps] def goto (p : ℕ) (pc : Pc) : State := { s with pc := Function.update s.pc p pc }

@[simps] def store (v : LSMSlotState) : State :=
  { s with valid := v, moves := (s.valid, v) :: s.moves }

@[simps] def setError (b : Bool) : State := { s with stateError := b }

@[simps] def setInterrupt (p : ℕ) (i : Option Interrupt) : State :=
  { s with interrupt := Function.update s.interrupt p i }

@[simps] def setDone (p : ℕ) (b : Bool) : State :=
  { s with maintDone := Function.update s.maintDone p b }

@[simps] def setTask (p : ℕ) (t : Task) : State := { s with task := Function.update s.task p t }

@[simps] def setLoaded (p : ℕ) (n : Option ℕ) : State :=
  { s with loaded := Function.update s.loaded p n }

/-- The attempt of reader `p` is over. -/
@[simps] def ended (p : ℕ) : State := { s with attempts := ⟨s.loaded p, s.valid⟩ :: s.attempts }

end State

/-- The next step of reader `p`; at an interrupt it raises an error or ends. -/
def runStep (timeoutMs : ℕ) (s : State) (p : ℕ) : Option State :=
  match s.pc p with
  | .called =>
      match s.valid with
      | .queryable => some (s.goto p (.returned true))
      | .writable => some (s.goto p .swap)
      | _ => some (s.goto p .waiting)
  | .swap =>
      if s.valid = .writable then
        some (((s.store .loadingIndex).setLoaded p none).goto p .won)
      else some (s.goto p .waiting)
  | .barrier waited =>
      if s.onDisk then some (s.goto p .submit)
      else if timeoutMs ≤ waited then some (s.goto p .revert)
      else some (s.goto p (.slept waited))
  | .slept waited =>
      match s.interrupt p with
      | none => some (s.goto p (.barrier (waited + 100)))
      | some .cancel => some ((s.setInterrupt p none).goto p .revert)
      | some .die => some ((s.ended p).goto p .dead)
  | .loading => if s.maintDone p then some (s.goto p .publish) else some s
  | .publish => some (((s.store .queryable).ended p).goto p (.returned true))
  | .revert => some ((s.setError true).goto p .restore)
  | .restore => some (((s.store .writable).ended p).goto p .raised)
  | .waiting =>
      match s.valid with
      | .queryable => some (s.goto p (.returned true))
      | .writable => some (s.goto p (.returned false))
      | _ => some (s.goto p .sleeping)
  | .sleeping =>
      match s.interrupt p with
      | none => some (s.goto p .waiting)
      | some .cancel => some ((s.setInterrupt p none).goto p .raised)
      | some .die => some (s.goto p .dead)
  | .idle | .won | .submit | .returned _ | .raised | .dead => none

inductive Action where
  /-- The slot is registered, and recovered or given up. -/
  | register
  | recovered
  | recoveryFailed
  /-- `ensure_index_loaded`. -/
  | call (p : ℕ)
  /-- The winner clears `state_error` and enters the barrier, or needs none. -/
  | start (p : ℕ) (standby : Bool)
  /-- `index_load_blocking` up to the wait. -/
  | submit (p : ℕ) (outcome : Submission)
  | run (p : ℕ)
  | interrupt (p : ℕ) (i : Interrupt)
  /-- The initial segment has been fetched. -/
  | fetched
  /-- A maintenance thread loads the index; it skips a segment without a free slot and goes on
  after one that it cannot read. -/
  | load (p leftOut : ℕ)
  /-- The worker finds the maintenance queue full. -/
  | drop (p : ℕ)
  | setDone (p : ℕ)
  deriving DecidableEq, Repr

def step (timeoutMs : ℕ) (s : State) : Action → Option State
  | .register => if s.valid = .free then some (s.store .recovering) else none
  | .recovered => if s.valid = .recovering then some (s.store .writable) else none
  | .recoveryFailed => if s.valid = .recovering then some (s.store .free) else none
  | .call p => if (s.pc p).free ∧ s.valid.isWritable then some (s.goto p .called) else none
  | .start p standby =>
      if s.pc p = .won then
        some ((s.setError false).goto p (if standby then .barrier 0 else .submit))
      else none
  | .submit p outcome =>
      if s.pc p = .submit then
        match outcome with
        | .inRing => some (((s.setDone p false).setTask p .queued).goto p .loading)
        | .noSegment => some (s.goto p .revert)
        | .ringFull => some ((s.setDone p false).goto p .revert)
      else none
  | .run p => runStep timeoutMs s p
  | .interrupt p i => some (s.setInterrupt p (some i))
  | .fetched => some { s with onDisk := true }
  | .load p leftOut =>
      if s.task p = .queued then
        some ((s.setTask p .executed).setLoaded p (some leftOut))
      else none
  | .drop p => if s.task p = .queued then some (s.setTask p .none) else none
  | .setDone p =>
      if s.task p = .executed then some ((s.setTask p .none).setDone p true) else none

/-- The slot is free and nobody reads it. -/
structure Init (s : State) : Prop where
  valid : s.valid = .free
  pc : ∀ p, s.pc p = .idle
  task : ∀ p, s.task p = .none
  attempts : s.attempts = []
  moves : s.moves = []

end VectorLsm.Loading
