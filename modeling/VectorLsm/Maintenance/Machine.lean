import Mathlib.Logic.Function.Basic
import VectorLsm.Lib.Transition
import VectorLsm.Pool.Basic

/-! # Maintenance requests

A request goes from the ring buffer to the queue of the maintenance threads and from there to a
thread, which sets the completion flag of the process it came from. The queue has a bound, which
requests share with the upgrade tasks that an index load submits.
-/

namespace VectorLsm.Maintenance

/-- `MAINTENANCE_TASK_QUEUE_SIZE`. -/
abbrev maintenanceTaskQueueSize : ℕ := 1152

/-- The maintenance tasks of the ring buffer. -/
inductive TaskType where
  | indexBuild
  | indexLoad
  | segmentUpdate
  deriving DecidableEq, Repr

/-- A request, numbered in the order of submission; the source has no number. -/
structure Request where
  req : ℕ
  backendPgprocno : ℕ
  taskType : TaskType
  deriving DecidableEq, Repr

inductive TaskSlot where
  | vectorSearch
  | maintenance (r : Request)
  deriving DecidableEq, Repr

/-- `InternalUpgradeTaskData`, the part that names the segment. -/
structure Upgrade where
  lsmIdx : ℕ
  segmentIdx : ℕ
  deriving DecidableEq, Repr

/-- `MaintenanceTask`. -/
inductive MaintenanceTask where
  | request (r : Request)
  | segmentUpgrade (u : Upgrade)
  deriving DecidableEq, Repr

/-- Where a maintenance thread stands. -/
inductive Thread where
  | idle
  | executing (t : MaintenanceTask)
  /-- The work is done, the flag not yet set; an index load has upgrades to submit. -/
  | executed (r : Request) (upgrades : List Upgrade)
  /-- `submit_internal_task`, before its look at the queue size and behind it. -/
  | submitting (upgrades : List Upgrade)
  | admitted (u : Upgrade) (upgrades : List Upgrade)
  deriving DecidableEq, Repr

/-- `VectorSearchResultData`, the fields of maintenance. -/
structure ResultSlot where
  maintStatus : ℕ
  maintDone : Bool
  deriving DecidableEq, Repr

inductive Backend where
  | idle
  /-- In the loop of `submit_and_wait_maintenance`. -/
  | waiting (r : Request)
  deriving DecidableEq, Repr

structure State where
  ring : List TaskSlot
  /-- The worker has looked at the queue size for the head of the ring. -/
  handing : Bool
  queue : List MaintenanceTask
  threads : List Thread
  results : ℕ → ResultSlot
  backends : ℕ → Backend
  next : ℕ
  /-- History: the requests executed, with their status, and those whose flag was set. -/
  executed : List (ℕ × ℕ)
  flagged : List ℕ
  /-- History: the status a backend has returned with, for a segment update. -/
  returned : List (ℕ × ℕ)

inductive Action where
  /-- A backend submits a request. -/
  | submit (p : ℕ) (type : TaskType)
  | submitSearch
  /-- The worker takes a search off the ring. -/
  | handleSearch
  /-- `submit_maintenance_task`: the look at the queue size, and the rest. -/
  | check
  | enqueue
  | dequeue (t : ℕ)
  /-- A thread does the work of a request. -/
  | execute (t status : ℕ) (upgrades : List Upgrade)
  | setDone (t : ℕ)
  | checkUpgrade (t : ℕ)
  | enqueueUpgrade (t : ℕ)
  /-- A thread is done with an upgrade, or has submitted all it had. -/
  | finish (t : ℕ)
  /-- A latch wakes a waiting backend, for whatever reason. -/
  | wake (p : ℕ)
  deriving DecidableEq, Repr

namespace State

variable (s : State)

def setThread (t : ℕ) (th : Thread) : State := { s with threads := s.threads.set t th }

/-- The result slot as the backend leaves it before it takes the ring lock. -/
def cleared (p : ℕ) (type : TaskType) : ResultSlot where
  maintStatus := if type = .segmentUpdate then 0 else (s.results p).maintStatus
  maintDone := false

/-- `submit_and_wait_maintenance` with room in the ring. -/
def submit (p : ℕ) (type : TaskType) : State :=
  { s with
    results := Function.update s.results p (s.cleared p type)
    ring := s.ring ++ [.maintenance ⟨s.next, p, type⟩]
    backends := Function.update s.backends p (.waiting ⟨s.next, p, type⟩)
    next := s.next + 1 }

/-- The thread writes the status of a segment update. -/
def execute (t : ℕ) (r : Request) (status : ℕ) (upgrades : List Upgrade) : State :=
  { s.setThread t (.executed r upgrades) with
    results := if r.taskType = .segmentUpdate then
        Function.update s.results r.backendPgprocno
          { s.results r.backendPgprocno with maintStatus := status }
      else s.results
    executed := (r.req, status) :: s.executed }

/-- The thread sets the completion flag. -/
def setDone (t : ℕ) (r : Request) (upgrades : List Upgrade) : State :=
  { s.setThread t (.submitting upgrades) with
    results := Function.update s.results r.backendPgprocno
      { s.results r.backendPgprocno with maintDone := true }
    flagged := r.req :: s.flagged }

/-- The backend leaves its loop. -/
def leave (p : ℕ) (r : Request) : State :=
  { s with
    backends := Function.update s.backends p .idle
    returned := if r.taskType = .segmentUpdate then
        (r.req, (s.results p).maintStatus) :: s.returned else s.returned }

end State

def step (ringSize : ℕ) (s : State) : Action → Option State
  | .submit p type =>
      if s.backends p = .idle then
        -- with a full ring the backend raises an error, its flag already cleared
        if s.ring.length = ringSize then
          some { s with results := Function.update s.results p (s.cleared p type) }
        else some (s.submit p type)
      else none
  | .submitSearch =>
      if s.ring.length = ringSize then some s
      else some { s with ring := s.ring ++ [.vectorSearch] }
  | .handleSearch =>
      match s.ring with
      | .vectorSearch :: ring => some { s with ring := ring }
      | _ => none
  | .check =>
      match s.ring with
      | .maintenance _ :: ring =>
          if s.handing then none
          else if maintenanceTaskQueueSize ≤ s.queue.length then
            -- the warning, and the task is gone
            some { s with ring := ring }
          else some { s with handing := true }
      | _ => none
  | .enqueue =>
      match s.ring with
      | .maintenance r :: ring =>
          if s.handing then
            some { s with ring := ring, handing := false, queue := s.queue ++ [.request r] }
          else none
      | _ => none
  | .dequeue t =>
      match s.queue with
      | task :: queue =>
          if s.threads[t]? = some .idle then
            some { s.setThread t (.executing task) with queue := queue }
          else none
      | [] => none
  | .execute t status upgrades =>
      match s.threads[t]? with
      | some (.executing (.request r)) =>
          if upgrades.length ≤ maxSegmentsCount ∧ (r.taskType = .indexLoad ∨ upgrades = []) then
            some (s.execute t r status upgrades)
          else none
      | _ => none
  | .setDone t =>
      match s.threads[t]? with
      | some (.executed r upgrades) => some (s.setDone t r upgrades)
      | _ => none
  | .checkUpgrade t =>
      match s.threads[t]? with
      | some (.submitting (u :: upgrades)) =>
          if maintenanceTaskQueueSize ≤ s.queue.length then
            some (s.setThread t (.submitting upgrades))
          else some (s.setThread t (.admitted u upgrades))
      | _ => none
  | .enqueueUpgrade t =>
      match s.threads[t]? with
      | some (.admitted u upgrades) =>
          some { s.setThread t (.submitting upgrades) with
            queue := s.queue ++ [.segmentUpgrade u] }
      | _ => none
  | .finish t =>
      match s.threads[t]? with
      | some (.executing (.segmentUpgrade _)) | some (.submitting []) =>
          some (s.setThread t .idle)
      | _ => none
  | .wake p =>
      match s.backends p with
      | .waiting r => if (s.results p).maintDone then some (s.leave p r) else some s
      | .idle => none

/-- Nothing is submitted yet, and all threads wait. -/
def Init (s : State) : Prop :=
  ∃ n results, s = ⟨[], false, [], List.replicate n .idle, results, fun _ => .idle, 0, [], [], []⟩

end VectorLsm.Maintenance
