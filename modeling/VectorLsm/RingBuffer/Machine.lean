import Mathlib.Logic.Function.Basic
import VectorLsm.RingBuffer.Memory

/-! # The ring buffer and the result slots in use

What backends, the worker and its threads do to the shared memory, each under the ring lock or in
a result slot. Beside it, what the memory is for: a queue of bounded length and a mailbox for each
process.
-/

namespace VectorLsm.RingBuffer

open Codec Maintenance

/-! ## Result slots -/

/-- A change of the fields of a result slot. -/
def setResult (m : ℕ → UInt8) (pgprocno : UInt32)
    (f : VectorSearchResultData → VectorSearchResultData) : ℕ → UInt8 :=
  VectorSearchResultData.codec.poke m (vsSearchResultAt pgprocno)
    (f (VectorSearchResultData.codec.peek m (vsSearchResultAt pgprocno)))

/-- The loop of the last finisher over the final pairs, with its two addresses. -/
def writePairs : (ℕ → UInt8) → ℕ → ℕ → List DistancePair → ℕ → UInt8
  | m, _, _, [] => m
  | m, resDist, resId, pair :: pairs =>
      writePairs (int64.poke (uint32.poke m resDist pair.distance) resId pair.id)
        (resDist + uint32.size) (resId + int64.size) pairs

/-- The loop of `search_lsm_index` over the result. -/
def readPairs (m : ℕ → UInt8) : ℕ → ℕ → ℕ → List DistancePair
  | _, _, 0 => []
  | resDist, resId, n + 1 =>
      ⟨uint32.peek m resDist, int64.peek m resId⟩ ::
        readPairs m (resDist + uint32.size) (resId + int64.size) n

/-- The end of `search_segment_task`, or of a search without segments. -/
def writeResult (m : ℕ → UInt8) (pgprocno : UInt32) (pairs : List DistancePair) : ℕ → UInt8 :=
  let result := vsSearchResultAt pgprocno
  let m := setResult m pgprocno fun r => { r with resultCount := .ofNat pairs.length }
  let resultCount := (VectorSearchResultData.codec.peek m result).resultCount.toNat
  let m := writePairs m (vsSearchResultDistAt result resultCount) (vsSearchResultIdAt result) pairs
  setResult m pgprocno fun r => { r with status := 1 }

/-- `vector_search_get_result` once it looks at the status, and the loop over the result. -/
def getResult (m : ℕ → UInt8) (pgprocno : UInt32) : Option (List DistancePair) :=
  let result := vsSearchResultAt pgprocno
  let r := VectorSearchResultData.codec.peek m result
  if r.status = 1 then
    some (readPairs m (vsSearchResultDistAt result r.resultCount.toNat) (vsSearchResultIdAt result)
      r.resultCount.toNat)
  else none

/-- A thread is done with a request; some kinds leave the status alone. -/
def setMaintDone (m : ℕ → UInt8) (pgprocno : UInt32) (maintStatus : Option UInt32) : ℕ → UInt8 :=
  setResult m pgprocno fun r =>
    { r with maintStatus := maintStatus.getD r.maintStatus, maintDone := 1 }

/-- The loop of `submit_and_wait_maintenance` once it looks at the flag. -/
def getMaintDone (m : ℕ → UInt8) (pgprocno : UInt32) : Option UInt32 :=
  let r := VectorSearchResultData.codec.peek m (vsSearchResultAt pgprocno)
  if r.maintDone ≠ 0 then some r.maintStatus else none

/-! ## The memory -/

structure Config where
  maxBackends : ℕ
  /-- A backend and a background worker at least. -/
  two_le : 2 ≤ maxBackends

/-- `ring_size`. -/
def Config.ringSize (cfg : Config) : ℕ := cfg.maxBackends

structure Shmem where
  head : ℕ
  tail : ℕ
  count : ℕ
  tasks : TaskMemory
  results : ℕ → UInt8

inductive Action where
  /-- `vector_search_send`. -/
  | send (p : UInt32) (query : Query)
  /-- `submit_and_wait_maintenance`, up to its loop. -/
  | submit (p : UInt32) (type : TaskType) (dsmSize : UInt64) (handle : UInt32)
  /-- One turn of the worker's loop. -/
  | turn
  | writeResult (p : UInt32) (pairs : List DistancePair)
  | getResult (p : UInt32)
  | setMaintDone (p : UInt32) (maintStatus : Option UInt32)
  | getMaintDone (p : UInt32)

inductive Answer where
  | done
  | ringBufferFull
  /-- The ring is empty. -/
  | idle
  | handled (task : Option Task)
  | result (pairs : Option (List DistancePair))
  | maintStatus (status : Option UInt32)

/-- Whether no query has more dimensions and no result more pairs. -/
def Action.AtMost (dim topk : ℕ) : Action → Prop
  | .send _ query => query.vector.length ≤ dim
  | .writeResult _ pairs => pairs.length ≤ topk
  | _ => True

namespace Shmem

variable (cfg : Config) (s : Shmem)

/-- `ring_buffer_init`. -/
def init : Shmem where
  head := 0
  tail := 0
  count := 0
  tasks := ⟨fun _ => 0, fun _ => 0⟩
  results := fun _ => 0

def getRingBufferSlot : ℕ × Shmem :=
  (s.tail, { s with tail := (s.tail + 1) % cfg.ringSize, count := s.count + 1 })

def vectorSearchSend (p : UInt32) (query : Query) : Answer × Shmem :=
  if s.count = cfg.ringSize then (.ringBufferFull, s)
  else
    let (slot, s) := s.getRingBufferSlot cfg
    (.done, { s with
      tasks := s.tasks.writeSearch slot p query
      results := setResult s.results p fun r => { r with status := 0 } })

/-- The flag is cleared before the look at the ring, and the status of an update with it. -/
def submitMaintenance (p : UInt32) (type : TaskType) (dsmSize : UInt64) (handle : UInt32) :
    Answer × Shmem :=
  let s := { s with
    results := setResult s.results p fun r =>
      { r with
        maintStatus := if type = .segmentUpdate then 0 else r.maintStatus
        maintDone := 0 } }
  if s.count = cfg.ringSize then (.ringBufferFull, s)
  else
    let (slot, s) := s.getRingBufferSlot cfg
    (.done, { s with tasks := s.tasks.writeMaintenance slot type dsmSize handle })

def workerTurn : Answer × Shmem :=
  if s.count = 0 then (.idle, s)
  else
    (.handled (s.tasks.handleTask s.head),
      { s with head := (s.head + 1) % cfg.ringSize, count := s.count - 1 })

def step : Action → Answer × Shmem
  | .send p query => s.vectorSearchSend cfg p query
  | .submit p type dsmSize handle => s.submitMaintenance cfg p type dsmSize handle
  | .turn => s.workerTurn cfg
  | .writeResult p pairs => (.done, { s with results := RingBuffer.writeResult s.results p pairs })
  | .getResult p => (.result (RingBuffer.getResult s.results p), s)
  | .setMaintDone p status =>
      (.done, { s with results := RingBuffer.setMaintDone s.results p status })
  | .getMaintDone p => (.maintStatus (RingBuffer.getMaintDone s.results p), s)

/-- The answers of a run. -/
def answers : Shmem → List Action → List Answer
  | _, [] => []
  | s, a :: as => (s.step cfg a).1 :: answers (s.step cfg a).2 as

end Shmem

/-! ## What it is for -/

/-- What is kept for a process. -/
structure Mailbox where
  status : UInt32
  pairs : List DistancePair
  maintStatus : UInt32
  maintDone : UInt32

/-- A queue of tasks and the mailboxes. -/
structure Mail where
  queue : List Task
  mailbox : UInt32 → Mailbox

namespace Mail

variable (cfg : Config) (s : Mail)

def init : Mail where
  queue := []
  mailbox := fun _ => ⟨0, [], 0, 0⟩

def modify (p : UInt32) (f : Mailbox → Mailbox) : Mail :=
  { s with mailbox := Function.update s.mailbox p (f (s.mailbox p)) }

/-- A task comes to the end of the queue, unless that is full. -/
def enqueue (task : Task) (s' : Mail) : Answer × Mail :=
  if s.queue.length = cfg.ringSize then (.ringBufferFull, s)
  else (.done, { s' with queue := s'.queue ++ [task] })

def step : Action → Answer × Mail
  | .send p query => s.enqueue cfg (.search p query) (s.modify p fun b => { b with status := 0 })
  | .submit p type dsmSize handle =>
      let s := s.modify p fun b =>
        { b with
          maintStatus := if type = .segmentUpdate then 0 else b.maintStatus
          maintDone := 0 }
      s.enqueue cfg (.maintenance type dsmSize handle) s
  | .turn =>
      match s.queue with
      | [] => (.idle, s)
      | task :: queue => (.handled (some task), { s with queue := queue })
  | .writeResult p pairs => (.done, s.modify p fun b => { b with pairs := pairs, status := 1 })
  | .getResult p =>
      (.result (if (s.mailbox p).status = 1 then some (s.mailbox p).pairs else none), s)
  | .setMaintDone p status =>
      (.done, s.modify p fun b =>
        { b with maintStatus := status.getD b.maintStatus, maintDone := 1 })
  | .getMaintDone p =>
      (.maintStatus (if (s.mailbox p).maintDone ≠ 0 then some (s.mailbox p).maintStatus else none),
        s)

/-- The answers of a run. -/
def answers : Mail → List Action → List Answer
  | _, [] => []
  | s, a :: as => (s.step cfg a).1 :: answers (s.step cfg a).2 as

end Mail

end VectorLsm.RingBuffer
