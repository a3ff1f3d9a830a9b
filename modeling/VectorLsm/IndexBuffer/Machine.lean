import Mathlib.Logic.Function.Basic
import Mathlib.Tactic.Simps.Basic
import VectorLsm.Lib.Transition
import VectorLsm.Memtable.Basic
import VectorLsm.Pool.Basic

/-! # The shared index buffer

Slots of the shared buffer and the parties that claim them: `build_lsm_index`,
`get_lsm_index_idx` with `claim_or_find_lsm_index_slot`, the redo of an index creation,
`ensure_index_loaded`, and the index recovery worker. Each access to the lock or to a `valid`
field and each write of an `indexRelId` is a step.
-/

namespace VectorLsm

namespace IndexBuffer

/-- `INDEX_BUF_SIZE`. -/
abbrev indexBufSize : ℕ := 8

inductive LSMSlotState where
  | free
  | recovering
  | writable
  | loadingIndex
  | queryable
  deriving DecidableEq, Repr

def LSMSlotState.isWritable : LSMSlotState → Bool
  | .writable | .loadingIndex | .queryable => true
  | _ => false

/-- What the index metadata file holds. -/
structure LSMIndexMetadata where
  indexType : IndexType
  dim : ℕ
  elemSize : ℕ
  hnswM : ℕ
  hnswEfConstruction : ℕ
  deriving DecidableEq

structure Request where
  indexRelId : Oid
  dbOid : Oid
  dbUserid : Oid
  deriving DecidableEq

/-- The functions that claim a slot. -/
inductive Claim where
  /-- `claim_or_find_lsm_index_slot`. -/
  | register (r : Request)
  /-- `claim_lsm_index_slot_for_create_redo`. -/
  | createRedo (r : Request) (md : LSMIndexMetadata)
  /-- `build_lsm_index`. -/
  | build (relid : Oid) (md : LSMIndexMetadata)
  deriving DecidableEq

def Claim.relid : Claim → Oid
  | .register r => r.indexRelId
  | .createRedo r _ => r.indexRelId
  | .build relid _ => relid

/-- The state a claimed slot is put in. -/
def Claim.target : Claim → LSMSlotState
  | .createRedo _ _ => .writable
  | _ => .recovering

/-- History: who took the slot out of `FREE` last, the relid it wrote, and how often the
worker began to recover the slot since. -/
structure Tenure where
  claim : Claim
  proc : ℕ
  relid : Option Oid
  passes : ℕ
  deriving DecidableEq

structure LSMIndexBufferSlot where
  valid : LSMSlotState
  stateError : Bool
  requestDbOid : Oid
  requestDbUserid : Oid
  indexRelId : Oid
  metadata : LSMIndexMetadata
  tenure : Option Tenure
  deriving DecidableEq

inductive BackendPc where
  | idle
  /-- `get_lsm_index_idx` before it reads `valid` of slot `i`, and with the value read. -/
  | lookup (r : Request) (i : ℕ)
  | lookupRel (r : Request) (i : ℕ) (v : LSMSlotState)
  /-- Before the buffer lock is taken. -/
  | lock (c : Claim)
  /-- The scan for a slot of the relid, under the lock. -/
  | find (c : Claim) (i : ℕ)
  | findRel (c : Claim) (i : ℕ) (v : LSMSlotState)
  /-- The compare-and-swap loop, under the lock. -/
  | claim (c : Claim) (i : ℕ)
  /-- Slot `k` is claimed: before the request fields, before the relid, before the unlock. -/
  | request (c : Claim) (k : ℕ)
  | relId (c : Claim) (k : ℕ)
  | unlock (c : Claim) (k : ℕ)
  /-- `claim_or_find_lsm_index_slot` before it reads `worker_pgprocno`. -/
  | signal (k : ℕ)
  /-- The worker was found not running. -/
  | reset (k : ℕ)
  | await (k : ℕ)
  /-- `build_lsm_index` after the unlock: before the relid is written, at work on the
  segment, before `QUERYABLE` is published, and before its transaction ends. -/
  | buildRelId (relid : Oid) (md : LSMIndexMetadata) (k : ℕ)
  | building (relid : Oid) (md : LSMIndexMetadata) (k : ℕ)
  | publish (relid : Oid) (md : LSMIndexMetadata) (k : ℕ)
  | commit (relid : Oid) (k : ℕ)
  /-- `ensure_index_loaded`: before the compare-and-swap, as its winner, as a waiter. -/
  | load (k : ℕ)
  | loading (k : ℕ)
  | loadWait (k : ℕ)
  | returned (k : ℕ)
  | failed
  deriving DecidableEq

inductive WorkerPc where
  | off
  | waiting
  /-- Before `valid` of slot `i` is read; `found` is `found_work`. -/
  | scan (i : ℕ) (found : Bool)
  /-- Slot `i` was seen in `RECOVERING`. -/
  | serve (i : ℕ)
  | recover (i : ℕ)
  /-- In `recover_lsm_index_internal`: at `index_open`, before the index header is written,
  and before `WRITABLE` is published. -/
  | opening (i : ℕ) (relid : Oid)
  | rebuild (i : ℕ) (relid : Oid)
  | publish (i : ℕ) (relid : Oid)
  | commit (i : ℕ)
  /-- In `PG_CATCH`. -/
  | caught (i : ℕ)
  deriving DecidableEq

inductive Actor where
  | backend (p : ℕ)
  | worker
  deriving DecidableEq

/-- History: a write to a slot by the worker, or one that moves a slot out of `RECOVERING`.
`recovered` is the relid it was recovered for. -/
structure Move where
  slot : ℕ
  tenure : Option Tenure
  actor : Actor
  recovered : Option Oid
  deriving DecidableEq

structure State where
  slots : ℕ → LSMIndexBufferSlot
  /-- The holder of the buffer lock. -/
  lock : Option ℕ
  /-- `none` is `-1`. -/
  workerPgprocno : Option ℕ
  pc : ℕ → BackendPc
  worker : WorkerPc
  /-- The database the worker is connected to. -/
  connectedDbOid : Option Oid
  /-- Relations under the `AccessExclusiveLock` of a build. -/
  exclusive : Oid → Bool
  /-- The index metadata files. -/
  metadata : Oid → Option LSMIndexMetadata
  moves : List Move

namespace State

variable (s : State)

@[simps] def goto (p : ℕ) (pc : BackendPc) : State := { s with pc := Function.update s.pc p pc }

@[simps] def setLock (l : Option ℕ) : State := { s with lock := l }

@[simps] def setWorker (w : WorkerPc) : State := { s with worker := w }

@[simps] def setSlot (k : ℕ) (slot : LSMIndexBufferSlot) : State :=
  { s with slots := Function.update s.slots k slot }

@[simps] def setExclusive (relid : Oid) (b : Bool) : State :=
  { s with exclusive := Function.update s.exclusive relid b }

@[simps] def setMetadata (relid : Oid) (md : LSMIndexMetadata) : State :=
  { s with metadata := Function.update s.metadata relid (some md) }

/-- Records a move of slot `k`. -/
@[simps] def moved (k : ℕ) (a : Actor) (recovered : Option Oid) : State :=
  { s with moves := s.moves ++ [⟨k, (s.slots k).tenure, a, recovered⟩] }

/-- A plain write of `valid` in slot `k` by backend `p`. -/
def store (k p : ℕ) (v : LSMSlotState) : State :=
  let s' := s.setSlot k { s.slots k with valid := v }
  if (s.slots k).valid = .recovering then
    { s' with moves := s.moves ++ [⟨k, (s.slots k).tenure, .backend p, none⟩] }
  else s'

section Store

variable {k p : ℕ} {v : LSMSlotState}

@[simp] theorem store_slots :
    (s.store k p v).slots = Function.update s.slots k { s.slots k with valid := v } := by
  unfold store
  split <;> rfl

@[simp] theorem store_lock : (s.store k p v).lock = s.lock := by
  unfold store
  split <;> rfl

@[simp] theorem store_pc : (s.store k p v).pc = s.pc := by
  unfold store
  split <;> rfl

@[simp] theorem store_worker : (s.store k p v).worker = s.worker := by
  unfold store
  split <;> rfl

theorem store_moves : (s.store k p v).moves =
    if (s.slots k).valid = .recovering then s.moves ++ [⟨k, (s.slots k).tenure, .backend p, none⟩]
    else s.moves := by
  unfold store
  split <;> rfl

end Store

/-- The worker gives slot `i` up. -/
def giveUp (i : ℕ) : State :=
  ((s.moved i .worker none).setSlot i { s.slots i with stateError := true, valid := .free })
    |>.setWorker (.scan (i + 1) true)

end State

/-- The next step of backend `p`, where it is enabled. -/
def backendStep (p : ℕ) (s : State) : Option State :=
  match s.pc p with
  | .lookup r i =>
      if i < indexBufSize then
        if (s.slots i).valid = .free then some (s.goto p (.lookup r (i + 1)))
        else some (s.goto p (.lookupRel r i (s.slots i).valid))
      else some (s.goto p (.lock (.register r)))
  | .lookupRel r i v =>
      if (s.slots i).indexRelId ≠ r.indexRelId then some (s.goto p (.lookup r (i + 1)))
      else if v.isWritable then some (s.goto p (.returned i))
      else some (s.goto p (.await i))
  | .lock c =>
      if s.lock = none then
        match c with
        | .build _ _ => some ((s.setLock (some p)).goto p (.claim c 0))
        | _ => some ((s.setLock (some p)).goto p (.find c 0))
      else none
  | .find c i =>
      if i < indexBufSize then
        if (s.slots i).valid = .free then some (s.goto p (.find c (i + 1)))
        else some (s.goto p (.findRel c i (s.slots i).valid))
      else some (s.goto p (.claim c 0))
  | .findRel c i v =>
      if (s.slots i).indexRelId ≠ c.relid then some (s.goto p (.find c (i + 1)))
      else
        match c with
        | .register _ =>
            some ((s.setLock none).goto p (if v.isWritable then .returned i else .await i))
        | _ => some ((s.setLock none).goto p (.returned i))
  | .claim c i =>
      if i < indexBufSize then
        if (s.slots i).valid = .free then
          let slot := { s.slots i with valid := c.target, tenure := some ⟨c, p, none, 0⟩ }
          match c with
          | .build _ _ => some ((s.setSlot i slot).goto p (.unlock c i))
          | _ => some ((s.setSlot i slot).goto p (.request c i))
        else some (s.goto p (.claim c (i + 1)))
      else
        match c with
        | .build relid _ => some (((s.setLock none).setExclusive relid false).goto p .failed)
        | _ => some ((s.setLock none).goto p .failed)
  | .request c k =>
      match c with
      | .register r =>
          some ((s.setSlot k { s.slots k with stateError := false, requestDbOid := r.dbOid,
                                              requestDbUserid := r.dbUserid }).goto p (.relId c k))
      | .createRedo r _ =>
          some ((s.setSlot k { s.slots k with stateError := false, requestDbOid := r.dbOid,
                                              requestDbUserid := 0 }).goto p (.relId c k))
      | .build _ _ => none
  | .relId c k =>
      let tenure := (s.slots k).tenure.map fun t => { t with relid := some c.relid }
      match c with
      | .register r =>
          some ((s.setSlot k { s.slots k with indexRelId := r.indexRelId, tenure := tenure })
            |>.goto p (.unlock c k))
      | .createRedo r md =>
          let old := (s.slots k).metadata
          some ((s.setSlot k { s.slots k with
            indexRelId := r.indexRelId
            metadata := { old with indexType := md.indexType, dim := md.dim,
                                   elemSize := md.elemSize }
            tenure := tenure }).goto p (.unlock c k))
      | .build _ _ => none
  | .unlock c k =>
      match c with
      | .register _ => some ((s.setLock none).goto p (.signal k))
      | .createRedo _ _ => some ((s.setLock none).goto p (.returned k))
      | .build relid md => some ((s.setLock none).goto p (.buildRelId relid md k))
  | .signal k =>
      match s.workerPgprocno with
      | none => some (s.goto p (.reset k))
      | some _ => some (s.goto p (.await k))
  | .reset k => some ((s.store k p .free).goto p .failed)
  | .await k =>
      if (s.slots k).valid = .recovering then none
      else if (s.slots k).valid.isWritable && !(s.slots k).stateError then
        some (s.goto p (.returned k))
      else some (s.goto p .failed)
  | .buildRelId relid md k =>
      some ((s.setSlot k { s.slots k with
        indexRelId := relid
        metadata := md
        tenure := (s.slots k).tenure.map fun t => { t with relid := some relid } })
          |>.goto p (.building relid md k))
  | .building relid md k => some ((s.setMetadata relid md).goto p (.publish relid md k))
  | .publish relid _ k => some ((s.store k p .queryable).goto p (.commit relid k))
  | .commit relid k => some ((s.setExclusive relid false).goto p (.returned k))
  | .load k =>
      match (s.slots k).valid with
      | .queryable => some (s.goto p (.returned k))
      | .writable =>
          some ((s.setSlot k { s.slots k with valid := .loadingIndex, stateError := false })
            |>.goto p (.loading k))
      | _ => some (s.goto p (.loadWait k))
  | .loading k => some ((s.store k p .queryable).goto p (.returned k))
  | .loadWait k =>
      match (s.slots k).valid with
      | .queryable => some (s.goto p (.returned k))
      | .writable => some (s.goto p .failed)
      | _ => none
  | .idle | .returned _ | .failed => none

/-- An `ERROR` in backend `p`: a cancelled wait, a build or a load that fails. -/
def backendError (p : ℕ) (s : State) : Option State :=
  match s.pc p with
  | .await _ | .loadWait _ => some (s.goto p .failed)
  | .building relid _ _ => some ((s.setExclusive relid false).goto p .failed)
  | .loading k =>
      some ((State.store (s.setSlot k { s.slots k with stateError := true }) k p .writable).goto p
        .failed)
  | _ => none

/-- The next step of the index recovery worker. -/
def workerStep (s : State) : Option State :=
  match s.worker with
  | .off => none
  | .waiting => some (s.setWorker (.scan 0 false))
  | .scan i found =>
      if i < indexBufSize then
        if (s.slots i).valid = .recovering then some (s.setWorker (.serve i))
        else some (s.setWorker (.scan (i + 1) found))
      else if found then some (s.setWorker (.scan 0 false))
      else some (s.setWorker .waiting)
  | .serve i =>
      match s.connectedDbOid with
      | none =>
          some { s.setWorker (.recover i) with connectedDbOid := some (s.slots i).requestDbOid }
      | some db =>
          if (s.slots i).requestDbOid ≠ db then some (s.giveUp i)
          else some (s.setWorker (.recover i))
  | .recover i =>
      let tenure := (s.slots i).tenure.map fun t => { t with passes := t.passes + 1 }
      some ((s.setSlot i { s.slots i with tenure := tenure }).setWorker
        (.opening i (s.slots i).indexRelId))
  | .opening i relid => if s.exclusive relid then none else some (s.setWorker (.rebuild i relid))
  | .rebuild i relid =>
      match s.metadata relid with
      | none => some (s.setWorker (.caught i))
      | some md =>
          some (((s.moved i .worker (some relid)).setSlot i
            { s.slots i with indexRelId := relid, metadata := md }).setWorker (.publish i relid))
  | .publish i relid =>
      some (((s.moved i .worker (some relid)).setSlot i { s.slots i with valid := .writable })
        |>.setWorker (.commit i))
  | .commit i => some (s.setWorker (.scan (i + 1) true))
  | .caught i => some (s.giveUp i)

/-- An `ERROR` in the worker, which exits when no handler is set yet. -/
def workerError (s : State) : Option State :=
  match s.worker with
  | .serve _ => some { s.setWorker .off with connectedDbOid := none }
  | .opening i _ | .rebuild i _ | .publish i _ | .commit i => some (s.setWorker (.caught i))
  | _ => none

inductive Action where
  /-- `get_lsm_index_idx`. -/
  | lookup (p : ℕ) (r : Request)
  /-- `redo_index_create`. -/
  | createRedo (p : ℕ) (r : Request) (md : LSMIndexMetadata)
  | build (p : ℕ) (relid : Oid) (md : LSMIndexMetadata)
  /-- `ensure_index_loaded` on the slot that `p` was given. -/
  | load (p : ℕ)
  /-- A backend that has returned is free for another call. -/
  | leave (p : ℕ)
  | backend (p : ℕ)
  | backendError (p : ℕ)
  | startWorker (procno : ℕ)
  /-- `SIGTERM`, noticed in front of the scan. -/
  | stopWorker
  | worker
  | workerError
  deriving DecidableEq

def step (s : State) : Action → Option State
  | .lookup p r => if s.pc p = .idle then some (s.goto p (.lookup r 0)) else none
  | .createRedo p r md =>
      if s.pc p = .idle then
        some ((s.setMetadata r.indexRelId { md with hnswM := 32, hnswEfConstruction := 200 }).goto p
          (.lock (.createRedo r md)))
      else none
  | .build p relid md =>
      if s.pc p = .idle ∧ s.exclusive relid = false then
        some ((s.setExclusive relid true).goto p (.lock (.build relid md)))
      else none
  | .load p =>
      match s.pc p with
      | .returned k => some (s.goto p (.load k))
      | _ => none
  | .leave p =>
      match s.pc p with
      | .returned _ | .failed => some (s.goto p .idle)
      | _ => none
  | .backend p => backendStep p s
  | .backendError p => backendError p s
  | .startWorker n =>
      if s.worker = .off then
        some { s.setWorker (.scan 0 false) with workerPgprocno := some n, connectedDbOid := none }
      else none
  | .stopWorker =>
      match s.worker with
      | .waiting => some { s.setWorker .off with workerPgprocno := none, connectedDbOid := none }
      | _ => none
  | .worker => workerStep s
  | .workerError => workerError s

/-- `lsm_index_buffer_shmem_initialize`: every slot is free, no party is at work. -/
structure Init (s : State) : Prop where
  slots : ∀ k, (s.slots k).valid = .free
  lock : s.lock = none
  pc : ∀ p, s.pc p = .idle
  worker : s.worker = .off
  exclusive : ∀ relid, s.exclusive relid = false
  moves : s.moves = []

section Demo

def demoMetadata : LSMIndexMetadata := ⟨.hnsw, 128, 4, 32, 200⟩

/-- A start on which relation 7 was built before. -/
def demoInit : State where
  slots := fun _ => ⟨.free, false, 0, 0, 0, demoMetadata, none⟩
  lock := none
  workerPgprocno := none
  pc := fun _ => .idle
  worker := .off
  connectedDbOid := none
  exclusive := fun _ => false
  metadata := fun relid => if relid = 7 then some demoMetadata else none
  moves := []

theorem init_demoInit : Init demoInit :=
  ⟨fun _ => rfl, rfl, fun _ => rfl, rfl, fun _ => rfl, rfl⟩

/-- Backend 0 looks relation 7 up, claims slot 0, and the worker recovers it. -/
def recoverRun : List Action :=
  [.startWorker 5, .lookup 0 ⟨7, 1, 10⟩] ++ List.replicate 24 (.backend 0) ++
    List.replicate 7 .worker ++ [.backend 0]

/-- Backend 1 builds the relation in slot `k`, the first free one. -/
def buildRun (relid : Oid) (k : ℕ) : List Action :=
  .build 1 relid demoMetadata :: List.replicate (7 + k) (.backend 1)

/-- The states and relids of the slots. -/
def view (s : State) : List (LSMSlotState × Oid) :=
  (List.range indexBufSize).map fun k => ((s.slots k).valid, (s.slots k).indexRelId)

end Demo

end IndexBuffer

end VectorLsm
