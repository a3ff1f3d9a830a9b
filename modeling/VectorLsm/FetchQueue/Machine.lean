import Mathlib.Logic.Function.Basic
import Mathlib.Tactic.Simps.Basic
import VectorLsm.Lib.Transition
import VectorLsm.Memtable.Basic

/-! # The pending fetch queue

A directory with one file per entry, shared by the redo of segment records, which enqueues, and
the fetcher workers, which pop, fetch and mark. Files are inodes behind names, so that a
descriptor outlives its name; every open, lock, read, write, rename and unlink is a step.
-/

namespace VectorLsm.FetchQueue

/-- `DpvFetchStatus`. -/
inductive FetchStatus where
  | pending
  | fetching
  | done
  | failed
  deriving DecidableEq, Repr

inductive FetchKind where
  | created
  | replaced
  deriving DecidableEq, Repr

/-- `DpvFetchKey`. -/
structure FetchKey where
  indexRelId : Oid
  startSid : SegmentId
  endSid : SegmentId
  version : ℕ
  kind : FetchKind
  deriving DecidableEq, Repr

/-- The content of an entry file: `DpvFetchEntryHeader` and the trailer. -/
structure FetchEntry where
  key : FetchKey
  sourceLsn : ℕ
  status : FetchStatus
  trailer : List UInt8
  deriving DecidableEq, Repr

/-- The file names of a key; `key_to_filename` writes its fields at fixed places. -/
inductive FileName where
  | entry (k : FetchKey)
  | tmp (k : FetchKey)
  deriving DecidableEq, Repr

/-- How the fetch of a segment ends: the result of the adoption, or the files are left for the
next load of an index that is not loaded. -/
inductive Outcome where
  | adopted
  | staleDiscard
  | indexUnloaded
  deriving DecidableEq, Repr

/-- Where the redo stands in `dpv_queue_enqueue`. -/
inductive RedoPc where
  | idle
  | check (e : FetchEntry)
  | opening (e : FetchEntry)
  | writing (e : FetchEntry) (i : ℕ)
  | renaming (e : FetchEntry) (i : ℕ)
  /-- The rename has failed, an `ERROR` in the startup process. -/
  | raised
  deriving DecidableEq, Repr

/-- The temporary file of an enqueue in flight. -/
def RedoPc.inFlight : RedoPc → Option (FetchKey × ℕ)
  | .writing e i | .renaming e i => some (e.key, i)
  | _ => none

/-- Where a fetcher worker stands. -/
inductive WorkerPc where
  | down
  /-- `dpv_queue_recover_on_startup`: at the next name, with an entry open, and with a header
  that was read as `FETCHING`. -/
  | sweep
  | sweepOpen (k : FetchKey) (i : ℕ)
  | sweepWrite (k : FetchKey) (i : ℕ) (e : FetchEntry)
  /-- The head of the main loop. -/
  | idle
  /-- `dpv_queue_pop_pending`: at the next name, with an entry open, with its lock, with a header
  that was read as `PENDING`, and behind the claim. -/
  | pop
  | popOpen (k : FetchKey) (i : ℕ)
  | popLocked (k : FetchKey) (i : ℕ)
  | popRead (k : FetchKey) (i : ℕ) (e : FetchEntry)
  | popped (k : FetchKey) (i : ℕ) (e : FetchEntry)
  | fetching (k : FetchKey) (e : FetchEntry)
  /-- `dpv_queue_mark` as `DONE`, before the unlink. -/
  | done (k : FetchKey)
  /-- `dpv_queue_mark` as `FAILED`: before the open, the read and the write. -/
  | failing (k : FetchKey)
  | failOpen (k : FetchKey) (i : ℕ)
  | failRead (k : FetchKey) (i : ℕ) (e : FetchEntry)
  deriving DecidableEq, Repr

/-- The entry a worker is processing, from the claim to the mark. -/
def WorkerPc.processing : WorkerPc → Option FetchKey
  | .popped k _ _ | .fetching k _ | .done k | .failing k | .failOpen k _ | .failRead k _ _ => some k
  | _ => none

structure State where
  dir : FileName → Option ℕ
  /-- The content of an inode, once it is complete. -/
  files : ℕ → Option FetchEntry
  /-- The holder of the `flock` of an inode. -/
  lock : ℕ → Option ℕ
  nextInode : ℕ
  redo : RedoPc
  workers : ℕ → WorkerPc
  /-- History: the keys whose enqueue has returned. -/
  enqueued : List FetchKey
  /-- History: how the last fetch of a key has ended. -/
  outcome : FetchKey → Option Outcome

namespace State

variable (s : State)

@[simps] def goto (w : ℕ) (pc : WorkerPc) : State :=
  { s with workers := Function.update s.workers w pc }

@[simps] def setRedo (pc : RedoPc) : State := { s with redo := pc }

@[simps] def link (n : FileName) (i : ℕ) : State :=
  { s with dir := Function.update s.dir n (some i) }

@[simps] def unlink (n : FileName) : State := { s with dir := Function.update s.dir n none }

@[simps] def write (i : ℕ) (e : Option FetchEntry) : State :=
  { s with files := Function.update s.files i e }

@[simps] def setLock (i : ℕ) (w : Option ℕ) : State :=
  { s with lock := Function.update s.lock i w }

@[simps] def allocInode : State := { s with nextInode := s.nextInode + 1 }

@[simps] def returned (k : FetchKey) : State := { s with enqueued := k :: s.enqueued }

@[simps] def ended (k : FetchKey) (o : Outcome) : State :=
  { s with outcome := Function.update s.outcome k (some o) }

end State

/-- The next step of `dpv_queue_enqueue`. -/
def redoStep (s : State) : Option State :=
  match s.redo with
  | .check e =>
      match s.dir (.entry e.key) with
      | some _ => some ((s.returned e.key).setRedo .idle)
      | none => some (s.setRedo (.opening e))
  | .opening e =>
      match s.dir (.tmp e.key) with
      | some i => some ((s.write i none).setRedo (.writing e i))
      | none =>
          some ((((s.write s.nextInode none).link (.tmp e.key) s.nextInode).allocInode).setRedo
            (.writing e s.nextInode))
  | .writing e i => some ((s.write i (some e)).setRedo (.renaming e i))
  | .renaming e _ =>
      match s.dir (.tmp e.key) with
      | some j =>
          some ((((s.unlink (.tmp e.key)).link (.entry e.key) j).returned e.key).setRedo .idle)
      | none => some (s.setRedo .raised)
  | .idle | .raised => none

/-- The next step of worker `w`, where its code leaves it no choice. -/
def workerStep (s : State) (w : ℕ) : Option State :=
  match s.workers w with
  | .sweepOpen k i =>
      match s.files i with
      | some e =>
          if e.status = .fetching then some (s.goto w (.sweepWrite k i e))
          else some (s.goto w .sweep)
      | none => some (s.goto w .sweep)
  | .sweepWrite _ i e => some ((s.write i (some { e with status := .pending })).goto w .sweep)
  | .idle => some (s.goto w .pop)
  | .popOpen k i =>
      match s.lock i with
      | none => some ((s.setLock i (some w)).goto w (.popLocked k i))
      | some _ => some (s.goto w .pop)
  | .popLocked k i =>
      match s.files i with
      | some e =>
          if e.status = .pending then some (s.goto w (.popRead k i e))
          else some ((s.setLock i none).goto w .pop)
      | none => some ((s.setLock i none).goto w .pop)
  | .popRead k i e =>
      some ((s.write i (some { e with status := .fetching })).goto w
        (.popped k i { e with status := .fetching }))
  | .popped k i e => some ((s.setLock i none).goto w (.fetching k e))
  | .done k => some ((s.unlink (.entry k)).goto w .idle)
  | .failing k =>
      match s.dir (.entry k) with
      | some i => some (s.goto w (.failOpen k i))
      | none => some (s.goto w .idle)
  | .failOpen k i =>
      match s.files i with
      | some e => some (s.goto w (.failRead k i e))
      | none => some (s.goto w .idle)
  | .failRead _ i e => some ((s.write i (some { e with status := .failed })).goto w .idle)
  | .down | .sweep | .pop | .fetching _ _ => none

inductive Action where
  /-- The redo of a segment record enqueues a fetch. -/
  | enqueue (k : FetchKey) (sourceLsn : ℕ) (trailer : List UInt8)
  | redo
  | start (w : ℕ)
  | exit (w : ℕ)
  /-- The whole standby goes down; the files stay. -/
  | crash
  /-- `ReadDir` returns a name, which may be gone by now, or the end. -/
  | readDir (w : ℕ) (n : FileName)
  | readDirEnd (w : ℕ)
  | worker (w : ℕ)
  /-- The trailer of a claimed entry cannot be read. -/
  | noTrailer (w : ℕ)
  /-- The files of a segment are pulled, and adopted if the index is loaded, or not pulled. -/
  | fetched (w : ℕ) (o : Outcome)
  | fetchFailed (w : ℕ)
  deriving DecidableEq, Repr

def step (s : State) : Action → Option State
  | .enqueue k lsn trailer =>
      if s.redo = .idle then some (s.setRedo (.check ⟨k, lsn, .pending, trailer⟩)) else none
  | .redo => redoStep s
  | .start w =>
      -- only worker 0 sweeps
      if s.workers w = .down then some (s.goto w (if w = 0 then .sweep else .idle)) else none
  | .exit w =>
      -- the locks of its descriptors go with the process
      some ({ s with lock := fun i => if s.lock i = some w then none else s.lock i }.goto w .down)
  | .crash =>
      some { s with lock := fun _ => none, redo := .idle, workers := fun _ => .down }
  | .readDir w n =>
      match s.workers w, n with
      | .sweep, .tmp k => some (s.unlink (.tmp k))
      | .sweep, .entry k =>
          match s.dir (.entry k) with
          | some i => some (s.goto w (.sweepOpen k i))
          | none => some s
      | .pop, .tmp _ => some s
      | .pop, .entry k =>
          match s.dir (.entry k) with
          | some i => some (s.goto w (.popOpen k i))
          | none => some s
      | _, _ => none
  | .readDirEnd w =>
      match s.workers w with
      | .sweep | .pop => some (s.goto w .idle)
      | _ => none
  | .worker w => workerStep s w
  | .noTrailer w =>
      match s.workers w with
      | .popped _ i _ => some ((s.setLock i none).goto w .pop)
      | _ => none
  | .fetched w o =>
      match s.workers w with
      | .fetching k e => some ((s.ended e.key o).goto w (.done k))
      | _ => none
  | .fetchFailed w =>
      match s.workers w with
      | .fetching k _ => some (s.goto w (.failing k))
      | _ => none

section Directory

variable {s : State} {k : FetchKey} {n : FileName} {j : ℕ}

theorem FileName.entry_ne_tmp {k' : FetchKey} : FileName.entry k ≠ .tmp k' := nofun

theorem State.link_dir_of_ne {m : FileName} (h : m ≠ n) : (s.link n j).dir m = s.dir m :=
  Function.update_of_ne h ..

theorem State.unlink_dir_of_ne {m : FileName} (h : m ≠ n) : (s.unlink n).dir m = s.dir m :=
  Function.update_of_ne h ..

@[simp] theorem State.link_dir_self : (s.link n j).dir n = some j := Function.update_self ..

@[simp] theorem State.unlink_dir_self : (s.unlink n).dir n = none := Function.update_self ..

theorem State.dir_of_unlink {m : FileName} (h : (s.unlink n).dir m = some j) :
    s.dir m = some j := by
  by_cases hmn : m = n
  · rw [hmn, State.unlink_dir_self] at h
    cases h
  · rwa [State.unlink_dir_of_ne hmn] at h

theorem State.dir_of_link {i : ℕ} {m : FileName} (h : (s.link n j).dir m = some i) :
    m = n ∧ i = j ∨ m ≠ n ∧ s.dir m = some i := by
  by_cases hmn : m = n
  · rw [hmn, State.link_dir_self] at h
    exact .inl ⟨hmn, (Option.some.inj h).symm⟩
  · rw [State.link_dir_of_ne hmn] at h
    exact .inr ⟨hmn, h⟩

/-- Names lead to files that exist, no two of them to one file. -/
structure Directory (s : State) : Prop where
  lt : ∀ n i, s.dir n = some i → i < s.nextInode
  inj : ∀ n m i, s.dir n = some i → s.dir m = some i → n = m

namespace Directory

theorem unlink (h : Directory s) : Directory (s.unlink n) :=
  ⟨fun m i hm => h.lt m i (State.dir_of_unlink hm),
    fun m m' i hm hm' => h.inj m m' i (State.dir_of_unlink hm) (State.dir_of_unlink hm')⟩

theorem link (h : Directory s) (hj : j < s.nextInode) (hnew : ∀ m, s.dir m ≠ some j) :
    Directory (s.link n j) := by
  refine ⟨fun m i hm => ?_, fun m m' i hm hm' => ?_⟩
  · rcases State.dir_of_link hm with ⟨-, rfl⟩ | ⟨-, hm⟩
    · exact hj
    · exact h.lt m i hm
  · rcases State.dir_of_link hm with ⟨hn, hi⟩ | ⟨-, hold⟩
    · rcases State.dir_of_link hm' with ⟨hn', -⟩ | ⟨-, hold'⟩
      · rw [hn, hn']
      · exact absurd (hi ▸ hold') (hnew m')
    · rcases State.dir_of_link hm' with ⟨-, hi'⟩ | ⟨-, hold'⟩
      · exact absurd (hi' ▸ hold) (hnew m)
      · exact h.inj m m' i hold hold'

end Directory

end Directory

/-- A fresh standby: the queue is empty and nobody is at work. -/
structure Init (s : State) : Prop where
  dir : ∀ n, s.dir n = none
  lock : ∀ i, s.lock i = none
  redo : s.redo = .idle
  workers : ∀ w, s.workers w = .down
  enqueued : s.enqueued = []

end VectorLsm.FetchQueue
