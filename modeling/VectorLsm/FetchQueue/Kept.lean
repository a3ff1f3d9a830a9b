import VectorLsm.FetchQueue.Exclusive

/-! # No enqueued key is lost

A key that was enqueued, and whose fetch has not ended, has its entry in the directory in every
run. The entry is pending, or becomes so again at the next restart of worker 0, unless a fetch has
failed: a failed entry stays as it is.
-/

namespace VectorLsm.FetchQueue

open Transition

variable {s s' u : State} {w i j : ℕ} {k : FetchKey} {n : FileName} {pc : WorkerPc}
  {allowed : FetchStatus → Prop}

def Pending (s : State) (k : FetchKey) : Prop := ∃ i, Linked s k i .pending

/-- Worker 0 restarts and its sweep reads the entry of `k`. -/
def restart (k : FetchKey) : List Action := [.exit 0, .start 0, .readDir 0 (.entry k), .worker 0]

/-- The entry of `k` is pending after the next restart, as it was read or as it was written. -/
def Returns (s : State) (k : FetchKey) : Prop :=
  ∃ s', (exec step s (restart k) = some s' ∨ exec step s (restart k ++ [.worker 0]) = some s') ∧
    Pending s' k

/-- An enqueued key is in the queue as pending, held by a worker or returns to pending, until its
fetch ends: adopted, discarded as superseded, or left on disk for the load of its index. -/
def NothingLost (s : State) : Prop :=
  ∀ k ∈ s.enqueued, s.outcome k = none →
    Pending s k ∨ (∃ w, (s.workers w).processing = some k) ∨ Returns s k

/-- The condition on a step: the files of a popped segment can be pulled. -/
def NeverFails (_ : State) : Action → Prop
  | .fetchFailed _ => False
  | _ => True

/-- A file that was opened as the entry of `k`, which the redo does not write. -/
structure Opened (s : State) (k : FetchKey) (i : ℕ) : Prop where
  lt : i < s.nextInode
  only : ∀ n, s.dir n = some i → n = .entry k
  key : ∃ e, s.files i = some e ∧ e.key = k
  apart : ∀ k', s.redo.inFlight ≠ some (k', i)

/-- The temporary file of the enqueue of `e`, which a sweep may have removed. -/
structure Temporary (s : State) (e : FetchEntry) (i : ℕ) : Prop where
  absent : s.dir (.entry e.key) = none
  lt : i < s.nextInode
  only : ∀ n, s.dir n = some i → n = .tmp e.key
  same : ∀ j, s.dir (.tmp e.key) = some j → j = i

/-- What holds of the redo, by its place. -/
def Writes (s : State) (allowed : FetchStatus → Prop) : RedoPc → Prop
  | .check e => allowed e.status
  | .opening e => allowed e.status ∧ s.dir (.entry e.key) = none
  | .writing e i => allowed e.status ∧ Temporary s e i
  | .renaming e i => allowed e.status ∧ Temporary s e i ∧ s.files i = some e
  | .idle | .raised => True

/-- What holds of a worker, by its place. -/
def Carries (s : State) (allowed : FetchStatus → Prop) : WorkerPc → Prop
  | .sweepOpen k i | .popOpen k i | .popLocked k i => Opened s k i
  | .sweepWrite k i e | .popRead k i e => Opened s k i ∧ e.key = k
  | .popped k _ e | .fetching k e => e.key = k
  | .done k => s.outcome k ≠ none
  | .failing _ => allowed .failed
  | .failOpen k i => allowed .failed ∧ Opened s k i
  | .failRead k i e => allowed .failed ∧ Opened s k i ∧ e.key = k
  | .down | .sweep | .idle | .pop => True

/-- The queue with the statuses an entry is `allowed` to have. -/
structure Queue (allowed : FetchStatus → Prop) (s : State) : Prop where
  directory : Directory s
  entries : ∀ k i, s.dir (.entry k) = some i →
    ∃ e, s.files i = some e ∧ e.key = k ∧ allowed e.status
  redo : Writes s allowed s.redo
  workers : ∀ w, Carries s allowed (s.workers w)
  enqueued : ∀ k ∈ s.enqueued, s.outcome k = none → ∃ i, s.dir (.entry k) = some i

theorem Carries.frame (h : Carries s allowed pc) (hopen : ∀ k i, Opened s k i → Opened s' k i)
    (hout : ∀ k, s.outcome k ≠ none → s'.outcome k ≠ none) : Carries s' allowed pc := by
  cases pc with
  | down | sweep | idle | pop => trivial
  | sweepOpen k i | popOpen k i | popLocked k i => exact hopen k i h
  | sweepWrite k i e | popRead k i e => exact ⟨hopen k i h.1, h.2⟩
  | popped k i e | fetching k e => exact h
  | done k => exact hout k h
  | failing k => exact h
  | failOpen k i => exact ⟨h.1, hopen k i h.2⟩
  | failRead k i e => exact ⟨h.1, hopen k i h.2.1, h.2.2⟩

theorem Opened.congr (h : Opened s k i) (hd : s'.dir = s.dir) (hf : s'.files = s.files)
    (hn : s'.nextInode = s.nextInode)
    (hin : ∀ p, s'.redo.inFlight = some p → s.redo.inFlight = some p) : Opened s' k i where
  lt := hn ▸ h.lt
  only := hd ▸ h.only
  key := hf ▸ h.key
  apart _ hk := h.apart _ (hin _ hk)

theorem Opened.key_eq {e : FetchEntry} (h : Opened s k i) (he : s.files i = some e) :
    e.key = k := by
  obtain ⟨e', he', hk⟩ := h.key
  obtain rfl : e = e' := Option.some.inj (he.symm.trans he')
  exact hk

/-- What holds of the redo is kept with its temporary file and the absence of the entry. -/
theorem Writes.frame {r : RedoPc} (h : Writes s allowed r)
    (htmp : ∀ e i, Temporary s e i → Temporary s' e i)
    (habs : ∀ k, s.dir (.entry k) = none → s'.dir (.entry k) = none)
    (hfile : ∀ e i, r.inFlight = some (e.key, i) → s.files i = some e → s'.files i = some e) :
    Writes s' allowed r := by
  match r, h with
  | .check e, h => exact h
  | .opening e, h => exact ⟨h.1, habs _ h.2⟩
  | .writing e i, h => exact ⟨h.1, htmp _ _ h.2⟩
  | .renaming e i, h => exact ⟨h.1, htmp _ _ h.2.1, hfile e i rfl h.2.2⟩
  | .idle, _ | .raised, _ => trivial

theorem Writes.congr {r : RedoPc} (h : Writes s allowed r) (hd : s'.dir = s.dir)
    (hf : s'.files = s.files) (hn : s'.nextInode = s.nextInode) : Writes s' allowed r := by
  refine h.frame (fun e i ht => ⟨?_, ?_, ?_, ?_⟩) (fun k hk => ?_) fun e i _ hi => ?_
  · exact hd ▸ ht.absent
  · exact hn ▸ ht.lt
  · exact hd ▸ ht.only
  · exact hd ▸ ht.same
  · exact hd ▸ hk
  · exact hf ▸ hi

namespace Queue

theorem init (h : Init s) : Queue allowed s where
  directory := by
    constructor
    · intro n i hn
      rw [h.dir n] at hn
      cases hn
    · intro n m i hn
      rw [h.dir n] at hn
      cases hn
  entries k i hk := by
    rw [h.dir] at hk
    cases hk
  redo := by
    rw [h.redo]
    trivial
  workers w := by
    rw [h.workers w]
    trivial
  enqueued k hk := by
    rw [h.enqueued] at hk
    cases hk

theorem opened (h : Queue allowed s) (hi : s.dir (.entry k) = some i) : Opened s k i := by
  obtain ⟨e, he, hk, -⟩ := h.entries k i hi
  refine ⟨h.directory.lt _ _ hi, fun n hn => h.directory.inj n _ i hn hi, ⟨e, he, hk⟩, ?_⟩
  intro k' hin
  have hr := h.redo
  match hr' : s.redo, hin with
  | .writing e i, rfl =>
      rw [hr'] at hr
      exact nomatch hr.2.only _ hi
  | .renaming e i, rfl =>
      rw [hr'] at hr
      exact nomatch hr.2.1.only _ hi

/-- A step that leaves the disk. -/
theorem same_disk (h : Queue allowed s) (hd : u.dir = s.dir) (hf : u.files = s.files)
    (hn : u.nextInode = s.nextInode) (hr : Writes s allowed u.redo)
    (hin : ∀ p, u.redo.inFlight = some p → s.redo.inFlight = some p)
    (hw : ∀ w, Carries s allowed (u.workers w))
    (he : ∀ k ∈ u.enqueued, u.outcome k = none → ∃ i, s.dir (.entry k) = some i)
    (ho : ∀ k, s.outcome k ≠ none → u.outcome k ≠ none) : Queue allowed u where
  directory := by
    constructor
    · rw [hd, hn]
      exact h.directory.lt
    · rw [hd]
      exact h.directory.inj
  entries := by
    rw [hd, hf]
    exact h.entries
  redo := hr.congr hd hf hn
  workers w := (hw w).frame (fun _ _ hi => hi.congr hd hf hn hin) ho
  enqueued := by
    rw [hd]
    exact he

/-- A worker goes on, with the disk as it is. -/
theorem goto (h : Queue allowed s) (hc : Carries s allowed pc) : Queue allowed (s.goto w pc) := by
  refine h.same_disk rfl rfl rfl h.redo (fun _ hp => hp) (fun v => ?_) h.enqueued fun _ ho => ho
  by_cases hv : v = w
  · rw [hv, State.goto_workers, Function.update_self]
    exact hc
  · rw [State.goto_workers, Function.update_of_ne hv]
    exact h.workers v

theorem setLock {v : Option ℕ} (h : Queue allowed s) : Queue allowed (s.setLock i v) :=
  h.same_disk rfl rfl rfl h.redo (fun _ hp => hp) h.workers h.enqueued fun _ ho => ho

theorem ended {o : Outcome} (h : Queue allowed s) : Queue allowed (s.ended k o) := by
  refine h.same_disk rfl rfl rfl h.redo (fun _ hp => hp) h.workers (fun k' hk' ho => ?_)
    fun k' ho => ?_
  · by_cases hkk : k' = k
    · rw [hkk, State.ended_outcome, Function.update_self] at ho
      cases ho
    · rw [State.ended_outcome, Function.update_of_ne hkk] at ho
      exact h.enqueued k' hk' ho
  · by_cases hkk : k' = k
    · rw [hkk, State.ended_outcome, Function.update_self]
      exact nofun
    · rw [State.ended_outcome, Function.update_of_ne hkk]
      exact ho

/-- A worker writes the file it has opened. -/
theorem write {e : FetchEntry} (h : Queue allowed s) (hi : Opened s k i) (he : e.key = k)
    (hst : allowed e.status) : Queue allowed (s.write i (some e)) where
  directory := ⟨h.directory.lt, h.directory.inj⟩
  entries k' j hj := by
    by_cases hij : j = i
    · rw [hij] at hj ⊢
      cases hi.only _ hj
      exact ⟨e, Function.update_self .., he, hst⟩
    · rw [State.write_files, Function.update_of_ne hij]
      exact h.entries k' j hj
  redo := by
    refine h.redo.frame (fun e' j hj => ⟨hj.absent, hj.lt, hj.only, hj.same⟩) (fun _ hk => hk)
      fun e' j hr hj => ?_
    rw [State.write_files, Function.update_of_ne, hj]
    rintro rfl
    exact hi.apart _ hr
  workers v := by
    refine (h.workers v).frame (fun k' j hj => ⟨hj.lt, hj.only, ?_, hj.apart⟩) fun _ ho => ho
    by_cases hij : j = i
    · rw [hij] at hj ⊢
      obtain ⟨e₀, he₀, hk₀⟩ := hi.key
      obtain ⟨e₁, he₁, hk₁⟩ := hj.key
      obtain rfl : e₀ = e₁ := Option.some.inj (he₀.symm.trans he₁)
      exact ⟨e, Function.update_self .., he.trans (hk₀.symm.trans hk₁)⟩
    · rw [State.write_files, Function.update_of_ne hij]
      exact hj.key
  enqueued := h.enqueued

/-- The sweep unlinks temporary files, and a worker the entry whose fetch has ended. -/
theorem unlink (h : Queue allowed s) (hn : ∀ k, n = .entry k → s.outcome k ≠ none) :
    Queue allowed (s.unlink n) where
  directory := h.directory.unlink
  entries k i hk := h.entries k i (State.dir_of_unlink hk)
  redo := by
    have habs : ∀ k, s.dir (.entry k) = none → (s.unlink n).dir (.entry k) = none := by
      intro k hk
      by_contra hne
      obtain ⟨i, hi⟩ := Option.ne_none_iff_exists'.mp hne
      rw [State.dir_of_unlink hi] at hk
      cases hk
    refine h.redo.frame (fun e i ht => ?_) habs fun e i _ hi => hi
    exact ⟨habs _ ht.absent, ht.lt, fun m hm => ht.only m (State.dir_of_unlink hm),
      fun j hj => ht.same j (State.dir_of_unlink hj)⟩
  workers v := (h.workers v).frame
    (fun k i hi => ⟨hi.lt, fun m hm => hi.only m (State.dir_of_unlink hm), hi.key, hi.apart⟩)
    fun _ ho => ho
  enqueued k hk ho := by
    obtain ⟨i, hi⟩ := h.enqueued k hk ho
    refine ⟨i, ?_⟩
    rw [State.unlink_dir_of_ne, hi]
    rintro rfl
    exact hn k rfl ho

/-- The temporary file of an earlier enqueue of the key is opened anew. -/
theorem truncate {e : FetchEntry} (h : Queue allowed s) (hr : s.redo = .opening e)
    (hi : s.dir (.tmp e.key) = some i) :
    Queue allowed ((s.write i none).setRedo (.writing e i)) where
  directory := ⟨h.directory.lt, h.directory.inj⟩
  entries k j hj := by
    rw [State.setRedo_files, State.write_files, Function.update_of_ne]
    · exact h.entries k j hj
    · rintro rfl
      cases h.directory.inj _ _ _ hj hi
  redo := by
    have ho := h.redo
    rw [hr] at ho
    exact ⟨ho.1, ho.2, h.directory.lt _ _ hi, fun n hn => h.directory.inj _ _ _ hn hi,
      fun j hj => Option.some.inj (hj.symm.trans hi)⟩
  workers v := by
    refine (h.workers v).frame (fun k j hj => ?_) fun _ ho => ho
    have hij : j ≠ i := by
      rintro rfl
      cases hj.only _ hi
    refine ⟨hj.lt, hj.only, ?_, fun k' hk' => hij ?_⟩
    · rw [State.setRedo_files, State.write_files, Function.update_of_ne hij]
      exact hj.key
    · cases hk'
      rfl
  enqueued := h.enqueued

theorem create {e : FetchEntry} (h : Queue allowed s) (hr : s.redo = .opening e) :
    Queue allowed ((((s.write s.nextInode none).link (.tmp e.key) s.nextInode).allocInode).setRedo
      (.writing e s.nextInode)) := by
  have hnew : ∀ n, s.dir n ≠ some s.nextInode := fun n hn => (h.directory.lt n _ hn).ne rfl
  have hlink : Directory (s.allocInode.link (.tmp e.key) s.nextInode) :=
    Directory.link ⟨fun n i hn => Nat.lt_succ_of_lt (h.directory.lt n i hn), h.directory.inj⟩
      (Nat.lt_succ_self _) hnew
  have hold : ∀ {j e}, j < s.nextInode → s.files j = some e →
      (s.write s.nextInode none).files j = some e := by
    intro j e hj he
    rw [State.write_files, Function.update_of_ne hj.ne]
    exact he
  refine ⟨⟨hlink.lt, hlink.inj⟩, fun k j hj => ?_, ⟨?_, ?_, Nat.lt_succ_self _, fun n hn => ?_,
    fun j hj => ?_⟩, fun v => ?_, fun k hk ho => ?_⟩
  · rw [State.setRedo_dir, State.allocInode_dir] at hj
    rcases State.dir_of_link hj with ⟨heq, -⟩ | ⟨-, hj⟩
    · cases heq
    · obtain ⟨e', he', hk⟩ := h.entries k j hj
      exact ⟨e', hold (h.directory.lt _ _ hj) he', hk⟩
  · have ho := h.redo
    rw [hr] at ho
    exact ho.1
  · have ho := h.redo
    rw [hr] at ho
    rw [State.setRedo_dir, State.allocInode_dir, State.link_dir_of_ne FileName.entry_ne_tmp]
    exact ho.2
  · rw [State.setRedo_dir, State.allocInode_dir] at hn
    rcases State.dir_of_link hn with ⟨heq, -⟩ | ⟨-, hn⟩
    · exact heq
    · exact absurd hn (hnew n)
  · rw [State.setRedo_dir, State.allocInode_dir] at hj
    rcases State.dir_of_link hj with ⟨-, heq⟩ | ⟨hne, -⟩
    · exact heq
    · exact absurd rfl hne
  · refine (h.workers v).frame (fun k j hj => ⟨Nat.lt_succ_of_lt hj.lt, fun n hn => ?_, ?_, ?_⟩)
      fun _ ho => ho
    · rw [State.setRedo_dir, State.allocInode_dir] at hn
      rcases State.dir_of_link hn with ⟨-, heq⟩ | ⟨-, hn⟩
      · exact absurd heq hj.lt.ne
      · exact hj.only n hn
    · obtain ⟨e', he', hk⟩ := hj.key
      exact ⟨e', hold hj.lt he', hk⟩
    · intro k' hk'
      cases hk'
      exact hj.lt.ne rfl
  · obtain ⟨i, hi⟩ := h.enqueued k hk ho
    refine ⟨i, ?_⟩
    rw [State.setRedo_dir, State.allocInode_dir, State.link_dir_of_ne FileName.entry_ne_tmp]
    exact hi

theorem complete {e : FetchEntry} (h : Queue allowed s) (hr : s.redo = .writing e i) :
    Queue allowed ((s.write i (some e)).setRedo (.renaming e i)) := by
  have ho := h.redo
  rw [hr] at ho
  obtain ⟨hst, htmp⟩ := ho
  have hin : s.redo.inFlight = some (e.key, i) := by
    rw [hr]
    rfl
  refine ⟨⟨h.directory.lt, h.directory.inj⟩, fun k j hj => ?_,
    ⟨hst, ⟨htmp.absent, htmp.lt, htmp.only, htmp.same⟩, Function.update_self ..⟩, fun v => ?_,
    h.enqueued⟩
  · rw [State.setRedo_files, State.write_files, Function.update_of_ne]
    · exact h.entries k j hj
    · rintro rfl
      cases htmp.only _ hj
  · refine (h.workers v).frame (fun k j hj => ⟨hj.lt, hj.only, ?_, fun k' hk' => ?_⟩) fun _ ho => ho
    · rw [State.setRedo_files, State.write_files, Function.update_of_ne]
      · exact hj.key
      · rintro rfl
        exact hj.apart _ hin
    · cases hk'
      exact hj.apart _ hin

/-- The entry appears under its name, complete. -/
theorem rename {e : FetchEntry} (h : Queue allowed s) (hr : s.redo = .renaming e i)
    (hj : s.dir (.tmp e.key) = some j) :
    Queue allowed ((((s.unlink (.tmp e.key)).link (.entry e.key) j).returned e.key).setRedo
      .idle) := by
  have ho := h.redo
  rw [hr] at ho
  obtain ⟨hst, htmp, hfile⟩ := ho
  obtain rfl : j = i := htmp.same j hj
  have hlink : Directory ((s.unlink (.tmp e.key)).link (.entry e.key) j) := by
    refine h.directory.unlink.link htmp.lt fun n hn => ?_
    cases htmp.only n (State.dir_of_unlink hn)
    rw [State.unlink_dir_self] at hn
    cases hn
  refine ⟨⟨hlink.lt, hlink.inj⟩, fun k i hk => ?_, trivial, fun v => ?_, fun k hk ho => ?_⟩
  · rw [State.setRedo_dir, State.returned_dir] at hk
    rcases State.dir_of_link hk with ⟨heq, rfl⟩ | ⟨-, hk⟩
    · cases heq
      exact ⟨e, hfile, rfl, hst⟩
    · exact h.entries k i (State.dir_of_unlink hk)
  · refine (h.workers v).frame (fun k i hi => ⟨hi.lt, fun n hn => ?_, hi.key, nofun⟩)
      fun _ ho => ho
    rw [State.setRedo_dir, State.returned_dir] at hn
    rcases State.dir_of_link hn with ⟨-, rfl⟩ | ⟨-, hn⟩
    · cases hi.only _ hj
    · exact hi.only n (State.dir_of_unlink hn)
  · by_cases hke : k = e.key
    · exact ⟨j, hke ▸ State.link_dir_self⟩
    · rcases List.mem_cons.mp hk with rfl | hk
      · exact absurd rfl hke
      · obtain ⟨i, hi⟩ := h.enqueued k hk ho
        refine ⟨i, ?_⟩
        have hne : FileName.entry k ≠ .entry e.key := fun heq => hke (FileName.entry.inj heq)
        rw [State.setRedo_dir, State.returned_dir, State.link_dir_of_ne hne,
          State.unlink_dir_of_ne FileName.entry_ne_tmp]
        exact hi

/-- The redo goes on, with the disk as it is. -/
theorem setRedo {r : RedoPc} (h : Queue allowed s) (hr : Writes s allowed r)
    (hin : r.inFlight = none) : Queue allowed (s.setRedo r) := by
  refine h.same_disk rfl rfl rfl hr (fun p hp => ?_) h.workers h.enqueued fun _ ho => ho
  rw [State.setRedo_redo, hin] at hp
  cases hp

theorem returned (h : Queue allowed s) (hi : s.dir (.entry k) = some i) :
    Queue allowed (s.returned k) := by
  refine h.same_disk rfl rfl rfl h.redo (fun _ hp => hp) h.workers (fun k' hk' ho => ?_)
    fun _ ho => ho
  rcases List.mem_cons.mp hk' with rfl | hk'
  · exact ⟨i, hi⟩
  · exact h.enqueued k' hk' ho

theorem redoStep (h : Queue allowed s) (hs : FetchQueue.redoStep s = some s') :
    Queue allowed s' := by
  have ho := h.redo
  unfold FetchQueue.redoStep at hs
  split at hs
  case h_1 e hr =>
    rw [hr] at ho
    split at hs
    · rename_i i hi
      cases hs
      exact (h.returned hi).setRedo trivial rfl
    · rename_i hk
      cases hs
      exact h.setRedo ⟨ho, hk⟩ rfl
  case h_2 e hr =>
    split at hs
    · rename_i i hi
      cases hs
      exact h.truncate hr hi
    · cases hs
      exact h.create hr
  case h_3 e i hr =>
    cases hs
    exact h.complete hr
  case h_4 e i hr =>
    split at hs
    · rename_i j hj
      cases hs
      exact h.rename hr hj
    · cases hs
      exact h.setRedo trivial rfl
  case h_5 => cases hs
  case h_6 => cases hs

theorem workerStep (hp : allowed .pending) (hf : allowed .fetching) (h : Queue allowed s)
    (hs : FetchQueue.workerStep s w = some s') : Queue allowed s' := by
  have hc := h.workers w
  unfold FetchQueue.workerStep at hs
  split at hs
  case h_1 k i hw =>
    rw [hw] at hc
    split at hs
    · rename_i e he
      split at hs
      · cases hs
        exact h.goto ⟨hc, hc.key_eq he⟩
      · cases hs
        exact h.goto trivial
    · cases hs
      exact h.goto trivial
  case h_2 k i e hw =>
    rw [hw] at hc
    cases hs
    exact (h.write (e := { e with status := .pending }) hc.1 hc.2 hp).goto trivial
  case h_3 hw =>
    cases hs
    exact h.goto trivial
  case h_4 k i hw =>
    rw [hw] at hc
    split at hs
    · cases hs
      exact h.setLock.goto ⟨hc.lt, hc.only, hc.key, hc.apart⟩
    · cases hs
      exact h.goto trivial
  case h_5 k i hw =>
    rw [hw] at hc
    split at hs
    · rename_i e he
      split at hs
      · cases hs
        exact h.goto ⟨hc, hc.key_eq he⟩
      · cases hs
        exact h.setLock.goto trivial
    · cases hs
      exact h.setLock.goto trivial
  case h_6 k i e hw =>
    rw [hw] at hc
    cases hs
    exact (h.write (e := { e with status := .fetching }) hc.1 hc.2 hf).goto hc.2
  case h_7 k i e hw =>
    rw [hw] at hc
    cases hs
    exact h.setLock.goto hc
  case h_8 k hw =>
    rw [hw] at hc
    cases hs
    refine Queue.goto (h.unlink fun k' heq => ?_) trivial
    cases heq
    exact hc
  case h_9 k hw =>
    rw [hw] at hc
    split at hs
    · rename_i i hi
      cases hs
      exact h.goto ⟨hc, h.opened hi⟩
    · cases hs
      exact h.goto trivial
  case h_10 k i hw =>
    rw [hw] at hc
    split at hs
    · rename_i e he
      cases hs
      exact h.goto ⟨hc.1, hc.2, hc.2.key_eq he⟩
    · cases hs
      exact h.goto trivial
  case h_11 k i e hw =>
    rw [hw] at hc
    cases hs
    exact (h.write (e := { e with status := .failed }) hc.2.1 hc.2.2 hc.1).goto trivial
  all_goals cases hs

/-- One step, where a failed fetch needs that entries are allowed to fail. -/
theorem step {a : Action} (hp : allowed .pending) (hf : allowed .fetching) (h : Queue allowed s)
    (ha : ∀ w, a = .fetchFailed w → allowed .failed) (hs : FetchQueue.step s a = some s') :
    Queue allowed s' := by
  cases a with
  | enqueue k lsn trailer =>
      simp only [FetchQueue.step, Option.ite_none_right_eq_some] at hs
      obtain ⟨-, hs⟩ := hs
      cases hs
      exact h.setRedo hp rfl
  | redo => exact h.redoStep hs
  | start w =>
      simp only [FetchQueue.step, Option.ite_none_right_eq_some] at hs
      obtain ⟨-, hs⟩ := hs
      cases hs
      by_cases hw : w = 0
      · rw [if_pos hw]
        exact h.goto trivial
      · rw [if_neg hw]
        exact h.goto trivial
  | exit w =>
      cases hs
      refine Queue.goto ?_ trivial
      exact h.same_disk rfl rfl rfl h.redo (fun _ hp => hp) h.workers h.enqueued fun _ ho => ho
  | crash =>
      cases hs
      exact h.same_disk rfl rfl rfl trivial (fun p hp => (Option.some_ne_none p hp.symm).elim)
        (fun _ => trivial) h.enqueued fun _ ho => ho
  | readDir w n =>
      simp only [FetchQueue.step] at hs
      split at hs
      case h_1 k hw =>
        cases hs
        exact h.unlink fun _ heq => (FileName.entry_ne_tmp heq.symm).elim
      case h_2 k hw =>
        split at hs
        · rename_i i hi
          cases hs
          exact h.goto (h.opened hi)
        · cases hs
          exact h
      case h_3 =>
        cases hs
        exact h
      case h_4 k hw =>
        split at hs
        · rename_i i hi
          cases hs
          exact h.goto (h.opened hi)
        · cases hs
          exact h
      case h_5 => cases hs
  | readDirEnd w =>
      simp only [FetchQueue.step] at hs
      split at hs
      · cases hs
        exact h.goto trivial
      · cases hs
        exact h.goto trivial
      · cases hs
  | worker w => exact h.workerStep hp hf hs
  | noTrailer w =>
      simp only [FetchQueue.step] at hs
      split at hs
      · cases hs
        exact h.setLock.goto trivial
      · cases hs
  | fetched w o =>
      have hc := h.workers w
      simp only [FetchQueue.step] at hs
      split at hs
      case h_1 k e hw =>
        rw [hw] at hc
        cases hs
        refine h.ended.goto ?_
        obtain rfl : e.key = k := hc
        exact Option.ne_none_iff_exists'.mpr ⟨o, Function.update_self ..⟩
      case h_2 => cases hs
  | fetchFailed w =>
      simp only [FetchQueue.step] at hs
      split at hs
      · cases hs
        exact h.goto (ha w rfl)
      · cases hs

end Queue

/-- Worker 0 demotes an entry that is fetching when it restarts. -/
theorem returns_of_fetching (h : Linked s k i .fetching) : Returns s k := by
  obtain ⟨e, he, hst⟩ := h.status
  refine ⟨_, .inr (by simp [restart, step, workerStep, h.dir, he, hst]; rfl), i, ?_, ?_⟩
  · exact h.dir
  · exact ⟨{ e with status := .pending }, Function.update_self .., rfl⟩

section Demo

/-- Worker 1 dies with the entry in its hands. -/
def demoDies : List Action :=
  demoEnqueue demoKey ++ [.start 1] ++ demoPop 1 demoKey ++ [.exit 1]

/-- The files cannot be pulled. -/
def demoFails : List Action :=
  demoEnqueue demoKey ++ [.start 1] ++ demoPop 1 demoKey ++
    [.fetchFailed 1, .worker 1, .worker 1, .worker 1]

instance (s : State) (a : Action) : Decidable (NeverFails s a) := by
  unfold NeverFails
  split <;> infer_instance

end Demo

end VectorLsm.FetchQueue
