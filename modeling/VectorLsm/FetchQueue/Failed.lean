import VectorLsm.FetchQueue.Kept

/-! # A failed entry

Once the entry of a key has failed and no worker has it open, nothing takes it up again: no pop,
no restart, no repeated enqueue.
-/

namespace VectorLsm.FetchQueue

open Transition

variable {s s' u : State} {w i j : ℕ} {k : FetchKey} {n : FileName} {pc : WorkerPc}
  {allowed : FetchStatus → Prop}

/-- The file a worker has open, before it has read the header. -/
def WorkerPc.opened : WorkerPc → Option (FetchKey × ℕ)
  | .sweepOpen k i | .popOpen k i | .popLocked k i => some (k, i)
  | _ => none

/-- The worker does not hold `k`, and a file it has open for `k` is the entry. -/
def Apart (s : State) (k : FetchKey) (pc : WorkerPc) : Prop :=
  pc.holds ≠ some k ∧ ∀ i, pc.opened = some (k, i) → s.dir (.entry k) = some i

theorem Apart.of_none (hh : pc.holds = none) (ho : pc.opened = none) : Apart s k pc := by
  constructor
  · intro hk
    rw [hh] at hk
    cases hk
  · intro i hi
    rw [ho] at hi
    cases hi

/-- The entry of `k` has failed and no worker holds it. -/
structure Blocked (s : State) (k : FetchKey) : Prop where
  failed : ∃ i, Linked s k i .failed
  apart : ∀ w, Apart s k (s.workers w)

namespace Blocked

theorem keep (h : Blocked s k) (hd : ∀ i, s.dir (.entry k) = some i → u.dir (.entry k) = some i)
    (hf : ∀ i, s.dir (.entry k) = some i → u.files i = s.files i)
    (hw : ∀ w, Apart s k (u.workers w)) : Blocked u k := by
  obtain ⟨i, hi⟩ := h.failed
  refine ⟨⟨i, hd i hi.dir, ?_⟩, fun w => ⟨(hw w).1, fun j hj => hd j ((hw w).2 j hj)⟩⟩
  rw [hf i hi.dir]
  exact hi.status

/-- A step that leaves the disk, and in which no worker takes the entry. -/
theorem same_disk (h : Blocked s k) (hd : u.dir = s.dir) (hf : u.files = s.files)
    (hw : ∀ w, Apart s k (u.workers w)) : Blocked u k :=
  h.keep (fun _ hi => hd ▸ hi) (fun _ _ => hf ▸ rfl) hw

theorem goto (h : Blocked s k) (hpc : Apart s k pc) : Blocked (s.goto w pc) k := by
  refine h.same_disk rfl rfl fun v => ?_
  by_cases hv : v = w
  · rw [hv, State.goto_workers, Function.update_self]
    exact hpc
  · rw [State.goto_workers, Function.update_of_ne hv]
    exact h.apart v

theorem setLock {v : Option ℕ} (h : Blocked s k) : Blocked (s.setLock i v) k :=
  h.same_disk rfl rfl h.apart

/-- A write of a file the entry does not lead to. -/
theorem write {e : Option FetchEntry} (h : Blocked s k) (hj : s.dir (.entry k) ≠ some j) :
    Blocked (s.write j e) k := by
  refine h.keep (fun _ hi => hi) (fun i hi => Function.update_of_ne ?_ ..) h.apart
  rintro rfl
  exact hj hi

theorem unlink (h : Blocked s k) (hn : n ≠ .entry k) : Blocked (s.unlink n) k :=
  h.keep (fun _ hi => (State.unlink_dir_of_ne hn.symm).trans hi) (fun _ _ => rfl) h.apart

theorem link (h : Blocked s k) (hn : n ≠ .entry k) : Blocked (s.link n j) k :=
  h.keep (fun _ hi => (State.link_dir_of_ne hn.symm).trans hi) (fun _ _ => rfl) h.apart

variable {k' : FetchKey}

/-- A descriptor of another entry leads to another file. -/
theorem other_file (hne : some k' ≠ some k) (hj : Opened s k' j) : s.dir (.entry k) ≠ some j := by
  intro hk
  exact hne (congrArg some (FileName.entry.inj (hj.only _ hk)).symm)

/-- The header that is read of the entry says `FAILED`. -/
theorem read_failed {e : FetchEntry} (h : Blocked s k) (hi : s.dir (.entry k) = some i)
    (he : s.files i = some e) : e.status = .failed := by
  obtain ⟨i', hl⟩ := h.failed
  exact (Linked.status_eq ⟨hi, e, he, rfl⟩ hl)

theorem redoStep (h : Blocked s k) (hq : Queue allowed s)
    (hs : FetchQueue.redoStep s = some s') : Blocked s' k := by
  have ho := hq.redo
  unfold FetchQueue.redoStep at hs
  split at hs
  case h_1 e hr =>
    split at hs
    · cases hs
      exact h.same_disk rfl rfl h.apart
    · cases hs
      exact h.same_disk rfl rfl h.apart
  case h_2 e hr =>
    split at hs
    · rename_i i hi
      cases hs
      have hwrite : Blocked (s.write i none) k :=
        h.write fun hk => nomatch hq.directory.inj _ _ _ hk hi
      exact hwrite.same_disk rfl rfl hwrite.apart
    · cases hs
      have hwrite : Blocked (s.write s.nextInode none) k :=
        h.write fun hk => (hq.directory.lt _ _ hk).ne rfl
      have hlink := hwrite.link (n := .tmp e.key) (j := s.nextInode) FileName.entry_ne_tmp.symm
      exact hlink.same_disk rfl rfl hlink.apart
  case h_3 e i hr =>
    rw [hr] at ho
    cases hs
    have hwrite : Blocked (s.write i (some e)) k := h.write fun hk => nomatch ho.2.only _ hk
    exact hwrite.same_disk rfl rfl hwrite.apart
  case h_4 e i hr =>
    rw [hr] at ho
    split at hs
    · rename_i j hj
      cases hs
      have hne : FileName.entry e.key ≠ .entry k := by
        intro heq
        obtain ⟨i₀, hi₀⟩ := h.failed
        have habsent := ho.2.1.absent
        rw [heq, hi₀.dir] at habsent
        cases habsent
      have hlink := (h.unlink (n := .tmp e.key) FileName.entry_ne_tmp.symm).link (j := j) hne
      exact hlink.same_disk rfl rfl hlink.apart
    · cases hs
      exact h.same_disk rfl rfl h.apart
  case h_5 => cases hs
  case h_6 => cases hs

theorem workerStep (h : Blocked s k) (hq : Queue allowed s)
    (hs : FetchQueue.workerStep s w = some s') : Blocked s' k := by
  have hc := hq.workers w
  have hu := h.apart w
  unfold FetchQueue.workerStep at hs
  split at hs
  case h_1 k' i hw =>
    rw [hw] at hu
    split at hs
    · rename_i e he
      split at hs
      · rename_i hst
        cases hs
        refine h.goto ⟨fun heq => ?_, nofun⟩
        cases heq
        have hfailed := h.read_failed (hu.2 i rfl) he
        rw [hst] at hfailed
        cases hfailed
      · cases hs
        exact h.goto (.of_none rfl rfl)
    · cases hs
      exact h.goto (.of_none rfl rfl)
  case h_2 k' i e hw =>
    rw [hw] at hc hu
    cases hs
    exact (h.write (other_file hu.1 hc.1)).goto (.of_none rfl rfl)
  case h_3 hw =>
    cases hs
    exact h.goto (.of_none rfl rfl)
  case h_4 k' i hw =>
    rw [hw] at hu
    split at hs
    · cases hs
      exact h.setLock.goto hu
    · cases hs
      exact h.goto (.of_none rfl rfl)
  case h_5 k' i hw =>
    rw [hw] at hu
    split at hs
    · rename_i e he
      split at hs
      · rename_i hst
        cases hs
        refine h.goto ⟨fun heq => ?_, nofun⟩
        cases heq
        have hfailed := h.read_failed (hu.2 i rfl) he
        rw [hst] at hfailed
        cases hfailed
      · cases hs
        exact h.setLock.goto (.of_none rfl rfl)
    · cases hs
      exact h.setLock.goto (.of_none rfl rfl)
  case h_6 k' i e hw =>
    rw [hw] at hc hu
    cases hs
    exact (h.write (other_file hu.1 hc.1)).goto hu
  case h_7 k' i e hw =>
    rw [hw] at hu
    cases hs
    exact h.setLock.goto hu
  case h_8 k' hw =>
    rw [hw] at hu
    cases hs
    refine (h.unlink fun heq => hu.1 ?_).goto (.of_none rfl rfl)
    cases heq
    rfl
  case h_9 k' hw =>
    rw [hw] at hu
    split at hs
    · cases hs
      exact h.goto hu
    · cases hs
      exact h.goto (.of_none rfl rfl)
  case h_10 k' i hw =>
    rw [hw] at hu
    split at hs
    · cases hs
      exact h.goto hu
    · cases hs
      exact h.goto (.of_none rfl rfl)
  case h_11 k' i e hw =>
    rw [hw] at hc hu
    cases hs
    exact (h.write (other_file hu.1 hc.2.1)).goto (.of_none rfl rfl)
  all_goals cases hs

theorem step {a : Action} (h : Blocked s k) (hq : Queue allowed s)
    (hs : FetchQueue.step s a = some s') : Blocked s' k := by
  cases a with
  | enqueue k' lsn trailer =>
      simp only [FetchQueue.step, Option.ite_none_right_eq_some] at hs
      obtain ⟨-, hs⟩ := hs
      cases hs
      exact h.same_disk rfl rfl h.apart
  | redo => exact h.redoStep hq hs
  | start w =>
      simp only [FetchQueue.step, Option.ite_none_right_eq_some] at hs
      obtain ⟨-, hs⟩ := hs
      cases hs
      by_cases hw : w = 0
      · rw [if_pos hw]
        exact h.goto (.of_none rfl rfl)
      · rw [if_neg hw]
        exact h.goto (.of_none rfl rfl)
  | exit w =>
      cases hs
      refine goto ?_ (.of_none rfl rfl)
      exact h.same_disk rfl rfl h.apart
  | crash =>
      cases hs
      exact h.same_disk rfl rfl fun _ => .of_none rfl rfl
  | readDir w n =>
      simp only [FetchQueue.step] at hs
      split at hs
      case h_1 k' hw =>
        cases hs
        exact h.unlink FileName.entry_ne_tmp.symm
      case h_2 k' hw =>
        split at hs
        · rename_i i hi
          cases hs
          refine h.goto ⟨(Option.some_ne_none k).symm, fun j hj => ?_⟩
          cases hj
          exact hi
        · cases hs
          exact h
      case h_3 =>
        cases hs
        exact h
      case h_4 k' hw =>
        split at hs
        · rename_i i hi
          cases hs
          refine h.goto ⟨(Option.some_ne_none k).symm, fun j hj => ?_⟩
          cases hj
          exact hi
        · cases hs
          exact h
      case h_5 => cases hs
  | readDirEnd w =>
      simp only [FetchQueue.step] at hs
      split at hs
      · cases hs
        exact h.goto (.of_none rfl rfl)
      · cases hs
        exact h.goto (.of_none rfl rfl)
      · cases hs
  | worker w => exact h.workerStep hq hs
  | noTrailer w =>
      simp only [FetchQueue.step] at hs
      split at hs
      · cases hs
        exact h.setLock.goto (.of_none rfl rfl)
      · cases hs
  | fetched w o =>
      have hu := h.apart w
      simp only [FetchQueue.step] at hs
      split at hs
      case h_1 k' e hw =>
        rw [hw] at hu
        cases hs
        have hended : Blocked (s.ended e.key o) k := h.same_disk rfl rfl h.apart
        exact hended.goto hu
      case h_2 => cases hs
  | fetchFailed w =>
      have hu := h.apart w
      simp only [FetchQueue.step] at hs
      split at hs
      case h_1 k' e hw =>
        rw [hw] at hu
        cases hs
        exact h.goto hu
      case h_2 => cases hs

theorem run (h : Blocked s k) (hq : Queue allowed s) (hp : allowed .pending)
    (hf : allowed .fetching) (hfail : allowed .failed) {as : List Action}
    (hs : exec FetchQueue.step s as = some s') : Blocked s' k := by
  induction as generalizing s with
  | nil =>
      cases hs
      exact h
  | cons a as ih =>
      obtain ⟨u, hu, hs⟩ := Option.bind_eq_some_iff.mp hs
      exact ih (h.step hq hu) (hq.step hp hf (fun _ _ => hfail) hu) hs

/-- The entry is neither in the queue as pending nor held, and does not return at a restart. -/
theorem not_kept (h : Blocked s k) (hq : Queue allowed s) (hp : allowed .pending)
    (hf : allowed .fetching) (hfail : allowed .failed) :
    ¬ (Pending s k ∨ (∃ w, (s.workers w).processing = some k) ∨ Returns s k) := by
  have hnot : ∀ {u}, Blocked u k → ¬ Pending u k := by
    rintro u hu ⟨i, hi⟩
    obtain ⟨j, hj⟩ := hu.failed
    cases hi.status_eq hj
  rintro (hpend | ⟨w, hw⟩ | ⟨s', hs | hs, hpend⟩)
  · exact hnot h hpend
  · exact (h.apart w).1 (WorkerPc.holds_of_processing hw)
  · exact hnot (h.run hq hp hf hfail hs) hpend
  · exact hnot (h.run hq hp hf hfail hs) hpend

end Blocked

/-- A key whose fetch has failed is out of reach of every retry, restart and repeated enqueue. -/
theorem failed_for_good (h : Reachable Init step anyStep s) (hb : Blocked s k) {as : List Action}
    (hs : exec step s as = some s') :
    ¬ (Pending s' k ∨ (∃ w, (s'.workers w).processing = some k) ∨ Returns s' k) := by
  have hall : ∀ {u}, Reachable Init step anyStep u → Queue (fun _ => True) u := fun hu =>
    hu.invariant (fun _ => Queue.init) fun _ _ _ _ hi _ hs =>
      hi.step trivial trivial (fun _ _ => trivial) hs
  have hb' : Blocked s' k := hb.run (hall h) trivial trivial trivial hs
  exact hb'.not_kept (hall (h.of_exec (meets_anyStep _) hs)) trivial trivial trivial

end VectorLsm.FetchQueue
