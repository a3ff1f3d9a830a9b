import VectorLsm.FetchQueue.Machine

/-! # Exclusive processing

No entry is processed by two live workers and no temporary file of an enqueue in flight is
removed, as long as the sweep of worker 0 meets neither of the two.
-/

namespace VectorLsm.FetchQueue

open Transition

variable {s s' : State} {w w' i j : ℕ} {k : FetchKey} {n : FileName} {pc : WorkerPc}
  {st : FetchStatus}

structure Exclusive (s : State) : Prop where
  one : ∀ w w' k, (s.workers w).processing = some k → (s.workers w').processing = some k → w = w'
  kept : ∀ k i, s.redo.inFlight = some (k, i) → s.dir (.tmp k) = some i

/-- The condition on a step: the temporary file that a sweep removes is not that of the enqueue in
flight, and an entry that it reads as `FETCHING` is still in the directory and processed by no
live worker. -/
def SweepsAlone (s : State) : Action → Prop
  | .readDir w (.tmp k) => s.workers w = .sweep → ∀ i, s.redo.inFlight ≠ some (k, i)
  | .worker w =>
      ∀ k i e, s.workers w = .sweepOpen k i → s.files i = some e → e.status = .fetching →
        s.dir (.entry k) = some i ∧ ∀ w', (s.workers w').processing ≠ some k
  | _ => True

/-- The entry of `k` is the file `i`, with status `st`. -/
structure Linked (s : State) (k : FetchKey) (i : ℕ) (st : FetchStatus) : Prop where
  dir : s.dir (.entry k) = some i
  status : ∃ e, s.files i = some e ∧ e.status = st

/-- A file that was opened as the entry of `k`. It has no other name, and if it has lost this one,
it was not pending. -/
structure Descriptor (s : State) (k : FetchKey) (i : ℕ) : Prop where
  lt : i < s.nextInode
  only : ∀ n, s.dir n = some i → n = .entry k
  lost : s.dir (.entry k) ≠ some i → ∀ e, s.files i = some e → e.status ≠ .pending

/-- The entry a worker holds, from the header it has read to its last write. -/
def WorkerPc.holds : WorkerPc → Option FetchKey
  | .sweepWrite k _ _ | .popRead k _ _ | .popped k _ _ | .fetching k _ | .done k | .failing k
  | .failOpen k _ | .failRead k _ _ => some k
  | _ => none

theorem WorkerPc.holds_of_processing (h : pc.processing = some k) : pc.holds = some k := by
  cases pc <;> first | exact h | cases h

/-- What a worker relies on, by its place. -/
def Tracks (s : State) (w : ℕ) : WorkerPc → Prop
  | .sweep | .sweepOpen _ _ => w = 0
  | .sweepWrite k i _ => w = 0 ∧ Linked s k i .fetching
  | .popOpen k i => Descriptor s k i
  | .popLocked k i => Descriptor s k i ∧ s.lock i = some w
  | .popRead k i _ => Linked s k i .pending ∧ s.lock i = some w
  | .popped k i _ => Linked s k i .fetching ∧ s.lock i = some w
  | .fetching k _ | .done k | .failing k => ∃ i, Linked s k i .fetching
  | .failOpen k i | .failRead k i _ => Linked s k i .fetching
  | .down | .idle | .pop => True

/-- What the enqueue in flight relies on. -/
def Enqueuing (s : State) : RedoPc → Prop
  | .opening e => s.dir (.entry e.key) = none
  | .writing e i | .renaming e i => s.dir (.entry e.key) = none ∧ s.dir (.tmp e.key) = some i
  | .idle | .check _ | .raised => True

theorem Enqueuing.tmp {r : RedoPc} (h : Enqueuing s r) (hi : r.inFlight = some (k, i)) :
    s.dir (.tmp k) = some i := by
  match r, h, hi with
  | .writing _ _, h, rfl | .renaming _ _, h, rfl => exact h.2

structure Inv (s : State) : Prop where
  directory : Directory s
  enqueuing : Enqueuing s s.redo
  tracks : ∀ w, Tracks s w (s.workers w)
  one : ∀ w w' k, (s.workers w).holds = some k → (s.workers w').holds = some k → w = w'

section Frames

theorem Linked.status_eq {st' : FetchStatus} (h : Linked s k i st) (h' : Linked s k j st') :
    st = st' := by
  obtain rfl : i = j := Option.some.inj (h.dir.symm.trans h'.dir)
  obtain ⟨e, he, rfl⟩ := h.status
  obtain ⟨e', he', rfl⟩ := h'.status
  obtain rfl : e = e' := Option.some.inj (he.symm.trans he')
  rfl

/-- A write of a file by another name leaves the entry. -/
theorem Linked.write {e : Option FetchEntry} (h : Linked s k i st) (hd : Directory s)
    (hn : s.dir n = some j) (hne : n ≠ .entry k) : Linked (s.write j e) k i st := by
  have hij : i ≠ j := by
    rintro rfl
    exact hne (hd.inj _ _ _ hn h.dir)
  refine ⟨h.dir, ?_⟩
  rw [State.write_files, Function.update_of_ne hij]
  exact h.status

theorem Linked.rewrite (h : Linked s k i st) (e : FetchEntry) :
    Linked (s.write i (some e)) k i e.status :=
  ⟨h.dir, e, Function.update_self .., rfl⟩

/-- Where a descriptor leads to a file that has a name, it is the entry. -/
theorem Descriptor.write {e : Option FetchEntry} (h : Descriptor s k i) (hn : s.dir n = some j) :
    Descriptor (s.write j e) k i := by
  refine ⟨h.lt, h.only, fun hne => ?_⟩
  rw [State.write_dir] at hne
  have hij : i ≠ j := by
    rintro rfl
    obtain rfl := h.only n hn
    exact hne hn
  rw [State.write_files, Function.update_of_ne hij]
  exact h.lost hne

theorem Descriptor.unlink (h : Descriptor s k i)
    (hn : n = .entry k → s.dir (.entry k) = some i →
      ∀ e, s.files i = some e → e.status ≠ .pending) :
    Descriptor (s.unlink n) k i := by
  refine ⟨h.lt, fun m hm => ?_, fun hne => ?_⟩
  · exact h.only m (State.dir_of_unlink hm)
  · by_cases hk : s.dir (.entry k) = some i
    · refine hn ?_ hk
      by_contra hnk
      rw [State.unlink_dir_of_ne (Ne.symm hnk)] at hne
      exact hne hk
    · exact h.lost hk

/-- A file that has a name keeps it out of reach of the descriptors of other entries. -/
theorem Descriptor.link (h : Descriptor s k i) (hij : i ≠ j) (hfree : s.dir n = none) :
    Descriptor (s.link n j) k i := by
  refine ⟨h.lt, fun m hm => ?_, fun hne => h.lost fun hk => hne ?_⟩
  · rcases State.dir_of_link hm with ⟨-, heq⟩ | ⟨-, hm⟩
    · exact absurd heq hij
    · exact h.only m hm
  · rw [State.link_dir_of_ne, hk]
    rintro rfl
    rw [hk] at hfree
    cases hfree

/-- What a worker relies on is kept when the entry it holds, the descriptors and its own locks
are. -/
theorem Tracks.frame (h : Tracks s w pc)
    (hlink : ∀ k i st, pc.holds = some k → Linked s k i st → Linked s' k i st)
    (hdesc : ∀ k i, Descriptor s k i → Descriptor s' k i)
    (hlock : ∀ i, s.lock i = some w → s'.lock i = some w) : Tracks s' w pc := by
  cases pc with
  | down | idle | pop => trivial
  | sweep | sweepOpen => exact h
  | sweepWrite k i e => exact ⟨h.1, hlink k i _ rfl h.2⟩
  | popOpen k i => exact hdesc k i h
  | popLocked k i => exact ⟨hdesc k i h.1, hlock i h.2⟩
  | popRead k i e => exact ⟨hlink k i _ rfl h.1, hlock i h.2⟩
  | popped k i e => exact ⟨hlink k i _ rfl h.1, hlock i h.2⟩
  | fetching k e | done k | failing k =>
      obtain ⟨i, hi⟩ := h
      exact ⟨i, hlink k i _ rfl hi⟩
  | failOpen k i | failRead k i e => exact hlink k i _ rfl h

theorem Tracks.write {e : Option FetchEntry} (h : Tracks s w pc) (hd : Directory s)
    (hn : s.dir n = some j) (hne : ∀ k, pc.holds = some k → n ≠ .entry k) :
    Tracks (s.write j e) w pc :=
  h.frame (fun k _ _ hk hl => hl.write hd hn (hne k hk)) (fun _ _ hd => hd.write hn)
    fun _ hl => hl

theorem Tracks.setLock {v : Option ℕ} (h : Tracks s w pc) (hj : s.lock j ≠ some w) :
    Tracks (s.setLock j v) w pc := by
  refine h.frame (fun _ _ _ _ hl => ⟨hl.dir, hl.status⟩) (fun _ _ hd => ⟨hd.lt, hd.only, hd.lost⟩)
    fun i hi => ?_
  rw [State.setLock_lock, Function.update_of_ne, hi]
  rintro rfl
  exact hj hi

/-- A worker that removes the entry it holds takes it from no other worker. -/
theorem Tracks.unlink (h : Tracks s w pc) (hne : ∀ k, pc.holds = some k → n ≠ .entry k)
    (hn : ∀ k i, n = .entry k → s.dir (.entry k) = some i →
      ∀ e, s.files i = some e → e.status ≠ .pending) : Tracks (s.unlink n) w pc := by
  refine h.frame (fun k i st hk hl => ⟨?_, hl.status⟩) (fun k i hd => hd.unlink (hn k i))
    fun _ hl => hl
  rw [State.unlink_dir_of_ne (Ne.symm (hne k hk))]
  exact hl.dir

theorem Tracks.congr (h : Tracks s w pc) (hd : s'.dir = s.dir) (hf : s'.files = s.files)
    (hl : s'.lock = s.lock) (hn : s'.nextInode = s.nextInode) : Tracks s' w pc := by
  refine h.frame (fun k i st _ hk => ⟨?_, ?_⟩) (fun k i hk => ⟨?_, ?_, ?_⟩) fun i hi => ?_
  · rw [hd]
    exact hk.dir
  · rw [hf]
    exact hk.status
  · rw [hn]
    exact hk.lt
  · rw [hd]
    exact hk.only
  · rw [hd, hf]
    exact hk.lost
  · rw [hl]
    exact hi

/-- A new temporary file is out of reach of the workers. -/
theorem Tracks.create {e : Option FetchEntry} (h : Tracks s w pc) (hd : Directory s)
    (hfree : s.dir (.tmp k) = none) :
    Tracks ((s.write s.nextInode e).link (.tmp k) s.nextInode).allocInode w pc := by
  refine h.frame (fun k' i st _ hl => ⟨?_, ?_⟩) (fun k' i hk => ?_) fun _ hl => hl
  · rw [State.allocInode_dir, State.link_dir_of_ne FileName.entry_ne_tmp]
    exact hl.dir
  · obtain ⟨e', he', hst⟩ := hl.status
    exact ⟨e', (Function.update_of_ne (hd.lt _ _ hl.dir).ne ..).trans he', hst⟩
  · have hne : i ≠ s.nextInode := hk.lt.ne
    have hwrite : Descriptor (s.write s.nextInode e) k' i := by
      refine ⟨hk.lt, hk.only, fun hlost e' he' => hk.lost hlost e' ?_⟩
      rwa [State.write_files, Function.update_of_ne hne] at he'
    have hlink := hwrite.link hne hfree
    exact ⟨Nat.lt_succ_of_lt hlink.lt, hlink.only, hlink.lost⟩

theorem Tracks.rename (h : Tracks s w pc) (hfree : s.dir (.entry k) = none)
    (hj : s.dir (.tmp k) = some j) : Tracks ((s.unlink (.tmp k)).link (.entry k) j) w pc := by
  refine h.frame (fun k' i st _ hl => ⟨?_, hl.status⟩) (fun k' i hk => ?_) fun _ hl => hl
  · have hne : FileName.entry k' ≠ .entry k := by
      intro heq
      rw [← heq, hl.dir] at hfree
      cases hfree
    rw [State.link_dir_of_ne hne, State.unlink_dir_of_ne FileName.entry_ne_tmp]
    exact hl.dir
  · have hij : i ≠ j := by
      rintro rfl
      exact nomatch hk.only _ hj
    have hun : Descriptor (s.unlink (.tmp k)) k' i := hk.unlink fun heq => nomatch heq
    refine hun.link hij ?_
    rw [State.unlink_dir_of_ne FileName.entry_ne_tmp]
    exact hfree

/-- The temporary file of the enqueue in flight is kept, and no entry appears. -/
theorem Enqueuing.unlink {r : RedoPc} (h : Enqueuing s r)
    (hn : ∀ k i, n = .tmp k → r.inFlight ≠ some (k, i)) : Enqueuing (s.unlink n) r := by
  have hentry : ∀ k, s.dir (.entry k) = none → (s.unlink n).dir (.entry k) = none := by
    intro k hk
    by_cases hkn : FileName.entry k = n
    · rw [hkn]
      exact State.unlink_dir_self
    · rw [State.unlink_dir_of_ne hkn]
      exact hk
  match r, h, hn with
  | .opening e, h, _ => exact hentry _ h
  | .writing e i, h, hn | .renaming e i, h, hn =>
      refine ⟨hentry _ h.1, ?_⟩
      rw [State.unlink_dir_of_ne fun heq => hn e.key i heq.symm rfl]
      exact h.2
  | .idle, _, _ | .check _, _, _ | .raised, _, _ => trivial

theorem Directory.descriptor (h : Directory s) (hi : s.dir (.entry k) = some i) :
    Descriptor s k i :=
  ⟨h.lt _ _ hi, fun n hn => h.inj n _ i hn hi, fun hne => absurd hi hne⟩

end Frames

namespace Inv

theorem init (h : Init s) : Inv s where
  directory := by
    constructor
    · intro n i hn
      rw [h.dir n] at hn
      cases hn
    · intro n m i hn
      rw [h.dir n] at hn
      cases hn
  enqueuing := by
    rw [h.redo]
    trivial
  tracks w := by
    rw [h.workers w]
    trivial
  one w _ k hw := by
    rw [h.workers w] at hw
    cases hw

theorem toExclusive (h : Inv s) : Exclusive s where
  one w w' k hw hw' :=
    h.one w w' k (WorkerPc.holds_of_processing hw) (WorkerPc.holds_of_processing hw')
  kept _ _ hi := h.enqueuing.tmp hi

variable {u : State}

theorem others (h : Inv s) (hk : (s.workers w).holds = some k) (hne : w' ≠ w) :
    (s.workers w').holds ≠ some k :=
  fun hk' => hne (h.one w' w k hk' hk)

/-- Worker `w` goes to `pc`, behind a change of the disk that leaves the other workers what they
rely on. -/
theorem goto (h : Inv s) (hd : Directory u) (he : Enqueuing u u.redo)
    (hw : u.workers = s.workers)
    (hframe : ∀ v, v ≠ w → Tracks s v (s.workers v) → Tracks u v (s.workers v))
    (ht : Tracks u w pc)
    (hone : ∀ k, pc.holds = some k → ∀ v, v ≠ w → (s.workers v).holds ≠ some k) :
    Inv (u.goto w pc) where
  directory := ⟨hd.lt, hd.inj⟩
  enqueuing := he
  tracks v := by
    by_cases hv : v = w
    · rw [hv, State.goto_workers, Function.update_self]
      exact ht.frame (fun _ _ _ _ hl => ⟨hl.dir, hl.status⟩)
        (fun _ _ hd => ⟨hd.lt, hd.only, hd.lost⟩) fun _ hl => hl
    · rw [State.goto_workers, Function.update_of_ne hv, hw]
      exact (hframe v hv (h.tracks v)).frame (fun _ _ _ _ hl => ⟨hl.dir, hl.status⟩)
        (fun _ _ hd => ⟨hd.lt, hd.only, hd.lost⟩) fun _ hl => hl
  one v v' k hv hv' := by
    rw [State.goto_workers, hw] at hv hv'
    by_cases hvw : v = w <;> by_cases hvw' : v' = w
    · rw [hvw, hvw']
    · rw [hvw, Function.update_self] at hv
      rw [Function.update_of_ne hvw'] at hv'
      exact absurd hv' (hone k hv v' hvw')
    · rw [hvw', Function.update_self] at hv'
      rw [Function.update_of_ne hvw] at hv
      exact absurd hv (hone k hv' v hvw)
    · rw [Function.update_of_ne hvw] at hv
      rw [Function.update_of_ne hvw'] at hv'
      exact h.one v v' k hv hv'

/-- A worker that leaves the disk and takes no entry. -/
theorem move (h : Inv s) (ht : Tracks s w pc)
    (hk : pc.holds = none ∨ pc.holds = (s.workers w).holds) : Inv (s.goto w pc) := by
  refine h.goto h.directory h.enqueuing rfl (fun _ _ hv => hv) ht fun k hpc v hv => ?_
  rcases hk with hk | hk
  · rw [hk] at hpc
    cases hpc
  · exact h.others (hk ▸ hpc) hv

/-- A worker that releases or takes a lock none of the others has, and takes no entry. -/
theorem relock {v : Option ℕ} (h : Inv s) (hl : s.lock i = none ∨ s.lock i = some w)
    (ht : Tracks (s.setLock i v) w pc)
    (hk : pc.holds = none ∨ pc.holds = (s.workers w).holds) :
    Inv ((s.setLock i v).goto w pc) := by
  refine h.goto ⟨h.directory.lt, h.directory.inj⟩ h.enqueuing rfl (fun v hv ht => ht.setLock ?_) ht
    fun k hpc v hv => ?_
  · intro hlv
    rcases hl with hl | hl
    · rw [hl] at hlv
      cases hlv
    · exact hv (Option.some.inj (hlv.symm.trans hl))
  · rcases hk with hk | hk
    · rw [hk] at hpc
      cases hpc
    · exact h.others (hk ▸ hpc) hv

/-- A worker that rewrites the entry it holds. -/
theorem rewrite {e : FetchEntry} (h : Inv s) (hw : (s.workers w).holds = some k)
    (hl : Linked s k i st) (ht : Tracks (s.write i (some e)) w pc)
    (hk : pc.holds = none ∨ pc.holds = some k) : Inv ((s.write i (some e)).goto w pc) := by
  refine h.goto ⟨h.directory.lt, h.directory.inj⟩ h.enqueuing rfl
    (fun v hv ht => ht.write h.directory hl.dir fun k' hk' heq => ?_) ht fun k' hpc v hv => ?_
  · cases heq
    exact h.others hw hv hk'
  · rcases hk with hk | hk
    · rw [hk] at hpc
      cases hpc
    · rw [hk] at hpc
      cases hpc
      exact h.others hw hv

/-- A worker that unlinks the entry it holds, which is not pending. -/
theorem remove (h : Inv s) (hl : Linked s k i .fetching) (hw : (s.workers w).holds = some k) :
    Inv ((s.unlink (.entry k)).goto w .idle) := by
  refine h.goto h.directory.unlink (h.enqueuing.unlink nofun) rfl (fun v hv ht => ?_) trivial
    fun _ hk => nomatch hk
  refine ht.unlink (fun k' hk' heq => ?_) fun k' j heq hj e he hp => ?_
  · cases heq
    exact h.others hw hv hk'
  · cases heq
    have hpending : Linked s k j .pending := ⟨hj, e, he, hp⟩
    cases hpending.status_eq hl

/-- A step of the redo, which leaves what the workers rely on. -/
theorem enqueue {r : RedoPc} (h : Inv s) (hd : Directory u) (he : Enqueuing u r)
    (hw : u.workers = s.workers) (hframe : ∀ v pc, Tracks s v pc → Tracks u v pc) :
    Inv (u.setRedo r) where
  directory := ⟨hd.lt, hd.inj⟩
  enqueuing := he
  tracks v := by
    rw [State.setRedo_workers, hw]
    exact (hframe v _ (h.tracks v)).congr rfl rfl rfl rfl
  one v v' k hv hv' := by
    rw [State.setRedo_workers, hw] at hv hv'
    exact h.one v v' k hv hv'

theorem redoStep (h : Inv s) (hs : FetchQueue.redoStep s = some s') : Inv s' := by
  have he := h.enqueuing
  have hd := h.directory
  unfold FetchQueue.redoStep at hs
  split at hs
  case h_1 e hr =>
    split at hs
    · cases hs
      exact h.enqueue ⟨hd.lt, hd.inj⟩ trivial rfl fun _ _ ht => ht.congr rfl rfl rfl rfl
    · rename_i hk
      cases hs
      exact h.enqueue hd hk rfl fun _ _ ht => ht
  case h_2 e hr =>
    rw [hr] at he
    split at hs
    · rename_i i hi
      cases hs
      exact h.enqueue ⟨hd.lt, hd.inj⟩ ⟨he, hi⟩ rfl fun _ _ ht => ht.write hd hi fun _ _ => nofun
    · rename_i hi
      cases hs
      have hlink : Directory (s.allocInode.link (.tmp e.key) s.nextInode) := by
        refine Directory.link ⟨fun n i hn => ?_, hd.inj⟩ (Nat.lt_succ_self _) fun n hn => ?_
        · exact Nat.lt_succ_of_lt (hd.lt n i hn)
        · exact (hd.lt n _ hn).ne rfl
      refine h.enqueue ⟨hlink.lt, hlink.inj⟩ ⟨?_, State.link_dir_self⟩ rfl
        fun _ _ ht => ht.create hd hi
      rw [State.allocInode_dir, State.link_dir_of_ne FileName.entry_ne_tmp]
      exact he
  case h_3 e i hr =>
    rw [hr] at he
    cases hs
    exact h.enqueue ⟨hd.lt, hd.inj⟩ he rfl fun _ _ ht => ht.write hd he.2 fun _ _ => nofun
  case h_4 e i hr =>
    rw [hr] at he
    split at hs
    · rename_i j hj
      cases hs
      have hlink : Directory ((s.unlink (.tmp e.key)).link (.entry e.key) j) := by
        refine hd.unlink.link (hd.lt _ _ hj) fun n hn => ?_
        cases hd.inj _ _ _ (State.dir_of_unlink hn) hj
        rw [State.unlink_dir_self] at hn
        cases hn
      exact h.enqueue ⟨hlink.lt, hlink.inj⟩ trivial rfl fun _ _ ht =>
        (ht.rename he.1 hj).congr rfl rfl rfl rfl
    · cases hs
      exact h.enqueue hd trivial rfl fun _ _ ht => ht
  case h_5 => cases hs
  case h_6 => cases hs

/-- A worker that holds an entry knows its file and status. -/
theorem linked_of_holds (h : Inv s) (hk : (s.workers w).holds = some k) :
    (∃ i, Linked s k i .fetching) ∨ ∃ i, Linked s k i .pending ∧ s.lock i = some w := by
  have ht := h.tracks w
  cases hpc : s.workers w with
  | popRead k' i e =>
      rw [hpc] at ht hk
      cases hk
      exact .inr ⟨i, ht⟩
  | sweepWrite k' i e =>
      rw [hpc] at ht hk
      cases hk
      exact .inl ⟨i, ht.2⟩
  | popped k' i e =>
      rw [hpc] at ht hk
      cases hk
      exact .inl ⟨i, ht.1⟩
  | fetching k' e | done k' | failing k' =>
      rw [hpc] at ht hk
      cases hk
      exact .inl ht
  | failOpen k' i | failRead k' i e =>
      rw [hpc] at ht hk
      cases hk
      exact .inl ⟨i, ht⟩
  | _ =>
      rw [hpc] at hk
      cases hk

/-- The entry a worker finds pending under its lock is held by no other worker. -/
theorem unheld_of_locked (h : Inv s) (hi : Linked s k i .pending) (hl : s.lock i = some w)
    (hne : w' ≠ w) : (s.workers w').holds ≠ some k := by
  intro hk
  rcases h.linked_of_holds hk with ⟨j, hj⟩ | ⟨j, hj, hl'⟩
  · cases hi.status_eq hj
  · obtain rfl : i = j := Option.some.inj (hi.dir.symm.trans hj.dir)
    exact hne (Option.some.inj (hl'.symm.trans hl))

/-- The entry the sweep finds fetching, and that nobody processes, is held by no other worker. -/
theorem unheld_of_swept (h : Inv s) (hw : w = 0) (hi : Linked s k i .fetching)
    (hfree : ∀ w', (s.workers w').processing ≠ some k) (hne : w' ≠ w) :
    (s.workers w').holds ≠ some k := by
  intro hk
  have ht := h.tracks w'
  cases hpc : s.workers w' with
  | popRead k' j e =>
      rw [hpc] at ht hk
      cases hk
      cases hi.status_eq ht.1
  | sweepWrite k' j e =>
      rw [hpc] at ht
      exact hne (ht.1.trans hw.symm)
  | _ =>
      rw [hpc] at hk
      exact hfree w' (by rw [hpc]; exact hk)

theorem workerStep (h : Inv s)
    (ha : ∀ k i e, s.workers w = .sweepOpen k i → s.files i = some e → e.status = .fetching →
      s.dir (.entry k) = some i ∧ ∀ w', (s.workers w').processing ≠ some k)
    (hs : FetchQueue.workerStep s w = some s') : Inv s' := by
  have ht := h.tracks w
  unfold FetchQueue.workerStep at hs
  split at hs
  case h_1 k i hw =>
    rw [hw] at ht
    split at hs
    · rename_i e he
      split at hs
      · rename_i hst
        cases hs
        obtain ⟨hdir, hfree⟩ := ha k i e hw he hst
        have hl : Linked s k i .fetching := ⟨hdir, e, he, hst⟩
        refine h.goto h.directory h.enqueuing rfl (fun _ _ hv => hv) ⟨ht, hl⟩ fun k' hk v hv => ?_
        cases hk
        exact h.unheld_of_swept ht hl hfree hv
      · cases hs
        exact h.move ht (.inl rfl)
    · cases hs
      exact h.move ht (.inl rfl)
  case h_2 k i e hw =>
    rw [hw] at ht
    cases hs
    exact h.rewrite (by rw [hw]; rfl) ht.2 ht.1 (.inl rfl)
  case h_3 hw =>
    cases hs
    exact h.move trivial (.inl rfl)
  case h_4 k i hw =>
    rw [hw] at ht
    split at hs
    · rename_i hl
      cases hs
      refine h.relock (.inl hl) ⟨⟨ht.lt, ht.only, ht.lost⟩, ?_⟩ (.inl rfl)
      exact Function.update_self ..
    · cases hs
      exact h.move trivial (.inl rfl)
  case h_5 k i hw =>
    rw [hw] at ht
    split at hs
    · rename_i e he
      split at hs
      · rename_i hp
        cases hs
        have hl : Linked s k i .pending := by
          refine ⟨?_, e, he, hp⟩
          by_contra hlost
          exact ht.1.lost hlost e he hp
        refine h.goto h.directory h.enqueuing rfl (fun _ _ hv => hv) ⟨hl, ht.2⟩ fun k' hk v hv => ?_
        cases hk
        exact h.unheld_of_locked hl ht.2 hv
      · cases hs
        exact h.relock (.inr ht.2) trivial (.inl rfl)
    · cases hs
      exact h.relock (.inr ht.2) trivial (.inl rfl)
  case h_6 k i e hw =>
    rw [hw] at ht
    cases hs
    exact h.rewrite (by rw [hw]; rfl) ht.1 ⟨ht.1.rewrite _, ht.2⟩ (.inr rfl)
  case h_7 k i e hw =>
    rw [hw] at ht
    cases hs
    exact h.relock (.inr ht.2) ⟨i, ht.1.dir, ht.1.status⟩ (.inr (by rw [hw]; rfl))
  case h_8 k hw =>
    rw [hw] at ht
    obtain ⟨i, hl⟩ := ht
    cases hs
    exact h.remove hl (by rw [hw]; rfl)
  case h_9 k hw =>
    rw [hw] at ht
    obtain ⟨i, hl⟩ := ht
    split at hs
    · rename_i j hj
      cases hs
      obtain rfl : i = j := Option.some.inj (hl.dir.symm.trans hj)
      exact h.move hl (.inr (by rw [hw]; rfl))
    · cases hs
      exact h.move trivial (.inl rfl)
  case h_10 k i hw =>
    rw [hw] at ht
    split at hs
    · cases hs
      exact h.move ht (.inr (by rw [hw]; rfl))
    · cases hs
      exact h.move trivial (.inl rfl)
  case h_11 k i e hw =>
    rw [hw] at ht
    cases hs
    exact h.rewrite (by rw [hw]; rfl) ht trivial (.inl rfl)
  all_goals cases hs

/-- A worker goes down and its locks with it. -/
theorem exit (h : Inv s) :
    Inv ({ s with lock := fun i => if s.lock i = some w then none else s.lock i }.goto w
      .down) := by
  refine h.goto ⟨h.directory.lt, h.directory.inj⟩ h.enqueuing rfl (fun v hv ht => ?_) trivial
    fun _ hk => nomatch hk
  refine ht.frame (fun _ _ _ _ hl => ⟨hl.dir, hl.status⟩) (fun _ _ hd => ⟨hd.lt, hd.only, hd.lost⟩)
    fun i hi => ?_
  have hne : s.lock i ≠ some w := by
    rw [hi]
    exact fun heq => hv (Option.some.inj heq)
  exact (if_neg hne).trans hi

theorem step {a : Action} (h : Inv s) (ha : SweepsAlone s a) (hs : FetchQueue.step s a = some s') :
    Inv s' := by
  cases a with
  | enqueue k lsn trailer =>
      simp only [FetchQueue.step, Option.ite_none_right_eq_some] at hs
      obtain ⟨-, hs⟩ := hs
      cases hs
      exact h.enqueue h.directory trivial rfl fun _ _ ht => ht
  | redo => exact h.redoStep hs
  | start w =>
      simp only [FetchQueue.step, Option.ite_none_right_eq_some] at hs
      obtain ⟨-, hs⟩ := hs
      cases hs
      by_cases hw : w = 0
      · rw [if_pos hw]
        exact h.move hw (.inl rfl)
      · rw [if_neg hw]
        exact h.move trivial (.inl rfl)
  | exit w =>
      cases hs
      exact h.exit
  | crash =>
      cases hs
      exact ⟨⟨h.directory.lt, h.directory.inj⟩, trivial, fun _ => trivial,
        fun _ _ _ hk => nomatch hk⟩
  | readDir w n =>
      have ht := h.tracks w
      simp only [FetchQueue.step] at hs
      split at hs
      case h_1 k hw =>
        cases hs
        refine h.enqueue h.directory.unlink (h.enqueuing.unlink fun k' i heq => ?_) rfl
          fun v pc ht => ht.unlink (fun _ _ heq => nomatch heq) fun _ _ heq => nomatch heq
        cases heq
        exact ha hw i
      case h_2 k hw =>
        rw [hw] at ht
        split at hs
        · cases hs
          exact h.move ht (.inl rfl)
        · cases hs
          exact h
      case h_3 =>
        cases hs
        exact h
      case h_4 k hw =>
        split at hs
        · rename_i i hi
          cases hs
          exact h.move (h.directory.descriptor hi) (.inl rfl)
        · cases hs
          exact h
      case h_5 => cases hs
  | readDirEnd w =>
      simp only [FetchQueue.step] at hs
      split at hs
      · cases hs
        exact h.move trivial (.inl rfl)
      · cases hs
        exact h.move trivial (.inl rfl)
      · cases hs
  | worker w => exact h.workerStep ha hs
  | noTrailer w =>
      have ht := h.tracks w
      simp only [FetchQueue.step] at hs
      split at hs
      case h_1 k i e hw =>
        rw [hw] at ht
        cases hs
        exact h.relock (.inr ht.2) trivial (.inl rfl)
      case h_2 => cases hs
  | fetched w o =>
      have ht := h.tracks w
      simp only [FetchQueue.step] at hs
      split at hs
      case h_1 k e hw =>
        rw [hw] at ht
        cases hs
        obtain ⟨i, hl⟩ := ht
        refine h.goto ⟨h.directory.lt, h.directory.inj⟩ h.enqueuing rfl
          (fun v _ hv => hv.congr rfl rfl rfl rfl) ⟨i, hl.dir, hl.status⟩ fun k' hk' v hv => ?_
        cases hk'
        exact h.others (by rw [hw]; rfl) hv
      case h_2 => cases hs
  | fetchFailed w =>
      have ht := h.tracks w
      simp only [FetchQueue.step] at hs
      split at hs
      case h_1 k e hw =>
        rw [hw] at ht
        cases hs
        exact h.move ht (.inr (by rw [hw]; rfl))
      case h_2 => cases hs

end Inv

/-- No entry is processed twice at a time and no enqueue loses its temporary file, if the sweep
meets neither a live worker's entry nor the file of an enqueue. -/
theorem exclusive (h : Reachable Init step SweepsAlone s) : Exclusive s := by
  have hinv : Inv s := h.invariant (fun _ => Inv.init) fun _ _ _ _ hi ha hs => hi.step ha hs
  exact hinv.toExclusive

section Demo

def demoStart : State where
  dir := fun _ => none
  files := fun _ => none
  lock := fun _ => none
  nextInode := 0
  redo := .idle
  workers := fun _ => .down
  enqueued := []
  outcome := fun _ => none

theorem init_demoStart : Init demoStart :=
  ⟨fun _ => rfl, fun _ => rfl, rfl, fun _ => rfl, rfl⟩

def demoKey : FetchKey := ⟨16384, 1, 4, 0, .created⟩

def demoEnqueue (k : FetchKey) : List Action := [.enqueue k 100 [], .redo, .redo, .redo, .redo]

def demoPop (w : ℕ) (k : FetchKey) : List Action :=
  [.worker w, .readDir w (.entry k), .worker w, .worker w, .worker w, .worker w]

def demoSweep (k : FetchKey) : List Action :=
  [.start 0, .readDir 0 (.entry k), .worker 0, .worker 0, .readDirEnd 0]

/-- Worker 0 restarts while worker 1 pulls the files of an entry. -/
def demoTwice : List Action :=
  demoEnqueue demoKey ++ [.start 1] ++ demoPop 1 demoKey ++ demoSweep demoKey ++ demoPop 0 demoKey

/-- Worker 1 dies with an entry in its hands, and the sweep of worker 0 opens it. -/
def demoDeath : List Action :=
  demoEnqueue demoKey ++ [.start 1] ++ demoPop 1 demoKey ++
    [.exit 1, .start 0, .readDir 0 (.entry demoKey)]

def demoOrphan : State := (exec step demoStart demoDeath).getD demoStart

/-- The sweep has read the orphan. -/
def demoRead : State := (step demoOrphan (.worker 0)).getD demoStart

/-- A step that meets no entry of a worker and no file of an enqueue. -/
def MeetsNone (s : State) : Action → Prop
  | .readDir w (.tmp _) => s.workers w ≠ .sweep
  | .worker w => ∀ k i, s.workers w ≠ .sweepOpen k i
  | _ => True

theorem MeetsNone.sweepsAlone {a : Action} (h : MeetsNone s a) : SweepsAlone s a := by
  match a, h with
  | .readDir w (.tmp k), h => exact fun hw => absurd hw h
  | .worker w, h => exact fun k i e hw => absurd hw (h k i)
  | .readDir _ (.entry _), _ | .enqueue .., _ | .redo, _ | .start _, _ | .exit _, _ | .crash, _
  | .readDirEnd _, _ | .noTrailer _, _ | .fetched .., _ | .fetchFailed _, _ => trivial

instance (s : State) (a : Action) : Decidable (MeetsNone s a) := by
  unfold MeetsNone
  split
  case h_2 w =>
    cases hw : s.workers w with
    | sweepOpen k i => exact .isFalse fun h => h k i rfl
    | _ => exact .isTrue fun _ _ => nofun
  all_goals infer_instance

/-- Worker 0 demotes the orphan and claims it. -/
theorem exclusive_demoRead :
    ∃ s, exec step demoRead ([.worker 0, .readDirEnd 0] ++ demoPop 0 demoKey) = some s ∧
      (s.workers 0).processing = some demoKey ∧ Exclusive s := by
  have hdeath : exec step demoStart demoDeath = some demoOrphan := rfl
  have hbefore : Meets MeetsNone step demoStart demoDeath := by decide +kernel
  have horphan : Reachable Init step SweepsAlone demoOrphan :=
    (Reachable.start init_demoStart).of_exec (hbefore.mono fun _ _ => MeetsNone.sweepsAlone) hdeath
  have hread : step demoOrphan (.worker 0) = some demoRead := rfl
  have halone : SweepsAlone demoOrphan (.worker 0) := by
    intro k i e hw _ _
    have hopen : demoOrphan.workers 0 = .sweepOpen demoKey 0 := rfl
    rw [hopen] at hw
    cases hw
    refine ⟨rfl, fun w' => ?_⟩
    match w' with
    | 0 | 1 | _ + 2 => exact nofun
  have hafter : Meets MeetsNone step demoRead
      ([.worker 0, .readDirEnd 0] ++ demoPop 0 demoKey) := by decide +kernel
  have hrun : (exec step demoRead ([.worker 0, .readDirEnd 0] ++ demoPop 0 demoKey)).map
      (fun s => (s.workers 0).processing) = some (some demoKey) := by decide +kernel
  obtain ⟨s, hs, hview⟩ := Option.map_eq_some_iff.mp hrun
  exact ⟨s, hs, hview, exclusive ((horphan.next halone hread).of_exec
    (hafter.mono fun _ _ => MeetsNone.sweepsAlone) hs)⟩

/-- The sweep puts the entry of a live worker back, and worker 0 claims it too. -/
theorem not_exclusive : ¬ ∀ s, Reachable Init step anyStep s → Exclusive s := by
  intro h
  have hrun : (exec step demoStart demoTwice).map
      (fun s => ((s.workers 0).processing, (s.workers 1).processing)) =
        some (some demoKey, some demoKey) := by decide +kernel
  obtain ⟨s, hs, hview⟩ := Option.map_eq_some_iff.mp hrun
  obtain ⟨h₀, h₁⟩ := Prod.mk.inj hview
  have hone := h s ((Reachable.start init_demoStart).of_exec (meets_anyStep _) hs)
  exact absurd (hone.one 0 1 demoKey h₀ h₁) (by decide)

end Demo

end VectorLsm.FetchQueue
