import VectorLsm.Lib.Prefix
import VectorLsm.Recovery.Recover

/-! # Fresh segment ids

`alloc_segment_id` hands out the ids after the ones the status pages know. A file may be on disk
though the crash has taken the record that registered its id.
-/

namespace VectorLsm.Recovery

open Transition Log

/-- A build finds nothing of a former index, and no crash loses the registration of a sid that
a file beyond the initial segment covers. -/
def Kept (s : State) : Action → Prop
  | .build => s.slots = [] ∧ ∀ i ∈ s.dir, i.endSid ≤ startSegmentId
  | .crash n => ∀ st ∈ s.statusAt n, ∀ i ∈ s.dir,
      i.endSid ≤ startSegmentId ∨ ∃ sid ∈ st.memtables, i.endSid ≤ sid
  | _ => True

/-- The status pages at any point of the log. -/
structure Ordered (st : StatusPages) : Prop where
  start : ∀ sid ∈ st.memtables, startSegmentId ≤ sid
  le : ∀ sid ∈ st.memtables, sid ≤ st.maxMemtableSid

/-- The pages a log leads to are ordered. -/
def OrderedLog (wal : List Record) : Prop := ∀ st ∈ StatusPages.ofLog wal, Ordered st

/-- The counter of an index is past all ids in use. -/
structure Ahead (s : State) (l : LSMIndex) : Prop where
  start : startSegmentId < l.nextSegmentId
  pages : ∃ st ∈ s.status, ∀ sid ∈ st.memtables, sid < l.nextSegmentId
  live : ∀ sid ∈ l.live, sid < l.nextSegmentId
  files : ∀ i ∈ s.dir, i.endSid < l.nextSegmentId
  newest : ∀ cur pc, l.growing = .rotating cur pc → ∀ sid ∈ pc.sids, l.nextSegmentId = sid + 1
  logged : ∀ cur sid, l.growing = .rotating cur (.maxLogged sid) →
    ∀ st ∈ s.status, st.maxMemtableSid = sid

/-- At rest, the status pages know the ids of all files. -/
def Known (s : State) : Prop := ∀ st ∈ s.status, ∀ i ∈ s.dir,
  i.endSid ≤ startSegmentId ∨ ∃ sid ∈ st.memtables, i.endSid ≤ sid

structure FreshInv (s : State) : Prop where
  reused : s.reused = []
  ordered : Cuts OrderedLog 0 s.wal
  slots : s.slots = [] ∧ Known s ∨ ∃ l, s.slots = [l] ∧ Ahead s l

variable {s s' : State} {l l' : LSMIndex} {k : ℕ} {r : Record}

theorem ofLog_concat (wal : List Record) (r : Record) :
    StatusPages.ofLog (wal ++ [r]) = StatusPages.redo (StatusPages.ofLog wal) r := by
  simp [StatusPages.ofLog]

@[simp] theorem status_log : (s.log r).status = StatusPages.redo s.status r := ofLog_concat _ _

@[simp] theorem status_setSlot : (s.setSlot k l).status = s.status := rfl

@[simp] theorem status_writeFile (lo hi : SegmentId) : (s.writeFile lo hi).status = s.status := rfl

@[simp] theorem dir_log : (s.log r).dir = s.dir := rfl

@[simp] theorem dir_setSlot : (s.setSlot k l).dir = s.dir := rfl

theorem slots_setSlot (h : s.slots = [l]) : (s.setSlot 0 l').slots = [l'] := by
  simp [State.setSlot, h]

theorem mem_writeFile {lo hi : SegmentId} {i : SegmentFileInfo} (h : i ∈ (s.writeFile lo hi).dir) :
    i ∈ s.dir ∨ i.endSid = hi := by
  rcases List.mem_append.mp h with h | h
  · exact Or.inl h
  · exact Or.inr (congrArg SegmentFileInfo.endSid (List.mem_singleton.mp h))

theorem endSid_mem_of_mem_files {i : SegmentFileInfo} (h : i ∈ s.files) :
    ∃ e ∈ s.dir, e.endSid = i.endSid := by
  obtain ⟨e, he, hr⟩ := List.mem_map.mp (range_mem_of_mem_scan h)
  exact ⟨e, he, congrArg Prod.snd hr⟩

theorem allocSegmentId_of_unused {array : List SegmentId} {sid : SegmentId}
    (h : s.Unused array sid) : s.allocSegmentId array sid = s := if_pos h

theorem statusMemtables_of_status {st : StatusPages} (h : st ∈ s.status) :
    s.statusMemtables = st.memtables := by
  rw [State.statusMemtables, Option.mem_def.mp h]
  rfl

theorem Ahead.unused (h : Ahead s l) (hs : s.slots = [l]) :
    s.Unused s.statusMemtables l.nextSegmentId := by
  refine ⟨?_, ?_, ?_⟩
  · obtain ⟨st, hst, hlt⟩ := h.pages
    rw [statusMemtables_of_status hst]
    exact fun hm => lt_irrefl _ (hlt _ hm)
  · intro l' hl' hm
    rw [hs, List.mem_singleton] at hl'
    subst hl'
    exact lt_irrefl _ (h.live _ hm)
  · rintro i hi ⟨-, hle⟩
    exact absurd (h.files i hi) (not_lt.mpr hle)

theorem FreshInv.single (h : FreshInv s) (hk : s.slots[k]? = some l) :
    k = 0 ∧ s.slots = [l] ∧ Ahead s l := by
  rcases h.slots with ⟨hn, -⟩ | ⟨l', hs, ha⟩
  · simp [hn] at hk
  · rw [hs] at hk
    cases k with
    | zero =>
        cases hk
        exact ⟨rfl, hs, ha⟩
    | succ k => simp at hk

/-- Steps that leave the log, the files and the counter alone. -/
theorem Ahead.setSlot (h : Ahead s l) (hnext : l'.nextSegmentId = l.nextSegmentId)
    (hlive : ∀ sid ∈ l'.live, sid ∈ l.live)
    (hpc : ∀ cur pc, l'.growing = .rotating cur pc →
      pc = .begun ∨ ∃ cur', l.growing = .rotating cur' pc) : Ahead (s.setSlot k l') l' where
  start := hnext ▸ h.start
  pages := hnext ▸ h.pages
  live := fun sid hs => hnext ▸ h.live sid (hlive sid hs)
  files := hnext ▸ h.files
  newest := by
    intro cur pc hg sid hsid
    rcases hpc cur pc hg with rfl | ⟨cur', hg'⟩
    · simp [Rotation.sids] at hsid
    · exact hnext ▸ h.newest cur' pc hg' sid hsid
  logged := by
    intro cur sid hg
    rcases hpc cur _ hg with hb | ⟨cur', hg'⟩
    · cases hb
    · exact h.logged cur' sid hg'

/-- Steps that leave the log and the index alone. -/
theorem Ahead.setDir (h : Ahead s l) (hst : s'.status = s.status)
    (hdir : ∀ i ∈ s'.dir, i.endSid < l.nextSegmentId) : Ahead s' l where
  start := h.start
  pages := hst ▸ h.pages
  live := h.live
  files := hdir
  newest := h.newest
  logged := hst ▸ h.logged

theorem Ahead.rotate (h : Ahead s l) (hs : s.slots = [l]) (ho : Cuts OrderedLog 0 s.wal)
    (hr : s.reused = []) (hrot : s.rotate 0 l = some s') : FreshInv s' := by
  unfold State.rotate at hrot
  split at hrot
  next hg =>
    cases hrot
    refine ⟨hr, ho, Or.inr ⟨_, slots_setSlot hs, ?_⟩⟩
    refine h.setSlot rfl ?_ ?_
    · intro sid hsid
      simpa [LSMIndex.live, Growing.sids, Rotation.sids, hg] using hsid
    · rintro cur pc ⟨⟩
      exact Or.inl rfl
  next cur hg =>
    cases hrot
    refine ⟨hr, ho, Or.inr ⟨_, slots_setSlot hs, ?_⟩⟩
    refine h.setSlot rfl ?_ ?_
    · intro sid hsid
      simpa [LSMIndex.live, Growing.sids, Rotation.sids, hg] using hsid
    · rintro cur' pc ⟨⟩
      exact Or.inl rfl
  next cur hg =>
    simp only [allocSegmentId_of_unused (h.unused hs)] at hrot
    cases hrot
    refine ⟨hr, ho, Or.inr ⟨_, slots_setSlot hs, ?_⟩⟩
    obtain ⟨st, hst, hlt⟩ := h.pages
    exact {
      start := Nat.lt_succ_of_lt h.start
      pages := ⟨st, hst, fun sid hsid => Nat.lt_succ_of_lt (hlt sid hsid)⟩
      live := by
        intro sid hsid
        have : sid ∈ l.live ∨ sid = l.nextSegmentId := by
          simp only [LSMIndex.live, Growing.sids, Rotation.sids, hg, List.mem_append,
            List.mem_singleton, List.append_nil] at hsid ⊢
          tauto
        rcases this with hm | rfl
        · exact Nat.lt_succ_of_lt (h.live sid hm)
        · exact Nat.lt_succ_self _
      files := fun i hi => Nat.lt_succ_of_lt (h.files i hi)
      newest := by
        rintro cur' pc ⟨⟩ sid hsid
        obtain rfl := List.mem_singleton.mp hsid
        rfl
      logged := by rintro cur' sid ⟨⟩ }
  next cur sid hg =>
    cases hrot
    have hnext := h.newest cur _ hg sid (List.mem_singleton_self sid)
    have hstart := h.start
    obtain ⟨st, hst, hlt⟩ := h.pages
    have hst' : (s.log (.updateMaxSid sid)).status = some { st with maxMemtableSid := sid } := by
      rw [status_log, Option.mem_def.mp hst]
      rfl
    have hord : OrderedLog (s.wal ++ [.updateMaxSid sid]) := by
      intro st' h'
      cases (Option.mem_unique h' hst')
      exact ⟨(ho.self (Nat.zero_le _) st hst).start, fun x hx => by
        have := hlt x hx
        dsimp only
        lia⟩
    refine ⟨hr, ho.concat hord, Or.inr ⟨_, slots_setSlot hs, ?_⟩⟩
    exact {
      start := h.start
      pages := ⟨_, hst', hlt⟩
      live := by
        intro x hx
        apply h.live x
        simpa [LSMIndex.live, Growing.sids, Rotation.sids, hg] using hx
      files := h.files
      newest := by
        rintro cur' pc ⟨⟩ x hx
        exact h.newest cur _ hg x hx
      logged := by
        rintro cur' x ⟨⟩ st' h'
        cases (Option.mem_unique h' hst')
        rfl }
  next cur sid hg =>
    cases hrot
    have hnext := h.newest cur _ hg sid (List.mem_singleton_self sid)
    have hstart := h.start
    obtain ⟨st, hst, hlt⟩ := h.pages
    have hmax := h.logged cur sid hg st hst
    have hst' : (s.log (.registerMemtable sid)).status =
        some { st with memtables := st.memtables ++ [sid] } := by
      rw [status_log, Option.mem_def.mp hst]
      rfl
    have hord : OrderedLog (s.wal ++ [.registerMemtable sid]) := by
      intro st' h'
      cases (Option.mem_unique h' hst')
      have := ho.self (Nat.zero_le _) st hst
      refine ⟨?_, ?_⟩
      · intro x hx
        rcases List.mem_append.mp hx with hx | hx
        · exact this.start x hx
        · rw [List.mem_singleton.mp hx]
          lia
      · intro x hx
        rcases List.mem_append.mp hx with hx | hx
        · exact this.le x hx
        · rw [List.mem_singleton.mp hx]
          exact hmax.ge
    refine ⟨hr, ho.concat hord, Or.inr ⟨_, slots_setSlot hs, ?_⟩⟩
    exact {
      start := h.start
      pages := by
        refine ⟨_, hst', fun x hx => ?_⟩
        rcases List.mem_append.mp hx with hx | hx
        · exact hlt x hx
        · rw [List.mem_singleton.mp hx, hnext]
          exact Nat.lt_succ_self _
      live := by
        intro x hx
        apply h.live x
        simpa [LSMIndex.live, Growing.sids, Rotation.sids, hg] using hx
      files := h.files
      newest := by
        rintro cur' pc ⟨⟩ x hx
        exact h.newest cur _ hg x hx
      logged := by rintro cur' x ⟨⟩ }
  next cur sid hg =>
    split at hrot <;> cases hrot
    refine ⟨hr, ho, Or.inr ⟨_, slots_setSlot hs, ?_⟩⟩
    refine h.setSlot rfl ?_ ?_
    · intro x hx
      simp only [LSMIndex.live, Growing.sids, Rotation.sids, hg, List.mem_append,
        Option.mem_toList] at hx ⊢
      grind
    · rintro cur' pc ⟨⟩
      exact Or.inr ⟨_, hg⟩
  next sid hg =>
    cases hrot
    refine ⟨hr, ho, Or.inr ⟨_, slots_setSlot hs, ?_⟩⟩
    refine h.setSlot rfl ?_ ?_
    · intro x hx
      simpa [LSMIndex.live, Growing.sids, Rotation.sids, hg] using hx
    · rintro cur' pc ⟨⟩

theorem Ahead.flush (h : Ahead s l) (hs : s.slots = [l]) (ho : Cuts OrderedLog 0 s.wal)
    (hr : s.reused = []) (hf : s.flush 0 l = some s') : FreshInv s' := by
  have hpc : ∀ cur pc, l.growing = .rotating cur pc →
      pc = .begun ∨ ∃ cur', l.growing = .rotating cur' pc := fun cur pc hg => Or.inr ⟨cur, hg⟩
  unfold State.flush at hf
  split at hf
  next hidle =>
    split at hf <;> cases hf
    next sid sids hm =>
      have hlt : sid < l.nextSegmentId := h.live sid (by simp [LSMIndex.live, hm])
      have ha : Ahead (s.writeFile sid sid) l := by
        refine h.setDir rfl fun i hi => ?_
        rcases mem_writeFile hi with hi | hi
        · exact h.files i hi
        · exact hi ▸ hlt
      exact ⟨hr, ho, Or.inr ⟨_, slots_setSlot hs, ha.setSlot rfl (fun _ hx => hx) hpc⟩⟩
  next sid hw =>
    split at hf <;> cases hf
    exact ⟨hr, ho, Or.inr ⟨_, slots_setSlot hs, h.setSlot rfl (fun _ hx => hx) hpc⟩⟩
  next sid ht =>
    cases hf
    refine ⟨hr, ho, Or.inr ⟨_, slots_setSlot hs, h.setSlot rfl ?_ hpc⟩⟩
    intro x hx
    rcases List.mem_append.mp hx with hx | hx
    · exact List.mem_append_left _ (List.mem_of_mem_erase hx)
    · exact List.mem_append_right _ hx

theorem Ahead.release (h : Ahead s l) (hs : s.slots = [l]) (ho : Cuts OrderedLog 0 s.wal)
    (hr : s.reused = []) (hf : s.release 0 l = some s') : FreshInv s' := by
  have hpc : ∀ cur pc, l.growing = .rotating cur pc →
      pc = .begun ∨ ∃ cur', l.growing = .rotating cur' pc := fun cur pc hg => Or.inr ⟨cur, hg⟩
  unfold State.release at hf
  split at hf
  next hn =>
    split at hf <;> cases hf
    exact ⟨hr, ho, Or.inr ⟨_, slots_setSlot hs, h.setSlot rfl (fun _ hx => hx) hpc⟩⟩
  next sid sids hc =>
    cases hf
    obtain ⟨st, hst, hlt⟩ := h.pages
    have hst' : (s.log (.releaseMemtable sid)).status =
        some { st with memtables := st.memtables.erase sid } := by
      rw [status_log, Option.mem_def.mp hst]
      rfl
    have hord : OrderedLog (s.wal ++ [.releaseMemtable sid]) := by
      intro st' h'
      cases (Option.mem_unique h' hst')
      have := ho.self (Nat.zero_le _) st hst
      exact ⟨fun x hx => this.start x (List.mem_of_mem_erase hx),
        fun x hx => this.le x (List.mem_of_mem_erase hx)⟩
    have ha : Ahead (s.log (.releaseMemtable sid)) l := {
      start := h.start
      pages := ⟨_, hst', fun x hx => hlt x (List.mem_of_mem_erase hx)⟩
      live := h.live
      files := h.files
      newest := h.newest
      logged := by
        intro cur x hg st' h'
        cases (Option.mem_unique h' hst')
        exact h.logged cur x hg st hst }
    exact ⟨hr, ho.concat hord,
      Or.inr ⟨_, slots_setSlot hs, ha.setSlot rfl (fun _ hx => hx) hpc⟩⟩

/-- A file whose last sid some file on disk has. -/
theorem FreshInv.writeFile (h : FreshInv s) {lo hi : SegmentId}
    (hhi : hi ≤ startSegmentId ∨ ∃ e ∈ s.dir, hi ≤ e.endSid) : FreshInv (s.writeFile lo hi) := by
  refine ⟨h.reused, h.ordered, ?_⟩
  rcases h.slots with ⟨hn, hk⟩ | ⟨l, hs, ha⟩
  · refine Or.inl ⟨hn, fun st hst i hi' => ?_⟩
    rcases mem_writeFile hi' with hi' | rfl
    · exact hk st hst i hi'
    · rcases hhi with hle | ⟨e, he, hle⟩
      · exact Or.inl hle
      · rcases hk st hst e he with hle' | ⟨sid, hsid, hle'⟩
        · exact Or.inl (hle.trans hle')
        · exact Or.inr ⟨sid, hsid, hle.trans hle'⟩
  · refine Or.inr ⟨l, hs, ha.setDir rfl fun i hi' => ?_⟩
    rcases mem_writeFile hi' with hi' | rfl
    · exact ha.files i hi'
    · rcases hhi with hle | ⟨e, he, hle⟩
      · exact hle.trans_lt ha.start
      · exact hle.trans_lt (ha.files e he)

theorem FreshInv.recover (h : FreshInv s) (hn : s.slots = []) {st : StatusPages}
    (hst : st ∈ s.status) : FreshInv (s.recover st) := by
  have hk : Known s := by
    rcases h.slots with ⟨-, hk⟩ | ⟨l, hs, -⟩
    · exact hk
    · simp [hn] at hs
  refine ⟨h.reused, h.ordered, ?_⟩
  cases hr : recoverLsmIndexInternal st s.files with
  | none => exact Or.inl ⟨by simp [State.recover, hr], hk⟩
  | some l =>
      refine Or.inr ⟨l, by simp [State.recover, hr], ?_⟩
      obtain ⟨f, -, top, htop, hle, rfl⟩ := recover_spec hr
      have hord := h.ordered.self (Nat.zero_le _) st hst
      -- Either way the counter is past the largest id of the array.
      have hnext : top < (rebuilt st f.endSid top).nextSegmentId := by
        unfold rebuilt
        dsimp only
        split
        next hg => exact Nat.lt_succ_of_le (hord.le top htop)
        next => exact Nat.lt_succ_self _
      have hmem : ∀ sid ∈ (rebuilt st f.endSid top).live, sid ∈ st.memtables := by
        intro sid hsid
        rcases List.mem_append.mp hsid with hm | hm
        · exact ascending_perm.mem_iff.mp (List.mem_of_mem_filter hm)
        · unfold rebuilt at hm
          dsimp only at hm
          split at hm
          next hg => exact List.mem_singleton.mp hm ▸ hg.2
          next => cases hm
      exact {
        start := (hord.start top htop).trans_lt hnext
        pages := ⟨st, hst, fun sid hsid => (hle sid hsid).trans_lt hnext⟩
        live := fun sid hsid => (hle sid (hmem sid hsid)).trans_lt hnext
        files := by
          intro i hi
          rcases hk st hst i hi with hi' | ⟨sid, hsid, hi'⟩
          · exact (hi'.trans (hord.start top htop)).trans_lt hnext
          · exact (hi'.trans (hle sid hsid)).trans_lt hnext
        newest := by
          intro cur pc hg
          unfold rebuilt at hg
          dsimp only at hg
          split at hg <;> cases hg
        logged := by
          intro cur sid hg
          unfold rebuilt at hg
          dsimp only at hg
          split at hg <;> cases hg }

theorem FreshInv.build (h : FreshInv s) (hok : Kept s .build) : FreshInv s.build := by
  obtain ⟨hn, hdir⟩ := hok
  have hun : s.Unused [] (startSegmentId + 1) := by
    refine ⟨by simp, by simp [hn], ?_⟩
    rintro i hi ⟨-, hle⟩
    exact absurd hle (not_le.mpr (Nat.lt_succ_of_le (hdir i hi)))
  have hord : OrderedLog (s.wal ++ [.segment (s.newVersion startSegmentId startSegmentId)]) := by
    intro st hst
    rw [ofLog_concat] at hst
    exact h.ordered.self (Nat.zero_le _) st hst
  have hst : StatusPages.ofLog (s.wal ++ [.segment (s.newVersion startSegmentId startSegmentId)] ++
      [.indexCreate]) = some .init := ofLog_concat _ _
  have hord' : OrderedLog (s.wal ++ [.segment (s.newVersion startSegmentId startSegmentId)] ++
      [.indexCreate]) := by
    intro st h'
    cases (Option.mem_unique h' hst)
    exact ⟨by simp [StatusPages.init], by simp [StatusPages.init]⟩
  have hwal := (h.ordered.concat hord).concat hord'
  rw [List.append_assoc] at hwal hst
  unfold State.build
  simp only [allocSegmentId_of_unused hun]
  refine ⟨h.reused, hwal, Or.inr ⟨_, by rw [hn]; rfl, ?_⟩⟩
  exact {
    start := by simp
    pages := ⟨_, hst, by simp [StatusPages.init]⟩
    live := by simp [LSMIndex.live, Growing.sids]
    files := by
      intro i hi
      rcases mem_writeFile hi with hi | hi
      · exact (hdir i hi).trans_lt (by simp)
      · simp [hi]
    newest := by rintro cur pc ⟨⟩
    logged := by rintro cur sid ⟨⟩ }

theorem FreshInv.step {a : Action} (h : FreshInv s) (hok : Kept s a) (hs : step s a = some s') :
    FreshInv s' := by
  cases a with
  | build =>
      cases hs
      exact h.build hok
  | buildAborted =>
      cases hs
      exact h.writeFile (Or.inl le_rfl)
  | rotate k =>
      obtain ⟨l, hk, hr⟩ := Option.bind_eq_some_iff.mp hs
      obtain ⟨rfl, hl, ha⟩ := h.single hk
      exact ha.rotate hl h.ordered h.reused hr
  | flush k =>
      obtain ⟨l, hk, hr⟩ := Option.bind_eq_some_iff.mp hs
      obtain ⟨rfl, hl, ha⟩ := h.single hk
      exact ha.flush hl h.ordered h.reused hr
  | release k =>
      obtain ⟨l, hk, hr⟩ := Option.bind_eq_some_iff.mp hs
      obtain ⟨rfl, hl, ha⟩ := h.single hk
      exact ha.release hl h.ordered h.reused hr
  | rebuild j =>
      obtain ⟨i, hi, rfl⟩ := Option.map_eq_some_iff.mp hs
      obtain ⟨e, he, heq⟩ := endSid_mem_of_mem_files (List.mem_of_getElem? hi)
      exact h.writeFile (Or.inr ⟨e, he, heq.ge⟩)
  | merge j =>
      obtain ⟨i, hi, hs⟩ := Option.bind_eq_some_iff.mp hs
      obtain ⟨i', hi', rfl⟩ := Option.map_eq_some_iff.mp hs
      obtain ⟨e, he, heq⟩ := endSid_mem_of_mem_files (List.mem_of_getElem? hi')
      exact h.writeFile (Or.inr ⟨e, he, heq.ge⟩)
  | announce i =>
      simp only [Recovery.step] at hs
      split at hs <;> cases hs
      have hst : (s.log (.segment i)).status = s.status := status_log
      have hord : OrderedLog (s.wal ++ [.segment i]) := by
        intro st h'
        rw [ofLog_concat] at h'
        exact h.ordered.self (Nat.zero_le _) st h'
      refine ⟨h.reused, h.ordered.concat hord, ?_⟩
      rcases h.slots with ⟨hn, hk⟩ | ⟨l, hl, ha⟩
      · exact Or.inl ⟨hn, fun st hst' => hk st (hst ▸ hst')⟩
      · exact Or.inr ⟨l, hl, ha.setDir hst ha.files⟩
  | flushWal n =>
      simp only [Recovery.step] at hs
      split at hs <;> cases hs
      exact ⟨h.reused, h.ordered, h.slots.imp (fun ⟨hn, hk⟩ => ⟨hn, hk⟩)
        fun ⟨l, hl, ha⟩ => ⟨l, hl, ha.setDir rfl ha.files⟩⟩
  | crash n =>
      simp only [Recovery.step] at hs
      split at hs <;> cases hs
      exact ⟨h.reused, h.ordered.take n, Or.inl ⟨rfl, hok⟩⟩
  | recover =>
      simp only [Recovery.step] at hs
      split at hs
      next hn =>
        obtain ⟨st, hst, rfl⟩ := Option.map_eq_some_iff.mp hs
        exact h.recover hn hst
      next => cases hs
  | redo =>
      simp only [Recovery.step] at hs
      split at hs <;> cases hs
      exact ⟨h.reused, h.ordered, h.slots.imp (fun ⟨hn, hk⟩ => ⟨hn, hk⟩)
        fun ⟨l, hl, ha⟩ => ⟨l, hl, ha.setDir rfl ha.files⟩⟩
  | fetch i =>
      simp only [Recovery.step] at hs
      split at hs <;> cases hs
      exact ⟨h.reused, h.ordered, h.slots.imp (fun ⟨hn, hk⟩ => ⟨hn, hk⟩)
        fun ⟨l, hl, ha⟩ => ⟨l, hl, ha.setDir rfl ha.files⟩⟩
  | recoverStandby =>
      obtain ⟨st, hst, rfl⟩ := Option.map_eq_some_iff.mp hs
      exact ⟨h.reused, h.ordered, h.slots.imp (fun ⟨hn, hk⟩ => ⟨hn, hk⟩)
        fun ⟨l, hl, ha⟩ => ⟨l, hl, ha.setDir rfl ha.files⟩⟩

theorem Init.freshInv (h : Init s) : FreshInv s := by
  subst h
  exact ⟨rfl, Cuts.nil (by rintro st ⟨⟩), Or.inl ⟨rfl, by rintro st ⟨⟩⟩⟩

/-- Without a crash that loses the registration of a file, each id handed out is new. -/
theorem alloc_segment_id_fresh (h : Reachable Init step Kept s) : s.reused = [] :=
  (h.invariant (P := FreshInv) (fun _ h => h.freshInv) fun _ _ _ _ h hok hs => h.step hok hs).reused

instance (s : State) (a : Action) : Decidable (Kept s a) := by
  cases a <;> unfold Kept <;> infer_instance

/-- One rotation of slot 0, from the seal to the new memtable. -/
def rotation : List Action := List.replicate 6 (.rotate 0)

/-- The first memtable is flushed and the log with it; a crash loses the release. -/
theorem alloc_segment_id_fresh_recovered : ∃ s : State, s.slots.map (·.nextSegmentId) = [7] ∧
    s.files = [⟨3, 3, 1⟩, ⟨4, 4, 1⟩] ∧ s.reused = [] := by
  have hm : Meets Kept step initial ([.build] ++ rotation ++ [.flush 0, .flush 0, .flush 0,
      .flushWal 4, .release 0, .release 0, .crash 4, .recover] ++ rotation) := by
    decide +kernel
  have hs : (exec step initial ([.build] ++ rotation ++ [.flush 0, .flush 0, .flush 0,
      .flushWal 4, .release 0, .release 0, .crash 4, .recover] ++ rotation)).map (fun s =>
        (s.slots.map (·.nextSegmentId), s.files)) = some ([7], [⟨3, 3, 1⟩, ⟨4, 4, 1⟩]) := by
    decide +kernel
  obtain ⟨s, he, hv⟩ := Option.map_eq_some_iff.mp hs
  obtain ⟨hnext, hfiles⟩ := Prod.mk.inj hv
  have h₀ : Reachable Init step Kept initial := .start rfl
  exact ⟨s, hnext, hfiles, alloc_segment_id_fresh (h₀.of_exec hm he)⟩

/-- Two memtables are flushed before their registration is: the second id comes back. -/
theorem not_alloc_segment_id_fresh : ¬ ∀ s, Reachable Init step anyStep s → s.reused = [] := by
  intro h
  have hs : (exec step initial ([.build] ++ rotation ++ [.flush 0, .flush 0, .flush 0] ++
      rotation ++ [.flush 0, .crash 2, .recover, .rotate 0, .rotate 0])).map (·.reused) =
        some [5] := by
    decide +kernel
  obtain ⟨s, he, hv⟩ := Option.map_eq_some_iff.mp hs
  have h₀ : Reachable Init step anyStep initial := .start rfl
  have := h s (h₀.of_exec (meets_anyStep _) he)
  rw [hv] at this
  cases this

end VectorLsm.Recovery
