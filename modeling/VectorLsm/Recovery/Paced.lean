import VectorLsm.Recovery.Files
import VectorLsm.Recovery.Fresh

/-! # Recovery stays in its arrays

The log may end anywhere after what is flushed, so what recovery finds in the status pages is
bounded over all ends of the log at once: the sids past the last file by the queue of sealed
memtables, the others by the releases that are not durable yet.
-/

namespace VectorLsm.Recovery

open Transition Log

/-- The sids that the status pages may list after a crash. -/
def State.afterCrash (s : State) : List SegmentId :=
  (List.range (s.wal.length + 1)).flatMap fun n =>
    if s.durable ≤ n then ((s.statusAt n).map (·.memtables)).getD [] else []

/-- The flushed ones of them. -/
def State.outstanding (s : State) : List SegmentId :=
  (s.afterCrash.filter (· ≤ maxEnd s.dir)).dedup

/-- The table of the scan holds one more range. -/
def Fits (s : State) (lo hi : SegmentId) : Prop :=
  ((s.writeFile lo hi).dir.map (·.range)).dedup.length ≤ scanTableSize

instance (s : State) (lo hi : SegmentId) : Decidable (Fits s lo hi) :=
  inferInstanceAs (Decidable (_ ≤ _))

/-- The next part of the rotation seals a memtable in the status pages. -/
def LSMIndex.seals (l : LSMIndex) : Bool :=
  match l.growing with
  | .rotating (some _) (.allocated _) => true
  | _ => false

def Record.isUpdateMaxSid : Record → Bool
  | .updateMaxSid _ => true
  | _ => false

/-- A rotation finds room in the queue before it logs the new sid, a memtable is flushed when
few releases are outstanding, the last memtable of the status pages is not released, no crash
loses the registration of a file, and the standby does not redo too far ahead of its files. -/
def Paced (s : State) : Action → Prop
  | .build => Kept s .build ∧ Fits s startSegmentId startSegmentId
  | .buildAborted => Fits s startSegmentId startSegmentId
  | .rotate k => ∀ l ∈ s.slots[k]?, l.seals = true →
      (l.memtables.filter (maxEnd s.dir < ·)).length < memtableNum
  | .flush k => ∀ l ∈ s.slots[k]?, l.flushing = .idle → ∀ sid ∈ l.memtables.head?,
      s.outstanding.length < memtableNum ∧ Fits s sid sid
  | .release k => ∀ l ∈ s.slots[k]?, ∀ sid ∈ l.releasing.head?, ∃ x ∈ s.statusMemtables, x ≠ sid
  | .merge j => ∀ a ∈ s.files[j]?, ∀ b ∈ s.files[j + 1]?, Fits s a.startSid b.endSid
  | .crash n => Kept s (.crash n)
  | .redo => ∀ r ∈ s.wal[s.replayed]?, r.isUpdateMaxSid = true → ∀ st ∈ s.statusAt s.replayed,
      (st.memtables.filter fun sid => ∀ i ∈ s.fetched, i.endSid < sid).length ≤ memtableNum
  | .recoverStandby => s.fetched ≠ []
  | _ => True

theorem Paced.kept {s : State} {a : Action} (h : Paced s a) : Kept s a := by
  cases a with
  | build => exact h.1
  | crash n => exact h
  | _ => trivial

/-- The pages are ones that recovery handles while the files end at `last`. -/
structure Bounded (last : SegmentId) (st : StatusPages) : Prop where
  nonempty : st.memtables ≠ []
  nodup : st.memtables.Nodup
  flushed : (st.memtables.filter (· ≤ last)).length ≤ memtableNum
  sealed : (st.memtables.filter (Sealed last st.maxMemtableSid ·)).length ≤ memtableNum

/-- What holds of the log at any of its ends. -/
structure LogInv (wal : List Record) : Prop where
  nonempty : ∀ st ∈ StatusPages.ofLog wal, st.memtables ≠ []
  flushed : ∀ st ∈ StatusPages.ofLog wal, ∀ i ∈ announced wal,
    (st.memtables.filter (· ≤ i.endSid)).length ≤ memtableNum
  newest : ∀ wal' sid, wal = wal' ++ [.registerMemtable sid] →
    ∀ st ∈ StatusPages.ofLog wal', st.maxMemtableSid = sid

/-- The pages a log leads to are bounded, and list no unflushed sid that `array` does not. -/
def Recent (last : SegmentId) (array : List SegmentId) (wal : List Record) : Prop :=
  ∀ st ∈ StatusPages.ofLog wal, Bounded last st ∧ ∀ sid ∈ st.memtables, sid ≤ last ∨ sid ∈ array

/-- What a flush in progress says of the queue. -/
def QueueInv (last : SegmentId) (l : LSMIndex) : Prop :=
  match l.flushing with
  | .idle => ∀ sid ∈ l.memtables, last < sid
  | .written sid | .tracked sid =>
      ∃ sids, l.memtables = sid :: sids ∧ sid ≤ last ∧ ∀ x ∈ sids, last < x

structure Holds (s : State) (l : LSMIndex) : Prop where
  sorted : l.live.Pairwise (· < ·)
  length : l.memtables.length ≤ memtableNum
  queue : QueueInv (maxEnd s.dir) l
  growing : ∀ sid ∈ l.growing.sids, maxEnd s.dir < sid
  flushed : ∀ sid ∈ l.flushedNotReleased ++ l.releasing, sid ≤ maxEnd s.dir
  unflushed : ∀ sid ∈ s.statusMemtables, maxEnd s.dir < sid → sid ∈ l.live
  unregistered : ∀ cur pc, l.growing = .rotating cur pc → (∀ sid, pc ≠ .registered sid) →
    ∀ sid ∈ pc.sids, sid ∉ s.statusMemtables

/-- The standby: what recovery would find there. -/
structure StandbyInv (s : State) : Prop where
  replayed : s.replayed ≤ s.durable
  fetched : ∀ i ∈ s.fetched, i ∈ announced (s.wal.take s.replayed)
  sealed : ∀ st ∈ s.statusAt s.replayed, (st.memtables.filter fun sid =>
    (∀ i ∈ s.fetched, i.endSid < sid) ∧ sid ≠ st.maxMemtableSid).length ≤ memtableNum

structure CoreInv (s : State) : Prop where
  scannable : Scannable s.dir
  starts : ∀ i ∈ s.dir, startSegmentId ≤ i.startSid
  onDisk : ∀ i ∈ announced s.wal, i ∈ s.dir
  built : s.wal ≠ [] → s.dir ≠ []
  durable : s.durable ≤ s.wal.length
  log : Cuts LogInv 0 s.wal
  recent : Cuts (Recent (maxEnd s.dir) s.statusMemtables) s.durable s.wal
  standby : StandbyInv s
  recoveries : ∀ r ∈ s.recoveries, InBounds r.1 r.2

structure BoundInv (s : State) : Prop where
  core : CoreInv s
  slots : ∀ l ∈ s.slots, Holds s l

variable {s s' : State} {l l' : LSMIndex} {k n : ℕ} {r : Record} {st st' : StatusPages}
  {last last' : SegmentId} {array : List SegmentId} {lo hi : SegmentId}

theorem length_le_of_subset {xs ys : List SegmentId} (hn : xs.Nodup) (h : ∀ x ∈ xs, x ∈ ys) :
    xs.length ≤ ys.length := (List.subperm_of_subset hn h).length_le

theorem filter_length_mono {p q : SegmentId → Bool} {xs : List SegmentId}
    (h : ∀ x ∈ xs, p x = true → q x = true) : (xs.filter p).length ≤ (xs.filter q).length := by
  rw [← List.countP_eq_length_filter, ← List.countP_eq_length_filter]
  exact List.countP_mono_left h

section Log

theorem announced_append (wal wal' : List Record) :
    announced (wal ++ wal') = announced wal ++ announced wal' := by
  induction wal with
  | nil => rfl
  | cons r wal ih => cases r <;> simp [announced, ih]

theorem mem_announced_concat {i : SegmentFileInfo} {wal : List Record} :
    i ∈ announced (wal ++ [r]) ↔ i ∈ announced wal ∨ r = .segment i := by
  rw [announced_append]
  cases r <;> simp [announced, eq_comm]

theorem mem_announced_of_take {i : SegmentFileInfo} {wal : List Record}
    (h : i ∈ announced (wal.take n)) : i ∈ announced wal := by
  rw [← List.take_append_drop n wal, announced_append]
  exact List.mem_append_left _ h

theorem statusAt_log (h : n ≤ s.wal.length) : (s.log r).statusAt n = s.statusAt n := by
  unfold State.statusAt State.log
  rw [List.take_append_of_le_length h]

theorem StandbyInv.log (h : StandbyInv s) (hd : s.durable ≤ s.wal.length) :
    StandbyInv (s.log r) where
  replayed := h.replayed
  fetched := by
    have htake : (s.wal ++ [r]).take s.replayed = s.wal.take s.replayed :=
      List.take_append_of_le_length (h.replayed.trans hd)
    intro i hi
    exact htake ▸ h.fetched i hi
  sealed := by
    have := h.sealed
    rwa [← statusAt_log (r := r) (h.replayed.trans hd)] at this

/-- One more record: only the pages at the end of the log are new. -/
theorem CoreInv.logRecord (h : CoreInv s) (hb : ∀ st ∈ (s.log r).status, Bounded (maxEnd s.dir) st)
    (hkeep : ∀ sid ∈ s.statusMemtables, sid ≤ maxEnd s.dir ∨ sid ∈ (s.log r).statusMemtables)
    (hseg : ∀ i, r = .segment i → i ∈ s.dir)
    (hnew : ∀ sid, r = .registerMemtable sid → ∀ st ∈ s.status, st.maxMemtableSid = sid)
    (hdir : s.dir ≠ []) : CoreInv (s.log r) := by
  have hdisk : ∀ i ∈ announced (s.wal ++ [r]), i ∈ s.dir := by
    intro i hi
    rcases mem_announced_concat.mp hi with hi | rfl
    · exact h.onDisk i hi
    · exact hseg i rfl
  have hinv : LogInv (s.wal ++ [r]) := {
    nonempty := fun st hst => (hb st hst).nonempty
    flushed := by
      intro st hst i hi
      refine le_trans (filter_length_mono fun x _ hx => ?_) (hb st hst).flushed
      have := endSid_le_maxEnd (hdisk i hi)
      simp only [decide_eq_true_eq] at hx ⊢
      exact hx.trans this
    newest := by
      intro wal' sid heq
      obtain ⟨rfl, hr⟩ := List.append_inj' heq rfl
      exact hnew sid (List.singleton_inj.mp hr) }
  have hrec : Recent (maxEnd s.dir) (s.log r).statusMemtables (s.wal ++ [r]) := by
    intro st hst
    refine ⟨hb st hst, fun sid hsid => Or.inr ?_⟩
    rwa [statusMemtables_of_status (s := s.log r) hst]
  exact {
    scannable := h.scannable
    starts := h.starts
    onDisk := hdisk
    built := fun _ => hdir
    durable := h.durable.trans (by simp [State.log])
    log := h.log.concat hinv
    recent := by
      refine Cuts.concat (h.recent.imp fun wal hwal st hst => ?_) hrec
      refine ⟨(hwal st hst).1, fun sid hsid => ?_⟩
      rcases (hwal st hst).2 sid hsid with hle | hm
      · exact Or.inl hle
      · exact hkeep sid hm
    standby := h.standby.log h.durable
    recoveries := h.recoveries }

theorem CoreInv.setSlot (h : CoreInv s) : CoreInv (s.setSlot k l) :=
  ⟨h.scannable, h.starts, h.onDisk, h.built, h.durable, h.log, h.recent,
    ⟨h.standby.replayed, h.standby.fetched, h.standby.sealed⟩, h.recoveries⟩

end Log

section Files

theorem CoreInv.addFile (h : CoreInv s) (hlo : startSegmentId ≤ lo) (hle : lo ≤ hi)
    (hlam : ∀ e ∈ s.dir, Laminar e (s.newVersion lo hi)) (hfits : Fits s lo hi)
    (hrec : Cuts (Recent (max (maxEnd s.dir) hi) s.statusMemtables) s.durable s.wal) :
    CoreInv (s.writeFile lo hi) where
  scannable := scannable_append h.scannable hle hlam hfits
  starts := by
    intro i hi'
    rcases List.mem_append.mp hi' with hi' | hi'
    · exact h.starts i hi'
    · rw [List.mem_singleton.mp hi']
      exact hlo
  onDisk := fun i hi' => List.mem_append_left _ (h.onDisk i hi')
  built := by simp [State.writeFile]
  durable := h.durable
  log := h.log
  recent := by
    have hm : maxEnd (s.writeFile lo hi).dir = max (maxEnd s.dir) hi := maxEnd_append
    rw [hm]
    exact hrec
  standby := ⟨h.standby.replayed, h.standby.fetched, h.standby.sealed⟩
  recoveries := h.recoveries

/-- A file that ends no later than the others. -/
theorem CoreInv.addInner (h : CoreInv s) (hlo : startSegmentId ≤ lo) (hle : lo ≤ hi)
    (hlam : ∀ e ∈ s.dir, Laminar e (s.newVersion lo hi)) (hfits : Fits s lo hi)
    (hhi : hi ≤ maxEnd s.dir ∨ s.wal = []) : CoreInv (s.writeFile lo hi) := by
  refine h.addFile hlo hle hlam hfits ?_
  rcases hhi with hhi | hw
  · rw [max_eq_left hhi]
    exact h.recent
  · rw [hw]
    exact Cuts.nil (by rintro st ⟨⟩)

theorem Holds.addInner (h : Holds s l) (hhi : hi ≤ maxEnd s.dir) : Holds (s.writeFile lo hi) l := by
  have hm : maxEnd (s.writeFile lo hi).dir = maxEnd s.dir :=
    maxEnd_append.trans (max_eq_left hhi)
  exact {
    sorted := h.sorted
    length := h.length
    queue := hm ▸ h.queue
    growing := hm ▸ h.growing
    flushed := hm ▸ h.flushed
    unflushed := hm ▸ h.unflushed
    unregistered := h.unregistered }

end Files

end VectorLsm.Recovery
