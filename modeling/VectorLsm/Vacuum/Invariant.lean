import VectorLsm.Vacuum.Done

/-! # The invariant of vacuum against compaction

The mutexes, the runs the result is about, and where the rows of the last pass are at each
program point; what the steps of a compaction leave of this.
-/

namespace VectorLsm.OnDisk

open Transition State

variable {cfg : Config} {s s' : State} {disk : Disk} {pool : List PoolSegment} {nextUid t : ℕ}
  {comp : ℕ → CompactionPc} {pc : CompactionPc} {vac : VacuumPc} {m : ℕ → Bool}
  {olds : List SegmentRef} {r : MappedRow} {i : SegmentFileInfo}

section Mutexes

/-- A mutex that is held is taken, and by one party. -/
structure Mutexes (m : ℕ → Bool) (comp : ℕ → CompactionPc) (vac : VacuumPc) : Prop where
  tasks : ∀ t, ∀ u ∈ uids (comp t).held, m u = true
  worker : ∀ u ∈ vac.held, m u = true ∧ ∀ t, u ∉ uids (comp t).held

theorem held_subset (pc : CompactionPc) : uids pc.held ⊆ uids (pc.olds ++ pc.gone) := by
  intro u hu
  obtain ⟨o, ho, rfl⟩ := mem_uids.mp hu
  refine mem_uids.mpr ⟨o, ?_, rfl⟩
  cases pc with
  | loaded olds files n => exact List.mem_append_left _ (List.mem_of_mem_take ho)
  | reloaded olds new => exact List.mem_append_left _ ho
  | published olds new => exact List.mem_append_left _ ho
  | installed olds => exact List.mem_append_right _ ho
  | _ => cases ho

namespace Mutexes

/-- A step of a task that takes no mutex. -/
theorem same (h : Mutexes m comp vac) (hp : ∀ u ∈ uids pc.held, u ∈ uids (comp t).held) :
    Mutexes m (Function.update comp t pc) vac := by
  have hsub : ∀ t', ∀ u ∈ uids (Function.update comp t pc t').held, u ∈ uids (comp t').held := by
    intro t' u
    rw [Function.update_apply]
    split
    next he => exact fun hu => he ▸ hp u hu
    next => exact id
  exact ⟨fun t' u hu => h.tasks t' u (hsub t' u hu),
    fun u hu => ⟨(h.worker u hu).1, fun t' hu' => (h.worker u hu).2 t' (hsub t' u hu')⟩⟩

theorem lock {u : ℕ} (h : Mutexes m comp vac) (hu : m u = false)
    (hp : ∀ u' ∈ uids pc.held, u' = u ∨ u' ∈ uids (comp t).held) :
    Mutexes (fun u' => if u' ∈ [u] then true else m u') (Function.update comp t pc) vac := by
  constructor
  · intro t' u'
    rw [Function.update_apply]
    intro hu'
    split
    · rfl
    next hne =>
      split at hu'
      next he =>
        subst he
        rcases hp u' hu' with rfl | hu'
        · exact absurd (List.mem_singleton_self u') hne
        · exact h.tasks t' u' hu'
      next => exact h.tasks t' u' hu'
  · intro v hv
    obtain ⟨hmv, hno⟩ := h.worker v hv
    have hne : v ≠ u := by
      rintro rfl
      rw [hu] at hmv
      cases hmv
    refine ⟨by simp [hne, hmv], fun t' => ?_⟩
    rw [Function.update_apply]
    split
    next he =>
      subst he
      intro hv'
      rcases hp v hv' with rfl | hv'
      · exact hne rfl
      · exact hno t' hv'
    next => exact hno t'

theorem unlock (h : Mutexes m comp vac) (hc : Claims pool nextUid comp)
    (ho : (comp t).held = olds) (hp : pc.held = []) :
    Mutexes (fun u => if u ∈ uids olds then false else m u) (Function.update comp t pc) vac := by
  constructor
  · intro t' u
    rw [Function.update_apply]
    split
    · rw [hp]
      rintro ⟨⟩
    next hne =>
      intro hu
      have hout : u ∉ uids olds := by
        intro hu'
        rw [← ho] at hu'
        exact hne (hc.disjoint t' t u (held_subset _ hu) (held_subset _ hu'))
      rw [if_neg hout]
      exact h.tasks t' u hu
  · intro v hv
    obtain ⟨hmv, hno⟩ := h.worker v hv
    have hout : v ∉ uids olds := ho ▸ hno t
    refine ⟨by rw [if_neg hout]; exact hmv, fun t' => ?_⟩
    rw [Function.update_apply]
    split
    · rw [hp]
      rintro ⟨⟩
    · exact hno t'

theorem vacLock {u : ℕ} {vac' : VacuumPc} (h : Mutexes m comp vac) (hu : m u = false)
    (hv : vac'.held = some u) :
    Mutexes (fun u' => if u' ∈ [u] then true else m u') comp vac' := by
  have hfree : ∀ t, u ∉ uids (comp t).held := by
    intro t hut
    rw [h.tasks t u hut] at hu
    cases hu
  refine ⟨fun t u' hu' => ?_, fun v hv' => ?_⟩
  · split
    · rfl
    · exact h.tasks t u' hu'
  · rw [hv] at hv'
    obtain rfl := Option.some.inj hv'
    exact ⟨by simp, hfree⟩

theorem vacUnlock {u : ℕ} {vac' : VacuumPc} (h : Mutexes m comp vac) (hu : vac.held = some u)
    (hv : vac'.held = none) :
    Mutexes (fun u' => if u' ∈ [u] then false else m u') comp vac' := by
  refine ⟨fun t u' hu' => ?_, fun v hv' => ?_⟩
  · have hne : u' ∉ [u] := by
      intro he
      obtain rfl := List.mem_singleton.mp he
      exact (h.worker u' hu).2 t hu'
    rw [if_neg hne]
    exact h.tasks t u' hu'
  · rw [hv] at hv'
    cases hv'

theorem vacSame {vac' : VacuumPc} (h : Mutexes m comp vac) (hv : ∀ u ∈ vac'.held, u ∈ vac.held) :
    Mutexes m comp vac' := ⟨h.tasks, fun u hu => h.worker u (hv u hu)⟩

end Mutexes

end Mutexes

/-- The pool has the files of the version, or later ones. -/
def CaughtUp (pool : List PoolSegment) (i : SegmentFileInfo) : Prop :=
  ∀ p ∈ pool, p.info.startSid ≤ i.endSid → i.startSid ≤ p.info.endSid →
    i.Within p.info ∧ (i.range = p.info.range → i.version ≤ p.info.version)

instance (pool : List PoolSegment) (i : SegmentFileInfo) : Decidable (CaughtUp pool i) :=
  inferInstanceAs (Decidable (∀ p ∈ pool, _))

/-- The ranges of the directory fit the table of the scan. -/
def Fits (disk : Disk) : Prop := (disk.map (·.info.range)).dedup.length ≤ scanTableSize

instance (disk : Disk) : Decidable (Fits disk) := inferInstanceAs (Decidable (_ ≤ _))

/-- The steps after which the rows vacuum has found stay within its reach. -/
def InStep (s : State) : Action → Prop
  | .claim _ us => s.pool.filter (·.uid ∈ us) <:+: s.pool
  | .giveUp t => (s.comp t).onDisk? = none
  | .comp t =>
      match s.comp t with
      | .reloaded _ new => Fits (new :: s.disk)
      | _ => True
  | .vac =>
      match s.vac with
      | .request i _ => CaughtUp s.pool i
      | _ => True

/-- A pool loaded from the directory, with nothing under way. -/
structure Start (s : State) : Prop where
  comp : ∀ t, s.comp t = .idle
  vac : s.vac = .idle
  found : s.found = []
  pending : s.pending = []
  uids : (s.pool.map (·.uid)).Nodup
  lt : ∀ p ∈ s.pool, p.uid < s.nextUid
  sorted : s.pool.Pairwise fun p q => p.info.endSid < q.info.startSid
  nodup : (s.disk.map (·.info)).Nodup
  fits : Fits s.disk
  sound : ∀ f ∈ s.disk, f.Sound
  laminar : ∀ f ∈ s.disk, ∀ g ∈ s.disk, Laminar f.info g.info
  loaded : ∀ p ∈ s.pool, p.file ∈ s.disk
  covered : ∀ f ∈ s.disk, ∃ p ∈ s.pool,
    f.info.Within p.info ∧ (f.info.range = p.info.range → f.version ≤ p.info.version)

/-- The row is masked where its id is looked up: in the files the scan selects and in the pool. -/
structure MaskedEverywhere (s : State) (r : MappedRow) : Prop where
  selected : ∃ i ∈ s.disk.scan, i.startSid ≤ r.sid ∧ r.sid ≤ i.endSid
  file : ∀ i ∈ s.disk.scan, i.startSid ≤ r.sid → r.sid ≤ i.endSid → s.disk.Masks i r
  live : ∃ p ∈ s.pool, p.info.startSid ≤ r.sid ∧ r.sid ≤ p.info.endSid
  member : ∀ p ∈ s.pool, p.info.startSid ≤ r.sid → r.sid ≤ p.info.endSid → p.file.Masks r

/-- A segment already vacuumed as a memtable. -/
def Skipped (cfg : Config) (i : SegmentFileInfo) : Prop :=
  i.startSid = i.endSid ∧ i.startSid ∈ cfg.vacuumedMemtableIds

/-- The rows are those of a file where they are masked. -/
def InFile (cfg : Config) (disk : Disk) (pending : List MappedRow) (i : SegmentFileInfo) : Prop :=
  ¬ Skipped cfg i ∧ ∃ f ∈ disk, f.info = i ∧ ∀ r ∈ pending, r ∈ f.mapping ∧ f.Masks r

/-- Only the referenced slot can be the one with the files, and no compaction installs them. -/
structure OnlySlot (pool : List PoolSegment) (nextUid : ℕ) (comp : ℕ → CompactionPc)
    (i : SegmentFileInfo) (o : SegmentRef) : Prop where
  settled : ∀ t new, (comp t).onDisk? = some new → new.info ≠ i
  uid : ∀ p ∈ pool, p.info = i → p.uid = o.uid
  lt : o.uid < nextUid
  ref : ∀ p ∈ pool, p.uid = o.uid → p.ref = o

/-- The rows of the last pass, where vacuum is with them. -/
def Place (cfg : Config) (disk : Disk) (pool : List PoolSegment) (nextUid : ℕ)
    (comp : ℕ → CompactionPc) (pending : List MappedRow) : VacuumPc → Prop
  | .idle | .returned => pending = []
  | .failed => True
  | .segment i _ => ∀ r ∈ pending, (disk.Masks i r → Done disk pool comp r) ∧ ¬ Skipped cfg i
  | .marked i _ bitmap _ => ¬ Skipped cfg i ∧
      ∃ f ∈ disk, f.info = i ∧ pending = f.newlyDead cfg.callback ∧ ∀ k, bitmap k = true ↔
        f.bitmap k = true ∨ ∃ r, f.mapping[k]? = some r ∧ cfg.callback r.tid = true
  | .request i _ | .retry i _ => InFile cfg disk pending i
  | .referenced i _ o | .locked i _ o =>
      InFile cfg disk pending i ∧ OnlySlot pool nextUid comp i o
  | .checked i _ o => InFile cfg disk pending i ∧ OnlySlot pool nextUid comp i o ∧
      ∃ p ∈ pool, p.uid = o.uid ∧ p.info = i

/-- The files and rows whose new bits the worker has not put in the pool. -/
def pend (vac : VacuumPc) (pending : List MappedRow) (i : SegmentFileInfo) (r : MappedRow) : Prop :=
  vac.open? = some i ∧ r ∈ pending

structure Inv (cfg : Config) (s : State) : Prop where
  fits : Fits s.disk
  claims : Claims s.pool s.nextUid s.comp
  files : Files s.disk s.pool s.comp
  carried : Carried s.disk s.pool s.comp (pend s.vac s.pending)
  mutexes : Mutexes s.perSegMutex s.comp s.vac
  found : ∀ r ∈ s.found, Done s.disk s.pool s.comp r ∨ r ∈ s.pending
  seen : ∀ r ∈ s.found, ∃ f ∈ s.disk, r ∈ f.mapping
  dead : ∀ r ∈ s.pending, cfg.callback r.tid = true
  place : Place cfg s.disk s.pool s.nextUid s.comp s.pending s.vac

section Compaction

variable {disk' : Disk} {pool' : List PoolSegment} {nextUid' : ℕ} {comp' : ℕ → CompactionPc}
  {pending : List MappedRow}

theorem InFile.mono (h : InFile cfg disk pending i) (hd : ∀ f ∈ disk, f ∈ disk') :
    InFile cfg disk' pending i := by
  obtain ⟨hk, f, hf, hfr⟩ := h
  exact ⟨hk, f, hd f hf, hfr⟩

/-- Where vacuum is stays right when files are added and no done row is lost. -/
theorem Place.mono (h : Place cfg disk pool nextUid comp pending vac)
    (hd : ∀ f ∈ disk, f ∈ disk') (hD : ∀ r, Done disk pool comp r → Done disk' pool' comp' r)
    (hO : ∀ i o, (∃ f ∈ disk, f.info = i) → OnlySlot pool nextUid comp i o →
      OnlySlot pool' nextUid' comp' i o)
    (hq : ∀ u ∈ vac.held, ∀ p ∈ pool, p.uid = u → ∃ p' ∈ pool', p'.uid = u ∧ p'.info = p.info) :
    Place cfg disk' pool' nextUid' comp' pending vac := by
  have hfile : ∀ {i}, InFile cfg disk pending i → ∃ f ∈ disk, f.info = i := by
    rintro i ⟨-, f, hf, hi, -⟩
    exact ⟨f, hf, hi⟩
  cases vac with
  | idle => exact h
  | returned => exact h
  | failed => trivial
  | segment i rest =>
      intro r hr
      obtain ⟨hdone, hk⟩ := h r hr
      exact ⟨fun hm => hD r (hdone fun f hf => hm f (hd f hf)), hk⟩
  | marked i rest bitmap n =>
      obtain ⟨hk, f, hf, hfr⟩ := h
      exact ⟨hk, f, hd f hf, hfr⟩
  | request i rest => exact InFile.mono h hd
  | retry i rest => exact InFile.mono h hd
  | referenced i rest o => exact ⟨h.1.mono hd, hO i o (hfile h.1) h.2⟩
  | locked i rest o => exact ⟨h.1.mono hd, hO i o (hfile h.1) h.2⟩
  | checked i rest o =>
      obtain ⟨hin, ho, p, hp, hu, hi⟩ := h
      obtain ⟨p', hp', hu', hi'⟩ := hq o.uid rfl p hp hu
      exact ⟨hin.mono hd, hO i o (hfile hin) ho, p', hp', hu', hi'.trans hi⟩

/-- A step of a task that writes no file and leaves the list alone. -/
theorem Inv.setComp (h : Inv cfg s) (m' : ℕ → Bool) (hn : pc.new? = none)
    (hc : Claims s.pool s.nextUid (Function.update s.comp t pc))
    (hf : Files s.disk s.pool (Function.update s.comp t pc))
    (hm : Mutexes m' (Function.update s.comp t pc) s.vac) :
    Inv cfg { s with comp := Function.update s.comp t pc, perSegMutex := m' } where
  fits := h.fits
  claims := hc
  files := hf
  carried := h.carried.same hn
  mutexes := hm
  found := fun r hr => (h.found r hr).imp_left fun hd => hd.same hn
  seen := h.seen
  dead := h.dead
  place := by
    refine h.place.mono (fun _ => id) (fun r hd => hd.same hn) (fun i o _ ho => ?_)
      (fun u _ p hp hu => ⟨p, hp, hu, rfl⟩)
    refine ⟨fun t' new => ?_, ho.uid, ho.lt, ho.ref⟩
    dsimp only
    rw [Function.update_apply]
    split
    · rw [CompactionPc.onDisk?_of_new? hn]
      rintro ⟨⟩
    · exact ho.settled t' new

/-- A change of members that keeps what identifies them and the masks. -/
theorem Inv.setPool {g : PoolSegment → PoolSegment} (h : Inv cfg s)
    (hg : ∀ p, (g p).ref = p.ref) (hc : Claims (s.pool.map g) s.nextUid s.comp)
    (hm : ∀ p, (g p).file.mapping = p.file.mapping)
    (hb : ∀ p r, p.file.Masks r → (g p).file.Masks r) : Inv cfg (s.setPool (s.pool.map g)) where
  fits := h.fits
  claims := hc
  files := h.files.map (fun p => congrArg SegmentRef.info (hg p)) hm
  carried := h.carried.map (fun p => congrArg SegmentRef.info (hg p)) hb
  mutexes := h.mutexes
  found := fun r hr => (h.found r hr).imp_left fun hd =>
    hd.map (fun p => congrArg SegmentRef.info (hg p)) fun p => hb p r
  seen := h.seen
  dead := h.dead
  place := by
    refine h.place.mono (fun _ => id)
      (fun r hd => hd.map (fun p => congrArg SegmentRef.info (hg p)) fun p => hb p r)
      (fun i o _ ho => ⟨ho.settled, ?_, ho.lt, ?_⟩) fun u _ p hp hu => ⟨g p, List.mem_map_of_mem hp,
        (congrArg SegmentRef.uid (hg p)).trans hu, congrArg SegmentRef.info (hg p)⟩
    · intro q hq hqi
      obtain ⟨p, hp, rfl⟩ := List.mem_map.mp hq
      have hi : (g p).info = p.info := congrArg SegmentRef.info (hg p)
      have hu : (g p).uid = p.uid := congrArg SegmentRef.uid (hg p)
      rw [hu]
      exact ho.uid p hp (hi.symm.trans hqi)
    · intro q hq hqu
      obtain ⟨p, hp, rfl⟩ := List.mem_map.mp hq
      have hu : (g p).uid = p.uid := congrArg SegmentRef.uid (hg p)
      rw [hg]
      exact ho.ref p hp (hu.symm.trans hqu)

theorem Inv.claim {us : List ℕ} (h : Inv cfg s) (ha : InStep s (.claim t us))
    (hs : claimStep s t us = some s') : Inv cfg s' := by
  unfold claimStep at hs
  split at hs
  next ht =>
    dsimp only at hs
    split at hs
    next hok =>
      obtain rfl := Option.some.inj hs
      set ps := s.pool.filter (·.uid ∈ us) with hps
      have hc := h.claims.claim (t := t) ha hok.2
      have hpool :
          Inv cfg (s.setPool (s.pool.map (setCompacting (uids (ps.map (·.ref))) true))) := by
        refine h.setPool (fun _ => rfl) ?_ (fun _ => rfl) fun _ _ => id
        refine h.claims.map (fun _ => rfl) fun t' p hp ht' => ?_
        simp [setCompacting, h.claims.compacting t' p hp ht']
      refine hpool.setComp s.perSegMutex rfl hc ?_ (hpool.mutexes.same ?_)
      · exact hpool.files.same (by simp [CompactionPc.new?]) (by simp [ht, CompactionPc.onDisk?])
          (by simp)
      · rintro u ⟨⟩
    next => cases hs
  next => cases hs

theorem Inv.reload {files : List SegmentFile} {n : ℕ} {new : SegmentFile} (h : Inv cfg s)
    (ht : s.comp t = .loaded olds files n) (hn : olds.length ≤ n)
    (hc : (files.mapM fun f => s.disk.load f.info).bind (compact files) = some new) :
    Inv cfg (s.setComp t (.reloaded olds new)) := by
  have hol : (s.comp t).olds = olds := by rw [ht]; rfl
  have hsorted : olds.Pairwise fun o o' => o.info.endSid < o'.info.startSid := by
    obtain ⟨ps, hps, he⟩ := h.claims.run t
    rw [← hol, ← he, List.pairwise_map]
    exact h.claims.sorted.sublist hps.sublist
  obtain ⟨hsound, hhull, hmasks, hrows⟩ := compact_spec h.files.nodup h.files.sound
    (h.files.loaded t olds files n ht) hsorted hc
  have hdone : ∀ r, Done s.disk s.pool s.comp r →
      Done s.disk s.pool (Function.update s.comp t (.reloaded olds new)) r :=
    fun r hd => hd.reload h.claims (hmasks r) hol
  refine ⟨h.fits, ?_, ?_, ?_, ?_, ?_, h.seen, h.dead, ?_⟩
  · exact h.claims.same hol.symm (by rw [ht]; rfl)
  · refine h.files.same ?_ (by rw [ht]; rfl) (by simp)
    rintro new' ⟨⟩
    exact ⟨hsound, hhull⟩
  · exact h.carried.reload hmasks hrows
  · refine h.mutexes.same fun u hu => ?_
    rw [ht]
    simpa [CompactionPc.held, List.take_of_length_le hn] using hu
  · exact fun r hr => (h.found r hr).imp_left (hdone r)
  · refine h.place.mono (fun _ => id) hdone (fun i o _ ho => ?_)
      (fun u _ p hp hu => ⟨p, hp, hu, rfl⟩)
    refine ⟨fun t' new' => ?_, ho.uid, ho.lt, ho.ref⟩
    rw [setComp_comp, Function.update_apply]
    split
    · rintro ⟨⟩
    · exact ho.settled t' new'

theorem Inv.publish {new : SegmentFile} (h : Inv cfg s) (ht : s.comp t = .reloaded olds new)
    (hfit : Fits (new :: s.disk)) (new' : SegmentFile)
    (hnew : new' = { new with version := s.disk.latestVersion new.startSid new.endSid + 1 }) :
    Inv cfg ((s.setDisk (new' :: s.disk)).setComp t (.published olds new')) := by
  have hf := h.files.publish h.claims ht new' hnew
  have hfresh : ∀ f ∈ s.disk, f.info ≠ new'.info := by
    intro f hfd he
    have hn := hf.nodup
    rw [List.map_cons, List.nodup_cons] at hn
    exact hn.1 (List.mem_map.mpr ⟨f, hfd, he⟩)
  have hmasks : new'.Masks = new.Masks := by rw [hnew]; rfl
  have hdone : ∀ r, Done s.disk s.pool s.comp r →
      Done (new' :: s.disk) s.pool (Function.update s.comp t (.published olds new')) r :=
    fun r hd => hd.publish ht hmasks hfresh h.files
  have hsub : ∀ f ∈ s.disk, f ∈ new' :: s.disk := fun f => List.mem_cons_of_mem new'
  have hfit' : Fits (new' :: s.disk) := by
    rw [hnew]
    exact hfit
  refine ⟨hfit', ?_, hf, ?_, ?_, ?_, ?_, h.dead, ?_⟩
  · exact h.claims.same (by rw [ht]; rfl) (by rw [ht]; rfl)
  · exact h.carried.publish ht (by rw [hnew]) (by rw [hnew]) hfresh h.files h.claims
  · refine h.mutexes.same fun u hu => ?_
    rw [ht]
    exact hu
  · exact fun r hr => (h.found r hr).imp_left (hdone r)
  · intro r hr
    obtain ⟨f, hfd, hfr⟩ := h.seen r hr
    exact ⟨f, hsub f hfd, hfr⟩
  · refine h.place.mono hsub hdone (fun i o hi ho => ?_) (fun u _ p hp hu => ⟨p, hp, hu, rfl⟩)
    refine ⟨fun t' new'' => ?_, ho.uid, ho.lt, ho.ref⟩
    rw [setComp_comp, Function.update_apply]
    split
    · rintro ⟨⟩ he
      obtain ⟨f, hfd, hfi⟩ := hi
      exact hfresh f hfd (hfi.trans he.symm)
    · exact ho.settled t' new''

theorem Inv.install {new : SegmentFile} (h : Inv cfg s) (ht : s.comp t = .published olds new) :
    Inv cfg ({ s.setPool (replace (uids olds) ⟨s.nextUid, new, false⟩ s.pool) with
      nextUid := s.nextUid + 1 }.setComp t (.installed olds)) := by
  have hd : (s.comp t).onDisk? = some new := by rw [ht]; rfl
  have hol : (s.comp t).olds = olds := by rw [ht]; rfl
  have hh : Hull olds new := hol ▸ h.files.hull_of_onDisk hd
  have hc := h.claims.install hol (by rw [ht]; rfl) hh
  have hmem : ∀ p ∈ replace (uids olds) ⟨s.nextUid, new, false⟩ s.pool,
      p = ⟨s.nextUid, new, false⟩ ∨ p ∈ s.pool := by
    intro p hp
    obtain ⟨a, ps, c, hpool, -, -, hrep, -⟩ :=
      h.claims.exists_run hol hh.ne_nil ⟨s.nextUid, new, false⟩
    rw [hrep] at hp
    rw [hpool]
    simp only [List.mem_append, List.mem_cons] at hp ⊢
    tauto
  refine ⟨h.fits, hc, ?_, ?_, ?_, ?_, h.seen, h.dead, ?_⟩
  · exact h.files.install h.claims ht
  · exact h.carried.install ht h.files h.claims
  · refine h.mutexes.same fun u hu => ?_
    rw [ht]
    exact hu
  · exact fun r hr => (h.found r hr).imp_left fun hdone => hdone.install ht
  · refine h.place.mono (fun _ => id) (fun r hdone => hdone.install ht) (fun i o _ ho => ?_) ?_
    · refine ⟨fun t' new' => ?_, fun p hp hi => ?_, ho.lt.trans (Nat.lt_succ_self _),
        fun p hp hu => ?_⟩
      · rw [setComp_comp, Function.update_apply]
        split
        · rintro ⟨⟩
        · exact ho.settled t' new'
      · rcases hmem p hp with rfl | hp
        · exact absurd hi (ho.settled t new hd)
        · exact ho.uid p hp hi
      · rcases hmem p hp with rfl | hp
        · exact absurd hu ho.lt.ne'
        · exact ho.ref p hp hu
    · -- The slot whose mutex the worker holds is not one of those replaced.
      intro u hu p hp hpu
      refine ⟨p, ?_, hpu, rfl⟩
      have hout : p.uid ∉ uids olds := by
        intro hin
        have hno := (h.mutexes.worker u hu).2 t
        rw [ht] at hno
        exact hno (hpu ▸ hin)
      obtain ⟨a, ps, c, hpool, -, he, hrep, -⟩ :=
        h.claims.exists_run hol hh.ne_nil ⟨s.nextUid, new, false⟩
      have hnp : p ∉ ps := by
        intro hps
        exact hout (mem_uids.mpr ⟨p.ref, he ▸ List.mem_map_of_mem hps, rfl⟩)
      have hgoal : p ∈ replace (uids olds) ⟨s.nextUid, new, false⟩ s.pool := by
        rw [hrep]
        rw [hpool] at hp
        simp only [List.mem_append, List.mem_cons] at hp ⊢
        tauto
      exact hgoal

theorem Inv.crash (h : Inv cfg s) (hd : (s.comp t).onDisk? = none) :
    Inv cfg (s.setComp t .crashed) := by
  refine h.setComp s.perSegMutex rfl (h.claims.leave rfl rfl) ?_ (h.mutexes.same ?_)
  · exact h.files.same (by rintro _ ⟨⟩) (by rw [hd]; rfl) (by rintro _ _ _ ⟨⟩)
  · rintro u ⟨⟩

theorem Inv.unlock (h : Inv cfg s) (ht : (s.comp t).held = olds) (hn : pc.new? = none)
    (hp : pc.held = []) (hd : (s.comp t).onDisk? = none)
    (hc : Claims s.pool s.nextUid (Function.update s.comp t pc))
    (hl : ∀ olds files n, pc ≠ .loaded olds files n) :
    Inv cfg ((s.setMutex (uids olds) false).setComp t pc) := by
  refine h.setComp _ hn hc ?_ (h.mutexes.unlock h.claims ht hp)
  refine h.files.same ?_ ?_ ?_
  · intro new hnew
    rw [hn] at hnew
    cases hnew
  · rw [CompactionPc.onDisk?_of_new? hn, hd]
  · exact fun olds files n he => absurd he (hl olds files n)

theorem Inv.compactStep (h : Inv cfg s) (ha : InStep s (.comp t))
    (hs : compactStep s t = some s') : Inv cfg s' := by
  unfold OnDisk.compactStep at hs
  unfold InStep at ha
  dsimp only at ha
  split at hs
  next => cases hs
  next => cases hs
  next olds ht =>
    have hd : (s.comp t).onDisk? = none := by rw [ht]; rfl
    split at hs
    next =>
      obtain rfl := Option.some.inj hs
      exact h.crash hd
    next files hf =>
      split at hs
      next =>
        obtain rfl := Option.some.inj hs
        refine h.setComp s.perSegMutex rfl ?_ (h.files.load h.claims ht hf) ?_
        · exact h.claims.same (by rw [ht]; rfl) (by rw [ht]; rfl)
        · refine h.mutexes.same ?_
          rintro u ⟨⟩
      next =>
        obtain rfl := Option.some.inj hs
        exact h.crash hd
  next olds files n ht =>
    split at hs
    next o ho =>
      split at hs
      next => cases hs
      next hfree =>
        obtain rfl := Option.some.inj hs
        refine h.setComp _ rfl ?_ ?_ (h.mutexes.lock (by simpa using hfree) ?_)
        · exact h.claims.same (by rw [ht]; rfl) (by rw [ht]; rfl)
        · refine h.files.same (by rintro _ ⟨⟩) (by rw [ht]; rfl) ?_
          rintro _ _ _ ⟨⟩
          exact h.files.loaded t olds files n ht
        · intro u hu
          obtain ⟨o', ho', rfl⟩ := mem_uids.mp hu
          have ho' : o' ∈ olds.take (n + 1) := ho'
          rw [List.take_add_one, ho, List.mem_append] at ho'
          rcases ho' with ho' | ho'
          · refine Or.inr ?_
            rw [ht]
            exact mem_uids.mpr ⟨o', ho', rfl⟩
          · obtain rfl : o' = o := by simpa using ho'
            exact Or.inl rfl
    next ho =>
      split at hs
      next =>
        obtain rfl := Option.some.inj hs
        exact h.crash (by rw [ht]; rfl)
      next new hnew =>
        obtain rfl := Option.some.inj hs
        exact h.reload ht (List.getElem?_eq_none_iff.mp ho) hnew
  next olds new ht =>
    obtain rfl := Option.some.inj hs
    rw [ht] at ha
    exact h.publish ht ha _ rfl
  next olds new ht =>
    obtain rfl := Option.some.inj hs
    exact h.install ht
  next olds ht =>
    obtain rfl := Option.some.inj hs
    refine h.unlock (by rw [ht]; rfl) rfl rfl (by rw [ht]; rfl) (h.claims.leave rfl rfl) ?_
    rintro _ _ _ ⟨⟩
  next olds ht =>
    obtain rfl := Option.some.inj hs
    have hidle : Inv cfg (s.setComp t .idle) := by
      refine h.setComp s.perSegMutex rfl (h.claims.leave rfl rfl) ?_ (h.mutexes.same ?_)
      · exact h.files.same (by rintro _ ⟨⟩) (by rw [ht]; rfl) (by rintro _ _ _ ⟨⟩)
      · rintro u ⟨⟩
    exact hidle.setPool (fun _ => rfl) (h.claims.clear ht rfl rfl) (fun _ => rfl) fun _ _ => id

theorem Inv.giveUp (h : Inv cfg s) (ha : InStep s (.giveUp t)) (hs : giveUpStep s t = some s') :
    Inv cfg s' := by
  unfold giveUpStep at hs
  split at hs
  next olds new ht =>
    obtain rfl := Option.some.inj hs
    refine h.unlock (by rw [ht]; rfl) rfl rfl ha ?_ ?_
    · exact h.claims.same (by rw [ht]; rfl) (by rw [ht]; rfl)
    · rintro _ _ _ ⟨⟩
  next olds new ht =>
    have ha : (s.comp t).onDisk? = none := ha
    rw [ht] at ha
    cases ha
  next => cases hs

end Compaction

end VectorLsm.OnDisk
