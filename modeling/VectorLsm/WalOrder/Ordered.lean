import VectorLsm.WalOrder.Announced

/-! # The order of the log

Wherever the primary's steps interleave, a segment file masks announced rows only and a memtable
bit is announced or set by the pass that is to announce it. A pass that an error ends before its
record leaves bits of the other kind behind, and the flush worker copies them.
-/

namespace VectorLsm

namespace WalOrder

open Transition SegmentFile

variable {V : Type*}

/-- The rows masked by the bitmap of a memtable are still at their slots in the file. -/
def InPlace (mt : ConcurrentMemTable V) (f : SegmentFile) : Prop :=
  ∀ p ∈ f.mapping.zipIdx, mt.bitmap p.2 = true → p.1.slot = p.2

instance (mt : ConcurrentMemTable V) (f : SegmentFile) : Decidable (InPlace mt f) :=
  inferInstanceAs (Decidable (∀ p ∈ f.mapping.zipIdx, mt.bitmap p.2 = true → p.1.slot = p.2))

/-- An error leaves no mark in a memtable that no record names, and the bitmap of a persistent
memtable goes to a file with the masked rows in place. -/
def Announcing (s : State V) : Action V → Prop
  | .failVac => ∀ p ∈ s.vac.pending, Announced s.wal p.1 p.2
  | .vac _ =>
      match s.vac with
      | .write sid _ (some i) => ∀ f ∈ s.disk, f.info = i → InPlace (s.mts sid) f
      | _ => True
  | _ => True

instance (s : State V) : DecidablePred (Announcing s) := by
  intro a
  cases a with
  | vac retry =>
      unfold Announcing
      dsimp only
      split <;> infer_instance
  | _ =>
      unfold Announcing
      infer_instance

/-- A file read from the disk: nothing but its bitmap changes there. -/
def Stays (disk : Disk) (f : SegmentFile) : Prop :=
  ∃ g ∈ disk, g.info = f.info ∧ g.mapping = f.mapping ∧ g.offsets = f.offsets

/-- What a merge thread relies on. -/
def Compacting (wal : List Record) (disk : Disk) : CompactionPc → Prop
  | .idle => True
  | .loaded files => InOrder files ∧ ∀ f ∈ files, Stays disk f
  | .reloaded new | .written new => new.Labelled ∧ Covered wal new

/-- What vacuum relies on: the bits it is to write are announced or have their records next. -/
def Vacuuming (wal : List Record) (disk : Disk) : VacuumPc → Prop
  | .emit sid _ owner _ | .write sid _ owner => ∀ i ∈ owner, i.startSid = sid ∧ i.endSid = sid
  | .emitSegment i _ bitmap deleteCount records =>
      (∀ rec ∈ records, ∀ new, rec ≠ .segment new) ∧
      ∃ f ∈ disk, f.info = i ∧ ∀ r, (f.setBitmap bitmap deleteCount).Masked r →
        Announced wal r.sid r.slot ∨ ∃ rec ∈ records, rec.Names r.sid r.slot
  | _ => True

structure Inv (s : State V) : Prop where
  ordered : Ordered s.wal
  nodup : (s.disk.map (·.info)).Nodup
  files : ∀ f ∈ s.disk, f.Labelled ∧ Covered s.wal f
  marks : ∀ sid k, (s.mts sid).bitmap k = true →
    Announced s.wal sid k ∨ (sid, k) ∈ s.vac.pending
  locks : ∀ sid, s.flush.shared = some sid → s.vac.exclusive ≠ some sid
  flushed : ∀ new, s.flush = .written new → Covered s.wal new
  compacting : ∀ t, Compacting s.wal s.disk (s.comp t)
  vacuuming : Vacuuming s.wal s.disk s.vac

section Updates

variable {s : State V} {sid : SegmentId} {new : SegmentFile} {wal wal' : List Record} {disk : Disk}

theorem Stays.cons {f : SegmentFile} (h : Stays disk f) : Stays (new :: disk) f := by
  obtain ⟨g, hg, hgf⟩ := h
  exact ⟨g, List.mem_cons_of_mem new hg, hgf⟩

theorem Stays.writeBitmap {f : SegmentFile} (h : Stays disk f) (i : SegmentFileInfo)
    (bitmap : ℕ → Bool) (n : ℕ) : Stays (disk.writeBitmap i bitmap n) f := by
  obtain ⟨g, hg, hi, hm, ho⟩ := h
  refine ⟨_, Disk.mem_writeBitmap.mpr ⟨g, hg, rfl⟩, ?_⟩
  split
  · exact ⟨hi, hm, ho⟩
  · exact ⟨hi, hm, ho⟩

theorem Compacting.append {pc : CompactionPc} (h : Compacting wal disk pc) :
    Compacting (wal ++ wal') disk pc := by
  cases pc with
  | idle => trivial
  | loaded files => exact h
  | reloaded new => exact ⟨h.1, h.2.append⟩
  | written new => exact ⟨h.1, h.2.append⟩

theorem Compacting.cons {pc : CompactionPc} (h : Compacting wal disk pc) :
    Compacting wal (new :: disk) pc := by
  cases pc with
  | loaded files => exact ⟨h.1, fun f hf => (h.2 f hf).cons⟩
  | _ => exact h

theorem Compacting.writeBitmap {pc : CompactionPc} (h : Compacting wal disk pc)
    (i : SegmentFileInfo) (bitmap : ℕ → Bool) (n : ℕ) :
    Compacting wal (disk.writeBitmap i bitmap n) pc := by
  cases pc with
  | loaded files => exact ⟨h.1, fun f hf => (h.2 f hf).writeBitmap i bitmap n⟩
  | _ => exact h

theorem Vacuuming.append {pc : VacuumPc} (h : Vacuuming wal disk pc) :
    Vacuuming (wal ++ wal') disk pc := by
  cases pc with
  | emitSegment i rest bitmap n records =>
      obtain ⟨hrec, f, hf, hi, hm⟩ := h
      exact ⟨hrec, f, hf, hi, fun r hr => (hm r hr).imp_left Announced.append⟩
  | _ => exact h

theorem Vacuuming.cons {pc : VacuumPc} (h : Vacuuming wal disk pc) :
    Vacuuming wal (new :: disk) pc := by
  cases pc with
  | emitSegment i rest bitmap n records =>
      obtain ⟨hrec, f, hf, hm⟩ := h
      exact ⟨hrec, f, List.mem_cons_of_mem new hf, hm⟩
  | _ => exact h

theorem Vacuuming.writeBitmap {pc : VacuumPc} (h : Vacuuming wal disk pc) (i : SegmentFileInfo)
    (bitmap : ℕ → Bool) (n : ℕ) : Vacuuming wal (disk.writeBitmap i bitmap n) pc := by
  cases pc with
  | emitSegment j rest bitmap' n' records =>
      obtain ⟨hrec, f, hf, hi, hm⟩ := h
      refine ⟨hrec, _, Disk.mem_writeBitmap.mpr ⟨f, hf, rfl⟩, ?_⟩
      split
      · exact ⟨hi, hm⟩
      · exact ⟨hi, hm⟩
  | _ => exact h

/-- A record is written: a tombstone, or an announcement of a covered file. -/
theorem Inv.log (h : Inv s) {rec : Record} (hnew : ∀ new, rec = .segment new → Covered s.wal new) :
    Inv (s.log rec) where
  ordered := h.ordered.concat hnew
  nodup := h.nodup
  files := fun f hf => ⟨(h.files f hf).1, (h.files f hf).2.append⟩
  marks := fun sid k hk => (h.marks sid k hk).imp_left Announced.append
  locks := h.locks
  flushed := fun new hn => (h.flushed new hn).append
  compacting := fun t => (h.compacting t).append
  vacuuming := h.vacuuming.append

/-- New files are written, under a version of their own. -/
theorem Inv.addFile (h : Inv s) (hl : new.Labelled) (hc : Covered s.wal new)
    (hv : new.version = s.disk.latestVersion new.startSid new.endSid + 1) :
    Inv (s.setDisk (new :: s.disk)) where
  ordered := h.ordered
  nodup := by
    refine List.nodup_cons.mpr ⟨fun hm => ?_, h.nodup⟩
    obtain ⟨f, hf, hi⟩ := List.mem_map.mp hm
    obtain ⟨hs, he, hver⟩ := SegmentFileInfo.mk.injEq .. ▸ hi
    have := Disk.le_latestVersion hf
    rw [hs, he] at this
    omega
  files := List.forall_mem_cons.mpr ⟨⟨hl, hc⟩, h.files⟩
  marks := h.marks
  locks := h.locks
  flushed := h.flushed
  compacting := fun t => (h.compacting t).cons
  vacuuming := h.vacuuming.cons

/-- A bitmap is written after its records. -/
theorem Inv.writeBitmap (h : Inv s) {i : SegmentFileInfo} {bitmap : ℕ → Bool} {n : ℕ}
    (hc : ∀ f ∈ s.disk, f.info = i → Covered s.wal (f.setBitmap bitmap n)) :
    Inv (s.setDisk (s.disk.writeBitmap i bitmap n)) where
  ordered := h.ordered
  nodup := by
    rw [State.setDisk_disk, Disk.writeBitmap_info]
    exact h.nodup
  files := by
    intro g hg
    obtain ⟨f, hf, rfl⟩ := Disk.mem_writeBitmap.mp hg
    obtain ⟨hl, hcov⟩ := h.files f hf
    split
    next hi => exact ⟨hl.setBitmap bitmap n, hc f hf hi⟩
    next hi => exact ⟨hl, hcov⟩
  marks := h.marks
  locks := h.locks
  flushed := h.flushed
  compacting := fun t => (h.compacting t).writeBitmap i bitmap n
  vacuuming := h.vacuuming.writeBitmap i bitmap n

theorem Inv.setMt (h : Inv s) {mt : ConcurrentMemTable V} (hb : mt.bitmap = (s.mts sid).bitmap) :
    Inv (s.setMt sid mt) := by
  refine { h with marks := fun sid' k hk => ?_ }
  rw [State.setMt_mts, Function.update_apply] at hk
  split at hk
  next he =>
    subst he
    rw [hb] at hk
    exact h.marks sid' k hk
  next => exact h.marks sid' k hk

theorem Inv.setFlush (h : Inv s) {pc : FlushPc}
    (hl : ∀ sid, pc.shared = some sid → s.vac.exclusive ≠ some sid)
    (hw : ∀ new, pc = .written new → Covered s.wal new) : Inv (s.setFlush pc) :=
  { h with locks := hl, flushed := hw }

theorem Inv.setComp (h : Inv s) {t : ℕ} {pc : CompactionPc} (hc : Compacting s.wal s.disk pc) :
    Inv (s.setComp t pc) := by
  refine { h with compacting := fun t' => ?_ }
  rw [State.setComp_comp, Function.update_apply]
  split
  · exact hc
  · exact h.compacting t'

theorem Inv.setVac (h : Inv s) {pc : VacuumPc}
    (hp : ∀ p ∈ s.vac.pending, Announced s.wal p.1 p.2 ∨ p ∈ pc.pending)
    (hl : ∀ sid, pc.exclusive = some sid → s.flush.shared ≠ some sid)
    (hv : Vacuuming s.wal s.disk pc) : Inv (s.setVac pc) where
  ordered := h.ordered
  nodup := h.nodup
  files := h.files
  marks := fun sid k hk => (h.marks sid k hk).elim Or.inl fun hm => hp _ hm
  locks := fun sid hs he => hl sid he hs
  flushed := h.flushed
  compacting := h.compacting
  vacuuming := hv

/-- Where vacuum has nothing marked that no record names, it may go anywhere without a lock. -/
theorem Inv.leave (h : Inv s) {pc : VacuumPc} (hn : s.vac.pending = []) (hl : pc.exclusive = none)
    (hv : Vacuuming s.wal s.disk pc) : Inv (s.setVac pc) := by
  refine h.setVac (fun p hp => ?_) (fun sid he => ?_) hv
  · rw [hn] at hp
    cases hp
  · rw [hl] at he
    cases he

end Updates

section Steps

variable {s s' : State V}

theorem Inv.build (tids : List Tid) (v : V) : Inv (State.build tids v) where
  ordered := Ordered.nil.concat fun new hn => by
    obtain rfl := Record.segment.inj hn
    exact .of_clear fun _ => rfl
  nodup := List.nodup_singleton _
  files := by
    intro f hf
    obtain rfl := List.mem_singleton.mp hf
    exact ⟨.flush startSegmentId tids _, .of_clear fun _ => rfl⟩
  marks := by
    intro sid k hk
    cases hk
  locks := by
    intro sid hs
    cases hs
  flushed := by
    intro new hn
    cases hn
  compacting := fun _ => trivial
  vacuuming := trivial

theorem Inv.registerStep (h : Inv s) {cap : ℕ} (hs : registerStep s cap = some s') : Inv s' := by
  unfold WalOrder.registerStep at hs
  split at hs
  · cases hs
  · obtain rfl := Option.some.inj hs
    refine { h with marks := fun sid k hk => ?_ }
    dsimp only at hk
    rw [State.setMt_mts, Function.update_apply] at hk
    split at hk
    · cases hk
    · exact h.marks sid k hk

theorem Inv.sealStep (h : Inv s) (hs : sealStep s = some s') : Inv s' := by
  unfold WalOrder.sealStep at hs
  split at hs
  · cases hs
  next sid hg =>
    split at hs
    · obtain rfl := Option.some.inj hs
      have h₁ : Inv (s.setMt sid (s.mts sid).setSealed) := h.setMt rfl
      exact { h₁ with }
    · cases hs

theorem InsertOp.apply_bitmap (mt : ConcurrentMemTable V) (op : InsertOp V) :
    (op.apply mt).bitmap = mt.bitmap := by
  cases op <;> rfl

/-- While the worker has the lock of a memtable, no pass over it is on. -/
theorem Inv.announced_of_locked (h : Inv s) {sid : SegmentId} {k : ℕ}
    (hs : s.flush.shared = some sid) (hk : (s.mts sid).bitmap k = true) :
    Announced s.wal sid k := by
  refine (h.marks sid k hk).resolve_right fun hp => h.locks sid hs ?_
  cases hv : s.vac with
  | scan sid' checkReady i n entries =>
      rw [hv] at hp
      obtain ⟨e, -, he⟩ := List.mem_map.mp hp
      exact congrArg some (Prod.mk.inj he).1
  | emit sid' n owner entries =>
      rw [hv] at hp
      obtain ⟨e, -, he⟩ := List.mem_map.mp hp
      exact congrArg some (Prod.mk.inj he).1
  | _ =>
      rw [hv] at hp
      cases hp

theorem Inv.flushStep (h : Inv s) (hs : flushStep s = some s') : Inv s' := by
  unfold WalOrder.flushStep at hs
  split at hs
  next hpc =>
    split at hs
    · cases hs
    next sid hq =>
      obtain rfl := Option.some.inj hs
      have h₁ : Inv (s.setMt sid (s.mts sid).setFlushClaimed) := h.setMt rfl
      refine h₁.setFlush ?_ ?_
      · rintro sid' ⟨⟩
      · rintro new ⟨⟩
  next sid hpc =>
    split at hs
    · split at hs
      · cases hs
      next hfree =>
        obtain rfl := Option.some.inj hs
        refine h.setFlush ?_ ?_
        · rintro sid' ⟨⟩
          exact hfree
        · rintro new ⟨⟩
    · obtain rfl := Option.some.inj hs
      refine h.setFlush ?_ ?_
      · rintro sid' ⟨⟩
      · rintro new ⟨⟩
  next sid hpc =>
    dsimp only at hs
    have hlock : s.flush.shared = some sid := by rw [hpc]; rfl
    split at hs
    · cases hs
    · split at hs
      · obtain rfl := Option.some.inj hs
        refine h.setFlush ?_ ?_
        · rintro sid' ⟨⟩
        · rintro new ⟨⟩
      · obtain rfl := Option.some.inj hs
        generalize hnew : SegmentFile.flush sid _ _ _ = new
        -- The rows of the new file are at their slots.
        have hc : Covered s.wal new := by
          subst hnew
          rintro r ⟨k, hk, hb⟩
          obtain ⟨hsid, hslot⟩ := memtableRows_getElem? hk
          rw [hsid, hslot]
          exact h.announced_of_locked hlock hb
        have hl : new.Labelled := hnew ▸ .flush sid _ _
        refine (h.addFile hl hc (by rw [← hnew]; rfl)).setFlush ?_ ?_
        · rintro sid' hsid
          have hst : new.startSid = sid := by rw [← hnew]; rfl
          obtain rfl : new.startSid = sid' := Option.some.inj hsid
          rw [hst]
          exact h.locks sid hlock
        · intro new' hn
          obtain rfl := FlushPc.written.inj hn
          exact hc
  next new hpc =>
    obtain rfl := Option.some.inj hs
    have hc := h.flushed new hpc
    refine (h.log fun new' hn => Record.segment.inj hn ▸ hc).setFlush ?_ ?_
    · intro sid hsid
      exact h.locks sid (by rw [hpc]; exact hsid)
    · rintro new' ⟨⟩
  next sid hpc =>
    obtain rfl := Option.some.inj hs
    refine Inv.setFlush (s := { s with queue := s.queue.erase sid }) { h with } ?_ ?_
    · rintro sid' ⟨⟩
    · rintro new ⟨⟩

theorem Inv.compactStep (h : Inv s) {t : ℕ} {ranges : List (SegmentId × SegmentId)}
    (hs : compactStep s t ranges = some s') : Inv s' := by
  unfold WalOrder.compactStep at hs
  split at hs
  · split at hs
    · cases hs
    next files hf =>
      split at hs
      next hord =>
        obtain rfl := Option.some.inj hs
        refine h.setComp ⟨hord, fun f hm => ?_⟩
        obtain ⟨r, -, hr⟩ := OnDisk.mem_of_mapM hf hm
        exact ⟨f, List.mem_of_find?_eq_some hr, rfl, rfl, rfl⟩
      · cases hs
  · cases hs

theorem Inv.compStep (h : Inv s) {t : ℕ} (hs : compStep s t = some s') : Inv s' := by
  have hpc := h.compacting t
  unfold WalOrder.compStep at hs
  split at hs
  · cases hs
  next files hc =>
    rw [hc] at hpc
    obtain ⟨hord, hstay⟩ := hpc
    split at hs
    · obtain rfl := Option.some.inj hs
      exact h.setComp trivial
    next new hn =>
      obtain rfl := Option.some.inj hs
      obtain ⟨fresh, hfresh, hcompact⟩ := Option.bind_eq_some_iff.mp hn
      -- The version read again is the one read first.
      have hload : ∀ f ∈ files, ∀ g, s.disk.load f.info = some g →
          g.info = f.info ∧ g.mapping = f.mapping ∧ g.offsets = f.offsets := by
        intro f hf g hg
        obtain ⟨g', hg', hi, hm, ho⟩ := hstay f hf
        have heq := (Disk.load_eq_some h.nodup).mpr ⟨hg', hi⟩
        obtain rfl := Option.some.inj (hg.symm.trans heq)
        exact ⟨hi, hm, ho⟩
      have hdisk : ∀ g ∈ fresh, g ∈ s.disk := by
        intro g hg
        obtain ⟨f, -, hf⟩ := OnDisk.mem_of_mapM hfresh hg
        exact List.mem_of_find?_eq_some hf
      refine h.setComp (compact_covered (fun g hg => (h.files g (hdisk g hg)).1)
        (fun g hg => (h.files g (hdisk g hg)).2) ?_ ?_ ?_ hord hcompact)
      · exact OnDisk.map_of_mapM hfresh fun f hf g hg => (hload f hf g hg).2.1
      · exact OnDisk.map_of_mapM hfresh fun f hf g hg => (hload f hf g hg).1
      · exact OnDisk.map_of_mapM hfresh fun f hf g hg => (hload f hf g hg).2.2
  next new hc =>
    rw [hc] at hpc
    obtain rfl := Option.some.inj hs
    obtain ⟨hl, hcov⟩ := hpc
    exact (h.addFile hl.setVersion hcov.setVersion rfl).setComp ⟨hl.setVersion, hcov.setVersion⟩
  next new hc =>
    rw [hc] at hpc
    obtain rfl := Option.some.inj hs
    exact (h.log fun new' hn => Record.segment.inj hn ▸ hpc.2).setComp trivial

theorem nextSegment_spec (rest : List SegmentFileInfo) :
    (nextSegment rest).exclusive = none ∧
      ∀ wal disk, Vacuuming wal disk (nextSegment rest) := by
  cases rest with
  | nil => exact ⟨rfl, fun _ _ => trivial⟩
  | cons i rest => exact ⟨rfl, fun _ _ => trivial⟩

theorem Inv.toNext (h : Inv s) (hn : s.vac.pending = []) (rest : List SegmentFileInfo) :
    Inv (s.setVac (nextSegment rest)) :=
  h.leave hn (nextSegment_spec rest).1 ((nextSegment_spec rest).2 _ _)

/-- A slot of a memtable is looked at. -/
theorem Inv.scanStep (h : Inv s) {sid : SegmentId} {checkReady : Bool} {i n : ℕ}
    {entries : List VacuumEntry} (hv : s.vac = .scan sid checkReady i n entries) (tid : Tid) :
    Inv (s.setVac (.scan sid checkReady (i + 1) n entries)) ∧
      Inv ((s.setMt sid ((s.mts sid).mask i)).setVac
        (.scan sid checkReady (i + 1) n (entries ++ [⟨i, tid⟩]))) := by
  have hl : ∀ sid', some sid = some sid' → s.flush.shared ≠ some sid' := by
    rintro sid' ⟨⟩ hsh
    exact h.locks sid hsh (by rw [hv]; rfl)
  constructor
  · refine h.setVac (fun p hp => Or.inr ?_) hl trivial
    rwa [hv] at hp
  · refine { h with marks := fun sid' k hk => ?_, locks := ?_, vacuuming := trivial }
    · simp only [VacuumPc.pending, State.setVac_vac, List.map_append, List.mem_append,
        List.map_cons, List.map_nil, List.mem_singleton]
      rw [State.setVac_mts, State.setMt_mts, Function.update_apply] at hk
      split at hk
      next he =>
        subst he
        rw [ConcurrentMemTable.mask_bitmap, Function.update_apply] at hk
        split at hk
        next hki => exact Or.inr (Or.inr (by rw [hki]))
        next hki =>
          have := h.marks sid' k hk
          rw [hv] at this
          exact this.imp_right Or.inl
      next he =>
        have := h.marks sid' k hk
        rw [hv] at this
        exact this.imp_right Or.inl
    · intro sid' hsh he
      exact hl sid' he hsh

theorem Inv.emitStep (h : Inv s) {sid : SegmentId} {n : ℕ} {owner : Option SegmentFileInfo}
    {entries : List VacuumEntry} (hv : s.vac = .emit sid n owner entries) :
    Inv ((s.log (memtableRecord sid owner entries)).setVac (.write sid n owner)) := by
  have hvac := h.vacuuming
  rw [hv] at hvac
  have hrec : ∀ new, memtableRecord sid owner entries ≠ .segment new := by
    intro new
    cases owner <;> simp [memtableRecord]
  refine (h.log fun new hn => absurd hn (hrec new)).setVac (fun p hp => Or.inl ?_) ?_ hvac
  · -- The record names the slots the pass has marked.
    have hp : p ∈ s.vac.pending := hp
    rw [hv] at hp
    obtain ⟨e, he, rfl⟩ := List.mem_map.mp hp
    refine Announced.of_names ?_
    cases owner <;> exact ⟨rfl, List.mem_map_of_mem he⟩
  · rintro sid' ⟨⟩ hsh
    exact h.locks sid hsh (by rw [hv]; rfl)

theorem Inv.writeStep (h : Inv s) {sid : SegmentId} {n : ℕ} {i : SegmentFileInfo}
    (hv : s.vac = .write sid n (some i))
    (hok : ∀ f ∈ s.disk, f.info = i → InPlace (s.mts sid) f) :
    Inv ((s.setDisk (s.disk.writeBitmap i (s.mts sid).bitmap
      (countBits (s.mts sid).bitmap n))).setVac (.unlock sid)) := by
  have hvac := h.vacuuming
  rw [hv] at hvac
  obtain ⟨hstart, hend⟩ := hvac i rfl
  refine Inv.setVac (h.writeBitmap fun f hf hi r hr => ?_) ?_ ?_ trivial
  · obtain ⟨k, hk, hb⟩ := hr
    have hrange := (h.files f hf).1.sound.rows r (List.mem_of_getElem? hk)
    have hsid : r.sid = sid := by
      have h₁ : f.startSid = i.startSid := congrArg SegmentFileInfo.startSid hi
      have h₂ : f.endSid = i.endSid := congrArg SegmentFileInfo.endSid hi
      lia
    have hz : (r, k) ∈ f.mapping.zipIdx := List.mem_zipIdx_iff_getElem?.mpr hk
    have hslot : r.slot = k := hok f hf hi (r, k) hz hb
    rw [hsid, hslot]
    exact (h.marks sid k hb).resolve_right fun hp => by rw [hv] at hp; cases hp
  · intro p hp
    have hp : p ∈ s.vac.pending := hp
    rw [hv] at hp
    cases hp
  · rintro sid' ⟨⟩ hsh
    exact h.locks sid hsh (by rw [hv]; rfl)

/-- Each bit of the new bitmap was announced or has its record among those to come. -/
theorem Inv.markStep (h : Inv s) {i : SegmentFileInfo} {rest : List SegmentFileInfo}
    {f : SegmentFile} {v : SegmentVacuum} (hn : s.vac.pending = []) (hf : s.disk.load i = some f)
    (hv : f.vacuum s.callback = some v) :
    Inv (s.setVac (.emitSegment i rest v.bitmap v.deleteCount (segmentRecords f s.callback))) := by
  obtain ⟨hfd, hfi⟩ := (Disk.load_eq_some h.nodup).mp hf
  obtain ⟨hl, hc⟩ := h.files f hfd
  refine h.leave hn rfl ⟨?_, f, hfd, hfi, fun r hr => ?_⟩
  · intro rec hrec new
    obtain ⟨t, -, rfl⟩ := List.mem_map.mp hrec
    exact nofun
  · rcases hr.of_vacuum hv with hr | hr
    · exact Or.inl (hc r hr)
    · obtain ⟨t, ht, hsid, hnamed⟩ := hl.exists_tombstone hr
      exact Or.inr ⟨_, List.mem_map_of_mem ht, hsid, List.mem_map_of_mem hnamed⟩

theorem Inv.emitSegmentStep (h : Inv s) {i : SegmentFileInfo} {rest : List SegmentFileInfo}
    {bitmap : ℕ → Bool} {n : ℕ} {rec : Record} {records : List Record}
    (hv : s.vac = .emitSegment i rest bitmap n (rec :: records)) :
    Inv ((s.log rec).setVac (.emitSegment i rest bitmap n records)) := by
  have hvac := h.vacuuming
  rw [hv] at hvac
  obtain ⟨hrec, f, hf, hi, hm⟩ := hvac
  have hpend : (s.log rec).vac.pending = [] := congrArg VacuumPc.pending hv
  refine (h.log fun new hn => absurd hn (hrec rec List.mem_cons_self new)).leave hpend rfl ?_
  refine ⟨fun rec hr => hrec rec (List.mem_cons_of_mem _ hr), f, hf, hi, fun r hr => ?_⟩
  rcases hm r hr with ha | ⟨rec', hr', hn⟩
  · exact Or.inl ha.append
  · rcases List.mem_cons.mp hr' with rfl | hr'
    · exact Or.inl (.of_names hn)
    · exact Or.inr ⟨rec', hr', hn⟩

theorem Inv.vacuumStep (h : Inv s) {retry : Bool} (hok : Announcing s (.vac retry))
    (hs : vacuumStep s retry = some s') : Inv s' := by
  unfold WalOrder.vacuumStep at hs
  unfold Announcing at hok
  split at hs
  · cases hs
  next hv =>
    have hn : s.vac.pending = [] := by rw [hv]; rfl
    split at hs
    · obtain rfl := Option.some.inj hs
      exact Inv.leave (s := { s with growingMemtableId := 0 }) { h with } hn rfl trivial
    next sid hg =>
      obtain rfl := Option.some.inj hs
      exact Inv.leave (s := { s with growingMemtableId := sid }) { h with } hn rfl trivial
  next hv =>
    have hn : s.vac.pending = [] := by rw [hv]; rfl
    split at hs
    · obtain rfl := Option.some.inj hs
      exact h.toNext hn _
    · obtain rfl := Option.some.inj hs
      exact h.leave hn rfl trivial
  next sid checkReady hv =>
    split at hs
    · cases hs
    next hfree =>
      obtain rfl := Option.some.inj hs
      refine h.setVac (fun p hp => ?_) ?_ trivial
      · rw [hv] at hp
        cases hp
      · rintro sid' ⟨⟩
        exact hfree
  next sid checkReady i n entries hv =>
    have hl : ∀ sid', some sid = some sid' → s.flush.shared ≠ some sid' := by
      rintro sid' ⟨⟩ hsh
      exact h.locks sid hsh (by rw [hv]; rfl)
    dsimp only at hs
    split at hs
    · split at hs
      · obtain rfl := Option.some.inj hs
        exact (h.scanStep hv _).2
      · obtain rfl := Option.some.inj hs
        exact (h.scanStep hv 0).1
    · split at hs
      next he =>
        obtain rfl := Option.some.inj hs
        subst he
        refine h.setVac (fun p hp => ?_) hl trivial
        rw [hv] at hp
        cases hp
      next he =>
        split at hs
        · obtain rfl := Option.some.inj hs
          refine h.setVac (fun p hp => Or.inr (by rwa [hv] at hp)) hl ?_
          intro j hj
          obtain rfl := Option.some.inj hj
          exact ⟨rfl, rfl⟩
        · obtain rfl := Option.some.inj hs
          exact h.setVac (fun p hp => Or.inr (by rwa [hv] at hp)) hl nofun
  next sid n owner entries hv =>
    obtain rfl := Option.some.inj hs
    exact h.emitStep hv
  next sid n owner hv =>
    dsimp only at hs
    split at hs
    · obtain rfl := Option.some.inj hs
      refine h.setVac (fun p hp => ?_) ?_ trivial
      · rw [hv] at hp
        cases hp
      · rintro sid' ⟨⟩ hsh
        exact h.locks sid hsh (by rw [hv]; rfl)
    next i =>
      obtain rfl := Option.some.inj hs
      rw [hv] at hok
      exact h.writeStep hv hok
  next sid hv =>
    obtain rfl := Option.some.inj hs
    have hn : s.vac.pending = [] := by rw [hv]; rfl
    exact Inv.leave (s := { s with vacuumedMemtableIds :=
      if s.vacuumedMemtableIds.length < memtableNum + 1 then s.vacuumedMemtableIds ++ [sid]
      else s.vacuumedMemtableIds }) { h with } hn rfl trivial
  next i rest hv =>
    have hn : s.vac.pending = [] := by rw [hv]; rfl
    split at hs
    · obtain rfl := Option.some.inj hs
      exact h.leave hn rfl trivial
    next f hf =>
      split at hs
      · obtain rfl := Option.some.inj hs
        exact h.toNext hn rest
      · split at hs
        · obtain rfl := Option.some.inj hs
          exact h.leave hn rfl trivial
        next v hvac =>
          split at hs
          · obtain rfl := Option.some.inj hs
            exact h.markStep hn hf hvac
          · obtain rfl := Option.some.inj hs
            exact h.toNext hn rest
  next i rest bitmap n records hv =>
    split at hs
    next rec records =>
      obtain rfl := Option.some.inj hs
      exact h.emitSegmentStep hv
    next =>
      obtain rfl := Option.some.inj hs
      have hvac := h.vacuuming
      rw [hv] at hvac
      obtain ⟨-, f, hf, hi, hm⟩ := hvac
      have hn : s.vac.pending = [] := by rw [hv]; rfl
      refine Inv.leave (h.writeBitmap fun g hg hgi r hr => ?_) hn rfl trivial
      obtain rfl : g = f := List.inj_on_of_nodup_map h.nodup hg hf (hgi.trans hi.symm)
      exact (hm r hr).resolve_right fun ⟨rec, hr, _⟩ => by cases hr
  next i rest hv =>
    have hn : s.vac.pending = [] := by rw [hv]; rfl
    split at hs
    · split at hs
      · obtain rfl := Option.some.inj hs
        exact h.toNext hn rest
      · obtain rfl := Option.some.inj hs
        exact h.leave hn rfl trivial
    · obtain rfl := Option.some.inj hs
      exact h.toNext hn rest

theorem Inv.step (h : Inv s) {a : Action V} (hok : Announcing s a) (hs : step s a = some s') :
    Inv s' := by
  cases a with
  | register cap => exact h.registerStep hs
  | insert sid op =>
      obtain rfl := Option.some.inj hs
      exact h.setMt (op.apply_bitmap _)
  | sealGrowing => exact h.sealStep hs
  | flush => exact h.flushStep hs
  | failFlush =>
      obtain rfl := Option.some.inj hs
      refine h.setFlush ?_ ?_
      · rintro sid ⟨⟩
      · rintro new ⟨⟩
  | compact t ranges => exact h.compactStep hs
  | comp t => exact h.compStep hs
  | giveUp t =>
      obtain rfl := Option.some.inj hs
      exact h.setComp trivial
  | bulkDelete callback =>
      dsimp only [WalOrder.step] at hs
      split at hs
      next hv =>
        obtain rfl := Option.some.inj hs
        have hn : s.vac.pending = [] := by rw [hv]; rfl
        exact Inv.leave (s := { s with
          callback := callback
          growingMemtableId := 0
          vacuumedMemtableIds := [] }) { h with } hn rfl trivial
      · cases hs
  | vac retry => exact h.vacuumStep hok hs
  | failVac =>
      obtain rfl := Option.some.inj hs
      refine h.setVac (fun p hp => Or.inl (hok p hp)) ?_ trivial
      rintro sid ⟨⟩

end Steps

/-- An index just built. -/
def Init (s : State V) : Prop := ∃ tids v, s = .build tids v

/-- In a run of announcing steps, each file that a record announces masks rows only that
tombstone records before it name. -/
theorem tombstones_before_files {s : State V} (h : Reachable Init step Announcing s) :
    Ordered s.wal := by
  have hinv : Inv s := h.invariant (P := Inv)
    (fun _ ⟨tids, v, hs⟩ => hs ▸ Inv.build tids v) fun _ _ _ _ h hok hs => h.step hok hs
  exact hinv.ordered

/-- A row of the growing memtable, and vacuum up to its mark. -/
def insertAndMark : List (Action ℕ) :=
  [.register 2, .insert 4 .reserve, .insert 4 (.store 0 ⟨20, 0⟩), .insert 4 (.publish 0),
    .bulkDelete fun tid => tid = 10 || tid = 20, .vac false, .vac false, .vac false]

/-- The memtable is flushed. -/
def sealAndFlush : List (Action ℕ) := [.sealGrowing, .flush, .flush, .flush, .flush]

/-- What the log says of the rows that each announced file masks. -/
def masks (s : State ℕ) : List (List SegmentId × List Bool) :=
  s.wal.filterMap fun
    | .segment new => some (new.mapping.map (·.sid), (List.range new.mapping.length).map new.bitmap)
    | .vacuumTombstones _ _ => none

/-- Both rows of two segments are vacuumed, then the memtable is flushed and the segments merge. -/
theorem tombstones_before_files_merged : ∃ s : State ℕ,
    masks s = [([3, 3], [false, false]), ([4], [true]), ([3, 3, 4], [true, false, true])] ∧
      Ordered s.wal := by
  have hm : Meets Announcing step (State.build [10, 11] 0) (insertAndMark ++
      List.replicate 9 (.vac false) ++ sealAndFlush ++ [.compact 0 [(3, 3), (4, 4)]] ++
      List.replicate 3 (.comp 0)) := by
    decide +kernel
  have hs : (exec step (State.build [10, 11] 0) (insertAndMark ++
      List.replicate 9 (.vac false) ++ sealAndFlush ++ [.compact 0 [(3, 3), (4, 4)]] ++
      List.replicate 3 (.comp 0))).map masks = some
        [([3, 3], [false, false]), ([4], [true]), ([3, 3, 4], [true, false, true])] := by
    decide +kernel
  obtain ⟨s, he, hv⟩ := Option.map_eq_some_iff.mp hs
  have h₀ : Reachable Init step Announcing (State.build [10, 11] 0) := .start ⟨[10, 11], 0, rfl⟩
  exact ⟨s, hv, tombstones_before_files (h₀.of_exec hm he)⟩

/-- The mapping and the first bit of the second of two segment records. -/
def secondSegment : List Record → Option (List MappedRow × Bool)
  | [.segment _, .segment new] => some (new.mapping, new.bitmap 0)
  | _ => none

/-- Vacuum fails between a mark and its record, and the memtable is flushed with the mark. -/
theorem not_tombstones_before_files :
    ¬ ∀ s : State ℕ, Reachable Init step anyStep s → Ordered s.wal := by
  intro h
  have hs : (exec step (State.build [10, 11] 0) (insertAndMark ++ [.failVac] ++ sealAndFlush)).map
      (fun s => secondSegment s.wal) = some (some ([⟨20, 4, 0⟩], true)) := by
    decide +kernel
  obtain ⟨s, he, hv⟩ := Option.map_eq_some_iff.mp hs
  have h₀ : Reachable Init step anyStep (State.build [10, 11] 0) := .start ⟨[10, 11], 0, rfl⟩
  have hord := h s (h₀.of_exec (meets_anyStep _) he)
  unfold secondSegment at hv
  split at hv
  next old new hwal =>
    obtain ⟨hmap, hbit⟩ := Prod.mk.inj (Option.some.inj hv)
    rw [hwal] at hord
    obtain ⟨rec, hr, hn⟩ := hord [.segment old] new List.prefix_rfl ⟨20, 4, 0⟩
      ⟨0, by rw [hmap]; rfl, hbit⟩
    obtain rfl := List.mem_singleton.mp hr
    exact hn
  next => cases hv

end WalOrder

end VectorLsm
