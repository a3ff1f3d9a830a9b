import VectorLsm.DeleteCounts.Machine
import VectorLsm.InMemory.Counts

/-! # Delete counts are those of the bitmaps

Every writer of a bitmap counts the bits it sets, in the file or anew. The count goes wrong where
the worker takes that of the file for a bitmap in memory that has other bits, as those of the
memtable an adopted segment displaces, and where a pass over a memtable writes its bitmap to a
version that no longer has the rows of the memtable.
-/

namespace VectorLsm.DeleteCounts

open InMemory Transition SegmentFile

variable {cfg : InMemory.Config} {n n' : Node} {t : ℕ}

section Writers

variable {f f' : SegmentFile} {s₀ s : Marking} {k : ℕ}

theorem sets_markSlice {p : ℕ → Bool} (h : Sets k s₀ s) (hp : ∀ i, p i = true → i < k)
    (o : SegmentOffsetRange) : Sets k s₀ (markSlice p o s) := by
  refine List.foldlRecOn (motive := Sets k s₀) _ _ h fun s hs i _ => ?_
  split
  case isTrue hi => exact hs.set (hp i hi)
  case isFalse => exact hs

theorem moreMarked_markAbove (f : SegmentFile) (maxMemtableSid : SegmentId) :
    MoreMarked f (f.setBitmap (f.markAbove maxMemtableSid).bitmap
      (f.markAbove maxMemtableSid).applied) := by
  apply moreMarked_of_sets
  refine List.foldlRecOn (motive := Sets f.mapping.length _) _ _ (.refl _ _) fun s hs o _ => ?_
  split
  case isTrue => exact sets_markSlice hs (fun i => of_decide_eq_true) o
  case isFalse => exact hs

theorem moreMarked_markMissing (f : SegmentFile) (sids : List SegmentId)
    (status : SegmentId → List Tid) :
    MoreMarked f (f.setBitmap (f.markMissing sids status).bitmap
      (f.markMissing sids status).applied) := by
  apply moreMarked_of_sets
  refine List.foldlRecOn (motive := Sets f.mapping.length _) _ _ (.refl _ _) fun s hs o _ => ?_
  split
  case isTrue =>
    refine sets_markSlice hs (fun i hi => ?_) o
    obtain ⟨row, hrow, -⟩ := (Option.any_eq_true _ _).mp hi
    exact (List.getElem?_eq_some_iff.mp hrow).1
  case isFalse => exact hs

/-- Every writer sets bits of rows and counts them. -/
theorem moreMarked_run {w : BitmapWriter} (hf : Written f) (h : w.run f = some f') :
    MoreMarked f f' := by
  cases w with
  | vacuum callback =>
      obtain ⟨v, hv, h⟩ := Option.bind_eq_some_iff.mp h
      split at h
      · obtain rfl := Option.some.inj h
        exact moreMarked_vacuum hv
      · cases h
  | redo rec =>
      obtain ⟨o, -, rfl⟩ := Option.map_eq_some_iff.mp h
      exact moreMarked_applyToSegment hf
  | above maxMemtableSid =>
      simp only [BitmapWriter.run] at h
      split at h
      · obtain rfl := Option.some.inj h
        exact moreMarked_markAbove f maxMemtableSid
      · cases h
  | missing sids status =>
      simp only [BitmapWriter.run] at h
      split at h
      · cases h
      · obtain rfl := Option.some.inj h
        exact moreMarked_markMissing f sids status

theorem flush_counted (sid : SegmentId) (tids : List Tid) (bitmap : ℕ → Bool) (version : ℕ) :
    (SegmentFile.flush sid tids bitmap version).Counted := by
  have hchain : Chain (fun _ => tids) (SegmentFile.flush sid tids bitmap version) :=
    .flush sid bitmap version
  exact hchain.counted

theorem persist_counted (tids : List Tid) : (SegmentFile.persist tids).Counted := by
  simp [SegmentFile.Counted, SegmentFile.persist, SegmentFile.flush, countBits]

end Writers

namespace Node

/-- The delete counts of a node are those of its bitmaps, and with them what goes by the counts:
the trigger of a rebuild and the count of a merged segment. -/
structure Exact (cfg : InMemory.Config) (n : Node) : Prop where
  files : ∀ f ∈ n.base.disk, f.deleteCount = countBits f.bitmap f.mapping.length
  memtables : ∀ sid, ∀ b ∈ n.memtableBitmaps sid, b.deleteCount = countBits b.bitmap b.rows
  segments : ∀ g ∈ n.base.base.pool.members, ∀ a ∈ n.base.arrays g,
    (n.base.base.pool.seg g).deleteCount =
      countBits a.bitmap (n.base.base.pool.seg g).vecCount
  trigger : ∀ g ∈ n.base.base.pool.members, ∀ a ∈ n.base.arrays g,
    cfg.pool.overDeleted (n.base.base.pool.seg g).deleteCount (n.base.base.pool.seg g).vecCount =
      cfg.pool.overDeleted (countBits a.bitmap a.map.length) a.map.length
  merged : ∀ t new, n.base.work t = .built new →
    new.deleteCount = countBits new.bitmap new.mapping.length

/-- What the counts of a node go by. -/
structure Inv (n : Node) : Prop where
  base : InMemory.Exact n.base
  memtables : ∀ sid, ∀ b ∈ n.memtableBitmaps sid, b.deleteCount = countBits b.bitmap b.rows
  pending : ∀ t, ∀ p ∈ n.pending t, ∃ f ∈ n.base.disk, f.info = p.info ∧
    p.deleteCount = countBits p.bitmap f.mapping.length
  created : ∀ f ∈ n.created, f.Counted

namespace Inv

theorem exact (h : Inv n) : Exact cfg n where
  files := h.base.counted
  memtables := h.memtables
  segments := by
    intro g _ a ha
    obtain ⟨hrows, hcount⟩ := h.base.held g a ha
    have hrows : (n.base.base.pool.seg g).vecCount = a.map.length := hrows
    rw [hrows]
    exact hcount
  trigger := by
    intro g _ a ha
    obtain ⟨hrows, hcount⟩ := h.base.held g a ha
    exact congrArg₂ cfg.pool.overDeleted hcount hrows
  merged := by
    intro t new hw
    have hwork := h.base.work t
    rw [hw] at hwork
    exact hwork.2

theorem setBase {b : InMemory.State} (h : Inv n) (hb : InMemory.Exact b)
    (hg : Grows n.base.disk b.disk) : Inv (n.setBase b) where
  base := hb
  memtables := h.memtables
  pending := by
    intro t p hp
    obtain ⟨f, hf, hi, hc⟩ := h.pending t p hp
    obtain ⟨f', hf', hi', hm, -⟩ := hg f hf
    exact ⟨f', hf', hi'.trans hi, hm ▸ hc⟩
  created := h.created

theorem setLoaded {b : Bool} (h : Inv n) : Inv (n.setLoaded b) :=
  ⟨h.base, h.memtables, h.pending, h.created⟩

theorem setMemtable {sid : SegmentId} {mt : Option Memtable} (h : Inv n) :
    Inv (n.setMemtable sid mt) :=
  ⟨h.base, h.memtables, h.pending, h.created⟩

theorem setCreated {fs : List SegmentFile} (h : Inv n) (hfs : ∀ f ∈ fs, f.Counted) :
    Inv (n.setCreated fs) :=
  ⟨h.base, h.memtables, h.pending, hfs⟩

theorem setMemtableBitmap {sid : SegmentId} {b : MemtableBitmap} (h : Inv n)
    (hb : b.deleteCount = countBits b.bitmap b.rows) : Inv (n.setMemtableBitmap sid b) where
  base := h.base
  memtables := by
    intro sid' b' hb'
    rw [setMemtableBitmap_memtableBitmaps, Function.update_apply] at hb'
    split at hb'
    · obtain rfl := Option.some.inj hb'
      exact hb
    · exact h.memtables sid' b' hb'
  pending := h.pending
  created := h.created

theorem setPending {p : Option PendingBitmap} (h : Inv n) (hp : ∀ q ∈ p, ∃ f ∈ n.base.disk,
    f.info = q.info ∧ q.deleteCount = countBits q.bitmap f.mapping.length) :
    Inv (n.setPending t p) where
  base := h.base
  memtables := h.memtables
  pending := by
    intro t' q hq
    rw [setPending_pending, Function.update_apply] at hq
    split at hq
    · exact hp q hq
    · exact h.pending t' q hq
  created := h.created

/-- The directory is handed a file or a bitmap, or the pool takes a step. -/
theorem base_step {b : InMemory.State} {a : InMemory.Action} (h : Inv n)
    (hm : UpToDate n.base a ∧ Handed n.base a) (hs : InMemory.step cfg n.base a = some b) :
    Inv (n.setBase b) :=
  h.setBase ((InMemory.Exact.pieces cfg).step h.base hm hs) (grows_step hs)

theorem addFile {f : SegmentFile} (h : Inv n) (hf : f.Counted) (hs : n.addFile cfg f = some n') :
    Inv n' := by
  obtain ⟨b, hb, rfl⟩ := Option.map_eq_some_iff.mp hs
  have hcurrent : UpToDate n.base (.pull f) := trivial
  exact (h.base_step ⟨hcurrent, hf⟩ hb).setCreated (List.forall_mem_cons.mpr ⟨hf, h.created⟩)

/-- Files alone. -/
theorem stopped {s : InMemory.State} (h : InMemory.Exact s) :
    InMemory.Exact (Node.stopped s) where
  nodup := h.nodup
  written := h.written
  counted := h.counted
  held := nofun
  work := fun _ => trivial

theorem loadPool {s : InMemory.State} (h : InMemory.Exact s) (useMmap : Bool) :
    InMemory.Exact (Node.loadPool cfg useMmap s) where
  nodup := h.nodup
  written := h.written
  counted := h.counted
  held := by
    intro g a ha
    dsimp only [Node.loadPool] at ha ⊢
    split at ha
    case isTrue hg =>
      obtain ⟨f, hf, rfl⟩ := Option.map_eq_some_iff.mp ha
      obtain ⟨hmem, hi⟩ := (Disk.load_eq_some h.nodup).mp hf
      obtain ⟨m, hm, hcontent⟩ := filledCounts_loadAll cfg.pool useMmap _ g hg
      obtain ⟨f', hf', rfl⟩ := List.mem_map.mp hm
      obtain ⟨i, -, hload⟩ := List.mem_filterMap.mp hf'
      -- the file found under the name is the one the slot was filled from
      have hmem' := ((Disk.load_eq_some h.nodup).mp hload).1
      have hinfo : f.info = f'.info := hi.trans (congrArg (·.1.1) hcontent)
      obtain rfl : f = f' := List.inj_on_of_nodup_map h.nodup hmem hmem' hinfo
      rw [hcontent]
      exact ⟨rfl, h.counted f hmem⟩
    case isFalse => cases ha
  work := fun _ => trivial

/-- A pass over a memtable counts its bits anew. -/
theorem vacuumMemtable {mt : Memtable} {checkReady : Bool} {callback : Tid → Bool} (h : Inv n)
    (hm : ∀ f ∈ n.base.disk.loadLatest mt.memtableId mt.memtableId,
      f.mapping.length = mt.validSize) :
    Inv (n.vacuumMemtable t mt checkReady callback) := by
  unfold Node.vacuumMemtable
  dsimp only
  split
  case isTrue =>
    split
    case h_1 f hf =>
      refine h.setMemtable.setPending fun q hq => ?_
      obtain rfl := Option.some.inj hq
      exact ⟨f, List.mem_of_find?_eq_some hf, rfl, by rw [hm f hf]⟩
    case h_2 => exact h.setMemtable.setMemtableBitmap rfl
  case isFalse => exact h.setMemtable

end Inv

end Node

/-- The condition on a step of a node: a bitmap file that is read into memory has every bit set
there, a compaction reads files with the row counts of its slots, and the segment a memtable's
bitmap is written for has the rows of the memtable. -/
def Node.Kept (n : Node) : NodeAction → Prop
  | .pool a => UpToDate n.base a
  | .vacuumMemtable _ sid _ _ =>
      ∀ mt ∈ n.memtables sid, ∀ f ∈ n.base.disk.loadLatest mt.memtableId mt.memtableId,
        f.mapping.length = mt.validSize
  | _ => True

theorem Node.Inv.step {a : NodeAction} (h : n.Inv) (hm : n.Kept a)
    (hs : nodeStep cfg n a = some n') : n'.Inv := by
  cases a with
  | build tids =>
      simp only [nodeStep] at hs
      split at hs
      · exact h.addFile (persist_counted tids) hs
      · cases hs
  | stop =>
      obtain rfl := Option.some.inj hs
      exact ⟨stopped h.base, h.memtables, nofun, h.created⟩
  | load useMmap =>
      simp only [nodeStep] at hs
      split at hs
      · cases hs
      · obtain rfl := Option.some.inj hs
        exact (h.setBase (loadPool h.base useMmap) (.refl _)).setLoaded
  | pool a =>
      simp only [nodeStep] at hs
      split at hs
      case isTrue ha =>
        obtain ⟨b, hb, rfl⟩ := Option.map_eq_some_iff.mp hs
        have hhanded : Handed n.base a := by
          cases a <;> first | trivial | simp [ofPool] at ha
        have hbase := h.base_step ⟨hm, hhanded⟩ hb
        refine hbase.setCreated fun f hf => ?_
        rcases List.mem_append.mp hf with hf | hf
        · exact hbase.base.counted f (List.mem_filter.mp hf).1
        · exact h.created f hf
      case isFalse => cases hs
  | register sid capacity =>
      simp only [nodeStep] at hs
      split at hs
      · obtain rfl := Option.some.inj hs
        exact h.setMemtable
      · cases hs
  | reserve sid tid =>
      obtain ⟨mt, -, hs⟩ := Option.bind_eq_some_iff.mp hs
      obtain ⟨mt', -, rfl⟩ := Option.map_eq_some_iff.mp hs
      exact h.setMemtable
  | publish sid i =>
      obtain ⟨mt, -, hs⟩ := Option.bind_eq_some_iff.mp hs
      split at hs
      · obtain rfl := Option.some.inj hs
        exact h.setMemtable
      · cases hs
  | sealMemtable sid =>
      obtain ⟨mt, -, rfl⟩ := Option.map_eq_some_iff.mp hs
      exact h.setMemtable
  | flush sid =>
      obtain ⟨mt, -, hs⟩ := Option.bind_eq_some_iff.mp hs
      split at hs
      · exact h.setMemtable.addFile (flush_counted _ _ _ _) hs
      · cases hs
  | release sid =>
      obtain rfl := Option.some.inj hs
      exact h.setMemtable
  | vacuumMemtable t sid checkReady callback =>
      simp only [nodeStep] at hs
      split at hs
      · obtain ⟨mt, hmt, rfl⟩ := Option.map_eq_some_iff.mp hs
        exact h.vacuumMemtable (hm mt hmt)
      · cases hs
  | redoMemtable sid rec =>
      obtain ⟨mt, -, rfl⟩ := Option.map_eq_some_iff.mp hs
      exact h.setMemtable
  | read t i w =>
      simp only [nodeStep] at hs
      split at hs
      · obtain ⟨f, hf, hs⟩ := Option.bind_eq_some_iff.mp hs
        obtain ⟨f', hf', rfl⟩ := Option.map_eq_some_iff.mp hs
        obtain ⟨hmem, hi⟩ := (Disk.load_eq_some h.base.nodup).mp hf
        have hmarked := moreMarked_run (h.base.written f hmem) hf'
        refine h.setPending fun q hq => ?_
        obtain rfl := Option.some.inj hq
        exact ⟨f, hmem, hi, hmarked.mapping ▸ hmarked.counted (h.base.counted f hmem)⟩
      · cases hs
  | write t =>
      obtain ⟨p, hp, hs⟩ := Option.bind_eq_some_iff.mp hs
      obtain ⟨b, hb, rfl⟩ := Option.map_eq_some_iff.mp hs
      obtain ⟨f, hf, hi, hc⟩ := h.pending t p hp
      have hcurrent : UpToDate n.base (.writeBitmap p.info p.bitmap p.deleteCount) := trivial
      have hhanded : Handed n.base (.writeBitmap p.info p.bitmap p.deleteCount) := by
        intro f' hf'
        obtain ⟨hmem, hi'⟩ := (Disk.load_eq_some h.base.nodup).mp hf'
        obtain rfl : f = f' := List.inj_on_of_nodup_map h.base.nodup hf hmem (hi.trans hi'.symm)
        exact hc
      exact (h.base_step ⟨hcurrent, hhanded⟩ hb).setPending nofun

/-- The condition on a step. -/
def Kept (s : State) : Action → Prop
  | .primary a => s.primary.Kept a
  | .standby a => s.standby.Kept a
  | .ship _ => True

theorem inv_step {s s' : State} {a : Action} (h : s.primary.Inv ∧ s.standby.Inv)
    (hm : Kept s a) (hs : step cfg s a = some s') : s'.primary.Inv ∧ s'.standby.Inv := by
  cases a with
  | primary a =>
      obtain ⟨n, hn, rfl⟩ := Option.map_eq_some_iff.mp hs
      exact ⟨h.1.step hm hn, h.2⟩
  | standby a =>
      obtain ⟨n, hn, rfl⟩ := Option.map_eq_some_iff.mp hs
      exact ⟨h.1, h.2.step hm hn⟩
  | ship i =>
      obtain ⟨f, hf, hs⟩ := Option.bind_eq_some_iff.mp hs
      obtain ⟨n, hn, rfl⟩ := Option.map_eq_some_iff.mp hs
      exact ⟨h.1, h.2.addFile (h.1.created f (List.mem_of_find?_eq_some hf)) hn⟩

theorem Node.inv_empty : Node.empty.Inv where
  base := ⟨List.nodup_nil, by simp [Node.empty, Node.stopped],
    by simp [Node.empty, Node.stopped], nofun, fun _ => trivial⟩
  memtables := nofun
  pending := nofun
  created := by simp [Node.empty]

variable {s : State}

/-- In every run whose steps meet the condition, the delete counts of both nodes are those of
their bitmaps. -/
theorem exact_of_kept (h : Reachable Start (step cfg) (fun s a => Kept s a) s) :
    s.primary.Exact cfg ∧ s.standby.Exact cfg := by
  have hinv := h.invariant (P := fun s => s.primary.Inv ∧ s.standby.Inv) ?_
    fun s a s' _ hs ha hstep => inv_step hs ha hstep
  · exact ⟨hinv.1.exact, hinv.2.exact⟩
  · rintro s rfl
    exact ⟨Node.inv_empty, Node.inv_empty⟩

section Demo

/-- `UpToDate`, evaluated. -/
def upToDate (s : InMemory.State) : InMemory.Action → Bool
  | .work t =>
      match s.base.pc t, s.work t with
      | .build task, .none => decide (Counted s task)
      | _, _ => true
  | .updateNext t _ =>
      match s.update t with
      | .checked lo hi g => decide (∀ f ∈ s.disk.loadLatest lo hi, ∀ a ∈ s.arrays g,
          f.mapping.length = (s.base.pool.seg g).vecCount ∧
            ∀ i < (s.base.pool.seg g).vecCount, a.bitmap i = true → f.bitmap i = true)
      | _ => true
  | _ => true

theorem upToDate_iff (s : InMemory.State) (a : InMemory.Action) :
    upToDate s a = true ↔ UpToDate s a := by
  cases a with
  | work t =>
      simp only [upToDate, UpToDate]
      cases s.base.pc t with
      | build task => cases s.work t <;> simp
      | _ => simp
  | updateNext t junk =>
      simp only [upToDate, UpToDate]
      cases s.update t <;> simp
  | _ => simp [upToDate, UpToDate]

instance (s : InMemory.State) (a : InMemory.Action) : Decidable (UpToDate s a) :=
  decidable_of_iff _ (upToDate_iff s a)

instance (n : Node) (a : NodeAction) : Decidable (n.Kept a) := by
  cases a <;> unfold Node.Kept <;> dsimp only <;> infer_instance

instance (s : State) : (a : Action) → Decidable (Kept s a)
  | .primary a => inferInstanceAs (Decidable (s.primary.Kept a))
  | .standby a => inferInstanceAs (Decidable (s.standby.Kept a))
  | .ship _ => .isTrue trivial

/-- A memtable is filled and sealed. -/
def demoMemtable (sid : SegmentId) (tids : List Tid) : List NodeAction :=
  .register sid tids.length :: (tids.map (.reserve sid) ++
    (List.range tids.length).map (.publish sid) ++ [.sealMemtable sid])

/-- The primary flushes a memtable, and VACUUM deletes its first row. -/
def demoPrimary : List NodeAction :=
  demoMemtable 4 [10, 11, 12] ++ [.flush 4, .load false,
    .read 0 ⟨4, 4, 1⟩ (.vacuum fun tid => tid = 10), .write 0]

/-- The standby has the rows in its memtable. -/
def demoInserted : List Action :=
  .standby (.load false) :: (demoPrimary.map .primary ++
    (demoMemtable 4 [10, 11, 12]).map .standby)

/-- It adopts the segment with the deletions of its memtable. -/
def demoAdopted (groups : List DpvVacuumGroup) : List Action :=
  .ship ⟨4, 4, 1⟩ :: .standby (.pool (.adopt 1 ⟨4, 4, 1, [4]⟩ groups)) ::
    List.replicate 5 (.standby (.pool (.run 1 true)))

/-- A deletion of the second row arrives. -/
def demoRedo : List Action :=
  [.standby (.read 0 ⟨4, 4, 1⟩ (.redo ⟨4, 1, false, [⟨1, 11⟩]⟩)), .standby (.write 0),
    .standby (.pool (.update 1 4 4 1)), .standby (.pool (.updateNext 1 fun _ => false)),
    .standby (.pool (.updateNext 1 fun _ => false))]

/-- The first deletion is redone before the segment is there, and marks the memtable alone. -/
def demoBehind : List Action :=
  demoInserted ++ .standby (.redoMemtable 4 ⟨4, 1, false, [⟨0, 10⟩]⟩) ::
    (demoAdopted [⟨4, [⟨10, 4, 0⟩]⟩] ++ demoRedo)

/-- It is redone on the file. -/
def demoInFile : List Action :=
  demoInserted ++ demoAdopted [] ++
    [.standby (.read 0 ⟨4, 4, 1⟩ (.redo ⟨4, 1, false, [⟨0, 10⟩]⟩)), .standby (.write 0)] ++
    demoRedo

/-- The first slot of the standby's list, its count, its rows and its bits. -/
def demoView (s : State) : List ℕ × ℕ × ℕ × Option (List Bool) :=
  let pool := s.standby.base.base.pool
  (pool.members, (pool.seg 0).deleteCount, (pool.seg 0).vecCount,
    (s.standby.base.arrays 0).map fun a => (List.range 3).map a.bitmap)

/-- The bitmap in memory masks two rows, and the count is that of the file, which masks one. -/
theorem not_exact : ¬ ∀ s, Reachable Start (step demoConfig) (fun s a => anyStep s a) s →
    s.primary.Exact demoConfig ∧ s.standby.Exact demoConfig := by
  intro h
  have he : (exec (step demoConfig) ⟨.empty, .empty⟩ demoBehind).map demoView =
      some ([0], 1, 3, some [true, true, false]) := by
    decide +kernel
  obtain ⟨s, hs, hv⟩ := Option.map_eq_some_iff.mp he
  have hexact := (h s (.of_exec (.start rfl) (meets_anyStep _) hs)).2
  obtain ⟨hmem, hv⟩ := Prod.mk.inj hv
  obtain ⟨hcount, hv⟩ := Prod.mk.inj hv
  obtain ⟨hrows, harr⟩ := Prod.mk.inj hv
  obtain ⟨a, ha, hbits⟩ := Option.map_eq_some_iff.mp harr
  have hseg := hexact.segments 0 (by simp [hmem]) a ha
  have htwo : countBits a.bitmap 3 = ([true, true, false].countP id) := by
    rw [← hbits, List.countP_map]
    rfl
  rw [hcount, hrows, htwo] at hseg
  simp at hseg

theorem exact_demoInFile : ∃ s,
    exec (step demoConfig) ⟨.empty, .empty⟩ demoInFile = some s ∧
      demoView s = ([0], 2, 3, some [true, true, false]) ∧
      s.primary.Exact demoConfig ∧ s.standby.Exact demoConfig := by
  have he : (exec (step demoConfig) ⟨.empty, .empty⟩ demoInFile).map demoView =
      some ([0], 2, 3, some [true, true, false]) := by
    decide +kernel
  obtain ⟨s, hs, hv⟩ := Option.map_eq_some_iff.mp he
  have hm : Meets (fun s a => Kept s a) (step demoConfig) ⟨.empty, .empty⟩ demoInFile := by
    decide +kernel
  exact ⟨s, hs, hv, exact_of_kept (.of_exec (.start rfl) hm hs)⟩

end Demo

end VectorLsm.DeleteCounts
