import VectorLsm.Lib.Transition
import VectorLsm.Vacuum.Reports

/-! # VACUUM reports a row once, or more often

The count of VACUUM is never below the number of rows it has newly masked. The two are equal as
long as every pass counts rows that it masks, and masks none that an earlier pass has masked in
another copy: in a memtable that has been flushed since, or in a version that was replaced while
the worker was to take it over.
-/

namespace VectorLsm.BulkDelete

open Transition Distinct DeleteCounts OnDisk SegmentFile

variable {cfg : Config} {s s' : State} {p : Pass} {r : Report} {mt : Memtable} {f : SegmentFile}
  {sid : SegmentId} {checkReady : Bool}

section Passes

/-- What every pass keeps to. -/
structure Pass.Ok (p : Pass) : Prop where
  masked : p.masked.Sublist p.dead
  nodup : (p.dead.map (·.name)).Nodup
  named : p.named.Sublist p.dead

/-- The count is that of the rows newly masked. -/
def Report.Exact (r : Report) : Prop := r.tuplesRemoved = distinct (r.masked.map (·.name))

theorem Report.le_add (hle : distinct (r.masked.map (·.name)) ≤ r.tuplesRemoved) (hp : p.Ok) :
    distinct ((r.add p).masked.map (·.name)) ≤ (r.add p).tuplesRemoved := by
  have := distinct_append_le_add hle (hp.masked.map (·.name))
  rwa [List.length_map, ← List.map_append] at this

theorem Report.exact_add_iff (hle : distinct (r.masked.map (·.name)) ≤ r.tuplesRemoved)
    (hp : p.Ok) : (r.add p).Exact ↔
      r.Exact ∧ p.masked = p.dead ∧ ∀ q ∈ p.dead, q.name ∉ r.masked.map (·.name) := by
  have hiff := add_eq_distinct_iff hle (hp.masked.map (·.name))
  rw [List.length_map, ← List.map_append] at hiff
  refine hiff.trans (and_congr_right fun _ => and_congr ?_ ?_)
  · refine ⟨fun heq => hp.masked.eq_of_length ?_, fun heq => by rw [heq]⟩
    simpa using congrArg List.length heq
  · rw [and_iff_right hp.nodup, List.forall_mem_map]

theorem memtablePass_ok (cfg : Config) (d : Disk) (checkReady : Bool) (mt : Memtable) :
    (memtablePass cfg d checkReady mt).Ok where
  masked := markedRows_sublist_of_imp 0 _ fun j q h => (Bool.and_eq_true_iff.mp h).2
  nodup := mt.nodup_names.sublist ((markedRows_sublist _ 0 _).map _)
  named := by
    unfold memtablePass
    dsimp only
    cases cfg.isPrimary with
    | false => exact List.nil_sublist _
    | true =>
        rw [if_pos rfl, mt.tombstones_rows]

theorem memtablePass_masked_iff (d : Disk) : (memtablePass cfg d checkReady mt).masked =
    (memtablePass cfg d checkReady mt).dead ↔ Unmasked cfg checkReady mt := by
  refine (markedRows_eq_iff fun j q h => (Bool.and_eq_true_iff.mp h).2).trans ?_
  simp only [Unmasked, Prod.forall, List.mem_zipIdx_iff_getElem?, Nat.zero_add,
    Bool.and_eq_true, Bool.not_eq_true']
  constructor
  · exact fun h q j hj hd => (h j q hj hd).1
  · exact fun h j q hj hd => ⟨h q j hj hd, hd⟩

theorem mem_memtablePass_dead (d : Disk) {q : MappedRow}
    (hq : q ∈ (memtablePass cfg d checkReady mt).dead) : q.sid = mt.memtableId ∧
      (q, q.slot) ∈ mt.mappedRows.zipIdx ∧ mt.dead checkReady cfg.callback q.slot q = true := by
  obtain ⟨j, hj, hd⟩ := (mem_markedRows _ 0 _).mp hq
  rw [Nat.zero_add] at hd
  obtain ⟨-, rfl⟩ := ConcurrentMemTable.mappedRows_getElem?.mp hj
  exact ⟨rfl, List.mem_zipIdx_iff_getElem?.mpr hj, hd⟩

theorem segmentPass_ok (cfg : Config) (hf : f.Descended) : (segmentPass cfg f).Ok where
  masked := List.Sublist.refl _
  nodup := hf.nodup_names.sublist ((markedRows_sublist _ 0 _).map _)
  named := by
    unfold segmentPass
    dsimp only
    cases cfg.isPrimary with
    | false => exact List.nil_sublist _
    | true =>
        rw [if_pos rfl, hf.flatMap_namedBy]

theorem segmentPass_new_iff {masked : List MappedRow} :
    (∀ q ∈ (segmentPass cfg f).dead, q.name ∉ masked.map (·.name)) ↔ Carries cfg masked f := by
  constructor
  · rintro h ⟨q, k⟩ hq hd hm
    have hk := List.mem_zipIdx_iff_getElem?.mp hq
    cases hb : f.bitmap k with
    | true => rfl
    | false => exact absurd hm (h q (mem_newlyDead.mpr ⟨k, hk, hb, hd⟩))
  · intro h q hq hm
    obtain ⟨k, hk, hb, hd⟩ := mem_newlyDead.mp hq
    have := h (q, k) (List.mem_zipIdx_iff_getElem?.mpr hk) hd hm
    exact Bool.false_ne_true (hb.symm.trans this)

end Passes

section Steps

variable {t : ℕ} {d : Disk} {pc : Pc} {cpc : CompactionPc} {a : Action}

/-- Compactions keep the descent from memtables. -/
theorem kept_descended : Kept (fun _ _ => True) Descended where
  rebuild := fun _ _ hf _ _ _ => hf.rebuild _ _ 0
  merge := fun _ _ hf hg hadj => hf.merge hg hadj 0
  setVersion := fun _ v hf => hf.setVersion v

structure Inv (s : State) : Prop where
  files : ∀ f ∈ s.disk, f.Descended
  comp : ∀ t, (s.comp t).All Descended
  memtables : ∀ sid mt, s.memtables sid = some mt → mt.memtableId = sid
  /-- Before the scan, what is masked is masked in its memtable. -/
  inMemtable : s.vac.inMemtables = true → ∀ q ∈ s.report.masked,
    ∃ mt, s.memtables q.sid = some mt ∧ mt.bitmap q.slot = true
  le : distinct (s.report.masked.map (·.name)) ≤ s.report.tuplesRemoved
  named : s.report.Exact → (s.report.named.map (·.name)).Nodup ∧
    s.report.named.map (·.name) ⊆ s.report.masked.map (·.name)

namespace Inv

theorem once_iff (h : Inv s) : Once s ↔ s.report.Exact :=
  ⟨Once.count, fun he => ⟨he, (h.named he).1⟩⟩

theorem setVac (h : Inv s) (hpc : pc.inMemtables = true → s.vac.inMemtables = true) :
    Inv (s.setVac pc) where
  files := h.files
  comp := h.comp
  memtables := h.memtables
  inMemtable := fun hin => h.inMemtable (hpc hin)
  le := h.le
  named := h.named

/-- No memtable is scanned any more. -/
theorem leave (h : Inv s) (hpc : pc.inMemtables = false) : Inv (s.setVac pc) :=
  h.setVac fun hin => by
    rw [hpc] at hin
    cases hin

theorem setDisk (h : Inv s) (hd : ∀ f ∈ d, f.Descended) : Inv (s.setDisk d) where
  files := hd
  comp := h.comp
  memtables := h.memtables
  inMemtable := h.inMemtable
  le := h.le
  named := h.named

theorem setComp (h : Inv s) (hc : cpc.All Descended) : Inv (s.setComp t cpc) where
  files := h.files
  comp := by
    intro u
    rw [State.setComp_comp, Function.update_apply]
    split
    · exact hc
    · exact h.comp u
  memtables := h.memtables
  inMemtable := h.inMemtable
  le := h.le
  named := h.named

/-- A memtable changes, and its bits stay. -/
theorem setMemtable (h : Inv s) (hid : mt.memtableId = sid)
    (hbits : ∀ mt', s.memtables sid = some mt' → ∀ i, mt'.bitmap i = true → mt.bitmap i = true) :
    Inv (s.setMemtable sid mt) where
  files := h.files
  comp := h.comp
  memtables := by
    intro sid' mt' hmt
    rw [State.setMemtable_memtables, Function.update_apply] at hmt
    split at hmt
    next heq =>
      obtain rfl := Option.some.inj hmt
      rw [hid, heq]
    next => exact h.memtables sid' mt' hmt
  inMemtable := by
    intro hin q hq
    obtain ⟨mt', hmt, hb⟩ := h.inMemtable hin q hq
    rw [State.setMemtable_memtables, Function.update_apply]
    split
    next heq =>
      rw [heq] at hmt
      exact ⟨mt, rfl, hbits mt' hmt _ hb⟩
    next => exact ⟨mt', hmt, hb⟩
  le := h.le
  named := h.named

/-- A pass is reported. -/
theorem add (h : Inv s) (hp : p.Ok) (hin : s.vac.inMemtables = true → ∀ q ∈ p.masked,
    ∃ mt, s.memtables q.sid = some mt ∧ mt.bitmap q.slot = true) : Inv (s.add p) where
  files := h.files
  comp := h.comp
  memtables := h.memtables
  inMemtable := by
    intro hv q hq
    rcases List.mem_append.mp hq with hq | hq
    · exact hin hv q hq
    · exact h.inMemtable hv q hq
  le := Report.le_add h.le hp
  named := by
    intro he
    obtain ⟨he, hall, hnew⟩ := (Report.exact_add_iff h.le hp).mp he
    obtain ⟨hnd, hsub⟩ := h.named he
    have hsub' := (hp.named.map (·.name)).subset
    constructor
    · rw [State.add_report, Report.add_named, List.map_append, List.nodup_append']
      refine ⟨hp.nodup.sublist (hp.named.map _), hnd, fun n hn hn' => ?_⟩
      obtain ⟨q, hq, rfl⟩ := List.mem_map.mp (hsub' hn)
      exact hnew q hq (hsub hn')
    · rw [State.add_report, Report.add_named, Report.add_masked, List.map_append, List.map_append,
        hall]
      exact List.append_subset.mpr ⟨fun n hn => List.mem_append_left _ (hsub' hn),
        fun n hn => List.mem_append_right _ (hsub hn)⟩

theorem exact_add_iff (h : Inv s) (hp : p.Ok) : (s.add p).report.Exact ↔
    s.report.Exact ∧ p.masked = p.dead ∧ ∀ q ∈ p.dead, q.name ∉ s.report.masked.map (·.name) :=
  Report.exact_add_iff h.le hp

theorem bitmap_vacuum (mt : Memtable) (checkReady : Bool) (callback : Tid → Bool) (i : ℕ) :
    (Memtable.vacuum mt checkReady callback).bitmap i =
      (mt.bitmap i || Memtable.isDead mt checkReady callback i) := rfl

/-- Before the scan a row not masked in its memtable is not masked by this run. -/
theorem new_of_unmasked (h : Inv s) (hin : s.vac.inMemtables = true)
    (hmt : s.memtables sid = some mt) (hu : Unmasked cfg checkReady mt) {q : MappedRow}
    (hq : q ∈ (memtablePass cfg s.disk checkReady mt).dead) :
    q.name ∉ s.report.masked.map (·.name) := by
  intro hm
  obtain ⟨q', hq', hname⟩ := List.mem_map.mp hm
  obtain ⟨hsid, hslot⟩ := Prod.mk.injEq .. ▸ hname
  obtain ⟨mt', hmt', hb⟩ := h.inMemtable hin q' hq'
  obtain ⟨hid, hz, hd⟩ := mem_memtablePass_dead s.disk hq
  rw [hsid, hid, h.memtables sid mt hmt, hmt] at hmt'
  obtain rfl := Option.some.inj hmt'
  have := hu (q, q.slot) hz hd
  rw [hslot, this] at hb
  exact Bool.false_ne_true hb

theorem vacuumMemtable (h : Inv s) (hin : s.vac.inMemtables = true)
    (hs : s.vacuumMemtable cfg sid checkReady = some s') : Inv s' ∧
      (s'.report.Exact ↔
        s.report.Exact ∧ ∀ mt ∈ s.memtables sid, Unmasked cfg checkReady mt) := by
  obtain ⟨mt, hmt, hs⟩ := Option.map_eq_some_iff.mp hs
  have hid := h.memtables sid mt hmt
  have hset : Inv (s.setMemtable sid (Memtable.vacuum mt checkReady cfg.callback)) := by
    refine h.setMemtable hid fun mt' hmt' i hb => ?_
    obtain rfl := Option.some.inj (hmt.symm.trans hmt')
    rw [bitmap_vacuum, hb, Bool.true_or]
  have hok := memtablePass_ok cfg s.disk checkReady mt
  have hadd := hset.add hok fun _ q hq => by
    obtain ⟨hsid, hz, hd⟩ := mem_memtablePass_dead s.disk (hok.masked.subset hq)
    refine ⟨_, by rw [hsid, hid, State.setMemtable_memtables, Function.update_self], ?_⟩
    have hget := List.mem_zipIdx_iff_getElem?.mp hz
    rw [bitmap_vacuum, Memtable.isDead, hget, Option.any_some, hd, Bool.or_true]
  have hiff : ((s.setMemtable sid (Memtable.vacuum mt checkReady cfg.callback)).add
      (memtablePass cfg s.disk checkReady mt)).report.Exact ↔
      s.report.Exact ∧ ∀ mt ∈ s.memtables sid, Unmasked cfg checkReady mt := by
    rw [hset.exact_add_iff hok, memtablePass_masked_iff]
    refine and_congr_right fun _ => ⟨?_, fun hall => ?_⟩
    · rintro ⟨hu, -⟩ mt' hmt'
      obtain rfl := Option.some.inj (hmt.symm.trans hmt')
      exact hu
    · exact ⟨hall mt hmt, fun q hq => h.new_of_unmasked hin hmt (hall mt hmt) hq⟩
  have hrec : ∀ pc : Pc, Inv ((((s.setMemtable sid (Memtable.vacuum mt checkReady
      cfg.callback)).add (memtablePass cfg s.disk checkReady mt)).recordVacuumed sid).setVac pc) :=
    fun pc => ⟨hadd.files, hadd.comp, hadd.memtables, fun _ => hadd.inMemtable hin, hadd.le,
      hadd.named⟩
  split at hs
  · subst hs
    exact ⟨hrec _, hiff⟩
  · split at hs
    · subst hs
      exact ⟨hrec _, hiff⟩
    · subst hs
      exact ⟨hrec _, hiff⟩

theorem writeBitmap (h : Inv s) (i : SegmentFileInfo) (bitmap : ℕ → Bool) (n : ℕ) :
    ∀ f ∈ s.disk.writeBitmap i bitmap n, f.Descended :=
  Kept.writeBitmap h.files fun f hf _ => (h.files f hf).setBitmap bitmap n

theorem nextSegment_inMemtables (is : List SegmentFileInfo) :
    (nextSegment is).inMemtables = false := by
  cases is <;> rfl

theorem segment {i : SegmentFileInfo} {rest : List SegmentFileInfo} (h : Inv s)
    (hv : s.vac = .segment i rest) (hs : vacuumStep cfg s = some s') :
    Inv s' ∧ (s'.report.Exact ↔ s.report.Exact ∧
      ∀ f ∈ s.disk.load i, s.skips i = false → Carries cfg s.report.masked f) := by
  have hnext := nextSegment_inMemtables rest
  rw [vacuumStep, hv] at hs
  dsimp only at hs
  cases hl : s.disk.load i with
  | none =>
      rw [hl] at hs
      obtain rfl := Option.some.inj hs
      refine ⟨h.leave rfl, (and_iff_left fun f hf => ?_).symm⟩
      cases hf
  | some f =>
      rw [hl] at hs
      dsimp only at hs
      cases hk : s.skips i with
      | true =>
          rw [hk, if_pos rfl] at hs
          obtain rfl := Option.some.inj hs
          refine ⟨h.leave hnext, (and_iff_left fun f _ hf => ?_).symm⟩
          cases hf
      | false =>
          rw [hk, if_neg Bool.false_ne_true] at hs
          have hf := h.files f (load_mem hl).1
          have hok := segmentPass_ok cfg hf
          have hadd := h.add hok fun hin => by
            rw [hv] at hin
            cases hin
          have hiff : (s.add (segmentPass cfg f)).report.Exact ↔ s.report.Exact ∧
              ∀ g ∈ some f, false = false → Carries cfg s.report.masked g := by
            rw [h.exact_add_iff hok, segmentPass_new_iff]
            refine and_congr_right fun _ => ⟨?_, fun hall => ⟨rfl, hall f rfl rfl⟩⟩
            rintro ⟨-, hc⟩ g hg -
            obtain rfl := Option.some.inj hg
            exact hc
          split at hs
          next hnone =>
            -- a row beyond the table cannot be
            obtain ⟨tids, hd⟩ := hf
            obtain ⟨v, hv, -⟩ := vacuum_collected cfg.callback hd.tiles
            rw [hv] at hnone
            cases hnone
          next v _ =>
            split at hs
            · obtain rfl := Option.some.inj hs
              exact ⟨hadd.leave rfl, hiff⟩
            · obtain rfl := Option.some.inj hs
              exact ⟨hadd.leave hnext, hiff⟩

theorem vacuumStep (h : Inv s) (hs : BulkDelete.vacuumStep cfg s = some s') :
    Inv s' ∧ (s'.report.Exact ↔ s.report.Exact ∧ Clear cfg s .vacuum) := by
  have hclear : ∀ {P : Prop}, P ↔ P ∧ True := (and_iff_left trivial).symm
  unfold Clear
  cases hv : s.vac with
  | segment i rest => exact h.segment hv hs
  | growing sid =>
      rw [BulkDelete.vacuumStep, hv] at hs
      exact h.vacuumMemtable (by rw [hv]; rfl) hs
  | immutable sid =>
      rw [BulkDelete.vacuumStep, hv] at hs
      exact h.vacuumMemtable (by rw [hv]; rfl) hs
  | idle =>
      rw [BulkDelete.vacuumStep, hv] at hs
      have hin : s.vac.inMemtables = true := by rw [hv]; rfl
      dsimp only at hs
      split at hs
      · obtain rfl := Option.some.inj hs
        exact ⟨h.setVac fun _ => hin, hclear⟩
      · obtain rfl := Option.some.inj hs
        exact ⟨⟨h.files, h.comp, h.memtables, fun _ => h.inMemtable hin, h.le, h.named⟩, hclear⟩
  | immutables =>
      rw [BulkDelete.vacuumStep, hv] at hs
      have hin : s.vac.inMemtables = true := by rw [hv]; rfl
      dsimp only at hs
      split at hs
      · obtain rfl := Option.some.inj hs
        exact ⟨h.setVac fun _ => hin, hclear⟩
      · obtain rfl := Option.some.inj hs
        exact ⟨h.setVac fun _ => hin, hclear⟩
  | persist sid i bitmap n =>
      rw [BulkDelete.vacuumStep, hv] at hs
      obtain rfl := Option.some.inj hs
      refine ⟨(h.setDisk (h.writeBitmap i bitmap n)).setVac fun _ => ?_, hclear⟩
      rw [State.setDisk_vac, hv]
      rfl
  | scan =>
      rw [BulkDelete.vacuumStep, hv] at hs
      obtain rfl := Option.some.inj hs
      exact ⟨h.leave (nextSegment_inMemtables _), hclear⟩
  | marked i rest bitmap n =>
      rw [BulkDelete.vacuumStep, hv] at hs
      obtain rfl := Option.some.inj hs
      exact ⟨(h.setDisk (h.writeBitmap i bitmap n)).leave rfl, hclear⟩
  | retry i rest =>
      rw [BulkDelete.vacuumStep, hv] at hs
      dsimp only at hs
      split at hs
      · obtain rfl := Option.some.inj hs
        exact ⟨h.leave (nextSegment_inMemtables _), hclear⟩
      · obtain rfl := Option.some.inj hs
        exact ⟨h.leave rfl, hclear⟩
  | request i rest => rw [BulkDelete.vacuumStep, hv] at hs; cases hs
  | returned => rw [BulkDelete.vacuumStep, hv] at hs; cases hs
  | failed => rw [BulkDelete.vacuumStep, hv] at hs; cases hs

theorem step (h : Inv s) (hs : BulkDelete.step cfg s a = some s') :
    Inv s' ∧ (s'.report.Exact ↔ s.report.Exact ∧ Clear cfg s a) := by
  have hsame : s'.report = s.report → Clear cfg s a →
      (s'.report.Exact ↔ s.report.Exact ∧ Clear cfg s a) := fun hr hc => by
    rw [hr, and_iff_left hc]
  cases a with
  | vacuum => exact h.vacuumStep hs
  | comp t =>
      obtain ⟨⟨d, pc⟩, hpc, rfl⟩ := Option.map_eq_some_iff.mp hs
      obtain ⟨hd, hc⟩ := kept_descended.next h.files (h.comp t)
        (CompactionPc.reread_true _ _) hpc
      exact ⟨(h.setDisk hd).setComp hc, hsame rfl trivial⟩
  | register sid capacity =>
      unfold BulkDelete.step at hs
      dsimp only at hs
      split at hs
      next hg hm =>
        obtain rfl := Option.some.inj hs
        have : Inv (s.setMemtable sid (.blank sid capacity)) := by
          refine h.setMemtable rfl fun mt' hmt' => ?_
          rw [hm] at hmt'
          cases hmt'
        exact ⟨⟨this.files, this.comp, this.memtables, this.inMemtable, this.le, this.named⟩,
          hsame rfl trivial⟩
      next => cases hs
  | reserve sid tid =>
      obtain ⟨mt, hmt, hs⟩ := Option.bind_eq_some_iff.mp hs
      obtain ⟨mt', hr, rfl⟩ := Option.map_eq_some_iff.mp hs
      unfold Memtable.reserve at hr
      split at hr
      · cases hr
      · obtain rfl := Option.some.inj hr
        refine ⟨h.setMemtable (h.memtables sid mt hmt) fun mt' hmt' i hb => ?_, hsame rfl trivial⟩
        obtain rfl := Option.some.inj (hmt.symm.trans hmt')
        exact hb
  | publish sid i =>
      obtain ⟨mt, hmt, hs⟩ := Option.bind_eq_some_iff.mp hs
      split at hs
      · obtain rfl := Option.some.inj hs
        refine ⟨h.setMemtable (h.memtables sid mt hmt) fun mt' hmt' i hb => ?_, hsame rfl trivial⟩
        obtain rfl := Option.some.inj (hmt.symm.trans hmt')
        exact hb
      · cases hs
  | rotate =>
      obtain ⟨sid, -, hs⟩ := Option.bind_eq_some_iff.mp hs
      obtain ⟨mt, hmt, hs⟩ := Option.bind_eq_some_iff.mp hs
      split at hs
      · obtain rfl := Option.some.inj hs
        have : Inv (s.setMemtable sid mt.setSealed) := by
          refine h.setMemtable (h.memtables sid mt hmt) fun mt' hmt' i hb => ?_
          obtain rfl := Option.some.inj (hmt.symm.trans hmt')
          exact hb
        exact ⟨⟨this.files, this.comp, this.memtables, this.inMemtable, this.le, this.named⟩,
          hsame rfl trivial⟩
      · cases hs
  | flush sid =>
      obtain ⟨mt, hmt, hs⟩ := Option.bind_eq_some_iff.mp hs
      split at hs
      · obtain rfl := Option.some.inj hs
        have := h.setDisk (d := Memtable.flush mt
          (s.disk.latestVersion mt.memtableId mt.memtableId + 1) :: s.disk) fun f hf => by
            rcases List.mem_cons.mp hf with rfl | hf
            · exact .flush _ _ _ _
            · exact h.files f hf
        exact ⟨⟨this.files, this.comp, this.memtables, this.inMemtable, this.le, this.named⟩,
          hsame rfl trivial⟩
      · cases hs
  | claim t ranges =>
      obtain ⟨pc, hpc, rfl⟩ := Option.map_eq_some_iff.mp hs
      exact ⟨h.setComp (Kept.claim h.files hpc), hsame rfl trivial⟩
  | answer retry =>
      unfold BulkDelete.step at hs
      dsimp only at hs
      split at hs
      next hv =>
        obtain rfl := Option.some.inj hs
        refine ⟨h.leave ?_, hsame rfl trivial⟩
        split
        · rfl
        · exact nextSegment_inMemtables _
      next => cases hs

theorem exec {as : List Action} (h : Inv s)
    (hs : Transition.exec (BulkDelete.step cfg) s as = some s') : Inv s' ∧
      (s'.report.Exact ↔ s.report.Exact ∧ Meets (Clear cfg) (BulkDelete.step cfg) s as) := by
  induction as generalizing s with
  | nil =>
      obtain rfl := Option.some.inj hs
      exact ⟨h, (and_iff_left trivial).symm⟩
  | cons a as ih =>
      obtain ⟨u, hu, hs⟩ := Option.bind_eq_some_iff.mp hs
      obtain ⟨hi, ha⟩ := h.step hu
      obtain ⟨hi', has⟩ := ih hi hs
      refine ⟨hi', ?_⟩
      rw [has, ha, and_assoc, Meets, hu]

end Inv

theorem Start.exact (h : Start s) : s.report.Exact := by
  rw [h.report]
  rfl

theorem Start.inv (h : Start s) : Inv s where
  files := h.files
  comp := fun t => by
    rw [h.comp t]
    trivial
  memtables := h.memtables
  inMemtable := fun _ q hq => by
    rw [h.report] at hq
    cases hq
  le := h.exact.ge
  named := fun _ => by
    rw [h.report]
    exact ⟨List.nodup_nil, List.Subset.refl _⟩

end Steps

section Demo

/-- `Clear`, evaluated. -/
def clear (cfg : Config) (s : State) : Action → Bool
  | .vacuum =>
      match s.vac with
      | .growing sid => (s.memtables sid).all (unmasked true)
      | .immutable sid => (s.memtables sid).all (unmasked false)
      | .segment i _ => (s.disk.load i).all fun f => s.skips i || carries s.report.masked f
      | _ => true
  | _ => true
where
  unmasked (checkReady : Bool) (mt : Memtable) : Bool :=
    mt.mappedRows.zipIdx.all fun p =>
      !mt.dead checkReady cfg.callback p.2 p.1 || !mt.bitmap p.2
  carries (masked : List MappedRow) (f : SegmentFile) : Bool :=
    f.mapping.zipIdx.all fun p => !cfg.callback p.1.tid ||
      masked.all (fun q => !(q.sid == p.1.sid && q.slot == p.1.slot)) || f.bitmap p.2

theorem unmasked_of_clear (h : clear.unmasked cfg checkReady mt = true) :
    Unmasked cfg checkReady mt := by
  intro p hp hd
  have := List.all_eq_true.mp h p hp
  rw [hd] at this
  simpa using this

theorem carries_of_clear {masked : List MappedRow} (h : clear.carries cfg masked f = true) :
    Carries cfg masked f := by
  intro p hp hd hm
  obtain ⟨q, hq, hname⟩ := List.mem_map.mp hm
  obtain ⟨hsid, hslot⟩ := Prod.mk.injEq .. ▸ hname
  have hall := List.all_eq_true.mp h p hp
  have hsome : masked.all (fun q => !(q.sid == p.1.sid && q.slot == p.1.slot)) = false := by
    rw [List.all_eq_false]
    exact ⟨q, hq, by simp [hsid, hslot]⟩
  rw [hd, hsome] at hall
  simpa using hall

theorem clear_imp (cfg : Config) (s : State) (a : Action) (h : clear cfg s a = true) :
    Clear cfg s a := by
  cases a with
  | vacuum =>
      unfold clear at h
      unfold Clear
      cases hv : s.vac with
      | growing sid =>
          intro mt hmt
          simp only [hv, Option.mem_def.mp hmt, Option.all_some] at h
          exact unmasked_of_clear h
      | immutable sid =>
          intro mt hmt
          simp only [hv, Option.mem_def.mp hmt, Option.all_some] at h
          exact unmasked_of_clear h
      | segment i rest =>
          intro f hf hskip
          simp only [hv, Option.mem_def.mp hf, Option.all_some, hskip, Bool.false_or] at h
          exact carries_of_clear h
      | _ => trivial
  | _ => trivial

def Pc.isReturned : Pc → Bool
  | .returned => true
  | _ => false

theorem Pc.eq_returned {pc : Pc} (h : pc.isReturned = true) : pc = .returned := by
  cases pc <;> first | rfl | cases h

/-- Tid 7 is dead. -/
def demoConfig : Config := ⟨fun tid => tid == 7, true⟩

/-- A memtable with both rows of tid 7 whose first row is masked: the heap slot was used again. -/
def demoReused : Memtable where
  rel := 0
  memtableId := 5
  capacity := 8
  currentSize := 2
  readyCnt := 2
  isSealed := false
  flushClaimed := false
  maxReadyId := some 1
  rows := fun _ => ⟨7, ()⟩
  bitmap := fun i => i == 0
  ready := fun i => decide (i < 2)
  writer := fun _ => none

/-- The call on an index with the files `d` and the growing memtable `mt`. -/
def demoStart (d : Disk) (mt : Memtable) : State where
  disk := d
  memtables := fun sid => if sid = mt.memtableId then some mt else none
  growing := some mt.memtableId
  immutables := []
  comp := fun _ => .idle
  vac := .idle
  growingMemtableId := 0
  vacuumed := []
  report := .empty

theorem start_demoStart {d : Disk} (hd : ∀ f ∈ d, f.Descended) (mt : Memtable) :
    Start (demoStart d mt) where
  files := hd
  memtables := by
    intro sid mt' h
    unfold demoStart at h
    dsimp only at h
    split at h
    next heq =>
      obtain rfl := Option.some.inj h
      exact heq.symm
    next => cases h
  comp := fun _ => rfl
  vac := rfl
  growingMemtableId := rfl
  vacuumed := rfl
  report := rfl

/-- What of a state the runs below are about. -/
def demoView (s : State) : Bool × ℕ × List (ℕ × ℕ) × List (ℕ × ℕ) :=
  (s.vac.isReturned, s.report.tuplesRemoved, s.report.masked.map (·.name),
    s.report.named.map (·.name))

def demoUnmasked : Memtable := { demoReused with bitmap := fun _ => false }

/-- A segment with the rows of tids 10 and 7. -/
def demoFile : SegmentFile := .flush 4 [10, 7] (fun _ => false) 1

/-- The memtable is vacuumed, sealed and flushed; the segment is vacuumed, and merged with the
new one before the worker looks, which answers RETRY. -/
def demoRetried : List Action :=
  [.vacuum, .vacuum, .rotate, .flush 5, .vacuum, .vacuum, .claim 0 [(4, 4), (5, 5)], .vacuum,
    .vacuum, .comp 0, .comp 0, .answer true, .vacuum, .vacuum, .vacuum]

/-- A rebuild has read the bitmap before the row is masked: the retry reports it again. -/
example : (exec (step demoConfig) { demoStart [demoFile] demoUnmasked with growing := none }
    [.claim 0 [(4, 4)], .comp 0, .vacuum, .vacuum, .vacuum, .vacuum, .vacuum, .comp 0,
      .answer true, .vacuum, .vacuum]).map demoView =
    some (false, 2, [(4, 1), (4, 1)], [(4, 1), (4, 1)]) := by decide +kernel

end Demo

end VectorLsm.BulkDelete
