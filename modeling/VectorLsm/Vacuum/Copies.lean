import VectorLsm.InMemory.Built
import VectorLsm.Segment.Compacted
import VectorLsm.Vacuum.Tenants

/-! # Memtables and their files next to VACUUM

The memtable VACUUM references ages in its slot, and the files flushed or rebuilt from it carry
its bits as long as they have its rows in place. Flushes, compactions and whatever else happens
on the buffer keep this.
-/

namespace VectorLsm.Tenancy

open Transition
open BulkDelete (CompactionPc Kept)
open Memtable (Owner Present Tenant Trans Unwritten HasRow Aged)
open InMemory (Grows)

variable {cfg : Config} {own own' : SlotIdx → Owner} {s s' : State} {f : SegmentFile}
  {g g' : SlotIdx} {m : Memtable.State Unit} {pc : Pc}

/-- A memtable that VACUUM references stays where it is; if the index has handed it off, all its
slots are published. -/
structure Referenced (own : SlotIdx → Owner) (m : Memtable.State Unit) (g : SlotIdx) : Prop where
  readers : 0 < (m.slots g).readers
  tenant : Tenant own m g
  released : ¬ (own g).Live → (∀ i < (m.mt g).validSize, (m.mt g).ready i = true) ∧
    ∃ m' ∈ m.handedOff, m'.memtableId = (m.mt g).memtableId

/-- The memtables whose files are looked at: those of the index, and the one VACUUM has. -/
def Tracked (own : SlotIdx → Owner) (ref : Option SlotIdx) (g : SlotIdx) : Prop :=
  Present own g ∨ ref = some g

/-- What holds of a segment file, on disk or in hand. -/
structure Copy (own : SlotIdx → Owner) (m : Memtable.State Unit) (ref : Option SlotIdx)
    (marked : List (SlotIdx × ℕ)) (f : SegmentFile) : Prop where
  range : f.startSid ≤ f.endSid
  below : f.endSid < m.nextSegmentId
  tiles : Tiles 0 f.offsets f.mapping.length
  carries : ∀ g, Tracked own ref g → f.startSid = (m.mt g).memtableId →
    f.endSid = (m.mt g).memtableId →
    ((own g).Live → own g = .queued) ∧ Carries (fun k => (g, k) ∈ marked) (m.mt g) f

abbrev State.Copy (own : SlotIdx → Owner) (s : State) : SegmentFile → Prop :=
  Tenancy.Copy own s.mem s.vac.memtable s.marked

/-- The slot has its row, and the callback reports it. -/
structure Masked (cfg : Config) (own : SlotIdx → Owner) (m : Memtable.State Unit)
    (p : SlotIdx × ℕ) : Prop where
  tenant : Tenant own m p.1
  valid : p.2 < (m.mt p.1).validSize
  hasRow : HasRow (m.mt p.1) p.2
  dead : cfg.callback ((m.mt p.1).rows p.2).tid = true

/-- The bits of a file, and those of dead rows. -/
def SoundBits (cfg : Config) (f : SegmentFile) (bitmap : ℕ → Bool) : Prop :=
  ∀ k r, f.mapping[k]? = some r → bitmap k = true → f.bitmap k = true ∨ cfg.callback r.tid = true

/-- A bitmap that is to be written for a file. -/
def PendingBits (cfg : Config) (own : SlotIdx → Owner) (s : State) (i : SegmentFileInfo)
    (bitmap : ℕ → Bool) (n : ℕ) : Prop :=
  ∃ f, s.disk.load i = some f ∧ s.Copy own (f.setBitmap bitmap n) ∧ SoundBits cfg f bitmap

/-- The files a compaction has read are on disk. -/
def Reads (d : Disk) : CompactionPc → Prop
  | .read files =>
      ∀ f ∈ files, ∃ f' ∈ d, f'.info = f.info ∧ f'.mapping = f.mapping ∧ f'.offsets = f.offsets
  | .idle | .built _ => True

structure Inv (cfg : Config) (own : SlotIdx → Owner) (s : State) : Prop where
  mem : Memtable.Inv own s.mem
  unwritten : Unwritten own s.mem
  nodup : (s.disk.map (·.info)).Nodup
  referenced : ∀ g, s.vac.memtable = some g → Referenced own s.mem g
  marked : ∀ p ∈ s.marked, Masked cfg own s.mem p
  files : ∀ f ∈ s.disk, s.Copy own f
  comp : ∀ t, (s.comp t).All (s.Copy own)
  reads : ∀ t, Reads s.disk (s.comp t)
  pending : ∀ i bitmap n, s.vac.pending = some (i, bitmap, n) → PendingBits cfg own s i bitmap n
  slot : ∀ g growing n i changed, s.vac = .slot g growing n i changed →
    n ≤ (s.mem.mt g).validSize
  writes : ∀ w ∈ s.writes, SoundBits cfg w.1 w.2

theorem Inv.sound (h : Inv cfg own s) : Sound cfg s where
  slots := fun p hp _ => (h.marked p hp).dead
  files := h.writes

section Memtables

theorem Tracked.tenant (h : Inv cfg own s) (hg : Tracked own s.vac.memtable g) :
    Tenant own s.mem g := by
  rcases hg with hg | hg
  · exact h.mem.tenant_of_live hg.1
  · exact (h.referenced g hg).tenant

/-- Segment ids tell the memtables apart. -/
theorem Tracked.inj (h : Inv cfg own s) (hg : Tracked own s.vac.memtable g)
    (hg' : Tracked own s.vac.memtable g')
    (hid : (s.mem.mt g).memtableId = (s.mem.mt g').memtableId) : g = g' := by
  -- One that is handed off has the id of a memtable that was.
  have hnot : ∀ {g g'}, (own g).Live → ¬ (own g').Live → s.vac.memtable = some g' →
      (s.mem.mt g).memtableId ≠ (s.mem.mt g').memtableId := by
    intro g g' hl hn hv heq
    obtain ⟨-, m', hm', hid'⟩ := (h.referenced g' hv).released hn
    exact h.mem.names.handed m' hm' g hl (heq.trans hid'.symm)
  have hcases : ∀ {g}, Tracked own s.vac.memtable g →
      (own g).Live ∨ ¬ (own g).Live ∧ s.vac.memtable = some g := by
    intro g hg
    rcases hg with hg | hg
    · exact .inl hg.1
    · by_cases hl : (own g).Live
      · exact .inl hl
      · exact .inr ⟨hl, hg⟩
  rcases hcases hg with hl | ⟨hn, hv⟩ <;> rcases hcases hg' with hl' | ⟨hn', hv'⟩
  · exact h.mem.names.live g g' hl hl' hid
  · exact absurd hid (hnot hl hn' hv')
  · exact absurd hid.symm (hnot hl' hn hv)
  · exact Option.some.inj (hv.symm.trans hv')

theorem Referenced.trans (h : Inv cfg own s) (ht : Trans cfg.mem own s.mem own' m)
    (hg : Referenced own s.mem g) (hr : 0 < (m.slots g).readers) : Referenced own' m g := by
  have hpos : 0 < (m.slots g).refCount := hr.trans_le ((h.mem.trans ht).refs.readers g)
  refine ⟨hr, ht.tenant hg.tenant hpos, fun hn => ?_⟩
  by_cases hl : (own g).Live
  · obtain ⟨hmem, heq, hall⟩ := ht.handedOff h.mem hl hn
    rw [heq]
    exact ⟨hall, _, hmem, rfl⟩
  · obtain ⟨hall, m', hm', hid⟩ := hg.released hl
    obtain ⟨haged, hsize⟩ := ht.aged h.mem h.unwritten hg.tenant
    have hv := hsize fun hg => hl (by simp [hg])
    rw [hv, haged.memtableId]
    exact ⟨fun i hi => haged.ready i (hall i hi), m', ht.handedOff_subset hm', hid⟩

theorem Masked.trans {p : SlotIdx × ℕ} (h : Inv cfg own s) (ht : Trans cfg.mem own s.mem own' m)
    (hp : Masked cfg own s.mem p) (hpos : 0 < (m.slots p.1).refCount) :
    Masked cfg own' m p := by
  obtain ⟨haged, -⟩ := ht.aged h.mem h.unwritten hp.tenant
  obtain ⟨hrow, heq⟩ := haged.rows p.2 hp.hasRow
  exact ⟨ht.tenant hp.tenant hpos, hp.valid.trans_le haged.validSize, hrow, heq ▸ hp.dead⟩

theorem Carries.imp {mt : ConcurrentMemTable Unit} {p q : ℕ → Prop} (h : Carries p mt f)
    (hpq : ∀ k < mt.validSize, p k → q k) : Carries q mt f :=
  ⟨h.ready, h.length, fun hf k hk hb => (h.bits hf k hk hb).imp id (hpq k hk)⟩

/-- The files of a memtable that has aged with its size unchanged. -/
theorem Carries.aged {mt mt' : ConcurrentMemTable Unit} {p q : ℕ → Prop} (h : Carries p mt f)
    (ha : Aged mt mt') (hv : mt'.validSize = mt.validSize)
    (hb : ∀ k, mt'.bitmap k = true → mt.bitmap k = true ∨ q k) (hpq : ∀ k, p k → q k) :
    Carries q mt' f := by
  refine ⟨fun i hi => ?_, hv ▸ h.length, fun hf k hk hk' => ?_⟩
  · rw [hv] at hi
    exact ha.ready i (h.ready i hi)
  · rw [hv] at hk
    have hin : InPlace mt f := by
      unfold InPlace at hf ⊢
      rw [hf, ha.mappedRows hv h.ready]
    rcases hb k hk' with hk' | hk'
    · exact (h.bits hin k hk hk').imp id (hpq k)
    · exact .inr hk'

theorem Copy.trans {marked : List (SlotIdx × ℕ)} (h : Inv cfg own s)
    (ht : Trans cfg.mem own s.mem own' m) (hf : s.Copy own f)
    (hb : ∀ g, Tenant own s.mem g → ∀ k, (m.mt g).bitmap k = true →
      (s.mem.mt g).bitmap k = true ∨ (g, k) ∈ marked)
    (hm : ∀ g, Tracked own' s.vac.memtable g → ∀ k, (g, k) ∈ s.marked → (g, k) ∈ marked) :
    Copy own' m s.vac.memtable marked f := by
  refine ⟨hf.range, hf.below.trans_le ht.nextSegmentId_le, hf.tiles, fun g hg h₁ h₂ => ?_⟩
  have hold : Tracked own s.vac.memtable g := by
    rcases hg with hg | hg
    · rcases ht.present h.mem.places h.mem.refs hg with hg | hid
      · exact .inl hg
      · -- A new memtable has an id that no file has.
        have hbelow := hf.below
        rw [h₂, hid] at hbelow
        exact absurd hbelow (Nat.lt_irrefl _)
    · exact .inr hg
  have hten := hold.tenant h
  obtain ⟨haged, hsize⟩ := ht.aged h.mem h.unwritten hten
  rw [haged.memtableId] at h₁ h₂
  obtain ⟨hq, hc⟩ := hf.carries g hold h₁ h₂
  have hng : own g ≠ .growing := by
    intro hg
    have := hq (by simp [hg])
    simp [hg] at this
  refine ⟨fun hl => ?_, hc.aged haged (hsize hng) (hb g hten) (hm g hg)⟩
  rcases ht.live h.mem.places hl with hl' | ⟨⟨t, ht'⟩, -⟩
  · exact ht.queued h.mem.places h.mem.refs (hq hl') hl
  · exact absurd ht' (hten.building t)

/-- A step on the buffer, after which VACUUM may have masked slots `ps`. -/
theorem Inv.setMem (h : Inv cfg own s) (ht : Trans cfg.mem own s.mem own' m)
    (ps : List (SlotIdx × ℕ)) (hps : ∀ p ∈ ps, Masked cfg own' m p)
    (hb : ∀ g, Tenant own s.mem g → ∀ k, (m.mt g).bitmap k = true →
      (s.mem.mt g).bitmap k = true ∨ (g, k) ∈ ps)
    (hr : ∀ g, s.vac.memtable = some g → 0 < (m.slots g).readers) :
    Inv cfg own' { s.setMem m with marked := ps ++ (s.setMem m).marked } := by
  have hmem := h.mem.trans ht
  have hcopy : ∀ f, s.Copy own f →
      Copy own' m s.vac.memtable (ps ++ (s.setMem m).marked) f := by
    intro f hf
    refine hf.trans h ht (fun g hg k hk => (hb g hg k hk).imp id (List.mem_append_left _)) ?_
    intro g hg k hk
    have hpos : 0 < (m.slots g).refCount := by
      rcases hg with hg | hg
      · exact (hmem.tenant_of_live hg.1).refCount
      · exact (hr g hg).trans_le (hmem.refs.readers g)
    exact List.mem_append_right ps (List.mem_filter.mpr ⟨hk, by simpa using hpos⟩)
  constructor
  case mem => exact hmem
  case unwritten => exact h.unwritten.trans ht h.mem
  case nodup => exact h.nodup
  case referenced => exact fun g hg => (h.referenced g hg).trans h ht (hr g hg)
  case marked =>
    intro p hp
    rcases List.mem_append.mp hp with hp | hp
    · exact hps p hp
    · obtain ⟨hp, hpos⟩ := List.mem_filter.mp hp
      exact (h.marked p hp).trans h ht (by simpa using hpos)
  case files => exact fun f hf => hcopy f (h.files f hf)
  case comp => exact fun t => (h.comp t).imp hcopy
  case reads => exact h.reads
  case pending =>
    intro i bitmap n hv
    obtain ⟨f, hload, hf, hs⟩ := h.pending i bitmap n hv
    exact ⟨f, hload, hcopy _ hf, hs⟩
  case slot =>
    intro g growing n i changed hv
    have href : s.vac.memtable = some g := by
      rw [show s.vac = _ from hv]
      rfl
    obtain ⟨haged, -⟩ := ht.aged h.mem h.unwritten (h.referenced g href).tenant
    exact (h.slot g growing n i changed hv).trans haged.validSize
  case writes => exact h.writes

end Memtables

section Files

variable {ref ref' : Option SlotIdx} {marked : List (SlotIdx × ℕ)} {i : SegmentFileInfo}
  {bitmap : ℕ → Bool} {n t : ℕ} {cpc cpc' : CompactionPc} {d : Disk}

theorem Copy.setRef (h : Copy own m ref marked f)
    (hr : ∀ g, ref' = some g → Tracked own ref g) : Copy own m ref' marked f :=
  ⟨h.range, h.below, h.tiles, fun g hg => h.carries g (hg.elim .inl (hr g))⟩

/-- A rebuild that leaves the rows in place takes the bits from the file it reads again. -/
theorem Carries.rebuild {mt : ConcurrentMemTable Unit} {p : ℕ → Prop} {f' : SegmentFile}
    (h : Carries p mt f) (h' : Carries p mt f') (hmap : f'.mapping = f.mapping)
    (ht : Tiles 0 f.offsets f.mapping.length) {snapshot : ℕ → Bool} :
    Carries p mt (f.rebuild snapshot f'.bitmap n) := by
  have hle : (f.rebuild snapshot f'.bitmap n).mapping.length ≤ f.mapping.length := by
    rw [SegmentFile.rebuild_mapping ht]
    exact (Compact.compact_sublist 0 _).length_le
  refine ⟨h.ready, hle.trans h.length, fun hin k hk hb => ?_⟩
  have hsize : (f.rebuild snapshot f'.bitmap n).mapping.length = mt.validSize := by
    have := congrArg List.length hin
    simpa [ConcurrentMemTable.mappedRows] using this
  obtain ⟨hsame, hbits⟩ := rebuild_of_length_le ht (hsize ▸ h.length)
  have hin' : InPlace mt f' := by
    unfold InPlace at hin ⊢
    rw [hmap, ← hin, hsame]
  have hlen : f.mapping.length = mt.validSize := by rw [← hsame, hsize]
  exact (h'.bits hin' k hk hb).imp (hbits k (hlen ▸ hk)) id

theorem kept_copy : Kept (fun f f' => f'.mapping = f.mapping) (Copy own m ref marked) where
  rebuild := by
    intro f f' hf hf' hinfo hmap
    refine ⟨hf.range, hf.below, SegmentFile.rebuild_tiles hf.tiles, fun g hg h₁ h₂ => ?_⟩
    obtain ⟨hq, hc⟩ := hf.carries g hg h₁ h₂
    have h₁' : f'.startSid = f.startSid := congrArg SegmentFileInfo.startSid hinfo
    have h₂' : f'.endSid = f.endSid := congrArg SegmentFileInfo.endSid hinfo
    obtain ⟨-, hc'⟩ := hf'.carries g hg (h₁'.trans h₁) (h₂'.trans h₂)
    exact ⟨hq, hc.rebuild hc' hmap hf.tiles⟩
  merge := by
    intro f g hf hg hadj
    have h₁ := hf.range
    have h₂ := hg.range
    refine ⟨?_, ?_, InMemory.written_merge hf.tiles hg.tiles, fun g' _ hs he => ?_⟩
    · rw [SegmentFile.merge_startSid, SegmentFile.merge_endSid]
      lia
    · rw [SegmentFile.merge_endSid]
      exact hg.below
    · rw [SegmentFile.merge_startSid] at hs
      rw [SegmentFile.merge_endSid] at he
      lia
  setVersion := fun _ _ h => ⟨h.range, h.below, h.tiles, fun g hg h₁ h₂ =>
    (h.carries g hg h₁ h₂).imp id fun hc => ⟨hc.ready, hc.length, hc.bits⟩⟩

theorem Reads.grows (h : Reads s.disk cpc) (hg : Grows s.disk d) :
    Reads d cpc := by
  cases cpc with
  | read files => exact hg.files h
  | _ => trivial

namespace Inv

theorem setVac (h : Inv cfg own s)
    (href : ∀ g, pc.memtable = some g → Referenced own s.mem g ∧ Tracked own s.vac.memtable g)
    (hp : ∀ i bitmap n, pc.pending = some (i, bitmap, n) → PendingBits cfg own s i bitmap n)
    (hslot : ∀ g growing n i changed, pc = .slot g growing n i changed →
      n ≤ (s.mem.mt g).validSize) : Inv cfg own (s.setVac pc) := by
  have hcopy : ∀ f, s.Copy own f → (s.setVac pc).Copy own f := fun f hf =>
    hf.setRef fun g hg => (href g hg).2
  constructor
  case mem => exact h.mem
  case unwritten => exact h.unwritten
  case nodup => exact h.nodup
  case referenced => exact fun g hg => (href g hg).1
  case marked => exact h.marked
  case files => exact fun f hf => hcopy f (h.files f hf)
  case comp => exact fun t => (h.comp t).imp hcopy
  case reads => exact h.reads
  case pending =>
    intro i bitmap n hv
    obtain ⟨f, hload, hf, hs⟩ := hp i bitmap n hv
    exact ⟨f, hload, hcopy _ hf, hs⟩
  case slot => exact hslot
  case writes => exact h.writes

/-- To a point without memtable and bitmap. -/
theorem leave (h : Inv cfg own s) (hm : pc.memtable = none) (hp : pc.pending = none) :
    Inv cfg own (s.setVac pc) := by
  refine h.setVac (fun g hg => ?_) (fun i bitmap n hv => ?_) fun g growing n i changed hv => ?_
  · rw [hm] at hg
    cases hg
  · rw [hp] at hv
    cases hv
  · rw [hv] at hm
    cases hm

/-- To a point with the same memtable. -/
theorem stay (h : Inv cfg own s) (hm : pc.memtable = s.vac.memtable)
    (hp : ∀ i bitmap n, pc.pending = some (i, bitmap, n) → PendingBits cfg own s i bitmap n)
    (hslot : ∀ g growing n i changed, pc = .slot g growing n i changed →
      n ≤ (s.mem.mt g).validSize) : Inv cfg own (s.setVac pc) :=
  h.setVac (fun g hg => ⟨h.referenced g (hm ▸ hg), .inr (hm ▸ hg)⟩) hp hslot

theorem setComp (h : Inv cfg own s) (hc : cpc.All (s.Copy own)) (hr : Reads s.disk cpc) :
    Inv cfg own (s.setComp t cpc) := by
  constructor
  case comp =>
    intro u
    rw [State.setComp_comp, Function.update_apply]
    split
    · exact hc
    · exact h.comp u
  case reads =>
    intro u
    rw [State.setComp_comp, Function.update_apply]
    split
    · exact hr
    · exact h.reads u
  case mem => exact h.mem
  case unwritten => exact h.unwritten
  case nodup => exact h.nodup
  case referenced => exact h.referenced
  case marked => exact h.marked
  case files => exact h.files
  case pending => exact h.pending
  case slot => exact h.slot
  case writes => exact h.writes

theorem setDisk (h : Inv cfg own s) (hg : Grows s.disk d) (hn : (d.map (·.info)).Nodup)
    (hf : ∀ f ∈ d, s.Copy own f)
    (hl : ∀ i bitmap n, s.vac.pending = some (i, bitmap, n) → ∀ f, s.disk.load i = some f →
      d.load i = some f) : Inv cfg own (s.setDisk d) := by
  constructor
  case nodup => exact hn
  case files => exact hf
  case reads => exact fun t => (h.reads t).grows hg
  case pending =>
    intro i bitmap n hv
    obtain ⟨f, hload, hf, hs⟩ := h.pending i bitmap n hv
    exact ⟨f, hl i bitmap n hv f hload, hf, hs⟩
  case mem => exact h.mem
  case unwritten => exact h.unwritten
  case referenced => exact h.referenced
  case marked => exact h.marked
  case comp => exact h.comp
  case slot => exact h.slot
  case writes => exact h.writes

/-- The next version of a range. -/
theorem addFile (h : Inv cfg own s) (hf : s.Copy own f)
    (hv : f.version = s.disk.latestVersion f.startSid f.endSid + 1) :
    Inv cfg own (s.setDisk (f :: s.disk)) := by
  have hnew : f.info ∉ s.disk.map (·.info) := InMemory.info_notMem f hv
  refine h.setDisk (.cons f _) (List.nodup_cons.mpr ⟨hnew, h.nodup⟩)
    (List.forall_mem_cons.mpr ⟨hf, h.files⟩) fun i bitmap n _ f' hload => ?_
  obtain ⟨hmem, rfl⟩ := BulkDelete.load_mem hload
  have hne : f.info ≠ f'.info := fun he => hnew (he ▸ List.mem_map_of_mem hmem)
  rwa [Disk.load, List.find?_cons_of_neg (by simpa using hne)]

theorem writeBitmap (h : Inv cfg own s) (hp : PendingBits cfg own s i bitmap n)
    (hnone : s.vac.pending = none) : Inv cfg own (s.writeBitmap i bitmap n) := by
  obtain ⟨f, hload, hf, hs⟩ := hp
  have hdisk : Inv cfg own (s.setDisk (s.disk.writeBitmap i bitmap n)) := by
    refine h.setDisk (.writeBitmap _ i bitmap n) ?_ ?_ fun j b k hv => ?_
    · rw [Disk.writeBitmap_info]
      exact h.nodup
    · refine Kept.writeBitmap h.files fun f' hf' hi => ?_
      obtain rfl : f = f' := Option.some.inj
        (hload.symm.trans ((Disk.load_eq_some h.nodup).mpr ⟨hf', hi⟩))
      exact hf
    · rw [hnone] at hv
      cases hv
  obtain ⟨h₁, h₂, h₃, h₄, h₅, h₆, h₇, h₈, h₉, h₁₀, -⟩ := hdisk
  refine ⟨h₁, h₂, h₃, h₄, h₅, h₆, h₇, h₈, h₉, h₁₀, fun w hw => ?_⟩
  rw [State.writeBitmap_writes, hload] at hw
  rcases List.mem_cons.mp hw with rfl | hw
  · exact hs
  · exact h.writes w hw

theorem claim (h : Inv cfg own s) {ranges : List (SegmentId × SegmentId)}
    (hc : (s.comp t).claim s.disk ranges = some cpc) : Inv cfg own (s.setComp t cpc) := by
  refine h.setComp (Kept.claim h.files hc) ?_
  unfold CompactionPc.claim at hc
  split at hc
  next =>
    obtain ⟨files, hfiles, hc⟩ := Option.bind_eq_some_iff.mp hc
    split at hc
    next =>
      obtain rfl := Option.some.inj hc
      intro f hf
      obtain ⟨r, -, hr⟩ := OnDisk.mem_of_mapM hfiles hf
      exact ⟨f, (BulkDelete.load_mem hr).1, rfl, rfl, rfl⟩
    next => cases hc
  next => cases hc

/-- A step of a compaction. -/
theorem next (h : Inv cfg own s) (hc : (s.comp t).next s.disk = some (d, cpc)) :
    Inv cfg own ((s.setDisk d).setComp t cpc) := by
  have hall := h.comp t
  have hreads := h.reads t
  cases hpc : s.comp t with
  | idle =>
    rw [hpc] at hc
    cases hc
  | read files =>
    rw [hpc] at hc hall hreads
    have hre : (CompactionPc.read files).Reread (fun f f' => f'.mapping = f.mapping) s.disk :=
      fun f hf f' hf' => (InMemory.reread h.nodup (hreads f hf) hf').2.1
    obtain ⟨-, hcpc⟩ := kept_copy.next h.files hall hre hc
    obtain ⟨new, -, hc⟩ := Option.map_eq_some_iff.mp hc
    obtain ⟨rfl, rfl⟩ := Prod.mk.inj hc
    exact h.setComp hcpc trivial
  | built new =>
    rw [hpc] at hc hall
    obtain ⟨rfl, rfl⟩ := Prod.mk.inj (Option.some.inj hc)
    have hcopy := kept_copy.setVersion new (s.disk.latestVersion new.startSid new.endSid + 1) hall
    exact (h.addFile hcopy rfl).setComp trivial trivial

/-- The files a flush writes have the rows and the bits of the memtable. -/
theorem flush (h : Inv cfg own s) {f : ℕ} (hg : s.mem.flu f = .settled g) :
    Inv cfg own ((s.setMem (s.mem.setFlu f (.written g))).setDisk
      (DeleteCounts.Memtable.flush (s.mem.mt g)
        (s.disk.latestVersion (s.mem.mt g).memtableId (s.mem.mt g).memtableId + 1) :: s.disk)) := by
  have ht : Trans cfg.mem own s.mem own (s.mem.setFlu f (.written g)) :=
    .flush (.advance (by simp [hg]) (by simp [hg]) (by simp [hg]))
  have h' : Inv cfg own (s.setMem (s.mem.setFlu f (.written g))) :=
    h.setMem ht [] (fun p hp => absurd hp List.not_mem_nil) (fun _ _ _ hk => .inl hk)
      fun g' hg' => (h.referenced g' hg').readers
  have hq : own g = .queued := h.mem.claims.queued_of_done f g (by simp [hg])
  have hlive : (own g).Live := by simp [hq]
  have hlen : ((s.mem.mt g).mappedRows.map (·.tid)).length = (s.mem.mt g).validSize := by
    simp [ConcurrentMemTable.mappedRows]
  have hmap : (SegmentFile.memtableRows (s.mem.mt g).memtableId
      ((s.mem.mt g).mappedRows.map (·.tid))).length = (s.mem.mt g).validSize := by
    rw [SegmentFile.memtableRows, List.length_map, List.length_zipIdx, hlen]
  refine h'.addFile ⟨le_rfl, h.mem.names.below g hlive, ?_, fun g' hg' h₁ _ => ?_⟩ rfl
  · exact ⟨rfl, Nat.zero_le _, hlen.trans hmap.symm⟩
  · obtain rfl : g = g' := Tracked.inj h' (.inl ⟨hlive, by simp [hq]⟩) hg' h₁
    exact ⟨fun _ => hq, h.mem.slots.done f g (by simp [hg]), hmap.le, fun _ k _ hk => .inl hk⟩

theorem others (h : Inv cfg own s) {a : Memtable.Action Unit} (ho : s.ofOthers a = true)
    (hs : s.memStep cfg a = some s') : ∃ own', Inv cfg own' (s'.setDisk (s.flushed a)) := by
  obtain ⟨m, hm, rfl⟩ := Option.map_eq_some_iff.mp hs
  -- Either the files of a memtable are written, or the directory is as it was.
  have hcases : (∃ f g, a = .flu f ∧ s.mem.flu f = .settled g) ∨ s.flushed a = s.disk := by
    unfold State.flushed
    split
    next f =>
      split
      next g hg => exact .inl ⟨f, g, rfl, hg⟩
      next => exact .inr rfl
    next => exact .inr rfl
  rcases hcases with ⟨f, g, rfl, hg⟩ | hdisk
  · have hm' : m = s.mem.setFlu f (.written g) := by
      simp only [Memtable.step, Memtable.flushStep, hg] at hm
      exact (Option.some.inj hm).symm
    refine ⟨own, ?_⟩
    rw [hm', State.flushed, hg]
    exact h.flush hg
  · obtain ⟨own', ht, -⟩ := Memtable.step_trans own hm
    refine ⟨own', ?_⟩
    rw [hdisk]
    refine h.setMem ht [] (fun p hp => absurd hp List.not_mem_nil) (fun g hg k hk => .inl ?_)
      fun g hg => ?_
    · refine Memtable.step_bitmap hm (fun g i he => ?_) hg hk
      rw [he] at ho
      cases ho
    · have hpos := (h.referenced g hg).readers
      by_cases he : a = .unref g
      · subst he
        simp only [State.ofOthers, hg, ne_eq, not_true_eq_false, false_or, decide_eq_true_eq] at ho
        simp only [Memtable.step, Memtable.readerStep, if_pos hpos] at hm
        obtain rfl := Option.some.inj hm
        simp
        omega
      · exact hpos.trans_le (Memtable.step_readers hm he)

end Inv

end Files

end VectorLsm.Tenancy
