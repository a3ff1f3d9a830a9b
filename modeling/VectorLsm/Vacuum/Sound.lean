import VectorLsm.Vacuum.Copies

/-! # VACUUM masks dead rows only

A slot is masked where a row of the present tenant is, and a bitmap is written where the rows are
that it was made for, in every run that keeps to the condition. In other runs VACUUM hides rows
that are not deleted.
-/

namespace VectorLsm.Tenancy

open Transition
open Memtable (Owner Present Tenant Trans HasRow)

variable {cfg : Config} {own : SlotIdx → Owner} {s s' : State} {f : SegmentFile} {g : SlotIdx}
  {m : Memtable.State Unit} {pc : Pc} {a : Memtable.Action Unit} {growing changed : Bool}

namespace Inv

/-- A step of VACUUM on the buffer other than a mask. -/
theorem reader (h : Inv cfg own s) (hm : Memtable.step cfg.mem s.mem a = some m)
    (hstep : Memtable.step cfg.mem s.mem a = Memtable.readerStep s.mem a)
    (hmask : ∀ g i, a ≠ .mask g i) (hr : ∀ g, s.vac.memtable = some g → 0 < (m.slots g).readers) :
    Inv cfg own (s.setMem m) :=
  h.setMem (Memtable.readerStep_trans (hstep ▸ hm)) [] (fun _ hp => absurd hp List.not_mem_nil)
    (fun _ hg _ hk => .inl (Memtable.step_bitmap hm hmask hg hk)) hr

theorem acquire (h : Inv cfg own s) (hs : s.memStep cfg (.acquire g) = some s')
    (hg : Present own g) (hv : s.vac.memtable = none) (hm : pc.memtable = some g)
    (hp : pc.pending = none)
    (hslot : ∀ g growing n i changed, pc ≠ .slot g growing n i changed) :
    Inv cfg own (s'.setVac pc) := by
  obtain ⟨m, hm', rfl⟩ := Option.map_eq_some_iff.mp hs
  have hread : 0 < (m.slots g).readers := by
    simp only [Memtable.step, Memtable.readerStep] at hm'
    split at hm'
    · obtain rfl := Option.some.inj hm'
      simp
    · cases hm'
  have h' := h.reader hm' rfl (fun _ _ he => by cases he) fun g' hg' => by
    rw [hv] at hg'
    cases hg'
  refine h'.setVac (fun g' hg' => ?_) (fun i bitmap n hv => ?_) fun g growing n i changed he => ?_
  · obtain rfl : g = g' := Option.some.inj (hm.symm.trans hg')
    exact ⟨⟨hread, h'.mem.tenant_of_live hg.1, fun hn => absurd hg.1 hn⟩, .inl hg⟩
  · rw [hp] at hv
    cases hv
  · exact absurd he (hslot g growing n i changed)

/-- A slot is masked. -/
theorem mask (h : Inv cfg own s) {n i : ℕ} (hv : s.vac = .slot g growing n i changed)
    (hc : s.vac.Clear cfg s) (hi : i < n) (hd : s.isDead cfg g growing i = true)
    (hs : s.memStep cfg (.mask g i) = some s') :
    Inv cfg own ((s'.mark (g, i)).setVac (.slot g growing n (i + 1) true)) := by
  obtain ⟨m, hm, rfl⟩ := Option.map_eq_some_iff.mp hs
  have href : s.vac.memtable = some g := by
    rw [hv]
    rfl
  have hg := h.referenced g href
  have hvalid := h.slot g growing n i changed hv
  obtain ⟨hready, hdead⟩ := Bool.and_eq_true_iff.mp hd
  -- The row is there: a slot of the growing memtable is published, and one of a sealed memtable
  -- meets the condition.
  have hrow : HasRow (s.mem.mt g) i := by
    cases growing with
    | true => exact .inl (by simpa using hready)
    | false =>
      by_contra hn
      rw [hv] at hc
      have := hc hi hn
      rw [hdead] at this
      cases this
  have ht : Trans cfg.mem own s.mem own m :=
    Memtable.readerStep_trans (a := .mask g i) hm
  have hold : Masked cfg own s.mem (g, i) := ⟨hg.tenant, hi.trans_le hvalid, hrow, hdead⟩
  have hread : ∀ g', s.vac.memtable = some g' → 0 < (m.slots g').readers := fun g' hg' =>
    (h.referenced g' hg').readers.trans_le (Memtable.step_readers hm (by simp))
  have hpos : 0 < (m.slots g).refCount :=
    (hread g href).trans_le ((h.mem.trans ht).refs.readers g)
  have hbits : ∀ g', Tenant own s.mem g' → ∀ k, (m.mt g').bitmap k = true →
      (s.mem.mt g').bitmap k = true ∨ (g', k) ∈ [(g, i)] := by
    intro g' _ k hk
    simp only [Memtable.step, Memtable.readerStep] at hm
    split at hm
    · obtain rfl := Option.some.inj hm
      grind [Function.update_apply]
    · cases hm
  have h' := h.setMem ht [(g, i)] (fun p hp => by
    obtain rfl := List.mem_singleton.mp hp
    exact hold.trans h ht hpos) hbits hread
  refine h'.stay href.symm (fun _ _ _ hp => by cases hp) fun g' growing' n' i' c' he => ?_
  cases he
  exact h'.slot g growing n i changed hv

/-- The bitmap of a memtable whose files have its rows in place. -/
theorem pendingBits_of_inPlace (h : Inv cfg own s) (hg : s.vac.memtable = some g)
    (hf : s.persisted g = some f) (hin : InPlace (s.mem.mt g) f) (n : ℕ) :
    PendingBits cfg own s f.info (s.mem.mt g).bitmap n := by
  obtain ⟨hmem, hinfo⟩ := BulkDelete.load_mem hf
  have hcopy := h.files f hmem
  have h₁ : f.startSid = (s.mem.mt g).memtableId := congrArg SegmentFileInfo.startSid hinfo
  have h₂ : f.endSid = (s.mem.mt g).memtableId := congrArg SegmentFileInfo.endSid hinfo
  obtain ⟨hq, hc⟩ := hcopy.carries g (.inr hg) h₁ h₂
  refine ⟨f, (Disk.load_eq_some h.nodup).mpr ⟨hmem, rfl⟩, ?_, fun k r hr hk => ?_⟩
  · refine ⟨hcopy.range, hcopy.below, hcopy.tiles, fun g' hg' h₁' _ => ?_⟩
    obtain rfl : g = g' := Tracked.inj h (.inr hg) hg' (h₁.symm.trans h₁')
    exact ⟨hq, hc.ready, hc.length, fun _ k _ hk => .inl hk⟩
  · have hrow : (s.mem.mt g).mappedRows.map (·.tid) = f.mapping.map (·.tid) := hin.symm
    have htid := congrArg (·[k]?) hrow
    simp only [List.getElem?_map, hr, Option.map_some, Option.map_eq_some_iff] at htid
    obtain ⟨q, hq, htid⟩ := htid
    obtain ⟨hlt, rfl⟩ := ConcurrentMemTable.mappedRows_getElem?.mp hq
    refine (hc.bits hin k hlt hk).imp id fun hm => ?_
    rw [← htid]
    exact (h.marked _ hm).dead

/-- The bitmap of a segment file after the pass over it. -/
theorem pendingBits_of_vacuum (h : Inv cfg own s) {i : SegmentFileInfo} {v : SegmentVacuum}
    (hf : s.disk.load i = some f) (hv : f.vacuum cfg.callback = some v) (n : ℕ) :
    PendingBits cfg own s i v.bitmap n := by
  have hcopy := h.files f (BulkDelete.load_mem hf).1
  have hbits := SegmentFile.vacuum_bitmap hv
  refine ⟨f, hf, ⟨hcopy.range, hcopy.below, hcopy.tiles, fun g hg h₁ h₂ => ?_⟩, fun k r hr hk => ?_⟩
  · obtain ⟨hq, hc⟩ := hcopy.carries g hg h₁ h₂
    exact ⟨hq, hc.ready, hc.length, fun hin k hk hb =>
      (hc.bits hin k hk hb).imp (fun hb => (hbits k).mpr (.inl hb)) id⟩
  · rcases (hbits k).mp hk with hb | ⟨r', hr', hd⟩
    · exact .inl hb
    · obtain rfl : r = r' := Option.some.inj (hr.symm.trans hr')
      exact .inr hd

theorem nextSegment_memtable (is : List SegmentFileInfo) : (nextSegment is).memtable = none := by
  cases is <;> rfl

theorem nextSegment_pending (is : List SegmentFileInfo) : (nextSegment is).pending = none := by
  cases is <;> rfl

theorem nextSegment (h : Inv cfg own s) (is : List SegmentFileInfo) :
    Inv cfg own (s.setVac (Tenancy.nextSegment is)) :=
  h.leave (nextSegment_memtable is) (nextSegment_pending is)

theorem setGrowingId (h : Inv cfg own s) (sid : SegmentId) : Inv cfg own (s.setGrowingId sid) :=
  ⟨h.mem, h.unwritten, h.nodup, h.referenced, h.marked, h.files, h.comp, h.reads, h.pending,
    h.slot, h.writes⟩

theorem recordVacuumed (h : Inv cfg own s) (sid : SegmentId) :
    Inv cfg own (s.recordVacuumed sid) :=
  ⟨h.mem, h.unwritten, h.nodup, h.referenced, h.marked, h.files, h.comp, h.reads, h.pending,
    h.slot, h.writes⟩

/-- The bitmap is written, and VACUUM goes on. -/
theorem write (h : Inv cfg own s) {i : SegmentFileInfo} {bitmap : ℕ → Bool} {n : ℕ}
    (hp : s.vac.pending = some (i, bitmap, n)) (hnone : pc.pending = none)
    (hpc : Inv cfg own (s.setVac pc)) (hm : ∀ g, pc.memtable = some g → s.vac.memtable = some g) :
    Inv cfg own ((s.writeBitmap i bitmap n).setVac pc) := by
  obtain ⟨f, hload, hf, hs⟩ := h.pending i bitmap n hp
  exact hpc.writeBitmap ⟨f, hload, hf.setRef fun g hg => .inr (hm g hg), hs⟩ hnone

theorem memtable_present (h : Inv cfg own s) (hg : s.nextImmutable = some g) : Present own g := by
  have hmem : g ∈ s.mem.memtableIdxs := List.mem_reverse.mp (List.mem_of_find?_eq_some hg)
  have hown : own g = .queued := (h.mem.places.queued g).mpr hmem
  exact ⟨by simp [hown], by simp [hown]⟩

theorem vacuumStep (h : Inv cfg own s) (hc : s.vac.Clear cfg s)
    (hs : Tenancy.vacuumStep cfg s = some s') : Inv cfg own s' := by
  have hreferenced : ∀ {g}, s.vac.memtable = some g → 0 < (s.mem.slots g).readers :=
    fun hg => (h.referenced _ hg).readers
  unfold Tenancy.vacuumStep at hs
  cases hv : s.vac with
  | idle =>
    simp only [hv] at hs
    split at hs
    next g hg =>
      obtain ⟨u, hu, rfl⟩ := Option.map_eq_some_iff.mp hs
      have hown : own g = .growing := (h.mem.places.growing g).mpr hg
      have hpresent : Present own g := ⟨by simp [hown], by simp [hown]⟩
      have h' : Inv cfg own (u.setVac (.referenced g true)) :=
        h.acquire hu hpresent (by rw [hv]; rfl) rfl rfl fun _ _ _ _ _ he => by cases he
      exact h'.setGrowingId _
    next =>
      obtain rfl := Option.some.inj hs
      exact h.leave rfl rfl
  | immutables =>
    simp only [hv] at hs
    split at hs
    next =>
      obtain rfl := Option.some.inj hs
      exact h.leave rfl rfl
    next g hg =>
      obtain ⟨u, hu, rfl⟩ := Option.map_eq_some_iff.mp hs
      exact h.acquire hu (h.memtable_present hg) (by rw [hv]; rfl) rfl rfl
        fun _ _ _ _ _ he => by cases he
  | chosen g sid =>
    simp only [hv] at hs
    split at hs
    · obtain rfl := Option.some.inj hs
      exact h.stay (by rw [hv]; rfl) (fun _ _ _ hp => by cases hp) fun _ _ _ _ _ he => by cases he
    · obtain rfl := Option.some.inj hs
      exact h.leave rfl rfl
  | referenced g growing =>
    simp only [hv] at hs
    obtain ⟨u, hu, rfl⟩ := Option.map_eq_some_iff.mp hs
    obtain ⟨m, hm, rfl⟩ := Option.map_eq_some_iff.mp hu
    have href : s.vac.memtable = some g := by
      rw [hv]
      rfl
    have h' := h.reader hm rfl (fun _ _ he => by cases he) fun g' hg' =>
      (hreferenced hg').trans_le (Memtable.step_readers hm (by simp))
    refine h'.stay href.symm (fun _ _ _ hp => by cases hp) fun g' growing' n i c he => ?_
    cases he
    have hten := (h.referenced g href).tenant
    have ht : Trans cfg.mem own s.mem own m := Memtable.readerStep_trans (a := .lockVacuum g) hm
    exact (ht.aged h.mem h.unwritten hten).1.validSize
  | slot g growing n i changed =>
    simp only [hv] at hs
    have hsize := h.slot g growing n i changed hv
    have hstay : ∀ pc : Pc, pc.memtable = some g → pc.pending = none →
        (∀ g' growing' n' i' changed', pc = .slot g' growing' n' i' changed' → g' = g ∧ n' = n) →
        Inv cfg own (s.setVac pc) := by
      intro pc hm hp hn
      refine h.stay (by rw [hm, hv]; rfl) (fun _ _ _ hp' => ?_) fun g' growing' n' i' c he => ?_
      · rw [hp] at hp'
        cases hp'
      · obtain ⟨rfl, rfl⟩ := hn g' growing' n' i' c he
        exact hsize
    split at hs
    next hi =>
      split at hs
      next hd =>
        obtain ⟨u, hu, rfl⟩ := Option.map_eq_some_iff.mp hs
        exact h.mask hv hc hi hd hu
      next =>
        obtain rfl := Option.some.inj hs
        exact hstay _ rfl rfl fun _ _ _ _ _ he => by cases he; exact ⟨rfl, rfl⟩
    next =>
      obtain rfl := Option.some.inj hs
      exact hstay _ rfl rfl fun _ _ _ _ _ he => by cases he
  | scanned g growing n changed =>
    simp only [hv] at hs
    have href : s.vac.memtable = some g := by
      rw [hv]
      rfl
    split at hs
    next _ _ f hf =>
      obtain rfl := Option.some.inj hs
      rw [hv] at hc
      refine h.stay href.symm (fun i bitmap k hp => ?_) fun _ _ _ _ _ he => by cases he
      cases hp
      exact h.pendingBits_of_inPlace href hf (hc f hf) _
    next =>
      obtain rfl := Option.some.inj hs
      exact h.stay href.symm (fun _ _ _ hp => by cases hp) fun _ _ _ _ _ he => by cases he
  | persist g growing i bitmap n =>
    simp only [hv] at hs
    obtain rfl := Option.some.inj hs
    refine h.write (by rw [hv]; rfl) rfl ?_ fun g' hg' => by rw [hv]; exact hg'
    exact h.stay (by rw [hv]; rfl) (fun _ _ _ hp => by cases hp) fun _ _ _ _ _ he => by cases he
  | unlock g growing =>
    simp only [hv] at hs
    obtain ⟨u, hu, rfl⟩ := Option.map_eq_some_iff.mp hs
    obtain ⟨m, hm, rfl⟩ := Option.map_eq_some_iff.mp hu
    have h' := h.reader hm rfl (fun _ _ he => by cases he) fun g' hg' =>
      (hreferenced hg').trans_le (Memtable.step_readers hm (by simp))
    exact h'.stay (by rw [State.setMem_vac, hv]; rfl) (fun _ _ _ hp => by cases hp)
      fun _ _ _ _ _ he => by cases he
  | unref g growing =>
    simp only [hv] at hs
    obtain ⟨u, hu, rfl⟩ := Option.map_eq_some_iff.mp hs
    obtain ⟨m, hm, rfl⟩ := Option.map_eq_some_iff.mp hu
    have h' : Inv cfg own (s.setVac (.record g growing)) := h.leave rfl rfl
    exact h'.reader hm rfl (fun _ _ he => by cases he) fun _ hg' => by cases hg'
  | record g growing =>
    simp only [hv] at hs
    obtain rfl := Option.some.inj hs
    have h' : Inv cfg own (s.setVac .immutables) := h.leave rfl rfl
    exact h'.recordVacuumed _
  | files =>
    simp only [hv] at hs
    obtain rfl := Option.some.inj hs
    exact h.nextSegment _
  | segment i rest =>
    simp only [hv] at hs
    split at hs
    next =>
      obtain rfl := Option.some.inj hs
      exact h.leave rfl rfl
    next f hf =>
      split at hs
      next =>
        obtain rfl := Option.some.inj hs
        exact h.nextSegment rest
      next =>
        split at hs
        next =>
          obtain rfl := Option.some.inj hs
          exact h.leave rfl rfl
        next v hvac =>
          split at hs
          next =>
            obtain rfl := Option.some.inj hs
            refine h.setVac (fun _ hg => by cases hg) (fun j bitmap k hp => ?_)
              fun _ _ _ _ _ he => by cases he
            cases hp
            exact h.pendingBits_of_vacuum hf hvac _
          next =>
            obtain rfl := Option.some.inj hs
            exact h.nextSegment rest
  | marked i rest bitmap n =>
    simp only [hv] at hs
    obtain rfl := Option.some.inj hs
    exact h.write (by rw [hv]; rfl) rfl (h.leave rfl rfl) fun _ hg' => by cases hg'
  | retry i rest =>
    simp only [hv] at hs
    split at hs
    next =>
      obtain rfl := Option.some.inj hs
      exact h.nextSegment rest
    next =>
      obtain rfl := Option.some.inj hs
      exact h.leave rfl rfl
  | request i rest =>
    simp only [hv] at hs
    cases hs
  | returned =>
    simp only [hv] at hs
    cases hs
  | failed =>
    simp only [hv] at hs
    cases hs

theorem step (h : Inv cfg own s) {a : Action} (hc : Clear cfg s a)
    (hs : Tenancy.step cfg s a = some s') : ∃ own', Inv cfg own' s' := by
  cases a with
  | mem a =>
    unfold Tenancy.step at hs
    dsimp only at hs
    split at hs
    next ho =>
      obtain ⟨u, hu, rfl⟩ := Option.map_eq_some_iff.mp hs
      exact h.others ho hu
    next => cases hs
  | claim t ranges =>
    obtain ⟨pc, hpc, rfl⟩ := Option.map_eq_some_iff.mp hs
    exact ⟨own, h.claim hpc⟩
  | comp t =>
    obtain ⟨⟨d, pc⟩, hpc, rfl⟩ := Option.map_eq_some_iff.mp hs
    exact ⟨own, h.next hpc⟩
  | vacuum => exact ⟨own, h.vacuumStep hc hs⟩
  | answer retry =>
    unfold Tenancy.step at hs
    dsimp only at hs
    split at hs
    next i rest hv =>
      obtain rfl := Option.some.inj hs
      refine ⟨own, ?_⟩
      split
      · exact h.leave rfl rfl
      · exact h.nextSegment rest
    next => cases hs

end Inv

theorem has_of_present {own : SlotIdx → Owner} (hp : Memtable.Places own m) (hg : Present own g) :
    Has m g := by
  obtain ⟨hl, hne⟩ := hg
  cases ho : own g with
  | growing => exact .inl ((hp.growing g).mp ho)
  | queued => exact .inr (.inl ((hp.queued g).mp ho))
  | rotation t => exact .inr (.inr ⟨t, .inl ((hp.rotation t g).mp ho)⟩)
  | fresh t => exact .inr (.inr ⟨t, .inr ((hp.fresh t g).mp ho)⟩)
  | orphan => exact absurd ho hne
  | nobody | building _ | unlinked _ => simp [ho] at hl

theorem Start.inv (h : Start cfg s) : ∃ own, Inv cfg own s := by
  obtain ⟨own, hmem, hu⟩ := Memtable.unwritten_of_reachable h.mem
  have hnot : s.vac.memtable = none := by
    rw [h.vac]
    rfl
  refine ⟨own, hmem, hu, h.nodup, ?_, ?_, ?_, ?_, ?_, ?_, ?_, ?_⟩
  · intro g hg
    rw [hnot] at hg
    cases hg
  · simp [h.marked]
  · intro f hf
    obtain ⟨hrange, hbelow, htiles⟩ := h.files f hf
    refine ⟨hrange, hbelow, htiles, fun g hg h₁ h₂ => ?_⟩
    have hpresent : Present own g := by
      rcases hg with hg | hg
      · exact hg
      · rw [hnot] at hg
        cases hg
    obtain ⟨hq, hc⟩ := h.flushed f hf g (has_of_present hmem.places hpresent) h₁ h₂
    exact ⟨fun _ => (hmem.places.queued g).mpr hq, hc.imp fun _ _ => False.elim⟩
  · intro t
    rw [h.comp t]
    trivial
  · intro t
    rw [h.comp t]
    trivial
  · intro i bitmap n hp
    rw [h.vac] at hp
    cases hp
  · intro g growing n i changed he
    rw [h.vac] at he
    cases he
  · simp [h.writes]

/-- In every run that keeps to the condition VACUUM masks dead rows only. -/
theorem sound_of_clear (cfg : Config) {s : State}
    (h : Reachable (Start cfg) (step cfg) (Clear cfg) s) : Sound cfg s := by
  obtain ⟨own, hi⟩ := h.invariant (P := fun s => ∃ own, Inv cfg own s) (fun _ => Start.inv)
    fun _ _ _ _ ⟨_, hi⟩ hc hs => hi.step hc hs
  exact hi.sound

section Schedule

instance (cfg : Config) (s : State) : DecidablePred (Pc.Clear cfg s)
  | .slot g false n i _ => inferInstanceAs
      (Decidable (i < n → ¬ HasRow (s.mem.mt g) i → cfg.callback ((s.mem.mt g).rows i).tid = false))
  | .scanned g _ _ true => inferInstanceAs (Decidable (∀ f ∈ s.persisted g, InPlace (s.mem.mt g) f))
  | .slot _ true _ _ _ | .scanned _ _ _ false | .idle | .immutables | .chosen _ _
  | .referenced _ _ | .persist _ _ _ _ _ | .unlock _ _ | .unref _ _ | .record _ _ | .files
  | .segment _ _ | .marked _ _ _ _ | .request _ _ | .retry _ _ | .returned | .failed =>
      .isTrue trivial

instance (cfg : Config) (s : State) : ∀ a, Decidable (Clear cfg s a)
  | .vacuum => inferInstanceAs (Decidable (s.vac.Clear cfg s))
  | .mem _ | .claim _ _ | .comp _ | .answer _ => .isTrue trivial

/-- VACUUM is called, with nothing on disk. -/
def demoStart (m : Memtable.State Unit) : State where
  mem := m
  disk := []
  comp := fun _ => .idle
  vac := .idle
  growingMemtableId := 0
  vacuumed := []
  marked := []
  writes := []

theorem start_demoStart
    (hm : Reachable (Memtable.Start cfg.mem) (Memtable.step cfg.mem) anyStep m) :
    Start cfg (demoStart m) where
  mem := hm
  nodup := .nil
  files := fun _ hf => absurd hf List.not_mem_nil
  flushed := fun _ hf => absurd hf List.not_mem_nil
  comp := fun _ => rfl
  vac := rfl
  vacuumed := rfl
  growingMemtableId := rfl
  marked := rfl
  writes := rfl

/-- The free slots of the buffer have the pointer 7 everywhere. -/
def demoSlots : SlotIdx → Memtable.MemtableBufferSlot Unit := fun _ =>
  Memtable.zeroSlot Memtable.demoRow

/-- The callback reports the pointer 7. -/
def demoConfig (capacity : ℕ) : Config := ⟨⟨1, capacity⟩, fun tid => tid == 7⟩

/-- Insert 1 has reserved the only slot when insert 2 seals the memtable and replaces it; VACUUM
finds the pointer that was there before, and then insert 1 stores and publishes its row. -/
def demoLateWrite : List Action :=
  .mem (.call 1 ⟨9, ()⟩) :: List.replicate 4 (.mem (.ins 1)) ++
    .mem (.call 2 ⟨10, ()⟩) :: List.replicate 6 (.mem (.ins 2)) ++
    .mem (.alloc 2 1) :: List.replicate 3 (.mem (.ins 2)) ++
    List.replicate 11 .vacuum ++ List.replicate 2 (.mem (.ins 1))

/-- A sealed memtable of three rows and an empty growing one. -/
def demoPages : Memtable.StatusPages Unit :=
  ⟨5, [4, 5], 3, fun sid => if sid = 4 then [⟨8, ()⟩, ⟨7, ()⟩, ⟨9, ()⟩] else []⟩

/-- An earlier call has masked the first row. -/
def demoMasked : List (Memtable.Action Unit) :=
  [.acquire 0, .lockVacuum 0, .mask 0 0, .unlockVacuum 0, .unref 0]

/-- The memtable is flushed, and meanwhile a compaction takes the segment as given by `as`; VACUUM
has waited for the lock, and the bits of the memtable go to the latest version. -/
def demoPersist (as : List Action) : List Action :=
  .mem (.claim 1 0) :: List.replicate 3 (.mem (.flu 1)) ++ List.replicate 9 .vacuum ++
    List.replicate 4 (.mem (.flu 1)) ++ as ++ List.replicate 7 .vacuum

/-- The segment is rebuilt without the masked row. -/
def demoRebuild : List Action := .claim 0 [(4, 4)] :: List.replicate 2 (.comp 0)

/-- The masked slots, their ready flags and their rows. -/
def demoMarks (s : State) : List (ℕ × ℕ × Bool × Tid) :=
  s.marked.map fun p => (p.1.val, p.2, (s.mem.mt p.1).ready p.2, ((s.mem.mt p.1).rows p.2).tid)

/-- The rows of the files written for, with their bits before and after. -/
def demoWrites (s : State) : List (List (Tid × Bool × Bool)) :=
  s.writes.map fun w => w.1.mapping.zipIdx.map fun p => (p.1.tid, w.1.bitmap p.2, w.2 p.2)

theorem reachable_demoBuild {ok : State → Action → Prop} {as : List Action}
    (hb : Memtable.buildLsmIndex cfg.mem demoSlots = some m)
    (hm : Meets ok (step cfg) (demoStart m) as) (hs : exec (step cfg) (demoStart m) as = some s) :
    Reachable (Start cfg) (step cfg) ok s := by
  have hstart : Memtable.Start cfg.mem m := .build (Memtable.unregistered_zeroSlot _) hb
  exact (Reachable.start (start_demoStart (.start hstart))).of_exec hm hs

theorem reachable_demoPages {ok : State → Action → Prop} {m' : Memtable.State Unit}
    {as : List Action} (hr : Memtable.recoverLsmIndex cfg.mem demoPages demoSlots = some m)
    (hm' : exec (Memtable.step cfg.mem) m demoMasked = some m')
    (hm : Meets ok (step cfg) (demoStart m') as) (hs : exec (step cfg) (demoStart m') as = some s) :
    Reachable (Start cfg) (step cfg) ok s := by
  have hstart : Memtable.Start cfg.mem m :=
    .recover (Memtable.unregistered_zeroSlot _) ⟨by decide, by decide⟩ hr
  have hmem := (Reachable.start hstart).of_exec (meets_anyStep _) hm'
  exact (Reachable.start (start_demoStart hmem)).of_exec hm hs

/-- The row of a live tuple is hidden in its memtable, and one in its segment. -/
theorem not_masks_dead :
    (¬ ∀ cfg s, Reachable (Start cfg) (step cfg) anyStep s → MasksDead cfg s) ∧
      ¬ ∀ cfg s, Reachable (Start cfg) (step cfg) anyStep s → WritesDead cfg s := by
  constructor
  · intro hall
    obtain ⟨m, hb, s, hs, hmark, hready, hrow⟩ : ∃ m,
        Memtable.buildLsmIndex (demoConfig 1).mem demoSlots = some m ∧ ∃ s,
          exec (step (demoConfig 1)) (demoStart m) demoLateWrite = some s ∧
          s.marked = [(0, 0)] ∧ (s.mem.mt 0).ready 0 = true ∧ ((s.mem.mt 0).rows 0).tid = 9 :=
      ⟨_, rfl, _, rfl, rfl, rfl, rfl⟩
    have hdead := hall _ s (reachable_demoBuild hb (meets_anyStep _) hs) (0, 0) (by simp [hmark])
      hready
    rw [hrow] at hdead
    cases hdead
  · intro hall
    obtain ⟨m, hr, m', hm', s, hs, w, hw, hmap, hbit, hbefore⟩ : ∃ m,
        Memtable.recoverLsmIndex (demoConfig 3).mem demoPages demoSlots = some m ∧ ∃ m',
          exec (Memtable.step (demoConfig 3).mem) m demoMasked = some m' ∧ ∃ s,
          exec (step (demoConfig 3)) (demoStart m') (demoPersist demoRebuild) = some s ∧ ∃ w,
          s.writes = [w] ∧ w.1.mapping[1]? = some ⟨9, 4, 2⟩ ∧ w.2 1 = true ∧
          w.1.bitmap 1 = false :=
      ⟨_, rfl, _, rfl, _, rfl, _, rfl, rfl, rfl, rfl⟩
    have hrow := hall _ s (reachable_demoPages hr hm' (meets_anyStep _) hs) w (by simp [hw]) 1 _
      hmap hbit
    rw [hbefore] at hrow
    rcases hrow with h | h <;> cases h

/-- Without the rebuild the bits go where the rows are. -/
theorem sound_of_clear_demoPersist : ∃ m m' s,
    Memtable.recoverLsmIndex (demoConfig 3).mem demoPages demoSlots = some m ∧
      exec (Memtable.step (demoConfig 3).mem) m demoMasked = some m' ∧
      exec (step (demoConfig 3)) (demoStart m') (demoPersist []) = some s ∧
      demoMarks s = [(0, 1, true, 7)] ∧
      demoWrites s = [[(8, true, true), (7, false, true), (9, false, false)]] ∧
      Sound (demoConfig 3) s := by
  obtain ⟨m, hr, m', hm', s, hs, hmarks, hwrites, hmeets⟩ : ∃ m,
      Memtable.recoverLsmIndex (demoConfig 3).mem demoPages demoSlots = some m ∧ ∃ m',
        exec (Memtable.step (demoConfig 3).mem) m demoMasked = some m' ∧ ∃ s,
        exec (step (demoConfig 3)) (demoStart m') (demoPersist []) = some s ∧
        demoMarks s = [(0, 1, true, 7)] ∧
        demoWrites s = [[(8, true, true), (7, false, true), (9, false, false)]] ∧
        Meets (Clear (demoConfig 3)) (step (demoConfig 3)) (demoStart m') (demoPersist []) :=
    ⟨_, rfl, _, rfl, _, rfl, rfl, rfl, by decide⟩
  exact ⟨m, m', s, hr, hm', hs, hmarks, hwrites,
    sound_of_clear (demoConfig 3) (reachable_demoPages hr hm' hmeets hs)⟩

end Schedule

end VectorLsm.Tenancy
