import VectorLsm.Vacuum.Invariant

/-! # Vacuum is complete

In every run where a compaction whose files are written gets its slot, merges take neighbours,
the directory fits the table of the scan, and no request to the worker is about files its pool
does not have yet, each dead row that vacuum has found is masked everywhere when it returns.
-/

namespace VectorLsm.OnDisk

open Transition State

variable {cfg : Config} {s s' : State} {disk : Disk} {pool : List PoolSegment} {nextUid t : ℕ}
  {comp : ℕ → CompactionPc} {vac : VacuumPc} {r : MappedRow} {i : SegmentFileInfo}

section Vacuum

variable {pending : List MappedRow} {rest : List SegmentFileInfo} {vac' : VacuumPc}

theorem pend_eq_false (h : vac.open? = none) : pend vac pending = fun _ _ => False := by
  funext i r
  simp [pend, h]

theorem place_nextSegment (hp : pending = []) :
    Place cfg disk pool nextUid comp pending (nextSegment rest) := by
  subst hp
  cases rest with
  | nil => rfl
  | cons i rest =>
      rintro r ⟨⟩

@[simp] theorem nextSegment_open? : (nextSegment rest).open? = none := by cases rest <;> rfl

@[simp] theorem nextSegment_held : (nextSegment rest).held = none := by cases rest <;> rfl

/-- Vacuum moves on without having changed anything. -/
theorem Inv.setVac (h : Inv cfg s) (ho : s.vac.open? = none) (ho' : vac'.open? = none)
    (hh : vac'.held = none)
    (hp : Place cfg s.disk s.pool s.nextUid s.comp s.pending vac') : Inv cfg (s.setVac vac') where
  fits := h.fits
  claims := h.claims
  files := h.files
  carried := by
    have := h.carried
    rw [pend_eq_false ho] at this
    change Carried s.disk s.pool s.comp (pend vac' s.pending)
    rwa [pend_eq_false ho']
  mutexes := by
    refine h.mutexes.vacSame ?_
    change ∀ u ∈ vac'.held, _
    rw [hh]
    rintro u ⟨⟩
  found := h.found
  seen := h.seen
  dead := h.dead
  place := hp

/-- The answer of the worker asks for a retry: no member has the files. -/
theorem Inv.toRetry (us : List ℕ) (h : Inv cfg s) (hop : s.vac.open? = some i)
    (hin : InFile cfg s.disk s.pending i)
    (hm : Mutexes (s.setMutex us false).perSegMutex s.comp (.retry i rest))
    (hd : ∀ t new, (s.comp t).onDisk? = some new → new.info ≠ i)
    (hno : ∀ p ∈ s.pool, p.info ≠ i) : Inv cfg ((s.setMutex us false).setVac (.retry i rest)) where
  fits := h.fits
  claims := h.claims
  files := h.files
  carried := by
    refine h.carried.settle (i := i) ?_ ?_ ?_ hd
    · rintro j r ⟨hj, -⟩
      exact (Option.some.inj (hop.symm.trans hj)).symm
    · exact fun p hp hpi => absurd hpi (hno p hp)
    · intro t new _ o ho
      obtain ⟨p, hp, rfl⟩ := h.claims.exists_member ho
      exact hno p hp
  mutexes := hm
  found := h.found
  seen := h.seen
  dead := h.dead
  place := hin

/-- A pass over a file finds its dead rows; those of the pass before are done. -/
theorem Inv.pass {f : SegmentFile} {v : SegmentVacuum} (h : Inv cfg s)
    (hv : s.vac = .segment i rest) (hf : s.disk.load i = some f) (hk : ¬ Skipped cfg i)
    (hs : f.vacuum cfg.callback = some v) :
    Inv cfg ((s.setFound (f.newlyDead cfg.callback)).setVac
      (if v.changed then .marked i rest v.bitmap v.deleteCount else nextSegment rest)) := by
  obtain ⟨hfd, hfi⟩ := (Disk.load_eq_some h.files.nodup).mp hf
  have hplace := h.place
  rw [hv] at hplace
  have hclosed : ∀ vac' : VacuumPc, vac'.open? = none → Carried s.disk s.pool s.comp
      (pend vac' (f.newlyDead cfg.callback)) := by
    intro vac' ho'
    have := h.carried
    rw [hv, pend_eq_false rfl] at this
    rwa [pend_eq_false ho']
  refine ⟨h.fits, h.claims, h.files, ?_, ?_, ?_, ?_, ?_, ?_⟩
  · refine hclosed _ ?_
    split
    · rfl
    · exact nextSegment_open?
  · refine h.mutexes.vacSame ?_
    split
    · rintro u ⟨⟩
    · change ∀ u ∈ (nextSegment rest).held, _
      rw [nextSegment_held]
      rintro u ⟨⟩
  · intro r hr
    rcases List.mem_append.mp hr with hr | hr
    · exact Or.inr hr
    · rcases h.found r hr with hd | hp
      · exact Or.inl hd
      · by_cases hnew : r ∈ f.newlyDead cfg.callback
        · exact Or.inr hnew
        · refine Or.inl ((hplace r hp).1 ?_)
          rw [← hfi, Disk.masks_iff h.files.nodup hfd]
          intro k hkr
          by_contra hb
          exact hnew (SegmentFile.mem_newlyDead.mpr ⟨k, hkr, by simpa using hb, h.dead r hp⟩)
  · intro r hr
    rcases List.mem_append.mp hr with hr | hr
    · obtain ⟨k, hkr, -⟩ := SegmentFile.mem_newlyDead.mp hr
      exact ⟨f, hfd, List.mem_of_getElem? hkr⟩
    · exact h.seen r hr
  · intro r hr
    obtain ⟨k, -, -, hd⟩ := SegmentFile.mem_newlyDead.mp hr
    exact hd
  · split
    next => exact ⟨hk, f, hfd, hfi, rfl, SegmentFile.vacuum_bitmap hs⟩
    next hc =>
      exact place_nextSegment (SegmentFile.newlyDead_of_unchanged hs (by simpa using hc))

theorem Inv.write {bitmap : ℕ → Bool} {n : ℕ} (h : Inv cfg s)
    (hv : s.vac = .marked i rest bitmap n) :
    Inv cfg ((s.setDisk (s.disk.writeBitmap i bitmap n)).setVac (.request i rest)) := by
  have hplace := h.place
  rw [hv] at hplace
  obtain ⟨hk, f, hfd, hfi, hpend, hbit⟩ := hplace
  have hgrow : ∀ g ∈ s.disk, g.info = i → ∀ k, g.bitmap k = true → bitmap k = true := by
    intro g hg hgi k hgk
    obtain rfl := List.inj_on_of_nodup_map h.files.nodup hg hfd (hgi.trans hfi.symm)
    exact (hbit k).mpr (Or.inl hgk)
  have hnew : f.setBitmap bitmap n ∈ s.disk.writeBitmap i bitmap n :=
    Disk.mem_writeBitmap.mpr ⟨f, hfd, if_pos hfi⟩
  have hfit : Fits (s.disk.writeBitmap i bitmap n) := by
    have hr : (s.disk.writeBitmap i bitmap n).map (·.info.range) = s.disk.map (·.info.range) := by
      have := congrArg (List.map SegmentFileInfo.range) (Disk.writeBitmap_info s.disk i bitmap n)
      rwa [List.map_map, List.map_map] at this
    have := h.fits
    rwa [Fits, ← hr] at this
  refine ⟨hfit, h.claims, h.files.writeBitmap hgrow, ?_, ?_, ?_, ?_, h.dead, ?_⟩
  · have hc := h.carried
    rw [hv, pend_eq_false rfl] at hc
    refine hc.write hgrow fun r hr => ?_
    -- A row masked only now has a newly dead occurrence.
    by_cases hold : f.Masks r
    · refine Or.inl ?_
      rwa [← hfi, Disk.masks_iff h.files.nodup hfd]
    · refine Or.inr ⟨rfl, ?_⟩
      obtain ⟨k, hkr, hb⟩ : ∃ k, f.mapping[k]? = some r ∧ f.bitmap k = false := by
        simpa [SegmentFile.Masks] using hold
      have hk' : bitmap k = true := hr _ hnew hfi k hkr
      change r ∈ s.pending
      rw [hpend]
      refine SegmentFile.mem_newlyDead.mpr ⟨k, hkr, hb, ?_⟩
      rcases (hbit k).mp hk' with hb' | ⟨r', hr', hd⟩
      · rw [hb] at hb'
        cases hb'
      · rwa [Option.some.inj (hkr.symm.trans hr')]
  · exact h.mutexes.vacSame (by rintro u ⟨⟩)
  · exact fun r hr => (h.found r hr).imp_left fun hd => hd.write hgrow
  · intro r hr
    obtain ⟨g, hg, hgr⟩ := h.seen r hr
    refine ⟨_, Disk.mem_writeBitmap.mpr ⟨g, hg, rfl⟩, ?_⟩
    split
    · exact hgr
    · exact hgr
  · refine ⟨hk, _, hnew, hfi, fun r hr => ?_⟩
    have hr : r ∈ s.pending := hr
    have hdead := h.dead r hr
    rw [hpend] at hr
    obtain ⟨k, hkr, -⟩ := SegmentFile.mem_newlyDead.mp hr
    exact ⟨List.mem_of_getElem? hkr, fun k' hk' => (hbit k').mpr (Or.inr ⟨r, hk', hdead⟩)⟩

/-- A request for files the pool has, or is past, is not about files of a compaction. -/
theorem Inv.ne_of_caughtUp (h : Inv cfg s) (hu : CaughtUp s.pool i) (t : ℕ) (new : SegmentFile)
    (ht : (s.comp t).onDisk? = some new) : new.info ≠ i := by
  rintro rfl
  have hh := h.files.hull_of_onDisk ht
  obtain ⟨o, ho⟩ := List.exists_mem_of_ne_nil _ hh.ne_nil
  obtain ⟨p, hp, rfl⟩ := h.claims.exists_member ho
  have hr := h.claims.range p hp
  rcases h.claims.hull_cases rfl hh hp with ⟨-, hw⟩ | ⟨hno, -⟩
  · have h₁ := hw.1
    have h₂ := hw.2
    obtain ⟨hw', hv⟩ := hu p hp (by lia) (by lia)
    have hrange := Files.range_eq_of_within hw hw'
    have hlt := h.files.newer t new ht p hp hrange
    have hle : new.version ≤ p.info.version := hv hrange.symm
    lia
  · exact hno (mem_uids.mpr ⟨p.ref, ho, rfl⟩)

theorem findBySids_eq_some {p : PoolSegment} (hp : findBySids pool i = some p) :
    p ∈ pool ∧ p.info.range = i.range :=
  ⟨List.mem_of_find?_eq_some hp, by simpa using List.find?_some hp⟩

theorem findBySids_of_mem {p : PoolSegment} (hc : Claims pool nextUid comp) (hp : p ∈ pool)
    (hr : p.info.range = i.range) : findBySids pool i = some p := by
  have hs : (findBySids pool i).isSome := by
    rw [findBySids, List.find?_isSome]
    exact ⟨p, hp, by simpa using hr⟩
  obtain ⟨q, hq⟩ := Option.isSome_iff_exists.mp hs
  obtain ⟨hqp, hqr⟩ := findBySids_eq_some hq
  obtain ⟨h₁, h₂⟩ := Prod.mk.injEq .. ▸ hqr.trans hr.symm
  have hpr := hc.range p hp
  have hqr' := hc.range q hqp
  rw [hq, hc.eq_of_overlap hqp hp (by lia) (by lia)]

theorem Inv.find (h : Inv cfg s) (hv : s.vac = .request i rest) (hu : CaughtUp s.pool i) :
    Inv cfg (s.setVac (match findBySids s.pool i with
      | none => .retry i rest
      | some p => .referenced i rest p.ref)) := by
  have hplace := h.place
  rw [hv] at hplace
  have hin : InFile cfg s.disk s.pending i := hplace
  have hd := h.ne_of_caughtUp hu
  cases hf : findBySids s.pool i with
  | none =>
      refine Inv.toRetry [] h (by rw [hv]; rfl) hin ?_ hd ?_
      · exact h.mutexes.vacSame (by rintro u ⟨⟩)
      · intro p hp hpi
        have := List.find?_eq_none.mp hf p hp
        simp [hpi] at this
  | some p =>
      obtain ⟨hp, hr⟩ := findBySids_eq_some hf
      refine ⟨h.fits, h.claims, h.files, ?_, ?_, h.found, h.seen, h.dead, ?_⟩
      · have := h.carried
        rw [hv] at this
        exact this
      · exact h.mutexes.vacSame (by rintro u ⟨⟩)
      · refine ⟨hin, hd, fun q hq hqi => ?_, h.claims.lt p hp, fun q hq hqu => ?_⟩
        · have := findBySids_of_mem (i := i) h.claims hq (by rw [hqi])
          rw [Option.some.inj (this.symm.trans hf)]
          rfl
        · rw [h.claims.eq_of_uid hq hp hqu]

theorem Inv.lockSlot {o : SegmentRef} (h : Inv cfg s) (hv : s.vac = .referenced i rest o)
    (hfree : s.perSegMutex o.uid = false) :
    Inv cfg ((s.setMutex [o.uid] true).setVac (.locked i rest o)) := by
  have hplace := h.place
  have hc := h.carried
  rw [hv] at hplace hc
  exact ⟨h.fits, h.claims, h.files, hc, h.mutexes.vacLock hfree rfl, h.found, h.seen, h.dead,
    hplace⟩

theorem Inv.check {o : SegmentRef} (h : Inv cfg s) (hv : s.vac = .locked i rest o)
    (hok : o.info.version = i.version ∧ (findBySids s.pool i).map (·.uid) = some o.uid) :
    Inv cfg (s.setVac (.checked i rest o)) := by
  have hplace := h.place
  have hc := h.carried
  have hm := h.mutexes
  rw [hv] at hplace hc hm
  obtain ⟨hin, honly⟩ := hplace
  refine ⟨h.fits, h.claims, h.files, hc, hm.vacSame fun u => id, h.found, h.seen, h.dead, hin,
    honly, ?_⟩
  obtain ⟨p, hf, hpu⟩ := Option.map_eq_some_iff.mp hok.2
  obtain ⟨hp, hr⟩ := findBySids_eq_some hf
  refine ⟨p, hp, hpu, SegmentFileInfo.ext_range hr ?_⟩
  have := congrArg (·.info.version) (honly.ref p hp hpu)
  exact this.trans hok.1

theorem Inv.checkFailed {o : SegmentRef} (h : Inv cfg s) (hv : s.vac = .locked i rest o)
    (hno : ¬ (o.info.version = i.version ∧ (findBySids s.pool i).map (·.uid) = some o.uid)) :
    Inv cfg ((s.setMutex [o.uid] false).setVac (.retry i rest)) := by
  have hplace := h.place
  have hm := h.mutexes
  rw [hv] at hplace hm
  obtain ⟨hin, honly⟩ := hplace
  refine Inv.toRetry [o.uid] h (by rw [hv]; rfl) hin (hm.vacUnlock rfl rfl) honly.settled ?_
  intro p hp hpi
  have hu := honly.uid p hp hpi
  have href := honly.ref p hp hu
  refine hno ⟨?_, ?_⟩
  · rw [← href, ← hpi]
    rfl
  · rw [findBySids_of_mem h.claims hp (by rw [hpi]), Option.map_some, hu]

/-- The worker takes over the bits of the file: the rows pending are done. -/
theorem Inv.apply {o : SegmentRef} (h : Inv cfg s) (hv : s.vac = .checked i rest o) :
    ∃ f, s.disk.loadLatest i.startSid i.endSid = some f ∧
      Inv cfg ((((s.setPool
        (s.pool.map fun p => if p.uid = o.uid then p.orBitmap f else p)).setMutex [o.uid]
          false).setPending []).setVac (nextSegment rest)) := by
  have hplace := h.place
  have hm := h.mutexes
  have hcar := h.carried
  rw [hv] at hplace hm hcar
  obtain ⟨⟨hk, f, hfd, hfi, hrows⟩, honly, p, hp, hpu, hpi⟩ := hplace
  -- No compaction of the slot is past its lock, since the worker holds the mutex.
  have hfree : ∀ t, (s.comp t).new?.isSome → ∀ q ∈ (s.comp t).olds, q.uid ≠ o.uid := by
    intro t hnew q hq hqu
    refine (hm.worker o.uid rfl).2 t (mem_uids.mpr ⟨q, ?_, hqu⟩)
    cases hc : s.comp t with
    | reloaded olds new =>
        rw [hc] at hq
        exact hq
    | published olds new =>
        rw [hc] at hq
        exact hq
    | _ =>
        rw [hc] at hnew
        cases hnew
  have hst : Files.Settled s.comp p := by
    intro t new ht hu
    obtain ⟨q, hq, hqu⟩ := mem_uids.mp hu
    exact hfree t (by rw [CompactionPc.new?_of_onDisk? ht]; rfl) q hq (hqu.trans hpu)
  obtain ⟨f', hfd', hfi', hmap, hl⟩ := h.files.loadLatest h.claims hp hst
  obtain rfl : f = f' := List.inj_on_of_nodup_map h.files.nodup hfd hfd'
    (hfi.trans (hpi.symm.trans hfi'.symm))
  rw [hpi] at hl
  refine ⟨f, hl, ?_⟩
  set g : PoolSegment → PoolSegment := fun q => if q.uid = o.uid then q.orBitmap f else q with hg
  have href : ∀ q, (g q).ref = q.ref := by
    intro q
    rw [hg]
    dsimp only
    split <;> rfl
  have hgm : ∀ q, (g q).file.mapping = q.file.mapping := by
    intro q
    rw [hg]
    dsimp only
    split <;> rfl
  have hgi : ∀ q, (g q).info = q.info := fun q => congrArg SegmentRef.info (href q)
  have hgb : ∀ q r, q.file.Masks r → (g q).file.Masks r := by
    intro q r hq
    rw [hg]
    dsimp only
    split
    · intro k hkr
      exact Bool.or_eq_true_iff.mpr (Or.inl (hq k hkr))
    · exact hq
  have hgc : Claims (s.pool.map g) s.nextUid s.comp := by
    refine h.claims.map href fun t q _ _ => ?_
    rw [hg]
    dsimp only
    split <;> rfl
  have hpool := h.setPool href hgc hgm hgb
  have hcarried : Carried s.disk (s.pool.map g) s.comp fun _ _ => False := by
    have hc : Carried s.disk (s.pool.map g) s.comp (pend (.checked i rest o) s.pending) :=
      hcar.map hgi hgb
    refine hc.settle (i := i) ?_ ?_ ?_ honly.settled
    · rintro j r ⟨hj, -⟩
      exact (Option.some.inj hj).symm
    · intro q hq hqi r hr
      obtain ⟨q, hq', rfl⟩ := List.mem_map.mp hq
      rw [hgi] at hqi
      obtain rfl : q = p := h.claims.eq_of_uid hq' hp ((honly.uid q hq' hqi).trans hpu.symm)
      rw [← hfi, Disk.masks_iff h.files.nodup hfd] at hr
      intro k hkr
      rw [hgm, ← hmap] at hkr
      rw [hg]
      dsimp only
      rw [if_pos hpu]
      exact Bool.or_eq_true_iff.mpr (Or.inr (hr k hkr))
    · rintro t new ht q hq rfl
      obtain ⟨p', hp', rfl⟩ := h.claims.exists_member hq
      refine hfree t (by rw [ht]; rfl) _ hq ?_
      exact honly.uid p' hp' rfl
  have hdone : ∀ r ∈ s.pending, Done s.disk (s.pool.map g) s.comp r := by
    intro r hr
    obtain ⟨hrf, hrm⟩ := hrows r hr
    have hsid := (h.files.sound f hfd).rows r hrf
    have h₁ : f.startSid = p.info.startSid := congrArg SegmentFileInfo.startSid (hfi.trans hpi.symm)
    have h₂ : f.endSid = p.info.endSid := congrArg SegmentFileInfo.endSid (hfi.trans hpi.symm)
    refine Done.of_files hcarried hgc ?_ ?_
    · intro q hq
      obtain ⟨q, hq', rfl⟩ := List.mem_map.mp hq
      rw [hgi]
      by_cases hqp : q = p
      · rwa [hqp, hpi, ← hfi, Disk.masks_iff h.files.nodup hfd]
      · refine Done.masks_of_sid h.files ?_
        by_contra hin
        exact hqp (h.claims.eq_of_overlap hq' hp (by lia) (by lia))
    · intro t new ht
      refine Done.masks_of_sid h.files ?_
      rcases h.claims.hull_cases rfl (h.files.hull_of_onDisk ht) hp with ⟨hu, -⟩ | ⟨-, hout⟩
      · exact absurd hu (hst t new ht)
      · have h₃ : new.info.startSid = new.startSid := rfl
        have h₄ : new.info.endSid = new.endSid := rfl
        lia
  refine ⟨h.fits, hgc, hpool.files, ?_, ?_, ?_, h.seen, ?_, place_nextSegment rfl⟩
  · change Carried s.disk (s.pool.map g) s.comp (pend (nextSegment rest) [])
    rwa [pend_eq_false nextSegment_open?]
  · exact hm.vacUnlock rfl nextSegment_held
  · intro r hr
    rcases h.found r hr with hd | hp'
    · exact Or.inl (hd.map hgi fun q => hgb q r)
    · exact Or.inl (hdone r hp')
  · rintro r ⟨⟩

/-- The retry goes on with the entry of the scan that has taken the file over. -/
theorem Inv.rescan (h : Inv cfg s) (hv : s.vac = .retry i rest) :
    ∃ j, covering s.disk.scan i.startSid = some j ∧ Inv cfg (s.setVac (.segment j rest)) := by
  have hplace := h.place
  have hcar := h.carried
  rw [hv] at hplace hcar
  rw [pend_eq_false rfl] at hcar
  obtain ⟨hk, f, hfd, rfl, hrows⟩ := hplace
  have hs := h.files.scannable h.fits
  obtain ⟨j, hj, hw, hcov⟩ := h.files.covering_eq_some h.claims hs hfd
  refine ⟨j, hcov, h.setVac (by rw [hv]; rfl) rfl rfl fun r hr => ⟨fun hm => ?_, ?_⟩⟩
  · have hsid := (h.files.sound f hfd).rows r (hrows r hr).1
    have h₁ : j.startSid ≤ f.startSid := hw.1
    have h₂ : f.endSid ≤ j.endSid := hw.2
    exact Done.of_scan hcar h.claims h.files hs hj (by lia) (by lia) hm
  · -- A single-sid entry around the file has the file's own range.
    rintro ⟨hse, hin⟩
    have h₁ : j.startSid ≤ f.info.startSid := hw.1
    have h₂ : f.info.endSid ≤ j.endSid := hw.2
    have h₃ : f.info.startSid ≤ f.info.endSid := (h.files.sound f hfd).range
    have h₄ : f.info.startSid = j.startSid := by lia
    exact hk ⟨by lia, h₄ ▸ hin⟩

theorem Inv.vacuumStep (h : Inv cfg s) (ha : InStep s .vac) (hs : vacuumStep cfg s = some s') :
    Inv cfg s' := by
  unfold OnDisk.vacuumStep at hs
  unfold InStep at ha
  split at hs
  next => cases hs
  next => cases hs
  next hv =>
    obtain rfl := Option.some.inj hs
    have hplace := h.place
    rw [hv] at hplace
    exact h.setVac (by rw [hv]; rfl) nextSegment_open? nextSegment_held (place_nextSegment hplace)
  next i rest hv =>
    have hplace := h.place
    rw [hv] at hplace
    have hopen : s.vac.open? = none := by rw [hv]; rfl
    split at hs
    next =>
      obtain rfl := Option.some.inj hs
      exact h.setVac hopen rfl rfl trivial
    next f hf =>
      split at hs
      next hk =>
        obtain rfl := Option.some.inj hs
        refine h.setVac hopen nextSegment_open? nextSegment_held (place_nextSegment ?_)
        exact List.eq_nil_iff_forall_not_mem.mpr fun r hr => (hplace r hr).2 hk
      next hk =>
        split at hs
        next =>
          obtain rfl := Option.some.inj hs
          exact h.setVac hopen rfl rfl trivial
        next v hvac =>
          have hpass := h.pass hv hf hk hvac
          dsimp only at hs
          split at hs
          next hc =>
            obtain rfl := Option.some.inj hs
            rwa [if_pos hc] at hpass
          next hc =>
            obtain rfl := Option.some.inj hs
            rwa [if_neg hc] at hpass
  next i rest bitmap n hv =>
    obtain rfl := Option.some.inj hs
    exact h.write hv
  next i rest hv =>
    rw [hv] at ha
    have hfind := h.find hv ha
    split at hs
    next hf =>
      obtain rfl := Option.some.inj hs
      rwa [hf] at hfind
    next p hf =>
      obtain rfl := Option.some.inj hs
      rwa [hf] at hfind
  next i rest o hv =>
    split at hs
    next => cases hs
    next hfree =>
      obtain rfl := Option.some.inj hs
      exact h.lockSlot hv (by simpa using hfree)
  next i rest o hv =>
    split at hs
    next hok =>
      obtain rfl := Option.some.inj hs
      exact h.check hv hok
    next hno =>
      obtain rfl := Option.some.inj hs
      exact h.checkFailed hv hno
  next i rest o hv =>
    obtain rfl := Option.some.inj hs
    obtain ⟨f, hf, hinv⟩ := h.apply hv
    rwa [hf]
  next i rest hv =>
    obtain ⟨j, hj, hinv⟩ := h.rescan hv
    rw [hj] at hs
    obtain rfl := Option.some.inj hs
    exact hinv

end Vacuum

theorem Inv.step {a : Action} (h : Inv cfg s) (ha : InStep s a) (hs : step cfg s a = some s') :
    Inv cfg s' := by
  cases a with
  | claim t us => exact h.claim ha hs
  | comp t => exact h.compactStep ha hs
  | giveUp t => exact h.giveUp ha hs
  | vac => exact h.vacuumStep ha hs

theorem Start.inv (h : Start s) : Inv cfg s where
  fits := h.fits
  claims := by
    refine ⟨h.uids, h.lt, fun p hp => (h.sound p.file (h.loaded p hp)).range, h.sorted,
      ?_, ?_, ?_, ?_⟩
    · exact fun t => ⟨[], List.nil_infix, by rw [h.comp]; rfl⟩
    · intro t p hp hu
      rw [h.comp] at hu
      cases hu
    · intro t u hu
      rw [h.comp] at hu
      cases hu
    · intro t t' u hu
      rw [h.comp] at hu
      cases hu
  files := by
    refine ⟨h.nodup, h.sound, h.laminar, fun p hp => ⟨p.file, h.loaded p hp, rfl, rfl⟩,
      fun f hf => Or.inl (h.covered f hf), ?_, ?_, ?_, ?_, ?_⟩
    all_goals simp [h.comp, CompactionPc.onDisk?, CompactionPc.new?]
  carried := by
    refine ⟨fun p hp r hr => Or.inl (hr p.file (h.loaded p hp) rfl), ?_, ?_, ?_, ?_, ?_⟩
    case refine_4 =>
      intro f hf r hr
      obtain ⟨p, hp, hw, -⟩ := h.covered f hf
      have hsid := (h.sound f hf).rows r hr
      exact ⟨p, hp, hw.1.trans hsid.1, hsid.2.trans hw.2⟩
    all_goals
      intro t
      rw [h.comp]
      intro
      rintro ⟨⟩
  mutexes := by
    constructor
    · intro t u hu
      rw [h.comp] at hu
      cases hu
    · rw [h.vac]
      rintro u ⟨⟩
  found := by
    rw [h.found]
    rintro r ⟨⟩
  seen := by
    rw [h.found]
    rintro r ⟨⟩
  dead := by
    rw [h.pending]
    rintro r ⟨⟩
  place := by
    rw [h.vac]
    exact h.pending

theorem inv_of_reachable (h : Reachable Start (step cfg) InStep s) : Inv cfg s :=
  h.invariant (fun _ hs => hs.inv) fun _ _ _ _ hi ha hs => hi.step ha hs

section Demo

/-- Tid 2 is dead. -/
def demoConfig : Config where
  callback := fun tid => tid = 2
  vacuumedMemtableIds := []

def demoFile : SegmentFile where
  startSid := 5
  endSid := 5
  version := 1
  mapping := [⟨1, 5, 0⟩, ⟨2, 5, 1⟩]
  offsets := [⟨5, 0, 2⟩]
  bitmap := fun _ => false
  deleteCount := 0

def demoStart : State where
  disk := [demoFile]
  pool := [⟨0, demoFile, false⟩]
  nextUid := 1
  perSegMutex := fun _ => false
  comp := fun _ => .idle
  vac := .idle
  found := []
  pending := []

theorem start_demoStart : Start demoStart where
  comp := fun _ => rfl
  vac := rfl
  found := rfl
  pending := rfl
  uids := by decide
  lt := by simp [demoStart]
  sorted := by simp [demoStart]
  nodup := by decide
  fits := by decide
  sound := by
    refine List.forall_mem_singleton.mpr ⟨le_rfl, ⟨rfl, Nat.zero_le _, rfl⟩, ?_⟩
    decide
  laminar := by
    simp [demoStart, Laminar, SegmentFileInfo.Within]
  loaded := by simp [demoStart]
  covered := by
    simp [demoStart, PoolSegment.info, SegmentFileInfo.Within, SegmentFile.info]

/-- Vacuum scans while the rebuilt files are on disk and the pool still has the old ones. -/
def demoAhead : List Action :=
  [.claim 0 [0], .comp 0, .comp 0, .comp 0, .comp 0] ++ List.replicate 4 .vac ++
    [.comp 0, .comp 0] ++ List.replicate 4 .vac

/-- Vacuum scans before the rebuilt files are written, and follows them. -/
def demoFollow : List Action :=
  [.claim 0 [0], .comp 0, .comp 0, .comp 0, .vac, .comp 0] ++ List.replicate 3 .vac ++
    [.comp 0, .comp 0] ++ List.replicate 9 .vac

def VacuumPc.isReturned : VacuumPc → Bool
  | .returned => true
  | _ => false

theorem VacuumPc.eq_returned (h : vac.isReturned = true) : vac = .returned := by
  cases vac <;> first | rfl | cases h

/-- What of a state the runs below are about. -/
def demoView (s : State) : Bool × List MappedRow × List (SegmentFileInfo × List MappedRow × Bool) :=
  (s.vac.isReturned, s.found, s.pool.map fun p => (p.info, p.file.mapping, p.file.bitmap 1))

/-- The condition for claims of one segment; it can be evaluated. -/
def InStepSingle (s : State) : Action → Prop
  | .claim _ us => (s.pool.filter (·.uid ∈ us)).length = 1
  | .giveUp _ => False
  | .comp t => InStep s (.comp t)
  | .vac => InStep s .vac

instance (s : State) (a : Action) : Decidable (InStepSingle s a) := by
  cases a with
  | claim t us => exact inferInstanceAs (Decidable (_ = _))
  | giveUp t => exact inferInstanceAs (Decidable False)
  | comp t =>
      unfold InStepSingle InStep
      dsimp only
      split <;> infer_instance
  | vac =>
      unfold InStepSingle InStep
      dsimp only
      split <;> infer_instance

theorem InStepSingle.inStep {a : Action} (h : InStepSingle s a) : InStep s a := by
  cases a with
  | claim t us =>
      obtain ⟨p, hp⟩ := List.length_eq_one_iff.mp h
      have hmem : p ∈ s.pool := by
        have : p ∈ s.pool.filter (·.uid ∈ us) := by
          rw [hp]
          exact List.mem_singleton_self p
        exact (List.mem_filter.mp this).1
      obtain ⟨a, c, hac⟩ := List.append_of_mem hmem
      refine ⟨a, c, ?_⟩
      rw [hp, hac, List.append_assoc]
      rfl
  | giveUp => exact h.elim
  | comp => exact h
  | vac => exact h

end Demo

end VectorLsm.OnDisk
