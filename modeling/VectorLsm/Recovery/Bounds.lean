import VectorLsm.Recovery.Queue

/-! # Every recovery

The files, the log and the standby keep the bounds as well, so each recovery of a paced run
stays in its arrays.
-/

namespace VectorLsm.Recovery

open Transition Log

variable {s s' : State} {n : ℕ} {r : Record} {st : StatusPages} {lo hi : SegmentId}

section Rest

theorem BoundInv.addInner (h : BoundInv s) (hlo : startSegmentId ≤ lo) (hle : lo ≤ hi)
    (hlam : ∀ e ∈ s.dir, Laminar e (s.newVersion lo hi)) (hfits : Fits s lo hi)
    (hhi : hi ≤ maxEnd s.dir) : BoundInv (s.writeFile lo hi) where
  core := h.core.addInner hlo hle hlam hfits (Or.inl hhi)
  slots := fun l hl => (h.slots l hl).addInner hhi

/-- The initial segment, with or without an index. -/
theorem BoundInv.writeInitial (h : BoundInv s) (hf : FreshInv s)
    (hfits : Fits s startSegmentId startSegmentId) :
    BoundInv (s.writeFile startSegmentId startSegmentId) := by
  have hlam : ∀ e ∈ s.dir, Laminar e (s.newVersion startSegmentId startSegmentId) := by
    intro e he
    have h₁ := h.core.starts e he
    have h₂ := h.core.scannable.nonempty e he
    unfold Laminar SegmentFileInfo.Within State.newVersion
    dsimp only
    lia
  by_cases hdir : s.dir = []
  · have hw : s.wal = [] := by
      by_contra hw
      exact h.core.built hw hdir
    refine ⟨h.core.addInner le_rfl le_rfl hlam hfits (Or.inr hw), ?_⟩
    rcases hf.slots with ⟨hn, -⟩ | ⟨l, -, ha⟩
    · intro l hl
      exact absurd hl (hn ▸ List.not_mem_nil)
    · obtain ⟨st, hst, -⟩ := ha.status
      exact absurd hdir (h.core.dir_ne_nil hst)
  · exact h.addInner le_rfl le_rfl hlam hfits (startSegmentId_le_maxEnd h.core hdir)

theorem range_of_mem_files {i : SegmentFileInfo} (h : i ∈ s.files) :
    ∃ e ∈ s.dir, e.startSid = i.startSid ∧ e.endSid = i.endSid := by
  obtain ⟨e, he, hr⟩ := List.mem_map.mp (range_mem_of_mem_scan h)
  exact ⟨e, he, Prod.mk.inj hr⟩

theorem BoundInv.rebuild {i : SegmentFileInfo} (h : BoundInv s) (hi : i ∈ s.files) :
    BoundInv (s.writeFile i.startSid i.endSid) := by
  obtain ⟨e, he, h₁, h₂⟩ := range_of_mem_files hi
  rw [← h₁, ← h₂]
  refine h.addInner (h.core.starts e he) (h.core.scannable.nonempty e he) ?_ ?_
    (endSid_le_maxEnd he)
  · exact fun e' he' => h.core.scannable.laminar e' he' e he
  · refine le_trans (List.subperm_of_subset (List.nodup_dedup _) ?_).length_le h.core.scannable.fits
    intro r hr
    rw [List.mem_dedup] at hr ⊢
    obtain ⟨e', he', rfl⟩ := List.mem_map.mp hr
    rcases List.mem_append.mp he' with he' | he'
    · exact List.mem_map_of_mem he'
    · rw [List.mem_singleton.mp he']
      exact List.mem_map.mpr ⟨e, he, rfl⟩

theorem BoundInv.merge {j : ℕ} {a b : SegmentFileInfo} (h : BoundInv s) (ha : s.files[j]? = some a)
    (hb : s.files[j + 1]? = some b) (hfits : Fits s a.startSid b.endSid) :
    BoundInv (s.writeFile a.startSid b.endSid) := by
  obtain ⟨e, he, h₁, h₁'⟩ := range_of_mem_files (List.mem_of_getElem? ha)
  obtain ⟨e', he', h₂, h₂'⟩ := range_of_mem_files (List.mem_of_getElem? hb)
  have hab : a.endSid < b.startSid := by
    obtain ⟨hj, rfl⟩ := List.getElem?_eq_some_iff.mp ha
    obtain ⟨hj', rfl⟩ := List.getElem?_eq_some_iff.mp hb
    exact List.pairwise_iff_getElem.mp h.core.scannable.scan_pairwise j (j + 1) hj hj'
      (Nat.lt_succ_self j)
  have hne := h.core.scannable.nonempty e he
  have hne' := h.core.scannable.nonempty e' he'
  refine h.addInner (h₁ ▸ h.core.starts e he) (by lia) ?_ hfits (h₂' ▸ endSid_le_maxEnd he')
  exact fun x hx => laminar_merge h.core.scannable ha hb hx rfl

theorem CoreInv.announce {i : SegmentFileInfo} (h : CoreInv s) (hi : i ∈ s.dir) :
    CoreInv (s.log (.segment i)) := by
  have hst : (s.log (.segment i)).status = s.status := status_log
  refine h.logRecord ?_ ?_ (by rintro j ⟨⟩; exact hi) (by rintro x ⟨⟩) (List.ne_nil_of_mem hi)
  · exact fun st h' => h.bounded (hst ▸ h')
  · intro x hx
    right
    rwa [State.statusMemtables, hst]

theorem BoundInv.announce {i : SegmentFileInfo} (h : BoundInv s) (hi : i ∈ s.dir) :
    BoundInv (s.log (.segment i)) where
  core := h.core.announce hi
  slots := fun l hl => (h.slots l hl).of_eq rfl (by
    have hst : (s.log (.segment i)).status = s.status := status_log
    rw [State.statusMemtables, hst]
    rfl)

theorem bounded_init : Bounded startSegmentId StatusPages.init where
  nonempty := by decide
  nodup := by decide
  flushed := by decide
  sealed := by decide

theorem BoundInv.build (h : BoundInv s) (hf : FreshInv s) (hok : Paced s .build) :
    BoundInv s.build := by
  obtain ⟨⟨hn, hends⟩, hfits⟩ := hok
  have hun : s.Unused [] (startSegmentId + 1) := by
    refine ⟨by simp, by simp [hn], ?_⟩
    rintro i hi ⟨-, hle⟩
    exact absurd hle (not_le.mpr (Nat.lt_succ_of_le (hends i hi)))
  set v := s.newVersion startSegmentId startSegmentId with hv
  set u := s.writeFile startSegmentId startSegmentId with hu
  have hvm : v ∈ u.dir := List.mem_append_right _ (List.mem_singleton_self v)
  have hmax : maxEnd u.dir = startSegmentId := by
    rw [hu, State.writeFile, maxEnd_append]
    exact max_eq_right (maxEnd_le hends)
  have hann := (h.writeInitial hf hfits).announce hvm
  -- The new relation has new status pages.
  set w := s.wal ++ [.segment v] with hw
  have hst : StatusPages.ofLog (w ++ [.indexCreate]) = some .init := ofLog_concat _ _
  have hrec : Recent startSegmentId [startSegmentId + 1] (w ++ [.indexCreate]) := by
    intro st h'
    cases (Option.mem_unique h' hst)
    exact ⟨bounded_init, fun sid hsid => Or.inr hsid⟩
  have hdisk : ∀ i ∈ announced (w ++ [.indexCreate]), i ∈ u.dir := by
    intro i hi
    exact hann.core.onDisk i ((mem_announced_concat.mp hi).resolve_right (by rintro ⟨⟩))
  have hinv : LogInv (w ++ [.indexCreate]) := {
    nonempty := fun st h' => (hrec st h').1.nonempty
    flushed := by
      intro st h' i hi
      refine le_trans (filter_length_mono fun x _ hx => ?_) (hrec st h').1.flushed
      have := endSid_le_maxEnd (hdisk i hi)
      rw [hmax] at this
      simp only [decide_eq_true_eq] at hx ⊢
      exact hx.trans this
    newest := by
      intro wal' sid heq
      cases (List.append_inj' heq rfl).2 }
  have hstandby : StandbyInv ((u.log (.segment v)).log .indexCreate) :=
    hann.core.standby.log hann.core.durable
  set t : State := { u with
    wal := w ++ [.indexCreate]
    durable := (w ++ [Record.indexCreate]).length
    slots := [⟨.slot (startSegmentId + 1), [], .idle, [], [], startSegmentId + 2⟩] } with ht
  have hb : s.build = t := by
    unfold State.build
    simp only [allocSegmentId_of_unused hun]
    rw [hn, List.append_cons]
    rfl
  have hlen : s.durable ≤ t.durable :=
    hann.core.durable.trans (by simp [State.log, hw, State.writeFile, ht])
  have hmem : t.statusMemtables = [startSegmentId + 1] := by
    have hst' : StatusPages.init ∈ t.status := hst
    exact statusMemtables_of_status hst'
  rw [hb]
  refine ⟨?_, ?_⟩
  · exact {
      scannable := hann.core.scannable
      starts := hann.core.starts
      onDisk := hdisk
      built := fun _ => List.ne_nil_of_mem hvm
      durable := le_rfl
      log := hann.core.log.concat hinv
      recent := by
        refine Cuts.of_length ?_
        rw [hmem]
        exact hmax.symm ▸ hrec
      standby := ⟨hstandby.replayed.trans hlen, hstandby.fetched, hstandby.sealed⟩
      recoveries := h.core.recoveries }
  · intro l hl
    obtain rfl := List.mem_singleton.mp hl
    exact {
      sorted := by simp [LSMIndex.live, Growing.sids]
      length := Nat.zero_le _
      queue := by rintro sid ⟨⟩
      growing := by
        intro sid hsid
        rw [List.mem_singleton.mp hsid]
        exact hmax.trans_lt (Nat.lt_succ_self _)
      flushed := by rintro sid ⟨⟩
      unflushed := by
        intro sid hsid _
        rwa [hmem] at hsid
      unregistered := by rintro cur pc ⟨⟩ }

theorem BoundInv.crash (h : BoundInv s) (hlo : s.durable ≤ n) (hn : n ≤ s.wal.length) :
    BoundInv { s with wal := s.wal.take n, durable := n, slots := [] } where
  core := by
    have hlen : (s.wal.take n).length = n := by rw [List.length_take, min_eq_left hn]
    have htake : (s.wal.take n).take s.replayed = s.wal.take s.replayed := by
      rw [List.take_take, min_eq_left (h.core.standby.replayed.trans hlo)]
    exact {
      scannable := h.core.scannable
      starts := h.core.starts
      onDisk := fun i hi => h.core.onDisk i (mem_announced_of_take hi)
      built := by
        intro hw
        apply h.core.built
        rintro hw'
        exact hw (by simp [hw'])
      durable := hlen.ge
      log := h.core.log.take n
      recent := by
        have hrec : Recent (maxEnd s.dir) (((StatusPages.ofLog (s.wal.take n)).map
            (·.memtables)).getD []) (s.wal.take n) := by
          intro st hst
          refine ⟨(h.core.recent n hlo hn st hst).1, fun sid hsid => Or.inr ?_⟩
          rw [Option.mem_def.mp hst]
          exact hsid
        have := Cuts.of_length hrec
        rwa [hlen] at this
      standby := by
        refine ⟨h.core.standby.replayed.trans hlo, ?_, ?_⟩
        · intro i hi
          have := h.core.standby.fetched i hi
          rwa [← htake] at this
        · have := h.core.standby.sealed
          unfold State.statusAt at *
          rwa [← htake] at this
      recoveries := h.core.recoveries }
  slots := by rintro l ⟨⟩

/-- The pages and files that a recovery of the primary finds. -/
theorem CoreInv.inBounds (h : CoreInv s) (hst : st ∈ s.status) : InBounds st s.files := by
  have hb := h.bounded hst
  exact {
    hasSids := hb.nonempty
    hasFiles := scan_ne_nil h.scannable (h.dir_ne_nil hst)
    sealed := fun f hf => endSid_last h.scannable hf ▸ hb.sealed
    flushed := fun f hf => endSid_last h.scannable hf ▸ hb.flushed }

theorem BoundInv.recover (h : BoundInv s) (hf : FreshInv s) (hst : st ∈ s.status) :
    BoundInv (s.recover st) where
  core := by
    refine ⟨h.core.scannable, h.core.starts, h.core.onDisk, h.core.built, h.core.durable,
      h.core.log, h.core.recent,
      ⟨h.core.standby.replayed, h.core.standby.fetched, h.core.standby.sealed⟩, ?_⟩
    intro r hr
    rcases List.mem_cons.mp hr with rfl | hr
    · exact h.core.inBounds hst
    · exact h.core.recoveries r hr
  slots := by
    intro l hl
    obtain ⟨f, hfl, top, htop, hle, rfl⟩ := recover_spec (Option.mem_toList.mp hl)
    have hend := endSid_last h.core.scannable hfl
    have hb := h.core.bounded hst
    have hord := hf.ordered.self (Nat.zero_le _) st hst
    have hmem : (s.recover st).statusMemtables = st.memtables := statusMemtables_of_status hst
    have hlt : (ascending st).Pairwise (· < ·) :=
      (ascending_pairwise.and ((ascending_perm.nodup_iff).mpr hb.nodup)).imp
        fun ⟨hle, hne⟩ => lt_of_le_of_ne hle hne
    have hsids : ∀ x, x ∈ (rebuilt st f.endSid top).growing.sids ↔
        x = st.maxMemtableSid ∧ f.endSid < x ∧ x ∈ st.memtables := by
      intro x
      unfold rebuilt
      dsimp only
      split
      next hg =>
        rw [Growing.sids, List.mem_singleton]
        constructor
        · rintro rfl
          exact ⟨rfl, hg⟩
        · exact fun hx => hx.1
      next hg =>
        constructor
        · rintro ⟨⟩
        · rintro ⟨rfl, hx⟩
          exact absurd hx hg
    have hqueue : ∀ x, x ∈ (rebuilt st f.endSid top).memtables ↔
        x ∈ st.memtables ∧ Sealed f.endSid st.maxMemtableSid x := by
      intro x
      unfold rebuilt
      dsimp only
      rw [List.mem_filter, ascending_perm.mem_iff, decide_eq_true_eq]
    exact {
      sorted := by
        refine List.pairwise_append.mpr ⟨hlt.sublist List.filter_sublist, ?_, ?_⟩
        · unfold rebuilt
          dsimp only
          split
          · exact List.pairwise_singleton _ _
          · exact List.Pairwise.nil
        · intro x hx y hy
          obtain ⟨hx, -, hne⟩ := (hqueue x).mp hx
          obtain ⟨rfl, -⟩ := (hsids y).mp hy
          exact lt_of_le_of_ne (hord.le x hx) hne
      length := by
        have := hb.sealed
        rw [← hend, ← (ascending_perm.filter _).length_eq] at this
        exact this
      queue := by
        intro x hx
        have := ((hqueue x).mp hx).2.1
        rwa [hend] at this
      growing := by
        intro x hx
        have := ((hsids x).mp hx).2.1
        rwa [hend] at this
      flushed := by
        intro x hx
        rcases List.mem_append.mp hx with hx | hx
        · have := of_decide_eq_true (List.mem_filter.mp hx).2
          rwa [hend] at this
        · cases hx
      unflushed := by
        intro x hx hlt'
        rw [hmem] at hx
        have hlt' : f.endSid < x := hend ▸ hlt'
        by_cases hg : x = st.maxMemtableSid
        · exact List.mem_append_right _ ((hsids x).mpr ⟨hg, hlt', hx⟩)
        · exact List.mem_append_left _ ((hqueue x).mpr ⟨hx, hlt', hg⟩)
      unregistered := by
        intro cur pc hg
        unfold rebuilt at hg
        dsimp only at hg
        split at hg <;> cases hg }

theorem statusAt_succ (h : s.wal[n]? = some r) :
    s.statusAt (n + 1) = StatusPages.redo (s.statusAt n) r := by
  obtain ⟨hn, rfl⟩ := List.getElem?_eq_some_iff.mp h
  rw [State.statusAt, List.take_succ_eq_append_getElem hn, ofLog_concat]
  rfl

/-- The standby redoes one more record. -/
theorem StandbyInv.redo (h : CoreInv s) (hlt : s.replayed < s.durable) (hok : Paced s .redo) :
    StandbyInv { s with replayed := s.replayed + 1 } := by
  obtain ⟨hrep, hfet, hseal⟩ := h.standby
  have hlen : s.replayed < s.wal.length := hlt.trans_le h.durable
  set r := s.wal[s.replayed] with hr
  have hget : s.wal[s.replayed]? = some r := List.getElem?_eq_getElem hlen
  refine ⟨hlt, ?_, ?_⟩
  · intro i hi
    dsimp only
    rw [List.take_succ_eq_append_getElem hlen, announced_append]
    exact List.mem_append_left _ (hfet i hi)
  intro st' hst'
  have hst' : st' ∈ StatusPages.redo (s.statusAt s.replayed) r := by
    rw [← statusAt_succ hget]
    exact hst'
  dsimp only
  cases hc : r with
  | indexCreate =>
      rw [hc] at hst'
      cases hst'
      simp [StatusPages.init]
  | updateMaxSid sid =>
      rw [hc] at hst' hget
      obtain ⟨st, hst, rfl⟩ := Option.map_eq_some_iff.mp hst'
      refine le_trans (filter_length_mono fun x _ hx => ?_) (hok _ hget rfl st hst)
      exact decide_eq_true (of_decide_eq_true hx).1
  | registerMemtable sid =>
      rw [hc] at hst' hget
      obtain ⟨st, hst, rfl⟩ := Option.map_eq_some_iff.mp hst'
      have hmax : st.maxMemtableSid = sid := by
        refine (h.log (s.replayed + 1) (Nat.zero_le _) hlen).newest (s.wal.take s.replayed) sid ?_
          st hst
        rw [List.take_succ_eq_append_getElem hlen, ← hr, hc]
      dsimp only
      rw [List.filter_append, List.filter_cons_of_neg (by simp [hmax]), List.filter_nil,
        List.append_nil]
      exact hseal st hst
  | releaseMemtable sid =>
      rw [hc] at hst'
      obtain ⟨st, hst, rfl⟩ := Option.map_eq_some_iff.mp hst'
      exact (List.erase_sublist.filter _).length_le.trans (hseal st hst)
  | segment i =>
      rw [hc] at hst'
      exact hseal st' hst'

theorem StandbyInv.fetch {i : SegmentFileInfo} (h : StandbyInv s)
    (hi : i ∈ announced (s.wal.take s.replayed)) :
    StandbyInv { s with fetched := s.fetched ++ [i] } where
  replayed := h.replayed
  fetched := by
    intro j hj
    rcases List.mem_append.mp hj with hj | hj
    · exact h.fetched j hj
    · rw [List.mem_singleton.mp hj]
      exact hi
  sealed := by
    intro st hst
    refine le_trans (filter_length_mono fun x _ hx => ?_) (h.sealed st hst)
    obtain ⟨hends, hne⟩ := of_decide_eq_true hx
    exact decide_eq_true ⟨fun j hj => hends j (List.mem_append_left _ hj), hne⟩

/-- The pages and files that a recovery on the standby finds. -/
theorem CoreInv.inBounds_standby (h : CoreInv s) (hne : s.fetched ≠ [])
    (hst : st ∈ s.statusAt s.replayed) : InBounds st (scanSegmentMetadataFiles s.fetched) := by
  have hlen : s.replayed ≤ s.wal.length := h.standby.replayed.trans h.durable
  have hlog := h.log s.replayed (Nat.zero_le _) hlen
  have hscan : Scannable s.fetched := scannable_of_subset h.scannable fun i hi =>
    h.onDisk i (mem_announced_of_take (h.standby.fetched i hi))
  refine ⟨hlog.nonempty st hst, scan_ne_nil hscan hne, ?_, ?_⟩
  · intro f hf
    refine le_trans (filter_length_mono fun x _ hx => ?_) (h.standby.sealed st hst)
    obtain ⟨hlt, hmax⟩ := of_decide_eq_true hx
    rw [endSid_last hscan hf] at hlt
    exact decide_eq_true ⟨fun i hi => (endSid_le_maxEnd hi).trans_lt hlt, hmax⟩
  · intro f hf
    obtain ⟨e, he, hend⟩ := exists_maxEnd hne
    rw [endSid_last hscan hf, ← hend]
    exact hlog.flushed st hst e (h.standby.fetched e he)

end Rest

theorem BoundInv.step {a : Action} (h : BoundInv s) (hf : FreshInv s) (hok : Paced s a)
    (hs : step s a = some s') : BoundInv s' := by
  cases a with
  | build =>
      cases hs
      exact h.build hf hok
  | buildAborted =>
      cases hs
      exact h.writeInitial hf hok
  | rotate k =>
      obtain ⟨l, hk, hr⟩ := Option.bind_eq_some_iff.mp hs
      have hpace := hok l hk
      obtain ⟨rfl, hl, ha⟩ := hf.single hk
      exact h.rotate ha hl hpace hr
  | flush k =>
      obtain ⟨l, hk, hr⟩ := Option.bind_eq_some_iff.mp hs
      have hpace := hok l hk
      obtain ⟨rfl, hl, ha⟩ := hf.single hk
      exact h.flush ha hl hpace hr
  | release k =>
      obtain ⟨l, hk, hr⟩ := Option.bind_eq_some_iff.mp hs
      have hpace := hok l hk
      obtain ⟨rfl, hl, ha⟩ := hf.single hk
      exact h.release ha hl hpace hr
  | rebuild j =>
      obtain ⟨i, hi, rfl⟩ := Option.map_eq_some_iff.mp hs
      exact h.rebuild (List.mem_of_getElem? hi)
  | merge j =>
      obtain ⟨a, ha, hs⟩ := Option.bind_eq_some_iff.mp hs
      obtain ⟨b, hb, rfl⟩ := Option.map_eq_some_iff.mp hs
      exact h.merge ha hb (hok a ha b hb)
  | announce i =>
      simp only [Recovery.step] at hs
      split at hs <;> cases hs
      exact h.announce ‹_›
  | flushWal n =>
      simp only [Recovery.step] at hs
      split at hs <;> cases hs
      next hn =>
        refine ⟨?_, fun l hl => (h.slots l hl).of_eq rfl rfl⟩
        exact ⟨h.core.scannable, h.core.starts, h.core.onDisk, h.core.built, hn.2, h.core.log,
          h.core.recent.mono hn.1,
          ⟨h.core.standby.replayed.trans hn.1, h.core.standby.fetched, h.core.standby.sealed⟩,
          h.core.recoveries⟩
  | crash n =>
      simp only [Recovery.step] at hs
      split at hs <;> cases hs
      next hn => exact h.crash hn.1 hn.2
  | recover =>
      simp only [Recovery.step] at hs
      split at hs
      next hn =>
        obtain ⟨st, hst, rfl⟩ := Option.map_eq_some_iff.mp hs
        exact h.recover hf hst
      next => cases hs
  | redo =>
      simp only [Recovery.step] at hs
      split at hs <;> cases hs
      next hlt =>
        refine ⟨?_, fun l hl => (h.slots l hl).of_eq rfl rfl⟩
        exact ⟨h.core.scannable, h.core.starts, h.core.onDisk, h.core.built, h.core.durable,
          h.core.log, h.core.recent, .redo h.core hlt hok, h.core.recoveries⟩
  | fetch i =>
      simp only [Recovery.step] at hs
      split at hs <;> cases hs
      next hi =>
        refine ⟨?_, fun l hl => (h.slots l hl).of_eq rfl rfl⟩
        exact ⟨h.core.scannable, h.core.starts, h.core.onDisk, h.core.built, h.core.durable,
          h.core.log, h.core.recent, h.core.standby.fetch hi, h.core.recoveries⟩
  | recoverStandby =>
      obtain ⟨st, hst, rfl⟩ := Option.map_eq_some_iff.mp hs
      refine ⟨?_, fun l hl => (h.slots l hl).of_eq rfl rfl⟩
      refine ⟨h.core.scannable, h.core.starts, h.core.onDisk, h.core.built, h.core.durable,
        h.core.log, h.core.recent,
        ⟨h.core.standby.replayed, h.core.standby.fetched, h.core.standby.sealed⟩, ?_⟩
      intro r hr
      rcases List.mem_cons.mp hr with rfl | hr
      · exact h.core.inBounds_standby hok hst
      · exact h.core.recoveries r hr

theorem Init.boundInv (h : Init s) : BoundInv s := by
  subst h
  have hlog : LogInv [] := {
    nonempty := by rintro st ⟨⟩
    flushed := by rintro st ⟨⟩
    newest := by
      intro wal' sid hw
      simp at hw }
  refine ⟨?_, by rintro l ⟨⟩⟩
  exact {
    scannable := ⟨by rintro e ⟨⟩, by rintro e ⟨⟩, Nat.zero_le _⟩
    starts := by rintro i ⟨⟩
    onDisk := by rintro i ⟨⟩
    built := fun hw => absurd rfl hw
    durable := le_rfl
    log := Cuts.nil hlog
    recent := Cuts.nil (by rintro st ⟨⟩)
    standby := ⟨le_rfl, by rintro i ⟨⟩, by rintro st ⟨⟩⟩
    recoveries := by rintro r ⟨⟩ }

/-- In a paced run every recovery stays in its arrays, and so succeeds. -/
theorem recovery_in_bounds (h : Reachable Init step Paced s) : ∀ r ∈ s.recoveries,
    InBounds r.1 r.2 ∧ (recoverLsmIndexInternal r.1 r.2).isSome := by
  have hinv : FreshInv s ∧ BoundInv s := h.invariant (P := fun s => FreshInv s ∧ BoundInv s)
    (fun _ h => ⟨h.freshInv, h.boundInv⟩)
    fun _ _ _ _ h hok hs => ⟨h.1.step hok.kept hs, h.2.step h.1 hok hs⟩
  intro r hr
  exact ⟨hinv.2.core.recoveries r hr, recover_isSome_iff.mpr (hinv.2.core.recoveries r hr)⟩

instance (s : State) (a : Action) : Decidable (Paced s a) := by
  match a with
  | .build | .buildAborted | .rotate _ | .flush _ | .release _ | .rebuild _ | .merge _
  | .announce _ | .flushWal _ | .crash _ | .recover | .redo | .fetch _ | .recoverStandby =>
      unfold Paced
      infer_instance

/-- The pages and the file ends of each recovery. -/
def found (s : State) : List (List SegmentId × List SegmentId) :=
  s.recoveries.map fun r => (r.1.memtables, r.2.map (·.endSid))

/-- A standby restarts after the initial segment has come, the primary crashes while a flushed
memtable is not released. -/
theorem recovery_in_bounds_crashed : ∃ s : State, found s = [([4, 5], [3, 4]), ([4], [3])] ∧
    ∀ r ∈ s.recoveries, InBounds r.1 r.2 ∧ (recoverLsmIndexInternal r.1 r.2).isSome := by
  have hm : Meets Paced step initial ([.build, .redo, .redo, .fetch ⟨3, 3, 1⟩, .recoverStandby] ++
      rotation ++ [.flush 0, .flushWal 4, .flush 0, .flush 0, .release 0, .release 0, .crash 4,
        .recover]) := by
    decide +kernel
  have hs : (exec step initial ([.build, .redo, .redo, .fetch ⟨3, 3, 1⟩, .recoverStandby] ++
      rotation ++ [.flush 0, .flushWal 4, .flush 0, .flush 0, .release 0, .release 0, .crash 4,
        .recover])).map found = some [([4, 5], [3, 4]), ([4], [3])] := by
    decide +kernel
  obtain ⟨s, he, hv⟩ := Option.map_eq_some_iff.mp hs
  have h₀ : Reachable Init step Paced initial := .start rfl
  exact ⟨s, hv, recovery_in_bounds (h₀.of_exec hm he)⟩

/-- The primary crashes while a rotation waits for room in the queue: the status pages list five
sealed memtables. -/
theorem not_recovery_in_bounds : ¬ ∀ s, Reachable Init step anyStep s →
    ∀ r ∈ s.recoveries, InBounds r.1 r.2 ∧ (recoverLsmIndexInternal r.1 r.2).isSome := by
  intro h
  have hs : (exec step initial ([.build] ++ rotation ++ rotation ++ rotation ++ rotation ++
      List.replicate 4 (.rotate 0) ++ [.crash 12, .recover])).map (fun s =>
        s.recoveries.map fun r => (recoverLsmIndexInternal r.1 r.2).isSome) = some [false] := by
    decide +kernel
  obtain ⟨s, he, hv⟩ := Option.map_eq_some_iff.mp hs
  have h₀ : Reachable Init step anyStep initial := .start rfl
  have hall := h s (h₀.of_exec (meets_anyStep _) he)
  cases hr : s.recoveries with
  | nil =>
      rw [hr] at hv
      cases hv
  | cons r rs =>
      rw [hr] at hv hall
      obtain ⟨hno, -⟩ := List.cons.inj hv
      exact absurd ((hall r List.mem_cons_self).2.symm.trans hno) (by decide)

end VectorLsm.Recovery
