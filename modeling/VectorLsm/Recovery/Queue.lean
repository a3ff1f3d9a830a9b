import VectorLsm.Recovery.Paced

/-! # The queue of sealed memtables

Rotations, flushes and releases keep the status pages within what a recovery can take.
-/

namespace VectorLsm.Recovery

open Transition Log

variable {s s' : State} {l l' : LSMIndex} {st : StatusPages}

section Slot

theorem BoundInv.ofSlot (hc : CoreInv s) (hs : s.slots = [l]) (hl : Holds s l') :
    BoundInv (s.setSlot 0 l') where
  core := hc.setSlot
  slots := by
    intro x hx
    rw [slots_setSlot hs, List.mem_singleton] at hx
    subst hx
    exact ⟨hl.sorted, hl.length, hl.queue, hl.growing, hl.flushed, hl.unflushed, hl.unregistered⟩

theorem Holds.of_eq (h : Holds s l) (hdir : s'.dir = s.dir)
    (hst : s'.statusMemtables = s.statusMemtables) : Holds s' l where
  sorted := h.sorted
  length := h.length
  queue := hdir ▸ h.queue
  growing := hdir ▸ h.growing
  flushed := hdir ▸ h.flushed
  unflushed := hdir ▸ hst ▸ h.unflushed
  unregistered := hst ▸ h.unregistered

/-- The rotation goes on with the same memtables. -/
theorem Holds.setGrowing {g : Growing} (h : Holds s l) (hg : g.sids = l.growing.sids)
    (hun : ∀ cur pc, g = .rotating cur pc → (∀ sid, pc ≠ .registered sid) →
      ∀ sid ∈ pc.sids, sid ∉ s.statusMemtables) : Holds s { l with growing := g } where
  sorted := by
    have := h.sorted
    unfold LSMIndex.live at *
    rwa [hg]
  length := h.length
  queue := h.queue
  growing := hg ▸ h.growing
  flushed := h.flushed
  unflushed := by
    have := h.unflushed
    unfold LSMIndex.live at *
    rwa [hg]
  unregistered := hun

theorem Ahead.status (h : Ahead s l) : ∃ st ∈ s.status, s.statusMemtables = st.memtables := by
  obtain ⟨st, hst, -⟩ := h.pages
  exact ⟨st, hst, statusMemtables_of_status hst⟩

theorem CoreInv.dir_ne_nil (h : CoreInv s) (hst : st ∈ s.status) : s.dir ≠ [] := by
  apply h.built
  rintro hw
  rw [State.status, hw] at hst
  cases hst

theorem CoreInv.bounded (h : CoreInv s) (hst : st ∈ s.status) : Bounded (maxEnd s.dir) st :=
  (h.recent.self h.durable st hst).1

theorem startSegmentId_le_maxEnd (h : CoreInv s) (hne : s.dir ≠ []) :
    startSegmentId ≤ maxEnd s.dir := by
  obtain ⟨i, hi⟩ := List.exists_mem_of_ne_nil s.dir hne
  exact (h.starts i hi).trans ((h.scannable.nonempty i hi).trans (endSid_le_maxEnd hi))

/-- With room in the queue, the pages stay bounded when another sid is logged. -/
theorem Holds.sealed_le {cur : Option SegmentId} {sid : SegmentId} (h : Holds s l)
    (hb : Bounded (maxEnd s.dir) st) (hst : s.statusMemtables = st.memtables)
    (hg : l.growing = .rotating cur (.allocated sid))
    (hroom : cur ≠ none → (l.memtables.filter (maxEnd s.dir < ·)).length < memtableNum) :
    (st.memtables.filter (Sealed (maxEnd s.dir) sid ·)).length ≤ memtableNum := by
  have hsub : ∀ x ∈ st.memtables.filter (Sealed (maxEnd s.dir) sid ·),
      x ∈ l.memtables.filter (maxEnd s.dir < ·) ++ cur.toList := by
    intro x hx
    obtain ⟨hx, hseal⟩ := List.mem_filter.mp hx
    obtain ⟨hlt, hne⟩ := of_decide_eq_true hseal
    rcases List.mem_append.mp (h.unflushed x (hst ▸ hx) hlt) with hm | hm
    · exact List.mem_append_left _ (List.mem_filter.mpr ⟨hm, by simpa using hlt⟩)
    · rw [hg] at hm
      rcases List.mem_append.mp hm with hm | hm
      · exact List.mem_append_right _ hm
      · exact absurd (List.mem_singleton.mp hm) hne
  have hlen := length_le_of_subset (hb.nodup.filter _) hsub
  rw [List.length_append] at hlen
  cases cur with
  | none => exact hlen.trans ((List.length_filter_le _ _).trans h.length)
  | some cur =>
      have := hroom (by simp)
      simp only [Option.toList_some, List.length_singleton] at hlen
      omega

theorem BoundInv.rotate (h : BoundInv s) (ha : Ahead s l) (hs : s.slots = [l])
    (hok : l.seals = true → (l.memtables.filter (maxEnd s.dir < ·)).length < memtableNum)
    (hr : s.rotate 0 l = some s') : BoundInv s' := by
  have hl : Holds s l := h.slots l (by simp [hs])
  obtain ⟨st, hst, hmem⟩ := ha.status
  have hb := h.core.bounded hst
  have hdir := h.core.dir_ne_nil hst
  unfold State.rotate at hr
  split at hr
  next hg =>
    cases hr
    exact .ofSlot h.core hs (hl.setGrowing (by rw [hg]; rfl) (by rintro cur pc ⟨⟩ - sid ⟨⟩))
  next cur hg =>
    cases hr
    exact .ofSlot h.core hs (hl.setGrowing (by rw [hg]; rfl) (by rintro cur pc ⟨⟩ - sid ⟨⟩))
  next cur hg =>
    -- The new sid is past all others.
    simp only [allocSegmentId_of_unused (ha.unused hs)] at hr
    cases hr
    refine .ofSlot h.core hs ?_
    have hlive : LSMIndex.live { l with
        growing := .rotating cur (.allocated l.nextSegmentId)
        nextSegmentId := l.nextSegmentId + 1 } = l.live ++ [l.nextSegmentId] := by
      simp [LSMIndex.live, Growing.sids, Rotation.sids, hg]
    exact {
      sorted := by
        rw [hlive]
        refine List.pairwise_append.mpr ⟨hl.sorted, List.pairwise_singleton _ _, ?_⟩
        intro x hx y hy
        rw [List.mem_singleton.mp hy]
        exact ha.live x hx
      length := hl.length
      queue := hl.queue
      growing := by
        intro x hx
        rcases List.mem_append.mp hx with hx | hx
        · exact hl.growing x (by rw [hg]; exact List.mem_append_left _ hx)
        · obtain ⟨i, hi, hie⟩ := exists_maxEnd hdir
          rw [List.mem_singleton.mp hx, ← hie]
          exact ha.files i hi
      flushed := hl.flushed
      unflushed := by
        intro x hx hlt
        rw [hlive]
        exact List.mem_append_left _ (hl.unflushed x hx hlt)
      unregistered := by
        rintro cur' pc ⟨⟩ - x hx
        rw [List.mem_singleton.mp hx]
        exact (ha.unused hs).1 }
  next cur sid hg =>
    cases hr
    have hst' : (s.log (.updateMaxSid sid)).status = some { st with maxMemtableSid := sid } := by
      rw [status_log, Option.mem_def.mp hst]
      rfl
    have hmem' : (s.log (.updateMaxSid sid)).statusMemtables = s.statusMemtables := by
      rw [statusMemtables_of_status hst', hmem]
    refine .ofSlot (h.core.logRecord ?_ ?_ (by rintro i ⟨⟩) (by rintro x ⟨⟩) hdir) hs ?_
    · intro st' h'
      cases (Option.mem_unique h' hst')
      have hseal := hl.sealed_le hb hmem hg fun hc => hok (by
        unfold LSMIndex.seals
        rw [hg]
        cases cur with
        | none => exact absurd rfl hc
        | some cur => rfl)
      exact ⟨hb.nonempty, hb.nodup, hb.flushed, hseal⟩
    · intro x hx
      exact Or.inr (hmem' ▸ hx)
    · refine Holds.of_eq (hl.setGrowing (by rw [hg]; rfl) ?_) rfl hmem'
      rintro cur' pc ⟨⟩ - x hx
      exact hl.unregistered cur _ hg (by rintro y ⟨⟩) x hx
  next cur sid hg =>
    cases hr
    have hst' : (s.log (.registerMemtable sid)).status =
        some { st with memtables := st.memtables ++ [sid] } := by
      rw [status_log, Option.mem_def.mp hst]
      rfl
    have hmem' : (s.log (.registerMemtable sid)).statusMemtables = s.statusMemtables ++ [sid] := by
      rw [statusMemtables_of_status hst', hmem]
    have hmax := ha.logged cur sid hg st hst
    have hlt : maxEnd s.dir < sid := by
      apply hl.growing
      rw [hg]
      exact List.mem_append_right _ (List.mem_singleton_self sid)
    have hnot : sid ∉ st.memtables :=
      hmem ▸ hl.unregistered cur _ hg (by rintro y ⟨⟩) sid (List.mem_singleton_self sid)
    refine .ofSlot (h.core.logRecord ?_ ?_ (by rintro i ⟨⟩) ?_ hdir) hs ?_
    · intro st' h'
      cases (Option.mem_unique h' hst')
      refine ⟨by simp, ?_, ?_, ?_⟩
      · exact List.nodup_append.mpr ⟨hb.nodup, List.nodup_singleton _, by
          rintro x hx y hy rfl
          exact hnot (List.mem_singleton.mp hy ▸ hx)⟩
      · rw [List.filter_append, List.filter_cons_of_neg (by simpa using hlt), List.filter_nil,
          List.append_nil]
        exact hb.flushed
      · have hns : ¬ Sealed (maxEnd s.dir) st.maxMemtableSid sid := fun hse => hse.2 hmax.symm
        dsimp only
        rw [List.filter_append, List.filter_cons_of_neg (by simpa using hns), List.filter_nil,
          List.append_nil]
        exact hb.sealed
    · intro x hx
      exact Or.inr (hmem' ▸ List.mem_append_left _ hx)
    · rintro x ⟨⟩ st' h'
      cases (Option.mem_unique h' hst)
      exact hmax
    · exact {
        sorted := by
          have := hl.sorted
          simpa [LSMIndex.live, Growing.sids, Rotation.sids, hg] using this
        length := hl.length
        queue := hl.queue
        growing := by
          have := hl.growing
          rwa [hg] at this
        flushed := hl.flushed
        unflushed := by
          intro x hx hlt'
          have hlive : ∀ x, x ∈ l.live → x ∈ LSMIndex.live
              { l with growing := .rotating cur (.registered sid) } := by
            intro x hx
            simpa [LSMIndex.live, Growing.sids, Rotation.sids, hg] using hx
          rw [hmem'] at hx
          rcases List.mem_append.mp hx with hx | hx
          · exact hlive x (hl.unflushed x hx hlt')
          · rw [List.mem_singleton.mp hx]
            simp [LSMIndex.live, Growing.sids, Rotation.sids]
        unregistered := by
          rintro cur' pc ⟨⟩ hpc
          exact absurd rfl (hpc sid) }
  next cur sid hg =>
    split at hr <;> cases hr
    next hroom =>
      refine .ofSlot h.core hs ?_
      have hlive : LSMIndex.live { l with
          growing := .rotating none (.registered sid), memtables := l.memtables ++ [cur] } =
          l.live := by
        simp [LSMIndex.live, Growing.sids, Rotation.sids, hg]
      have hcur : maxEnd s.dir < cur := by
        apply hl.growing
        rw [hg]
        simp [Growing.sids]
      exact {
        sorted := hlive ▸ hl.sorted
        length := by
          rw [List.length_append]
          exact hroom
        queue := by
          have hq := hl.queue
          unfold QueueInv at hq ⊢
          dsimp only at hq ⊢
          split
          next hf =>
            rw [hf] at hq
            intro x hx
            rcases List.mem_append.mp hx with hx | hx
            · exact hq x hx
            · rw [List.mem_singleton.mp hx]
              exact hcur
          all_goals
            next k hf =>
              rw [hf] at hq
              obtain ⟨sids, hm, hle, hlt⟩ := hq
              refine ⟨sids ++ [cur], by rw [hm, List.cons_append], hle, fun x hx => ?_⟩
              rcases List.mem_append.mp hx with hx | hx
              · exact hlt x hx
              · rw [List.mem_singleton.mp hx]
                exact hcur
        growing := by
          intro x hx
          apply hl.growing
          rw [hg]
          exact List.mem_append_right _ hx
        flushed := hl.flushed
        unflushed := fun x hx hlt => hlive ▸ hl.unflushed x hx hlt
        unregistered := by
          rintro cur' pc ⟨⟩ hpc
          exact absurd rfl (hpc sid) }
  next sid hg =>
    cases hr
    exact .ofSlot h.core hs (hl.setGrowing (by rw [hg]; rfl) (by rintro cur pc ⟨⟩))

theorem Holds.setQueue (h : Holds s l) {queue fnr releasing : List SegmentId} {f : Flushing}
    (hq : queue.Sublist l.memtables)
    (hun : ∀ sid ∈ l.memtables, maxEnd s.dir < sid → sid ∈ queue)
    (hinv : QueueInv (maxEnd s.dir) { l with flushing := f, memtables := queue })
    (hfl : ∀ sid ∈ fnr ++ releasing, sid ≤ maxEnd s.dir) :
    Holds s { l with
      memtables := queue, flushing := f, flushedNotReleased := fnr, releasing := releasing } where
  sorted := h.sorted.sublist (hq.append (List.Sublist.refl _))
  length := hq.length_le.trans h.length
  queue := hinv
  growing := h.growing
  flushed := hfl
  unflushed := by
    intro sid hsid hlt
    rcases List.mem_append.mp (h.unflushed sid hsid hlt) with hm | hm
    · exact List.mem_append_left _ (hun sid hm hlt)
    · exact List.mem_append_right _ hm
  unregistered := h.unregistered

/-- The sids that a crash can bring back and the new file makes flushed ones are the ones that
were already, and the sid of the file. -/
theorem flush_recent {sid : SegmentId} (h : CoreInv s) (hl : Holds s l)
    (hlow : ∀ x ∈ l.live, maxEnd s.dir < x → sid ≤ x) (hlt : maxEnd s.dir < sid)
    (hout : s.outstanding.length < memtableNum) :
    Cuts (Recent sid s.statusMemtables) s.durable s.wal := by
  intro n hn hlen st hst
  obtain ⟨hb, hkeep⟩ := h.recent n hn hlen st hst
  refine ⟨⟨hb.nonempty, hb.nodup, ?_, ?_⟩, ?_⟩
  · have hsub : ∀ x ∈ st.memtables.filter (· ≤ sid), x ∈ sid :: s.outstanding := by
      intro x hx
      obtain ⟨hx, hle⟩ := List.mem_filter.mp hx
      rcases le_or_gt x (maxEnd s.dir) with hxe | hxe
      · refine List.mem_cons_of_mem _
          (List.mem_dedup.mpr (List.mem_filter.mpr ⟨?_, by simpa using hxe⟩))
        refine List.mem_flatMap.mpr ⟨n, List.mem_range.mpr (Nat.lt_succ_of_le hlen), ?_⟩
        rw [if_pos hn, State.statusAt, Option.mem_def.mp hst]
        exact hx
      · have hm := (hkeep x hx).resolve_left (not_le.mpr hxe)
        have := hlow x (hl.unflushed x hm hxe) hxe
        exact List.mem_cons.mpr (Or.inl (le_antisymm (of_decide_eq_true hle) this))
    exact (length_le_of_subset (hb.nodup.filter _) hsub).trans hout
  · refine le_trans (filter_length_mono fun x _ hx => ?_) hb.sealed
    obtain ⟨hx, hne⟩ := of_decide_eq_true hx
    exact decide_eq_true ⟨hlt.trans hx, hne⟩
  · intro x hx
    rcases hkeep x hx with hle | hm
    · exact Or.inl (hle.trans hlt.le)
    · exact Or.inr hm

theorem BoundInv.flush (h : BoundInv s) (ha : Ahead s l) (hs : s.slots = [l])
    (hok : l.flushing = .idle → ∀ sid ∈ l.memtables.head?,
      s.outstanding.length < memtableNum ∧ Fits s sid sid)
    (hf : s.flush 0 l = some s') : BoundInv s' := by
  have hl : Holds s l := h.slots l (by simp [hs])
  obtain ⟨st, hst, -⟩ := ha.status
  have hdir := h.core.dir_ne_nil hst
  have hq := hl.queue
  unfold State.flush at hf
  split at hf
  next hidle =>
    split at hf <;> cases hf
    next sid sids hm =>
      obtain ⟨hout, hfits⟩ := hok hidle sid (by rw [hm]; rfl)
      unfold QueueInv at hq
      rw [hidle] at hq
      have hlt : maxEnd s.dir < sid := hq sid (by simp [hm])
      have hsort := hl.sorted
      rw [LSMIndex.live, hm, List.cons_append, List.pairwise_cons] at hsort
      have hlow : ∀ x ∈ l.live, maxEnd s.dir < x → sid ≤ x := by
        intro x hx _
        rw [LSMIndex.live, hm, List.cons_append] at hx
        rcases List.mem_cons.mp hx with rfl | hx
        · exact le_rfl
        · exact (hsort.1 x hx).le
      have hmax : maxEnd (s.writeFile sid sid).dir = sid :=
        maxEnd_append.trans (max_eq_right hlt.le)
      have hcore : CoreInv (s.writeFile sid sid) := by
        refine h.core.addFile ?_ le_rfl ?_ hfits ?_
        · exact (startSegmentId_le_maxEnd h.core hdir).trans hlt.le
        · exact fun e he => Or.inl ((endSid_le_maxEnd he).trans_lt hlt)
        · rw [max_eq_right hlt.le]
          exact flush_recent h.core hl hlow hlt hout
      refine .ofSlot hcore hs ?_
      exact {
        sorted := hl.sorted
        length := hl.length
        queue := by
          unfold QueueInv
          rw [hmax]
          exact ⟨sids, hm, le_rfl, fun x hx => hsort.1 x (List.mem_append_left _ hx)⟩
        growing := by
          intro x hx
          rw [hmax]
          exact hsort.1 x (List.mem_append_right _ hx)
        flushed := by
          intro x hx
          rw [hmax]
          exact (hl.flushed x hx).trans hlt.le
        unflushed := by
          intro x hx hlt'
          rw [hmax] at hlt'
          exact hl.unflushed x hx (hlt.trans hlt')
        unregistered := hl.unregistered }
  next sid hw =>
    split at hf <;> cases hf
    next hrel =>
      unfold QueueInv at hq
      rw [hw] at hq
      refine .ofSlot h.core hs (hl.setQueue (List.Sublist.refl _) (fun _ hx _ => hx) hq ?_)
      obtain ⟨sids, hm, hle, -⟩ := hq
      intro x hx
      rcases List.mem_append.mp hx with hx | hx
      · split at hx
        · rcases List.mem_append.mp hx with hx | hx
          · exact hl.flushed x (List.mem_append_left _ hx)
          · rw [List.mem_singleton.mp hx]
            exact hle
        · exact hl.flushed x (List.mem_append_left _ hx)
      · exact hl.flushed x (List.mem_append_right _ hx)
  next sid ht =>
    cases hf
    unfold QueueInv at hq
    rw [ht] at hq
    obtain ⟨sids, hm, hle, hlt⟩ := hq
    refine .ofSlot h.core hs (hl.setQueue List.erase_sublist ?_ ?_ hl.flushed)
    · intro x hx hxe
      exact (List.mem_erase_of_ne (by lia)).mpr hx
    · unfold QueueInv
      dsimp only
      rw [hm, List.erase_cons_head]
      exact hlt

theorem BoundInv.release (h : BoundInv s) (ha : Ahead s l) (hs : s.slots = [l])
    (hok : ∀ sid ∈ l.releasing.head?, ∃ x ∈ s.statusMemtables, x ≠ sid)
    (hf : s.release 0 l = some s') : BoundInv s' := by
  have hl : Holds s l := h.slots l (by simp [hs])
  obtain ⟨st, hst, hmem⟩ := ha.status
  have hb := h.core.bounded hst
  unfold State.release at hf
  split at hf
  next hn =>
    split at hf <;> cases hf
    refine .ofSlot h.core hs
      (hl.setQueue (List.Sublist.refl _) (fun _ hx _ => hx) hl.queue fun x hx => ?_)
    exact hl.flushed x (List.mem_append_left _ (by simpa using hx))
  next sid sids hc =>
    cases hf
    have hst' : (s.log (.releaseMemtable sid)).status =
        some { st with memtables := st.memtables.erase sid } := by
      rw [status_log, Option.mem_def.mp hst]
      rfl
    have hmem' : (s.log (.releaseMemtable sid)).statusMemtables = s.statusMemtables.erase sid := by
      rw [statusMemtables_of_status hst', hmem]
    have hle : sid ≤ maxEnd s.dir := hl.flushed sid (by simp [hc])
    have herase := List.erase_sublist (a := sid) (l := st.memtables)
    refine .ofSlot (h.core.logRecord ?_ ?_ (by rintro i ⟨⟩) (by rintro x ⟨⟩)
      (h.core.dir_ne_nil hst)) hs ?_
    · intro st' h'
      cases (Option.mem_unique h' hst')
      obtain ⟨x, hx, hne⟩ := hok sid (by rw [hc]; rfl)
      rw [hmem] at hx
      exact {
        nonempty := List.ne_nil_of_mem ((List.mem_erase_of_ne hne).mpr hx)
        nodup := hb.nodup.erase sid
        flushed := (herase.filter _).length_le.trans hb.flushed
        sealed := (herase.filter _).length_le.trans hb.sealed }
    · intro x hx
      rcases eq_or_ne x sid with rfl | hne
      · exact Or.inl hle
      · exact Or.inr (hmem' ▸ (List.mem_erase_of_ne hne).mpr hx)
    · have hl' : Holds (s.log (.releaseMemtable sid)) l := {
        sorted := hl.sorted
        length := hl.length
        queue := hl.queue
        growing := hl.growing
        flushed := hl.flushed
        unflushed := by
          intro x hx
          rw [hmem'] at hx
          exact hl.unflushed x (List.mem_of_mem_erase hx)
        unregistered := by
          intro cur pc hg hpc x hx hm
          rw [hmem'] at hm
          exact hl.unregistered cur pc hg hpc x hx (List.mem_of_mem_erase hm) }
      refine hl'.setQueue (List.Sublist.refl _) (fun _ hx _ => hx) hl.queue fun x hx => ?_
      refine hl.flushed x ?_
      rcases List.mem_append.mp hx with hx | hx
      · exact List.mem_append_left _ hx
      · exact List.mem_append_right _ (hc ▸ List.mem_cons_of_mem _ hx)

end Slot

end VectorLsm.Recovery
