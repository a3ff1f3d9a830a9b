import VectorLsm.Vacuum.OnDisk

/-! # Claimed segments

The slots a compaction has claimed are neighbours on the list and stay there until it replaces
them; no other compaction claims them.
-/

namespace VectorLsm.OnDisk

variable {pool : List PoolSegment} {nextUid t : ℕ} {comp : ℕ → CompactionPc} {pc : CompactionPc}
  {olds : List SegmentRef} {us : List ℕ} {b : Bool} {p q m : PoolSegment}

@[simp] theorem setCompacting_ref : (setCompacting us b p).ref = p.ref := rfl

@[simp] theorem setCompacting_uid : (setCompacting us b p).uid = p.uid := rfl

@[simp] theorem setCompacting_file : (setCompacting us b p).file = p.file := rfl

@[simp] theorem setCompacting_info : (setCompacting us b p).info = p.info := rfl

theorem mem_uids {u : ℕ} : u ∈ uids olds ↔ ∃ o ∈ olds, o.uid = u := List.mem_map

structure Claims (pool : List PoolSegment) (nextUid : ℕ) (comp : ℕ → CompactionPc) : Prop where
  nodup : (pool.map (·.uid)).Nodup
  lt : ∀ p ∈ pool, p.uid < nextUid
  range : ∀ p ∈ pool, p.info.startSid ≤ p.info.endSid
  sorted : pool.Pairwise fun p q => p.info.endSid < q.info.startSid
  run : ∀ t, ∃ ps, ps <:+: pool ∧ ps.map (·.ref) = (comp t).olds
  compacting : ∀ t, ∀ p ∈ pool, p.uid ∈ uids (comp t).olds → p.isCompacting = true
  gone : ∀ t, ∀ u ∈ uids (comp t).gone, u < nextUid ∧ ∀ p ∈ pool, p.uid ≠ u
  disjoint : ∀ t t' u, u ∈ uids ((comp t).olds ++ (comp t).gone) →
    u ∈ uids ((comp t').olds ++ (comp t').gone) → t = t'

section Hull

variable {new : SegmentFile} {ps : List PoolSegment}

/-- The new segment reaches from the first to the last of the old ones. -/
structure Hull (olds : List SegmentRef) (new : SegmentFile) : Prop where
  range : new.startSid ≤ new.endSid
  first : olds.head?.map (·.info.startSid) = some new.startSid
  last : olds.getLast?.map (·.info.endSid) = some new.endSid

theorem Hull.ne_nil (hh : Hull olds new) : olds ≠ [] := by
  rintro rfl
  cases hh.first

/-- The ends of the new segment are those of two members. -/
theorem Hull.exists_ends (hh : Hull (ps.map (·.ref)) new) :
    (∃ p, ps.head? = some p ∧ p.info.startSid = new.startSid) ∧
      ∃ p, ps.getLast? = some p ∧ p.info.endSid = new.endSid := by
  have hlo := hh.first
  have hhi := hh.last
  rw [List.head?_map, Option.map_map] at hlo
  rw [List.getLast?_map, Option.map_map] at hhi
  obtain ⟨p, hp, hpi⟩ := Option.map_eq_some_iff.mp hlo
  obtain ⟨q, hq, hqi⟩ := Option.map_eq_some_iff.mp hhi
  exact ⟨⟨p, hp, hpi⟩, q, hq, hqi⟩

/-- The first and the last of a sorted run bound the others. -/
theorem le_of_head {p₁ : PoolSegment}
    (hs : ps.Pairwise fun p q => p.info.endSid < q.info.startSid)
    (hr : ∀ p ∈ ps, p.info.startSid ≤ p.info.endSid) (h₁ : ps.head? = some p₁) (hp : p ∈ ps) :
    p₁.info.startSid ≤ p.info.startSid := by
  cases ps with
  | nil => cases hp
  | cons x ps =>
      obtain rfl := Option.some.inj h₁
      rcases List.mem_cons.mp hp with rfl | hp
      · exact le_rfl
      · exact (hr _ List.mem_cons_self).trans ((List.pairwise_cons.mp hs).1 p hp).le

theorem le_of_getLast {p₂ : PoolSegment}
    (hs : ps.Pairwise fun p q => p.info.endSid < q.info.startSid)
    (hr : ∀ p ∈ ps, p.info.startSid ≤ p.info.endSid) (h₂ : ps.getLast? = some p₂) (hp : p ∈ ps) :
    p.info.endSid ≤ p₂.info.endSid := by
  rcases List.eq_nil_or_concat ps with rfl | ⟨ps', x, rfl⟩
  · cases hp
  · rw [List.concat_eq_append] at hs hr h₂ hp
    obtain rfl : x = p₂ := by simpa using h₂
    rcases List.mem_append.mp hp with hp | hp
    · have h := (List.pairwise_append.mp hs).2.2 p hp x (List.mem_singleton_self x)
      exact h.le.trans (hr x (by simp))
    · rw [List.mem_singleton.mp hp]

end Hull

namespace Claims

theorem eq_of_uid (h : Claims pool nextUid comp) (hp : p ∈ pool) (hq : q ∈ pool)
    (he : p.uid = q.uid) : p = q :=
  List.inj_on_of_nodup_map h.nodup hp hq he

/-- Each claimed slot is a member, with the fields it was claimed with. -/
theorem exists_member (h : Claims pool nextUid comp) {o : SegmentRef} (ho : o ∈ (comp t).olds) :
    ∃ p ∈ pool, p.ref = o := by
  obtain ⟨ps, hps, he⟩ := h.run t
  rw [← he] at ho
  obtain ⟨p, hp, rfl⟩ := List.mem_map.mp ho
  exact ⟨p, hps.subset hp, rfl⟩

theorem ref_eq (h : Claims pool nextUid comp) {o : SegmentRef} (ho : o ∈ (comp t).olds)
    (hp : p ∈ pool) (hu : p.uid = o.uid) : p.ref = o := by
  obtain ⟨q, hq, rfl⟩ := h.exists_member ho
  rw [h.eq_of_uid hp hq hu]

/-- A member that shares an id with another one is that one. -/
theorem eq_of_overlap (h : Claims pool nextUid comp) (hp : p ∈ pool) (hq : q ∈ pool)
    (hpq : p.info.startSid ≤ q.info.endSid) (hqp : q.info.startSid ≤ p.info.endSid) : p = q := by
  obtain ⟨i, hi, rfl⟩ := List.mem_iff_getElem.mp hp
  obtain ⟨j, hj, rfl⟩ := List.mem_iff_getElem.mp hq
  have hs := List.pairwise_iff_getElem.mp h.sorted
  rcases lt_trichotomy i j with hlt | rfl | hlt
  · have := hs i j hi hj hlt
    lia
  · rfl
  · have := hs j i hj hi hlt
    lia

/-- A step that leaves the claimed slots alone. -/
theorem same (h : Claims pool nextUid comp) (ho : pc.olds = (comp t).olds)
    (hg : pc.gone = (comp t).gone) : Claims pool nextUid (Function.update comp t pc) := by
  have hol : ∀ t', (Function.update comp t pc t').olds = (comp t').olds := by
    intro t'
    rw [Function.update_apply]
    split
    next he => rw [ho, he]
    next => rfl
  have hgl : ∀ t', (Function.update comp t pc t').gone = (comp t').gone := by
    intro t'
    rw [Function.update_apply]
    split
    next he => rw [hg, he]
    next => rfl
  constructor
  case nodup => exact h.nodup
  case lt => exact h.lt
  case range => exact h.range
  case sorted => exact h.sorted
  case run => simpa only [hol] using h.run
  case compacting => simpa only [hol] using h.compacting
  case gone => simpa only [hgl] using h.gone
  case disjoint => simpa only [hol, hgl] using h.disjoint

/-- A change of members that keeps what identifies them and the claims. -/
theorem map (h : Claims pool nextUid comp) {g : PoolSegment → PoolSegment}
    (hg : ∀ p, (g p).ref = p.ref) (hc : ∀ t, ∀ p ∈ pool, p.uid ∈ uids (comp t).olds →
      (g p).isCompacting = p.isCompacting) : Claims (pool.map g) nextUid comp := by
  have hu : ∀ p, (g p).uid = p.uid := fun p => congrArg SegmentRef.uid (hg p)
  have hi : ∀ p, (g p).info = p.info := fun p => congrArg SegmentRef.info (hg p)
  constructor
  case nodup =>
    have hm : (pool.map g).map (·.uid) = pool.map (·.uid) := by
      rw [List.map_map]
      exact List.map_congr_left fun p _ => hu p
    rw [hm]
    exact h.nodup
  case lt =>
    intro q hq
    obtain ⟨p, hp, rfl⟩ := List.mem_map.mp hq
    rw [hu]
    exact h.lt p hp
  case range =>
    intro q hq
    obtain ⟨p, hp, rfl⟩ := List.mem_map.mp hq
    rw [hi]
    exact h.range p hp
  case sorted =>
    rw [List.pairwise_map]
    refine h.sorted.imp fun {p q} hlt => ?_
    rwa [hi, hi]
  case run =>
    intro t
    obtain ⟨ps, hps, he⟩ := h.run t
    refine ⟨ps.map g, hps.map g, ?_⟩
    rw [List.map_map, ← he]
    exact List.map_congr_left fun p _ => hg p
  case compacting =>
    intro t q hq ht
    obtain ⟨p, hp, rfl⟩ := List.mem_map.mp hq
    rw [hu] at ht
    rw [hc t p hp ht]
    exact h.compacting t p hp ht
  case gone =>
    intro t u hu'
    obtain ⟨hlt, hne⟩ := h.gone t u hu'
    refine ⟨hlt, fun q hq => ?_⟩
    obtain ⟨p, hp, rfl⟩ := List.mem_map.mp hq
    rw [hu]
    exact hne p hp
  case disjoint => exact h.disjoint

theorem claim {ps : List PoolSegment} (h : Claims pool nextUid comp) (hps : ps <:+: pool)
    (hfree : ∀ p ∈ ps, p.isCompacting = false) :
    Claims (pool.map (setCompacting (uids (ps.map (·.ref))) true)) nextUid
      (Function.update comp t (.claimed (ps.map (·.ref)))) := by
  have hin : ∀ u ∈ uids (ps.map (·.ref)), ∃ p ∈ pool, p.uid = u ∧ p.isCompacting = false := by
    intro u hu
    obtain ⟨o, ho, rfl⟩ := mem_uids.mp hu
    obtain ⟨p, hp, rfl⟩ := List.mem_map.mp ho
    exact ⟨p, hps.subset hp, rfl, hfree p hp⟩
  have hmap : Claims (pool.map (setCompacting (uids (ps.map (·.ref))) true)) nextUid comp := by
    refine h.map (fun _ => rfl) fun t' p hp ht' => ?_
    have := h.compacting t' p hp ht'
    simp [setCompacting, this]
  have hapart : ∀ t' u, u ∈ uids (ps.map (·.ref)) →
      u ∉ uids ((comp t').olds ++ (comp t').gone) := by
    intro t' u hu hu'
    obtain ⟨p, hp, rfl, hc⟩ := hin u hu
    rw [uids, List.map_append, List.mem_append] at hu'
    rcases hu' with hu' | hu'
    · rw [h.compacting t' p hp hu'] at hc
      cases hc
    · exact (h.gone t' _ hu').2 p hp rfl
  constructor
  case nodup => exact hmap.nodup
  case lt => exact hmap.lt
  case range => exact hmap.range
  case sorted => exact hmap.sorted
  case run =>
    intro t'
    rw [Function.update_apply]
    split
    · refine ⟨ps.map (setCompacting (uids (ps.map (·.ref))) true), hps.map _, ?_⟩
      rw [List.map_map]
      exact List.map_congr_left fun _ _ => rfl
    · exact hmap.run t'
  case compacting =>
    intro t' q hq
    rw [Function.update_apply]
    split
    · intro hu
      obtain ⟨p, hp, rfl⟩ := List.mem_map.mp hq
      exact if_pos hu
    · exact hmap.compacting t' q hq
  case gone =>
    intro t'
    rw [Function.update_apply]
    split
    · intro u hu
      cases hu
    · exact hmap.gone t'
  case disjoint =>
    intro t₁ t₂ u
    rw [Function.update_apply, Function.update_apply]
    split <;> split
    next h₁ h₂ => exact fun _ _ => h₁.trans h₂.symm
    next =>
      exact fun h₁ h₂ => absurd h₂ (hapart t₂ u (by
        simpa [CompactionPc.olds, CompactionPc.gone] using h₁))
    next =>
      exact fun h₁ h₂ => absurd h₁ (hapart t₁ u (by
        simpa [CompactionPc.olds, CompactionPc.gone] using h₂))
    next => exact h.disjoint t₁ t₂ u

/-- A task that has no slots any more. -/
theorem leave (h : Claims pool nextUid comp) (ho : pc.olds = []) (hg : pc.gone = []) :
    Claims pool nextUid (Function.update comp t pc) := by
  have hsub : ∀ t' u, u ∈ uids ((Function.update comp t pc t').olds ++
      (Function.update comp t pc t').gone) → u ∈ uids ((comp t').olds ++ (comp t').gone) := by
    intro t' u
    rw [Function.update_apply]
    split
    · rw [ho, hg]
      intro hu
      cases hu
    · exact id
  constructor
  case nodup => exact h.nodup
  case lt => exact h.lt
  case range => exact h.range
  case sorted => exact h.sorted
  case run =>
    intro t'
    rw [Function.update_apply]
    split
    · exact ⟨[], List.nil_infix, ho.symm⟩
    · exact h.run t'
  case compacting =>
    intro t' p hp
    rw [Function.update_apply]
    split
    · rw [ho]
      intro hu
      cases hu
    · exact h.compacting t' p hp
  case gone =>
    intro t' u
    rw [Function.update_apply]
    split
    · rw [hg]
      intro hu
      cases hu
    · exact h.gone t' u
  case disjoint => exact fun t₁ t₂ u h₁ h₂ => h.disjoint t₁ t₂ u (hsub t₁ u h₁) (hsub t₂ u h₂)

/-- The claims of a task that gives up. -/
theorem clear (h : Claims pool nextUid comp) (ht : comp t = .failed olds) (ho : pc.olds = [])
    (hg : pc.gone = []) :
    Claims (pool.map (setCompacting (uids olds) false)) nextUid (Function.update comp t pc) := by
  refine (h.leave (t := t) ho hg).map (fun _ => rfl) fun t' p hp ht' => ?_
  rw [Function.update_apply] at ht'
  split at ht'
  next =>
    rw [ho] at ht'
    cases ht'
  next hne =>
    have hout : p.uid ∉ uids olds := by
      intro hu
      refine hne (h.disjoint t' t p.uid ?_ ?_)
      · rw [uids, List.map_append]
        exact List.mem_append_left _ ht'
      · rw [ht]
        simpa [CompactionPc.olds, CompactionPc.gone] using hu
    exact if_neg hout

section Install

variable {new : SegmentFile}

/-- The list around the slots of a task, which end up replaced by the new member. -/
theorem exists_run (h : Claims pool nextUid comp) (ht : (comp t).olds = olds) (hne : olds ≠ [])
    (new : PoolSegment) : ∃ a ps c, pool = a ++ ps ++ c ∧ ps ≠ [] ∧ ps.map (·.ref) = olds ∧
      replace (uids olds) new pool = a ++ new :: c ∧
      (∀ p ∈ a ++ c, p.uid ∉ uids olds) := by
  obtain ⟨ps, ⟨a, c, hpool⟩, he⟩ := h.run t
  rw [ht] at he
  have hps : ps ≠ [] := by
    rintro rfl
    exact hne he.symm
  have hin : ∀ p : PoolSegment, p.uid ∈ uids olds ↔ p.uid ∈ ps.map (·.uid) := by
    intro p
    rw [← he, uids, List.map_map]
    rfl
  have hnd := h.nodup
  rw [← hpool, List.map_append, List.map_append] at hnd
  have hout : ∀ p ∈ a ++ c, p.uid ∉ uids olds := by
    intro p hp hu
    rw [hin] at hu
    have hnd' := List.nodup_append.mp hnd
    rcases List.mem_append.mp hp with hp | hp
    · exact (List.nodup_append.mp hnd'.1).2.2 _ (List.mem_map_of_mem hp) _ hu rfl
    · exact hnd'.2.2 _ (List.mem_append_right _ hu) _ (List.mem_map_of_mem hp) rfl
  refine ⟨a, ps, c, hpool.symm, hps, he, ?_, hout⟩
  rw [← hpool]
  refine Run.splice_append hps ?_ ?_ ?_
  · intro p hp
    simpa [hin] using ⟨p, hp, rfl⟩
  · intro p hp
    simpa using hout p (List.mem_append_left c hp)
  · intro p hp
    simpa using hout p (List.mem_append_right a hp)

/-- A member is one of the old ones or lies beside the new segment. -/
theorem hull_cases (h : Claims pool nextUid comp) (ht : (comp t).olds = olds)
    (hh : Hull olds new) (hp : p ∈ pool) :
    (p.uid ∈ uids olds ∧ p.info.Within new.info) ∨
      (p.uid ∉ uids olds ∧ (p.info.endSid < new.startSid ∨ new.endSid < p.info.startSid)) := by
  obtain ⟨a, ps, c, rfl, hps, rfl, -, hout⟩ := h.exists_run ht hh.ne_nil p
  obtain ⟨⟨p₁, hhead, h₁⟩, p₂, hlast, h₂⟩ := hh.exists_ends
  have hp₁ := List.mem_of_mem_head? hhead
  have hp₂ := List.mem_of_getLast? hlast
  have hs := h.sorted
  rw [List.append_assoc, List.pairwise_append, List.pairwise_append] at hs
  obtain ⟨-, ⟨hsp, -, hpc⟩, hapc⟩ := hs
  rcases List.mem_append.mp hp with hp' | hp'
  · rcases List.mem_append.mp hp' with hp' | hp'
    · refine Or.inr ⟨hout p (List.mem_append_left c hp'), Or.inl ?_⟩
      have := hapc p hp' p₁ (List.mem_append_left c hp₁)
      rwa [h₁] at this
    · refine Or.inl ⟨mem_uids.mpr ⟨p.ref, List.mem_map_of_mem hp', rfl⟩, ?_⟩
      have hr : ∀ p ∈ ps, p.info.startSid ≤ p.info.endSid := fun p hp =>
        h.range p (List.mem_append_left c (List.mem_append_right a hp))
      have hle := le_of_head hsp hr hhead hp'
      have hge := le_of_getLast hsp hr hlast hp'
      rw [h₁] at hle
      rw [h₂] at hge
      exact ⟨hle, hge⟩
  · refine Or.inr ⟨hout p (List.mem_append_right a hp'), Or.inr ?_⟩
    have := hpc p₂ hp₂ p hp'
    rwa [h₂] at this

/-- Two tasks have segments apart from each other. -/
theorem hull_apart {t' : ℕ} {new' : SegmentFile} (h : Claims pool nextUid comp)
    (hh : Hull (comp t).olds new) (hh' : Hull (comp t').olds new') (hne : t ≠ t') :
    new.endSid < new'.startSid ∨ new'.endSid < new.startSid := by
  have hother : ∀ p : PoolSegment, p.uid ∈ uids (comp t).olds → p.uid ∉ uids (comp t').olds := by
    intro p hp hp'
    refine hne (h.disjoint t t' p.uid ?_ ?_)
    · rw [uids, List.map_append]
      exact List.mem_append_left _ hp
    · rw [uids, List.map_append]
      exact List.mem_append_left _ hp'
  have key : ∀ {t new}, Hull (comp t).olds new → ∃ p ∈ pool, p.uid ∈ uids (comp t).olds := by
    intro t new hh
    obtain ⟨o, ho⟩ := List.exists_mem_of_ne_nil _ hh.ne_nil
    obtain ⟨p, hp, rfl⟩ := h.exists_member ho
    exact ⟨p, hp, mem_uids.mpr ⟨p.ref, ho, rfl⟩⟩
  -- Every slot of the second task is on the same side of the first segment.
  obtain ⟨p, hp, hpt⟩ := key hh
  obtain ⟨ps', hps', he'⟩ := h.run t'
  obtain ⟨⟨p₁, hhead, h₁⟩, p₂, hlast, h₂⟩ := (he'.symm ▸ hh').exists_ends
  have hside : ∀ q ∈ ps', q.info.endSid < new.startSid ∨ new.endSid < q.info.startSid := by
    intro q hq
    have hqt : q.uid ∈ uids (comp t').olds := by
      rw [← he']
      exact mem_uids.mpr ⟨q.ref, List.mem_map_of_mem hq, rfl⟩
    rcases h.hull_cases rfl hh (hps'.subset hq) with ⟨hqt', -⟩ | ⟨-, hq⟩
    · exact absurd hqt (hother q hqt')
    · exact hq
  have hin : p.info.endSid < new'.startSid ∨ new'.endSid < p.info.startSid := by
    rcases h.hull_cases rfl hh' hp with ⟨hp', -⟩ | ⟨-, hp'⟩
    · exact absurd hp' (hother p hpt)
    · exact hp'
  have hwp : p.info.Within new.info := by
    rcases h.hull_cases rfl hh hp with ⟨-, hw⟩ | ⟨hp', -⟩
    · exact hw
    · exact absurd hpt hp'
  have hm₁ := List.mem_of_mem_head? hhead
  have hm₂ := List.mem_of_getLast? hlast
  have hs₁ := hside p₁ hm₁
  have hs₂ := hside p₂ hm₂
  have hr := h.range p hp
  have hr₁ := h.range p₁ (hps'.subset hm₁)
  have hr₂ := h.range p₂ (hps'.subset hm₂)
  have hw₁ : new.startSid ≤ p.info.startSid := hwp.1
  have hw₂ : p.info.endSid ≤ new.endSid := hwp.2
  lia

theorem install (h : Claims pool nextUid comp) (ht : (comp t).olds = olds)
    (hg : (comp t).gone = []) (hh : Hull olds new) :
    Claims (replace (uids olds) ⟨nextUid, new, false⟩ pool) (nextUid + 1)
      (Function.update comp t (.installed olds)) := by
  obtain ⟨a, ps, c, rfl, hps, he, hrep, hout⟩ := h.exists_run ht hh.ne_nil ⟨nextUid, new, false⟩
  rw [hrep]
  have hmem : ∀ p, p ∈ a ++ c → p ∈ a ++ ps ++ c := by
    intro p hp
    rcases List.mem_append.mp hp with hp | hp
    · exact List.mem_append_left _ (List.mem_append_left _ hp)
    · exact List.mem_append_right _ hp
  have hmem' : ∀ p, p ∈ a ++ (⟨nextUid, new, false⟩ : PoolSegment) :: c ↔
      p = ⟨nextUid, new, false⟩ ∨ p ∈ a ++ c := by
    intro p
    simp only [List.mem_append, List.mem_cons]
    tauto
  constructor
  case nodup =>
    have hperm : (a ++ (⟨nextUid, new, false⟩ : PoolSegment) :: c).Perm
        (⟨nextUid, new, false⟩ :: (a ++ c)) := List.perm_middle
    rw [(hperm.map _).nodup_iff, List.map_cons, List.nodup_cons]
    constructor
    · intro hu
      obtain ⟨p, hp, hpu⟩ := List.mem_map.mp hu
      exact absurd hpu (h.lt p (hmem p hp)).ne
    · have hsub : (a ++ c).Sublist (a ++ ps ++ c) := by
        rw [List.append_assoc]
        exact (List.sublist_append_right ps c).append_left a
      exact h.nodup.sublist (hsub.map _)
  case lt =>
    intro p hp
    rcases (hmem' p).mp hp with rfl | hp
    · exact Nat.lt_succ_self _
    · exact (h.lt p (hmem p hp)).trans (Nat.lt_succ_self _)
  case range =>
    intro p hp
    rcases (hmem' p).mp hp with rfl | hp
    · exact hh.range
    · exact h.range p (hmem p hp)
  case sorted =>
    have hs := h.sorted
    rw [List.append_assoc, List.pairwise_append, List.pairwise_append] at hs
    obtain ⟨ha, ⟨-, hc, hpc⟩, hapc⟩ := hs
    obtain ⟨⟨p₁, hhead, h₁⟩, p₂, hlast, h₂⟩ := (he ▸ hh).exists_ends
    have hp₁ := List.mem_of_mem_head? hhead
    have hp₂ := List.mem_of_getLast? hlast
    refine List.pairwise_append.mpr ⟨ha, List.pairwise_cons.mpr ⟨?_, hc⟩, ?_⟩
    · intro q hq
      have := hpc p₂ hp₂ q hq
      rwa [h₂] at this
    · intro p hp q hq
      rcases List.mem_cons.mp hq with rfl | hq
      · have := hapc p hp p₁ (List.mem_append_left c hp₁)
        rwa [h₁] at this
      · exact hapc p hp q (List.mem_append_right ps hq)
  case run =>
    intro t'
    rw [Function.update_apply]
    split
    · exact ⟨[], List.nil_infix, rfl⟩
    next hne' =>
      obtain ⟨qs, hqs, heq⟩ := h.run t'
      refine ⟨qs, Run.infix_splice hqs (fun p hp hp' => hne' ?_) hps, heq⟩
      refine h.disjoint t' t p.uid ?_ ?_
      · rw [← heq, uids, List.map_append, List.map_map]
        exact List.mem_append_left _ (List.mem_map.mpr ⟨p, hp, rfl⟩)
      · rw [ht, ← he, uids, List.map_append, List.map_map]
        exact List.mem_append_left _ (List.mem_map.mpr ⟨p, hp', rfl⟩)
  case compacting =>
    intro t' p hp
    rw [Function.update_apply]
    split
    · intro hu
      cases hu
    · intro hu
      rcases (hmem' p).mp hp with rfl | hp
      · obtain ⟨o, ho, hou⟩ := mem_uids.mp hu
        obtain ⟨q, hq, rfl⟩ := h.exists_member ho
        exact absurd hou (h.lt q hq).ne
      · exact h.compacting t' p (hmem p hp) hu
  case gone =>
    intro t' u
    rw [Function.update_apply]
    split
    · intro hu
      obtain ⟨o, ho, rfl⟩ := mem_uids.mp hu
      have hlt : o.uid < nextUid := by
        obtain ⟨q, hq, rfl⟩ := h.exists_member (ht.symm ▸ ho)
        exact h.lt q hq
      refine ⟨hlt.trans (Nat.lt_succ_self _), fun p hp hpu => ?_⟩
      rcases (hmem' p).mp hp with rfl | hp
      · exact hlt.ne hpu.symm
      · exact hout p hp (mem_uids.mpr ⟨o, ho, hpu.symm⟩)
    · intro hu
      obtain ⟨hlt, hno⟩ := h.gone t' u hu
      refine ⟨hlt.trans (Nat.lt_succ_self _), fun p hp => ?_⟩
      rcases (hmem' p).mp hp with rfl | hp
      · exact hlt.ne'
      · exact hno p (hmem p hp)
  case disjoint =>
    have hsub : ∀ t' u, u ∈ uids ((Function.update comp t (.installed olds) t').olds ++
        (Function.update comp t (.installed olds) t').gone) →
        u ∈ uids ((comp t').olds ++ (comp t').gone) := by
      intro t' u
      rw [Function.update_apply]
      split
      next he' =>
        subst he'
        rw [ht, hg]
        simp [CompactionPc.olds, CompactionPc.gone]
      next => exact id
    exact fun t₁ t₂ u h₁ h₂ => h.disjoint t₁ t₂ u (hsub t₁ u h₁) (hsub t₂ u h₂)

end Install

end Claims

end VectorLsm.OnDisk
