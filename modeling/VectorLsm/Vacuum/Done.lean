import VectorLsm.Vacuum.Masks

/-! # Rows that are done

A row is done when it is masked in every file and array it can be read from, or will be once a
compaction is through. No compaction undoes this.
-/

namespace VectorLsm.OnDisk

variable {disk : Disk} {pool : List PoolSegment} {nextUid t : ℕ} {comp : ℕ → CompactionPc}
  {pc : CompactionPc} {p q : PoolSegment} {f new : SegmentFile} {olds : List SegmentRef}
  {r : MappedRow} {i : SegmentFileInfo}

structure Done (disk : Disk) (pool : List PoolSegment) (comp : ℕ → CompactionPc) (r : MappedRow) :
    Prop where
  file : ∀ p ∈ pool, disk.Masks p.info r
  member : ∀ p ∈ pool, p.file.Masks r
  new : ∀ t new, (comp t).new? = some new → new.Masks r
  onDisk : ∀ t new, (comp t).onDisk? = some new → disk.Masks new.info r

theorem CompactionPc.onDisk?_of_new? (h : pc.new? = none) : pc.onDisk? = none := by
  cases hpc : pc.onDisk? with
  | none => rfl
  | some new =>
      rw [CompactionPc.new?_of_onDisk? hpc] at h
      cases h

namespace Done

theorem same (h : Done disk pool comp r) (hn : pc.new? = none) :
    Done disk pool (Function.update comp t pc) r where
  file := h.file
  member := h.member
  new := by
    intro t' new
    rw [Function.update_apply]
    split
    · rw [hn]
      rintro ⟨⟩
    · exact h.new t' new
  onDisk := by
    intro t' new
    rw [Function.update_apply]
    split
    · rw [CompactionPc.onDisk?_of_new? hn]
      rintro ⟨⟩
    · exact h.onDisk t' new

/-- The row is masked in the files of all slots of a task. -/
theorem masks_olds (h : ∀ p ∈ pool, disk.Masks p.info r) (hc : Claims pool nextUid comp)
    {o : SegmentRef} (ho : o ∈ (comp t).olds) : disk.Masks o.info r := by
  obtain ⟨p, hp, rfl⟩ := hc.exists_member ho
  exact h p hp

theorem reload (h : Done disk pool comp r) (hc : Claims pool nextUid comp)
    (hm : new.Masks r ↔ ∀ o ∈ olds, disk.Masks o.info r) (ho : (comp t).olds = olds) :
    Done disk pool (Function.update comp t (.reloaded olds new)) r where
  file := h.file
  member := h.member
  new := by
    intro t' new'
    rw [Function.update_apply]
    split
    · rintro ⟨⟩
      exact hm.mpr fun o ho' => masks_olds h.file hc (t := t) (by rwa [ho])
    · exact h.new t' new'
  onDisk := by
    intro t' new'
    rw [Function.update_apply]
    split
    · rintro ⟨⟩
    · exact h.onDisk t' new'

theorem publish (h : Done disk pool comp r) (ht : comp t = .reloaded olds new) {new' : SegmentFile}
    (hm : new'.Masks = new.Masks) (hfresh : ∀ f ∈ disk, f.info ≠ new'.info)
    (hf : Files disk pool comp) :
    Done (new' :: disk) pool (Function.update comp t (.published olds new')) r where
  file := by
    intro p hp
    obtain ⟨g, hg, hgi, -⟩ := hf.member p hp
    rw [Disk.masks_cons_of_ne fun he => hfresh g hg (hgi.trans he.symm)]
    exact h.file p hp
  member := h.member
  new := by
    intro t' new''
    rw [Function.update_apply]
    split
    · rintro ⟨⟩
      rw [hm]
      exact h.new t new (by rw [ht]; rfl)
    · exact h.new t' new''
  onDisk := by
    intro t' new''
    rw [Function.update_apply]
    split
    · rintro ⟨⟩ f hfd hfi
      rcases List.mem_cons.mp hfd with rfl | hfd
      · rw [hm]
        exact h.new t new (by rw [ht]; rfl)
      · exact absurd hfi (hfresh f hfd)
    · intro ht'
      obtain ⟨g, hg, hgi, -⟩ := hf.onDisk t' new'' ht'
      rw [Disk.masks_cons_of_ne fun he => hfresh g hg (hgi.trans he.symm)]
      exact h.onDisk t' new'' ht'

theorem install (h : Done disk pool comp r) (ht : comp t = .published olds new) :
    Done disk (replace (uids olds) ⟨nextUid, new, false⟩ pool)
      (Function.update comp t (.installed olds)) r := by
  have hbase : Done disk pool (Function.update comp t (.installed olds)) r := h.same rfl
  have hd : (comp t).onDisk? = some new := by rw [ht]; rfl
  have hmem : ∀ p ∈ replace (uids olds) ⟨nextUid, new, false⟩ pool,
      p = ⟨nextUid, new, false⟩ ∨ p ∈ pool := by
    intro p hp
    rw [replace, Run.splice, List.mem_append, List.mem_cons] at hp
    rcases hp with hp | rfl | hp
    · exact Or.inr ((List.takeWhile_sublist _).subset hp)
    · exact Or.inl rfl
    · exact Or.inr ((List.rtakeWhile_suffix _ _).subset hp)
  constructor
  case file =>
    intro p hp
    rcases hmem p hp with rfl | hp
    · exact h.onDisk t new hd
    · exact h.file p hp
  case member =>
    intro p hp
    rcases hmem p hp with rfl | hp
    · exact h.new t new (CompactionPc.new?_of_onDisk? hd)
    · exact h.member p hp
  case new => exact hbase.new
  case onDisk => exact hbase.onDisk

theorem map (h : Done disk pool comp r) {g : PoolSegment → PoolSegment}
    (hi : ∀ p, (g p).info = p.info) (hm : ∀ p, p.file.Masks r → (g p).file.Masks r) :
    Done disk (pool.map g) comp r where
  file := by
    intro q hq
    obtain ⟨p, hp, rfl⟩ := List.mem_map.mp hq
    rw [hi]
    exact h.file p hp
  member := by
    intro q hq
    obtain ⟨p, hp, rfl⟩ := List.mem_map.mp hq
    exact hm p (h.member p hp)
  new := h.new
  onDisk := h.onDisk

theorem write {bitmap : ℕ → Bool} {n : ℕ} (h : Done disk pool comp r)
    (hb : ∀ f ∈ disk, f.info = i → ∀ k, f.bitmap k = true → bitmap k = true) :
    Done (disk.writeBitmap i bitmap n) pool comp r where
  file := fun p hp => (h.file p hp).writeBitmap hb
  member := h.member
  new := h.new
  onDisk := fun t new ht => (h.onDisk t new ht).writeBitmap hb

section Live

/-- Files of other ids have the row masked. -/
theorem masks_of_sid (hf : Files disk pool comp)
    (hr : r.sid < i.startSid ∨ i.endSid < r.sid) : disk.Masks i r := by
  rintro f hfd rfl
  exact (hf.sound f hfd).masks_of_sid hr

/-- While nothing is pending, a row masked in the files of all members, and in those of the
compactions that are ahead of the pool, is done. -/
theorem of_files (hd : Carried disk pool comp fun _ _ => False) (hc : Claims pool nextUid comp)
    (hm : ∀ p ∈ pool, disk.Masks p.info r)
    (ho : ∀ t new, (comp t).onDisk? = some new → disk.Masks new.info r) :
    Done disk pool comp r where
  file := hm
  member := by
    intro p hp
    exact (hd.member p hp r (hm p hp)).resolve_right id
  new := by
    intro t new ht
    refine (hd.new t new ht r fun o ho' => masks_olds hm hc ho').resolve_right ?_
    rintro ⟨-, -, ⟨⟩⟩
  onDisk := ho

/-- While nothing is pending, a row masked in an entry of the scan that covers its id is done. -/
theorem of_scan (hd : Carried disk pool comp fun _ _ => False) (hc : Claims pool nextUid comp)
    (hf : Files disk pool comp) (hs : Scannable (disk.map (·.info))) (hi : i ∈ disk.scan)
    (hlo : i.startSid ≤ r.sid) (hhi : r.sid ≤ i.endSid) (hm : disk.Masks i r) :
    Done disk pool comp r := by
  rcases hf.mem_scan_cases hc hs hi with ⟨p, hp, hst, rfl⟩ | ⟨t, new, ht, rfl⟩
  · refine of_files hd hc ?_ ?_
    · intro q hq
      by_cases hpq : p = q
      · exact hpq ▸ hm
      · refine masks_of_sid hf ?_
        by_contra hin
        exact hpq (hc.eq_of_overlap hp hq (by lia) (by lia))
    · intro t new ht
      refine masks_of_sid hf ?_
      rcases hc.hull_cases rfl (hf.hull_of_onDisk ht) hp with ⟨hu, -⟩ | ⟨-, hout⟩
      · exact absurd hu (hst t new ht)
      · have h₁ : new.info.startSid = new.startSid := rfl
        have h₂ : new.info.endSid = new.endSid := rfl
        lia
  · have hh := hf.hull_of_onDisk ht
    have hnew : new.Masks r := (hd.onDisk t new ht r hm).resolve_right id
    have hlo : new.startSid ≤ r.sid := hlo
    have hhi : r.sid ≤ new.endSid := hhi
    refine of_files hd hc ?_ ?_
    · intro q hq
      rcases hc.hull_cases rfl hh hq with ⟨hu, -⟩ | ⟨-, hout⟩
      · obtain ⟨o, ho, hou⟩ := mem_uids.mp hu
        have := hd.old t new (CompactionPc.new?_of_onDisk? ht) r hnew o ho
        rwa [← hc.ref_eq ho hq hou.symm] at this
      · exact masks_of_sid hf (by lia)
    · intro t' new' ht'
      rcases eq_or_ne t t' with rfl | hne
      · obtain rfl := Option.some.inj (ht.symm.trans ht')
        exact hm
      · refine masks_of_sid hf ?_
        have := hc.hull_apart hh (hf.hull_of_onDisk ht') hne
        have h₁ : new'.info.startSid = new'.startSid := rfl
        have h₂ : new'.info.endSid = new'.endSid := rfl
        lia

end Live

end Done

end VectorLsm.OnDisk
