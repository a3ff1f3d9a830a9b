import VectorLsm.Vacuum.Files

/-! # Masks on disk and in memory

A row that is masked in a member's file on disk is masked in memory, but for the rows of the one
file whose new bitmap vacuum has written and the worker has not taken over. A compaction that has
read the bitmaps again carries the masks over, with the same exception.
-/

namespace VectorLsm

/-- The row is masked in the files of a version. -/
def Disk.Masks (d : Disk) (i : SegmentFileInfo) (r : MappedRow) : Prop :=
  ∀ f ∈ d, f.info = i → f.Masks r

namespace Disk

variable {d : Disk} {f g : SegmentFile} {i j : SegmentFileInfo} {r : MappedRow} {n : ℕ}
  {bitmap : ℕ → Bool}

theorem masks_iff (hn : (d.map (·.info)).Nodup) (hf : f ∈ d) : d.Masks f.info r ↔ f.Masks r := by
  constructor
  · intro h
    exact h f hf rfl
  · intro h g hg hi
    rwa [List.inj_on_of_nodup_map hn hg hf hi]

theorem masks_cons_of_ne (h : f.info ≠ i) : Disk.Masks (f :: d) i r ↔ d.Masks i r := by
  unfold Disk.Masks
  rw [List.forall_mem_cons]
  exact and_iff_right fun he => absurd he h

theorem masks_writeBitmap_of_ne (h : i ≠ j) :
    (d.writeBitmap i bitmap n).Masks j r ↔ d.Masks j r := by
  constructor
  · intro hm f hf hfj
    refine hm f (mem_writeBitmap.mpr ⟨f, hf, if_neg ?_⟩) hfj
    rintro hfi
    exact h (hfi.symm.trans hfj)
  · intro hm g hg hgj
    obtain ⟨f, hf, rfl⟩ := mem_writeBitmap.mp hg
    split at hgj
    next hfi => exact absurd (hfi.symm.trans hgj) h
    next hfi =>
      rw [if_neg hfi]
      exact hm f hf hgj

/-- Setting bits keeps masks. -/
theorem Masks.writeBitmap (hb : ∀ f ∈ d, f.info = i → ∀ k, f.bitmap k = true → bitmap k = true)
    (hm : d.Masks j r) : (d.writeBitmap i bitmap n).Masks j r := by
  intro g hg hgj
  obtain ⟨f, hf, rfl⟩ := mem_writeBitmap.mp hg
  split
  next hfi =>
    rw [if_pos hfi] at hgj
    intro k hk
    exact hb f hf hfi k (hm f hf hgj k hk)
  next hfi =>
    rw [if_neg hfi] at hgj
    exact hm f hf hgj

end Disk

namespace OnDisk

open SegmentFile

variable {disk : Disk} {pool : List PoolSegment} {nextUid t : ℕ} {comp : ℕ → CompactionPc}
  {pc : CompactionPc} {p q : PoolSegment} {f new : SegmentFile} {olds : List SegmentRef}
  {r : MappedRow} {pend pend' : SegmentFileInfo → MappedRow → Prop}

section Compact

/-- What a compaction makes of the files it reads again under the mutexes. -/
theorem compact_spec {files : List SegmentFile} (hn : (disk.map (·.info)).Nodup)
    (hsound : ∀ f ∈ disk, f.Sound) (hr : Read disk olds files)
    (hs : olds.Pairwise fun o o' => o.info.endSid < o'.info.startSid)
    (hc : (files.mapM fun f => disk.load f.info).bind (compact files) = some new) :
    new.Sound ∧ Hull olds new ∧ (∀ r, new.Masks r ↔ ∀ o ∈ olds, disk.Masks o.info r) ∧
      ∀ r ∈ new.mapping, ∃ f ∈ disk, r ∈ f.mapping := by
  obtain ⟨fresh, hm, hnew⟩ := Option.bind_eq_some_iff.mp hc
  clear hc
  have hload : ∀ {f f' : SegmentFile}, disk.load f.info = some f' → f' ∈ disk ∧ f'.info = f.info :=
    fun h => (Disk.load_eq_some hn).mp h
  obtain ⟨hinfo, hlater⟩ := hr
  unfold compact at hnew
  split at hnew
  next f f' =>
    obtain ⟨a, r', hf', hnil, he⟩ := mapM_cons_eq_some.mp hm
    obtain ⟨rfl, rfl⟩ := List.cons.inj he
    obtain ⟨hfd, hfi⟩ := hload hf'
    obtain rfl := Option.some.inj hnew
    obtain ⟨o, rfl⟩ : ∃ o, olds = [o] := by
      have hlen := congrArg List.length hinfo
      rw [List.length_map, List.length_map] at hlen
      exact List.length_eq_one_iff.mp hlen.symm
    have ho : f.info = o.info := by simpa using hinfo
    obtain ⟨g, hg, hgi, hgm, hgo, hgb⟩ := hlater f (List.mem_singleton_self f)
    obtain rfl : g = f' := List.inj_on_of_nodup_map hn hg hfd (hgi.trans hfi.symm)
    have hgs := hsound g hg
    have hfs : f.Sound := by
      have h₁ : g.startSid = f.startSid := congrArg SegmentFileInfo.startSid hgi
      have h₂ : g.endSid = f.endSid := congrArg SegmentFileInfo.endSid hgi
      exact ⟨h₁ ▸ h₂ ▸ hgs.range, hgo ▸ hgm ▸ hgs.tiles, h₁ ▸ h₂ ▸ hgm ▸ hgs.rows⟩
    refine ⟨hfs.rebuild, ⟨hfs.range, ?_, ?_⟩, fun r => ?_, fun r hr => ?_⟩
    · rw [List.head?_cons, Option.map_some, ← ho]
      rfl
    · rw [List.getLast?_singleton, Option.map_some, ← ho]
      rfl
    · rw [rebuild_masks hfs.tiles hgb, List.forall_mem_singleton, ← ho, ← hgi,
        Disk.masks_iff hn hg, ← hgm]
      rfl
    · rw [rebuild_mapping hfs.tiles] at hr
      exact ⟨g, hg, hgm ▸ (Compact.compact_sublist _ _).subset hr⟩
  next f g f' g' =>
    obtain ⟨a, r', hf', hm, he⟩ := mapM_cons_eq_some.mp hm
    obtain ⟨rfl, rfl⟩ := List.cons.inj he
    obtain ⟨b, r', hg', hnil, he⟩ := mapM_cons_eq_some.mp hm
    obtain ⟨rfl, rfl⟩ := List.cons.inj he
    obtain ⟨hfd, hfi⟩ := hload hf'
    obtain ⟨hgd, hgi⟩ := hload hg'
    obtain rfl := Option.some.inj hnew
    obtain ⟨o, o', rfl⟩ : ∃ o o', olds = [o, o'] := by
      have hlen := congrArg List.length hinfo
      rw [List.length_map, List.length_map] at hlen
      exact List.length_eq_two.mp hlen.symm
    obtain ⟨ho, ho'⟩ : f.info = o.info ∧ g.info = o'.info := by simpa using hinfo
    have hlt : f'.endSid < g'.startSid := by
      have h₁ : f'.endSid = o.info.endSid := congrArg SegmentFileInfo.endSid (hfi.trans ho)
      have h₂ : g'.startSid = o'.info.startSid :=
        congrArg SegmentFileInfo.startSid (hgi.trans ho')
      rw [h₁, h₂]
      simpa using hs
    have hsm : (f'.merge g' 0).Sound := (hsound f' hfd).merge (hsound g' hgd) hlt
    refine ⟨hsm, ⟨hsm.range, ?_, ?_⟩, fun r => ?_, fun r hr => ?_⟩
    · rw [merge_startSid, List.head?_cons, Option.map_some, ← ho, ← hfi]
      rfl
    · rw [merge_endSid]
      simp only [List.getLast?_cons_cons, List.getLast?_singleton, Option.map_some, ← ho', ← hgi]
      rfl
    · rw [merge_masks]
      simp only [List.forall_mem_cons, List.not_mem_nil, false_imp_iff, implies_true, and_true]
      rw [← ho, ← ho', ← hfi, ← hgi, Disk.masks_iff hn hfd, Disk.masks_iff hn hgd]
    · have hor : r ∈ f'.mapping ∨ r ∈ g'.mapping := by
        unfold SegmentFile.merge at hr
        split at hr
        · exact List.mem_append.mp hr
        · exact (List.mem_append.mp hr).symm
      rcases hor with hr | hr
      · exact ⟨f', hfd, hr⟩
      · exact ⟨g', hgd, hr⟩
  next => cases hnew

end Compact

structure Carried (disk : Disk) (pool : List PoolSegment) (comp : ℕ → CompactionPc)
    (pend : SegmentFileInfo → MappedRow → Prop) : Prop where
  member : ∀ p ∈ pool, ∀ r, disk.Masks p.info r → p.file.Masks r ∨ pend p.info r
  new : ∀ t new, (comp t).new? = some new → ∀ r, (∀ o ∈ (comp t).olds, disk.Masks o.info r) →
    new.Masks r ∨ ∃ o ∈ (comp t).olds, pend o.info r
  old : ∀ t new, (comp t).new? = some new → ∀ r, new.Masks r →
    ∀ o ∈ (comp t).olds, disk.Masks o.info r
  onDisk : ∀ t new, (comp t).onDisk? = some new → ∀ r, disk.Masks new.info r →
    new.Masks r ∨ pend new.info r
  rows : ∀ f ∈ disk, ∀ r ∈ f.mapping, ∃ p ∈ pool, p.info.startSid ≤ r.sid ∧ r.sid ≤ p.info.endSid
  newRows : ∀ t new, (comp t).new? = some new → ∀ r ∈ new.mapping, ∃ f ∈ disk, r ∈ f.mapping

namespace Carried

/-- A step of a task without a new segment. -/
theorem same (h : Carried disk pool comp pend) (hn : pc.new? = none) :
    Carried disk pool (Function.update comp t pc) pend := by
  have hd : pc.onDisk? = none := by
    cases hpc : pc.onDisk? with
    | none => rfl
    | some new =>
        rw [CompactionPc.new?_of_onDisk? hpc] at hn
        cases hn
  constructor
  case member => exact h.member
  case rows => exact h.rows
  case new =>
    intro t' new
    rw [Function.update_apply]
    split
    · rw [hn]
      rintro ⟨⟩
    · exact h.new t' new
  case old =>
    intro t' new
    rw [Function.update_apply]
    split
    · rw [hn]
      rintro ⟨⟩
    · exact h.old t' new
  case onDisk =>
    intro t' new
    rw [Function.update_apply]
    split
    · rw [hd]
      rintro ⟨⟩
    · exact h.onDisk t' new
  case newRows =>
    intro t' new
    rw [Function.update_apply]
    split
    · rw [hn]
      rintro ⟨⟩
    · exact h.newRows t' new

theorem reload (h : Carried disk pool comp pend)
    (hm : ∀ r, new.Masks r ↔ ∀ o ∈ olds, disk.Masks o.info r)
    (hrows : ∀ r ∈ new.mapping, ∃ f ∈ disk, r ∈ f.mapping) :
    Carried disk pool (Function.update comp t (.reloaded olds new)) pend := by
  constructor
  case member => exact h.member
  case rows => exact h.rows
  case new =>
    intro t' new'
    rw [Function.update_apply]
    split
    · rintro ⟨⟩ r hr
      exact Or.inl ((hm r).mpr hr)
    · exact h.new t' new'
  case old =>
    intro t' new'
    rw [Function.update_apply]
    split
    · rintro ⟨⟩ r hr
      exact (hm r).mp hr
    · exact h.old t' new'
  case onDisk =>
    intro t' new'
    rw [Function.update_apply]
    split
    · rintro ⟨⟩
    · exact h.onDisk t' new'
  case newRows =>
    intro t' new'
    rw [Function.update_apply]
    split
    · rintro ⟨⟩
      exact hrows
    · exact h.newRows t' new'

/-- The files of a task are written; they were not there before. -/
theorem publish (h : Carried disk pool comp pend) (ht : comp t = .reloaded olds new)
    {new' : SegmentFile} (hmap : new'.mapping = new.mapping) (hbit : new'.bitmap = new.bitmap)
    (hfresh : ∀ f ∈ disk, f.info ≠ new'.info) (hf : Files disk pool comp)
    (hc : Claims pool nextUid comp) :
    Carried (new' :: disk) pool (Function.update comp t (.published olds new')) pend := by
  have hmem : ∀ p ∈ pool, new'.info ≠ p.info := by
    intro p hp he
    obtain ⟨f, hfd, hfi, -⟩ := hf.member p hp
    exact hfresh f hfd (hfi.trans he.symm)
  have hold : ∀ t', ∀ o ∈ (comp t').olds, new'.info ≠ o.info := by
    intro t' o ho
    obtain ⟨p, hp, rfl⟩ := hc.exists_member ho
    exact hmem p hp
  have hmasks : new'.Masks = new.Masks := by
    funext r
    unfold SegmentFile.Masks
    rw [hmap, hbit]
  have hnew := h.new t new (by rw [ht]; rfl)
  have hold' := h.old t new (by rw [ht]; rfl)
  have holdt := hold t
  rw [ht] at hnew hold' holdt
  constructor
  case member =>
    intro p hp r hr
    rw [Disk.masks_cons_of_ne (hmem p hp)] at hr
    exact h.member p hp r hr
  case rows =>
    intro f hfd r hr
    rcases List.mem_cons.mp hfd with rfl | hfd
    · rw [hmap] at hr
      obtain ⟨g, hg, hgr⟩ := h.newRows t new (by rw [ht]; rfl) r hr
      exact h.rows g hg r hgr
    · exact h.rows f hfd r hr
  case new =>
    intro t' new''
    rw [Function.update_apply]
    split
    · rintro ⟨⟩ r hr
      rw [hmasks]
      refine hnew r fun o ho => ?_
      have := hr o ho
      rwa [Disk.masks_cons_of_ne (holdt o ho)] at this
    · intro ht' r hr
      refine h.new t' new'' ht' r fun o ho => ?_
      have := hr o ho
      rwa [Disk.masks_cons_of_ne (hold t' o ho)] at this
  case old =>
    intro t' new''
    rw [Function.update_apply]
    split
    · rintro ⟨⟩ r hr o ho
      rw [hmasks] at hr
      rw [Disk.masks_cons_of_ne (holdt o ho)]
      exact hold' r hr o ho
    · intro ht' r hr o ho
      rw [Disk.masks_cons_of_ne (hold t' o ho)]
      exact h.old t' new'' ht' r hr o ho
  case onDisk =>
    intro t' new''
    rw [Function.update_apply]
    split
    · rintro ⟨⟩ r hr
      exact Or.inl (hr new' List.mem_cons_self rfl)
    · intro ht' r hr
      refine h.onDisk t' new'' ht' r fun f hfd hfi => ?_
      exact hr f (List.mem_cons_of_mem _ hfd) hfi
  case newRows =>
    intro t' new''
    rw [Function.update_apply]
    split
    · rintro ⟨⟩ r hr
      exact ⟨new', List.mem_cons_self, hr⟩
    · intro ht' r hr
      obtain ⟨f, hfd, hfr⟩ := h.newRows t' new'' ht' r hr
      exact ⟨f, List.mem_cons_of_mem _ hfd, hfr⟩

theorem install (h : Carried disk pool comp pend) (ht : comp t = .published olds new)
    (hf : Files disk pool comp) (hc : Claims pool nextUid comp) :
    Carried disk (replace (uids olds) ⟨nextUid, new, false⟩ pool)
      (Function.update comp t (.installed olds)) pend := by
  have hd : (comp t).onDisk? = some new := by rw [ht]; rfl
  have hbase : Carried disk pool (Function.update comp t (.installed olds)) pend := h.same rfl
  have hh := hf.hull_of_onDisk hd
  obtain ⟨a, ps, c, rfl, hps, he, hrep, hout⟩ := hc.exists_run rfl hh.ne_nil ⟨nextUid, new, false⟩
  rw [ht] at hrep he
  have hrep : replace (uids olds) ⟨nextUid, new, false⟩ (a ++ ps ++ c) =
      a ++ ⟨nextUid, new, false⟩ :: c := hrep
  rw [hrep]
  constructor
  case member =>
    intro p hp r hr
    rcases List.mem_append.mp hp with hp | hp
    · exact h.member p (List.mem_append_left _ (List.mem_append_left _ hp)) r hr
    · rcases List.mem_cons.mp hp with rfl | hp
      · exact h.onDisk t new hd r hr
      · exact h.member p (List.mem_append_right _ hp) r hr
  case rows =>
    intro f hfd r hr
    obtain ⟨p, hp, h₁, h₂⟩ := h.rows f hfd r hr
    rcases hc.hull_cases rfl hh hp with ⟨-, hw⟩ | ⟨hno, -⟩
    · exact ⟨⟨nextUid, new, false⟩, by simp, hw.1.trans h₁, h₂.trans hw.2⟩
    · refine ⟨p, ?_, h₁, h₂⟩
      have hnp : p ∉ ps := by
        intro hp'
        refine hno ?_
        rw [ht]
        exact mem_uids.mpr ⟨p.ref, he ▸ List.mem_map_of_mem hp', rfl⟩
      simp only [List.mem_append, List.mem_cons] at hp ⊢
      tauto
  case new => exact hbase.new
  case old => exact hbase.old
  case onDisk => exact hbase.onDisk
  case newRows => exact hbase.newRows

/-- Members change in what is not on disk, and keep their masks. -/
theorem map (h : Carried disk pool comp pend) {g : PoolSegment → PoolSegment}
    (hi : ∀ p, (g p).info = p.info) (hm : ∀ p r, p.file.Masks r → (g p).file.Masks r) :
    Carried disk (pool.map g) comp pend := by
  constructor
  case member =>
    intro q hq r hr
    obtain ⟨p, hp, rfl⟩ := List.mem_map.mp hq
    rw [hi] at hr ⊢
    exact (h.member p hp r hr).imp_left (hm p r)
  case rows =>
    intro f hfd r hr
    obtain ⟨p, hp, h₁, h₂⟩ := h.rows f hfd r hr
    exact ⟨g p, List.mem_map_of_mem hp, by rwa [hi], by rwa [hi]⟩
  case new => exact h.new
  case old => exact h.old
  case onDisk => exact h.onDisk
  case newRows => exact h.newRows

/-- The bitmap vacuum writes masks the rows it has found, and those are the ones pending. -/
theorem write {i : SegmentFileInfo} {bitmap : ℕ → Bool} {n : ℕ}
    (h : Carried disk pool comp fun _ _ => False)
    (hb : ∀ f ∈ disk, f.info = i → ∀ k, f.bitmap k = true → bitmap k = true)
    (hp : ∀ r, (disk.writeBitmap i bitmap n).Masks i r → disk.Masks i r ∨ pend i r) :
    Carried (disk.writeBitmap i bitmap n) pool comp pend := by
  have key : ∀ j r, (disk.writeBitmap i bitmap n).Masks j r → disk.Masks j r ∨ pend j r := by
    intro j r hm
    rcases eq_or_ne i j with rfl | hne
    · exact hp r hm
    · exact Or.inl ((Disk.masks_writeBitmap_of_ne hne).mp hm)
  have hrow : ∀ r, (∃ f ∈ disk, r ∈ f.mapping) →
      ∃ f ∈ disk.writeBitmap i bitmap n, r ∈ f.mapping := by
    rintro r ⟨f, hfd, hr⟩
    refine ⟨_, Disk.mem_writeBitmap.mpr ⟨f, hfd, rfl⟩, ?_⟩
    split
    · exact hr
    · exact hr
  constructor
  case member =>
    intro p hpp r hr
    rcases key _ r hr with hr | hr
    · exact (h.member p hpp r hr).imp_right False.elim
    · exact Or.inr hr
  case rows =>
    intro g hg r hr
    obtain ⟨f, hfd, rfl⟩ := Disk.mem_writeBitmap.mp hg
    refine h.rows f hfd r ?_
    split at hr
    · exact hr
    · exact hr
  case new =>
    intro t new ht r hr
    by_cases hall : ∀ o ∈ (comp t).olds, disk.Masks o.info r
    · refine (h.new t new ht r hall).imp_right ?_
      rintro ⟨-, -, ⟨⟩⟩
    · push Not at hall
      obtain ⟨o, ho, hno⟩ := hall
      exact Or.inr ⟨o, ho, (key _ r (hr o ho)).resolve_left hno⟩
  case old =>
    intro t new ht r hr o ho
    exact (h.old t new ht r hr o ho).writeBitmap hb
  case onDisk =>
    intro t new ht r hr
    rcases key _ r hr with hr | hr
    · exact (h.onDisk t new ht r hr).imp_right False.elim
    · exact Or.inr hr
  case newRows => exact fun t new ht r hr => hrow r (h.newRows t new ht r hr)

/-- Nothing is pending any more for the files in use. -/
theorem settle {i : SegmentFileInfo} (h : Carried disk pool comp pend)
    (hi : ∀ j r, pend j r → j = i)
    (hp : ∀ p ∈ pool, p.info = i → ∀ r, disk.Masks i r → p.file.Masks r)
    (hn : ∀ t new, (comp t).new? = some new → ∀ o ∈ (comp t).olds, o.info ≠ i)
    (hd : ∀ t new, (comp t).onDisk? = some new → new.info ≠ i) :
    Carried disk pool comp pend' := by
  constructor
  case member =>
    intro p hpp r hr
    rcases h.member p hpp r hr with hm | hm
    · exact Or.inl hm
    · have he := hi _ r hm
      exact Or.inl (hp p hpp he r (he ▸ hr))
  case rows => exact h.rows
  case new =>
    intro t new ht r hr
    rcases h.new t new ht r hr with hm | ⟨o, ho, hm⟩
    · exact Or.inl hm
    · exact absurd (hi _ r hm) (hn t new ht o ho)
  case old => exact h.old
  case onDisk =>
    intro t new ht r hr
    rcases h.onDisk t new ht r hr with hm | hm
    · exact Or.inl hm
    · exact absurd (hi _ r hm) (hd t new ht)
  case newRows => exact h.newRows

end Carried

end OnDisk

end VectorLsm
