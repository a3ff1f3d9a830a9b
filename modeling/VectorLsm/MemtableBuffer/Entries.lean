import VectorLsm.MemtableBuffer.Books

/-! # Entries in the books

The steps that write the status array or the array of flushed memtables: a rotation that registers
its new memtable, a flush that records its sid, an insert that releases a batch.
-/

namespace VectorLsm.MemtableBuffer

open Tally State

variable {V : Type*} {s s' : State V} {t n : ℕ} {x y : Task V} {idx idx' d : LSMIndex} {r : Row V}
  {g : SlotIdx} {sid : SegmentId}

namespace Ledger

/-- What a step writes in the books of its own index stays away from those of the others. -/
theorem entry (hl : Ledger s) (hi : Inv s) (h : Local s s' t n x y idx idx')
    (hid : ∀ g, (s'.mt g).memtableId = (s.mt g).memtableId ∨ g ∈ x.owns) (hc : Claims s')
    (hb : Books s' n idx') : Ledger s' where
  claims := hc
  books m d hm := by
    rcases h.index_iff.mp hm with ⟨rfl, rfl⟩ | ⟨hne, hm⟩
    · exact hb
    · exact (hl.books m d hm).still hl.claims (h.still_of_ne hi hne hid) (SameBooks.refl d)

/-- An insert that owns nothing writes the status array or the flags of a release. -/
theorem releaseEntry (hl : Ledger s) (hi : Inv s) {pc pc' : InsertPc}
    (h : Local s s' t n (.insert n r pc) (.insert n r pc') idx idx') (hmt : s'.slots = s.slots)
    (hpc : pc.named = []) (hpc' : pc'.named = []) (howns : idx'.owns = idx.owns)
    (hqueue : idx'.memtableIdxs = idx.memtableIdxs) (hflushed : idx'.flushed = idx.flushed)
    (hnext : idx'.nextSegmentId = idx.nextSegmentId) (hsids : idx'.statusSids ⊆ idx.statusSids)
    (hnodup : idx'.statusSids.Nodup)
    (hreleased : ∀ sid ∈ idx'.released, sid ∈ idx.released ∨ sid ∉ idx'.statusSids)
    (hbalanced : ∀ sid, ((Task.insert n r pc').batch n).count sid +
      idx'.flushedNotReleased.count sid + idx'.released.count sid =
      ((Task.insert n r pc).batch n).count sid + idx.flushedNotReleased.count sid +
        idx.released.count sid)
    (hreleasing : pc'.releases.toNat + idx.releasingInProgress.toNat =
      pc.releases.toNat + idx'.releasingInProgress.toNat)
    (hshort : idx'.flushedNotReleased.length ≤ memtableNum) : Ledger s' := by
  have hb := hl.books n idx h.index
  have hsame : ∀ g, s'.mt g = s.mt g := fun g => by simp only [State.mt, hmt]
  have hlives : ∀ g, Lives s' n g ↔ Lives s n g := by
    intro g
    rw [h.lives_after, h.lives_before, howns]
    simp [Task.named, hpc, hpc']
  have hflush : ∀ (u : ℕ) pc'', s'.tasks[u]? = some (.flush n pc'') ↔
      s.tasks[u]? = some (.flush n pc'') := by
    intro u pc''
    rw [h.task_iff]
    by_cases hut : u = t
    · subst hut
      simp [h.task]
    · simp [hut]
  refine hl.entry hi h (fun g => Or.inl (by rw [hsame])) ?_ ?_
  · exact h.claims hl.claims (fun g => le_rfl) (fun g => Or.inl (by rw [hsame])) fun g hg =>
      Or.inl (hqueue ▸ hg)
  constructor
  case accounted =>
    intro sid hsid
    refine (hb.accounted sid (hsids hsid)).imp ?_ ?_
    · rintro ⟨g, hg, rfl⟩
      exact ⟨g, (hlives g).mpr hg, by rw [hsame]⟩
    · rintro ⟨hf, hr⟩
      exact ⟨hflushed ▸ hf, fun hr' => (hreleased sid hr').elim hr fun hno => hno hsid⟩
  case balanced =>
    intro sid
    have := hb.balanced sid
    have := hbalanced sid
    have := h.pending sid
    rw [hflushed]
    omega
  case once => exact hflushed ▸ hb.once
  case releasing =>
    have hsum := h.tally_eq (Task.releases n)
    have hold := hb.releasing
    cases hp : pc.releases <;> cases hp' : pc'.releases <;>
      cases hf : idx.releasingInProgress <;> cases hf' : idx'.releasingInProgress <;>
      simp_all [Task.releases]
  case short => exact hshort
  case nodup => exact hnodup
  case gone =>
    intro sid hsid hmem
    rcases hreleased sid hsid with hr | hno
    · exact hb.gone sid hr (hsids hmem)
    · exact hno hmem
  case below =>
    intro sid hsid
    rw [hnext]
    exact hb.below sid (hflushed ▸ hsid)
  case lives =>
    intro g hg
    rw [hsame, hnext]
    exact hb.lives g ((hlives g).mp hg)
  case distinct =>
    intro g g' hg hg' heq
    rw [hsame, hsame] at heq
    exact hb.distinct g g' ((hlives g).mp hg) ((hlives g').mp hg') heq
  case tracked =>
    intro g hg hid
    rw [hsame, hflushed] at hid
    obtain ⟨u, hu⟩ := hb.tracked g ((hlives g).mp hg) hid
    exact ⟨u, (hflush u _).mpr hu⟩
  case recorded =>
    intro u g hu
    rw [hsame, hflushed]
    exact hb.recorded u g ((hflush u _).mp hu)
  case announced =>
    intro u r' cur new hu hmem
    rw [hsame] at hmem
    rcases h.task_iff.mp hu with ⟨-, hy⟩ | ⟨-, hu⟩
    · cases hy
      simp [InsertPc.named] at hpc'
    · exact hb.announced u r' cur new hu (hsids hmem)

/-- `releasing_in_progress` is taken. -/
theorem claimRelease (hl : Ledger s) (hi : Inv s)
    (ht : s.tasks[t]? = some (.insert n r .claim)) (hn : s.indexes[n]? = some idx)
    (hflag : idx.releasingInProgress = false) :
    Ledger ((s.setIndex n { idx with releasingInProgress := true }).setTask t
      (.insert n r .lock)) := by
  have hb := hl.books n idx hn
  have h : Local s ((s.setIndex n { idx with releasingInProgress := true }).setTask t
      (.insert n r .lock)) t n (.insert n r .claim) (.insert n r .lock) idx
      { idx with releasingInProgress := true } :=
    ⟨ht, hn, rfl, rfl, Or.inr rfl, Or.inr rfl⟩
  refine hl.releaseEntry hi h rfl rfl rfl rfl rfl rfl rfl (List.Subset.refl _) hb.nodup
    (fun _ hr => Or.inl hr) (fun _ => rfl) ?_ hb.short
  simp [InsertPc.releases, hflag]

/-- `releasing_in_progress` is given back. -/
theorem clearRelease (hl : Ledger s) (hi : Inv s)
    (ht : s.tasks[t]? = some (.insert n r .clear)) (hn : s.indexes[n]? = some idx) :
    Ledger ((s.setIndex n { idx with releasingInProgress := false }).setTask t
      (.insert n r .loop)) := by
  have hb := hl.books n idx hn
  have h : Local s ((s.setIndex n { idx with releasingInProgress := false }).setTask t
      (.insert n r .loop)) t n (.insert n r .clear) (.insert n r .loop) idx
      { idx with releasingInProgress := false } :=
    ⟨ht, hn, rfl, rfl, Or.inr rfl, Or.inr rfl⟩
  have hflag : idx.releasingInProgress = true := by
    have hle := le_tally (Task.releases n) ht
    have hone := hb.releasing
    by_contra hno
    simp [Task.releases, InsertPc.releases] at hle
    simp only [hno] at hone
    simp at hone
    omega
  refine hl.releaseEntry hi h rfl rfl rfl rfl rfl rfl rfl (List.Subset.refl _) hb.nodup
    (fun _ hr => Or.inl hr) (fun _ => rfl) ?_ hb.short
  simp [InsertPc.releases, hflag]

/-- The count is exchanged for zero: the whole array is the batch. -/
theorem takeBatch (hl : Ledger s) (hi : Inv s)
    (ht : s.tasks[t]? = some (.insert n r .lock)) (hn : s.indexes[n]? = some idx) :
    Ledger ((s.setIndex n { idx with releaseLocked := true, flushedNotReleased := [] }).setTask t
      (.insert n r (.release (idx.flushedNotReleased.take memtableNum)))) := by
  have hb := hl.books n idx hn
  have h : Local s ((s.setIndex n { idx with
      releaseLocked := true, flushedNotReleased := [] }).setTask t
        (.insert n r (.release (idx.flushedNotReleased.take memtableNum)))) t n
      (.insert n r .lock) (.insert n r (.release (idx.flushedNotReleased.take memtableNum))) idx
      { idx with releaseLocked := true, flushedNotReleased := [] } :=
    ⟨ht, hn, rfl, rfl, Or.inr rfl, Or.inr rfl⟩
  refine hl.releaseEntry hi h rfl rfl rfl rfl rfl rfl rfl (List.Subset.refl _) hb.nodup
    (fun _ hr => Or.inl hr) (fun sid => ?_) rfl (Nat.zero_le _)
  simp [Task.batch, List.take_of_length_le hb.short]

/-- The lock is given back with the batch at its end. -/
theorem unlockRelease (hl : Ledger s) (hi : Inv s)
    (ht : s.tasks[t]? = some (.insert n r (.release []))) (hn : s.indexes[n]? = some idx) :
    Ledger ((s.setIndex n { idx with releaseLocked := false }).setTask t
      (.insert n r .clear)) := by
  have hb := hl.books n idx hn
  have h : Local s ((s.setIndex n { idx with releaseLocked := false }).setTask t
      (.insert n r .clear)) t n (.insert n r (.release [])) (.insert n r .clear) idx
      { idx with releaseLocked := false } :=
    ⟨ht, hn, rfl, rfl, Or.inr rfl, Or.inr rfl⟩
  refine hl.releaseEntry hi h rfl rfl rfl rfl rfl rfl rfl (List.Subset.refl _) hb.nodup
    (fun _ hr => Or.inl hr) (fun sid => ?_) rfl hb.short
  simp [Task.batch]

/-- A sid of the batch is released. -/
theorem releaseOne (hl : Ledger s) (hi : Inv s) {batch : List SegmentId}
    (ht : s.tasks[t]? = some (.insert n r (.release (sid :: batch))))
    (hn : s.indexes[n]? = some idx) :
    Ledger ((s.setIndex n { idx with
      statusSids := idx.statusSids.erase sid, released := sid :: idx.released }).setTask t
        (.insert n r (.release batch))) := by
  have hb := hl.books n idx hn
  have h : Local s ((s.setIndex n { idx with
      statusSids := idx.statusSids.erase sid, released := sid :: idx.released }).setTask t
        (.insert n r (.release batch))) t n (.insert n r (.release (sid :: batch)))
      (.insert n r (.release batch)) idx
      { idx with statusSids := idx.statusSids.erase sid, released := sid :: idx.released } :=
    ⟨ht, hn, rfl, rfl, Or.inr rfl, Or.inr rfl⟩
  refine hl.releaseEntry hi h rfl rfl rfl rfl rfl rfl rfl List.erase_subset
    (hb.nodup.erase sid) (fun sid' hr => ?_) (fun sid' => ?_) rfl hb.short
  · rcases List.mem_cons.mp hr with rfl | hr
    · exact Or.inr hb.nodup.not_mem_erase
    · exact Or.inl hr
  · simp only [Task.batch, if_true, List.count_cons]
    omega

/-- A slot in the hands of a call is claimed by no flush. -/
theorem unclaimed (hl : Ledger s) (hi : Inv s) (ht : s.tasks[t]? = some x) (hg : g ∈ x.owns) :
    tally (Task.claims g) s.tasks = 0 := by
  by_contra hne
  obtain ⟨u, z, hu, hz⟩ := exists_of_tally_pos _ (Nat.pos_of_ne_zero hne)
  cases z with
  | flush m pc =>
      obtain ⟨d, hd, hq⟩ := hl.claims.queued u m pc g hu hz
      exact (hi.not_owned ht hg).1 m d hd (by simp [LSMIndex.owns, hq])
  | _ => exact absurd hz (lt_irrefl 0)

/-- The new memtable of a rotation gets a sid that no book knows. -/
theorem register (hl : Ledger s) (hi : Inv s) {cur : Option SlotIdx} {new : SlotIdx}
    (ht : s.tasks[t]? = some (.insert n r (.register cur new))) (hn : s.indexes[n]? = some idx)
    {mt : ConcurrentMemTable V} (hid : mt.memtableId = idx.nextSegmentId) :
    Ledger (((s.setMt new mt).setIndex n
      { idx with nextSegmentId := idx.nextSegmentId + 1 }).setTask t
        (.insert n r (.announce cur new))) := by
  have hb := hl.books n idx hn
  set s' := ((s.setMt new mt).setIndex n
      { idx with nextSegmentId := idx.nextSegmentId + 1 }).setTask t
        (.insert n r (.announce cur new)) with hs'
  have h : Local s s' t n (.insert n r (.register cur new)) (.insert n r (.announce cur new)) idx
      { idx with nextSegmentId := idx.nextSegmentId + 1 } :=
    ⟨ht, hn, rfl, rfl, Or.inr rfl, Or.inr rfl⟩
  have hnew : new ∈ (Task.insert n r (.register cur new)).owns := by
    simp [Task.owns, InsertPc.owns]
  have hmt : ∀ g, s'.mt g = if g = new then mt else s.mt g := fun g => by simp [hs']
  have hlives : ∀ g, Lives s' n g → g = new ∨ Lives s n g := by
    intro g hg
    rcases (h.lives_after g).mp hg with hg | hg | hg
    · exact Or.inr ((h.lives_before g).mpr (Or.inl hg))
    · exact Or.inr ((h.lives_before g).mpr (Or.inr (Or.inl hg)))
    · rcases List.mem_cons.mp hg with rfl | hg
      · exact Or.inl rfl
      · exact Or.inr ((h.lives_before g).mpr (Or.inr (Or.inr hg)))
  have hother : ∀ g, Lives s n g → g ≠ new ∧ Lives s' n g := by
    intro g hg
    obtain ⟨hidx, hhand⟩ := hi.not_owned ht hnew
    rcases (h.lives_before g).mp hg with ⟨u, z, hut, hu, hz, hgz⟩ | hgi | hgx
    · exact ⟨fun heq => hhand u z hu hut (heq ▸ Task.named_subset hgz),
        (h.lives_after g).mpr (Or.inl ⟨u, z, hut, hu, hz, hgz⟩)⟩
    · exact ⟨fun heq => hidx n idx hn (heq ▸ hgi),
        (h.lives_after g).mpr (Or.inr (Or.inl hgi))⟩
    · refine ⟨?_, (h.lives_after g).mpr (Or.inr (Or.inr (List.mem_cons_of_mem _ hgx)))⟩
      rintro rfl
      have hle := le_tally (fun x : Task V => x.owns.count g) ht
      have htwo : (Task.insert n r (.register cur g)).owns.count g = cur.toList.count g + 1 := by
        simp [Task.owns, InsertPc.owns]
      have hcur : 0 < cur.toList.count g := List.count_pos_iff.mpr hgx
      have howned := hi.owned g
      simp only [State.owners] at howned
      omega
  have hflush : ∀ (u : ℕ) pc, s'.tasks[u]? = some (.flush n pc) ↔
      s.tasks[u]? = some (.flush n pc) := by
    intro u pc
    rw [h.task_iff]
    by_cases hut : u = t
    · subst hut
      simp [ht]
    · simp [hut]
  refine hl.entry hi h (fun g => ?_) ?_ ?_
  · by_cases hg : g = new
    · exact Or.inr (hg ▸ hnew)
    · exact Or.inl (by rw [hmt, if_neg hg])
  · refine h.claims hl.claims (fun g => le_rfl) (fun g => ?_) fun g hg => Or.inl hg
    by_cases hg : g = new
    · exact Or.inr (hg ▸ hl.unclaimed hi ht hnew)
    · exact Or.inl (by rw [hmt, if_neg hg])
  have hsid : ∀ sid ∈ idx.statusSids, sid < idx.nextSegmentId := by
    intro sid hsid
    rcases hb.accounted sid hsid with ⟨g, hg, rfl⟩ | ⟨hf, -⟩
    · exact hb.lives g hg
    · exact hb.below sid hf
  constructor
  case accounted =>
    intro sid hsid
    refine (hb.accounted sid hsid).imp_left ?_
    rintro ⟨g, hg, rfl⟩
    obtain ⟨hne, hg⟩ := hother g hg
    exact ⟨g, hg, by rw [hmt, if_neg hne]⟩
  case balanced =>
    intro sid
    rw [h.pending_eq rfl rfl]
    exact hb.balanced sid
  case once => exact hb.once
  case releasing =>
    have hsum := h.tally_eq (Task.releases n)
    simpa [Task.releases, InsertPc.releases, hb.releasing] using hsum
  case short => exact hb.short
  case nodup => exact hb.nodup
  case gone => exact hb.gone
  case below => exact fun sid hsid => (hb.below sid hsid).trans (Nat.lt_succ_self _)
  case lives =>
    intro g hg
    rw [hmt]
    split
    next => exact hid ▸ Nat.lt_succ_self _
    next hne =>
      exact (hb.lives g ((hlives g hg).resolve_left hne)).trans (Nat.lt_succ_self _)
  case distinct =>
    have hfresh : ∀ g, Lives s n g → (s.mt g).memtableId ≠ mt.memtableId := by
      intro g hg
      rw [hid]
      exact (hb.lives g hg).ne
    intro g g' hg hg' heq
    rw [hmt, hmt] at heq
    split at heq <;> split at heq
    next hg hg' => rw [hg, hg']
    next hne => exact absurd heq.symm (hfresh g' ((hlives g' hg').resolve_left hne))
    next hne _ => exact absurd heq (hfresh g ((hlives g hg).resolve_left hne))
    next hne hne' =>
      exact hb.distinct g g' ((hlives g hg).resolve_left hne)
        ((hlives g' hg').resolve_left hne') heq
  case tracked =>
    intro g hg hf
    rw [hmt] at hf
    split at hf
    next =>
      rw [hid] at hf
      exact absurd (hb.below _ hf) (lt_irrefl _)
    next hne =>
      obtain ⟨u, hu⟩ := hb.tracked g ((hlives g hg).resolve_left hne) hf
      exact ⟨u, (hflush u _).mpr hu⟩
  case recorded =>
    intro u g hu
    have hu := (hflush u _).mp hu
    have hne : g ≠ new := (hother g (hl.claims.lives hu (by simp [FlushPc.claims]))).1
    rw [hmt, if_neg hne]
    exact hb.recorded u g hu
  case announced =>
    intro u r' cur' new' hu
    rcases h.task_iff.mp hu with ⟨-, hy⟩ | ⟨-, hu⟩
    · cases hy
      rw [hmt, if_pos rfl, hid]
      exact fun hmem => absurd (hsid _ hmem) (lt_irrefl _)
    · have hlive : Lives s n new' :=
        Or.inr ⟨u, _, hu, rfl, by simp [Task.named, InsertPc.named]⟩
      rw [hmt, if_neg (hother new' hlive).1]
      exact hb.announced u r' cur' new' hu

/-- The sid of the new memtable of a rotation enters the status array. -/
theorem announce (hl : Ledger s) (hi : Inv s) {cur : Option SlotIdx} {new : SlotIdx}
    (ht : s.tasks[t]? = some (.insert n r (.announce cur new))) (hn : s.indexes[n]? = some idx)
    {pc : InsertPc} (hpc : pc = match cur with
      | some cur => .enqueue cur new
      | none => .install new) :
    Ledger ((s.setIndex n { idx with
      statusSids := idx.statusSids ++ [(s.mt new).memtableId] }).setTask t (.insert n r pc)) := by
  have hb := hl.books n idx hn
  set s' := (s.setIndex n { idx with
      statusSids := idx.statusSids ++ [(s.mt new).memtableId] }).setTask t (.insert n r pc)
  have h : Local s s' t n (.insert n r (.announce cur new)) (.insert n r pc) idx
      { idx with statusSids := idx.statusSids ++ [(s.mt new).memtableId] } :=
    ⟨ht, hn, rfl, rfl, Or.inr rfl, Or.inr rfl⟩
  have hnamed : pc.named = (InsertPc.announce cur new).named := by cases cur <;> simp [hpc] <;> rfl
  have hbatch : (Task.insert n r pc).batch n = [] := by cases cur <;> simp [hpc, Task.batch]
  have hreleases : pc.releases = false := by cases cur <;> simp [hpc] <;> rfl
  have hlives : ∀ g, Lives s' n g ↔ Lives s n g := by
    intro g
    rw [h.lives_after, h.lives_before]
    simp [Task.named, hnamed, LSMIndex.owns]
  have hnew : Lives s n new := Or.inr ⟨t, _, ht, rfl, by simp [Task.named, InsertPc.named]⟩
  have hflush : ∀ (u : ℕ) pc', s'.tasks[u]? = some (.flush n pc') ↔
      s.tasks[u]? = some (.flush n pc') := by
    intro u pc'
    rw [h.task_iff]
    by_cases hut : u = t
    · subst hut
      simp [ht]
    · simp [hut]
  have hnot := hb.announced t r cur new ht
  refine hl.entry hi h (fun g => Or.inl rfl) ?_ ?_
  · exact h.claims hl.claims (fun g => le_rfl) (fun g => Or.inl rfl) fun g hg => Or.inl hg
  constructor
  case accounted =>
    intro sid hsid
    rcases List.mem_append.mp hsid with hsid | hsid
    · refine (hb.accounted sid hsid).imp_left ?_
      rintro ⟨g, hg, rfl⟩
      exact ⟨g, (hlives g).mpr hg, rfl⟩
    · obtain rfl : sid = (s.mt new).memtableId := by simpa using hsid
      exact Or.inl ⟨new, (hlives new).mpr hnew, rfl⟩
  case balanced =>
    intro sid
    rw [h.pending_eq hbatch rfl]
    exact hb.balanced sid
  case once => exact hb.once
  case releasing =>
    have hsum := h.tally_eq (Task.releases n)
    simp only [Task.releases, hreleases] at hsum
    simpa [InsertPc.releases, hb.releasing] using hsum
  case short => exact hb.short
  case nodup =>
    refine List.nodup_append.mpr ⟨hb.nodup, List.nodup_singleton _, ?_⟩
    rintro a ha b hb' rfl
    obtain rfl : a = (s.mt new).memtableId := by simpa using hb'
    exact hnot ha
  case gone =>
    intro sid hsid hmem
    rcases List.mem_append.mp hmem with hmem | hmem
    · exact hb.gone sid hsid hmem
    · obtain rfl : sid = (s.mt new).memtableId := by simpa using hmem
      have hflushed : (s.mt new).memtableId ∈ idx.flushed := by
        have hreleased : (s.mt new).memtableId ∈ idx.released := hsid
        have := hb.balanced (s.mt new).memtableId
        have := List.count_pos_iff.mpr hreleased
        exact List.count_pos_iff.mp (by omega)
      obtain ⟨u, hu⟩ := hb.tracked new hnew hflushed
      have hzero := hl.unclaimed hi ht (g := new) (by simp [Task.owns, InsertPc.owns])
      have hle := le_tally (Task.claims new) hu
      have hone : Task.claims new (.flush n (.tracked new) : Task V) = 1 := if_pos rfl
      omega
  case below => exact hb.below
  case lives => exact fun g hg => hb.lives g ((hlives g).mp hg)
  case distinct =>
    exact fun g g' hg hg' heq => hb.distinct g g' ((hlives g).mp hg) ((hlives g').mp hg') heq
  case tracked =>
    intro g hg hf
    obtain ⟨u, hu⟩ := hb.tracked g ((hlives g).mp hg) hf
    exact ⟨u, (hflush u _).mpr hu⟩
  case recorded => exact fun u g hu => hb.recorded u g ((hflush u _).mp hu)
  case announced =>
    intro u r' cur' new' hu hmem
    rcases h.task_iff.mp hu with ⟨-, hy⟩ | ⟨hut, hu⟩
    · cases cur <;> simp [hpc] at hy
    · -- A second rotation of the index.
      have hle := add_le_tally (Task.rotates n) hu ht hut
      have hrot := hi.rotating n idx hn
      have hone : ∀ r cur new, Task.rotates n (.insert n r (.announce cur new) : Task V) = 1 := by
        simp [Task.rotates, InsertPc.rotating]
      rw [hone, hone] at hle
      split at hrot <;> omega

/-- A flush records its sid in an array that has room. -/
theorem record (hl : Ledger s) (hi : Inv s)
    (ht : s.tasks[t]? = some (.flush n (.registered g))) (hn : s.indexes[n]? = some idx)
    (hroom : idx.flushedNotReleased.length < memtableNum) :
    Ledger ((s.setIndex n { idx with
      flushedNotReleased := idx.flushedNotReleased ++ [(s.mt g).memtableId]
      flushed := (s.mt g).memtableId :: idx.flushed }).setTask t (.flush n (.tracked g))) := by
  have hb := hl.books n idx hn
  set idx' : LSMIndex := { idx with
      flushedNotReleased := idx.flushedNotReleased ++ [(s.mt g).memtableId]
      flushed := (s.mt g).memtableId :: idx.flushed } with hidx'
  set s' := (s.setIndex n idx').setTask t (.flush n (.tracked g))
  have h : Local s s' t n (.flush n (.registered g)) (.flush n (.tracked g)) idx idx' :=
    ⟨ht, hn, rfl, rfl, Or.inr rfl, Or.inr rfl⟩
  have hlives : ∀ g, Lives s' n g ↔ Lives s n g := by
    intro g
    rw [h.lives_after, h.lives_before]
    rfl
  have hlive : Lives s n g := hl.claims.lives ht (by simp [FlushPc.claims])
  have hnew : (s.mt g).memtableId ∉ idx.flushed := by
    intro hf
    obtain ⟨u, hu⟩ := hb.tracked g hlive hf
    have hut : u ≠ t := by
      rintro rfl
      simp [ht] at hu
    have hle := add_le_tally (Task.claims g) hu ht hut
    have hclaimed := hl.claims.claimed g
    have hone : Task.claims g (.flush n (.tracked g) : Task V) = 1 := if_pos rfl
    have hone' : Task.claims g (.flush n (.registered g) : Task V) = 1 := if_pos rfl
    split at hclaimed <;> omega
  have htask : s'.tasks[t]? = some (.flush n (.tracked g)) := h.task_iff.mpr (Or.inl ⟨rfl, rfl⟩)
  refine hl.entry hi h (fun g => Or.inl rfl) ?_ ?_
  · exact h.claims hl.claims (fun g => le_rfl) (fun g => Or.inl rfl) fun g hg => Or.inl hg
  constructor
  case accounted =>
    intro sid hsid
    refine (hb.accounted sid hsid).imp ?_ ?_
    · rintro ⟨g, hg, rfl⟩
      exact ⟨g, (hlives g).mpr hg, rfl⟩
    · rintro ⟨hf, hr⟩
      exact ⟨List.mem_cons_of_mem _ hf, hr⟩
  case balanced =>
    intro sid
    have hcons : idx'.flushed.count sid =
        idx.flushed.count sid + [(s.mt g).memtableId].count sid := by
      simp [hidx', List.count_cons]
    have hconcat : idx'.flushedNotReleased.count sid =
        idx.flushedNotReleased.count sid + [(s.mt g).memtableId].count sid := by
      simp [hidx', List.count_cons]
    have hreleased : idx'.released = idx.released := rfl
    have hbatch : ((Task.flush n (.registered g) : Task V).batch n).count sid =
        ((Task.flush n (.tracked g) : Task V).batch n).count sid := rfl
    have := hb.balanced sid
    have := h.pending sid
    rw [hreleased]
    omega
  case once => exact List.nodup_cons.mpr ⟨hnew, hb.once⟩
  case releasing =>
    have hsum := h.tally_eq (Task.releases n)
    exact hsum.trans hb.releasing
  case short =>
    simp only [hidx', List.length_append, List.length_singleton]
    omega
  case nodup => exact hb.nodup
  case gone => exact hb.gone
  case below =>
    intro sid hsid
    rcases List.mem_cons.mp hsid with rfl | hsid
    · exact hb.lives g hlive
    · exact hb.below sid hsid
  case lives => exact fun g hg => hb.lives g ((hlives g).mp hg)
  case distinct =>
    exact fun g g' hg hg' heq => hb.distinct g g' ((hlives g).mp hg) ((hlives g').mp hg') heq
  case tracked =>
    intro g' hg' hf
    rcases List.mem_cons.mp hf with heq | hf
    · obtain rfl : g' = g := hb.distinct g' g ((hlives g').mp hg') hlive heq
      exact ⟨t, htask⟩
    · obtain ⟨u, hu⟩ := hb.tracked g' ((hlives g').mp hg') hf
      refine ⟨u, h.task_iff.mpr (Or.inr ⟨?_, hu⟩)⟩
      rintro rfl
      simp [ht] at hu
  case recorded =>
    intro u g' hu
    rcases h.task_iff.mp hu with ⟨-, hy⟩ | ⟨-, hu⟩
    · cases hy
      exact List.mem_cons_self
    · exact List.mem_cons_of_mem _ (hb.recorded u g' hu)
  case announced =>
    intro u r cur new hu
    rcases h.task_iff.mp hu with ⟨-, hy⟩ | ⟨-, hu⟩
    · cases hy
    · exact hb.announced u r cur new hu

/-- A flush takes its memtable, whose sid is recorded, off the queue. -/
theorem unlink (hl : Ledger s) (hi : Inv s)
    (ht : s.tasks[t]? = some (.flush n (.tracked g))) (hn : s.indexes[n]? = some idx) :
    Ledger ((s.setIndex n { idx with memtableIdxs := idx.memtableIdxs.erase g }).setTask t
      (.flush n (.unlinked g))) := by
  have hb := hl.books n idx hn
  set idx' : LSMIndex := { idx with memtableIdxs := idx.memtableIdxs.erase g } with hidx'
  set s' := (s.setIndex n idx').setTask t (.flush n (.unlinked g))
  have h : Local s s' t n (.flush n (.tracked g)) (.flush n (.unlinked g)) idx idx' :=
    ⟨ht, hn, rfl, rfl, Or.inr rfl, Or.inr rfl⟩
  have hlives : ∀ g', Lives s' n g' → Lives s n g' := by
    intro g' hg'
    rw [h.lives_before]
    refine ((h.lives_after g').mp hg').imp_right (Or.imp_left fun hg' => ?_)
    simp only [LSMIndex.owns, List.mem_append, hidx'] at hg' ⊢
    exact hg'.imp_right List.mem_of_mem_erase
  have hkept : ∀ g', g' ≠ g → Lives s n g' → Lives s' n g' := by
    intro g' hne hg'
    rw [h.lives_after]
    refine ((h.lives_before g').mp hg').imp_right (Or.imp_left fun hg' => ?_)
    simp only [LSMIndex.owns, List.mem_append, hidx'] at hg' ⊢
    exact hg'.imp_right (List.mem_erase_of_ne hne).mpr
  have hgone : ¬ Lives s' n g := by
    intro hg
    obtain ⟨d, hd, hq⟩ := hl.claims.queued t n _ g ht (by simp [FlushPc.claims])
    obtain rfl : idx = d := Option.some.inj (hn.symm.trans hd)
    have hpos := List.count_pos_iff.mpr hq
    have howned := hi.index_owned hn g
    rcases (h.lives_after g).mp hg with ⟨u, z, -, hu, -, hz⟩ | hg | hg
    · have hle := le_tally (fun x : Task V => x.owns.count g) hu
      have := List.count_pos_iff.mpr (Task.named_subset hz)
      simp only [LSMIndex.owns, List.count_append] at howned
      omega
    · have := List.count_pos_iff.mpr hg
      simp only [LSMIndex.owns, List.count_append, hidx', List.count_erase_self] at howned this
      omega
    · simp [Task.named] at hg
  refine hl.entry hi h (fun g => Or.inl rfl) ?_ ?_
  · refine h.claims hl.claims (fun g => Nat.zero_le _) (fun g => Or.inl rfl) fun g' hg' => ?_
    by_cases hne : g' = g
    · subst hne
      exact Or.inr ⟨if_pos rfl, rfl⟩
    · exact Or.inl ((List.mem_erase_of_ne hne).mpr hg')
  constructor
  case accounted =>
    intro sid hsid
    rcases hb.accounted sid hsid with ⟨g', hg', rfl⟩ | hf
    · by_cases hne : g' = g
      · subst hne
        refine Or.inr ⟨hb.recorded t g' ht, fun hr => hb.gone _ hr hsid⟩
      · exact Or.inl ⟨g', hkept g' hne hg', rfl⟩
    · exact Or.inr hf
  case balanced =>
    intro sid
    rw [h.pending_eq rfl rfl]
    exact hb.balanced sid
  case once => exact hb.once
  case releasing =>
    have hsum := h.tally_eq (Task.releases n)
    exact hsum.trans hb.releasing
  case short => exact hb.short
  case nodup => exact hb.nodup
  case gone => exact hb.gone
  case below => exact hb.below
  case lives => exact fun g' hg' => hb.lives g' (hlives g' hg')
  case distinct =>
    exact fun a b ha hb' heq => hb.distinct a b (hlives a ha) (hlives b hb') heq
  case tracked =>
    intro g' hg' hf
    obtain ⟨u, hu⟩ := hb.tracked g' (hlives g' hg') hf
    refine ⟨u, h.task_iff.mpr (Or.inr ⟨?_, hu⟩)⟩
    rintro rfl
    obtain rfl : g = g' := by simpa [ht] using hu
    exact hgone hg'
  case recorded =>
    intro u g' hu
    rcases h.task_iff.mp hu with ⟨-, hy⟩ | ⟨-, hu⟩
    · cases hy
    · exact hb.recorded u g' hu
  case announced =>
    intro u r cur new hu
    rcases h.task_iff.mp hu with ⟨-, hy⟩ | ⟨-, hu⟩
    · cases hy
    · exact hb.announced u r cur new hu

/-- A flush claims a memtable of the queue that no flush has claimed. -/
theorem claim (hl : Ledger s) (hi : Inv s) (ht : s.tasks[t]? = some (.flush n .claim))
    (hn : s.indexes[n]? = some idx) (hg : g ∈ idx.memtableIdxs)
    (hflag : (s.mt g).flushClaimed = false) :
    Ledger ((s.setMt g (s.mt g).setFlushClaimed).setTask t (.flush n (.claimed g))) := by
  set s' := (s.setMt g (s.mt g).setFlushClaimed).setTask t (.flush n (.claimed g)) with hs'
  have h : Local s s' t n (.flush n .claim) (.flush n (.claimed g)) idx idx :=
    ⟨ht, hn, rfl, (set_self hn).symm, Or.inr rfl, Or.inr rfl⟩
  have hmt : ∀ g', s'.mt g' = if g' = g then (s.mt g).setFlushClaimed else s.mt g' := fun g' => by
    simp [hs']
  have hid : ∀ g', (s'.mt g').memtableId = (s.mt g').memtableId := by
    intro g'
    rw [hmt]
    split
    next heq => rw [heq]; rfl
    next => rfl
  have hstill : Still s s' n := by
    constructor
    case lives =>
      intro g'
      rw [h.lives_after, h.lives_before]
      rfl
    case names => exact fun g' _ => hid g'
    case batch =>
      intro sid
      have := h.tally_eq fun x => (x.batch n).count sid
      simpa [Task.batch] using this
    case releases =>
      have := h.tally_eq (Task.releases n)
      simpa [Task.releases] using this
    case tracked =>
      intro g'
      constructor
      · rintro ⟨u, hu⟩
        rcases h.task_iff.mp hu with ⟨-, hy⟩ | ⟨-, hu⟩
        · cases hy
        · exact ⟨u, hu⟩
      · rintro ⟨u, hu⟩
        refine ⟨u, h.task_iff.mpr (Or.inr ⟨?_, hu⟩)⟩
        rintro rfl
        simp [ht] at hu
    case announced =>
      intro u r cur new hu
      rcases h.task_iff.mp hu with ⟨-, hy⟩ | ⟨-, hu⟩
      · cases hy
      · exact ⟨u, hu⟩
  refine hl.entry hi h (fun g' => Or.inl (hid g')) ?_
    ((hl.books n idx hn).still hl.claims hstill (SameBooks.refl idx))
  constructor
  case claimed =>
    intro g'
    have hsum := h.tally_eq (Task.claims g')
    have hold := hl.claims.claimed g'
    rw [hmt]
    by_cases hne : g' = g
    · subst hne
      have hone : Task.claims g' (.flush n (.claimed g') : Task V) = 1 := if_pos rfl
      have hnone : Task.claims g' (.flush n .claim : Task V) = 0 := rfl
      rw [hflag] at hold
      simp only [if_true, ConcurrentMemTable.setFlushClaimed]
      simp at hold
      omega
    · have hnone : Task.claims g' (.flush n (.claimed g) : Task V) = 0 := if_neg (Ne.symm hne)
      have hnone' : Task.claims g' (.flush n .claim : Task V) = 0 := rfl
      rw [if_neg hne]
      omega
  case queued =>
    intro u m pc g' hu hpc
    have hindexes : s'.indexes = s.indexes := rfl
    rcases h.task_iff.mp hu with ⟨-, hy⟩ | ⟨-, hu⟩
    · cases hy
      have heq : g = g' := by
        by_contra hne
        simp [FlushPc.claims, hne] at hpc
      exact ⟨idx, hn, heq ▸ hg⟩
    · exact hl.claims.queued u m pc g' hu hpc

end Ledger

end VectorLsm.MemtableBuffer
