import VectorLsm.Segment.Tombstone

/-! # Masked rows across compaction

A row is masked in a file when each of its occurrences there is; a row that was dropped counts.
A rebuild and a merge keep the masks of the bitmaps they reload, and add none. Vacuum masks the
dead rows of a file and no other.
-/

namespace VectorLsm

open Compact

namespace SegmentFile

variable {f g : SegmentFile} {r : MappedRow} {version : ℕ}

def Masks (f : SegmentFile) (r : MappedRow) : Prop :=
  ∀ k, f.mapping[k]? = some r → f.bitmap k = true

/-- The offset table tiles the rows, and these belong to the range. -/
structure Sound (f : SegmentFile) : Prop where
  range : f.startSid ≤ f.endSid
  tiles : Tiles 0 f.offsets f.mapping.length
  rows : ∀ r ∈ f.mapping, f.startSid ≤ r.sid ∧ r.sid ≤ f.endSid

theorem Sound.setBitmap (h : f.Sound) (bitmap : ℕ → Bool) (n : ℕ) : (f.setBitmap bitmap n).Sound :=
  ⟨h.range, h.tiles, h.rows⟩

theorem masks_of_not_mem (h : r ∉ f.mapping) : f.Masks r := fun _ hk =>
  absurd (List.mem_of_getElem? hk) h

/-- Rows of other ids are not there to be masked. -/
theorem Sound.masks_of_sid (h : f.Sound) (hr : r.sid < f.startSid ∨ f.endSid < r.sid) :
    f.Masks r := by
  refine masks_of_not_mem fun hm => ?_
  have := h.rows r hm
  lia

section Rebuild

variable {snapshot fresh : ℕ → Bool}

theorem Sound.rebuild (h : f.Sound) : (f.rebuild snapshot fresh version).Sound where
  range := h.range
  tiles := rebuild_tiles h.tiles
  rows := by
    intro r hr
    rw [rebuild_mapping h.tiles] at hr
    exact h.rows r ((compact_sublist _ _).subset hr)

/-- The rebuilt file masks what the reloaded bitmap does. -/
theorem rebuild_masks (ht : Tiles 0 f.offsets f.mapping.length)
    (hsnap : ∀ i, snapshot i = true → fresh i = true) :
    (f.rebuild snapshot fresh version).Masks r ↔ ∀ k, f.mapping[k]? = some r → fresh k = true := by
  have hbits := (rebuild_copied snapshot fresh ht).bitmap
  constructor
  · intro h k hk
    cases hs : snapshot k with
    | true => exact hsnap k hs
    | false =>
        have hw : (f.rebuild snapshot fresh version).mapping[kept snapshot k]? = some r := by
          rw [rebuild_mapping ht, getElem?_compact _ hs, hk]
        obtain ⟨j, -, hj, hjk, hf⟩ := (hbits _).mp (h _ hw)
        exact kept_inj hj hs hjk ▸ hf
  · intro h w hw
    rw [rebuild_mapping ht] at hw
    obtain ⟨k, hs, hk, hkw⟩ := exists_of_getElem?_compact hw
    simp only [Nat.zero_add, kept_zero] at hs hkw
    exact (hbits w).mpr ⟨k, (List.getElem?_eq_some_iff.mp hk).1, hs, hkw, h k hk⟩

end Rebuild

section Merge

theorem Sound.join (hf : f.Sound) (hg : g.Sound) {start last : SegmentId}
    (hsl : start ≤ last)
    (hrf : start ≤ f.startSid ∧ f.endSid ≤ last) (hrg : start ≤ g.startSid ∧ g.endSid ≤ last) :
    (join f g start last version).Sound where
  range := hsl
  tiles := join_tiles hf.tiles hg.tiles
  rows := by
    intro r hr
    rcases List.mem_append.mp hr with hr | hr
    · exact ⟨hrf.1.trans (hf.rows r hr).1, (hf.rows r hr).2.trans hrf.2⟩
    · exact ⟨hrg.1.trans (hg.rows r hr).1, (hg.rows r hr).2.trans hrg.2⟩

theorem join_masks {start last : SegmentId} :
    (join f g start last version).Masks r ↔ f.Masks r ∧ g.Masks r := by
  unfold Masks SegmentFile.join
  dsimp only
  constructor
  · intro h
    constructor
    · intro k hk
      have hlt := (List.getElem?_eq_some_iff.mp hk).1
      have := h k (by rw [List.getElem?_append_left hlt, hk])
      rwa [if_pos hlt] at this
    · intro k hk
      have hlt := (List.getElem?_eq_some_iff.mp hk).1
      have := h (f.mapping.length + k)
        (by rw [List.getElem?_append_right (Nat.le_add_right _ _), Nat.add_sub_cancel_left, hk])
      rw [if_neg (by omega), Nat.add_sub_cancel_left] at this
      exact (Bool.and_eq_true_iff.mp this).2
  · rintro ⟨hf, hg⟩ k hk
    rcases Nat.lt_or_ge k f.mapping.length with hlt | hge
    · rw [if_pos hlt]
      exact hf k (by rwa [List.getElem?_append_left hlt] at hk)
    · rw [List.getElem?_append_right hge] at hk
      have hlt := (List.getElem?_eq_some_iff.mp hk).1
      rw [if_neg (by omega), hg _ hk, Bool.and_true, decide_eq_true_eq]
      omega

theorem Sound.merge (hf : f.Sound) (hg : g.Sound) (h : f.endSid < g.startSid) :
    (f.merge g version).Sound := by
  have h₁ := hf.range
  have h₂ := hg.range
  unfold SegmentFile.merge
  split
  · exact hf.join hg (by lia) ⟨le_rfl, by lia⟩ ⟨by lia, le_rfl⟩
  · exact hg.join hf (by lia) ⟨by lia, le_rfl⟩ ⟨le_rfl, by lia⟩

theorem merge_masks : (f.merge g version).Masks r ↔ f.Masks r ∧ g.Masks r := by
  unfold SegmentFile.merge
  split
  · exact join_masks
  · rw [join_masks, and_comm]

@[simp] theorem merge_startSid : (f.merge g version).startSid = f.startSid := by
  unfold SegmentFile.merge
  split <;> rfl

@[simp] theorem merge_endSid : (f.merge g version).endSid = g.endSid := by
  unfold SegmentFile.merge
  split <;> rfl

end Merge

section Vacuum

variable {callback : Tid → Bool} {s : SegmentVacuum}

/-- The rows vacuum finds: dead and not masked yet. -/
def newlyDead (f : SegmentFile) (callback : Tid → Bool) : List MappedRow :=
  markedRows (fun i r => !f.bitmap i && callback r.tid) 0 f.mapping

theorem mem_newlyDead : r ∈ f.newlyDead callback ↔
    ∃ k, f.mapping[k]? = some r ∧ f.bitmap k = false ∧ callback r.tid = true := by
  simp [newlyDead, mem_markedRows]

/-- What the loop has done once it has passed the rows below `i`. -/
structure Marked (f : SegmentFile) (callback : Tid → Bool) (i : ℕ) (s : SegmentVacuum) : Prop where
  bitmap : ∀ k, s.bitmap k = true ↔ f.bitmap k = true ∨
    k < i ∧ ∃ r, f.mapping[k]? = some r ∧ callback r.tid = true
  changed : s.changed = false → ∀ k < i, ∀ r, f.mapping[k]? = some r → callback r.tid = true →
    f.bitmap k = true

theorem Marked.init : Marked f callback 0 (.init f) :=
  ⟨fun k => by simp [SegmentVacuum.init], fun _ k hk => absurd hk (Nat.not_lt_zero k)⟩

theorem Marked.next {i : ℕ} {s' : SegmentVacuum} {row : MappedRow}
    (hrow : f.mapping[i]? = some row) (h : Marked f callback i s)
    (hs : s.next f callback i row = some s') : Marked f callback (i + 1) s' := by
  have hbit := h.bitmap i
  -- The bitmap after the turn, whichever of the two branches wrote it.
  have key : ∀ s', (s'.bitmap = Function.update s.bitmap i true ∧ s'.changed = true ∧
      callback row.tid = true ∨
      s' = s ∧ (s.bitmap i = true ∨ callback row.tid = false)) → Marked f callback (i + 1) s' := by
    rintro s' (⟨hb, hc, hd⟩ | ⟨rfl, hd⟩)
    · refine ⟨fun k => ?_, fun hf => by rw [hc] at hf; cases hf⟩
      rw [hb, Function.update_apply]
      split
      next hk =>
        subst hk
        exact iff_of_true rfl (Or.inr ⟨Nat.lt_succ_self k, row, hrow, hd⟩)
      next hk =>
        rw [h.bitmap k]
        have : k < i + 1 ↔ k < i := by omega
        rw [this]
    · refine ⟨fun k => ?_, fun hc k hk r hr hdr => ?_⟩
      · rw [h.bitmap k]
        rcases eq_or_ne k i with rfl | hne
        · have hno : ∀ r, f.mapping[k]? = some r → callback r.tid = true → f.bitmap k = true := by
            intro r hr hdr
            obtain rfl : row = r := Option.some.inj (hrow.symm.trans hr)
            rcases hd with hd | hd
            · simpa using hbit.mp hd
            · rw [hd] at hdr
              cases hdr
          constructor
          · rintro (hb | ⟨hlt, -⟩)
            · exact Or.inl hb
            · exact absurd hlt (lt_irrefl k)
          · rintro (hb | ⟨-, r, hr, hdr⟩)
            · exact Or.inl hb
            · exact Or.inl (hno r hr hdr)
        · have : k < i + 1 ↔ k < i := by omega
          rw [this]
      · rcases Nat.lt_succ_iff_lt_or_eq.mp hk with hk | rfl
        · exact h.changed hc k hk r hr hdr
        · obtain rfl : row = r := Option.some.inj (hrow.symm.trans hr)
          rcases hd with hd | hd
          · simpa using hbit.mp hd
          · rw [hd] at hdr
            cases hdr
  unfold SegmentVacuum.next at hs
  split at hs
  next hd =>
    obtain ⟨-, hd⟩ := Bool.and_eq_true_iff.mp hd
    refine key s' (Or.inl ?_)
    split at hs
    · obtain rfl := Option.some.inj hs
      exact ⟨rfl, rfl, hd⟩
    · dsimp only at hs
      split at hs
      · cases hs
      · obtain rfl := Option.some.inj hs
        exact ⟨rfl, rfl, hd⟩
  next hd =>
    obtain rfl := Option.some.inj hs
    refine key s (Or.inr ⟨rfl, ?_⟩)
    cases hb : s.bitmap i with
    | true => exact Or.inl rfl
    | false => exact Or.inr (by simpa [hb] using hd)

theorem Marked.loop {i : ℕ} {s' : SegmentVacuum} {rows : List MappedRow}
    (hrows : f.mapping.drop i = rows) (h : Marked f callback i s)
    (hs : SegmentVacuum.loop f callback s i rows = some s') :
    Marked f callback (i + rows.length) s' := by
  induction rows generalizing i s with
  | nil =>
      obtain rfl := Option.some.inj hs
      exact h
  | cons row rows ih =>
      have hrow : f.mapping[i]? = some row := by rw [← List.head?_drop, hrows]; rfl
      obtain ⟨s₁, hs₁, hs'⟩ := Option.bind_eq_some_iff.mp hs
      have hn : i + (row :: rows).length = i + 1 + rows.length := by
        rw [List.length_cons]
        omega
      rw [hn]
      refine ih ?_ (h.next hrow hs₁) hs'
      rw [← List.tail_drop, hrows, List.tail_cons]

theorem vacuum_marked (hs : f.vacuum callback = some s) :
    Marked f callback f.mapping.length s := by
  have h : Marked f callback 0 (.init f) := .init
  have := h.loop (List.drop_zero (l := f.mapping)) hs
  rwa [Nat.zero_add] at this

/-- The bits of the new bitmap: the old ones and those of the dead rows. -/
theorem vacuum_bitmap (hs : f.vacuum callback = some s) (k : ℕ) :
    s.bitmap k = true ↔
      f.bitmap k = true ∨ ∃ r, f.mapping[k]? = some r ∧ callback r.tid = true := by
  rw [(vacuum_marked hs).bitmap]
  refine or_congr_right ⟨And.right, fun h => ⟨?_, h⟩⟩
  obtain ⟨r, hr, -⟩ := h
  exact (List.getElem?_eq_some_iff.mp hr).1

theorem newlyDead_of_unchanged (hs : f.vacuum callback = some s) (hc : s.changed = false) :
    f.newlyDead callback = [] := by
  rw [List.eq_nil_iff_forall_not_mem]
  intro r hr
  obtain ⟨k, hk, hb, hd⟩ := mem_newlyDead.mp hr
  have := (vacuum_marked hs).changed hc k (List.getElem?_eq_some_iff.mp hk).1 r hk hd
  rw [hb] at this
  cases this

end Vacuum

end SegmentFile

end VectorLsm
