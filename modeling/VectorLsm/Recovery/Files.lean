import Mathlib.Data.Finset.Max
import VectorLsm.Recovery.Machine

/-! # The end of a directory

Recovery takes the end of the last file the scan returns for the end of what is flushed. In a
directory the scan copes with, it is the largest end of all files.
-/

namespace VectorLsm.Recovery

open SegmentFileInfo

/-- The largest end of the files. -/
def maxEnd (dir : List SegmentFileInfo) : SegmentId := (dir.map (·.endSid)).foldr max 0

variable {dir dir' : List SegmentFileInfo} {i f : SegmentFileInfo} {lo hi b : SegmentId}

theorem endSid_le_maxEnd (h : i ∈ dir) : i.endSid ≤ maxEnd dir :=
  le_foldr_max (List.mem_map_of_mem h)

theorem maxEnd_le (h : ∀ i ∈ dir, i.endSid ≤ b) : maxEnd dir ≤ b := by
  unfold maxEnd
  induction dir with
  | nil => exact Nat.zero_le _
  | cons i dir ih =>
      exact max_le (h i List.mem_cons_self) (ih fun j hj => h j (List.mem_cons_of_mem _ hj))

theorem exists_maxEnd (h : dir ≠ []) : ∃ i ∈ dir, i.endSid = maxEnd dir := by
  unfold maxEnd
  induction dir with
  | nil => exact absurd rfl h
  | cons i dir ih =>
      rcases eq_or_ne dir [] with rfl | hne
      · exact ⟨i, List.mem_cons_self, (max_eq_left (Nat.zero_le _)).symm⟩
      · obtain ⟨j, hj, hje⟩ := ih hne
        rcases le_total i.endSid j.endSid with hle | hle
        · exact ⟨j, List.mem_cons_of_mem _ hj, by simp [hje ▸ hle, hje]⟩
        · refine ⟨i, List.mem_cons_self, ?_⟩
          rw [hje] at hle
          exact (max_eq_left hle).symm

theorem maxEnd_append : maxEnd (dir ++ [i]) = max (maxEnd dir) i.endSid := by
  rw [maxEnd, List.map_append, List.map_singleton]
  exact foldr_max_append _ _

/-- Each file is within one that the scan returns. -/
theorem exists_scan_within (h : Scannable dir) (hi : i ∈ dir) :
    ∃ m ∈ scanSegmentMetadataFiles dir, i.Within m := by
  -- Among the ranges around `i`, one that is widest.
  obtain ⟨m, hm, hmax⟩ := Finset.exists_max_image (dir.filter (i.Within ·)).toFinset
    (fun j => j.endSid - j.startSid) ⟨i, by simp [hi, Within]⟩
  simp only [List.mem_toFinset, List.mem_filter, decide_eq_true_eq] at hm hmax
  refine ⟨⟨m.startSid, m.endSid, (versionsOf dir m.range).foldr max 0⟩,
    h.mem_scan.mpr ⟨?_, rfl, ?_⟩, hm.2⟩
  · exact List.mem_map.mpr ⟨m, hm.1, rfl⟩
  · intro e he hw
    have hiw := hm.2
    have hle := hmax e ⟨he, by unfold Within at *; dsimp only at hw; lia⟩
    have hne := h.nonempty e he
    have hne' := h.nonempty m hm.1
    unfold Within at hw hiw
    dsimp only at hw
    exact Prod.ext (by dsimp only [SegmentFileInfo.range]; lia)
      (by dsimp only [SegmentFileInfo.range]; lia)

theorem scan_ne_nil (h : Scannable dir) (hne : dir ≠ []) : scanSegmentMetadataFiles dir ≠ [] := by
  obtain ⟨i, hi⟩ := List.exists_mem_of_ne_nil dir hne
  obtain ⟨m, hm, -⟩ := exists_scan_within h hi
  exact List.ne_nil_of_mem hm

theorem endSid_le_of_mem_scan (h : Scannable dir) (hf : f ∈ (scanSegmentMetadataFiles dir).getLast?)
    (hi : i ∈ scanSegmentMetadataFiles dir) : i.endSid ≤ f.endSid := by
  obtain ⟨ys, hys⟩ := List.getLast?_eq_some_iff.mp hf
  have hp := h.scan_pairwise
  rw [hys] at hp hi
  rcases List.mem_append.mp hi with hi | hi
  · have hlt := (List.pairwise_append.mp hp).2.2 i hi f (List.mem_singleton_self f)
    have hmem : f ∈ scanSegmentMetadataFiles dir := hys ▸ by simp
    obtain ⟨e, he, hr⟩ := List.mem_map.mp (range_mem_of_mem_scan hmem)
    have hne := h.nonempty e he
    obtain ⟨h₁, h₂⟩ := Prod.mk.inj hr
    lia
  · rw [List.mem_singleton.mp hi]

/-- The last file of the scan has the largest end. -/
theorem endSid_last (h : Scannable dir) (hf : f ∈ (scanSegmentMetadataFiles dir).getLast?) :
    f.endSid = maxEnd dir := by
  have hmem := List.mem_of_getLast? hf
  obtain ⟨e, he, hr⟩ := List.mem_map.mp (range_mem_of_mem_scan hmem)
  have hef : e.endSid = f.endSid := congrArg Prod.snd hr
  apply le_antisymm
  · exact hef ▸ endSid_le_maxEnd he
  · obtain ⟨i, hi, hie⟩ := exists_maxEnd (List.ne_nil_of_mem he)
    obtain ⟨m, hm, hw⟩ := exists_scan_within h hi
    exact hie ▸ hw.2.trans (endSid_le_of_mem_scan h hf hm)

/-- A part of a directory the scan copes with is one, too. -/
theorem scannable_of_subset (h : Scannable dir) (hsub : ∀ i ∈ dir', i ∈ dir) : Scannable dir' where
  nonempty := fun e he => h.nonempty e (hsub e he)
  laminar := fun e he e' he' => h.laminar e (hsub e he) e' (hsub e' he')
  fits := by
    refine le_trans (List.subperm_of_subset (List.nodup_dedup _) ?_).length_le h.fits
    intro r hr
    obtain ⟨e, he, rfl⟩ := List.mem_map.mp (List.mem_dedup.mp hr)
    exact List.mem_dedup.mpr (List.mem_map_of_mem (hsub e he))

/-- A further file whose range is nested in or disjoint from the others. -/
theorem scannable_append (h : Scannable dir) (hi : i.startSid ≤ i.endSid)
    (hlam : ∀ e ∈ dir, Laminar e i)
    (hfits : ((dir ++ [i]).map (·.range)).dedup.length ≤ scanTableSize) :
    Scannable (dir ++ [i]) where
  nonempty := by
    intro e he
    rcases List.mem_append.mp he with he | he
    · exact h.nonempty e he
    · rw [List.mem_singleton.mp he]
      exact hi
  laminar := by
    have hsymm : ∀ {a b : SegmentFileInfo}, Laminar a b → Laminar b a := by
      intro a b hab
      unfold Laminar at *
      tauto
    intro e he e' he'
    rcases List.mem_append.mp he with he | he <;> rcases List.mem_append.mp he' with he' | he'
    · exact h.laminar e he e' he'
    · rw [List.mem_singleton.mp he']
      exact hlam e he
    · rw [List.mem_singleton.mp he]
      exact hsymm (hlam e' he')
    · rw [List.mem_singleton.mp he, List.mem_singleton.mp he']
      exact Or.inr (Or.inr (Or.inl ⟨le_rfl, le_rfl⟩))
  fits := hfits

/-- The union of two neighbours of the scan. -/
theorem laminar_merge {j : ℕ} {a c e : SegmentFileInfo} (h : Scannable dir)
    (ha : (scanSegmentMetadataFiles dir)[j]? = some a)
    (hc : (scanSegmentMetadataFiles dir)[j + 1]? = some c) (he : e ∈ dir)
    (hi : i.range = (a.startSid, c.endSid)) : Laminar e i := by
  obtain ⟨m, hm, hw⟩ := exists_scan_within h he
  obtain ⟨n, hn⟩ := List.mem_iff_getElem?.mp hm
  have hlt : ∀ {p q : ℕ} {x y : SegmentFileInfo}, p < q →
      (scanSegmentMetadataFiles dir)[p]? = some x → (scanSegmentMetadataFiles dir)[q]? = some y →
        x.endSid < y.startSid := by
    intro p q x y hpq hx hy
    obtain ⟨hp, rfl⟩ := List.getElem?_eq_some_iff.mp hx
    obtain ⟨hq, rfl⟩ := List.getElem?_eq_some_iff.mp hy
    exact List.pairwise_iff_getElem.mp h.scan_pairwise p q hp hq hpq
  have hne : ∀ {p : ℕ} {x : SegmentFileInfo}, (scanSegmentMetadataFiles dir)[p]? = some x →
      x.startSid ≤ x.endSid := by
    intro p x hx
    obtain ⟨y, hy, hr⟩ := List.mem_map.mp (range_mem_of_mem_scan (List.mem_of_getElem? hx))
    obtain ⟨h₁, h₂⟩ := Prod.mk.inj hr
    exact h₁ ▸ h₂ ▸ h.nonempty y hy
  obtain ⟨h₁, h₂⟩ := Prod.mk.inj hi
  have hac := hlt (Nat.lt_succ_self j) ha hc
  have hna := hne ha
  have hnc := hne hc
  unfold Laminar Within at *
  rcases lt_trichotomy n j with hnj | rfl | hnj
  · have := hlt hnj hn ha
    lia
  · cases ha.symm.trans hn
    lia
  · rcases eq_or_lt_of_le (Nat.succ_le_of_lt hnj) with rfl | hnj
    · cases hc.symm.trans hn
      lia
    · have := hlt hnj hc hn
      lia

end VectorLsm.Recovery
