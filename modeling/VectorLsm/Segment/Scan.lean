import Mathlib.Data.List.Dedup
import Mathlib.Data.List.Sort
import VectorLsm.Segment.Descent

/-! # The directory scan

`scan_segment_metadata_files` keeps the latest version of each range it meets, sorts the ranges
and drops those that overlap one already taken. Where ranges are nested or disjoint and fit the
table, what is left are the maximal ranges.
-/

namespace VectorLsm

/-- `SegmentFileInfo`, also the name of a metadata file. -/
structure SegmentFileInfo where
  startSid : SegmentId
  endSid : SegmentId
  version : ℕ
  deriving DecidableEq, Repr

namespace SegmentFileInfo

variable (i j : SegmentFileInfo)

def range : SegmentId × SegmentId := (i.startSid, i.endSid)

/-- Every id of the first range is in the second. -/
def Within : Prop := j.startSid ≤ i.startSid ∧ i.endSid ≤ j.endSid

instance : Decidable (Within i j) := inferInstanceAs (Decidable (_ ∧ _))

theorem ext_range {i j : SegmentFileInfo} (hr : i.range = j.range) (hv : i.version = j.version) :
    i = j := by
  obtain ⟨h₁, h₂⟩ := Prod.mk.injEq .. ▸ hr
  cases i
  cases j
  subst h₁ h₂ hv
  rfl

/-- `compare_segment_versions`: at one start the wider range comes first. -/
def Before : Prop :=
  i.startSid < j.startSid ∨ i.startSid = j.startSid ∧ j.endSid ≤ i.endSid

instance : DecidableRel Before := fun _ _ => inferInstanceAs (Decidable (_ ∨ _))

instance : Std.Total Before := ⟨fun i j => by unfold Before; lia⟩

instance : IsTrans SegmentFileInfo Before := ⟨fun i j k => by unfold Before; lia⟩

end SegmentFileInfo

/-- The size of the table of the scan. -/
abbrev scanTableSize : ℕ := 1024

/-- One directory entry: a new range is dropped once the table is full. -/
def recordEntry (segments : List SegmentFileInfo) (e : SegmentFileInfo) : List SegmentFileInfo :=
  if e.range ∈ segments.map (·.range) then
    segments.map fun i =>
      if i.range = e.range then { i with version := max i.version e.version } else i
  else if segments.length < scanTableSize then segments ++ [e]
  else segments

/-- The walk over the sorted table; `largest` is the end of the last range taken. -/
def emitSegments : Option SegmentId → List SegmentFileInfo → List SegmentFileInfo
  | _, [] => []
  | largest, i :: is =>
      if largest.any fun m => i.startSid ≤ m then emitSegments largest is
      else i :: emitSegments (some i.endSid) is

/-- `scan_segment_metadata_files` on the entries of the directory. -/
def scanSegmentMetadataFiles (entries : List SegmentFileInfo) : List SegmentFileInfo :=
  emitSegments none ((entries.foldl recordEntry []).insertionSort SegmentFileInfo.Before)

section Record

variable {entries segments : List SegmentFileInfo} {e i : SegmentFileInfo}

/-- The versions recorded for a range. -/
def versionsOf (entries : List SegmentFileInfo) (range : SegmentId × SegmentId) : List ℕ :=
  (entries.filter (·.range = range)).map (·.version)

/-- The table after some entries: each range met is there once, at its highest version. -/
structure Recorded (entries segments : List SegmentFileInfo) : Prop where
  nodup : (segments.map (·.range)).Nodup
  ranges : ∀ r, r ∈ segments.map (·.range) ↔ r ∈ entries.map (·.range)
  version : ∀ i ∈ segments, i.version = (versionsOf entries i.range).foldr max 0

theorem foldr_max_append (vs : List ℕ) (v : ℕ) :
    (vs ++ [v]).foldr max 0 = max (vs.foldr max 0) v := by
  induction vs with
  | nil => simp
  | cons w vs ih => simp [ih, Nat.max_assoc]

theorem versionsOf_append_self (entries : List SegmentFileInfo) (e : SegmentFileInfo) :
    versionsOf (entries ++ [e]) e.range = versionsOf entries e.range ++ [e.version] := by
  simp [versionsOf]

theorem versionsOf_append_ne {r : SegmentId × SegmentId} (h : e.range ≠ r) :
    versionsOf (entries ++ [e]) r = versionsOf entries r := by
  simp [versionsOf, h]

theorem Recorded.length_le (h : Recorded entries segments) :
    segments.length = (entries.map (·.range)).dedup.length := by
  have hp : (segments.map (·.range)).Perm (entries.map (·.range)).dedup := by
    refine (List.perm_ext_iff_of_nodup h.nodup (List.nodup_dedup _)).mpr fun r => ?_
    rw [h.ranges, List.mem_dedup]
  simpa using hp.length_eq

theorem Recorded.next (h : Recorded entries segments)
    (hfull : ((entries ++ [e]).map (·.range)).dedup.length ≤ scanTableSize) :
    Recorded (entries ++ [e]) (recordEntry segments e) := by
  unfold recordEntry
  split
  next hmem =>
    have hr : (segments.map fun i =>
        if i.range = e.range then { i with version := max i.version e.version } else i).map
        (·.range) = segments.map (·.range) := by
      rw [List.map_map]
      refine List.map_congr_left fun i _ => ?_
      dsimp only [Function.comp_apply]
      split <;> rfl
    refine ⟨by rw [hr]; exact h.nodup, ?_, ?_⟩
    · intro r
      rw [hr, h.ranges, List.map_append, List.mem_append]
      refine ⟨Or.inl, ?_⟩
      rintro (hr | hr)
      · exact hr
      · obtain rfl : r = e.range := by simpa using hr
        exact (h.ranges _).mp hmem
    · intro i hi
      obtain ⟨j, hj, rfl⟩ := List.mem_map.mp hi
      split
      next hje =>
        have hrange : SegmentFileInfo.range { j with version := max j.version e.version } =
            e.range := hje
        rw [hrange, versionsOf_append_self, foldr_max_append, h.version j hj, hje]
      next hje => rw [versionsOf_append_ne (Ne.symm hje), h.version j hj]
  next hmem =>
    have hlt : segments.length < scanTableSize := by
      have hnot : e.range ∉ entries.map (·.range) := fun hin => hmem ((h.ranges _).mpr hin)
      have hperm : ((entries ++ [e]).map (·.range)).dedup.Perm
          (e.range :: (entries.map (·.range)).dedup) := by
        refine (List.perm_ext_iff_of_nodup (List.nodup_dedup _) ?_).mpr fun r => ?_
        · exact List.nodup_cons.mpr ⟨by rwa [List.mem_dedup], List.nodup_dedup _⟩
        · simp [or_comm]
      have := hperm.length_eq
      rw [List.length_cons, ← h.length_le] at this
      omega
    rw [if_pos hlt]
    refine ⟨?_, ?_, ?_⟩
    · rw [List.map_append, List.nodup_append]
      refine ⟨h.nodup, by simp, ?_⟩
      rintro a ha b hb rfl
      obtain rfl : a = e.range := by simpa using hb
      exact hmem ha
    · intro r
      rw [List.map_append, List.mem_append, List.map_append, List.mem_append, h.ranges]
    · intro i hi
      rcases List.mem_append.mp hi with hi | hi
      · have hne : e.range ≠ i.range := fun he => hmem (he ▸ List.mem_map_of_mem hi)
        rw [versionsOf_append_ne hne, h.version i hi]
      · obtain rfl : i = e := by simpa using hi
        have hnone : versionsOf entries i.range = [] := by
          rw [versionsOf, List.map_eq_nil_iff, List.filter_eq_nil_iff]
          intro j hj hji
          exact hmem ((h.ranges _).mpr (List.mem_map.mpr ⟨j, hj, by simpa using hji⟩))
        rw [versionsOf_append_self, hnone]
        simp

/-- Where the ranges fit the table, the scan has recorded all of them. -/
theorem recorded_foldl
    (hfull : (entries.map (·.range)).dedup.length ≤ scanTableSize) :
    Recorded entries (entries.foldl recordEntry []) := by
  induction entries using List.reverseRecOn with
  | nil => exact ⟨by simp, by simp, by simp⟩
  | append_singleton entries e ih =>
      rw [List.foldl_append]
      refine (ih ?_).next hfull
      refine le_trans ?_ hfull
      have hsub : (entries.map (·.range)).dedup.Subperm ((entries ++ [e]).map (·.range)).dedup := by
        refine (List.nodup_dedup _).subperm fun r hr => ?_
        rw [List.mem_dedup] at hr ⊢
        rw [List.map_append]
        exact List.mem_append_left _ hr
      exact hsub.length_le

end Record

section Emit

open SegmentFileInfo

/-- Two ranges are nested or disjoint. -/
def Laminar (i j : SegmentFileInfo) : Prop :=
  i.endSid < j.startSid ∨ j.endSid < i.startSid ∨ i.Within j ∨ j.Within i

variable {is : List SegmentFileInfo} {i j : SegmentFileInfo} {largest : Option SegmentId}

theorem mem_emitSegments
    (hsort : is.Pairwise Before) (hlam : ∀ a ∈ is, ∀ b ∈ is, Laminar a b)
    (hnd : (is.map (·.range)).Nodup) (hle : ∀ a ∈ is, a.startSid ≤ a.endSid)
    (hm : ∀ m ∈ largest, ∀ a ∈ is, a.startSid ≤ m → a.endSid ≤ m) :
    i ∈ emitSegments largest is ↔
      i ∈ is ∧ (∀ m ∈ largest, m < i.startSid) ∧ ∀ j ∈ is, i.Within j → j = i := by
  induction is generalizing largest with
  | nil => simp [emitSegments]
  | cons b is ih =>
      obtain ⟨hb, hsort⟩ := List.pairwise_cons.mp hsort
      rw [List.map_cons, List.nodup_cons] at hnd
      obtain ⟨hbn, hnd⟩ := hnd
      have hne : ∀ a ∈ is, a.range ≠ b.range := fun a ha he =>
        hbn (he ▸ List.mem_map_of_mem ha)
      have hord : ∀ a ∈ is, b.startSid < a.startSid ∨
          b.startSid = a.startSid ∧ a.endSid ≤ b.endSid := by
        intro a ha
        exact hb a ha
      have hlam' : ∀ a ∈ is, ∀ c ∈ is, Laminar a c := fun a ha c hc =>
        hlam a (List.mem_cons_of_mem b ha) c (List.mem_cons_of_mem b hc)
      have hle' : ∀ a ∈ is, a.startSid ≤ a.endSid := fun a ha => hle a (List.mem_cons_of_mem b ha)
      rw [emitSegments]
      split
      next hskip =>
        obtain ⟨m, rfl, hbm⟩ : ∃ m, largest = some m ∧ b.startSid ≤ m := by
          simpa [Option.any_eq_true] using hskip
        have hbe := hm m rfl b List.mem_cons_self hbm
        rw [ih hsort hlam' hnd hle' fun m' hm' a ha => hm m' hm' a (List.mem_cons_of_mem b ha)]
        constructor
        · rintro ⟨hi, hlt, hmax⟩
          refine ⟨List.mem_cons_of_mem b hi, hlt, ?_⟩
          intro j hj hw
          rcases List.mem_cons.mp hj with rfl | hj
          · have h₁ := hlt m rfl
            have h₂ := hle' i hi
            have h₃ := hw.2
            lia
          · exact hmax j hj hw
        · rintro ⟨hi, hlt, hmax⟩
          rcases List.mem_cons.mp hi with rfl | hi
          · have := hlt m rfl
            lia
          · exact ⟨hi, hlt, fun j hj hw => hmax j (List.mem_cons_of_mem b hj) hw⟩
      next htake =>
        have hfree : ∀ m ∈ largest, m < b.startSid := by
          intro m hm
          by_contra hnot
          have : largest.any (fun m => b.startSid ≤ m) = true := by
            rw [Option.any_eq_true]
            exact ⟨m, hm, by simpa using Nat.le_of_not_lt hnot⟩
          exact htake this
        have hnest : ∀ m ∈ some b.endSid, ∀ a ∈ is, a.startSid ≤ m → a.endSid ≤ m := by
          rintro m hm a ha hle
          obtain rfl : b.endSid = m := by simpa using hm
          have h₁ := hord a ha
          have h₂ := hlam b List.mem_cons_self a (List.mem_cons_of_mem b ha)
          have h₃ := hle' a ha
          unfold Laminar Within at h₂
          lia
        rw [List.mem_cons, ih hsort hlam' hnd hle' hnest]
        constructor
        · rintro (rfl | ⟨hi, hlt, hmax⟩)
          · refine ⟨List.mem_cons_self, hfree, ?_⟩
            intro j hj hw
            rcases List.mem_cons.mp hj with rfl | hj
            · rfl
            · refine absurd ?_ (hne j hj)
              have h₁ := hord j hj
              obtain ⟨h₂, h₃⟩ := hw
              rw [SegmentFileInfo.range, SegmentFileInfo.range, Prod.mk.injEq]
              lia
          · refine ⟨List.mem_cons_of_mem b hi, ?_, ?_⟩
            · intro m hm
              have h₁ := hfree m hm
              have h₂ := hord i hi
              lia
            · intro j hj hw
              rcases List.mem_cons.mp hj with rfl | hj
              · have h₁ := hlt j.endSid rfl
                have h₂ := hle' i hi
                have h₃ := hw.2
                lia
              · exact hmax j hj hw
        · rintro ⟨hi, hlt, hmax⟩
          rcases List.mem_cons.mp hi with rfl | hi
          · exact Or.inl rfl
          · refine Or.inr ⟨hi, ?_, fun j hj hw => hmax j (List.mem_cons_of_mem b hj) hw⟩
            rintro m hm
            obtain rfl : b.endSid = m := by simpa using hm
            by_contra hnot
            have hle₁ := hnest b.endSid rfl i hi (by lia)
            have h₁ := hord i hi
            have := hmax b List.mem_cons_self ⟨by lia, hle₁⟩
            exact hne i hi (by rw [this])

theorem emitSegments_pairwise (largest : Option SegmentId) (hle : ∀ a ∈ is, a.startSid ≤ a.endSid) :
    (emitSegments largest is).Pairwise (fun a b => a.endSid < b.startSid) ∧
      ∀ m ∈ largest, ∀ a ∈ emitSegments largest is, m < a.startSid := by
  induction is generalizing largest with
  | nil => simp [emitSegments]
  | cons b is ih =>
      have hle' : ∀ a ∈ is, a.startSid ≤ a.endSid := fun a ha => hle a (List.mem_cons_of_mem b ha)
      rw [emitSegments]
      split
      next => exact ih largest hle'
      next htake =>
        obtain ⟨h₁, h₂⟩ := ih (some b.endSid) hle'
        refine ⟨List.pairwise_cons.mpr ⟨h₂ _ rfl, h₁⟩, ?_⟩
        intro m hm a ha
        have hmb : m < b.startSid := by
          by_contra hnot
          have : largest.any (fun m => b.startSid ≤ m) = true := by
            rw [Option.any_eq_true]
            exact ⟨m, hm, by simpa using Nat.le_of_not_lt hnot⟩
          exact htake this
        rcases List.mem_cons.mp ha with rfl | ha
        · exact hmb
        · have := h₂ b.endSid rfl a ha
          have := hle b List.mem_cons_self
          lia

end Emit

section Scan

open SegmentFileInfo

variable {entries : List SegmentFileInfo} {i : SegmentFileInfo}

theorem mem_of_mem_emitSegments {is : List SegmentFileInfo} {largest : Option SegmentId}
    (h : i ∈ emitSegments largest is) : i ∈ is := by
  induction is generalizing largest with
  | nil => simp [emitSegments] at h
  | cons a is ih =>
      unfold emitSegments at h
      split at h
      · exact List.mem_cons_of_mem _ (ih h)
      · rcases List.mem_cons.mp h with rfl | h
        · exact List.mem_cons_self
        · exact List.mem_cons_of_mem _ (ih h)

theorem range_mem_recordEntry {segments : List SegmentFileInfo} {e : SegmentFileInfo}
    (h : i ∈ recordEntry segments e) :
    i.range ∈ segments.map (·.range) ∨ i.range = e.range := by
  unfold recordEntry at h
  split at h
  · obtain ⟨j, hj, rfl⟩ := List.mem_map.mp h
    left
    refine List.mem_map.mpr ⟨j, hj, ?_⟩
    split <;> rfl
  · split at h
    · rcases List.mem_append.mp h with h | h
      · exact Or.inl (List.mem_map_of_mem h)
      · exact Or.inr (congrArg _ (List.mem_singleton.mp h))
    · exact Or.inl (List.mem_map_of_mem h)

/-- Whatever the directory is, the scan makes no range up. -/
theorem range_mem_of_mem_scan (h : i ∈ scanSegmentMetadataFiles entries) :
    i.range ∈ entries.map (·.range) := by
  have hfold : ∀ (es segments : List SegmentFileInfo), ∀ j ∈ es.foldl recordEntry segments,
      j.range ∈ segments.map (·.range) ∨ j.range ∈ es.map (·.range) := by
    intro es
    induction es with
    | nil => exact fun segments j hj => Or.inl (List.mem_map_of_mem hj)
    | cons e es ih =>
        intro segments j hj
        rcases ih _ j hj with hm | hm
        · obtain ⟨a, ha, hr⟩ := List.mem_map.mp hm
          rcases range_mem_recordEntry ha with hs | he
          · exact Or.inl (hr ▸ hs)
          · exact Or.inr (List.mem_cons.mpr (Or.inl (hr ▸ he)))
        · exact Or.inr (List.mem_cons_of_mem _ hm)
  have hmem := (List.mem_insertionSort Before).mp (mem_of_mem_emitSegments h)
  exact (hfold entries [] i hmem).resolve_left (by simp)

/-- The directory is one the scan copes with: its ranges are nested or disjoint, and the table
holds them. -/
structure Scannable (entries : List SegmentFileInfo) : Prop where
  nonempty : ∀ e ∈ entries, e.startSid ≤ e.endSid
  laminar : ∀ e ∈ entries, ∀ e' ∈ entries, Laminar e e'
  fits : (entries.map (·.range)).dedup.length ≤ scanTableSize

theorem Scannable.of_recorded {segments : List SegmentFileInfo} (h : Scannable entries)
    (hr : Recorded entries segments) :
    (∀ a ∈ segments, a.startSid ≤ a.endSid) ∧ ∀ a ∈ segments, ∀ b ∈ segments, Laminar a b := by
  have key : ∀ a ∈ segments, ∃ e ∈ entries, e.startSid = a.startSid ∧ e.endSid = a.endSid := by
    intro a ha
    obtain ⟨e, he, hea⟩ := List.mem_map.mp ((hr.ranges a.range).mp (List.mem_map_of_mem ha))
    obtain ⟨h₁, h₂⟩ := Prod.mk.injEq .. ▸ hea
    exact ⟨e, he, h₁, h₂⟩
  constructor
  · intro a ha
    obtain ⟨e, he, h₁, h₂⟩ := key a ha
    have := h.nonempty e he
    lia
  · intro a ha b hb
    obtain ⟨e, he, h₁, h₂⟩ := key a ha
    obtain ⟨e', he', h₁', h₂'⟩ := key b hb
    have := h.laminar e he e' he'
    unfold Laminar Within at *
    rwa [h₁, h₂, h₁', h₂'] at this

/-- The scan returns the maximal ranges, each at its highest version. -/
theorem Scannable.mem_scan (h : Scannable entries) : i ∈ scanSegmentMetadataFiles entries ↔
    i.range ∈ entries.map (·.range) ∧ i.version = (versionsOf entries i.range).foldr max 0 ∧
      ∀ e ∈ entries, i.Within e → e.range = i.range := by
  have hr := recorded_foldl h.fits
  set segments := entries.foldl recordEntry []
  obtain ⟨hne, hlam⟩ := h.of_recorded hr
  have hmem : ∀ a, a ∈ segments.insertionSort Before ↔ a ∈ segments := fun a =>
    List.mem_insertionSort Before
  have hperm := List.perm_insertionSort Before segments
  have hin : ∀ a, a ∈ segments ↔ a.range ∈ entries.map (·.range) ∧
      a.version = (versionsOf entries a.range).foldr max 0 := by
    intro a
    constructor
    · intro ha
      exact ⟨(hr.ranges _).mp (List.mem_map_of_mem ha), hr.version a ha⟩
    · rintro ⟨hra, hva⟩
      obtain ⟨b, hb, hba⟩ := List.mem_map.mp ((hr.ranges _).mpr hra)
      have hvb := hr.version b hb
      rw [hba, ← hva] at hvb
      exact ext_range hba hvb ▸ hb
  rw [scanSegmentMetadataFiles, mem_emitSegments (List.pairwise_insertionSort Before _)
    (fun a ha b hb => hlam a ((hmem a).mp ha) b ((hmem b).mp hb))
    ((hperm.map _).nodup_iff.mpr hr.nodup) (fun a ha => hne a ((hmem a).mp ha)) (by simp),
    hmem, hin, and_assoc]
  refine and_congr_right fun hri => and_congr_right fun hvi => ?_
  constructor
  · rintro ⟨-, hmax⟩ e he hw
    obtain ⟨b, hb, hbe⟩ := List.mem_map.mp ((hr.ranges _).mpr (List.mem_map_of_mem he))
    obtain ⟨h₁, h₂⟩ := Prod.mk.injEq .. ▸ hbe
    have hwb : i.Within b := by
      unfold Within at *
      rwa [h₁, h₂]
    rw [← hbe, hmax b ((hmem b).mpr hb) hwb]
  · intro hmax
    refine ⟨by simp, fun j hj hw => ?_⟩
    rw [hmem, hin] at hj
    obtain ⟨e, he, hej⟩ := List.mem_map.mp hj.1
    obtain ⟨h₁, h₂⟩ := Prod.mk.injEq .. ▸ hej
    have hwe : i.Within e := by
      unfold Within at *
      rwa [h₁, h₂]
    have hji : j.range = i.range := hej.symm.trans (hmax e he hwe)
    exact ext_range hji (by rw [hj.2, hvi, hji])

theorem Scannable.scan_pairwise (h : Scannable entries) :
    (scanSegmentMetadataFiles entries).Pairwise fun a b => a.endSid < b.startSid := by
  have hr := recorded_foldl h.fits
  refine (emitSegments_pairwise none fun a ha => ?_).1
  exact (h.of_recorded hr).1 a ((List.mem_insertionSort Before).mp ha)

end Scan

/-- The name of the metadata file of a segment version. -/
def SegmentFile.info (f : SegmentFile) : SegmentFileInfo := ⟨f.startSid, f.endSid, f.version⟩

/-- The scan of the directory of an index. -/
def Disk.scan (d : Disk) : List SegmentFileInfo := scanSegmentMetadataFiles (d.map (·.info))

theorem Disk.latestVersion_eq (d : Disk) (lo hi : SegmentId) :
    d.latestVersion lo hi = (versionsOf (d.map (·.info)) (lo, hi)).foldr max 0 := by
  unfold latestVersion versionsOf
  rw [List.filter_map, List.map_map]
  congr 2
  refine List.filter_congr fun f _ => ?_
  rw [Function.comp_apply, decide_eq_decide]
  exact Prod.mk.injEq .. ▸ Iff.rfl

end VectorLsm
