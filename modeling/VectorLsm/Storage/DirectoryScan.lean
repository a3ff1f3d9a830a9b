import VectorLsm.Segment.Scan
import VectorLsm.Storage.VersionFiles

/-! # The directory scan, name by name

`scan_segment_metadata_files` takes every name that begins with `metadata_` for a version of a
segment, in the order of the directory. A pull of metadata that was cut short leaves such a name
too. The table has a fixed size, and the walk over it marks "no segment yet" by the largest id.
-/

namespace VectorLsm.Storage

open Decimal SegmentFileInfo

/-- `strchr(s, '_')`: what is before and behind. -/
def splitAtSep : Name → Option (Name × Name)
  | [] => none
  | c :: s =>
      if c = '_' then some ([], s) else (splitAtSep s).map fun p => (c :: p.1, p.2)

/-- `strstr(s, "_v")`. -/
def splitAtVersion : Name → Option (Name × Name)
  | [] => none
  | c :: s =>
      if ['_', 'v'] <+: c :: s then some ([], s.drop 1)
      else (splitAtVersion s).map fun p => (c :: p.1, p.2)

def metadataPrefix : Name := metadataKind ++ ['_']

/-- What a name of the directory stands for. -/
def parseMetadata (n : Name) : Option SegmentFileInfo :=
  if metadataPrefix <+: n then
    (splitAtSep (n.drop metadataPrefix.length)).bind fun f =>
      (splitAtVersion f.2).map fun r => ⟨atoi f.1, atoi r.1, atoi r.2⟩
  else none

/-- The walk over the sorted table; `largest` is the end of the last range taken, or
`(SegmentId) -1`. -/
def emitFiles : SegmentId → List SegmentFileInfo → List SegmentFileInfo
  | _, [] => []
  | largest, i :: is =>
      if largest ≠ uint32Max ∧ i.startSid ≤ largest then emitFiles largest is
      else i :: emitFiles i.endSid is

/-- `scan_segment_metadata_files` on the names of the directory, with a table for as many files as
its callers have. -/
def scanDirectory (dir : List Name) : List SegmentFileInfo :=
  emitFiles uint32Max (((dir.filterMap parseMetadata).foldl recordEntry []).insertionSort Before)

instance : DecidableRel Laminar := fun _ _ => inferInstanceAs (Decidable (_ ∨ _ ∨ _ ∨ _))

/-- The name of a metadata file. -/
def metadataName (i : SegmentFileInfo) : Name :=
  metadataPath ⟨i.startSid, i.endSid, i.version⟩

/-- Its name while the file is pulled from the primary. -/
def pullName (i : SegmentFileInfo) : Name := metadataName i ++ ['.', 't', 'm', 'p']

/-- The metadata files of a directory and the pulls of such files that were cut short. The ids and
versions are those of a `uint32_t`. -/
structure MetadataFiles where
  infos : List SegmentFileInfo
  pulls : List SegmentFileInfo
  nonempty : ∀ i ∈ infos ++ pulls, i.startSid ≤ i.endSid
  bounded : ∀ i ∈ infos ++ pulls, i.endSid ≤ uint32Max ∧ i.version ≤ uint32Max
  laminar : ∀ i ∈ infos, ∀ j ∈ infos, Laminar i j

namespace MetadataFiles

variable (m : MetadataFiles)

def all : List SegmentFileInfo := m.infos ++ m.pulls

def names : List Name := m.infos.map metadataName ++ m.pulls.map pullName

end MetadataFiles

/-- The scan has found the maximal ranges in ascending order, each at its highest version; every
id of a file is in exactly one of them. -/
structure Selects (infos out : List SegmentFileInfo) : Prop where
  ascending : out.Pairwise fun a b => a.endSid < b.startSid
  mem_iff : ∀ i, i ∈ out ↔ i.range ∈ infos.map (·.range) ∧
    i.version = (versionsOf infos i.range).foldr max 0 ∧ ∀ e ∈ infos, i.Within e → e.range = i.range
  covers : ∀ e ∈ infos, ∀ sid, e.startSid ≤ sid → sid ≤ e.endSid →
    ∃! i, i ∈ out ∧ i.startSid ≤ sid ∧ sid ≤ i.endSid

/-- Whatever else is in the directory and whatever its order. -/
def ScanSelects (m : MetadataFiles) (others : List Name) : Prop :=
  ∀ dir : List Name, dir.Perm (m.names ++ others) → Selects m.infos (scanDirectory dir)

/-- A pull adds nothing to the metadata files: it begins inside a range that the walk meets before
it, or it is a version of that range that is no newer than what is there. -/
def MetadataFiles.Covered (m : MetadataFiles) (t : SegmentFileInfo) : Prop :=
  ∃ e ∈ m.infos, e.Before t ∧ t.startSid ≤ e.endSid ∧
    (t.range = e.range → t.version ≤ (versionsOf m.infos t.range).foldr max 0)

/-- What the scan takes for granted. -/
structure MetadataFiles.Plain (m : MetadataFiles) : Prop where
  fits : (m.all.map (·.range)).dedup.length ≤ scanTableSize
  pulls : ∀ t ∈ m.pulls, m.Covered t
  sentinel : ∀ e ∈ m.infos, e.endSid = uint32Max → ∀ f ∈ m.all, f.Within e → f.range = e.range

/-! ## Names -/

theorem splitAtSep_append {p : Name} (hp : '_' ∉ p) (r : Name) :
    splitAtSep (p ++ '_' :: r) = some (p, r) := by
  induction p with
  | nil => rfl
  | cons c p ih =>
      obtain ⟨hc, hp⟩ := not_or.mp (mt List.mem_cons.mpr hp)
      rw [List.cons_append, splitAtSep, if_neg (Ne.symm hc), ih hp, Option.map_some]

theorem splitAtVersion_append {p : Name} (hp : '_' ∉ p) (r : Name) :
    splitAtVersion (p ++ '_' :: 'v' :: r) = some (p, r) := by
  induction p with
  | nil => rfl
  | cons c p ih =>
      obtain ⟨hc, hp⟩ := not_or.mp (mt List.mem_cons.mpr hp)
      have hne : ¬ ['_', 'v'] <+: c :: (p ++ '_' :: 'v' :: r) := fun h =>
        hc (List.cons_prefix_cons.mp h).1
      rw [List.cons_append, splitAtVersion, if_neg hne, ih hp, Option.map_some]

theorem digits_no_sep (i : ℕ) : '_' ∉ digits i := fun h => by
  have := isDigit_of_mem h
  simp at this

/-- A name with the fields of a version is parsed as such, whatever follows a digit. -/
theorem parseMetadata_metadataName {i : SegmentFileInfo} {xs : Name} (hle : i.startSid ≤ i.endSid)
    (he : i.endSid ≤ uint32Max) (hv : i.version ≤ uint32Max)
    (hx : ∀ c ∈ xs.head?, ¬ c.isDigit) : parseMetadata (metadataName i ++ xs) = some i := by
  have hsplit : metadataName i ++ xs = metadataPrefix ++ (digits i.startSid ++
      '_' :: (digits i.endSid ++ '_' :: 'v' :: (digits i.version ++ xs))) := by
    simp [metadataName, metadataPath, filePath, metadataPrefix]
  have hdigits (n : ℕ) (hn : n ≤ uint32Max) : atoi (digits n) = n := by
    have h : atoi (digits n ++ []) = n % 2 ^ 32 := atoi_digits (by simp)
    rw [List.append_nil] at h
    have hlt : n < 2 ^ 32 := Nat.lt_succ_of_le hn
    rw [h, Nat.mod_eq_of_lt hlt]
  rw [hsplit, parseMetadata, if_pos (List.prefix_append _ _), List.drop_left,
    splitAtSep_append (digits_no_sep _), Option.bind_some,
    splitAtVersion_append (digits_no_sep _), Option.map_some, hdigits _ (hle.trans he),
    hdigits _ he, atoi_digits hx, Nat.mod_eq_of_lt (Nat.lt_succ_of_le hv)]

theorem parseMetadata_other {n : Name} (h : ¬ metadataPrefix <+: n) : parseMetadata n = none :=
  if_neg h

/-- The files of the other kinds and the temporary names of the metadata are no entries. -/
theorem not_metadataPrefix {kind : Name} (hkind : '_' ∉ kind) (hne : kind ≠ metadataKind)
    (r : Name) : ¬ metadataPrefix <+: kind ++ '_' :: r := by
  intro h
  have hsep {n : Name} (hn : '_' ∉ n) : ∀ c ∈ n, c ≠ '_' := fun c hc he => hn (he ▸ hc)
  exact hne ((field_prefix_iff (P := (· ≠ '_')) (by simp) (by simp)
    (hsep (kind_no_sep List.mem_cons_self)) (hsep hkind)).mp h).1.symm

theorem not_metadataPrefix_filePath {kind : Name} {v : Version} (h : kind ∈ fileKinds) (r : Name) :
    ¬ metadataPrefix <+: filePath kind v ++ r := by
  have hne : ∀ kind ∈ fileKinds, '_' ∉ kind ∧ kind ≠ metadataKind := by decide
  obtain ⟨hsep, hkind⟩ := hne kind h
  rw [filePath, List.append_assoc, List.cons_append]
  exact not_metadataPrefix hsep hkind _

/-! ## The walk -/

section Walk

variable {is : List SegmentFileInfo} {largest : SegmentId} {a b f : SegmentFileInfo}

/-- A range that the walk meets after one it begins inside is inside it. -/
theorem within_of_before (hlam : Laminar b a) (_ : a.startSid ≤ a.endSid) (hb : b.Before a)
    (hle : a.startSid ≤ b.endSid) : a.Within b := by
  unfold Laminar Within at hlam
  unfold Before at hb
  unfold Within
  lia

/-- The table of the walk, sorted. -/
structure Sorted (is : List SegmentFileInfo) : Prop where
  sorted : is.Pairwise Before
  nodup : (is.map (·.range)).Nodup
  nonempty : ∀ i ∈ is, i.startSid ≤ i.endSid
  bounded : ∀ i ∈ is, i.endSid ≤ uint32Max

theorem Sorted.tail (h : Sorted (b :: is)) : Sorted is where
  sorted := h.sorted.of_cons
  nodup := (List.nodup_cons.mp h.nodup).2
  nonempty i hi := h.nonempty i (List.mem_cons_of_mem _ hi)
  bounded i hi := h.bounded i (List.mem_cons_of_mem _ hi)

theorem Sorted.before (h : Sorted (b :: is)) (ha : a ∈ is) :
    b.startSid < a.startSid ∨ b.startSid = a.startSid ∧ a.endSid ≤ b.endSid :=
  (List.pairwise_cons.mp h.sorted).1 a ha

theorem Sorted.range_ne (h : Sorted (b :: is)) (ha : a ∈ is) : a.range ≠ b.range := fun he =>
  (List.nodup_cons.mp h.nodup).1 (List.mem_map.mpr ⟨a, ha, he⟩)

theorem Sorted.filter (h : Sorted is) (p : SegmentFileInfo → Bool) : Sorted (is.filter p) where
  sorted := h.sorted.filter p
  nodup := h.nodup.sublist (List.filter_sublist.map _)
  nonempty i hi := h.nonempty i (List.mem_of_mem_filter hi)
  bounded i hi := h.bounded i (List.mem_of_mem_filter hi)

theorem mem_of_mem_emitFiles (h : a ∈ emitFiles largest is) : a ∈ is := by
  induction is generalizing largest with
  | nil => exact h
  | cons b is ih =>
      unfold emitFiles at h
      split at h
      · exact List.mem_cons_of_mem _ (ih h)
      · rcases List.mem_cons.mp h with rfl | h
        · exact List.mem_cons_self
        · exact List.mem_cons_of_mem _ (ih h)

/-- Every range begins inside one that is taken, now or before. -/
theorem Sorted.exists_emitFiles (h : Sorted is) (largest : SegmentId) (ha : a ∈ is) :
    largest ≠ uint32Max ∧ a.startSid ≤ largest ∨
      ∃ i ∈ emitFiles largest is, i.Before a ∧ a.startSid ≤ i.endSid := by
  induction is generalizing largest with
  | nil => exact absurd ha List.not_mem_nil
  | cons b is ih =>
      unfold emitFiles
      split
      next hskip =>
        rcases List.mem_cons.mp ha with rfl | ha
        · exact Or.inl hskip
        · exact ih h.tail largest ha
      next =>
        right
        rcases List.mem_cons.mp ha with rfl | ha
        · exact ⟨a, List.mem_cons_self, Or.inr ⟨rfl, Nat.le_refl _⟩, h.nonempty a ha⟩
        · rcases ih h.tail b.endSid ha with ⟨_, hle⟩ | ⟨i, hi, hw⟩
          · exact ⟨b, List.mem_cons_self, h.before ha, hle⟩
          · exact ⟨i, List.mem_cons_of_mem _ hi, hw⟩

/-- Behind a range that ends at the largest id the walk takes the next one. -/
theorem Sorted.not_ascending (h : Sorted is) (hb : b ∈ emitFiles largest is)
    (hmax : b.endSid = uint32Max) (hf : f ∈ is) (hw : f.Within b) (hne : f.range ≠ b.range) :
    ¬ (emitFiles largest is).Pairwise fun i j => i.endSid < j.startSid := by
  induction is generalizing largest with
  | nil => exact absurd hf List.not_mem_nil
  | cons c is ih =>
      intro hp
      have htail (hbi : b ∈ is) : f ∈ is := by
        refine (List.mem_cons.mp hf).resolve_left fun he => hne ?_
        have hord := h.before hbi
        obtain ⟨h₁, h₂⟩ := hw
        rw [he] at h₁ h₂ ⊢
        rw [SegmentFileInfo.range, SegmentFileInfo.range, Prod.mk.injEq]
        lia
      unfold emitFiles at hb hp
      split at hb
      next hskip =>
        rw [if_pos hskip] at hp
        exact ih h.tail hb (htail (mem_of_mem_emitFiles hb)) hp
      next htake =>
        rw [if_neg htake] at hp
        rcases List.mem_cons.mp hb with hbc | hbi
        · subst hbc
          have hfi : f ∈ is := (List.mem_cons.mp hf).resolve_left fun he => hne (he ▸ rfl)
          rw [hmax] at hp
          -- the mark says that nothing has been taken
          cases is with
          | nil => exact absurd hfi List.not_mem_nil
          | cons i is =>
              rw [emitFiles, if_neg fun hskip => hskip.1 rfl] at hp
              have hlt := (List.pairwise_cons.mp hp).1 i List.mem_cons_self
              have hi := h.nonempty i (by simp)
              have hib := h.bounded i (by simp)
              lia
        · exact ih h.tail hbi (htail (mem_of_mem_emitFiles hbi)) (List.pairwise_cons.mp hp).2

variable {p : SegmentFileInfo → Bool}

/-- The walk over ranges of which only some, `p`, are nested or disjoint: the others begin inside
one of them, which the walk meets before. -/
structure Shadowed (p : SegmentFileInfo → Bool) (largest : SegmentId)
    (is : List SegmentFileInfo) : Prop where
  laminar : ∀ a ∈ is, p a → ∀ b ∈ is, p b → Laminar a b
  sentinel : ∀ b ∈ is, p b → b.endSid = uint32Max → ∀ f ∈ is, f.Within b → f.range = b.range
  nested : largest ≠ uint32Max → ∀ a ∈ is, p a → a.startSid ≤ largest → a.endSid ≤ largest
  shadowed : ∀ a ∈ is, ¬ p a → largest ≠ uint32Max ∧ a.startSid ≤ largest ∨
    ∃ e ∈ is, p e ∧ e.Before a ∧ a.startSid ≤ e.endSid

theorem Shadowed.skip (h : Shadowed p largest (b :: is))
    (hskip : largest ≠ uint32Max ∧ b.startSid ≤ largest) : Shadowed p largest is where
  laminar a ha hpa c hc := h.laminar a (List.mem_cons_of_mem _ ha) hpa c (List.mem_cons_of_mem _ hc)
  sentinel a ha hpa hm c hc :=
    h.sentinel a (List.mem_cons_of_mem _ ha) hpa hm c (List.mem_cons_of_mem _ hc)
  nested hne a ha := h.nested hne a (List.mem_cons_of_mem _ ha)
  shadowed a ha hpa := by
    rcases h.shadowed a (List.mem_cons_of_mem _ ha) hpa with hl | ⟨e, he, hpe, hb, hle⟩
    · exact Or.inl hl
    · rcases List.mem_cons.mp he with rfl | he
      · exact Or.inl ⟨hskip.1,
          hle.trans (h.nested hskip.1 e List.mem_cons_self hpe hskip.2)⟩
      · exact Or.inr ⟨e, he, hpe, hb, hle⟩

theorem Shadowed.take (h : Shadowed p largest (b :: is)) (hs : Sorted (b :: is)) (hpb : p b)
    (htake : ¬ (largest ≠ uint32Max ∧ b.startSid ≤ largest)) : Shadowed p b.endSid is where
  laminar a ha hpa c hc := h.laminar a (List.mem_cons_of_mem _ ha) hpa c (List.mem_cons_of_mem _ hc)
  sentinel a ha hpa hm c hc :=
    h.sentinel a (List.mem_cons_of_mem _ ha) hpa hm c (List.mem_cons_of_mem _ hc)
  nested _ a ha hpa hle :=
    have hmem := List.mem_cons_of_mem b ha
    (within_of_before (h.laminar b List.mem_cons_self hpb a hmem hpa) (hs.nonempty a hmem)
      (hs.before ha) hle).2
  shadowed a ha hpa := by
    have hmem := List.mem_cons_of_mem b ha
    have hord := hs.before ha
    have hbound := hs.bounded a hmem
    have hinside (hle : a.startSid ≤ b.endSid) : b.endSid ≠ uint32Max := fun hm =>
      hs.range_ne ha (h.sentinel b List.mem_cons_self hpb hm a hmem (by unfold Within; lia))
    rcases h.shadowed a hmem hpa with ⟨hne, hle⟩ | ⟨e, he, hpe, hb, hle⟩
    · exact absurd ⟨hne, by lia⟩ htake
    · rcases List.mem_cons.mp he with rfl | he
      · exact Or.inl ⟨hinside hle, hle⟩
      · exact Or.inr ⟨e, he, hpe, hb, hle⟩

/-- The walk does not see the other ranges. -/
theorem Shadowed.emitFiles_filter (h : Shadowed p largest is) (hs : Sorted is) :
    emitFiles largest is = emitFiles largest (is.filter p) := by
  induction is generalizing largest with
  | nil => rfl
  | cons b is ih =>
      by_cases hpb : p b = true
      · rw [List.filter_cons_of_pos hpb, emitFiles, emitFiles]
        by_cases hskip : largest ≠ uint32Max ∧ b.startSid ≤ largest
        · rw [if_pos hskip, if_pos hskip, ih (h.skip hskip) hs.tail]
        · rw [if_neg hskip, if_neg hskip, ih (h.take hs hpb hskip) hs.tail]
      · have hskip : largest ≠ uint32Max ∧ b.startSid ≤ largest := by
          refine (h.shadowed b List.mem_cons_self hpb).resolve_right ?_
          rintro ⟨e, he, hpe, hb, -⟩
          rcases List.mem_cons.mp he with rfl | he
          · exact hpb hpe
          · refine hs.range_ne he ?_
            have hord := hs.before he
            unfold Before at hb
            rw [SegmentFileInfo.range, SegmentFileInfo.range, Prod.mk.injEq]
            lia
        rw [List.filter_cons_of_neg hpb, emitFiles, if_pos hskip, ih (h.skip hskip) hs.tail]

/-- Where nothing lies inside a range that ends at the largest id, the mark does no harm. -/
theorem Sorted.emitFiles_eq (h : Sorted is) {last : Option SegmentId}
    (hlast : last = none ∧ largest = uint32Max ∨ last = some largest ∧ largest ≠ uint32Max)
    (hs : ∀ b ∈ is, b.endSid = uint32Max → ∀ f ∈ is, f.Within b → f.range = b.range) :
    emitFiles largest is = emitSegments last is := by
  induction is generalizing largest last with
  | nil => rfl
  | cons b is ih =>
      have hs' : ∀ c ∈ is, c.endSid = uint32Max → ∀ f ∈ is, f.Within c → f.range = c.range :=
        fun c hc hm f hf => hs c (List.mem_cons_of_mem _ hc) hm f (List.mem_cons_of_mem _ hf)
      have hiff : (largest ≠ uint32Max ∧ b.startSid ≤ largest) ↔
          (last.any fun m => b.startSid ≤ m) = true := by
        rcases hlast with ⟨rfl, rfl⟩ | ⟨rfl, hl⟩
        · simp
        · simp [hl]
      rw [emitFiles, emitSegments]
      by_cases hskip : largest ≠ uint32Max ∧ b.startSid ≤ largest
      · rw [if_pos hskip, if_pos (hiff.mp hskip), ih h.tail hlast hs']
      · rw [if_neg hskip, if_neg (fun hl => hskip (hiff.mpr hl))]
        by_cases hmax : b.endSid = uint32Max
        · cases is with
          | nil => rfl
          | cons f is =>
              have hord := h.before (List.mem_cons_self (a := f))
              have hfb := h.bounded f (by simp)
              have hw : f.Within b := by unfold Within; lia
              exact absurd (hs b List.mem_cons_self hmax f (by simp) hw)
                (h.range_ne List.mem_cons_self)
        · rw [ih h.tail (Or.inr ⟨rfl, hmax⟩) hs']

end Walk

/-! ## The table -/

section Table

variable {entries segments : List SegmentFileInfo} {e i : SegmentFileInfo}

theorem recordEntry_ranges_of_mem (h : e.range ∈ segments.map (·.range)) :
    (recordEntry segments e).map (·.range) = segments.map (·.range) := by
  rw [recordEntry, if_pos h, List.map_map]
  refine List.map_congr_left fun i _ => ?_
  rw [Function.comp_apply]
  split
  · rfl
  · rfl

/-- The table holds every range it was shown, each once, unless it is full. -/
structure Tabled (entries segments : List SegmentFileInfo) : Prop where
  nodup : (segments.map (·.range)).Nodup
  subset : ∀ i ∈ segments, i.range ∈ entries.map (·.range)
  full : segments.length < scanTableSize → ∀ e ∈ entries, e.range ∈ segments.map (·.range)

theorem Tabled.next (h : Tabled entries segments) (e : SegmentFileInfo) :
    Tabled (entries ++ [e]) (recordEntry segments e) := by
  have hsub (r : SegmentId × SegmentId) (hr : r ∈ entries.map (·.range)) :
      r ∈ (entries ++ [e]).map (·.range) := by
    rw [List.map_append]
    exact List.mem_append_left _ hr
  by_cases hmem : e.range ∈ segments.map (·.range)
  · have hr := recordEntry_ranges_of_mem hmem
    have hlen : (recordEntry segments e).length = segments.length := by
      simpa using congrArg List.length hr
    refine ⟨hr ▸ h.nodup, fun i hi => ?_, fun hlt e' he' => ?_⟩
    · obtain ⟨j, hj, hji⟩ := List.mem_map.mp (hr ▸ List.mem_map_of_mem hi)
      exact hsub _ (hji ▸ h.subset j hj)
    · rw [hr]
      rcases List.mem_append.mp he' with he' | he'
      · exact h.full (hlen ▸ hlt) e' he'
      · rwa [List.mem_singleton.mp he']
  · rw [recordEntry, if_neg hmem]
    by_cases hroom : segments.length < scanTableSize
    · rw [if_pos hroom]
      refine ⟨?_, fun i hi => ?_, fun hlt e' he' => ?_⟩
      · rw [List.map_append, List.nodup_append]
        refine ⟨h.nodup, by simp, ?_⟩
        rintro a ha b hb rfl
        obtain rfl : a = e.range := by simpa using hb
        exact hmem ha
      · rcases List.mem_append.mp hi with hi | hi
        · exact hsub _ (h.subset i hi)
        · rw [List.mem_singleton.mp hi]
          exact List.mem_map_of_mem (by simp)
      · rw [List.map_append]
        rcases List.mem_append.mp he' with he' | he'
        · exact List.mem_append_left _ (h.full hroom e' he')
        · rw [List.mem_singleton.mp he']
          exact List.mem_append_right _ (by simp)
    · rw [if_neg hroom]
      exact ⟨h.nodup, fun i hi => hsub _ (h.subset i hi), fun hlt => absurd hlt hroom⟩

theorem tabled_foldl (entries : List SegmentFileInfo) :
    Tabled entries (entries.foldl recordEntry []) := by
  induction entries using List.reverseRecOn with
  | nil => exact ⟨List.nodup_nil, by simp, by simp⟩
  | append_singleton entries e ih =>
      rw [List.foldl_append]
      exact ih.next e

/-- What is in the table stays there, at no lower version. -/
theorem exists_recordEntry (hi : i ∈ segments) (e : SegmentFileInfo) :
    ∃ j ∈ recordEntry segments e, j.range = i.range ∧ i.version ≤ j.version := by
  unfold recordEntry
  split
  · refine ⟨_, List.mem_map_of_mem hi, ?_⟩
    split
    · exact ⟨rfl, Nat.le_max_left _ _⟩
    · exact ⟨rfl, Nat.le_refl _⟩
  · split
    · exact ⟨i, List.mem_append_left _ hi, rfl, Nat.le_refl _⟩
    · exact ⟨i, hi, rfl, Nat.le_refl _⟩

theorem exists_foldl (hi : i ∈ segments) (entries : List SegmentFileInfo) :
    ∃ j ∈ entries.foldl recordEntry segments, j.range = i.range ∧ i.version ≤ j.version := by
  induction entries generalizing segments i with
  | nil => exact ⟨i, hi, rfl, Nat.le_refl _⟩
  | cons e entries ih =>
      obtain ⟨j, hj, hr, hv⟩ := exists_recordEntry hi e
      obtain ⟨k, hk, hr', hv'⟩ := ih hj
      exact ⟨k, hk, hr'.trans hr, hv.trans hv'⟩

/-- A full table takes no new range. -/
theorem foldl_of_full (hfull : scanTableSize ≤ segments.length) {r : SegmentId × SegmentId}
    (hr : r ∉ segments.map (·.range)) (he : ∀ e ∈ entries, e.range = r) :
    entries.foldl recordEntry segments = segments := by
  induction entries with
  | nil => rfl
  | cons e entries ih =>
      have hnot : e.range ∉ segments.map (·.range) := he e List.mem_cons_self ▸ hr
      rw [List.foldl_cons, recordEntry, if_neg hnot, if_neg (Nat.not_lt.mpr hfull)]
      exact ih fun e' he' => he e' (List.mem_cons_of_mem _ he')

end Table

/-! ## The entries -/

section Entries

variable {m : MetadataFiles} {others dir : List Name} {e i j t : SegmentFileInfo}

theorem foldr_max_le {vs : List ℕ} {n : ℕ} : vs.foldr max 0 ≤ n ↔ ∀ v ∈ vs, v ≤ n := by
  induction vs with
  | nil => simp
  | cons v vs ih => simp [ih]

theorem le_highest {entries : List SegmentFileInfo} (h : e ∈ entries) :
    e.version ≤ (versionsOf entries e.range).foldr max 0 :=
  foldr_max_le.mp (Nat.le_refl _) _ (List.mem_map_of_mem (List.mem_filter.mpr ⟨h, by simp⟩))

theorem highest_le {entries : List SegmentFileInfo} {r : SegmentId × SegmentId} {n : ℕ}
    (h : ∀ e ∈ entries, e.range = r → e.version ≤ n) :
    (versionsOf entries r).foldr max 0 ≤ n := by
  refine foldr_max_le.mpr fun v hv => ?_
  obtain ⟨e, he, rfl⟩ := List.mem_map.mp hv
  obtain ⟨he, hr⟩ := List.mem_filter.mp he
  exact h e he (by simpa using hr)

theorem within_of_range {i' j' : SegmentFileInfo} (hi : i.range = i'.range)
    (hj : j.range = j'.range) (h : i.Within j) : i'.Within j' := by
  obtain ⟨h₁, h₂⟩ := Prod.mk.injEq .. ▸ hi
  obtain ⟨h₃, h₄⟩ := Prod.mk.injEq .. ▸ hj
  unfold Within at *
  rwa [h₁, h₂, h₃, h₄] at h

/-- What a map keeps of a list can be had in any order. -/
theorem exists_perm_filterMap {α β : Type*} {f : α → Option β} {l : List α} {ys : List β}
    (h : ys.Perm (l.filterMap f)) : ∃ l' : List α, l'.Perm l ∧ l'.filterMap f = ys := by
  induction ys generalizing l with
  | nil => exact ⟨l, List.Perm.refl l, h.symm.eq_nil⟩
  | cons y ys ih =>
      obtain ⟨a, ha, hay⟩ := List.mem_filterMap.mp (h.subset List.mem_cons_self)
      obtain ⟨l₁, l₂, rfl⟩ := List.append_of_mem ha
      have hrest : ys.Perm ((l₁ ++ l₂).filterMap f) := by
        have hp := h.trans (List.perm_middle.filterMap f)
        rw [List.filterMap_cons_some hay] at hp
        exact hp.cons_inv
      obtain ⟨l', hl', rfl⟩ := ih hrest
      exact ⟨a :: l', (hl'.cons a).trans List.perm_middle.symm, List.filterMap_cons_some hay⟩

theorem range_eq_of_within (h : i.Within j) (h' : j.Within i) : i.range = j.range :=
  Prod.ext (Nat.le_antisymm h'.1 h.1) (Nat.le_antisymm h.2 h'.2)

namespace MetadataFiles

theorem filterMap_names (m : MetadataFiles) : m.names.filterMap parseMetadata = m.all := by
  have hmap (xs : Name) {is : List SegmentFileInfo} (hx : ∀ c ∈ xs.head?, ¬ c.isDigit)
      (hsub : ∀ i ∈ is, i ∈ m.infos ++ m.pulls) :
      (is.map fun i => metadataName i ++ xs).filterMap parseMetadata = is := by
    rw [List.filterMap_map]
    calc is.filterMap (parseMetadata ∘ fun i => metadataName i ++ xs)
        = is.filterMap some := List.filterMap_congr fun i hi =>
          parseMetadata_metadataName (m.nonempty i (hsub i hi)) (m.bounded i (hsub i hi)).1
            (m.bounded i (hsub i hi)).2 hx
      _ = is := List.filterMap_some
  have hinfos := hmap [] (by simp) fun i hi => List.mem_append_left m.pulls hi
  have hpulls := hmap ['.', 't', 'm', 'p'] (by simp) fun i hi =>
    List.mem_append_right m.infos hi
  simp only [List.append_nil] at hinfos
  rw [names, List.filterMap_append, hinfos]
  exact congrArg _ hpulls

/-- The entries of the directory are those of the metadata files and the pulls. -/
theorem entries_perm (hothers : ∀ n ∈ others, ¬ metadataPrefix <+: n)
    (hdir : dir.Perm (m.names ++ others)) : (dir.filterMap parseMetadata).Perm m.all := by
  refine (hdir.filterMap _).trans ?_
  have hnone : others.filterMap parseMetadata = [] :=
    List.filterMap_eq_nil_iff.mpr fun n hn => parseMetadata_other (hothers n hn)
  rw [List.filterMap_append, filterMap_names, hnone, List.append_nil]

/-- Some directory has the entries in this order. -/
theorem exists_dir {entries : List SegmentFileInfo} (hp : entries.Perm m.all)
    (hothers : ∀ n ∈ others, ¬ metadataPrefix <+: n) :
    ∃ dir : List Name, dir.Perm (m.names ++ others) ∧ dir.filterMap parseMetadata = entries :=
  exists_perm_filterMap (hp.trans (m.entries_perm hothers (List.Perm.refl _)).symm)

theorem recorded_table {entries : List SegmentFileInfo} (hp : entries.Perm m.all)
    (hfits : (m.all.map (·.range)).dedup.length ≤ scanTableSize) :
    Recorded entries (entries.foldl recordEntry []) := by
  refine recorded_foldl ?_
  have hperm := (hp.map SegmentFileInfo.range).dedup
  rwa [hperm.length_eq]

/-- The sorted table of the walk. -/
theorem sorted_table {entries segments : List SegmentFileInfo} (hp : entries.Perm m.all)
    (ht : Tabled entries segments) : Sorted (segments.insertionSort Before) := by
  have key {i : SegmentFileInfo} (hi : i ∈ segments.insertionSort Before) :
      ∃ e ∈ m.infos ++ m.pulls, e.startSid = i.startSid ∧ e.endSid = i.endSid := by
    obtain ⟨e, he, hr⟩ := List.mem_map.mp (ht.subset i ((List.mem_insertionSort Before).mp hi))
    obtain ⟨h₁, h₂⟩ := Prod.mk.injEq .. ▸ hr
    exact ⟨e, hp.mem_iff.mp he, h₁, h₂⟩
  refine ⟨List.pairwise_insertionSort Before _, ?_, fun i hi => ?_, fun i hi => ?_⟩
  · exact ((List.perm_insertionSort Before _).map _).nodup_iff.mpr ht.nodup
  · obtain ⟨e, he, h₁, h₂⟩ := key hi
    exact h₁ ▸ h₂ ▸ m.nonempty e he
  · obtain ⟨e, he, -, h₂⟩ := key hi
    exact h₂ ▸ (m.bounded e he).1

/-! ### The directories the scan copes with -/

/-- The range is that of a metadata file. -/
def listed (m : MetadataFiles) (i : SegmentFileInfo) : Bool :=
  m.infos.any fun e => decide (e.range = i.range)

theorem listed_iff : m.listed i ↔ ∃ e ∈ m.infos, e.range = i.range := by
  simp [listed]

/-- A pull that begins at a maximal range or inside it is no newer version of it. -/
theorem Plain.highest_eq (h : m.Plain) {entries : List SegmentFileInfo} (hp : entries.Perm m.all)
    (hi : m.listed i) (hmax : ∀ e ∈ m.infos, i.Within e → e.range = i.range) :
    (versionsOf entries i.range).foldr max 0 = (versionsOf m.infos i.range).foldr max 0 := by
  refine Nat.le_antisymm (highest_le fun t ht hr => ?_) (highest_le fun e he hr => ?_)
  · rcases List.mem_append.mp (hp.mem_iff.mp ht) with ht | ht
    · exact hr ▸ le_highest ht
    · obtain ⟨e, he, hb, hle, hv⟩ := h.pulls t ht
      obtain ⟨f, hf, hfi⟩ := listed_iff.mp hi
      have hft := hfi.trans hr.symm
      have hw : f.Within e := by
        obtain ⟨h₁, h₂⟩ := Prod.mk.injEq .. ▸ hft
        refine within_of_before (m.laminar e he f hf) (m.nonempty f (List.mem_append_left _ hf)) ?_
          (h₁ ▸ hle)
        unfold Before at *
        rwa [h₁, h₂]
      have hei := hmax e he (within_of_range hfi rfl hw)
      exact hr ▸ hv (hr.trans hei.symm)
  · exact hr ▸ le_highest (hp.mem_iff.mpr (List.mem_append_left _ he))

/-- The walk over the table of a plain directory. -/
theorem Plain.shadowed (h : m.Plain) {entries segments : List SegmentFileInfo}
    (hp : entries.Perm m.all) (hr : Recorded entries segments) :
    Shadowed m.listed uint32Max (segments.insertionSort Before) := by
  have hmem {i : SegmentFileInfo} : i ∈ segments.insertionSort Before ↔ i ∈ segments :=
    List.mem_insertionSort Before
  have key {i : SegmentFileInfo} (hi : i ∈ segments.insertionSort Before) :
      ∃ e ∈ m.all, e.range = i.range := by
    obtain ⟨e, he, her⟩ := List.mem_map.mp ((hr.ranges _).mp (List.mem_map_of_mem (hmem.mp hi)))
    exact ⟨e, hp.mem_iff.mp he, her⟩
  refine ⟨fun a ha hpa b hb hpb => ?_, fun b hb hpb hm f hf hw => ?_, fun hne => absurd rfl hne,
    fun a ha hpa => Or.inr ?_⟩
  · obtain ⟨e, he, hea⟩ := listed_iff.mp hpa
    obtain ⟨f, hf, hfb⟩ := listed_iff.mp hpb
    have hlam := m.laminar e he f hf
    obtain ⟨h₁, h₂⟩ := Prod.mk.injEq .. ▸ hea
    obtain ⟨h₃, h₄⟩ := Prod.mk.injEq .. ▸ hfb
    unfold Laminar Within at *
    rwa [h₁, h₂, h₃, h₄] at hlam
  · obtain ⟨e, he, heb⟩ := listed_iff.mp hpb
    obtain ⟨g, hg, hgf⟩ := key hf
    rw [← heb, ← hgf]
    exact h.sentinel e he ((congrArg Prod.snd heb).trans hm) g hg
      (within_of_range hgf.symm heb.symm hw)
  · obtain ⟨t, ht, hta⟩ := key ha
    have htp : t ∈ m.pulls := (List.mem_append.mp ht).resolve_left fun hin =>
      hpa (listed_iff.mpr ⟨t, hin, hta⟩)
    obtain ⟨e, he, hb, hle, -⟩ := h.pulls t htp
    obtain ⟨c, hc, hce⟩ := List.mem_map.mp ((hr.ranges _).mpr
      (List.mem_map_of_mem (hp.mem_iff.mpr (List.mem_append_left _ he))))
    refine ⟨c, hmem.mpr hc, listed_iff.mpr ⟨e, he, hce.symm⟩, ?_⟩
    obtain ⟨h₁, h₂⟩ := Prod.mk.injEq .. ▸ hta
    obtain ⟨h₃, h₄⟩ := Prod.mk.injEq .. ▸ hce
    unfold Before at *
    lia

/-- In ascending order an id is in one range at most. -/
theorem unique_of_ascending {out : List SegmentFileInfo}
    (hout : out.Pairwise fun a b => a.endSid < b.startSid) {sid : SegmentId}
    (hi : i ∈ out) (hj : j ∈ out) (hi' : i.startSid ≤ sid ∧ sid ≤ i.endSid)
    (hj' : j.startSid ≤ sid ∧ sid ≤ j.endSid) : i = j := by
  by_contra hne
  have hsym : out.Pairwise fun a b => a.endSid < b.startSid ∨ b.endSid < a.startSid :=
    hout.imp Or.inl
  have : Std.Symm fun a b : SegmentFileInfo => a.endSid < b.startSid ∨ b.endSid < a.startSid :=
    ⟨fun _ _ => Or.symm⟩
  rcases hsym.forall hi hj hne with hlt | hlt
  · lia
  · lia

theorem mem_listed_table {entries segments : List SegmentFileInfo} (hp : entries.Perm m.all)
    (hr : Recorded entries segments) : i ∈ (segments.insertionSort Before).filter m.listed ↔
      m.listed i ∧ i.version = (versionsOf entries i.range).foldr max 0 := by
  rw [List.mem_filter, List.mem_insertionSort, and_comm]
  refine and_congr_right fun hi => ⟨hr.version i, fun hv => ?_⟩
  obtain ⟨e, he, hei⟩ := listed_iff.mp hi
  have hin : i.range ∈ entries.map (·.range) :=
    List.mem_map.mpr ⟨e, hp.mem_iff.mpr (List.mem_append_left _ he), hei⟩
  obtain ⟨j, hj, hji⟩ := List.mem_map.mp ((hr.ranges _).mpr hin)
  have hvj := hr.version j hj
  rw [hji, ← hv] at hvj
  exact ext_range hji hvj ▸ hj

/-- What is left of the table, walked. -/
theorem Plain.mem_walk (h : m.Plain) {entries segments : List SegmentFileInfo}
    (hp : entries.Perm m.all) (hr : Recorded entries segments)
    (hs : Sorted (segments.insertionSort Before)) :
    i ∈ emitSegments none ((segments.insertionSort Before).filter m.listed) ↔
      i.range ∈ m.infos.map (·.range) ∧ i.version = (versionsOf m.infos i.range).foldr max 0 ∧
        ∀ e ∈ m.infos, i.Within e → e.range = i.range := by
  have hshadow := h.shadowed hp hr
  have hf := hs.filter m.listed
  have hlam : ∀ a ∈ (segments.insertionSort Before).filter m.listed,
      ∀ b ∈ (segments.insertionSort Before).filter m.listed, Laminar a b := fun a ha b hb =>
    hshadow.laminar a (List.mem_of_mem_filter ha) (List.mem_filter.mp ha).2 b
      (List.mem_of_mem_filter hb) (List.mem_filter.mp hb).2
  rw [mem_emitSegments hf.sorted hlam hf.nodup hf.nonempty (by simp), mem_listed_table hp hr]
  constructor
  · rintro ⟨⟨hi, hv⟩, -, hmax⟩
    have hmax' : ∀ e ∈ m.infos, i.Within e → e.range = i.range := by
      intro e he hw
      have hle : m.listed ⟨e.startSid, e.endSid, (versionsOf entries e.range).foldr max 0⟩ :=
        listed_iff.mpr ⟨e, he, rfl⟩
      rw [← hmax _ ((mem_listed_table hp hr).mpr ⟨hle, rfl⟩) hw]
      rfl
    exact ⟨List.mem_map.mpr (listed_iff.mp hi), hv.trans (h.highest_eq hp hi hmax'), hmax'⟩
  · rintro ⟨hr', hv, hmax⟩
    have hi : m.listed i := listed_iff.mpr (List.mem_map.mp hr')
    refine ⟨⟨hi, hv.trans (h.highest_eq hp hi hmax).symm⟩, by simp, fun j hj hw => ?_⟩
    obtain ⟨hj, hvj⟩ := (mem_listed_table hp hr).mp hj
    obtain ⟨e, he, hej⟩ := listed_iff.mp hj
    have hji : j.range = i.range := hej.symm.trans (hmax e he (within_of_range rfl hej.symm hw))
    exact ext_range hji (by rw [hvj, hv, hji, h.highest_eq hp hi hmax])

/-- A plain directory is scanned as it should. -/
theorem Plain.selects (h : m.Plain) (hothers : ∀ n ∈ others, ¬ metadataPrefix <+: n)
    (hdir : dir.Perm (m.names ++ others)) : Selects m.infos (scanDirectory dir) := by
  have hp := m.entries_perm hothers hdir
  have hr := recorded_table hp h.fits
  have hsorted := sorted_table hp (tabled_foldl (dir.filterMap parseMetadata))
  have hmem {i : SegmentFileInfo} := h.mem_walk (i := i) hp hr hsorted
  have hshadow := h.shadowed hp hr
  rw [scanDirectory, hshadow.emitFiles_filter hsorted]
  generalize (dir.filterMap parseMetadata).foldl recordEntry [] = segments at *
  have hf := hsorted.filter m.listed
  have hscan : emitFiles uint32Max ((segments.insertionSort Before).filter m.listed) =
      emitSegments none ((segments.insertionSort Before).filter m.listed) := by
    refine hf.emitFiles_eq (Or.inl ⟨rfl, rfl⟩) fun b hb hm f hf => ?_
    obtain ⟨hb, hpb⟩ := List.mem_filter.mp hb
    exact hshadow.sentinel b hb hpb hm f (List.mem_of_mem_filter hf)
  have hasc := (emitSegments_pairwise none hf.nonempty).1
  rw [hscan]
  refine ⟨hasc, fun i => hmem, fun e he sid hlo hhi => ?_⟩
  obtain ⟨b, hb, hbe⟩ : ∃ b ∈ (segments.insertionSort Before).filter m.listed,
      b.range = e.range :=
    ⟨⟨e.startSid, e.endSid, (versionsOf (dir.filterMap parseMetadata) e.range).foldr max 0⟩,
      (mem_listed_table hp hr).mpr ⟨listed_iff.mpr ⟨e, he, rfl⟩, rfl⟩, rfl⟩
  obtain ⟨hne, -⟩ | ⟨i, hi, hbefore, hle⟩ := hf.exists_emitFiles uint32Max hb
  · exact absurd rfl hne
  · have hif := mem_of_mem_emitFiles hi
    have hlam := hshadow.laminar i (List.mem_of_mem_filter hif) (List.mem_filter.mp hif).2 b
      (List.mem_of_mem_filter hb) (List.mem_filter.mp hb).2
    have hw : e.Within i :=
      within_of_range hbe rfl (within_of_before hlam (hf.nonempty b hb) hbefore hle)
    have hin := And.intro (hw.1.trans hlo) (hhi.trans hw.2)
    refine ⟨i, ⟨hscan ▸ hi, hin⟩, ?_⟩
    rintro j ⟨hj, hj'⟩
    exact unique_of_ascending hasc hj (hscan ▸ hi) hj' hin

/-! ### The directories that show it -/

/-- The pull that is read first is in the table, and what is taken covers it. -/
theorem covered_of_scanSelects (hothers : ∀ n ∈ others, ¬ metadataPrefix <+: n)
    (h : ScanSelects m others) (ht : t ∈ m.pulls) : m.Covered t := by
  obtain ⟨l₁, l₂, hl⟩ := List.append_of_mem (List.mem_append_right m.infos ht)
  have hp : (t :: (l₁ ++ l₂)).Perm m.all := by
    rw [all, hl]
    exact List.perm_middle.symm
  obtain ⟨dir, hdir, hentries⟩ := exists_dir hp hothers
  have hsel := h dir hdir
  have htab := tabled_foldl (t :: (l₁ ++ l₂))
  obtain ⟨j, hj, hjr, hjv⟩ := exists_foldl (List.mem_singleton_self t) (l₁ ++ l₂)
  rw [scanDirectory, hentries] at hsel
  obtain ⟨hne, -⟩ | ⟨i, hi, hb, hle⟩ := (sorted_table hp htab).exists_emitFiles
    uint32Max ((List.mem_insertionSort Before).mpr hj)
  · exact absurd rfl hne
  · obtain ⟨hir, hiv, -⟩ := (hsel.mem_iff i).mp hi
    obtain ⟨e, he, hei⟩ := List.mem_map.mp hir
    have hte : e.Before t ∧ t.startSid ≤ e.endSid := by
      obtain ⟨h₁, h₂⟩ := Prod.mk.injEq .. ▸ hei
      obtain ⟨h₃, h₄⟩ := Prod.mk.injEq .. ▸ hjr
      unfold Before at *
      lia
    refine ⟨e, he, hte.1, hte.2, fun hr => ?_⟩
    -- the table has one version of the range
    have hi' := (List.mem_insertionSort Before).mp (mem_of_mem_emitFiles hi)
    have hji : j = i := List.inj_on_of_nodup_map htab.nodup hj hi' (by rw [hjr, hr, hei])
    rw [hr, hei, ← hiv, ← hji]
    exact hjv

/-- The range that is read last finds no room. -/
theorem fits_of_scanSelects (hothers : ∀ n ∈ others, ¬ metadataPrefix <+: n)
    (h : ScanSelects m others) : (m.all.map (·.range)).dedup.length ≤ scanTableSize := by
  by_contra hbig
  have hinfos : ∃ e, e ∈ m.infos := by
    by_contra hnone
    push Not at hnone
    have hpulls : m.pulls = [] := List.eq_nil_iff_forall_not_mem.mpr fun t ht => by
      obtain ⟨e, he, -⟩ := covered_of_scanSelects hothers h ht
      exact hnone e he
    have hall : m.all = [] := by
      rw [all, List.eq_nil_iff_forall_not_mem.mpr hnone, hpulls, List.append_nil]
    rw [hall] at hbig
    simp at hbig
  obtain ⟨e, he⟩ := hinfos
  obtain ⟨i, ⟨hi, -⟩, -⟩ := (h _ (List.Perm.refl _)).covers e he e.startSid (Nat.le_refl _)
    (m.nonempty e (List.mem_append_left _ he))
  have himax := ((h _ (List.Perm.refl _)).mem_iff i).mp hi
  have hp : ((m.all.filter fun f => decide (f.range ≠ i.range)) ++
      m.all.filter fun f => !decide (f.range ≠ i.range)).Perm m.all :=
    List.filter_append_perm _ _
  obtain ⟨dir, hdir, hentries⟩ := exists_dir hp hothers
  have hi' := ((h dir hdir).mem_iff i).mpr himax
  rw [scanDirectory, hentries, List.foldl_append] at hi'
  have htab := tabled_foldl (m.all.filter fun f => decide (f.range ≠ i.range))
  generalize (m.all.filter fun f => decide (f.range ≠ i.range)).foldl recordEntry [] =
    segments at hi' htab
  have hnot : i.range ∉ segments.map (·.range) := fun hin => by
    obtain ⟨a, ha, har⟩ := List.mem_map.mp hin
    obtain ⟨f, hf, hfr⟩ := List.mem_map.mp (htab.subset a ha)
    have := (List.mem_filter.mp hf).2
    rw [hfr, har] at this
    simp at this
  have hfull : scanTableSize ≤ segments.length := by
    by_contra hroom
    have hsub : (m.all.map (·.range)).dedup.Subperm (i.range :: segments.map (·.range)) := by
      refine (List.nodup_dedup _).subperm fun r hr => ?_
      obtain ⟨f, hf, rfl⟩ := List.mem_map.mp (List.mem_dedup.mp hr)
      by_cases hfi : f.range = i.range
      · exact hfi ▸ List.mem_cons_self
      · exact List.mem_cons_of_mem _ (htab.full (Nat.lt_of_not_le hroom) f
          (List.mem_filter.mpr ⟨hf, by simpa using hfi⟩))
    have := hsub.length_le
    rw [List.length_cons, List.length_map] at this
    lia
  rw [foldl_of_full hfull hnot fun f hf => by simpa using (List.mem_filter.mp hf).2] at hi'
  exact hnot (List.mem_map_of_mem ((List.mem_insertionSort Before).mp (mem_of_mem_emitFiles hi')))

/-- The maximal range around one that ends at the largest id is taken, and then one inside it. -/
theorem sentinel_of_scanSelects (hothers : ∀ n ∈ others, ¬ metadataPrefix <+: n)
    (h : ScanSelects m others) (he : e ∈ m.infos) (hmax : e.endSid = uint32Max)
    {f : SegmentFileInfo} (hf : f ∈ m.all) (hw : f.Within e) : f.range = e.range := by
  have hsel := h _ (List.Perm.refl _)
  have hp := m.entries_perm hothers (List.Perm.refl _)
  have hr := recorded_table hp (fits_of_scanSelects hothers h)
  obtain ⟨i, ⟨hi, hlo, hhi⟩, -⟩ := hsel.covers e he e.startSid (Nat.le_refl _)
    (m.nonempty e (List.mem_append_left _ he))
  obtain ⟨hir, -, himax⟩ := (hsel.mem_iff i).mp hi
  obtain ⟨g, hg, hgi⟩ := List.mem_map.mp hir
  have hgi' := Prod.mk.injEq .. ▸ hgi
  have hei : e.Within i := by
    have hlam := m.laminar g hg e he
    have hbound := (m.bounded g (List.mem_append_left _ hg)).1
    by_cases hie : i.Within e
    · exact within_of_range (himax e he hie).symm rfl ⟨Nat.le_refl _, Nat.le_refl _⟩
    · unfold Laminar Within at *
      lia
  have himax : i.endSid = uint32Max := by
    have hbound := (m.bounded g (List.mem_append_left _ hg)).1
    have := hei.2
    lia
  have hfi : f.range = i.range := by
    by_contra hne
    obtain ⟨b, hb, hbf⟩ := List.mem_map.mp
      ((hr.ranges _).mpr (List.mem_map_of_mem (hp.mem_iff.mpr hf)))
    exact (sorted_table hp (tabled_foldl _)).not_ascending hi himax
      ((List.mem_insertionSort Before).mpr hb)
      (within_of_range hbf.symm rfl ⟨hei.1.trans hw.1, hw.2.trans hei.2⟩)
      (fun hbi => hne (hbf.symm.trans hbi)) hsel.ascending
  exact range_eq_of_within hw (within_of_range rfl hfi.symm hei)

end MetadataFiles

/-- The scan selects the current segments of exactly the plain directories. -/
theorem scanSelects_iff (hothers : ∀ n ∈ others, ¬ metadataPrefix <+: n) :
    ScanSelects m others ↔ m.Plain := by
  constructor
  · intro h
    exact ⟨MetadataFiles.fits_of_scanSelects hothers h,
      fun _ ht => MetadataFiles.covered_of_scanSelects hothers h ht,
      fun _ he hm _ hf hw => MetadataFiles.sentinel_of_scanSelects hothers h he hm hf hw⟩
  · intro h dir hdir
    exact h.selects hothers hdir

end Entries

/-! ## A pull that was cut short -/

/-- Version 1 of a segment is complete; the metadata of version 2 was being pulled. -/
def cutShort : MetadataFiles where
  infos := [⟨1, 1, 1⟩]
  pulls := [⟨1, 1, 2⟩]
  nonempty := by decide
  bounded := by decide
  laminar := by decide

example : scanDirectory cutShort.names = [⟨1, 1, 2⟩] := by decide +kernel

theorem not_scanSelects : ¬ ∀ (m : MetadataFiles) (others : List Name),
    (∀ n ∈ others, ¬ metadataPrefix <+: n) → ScanSelects m others := by
  intro h
  obtain ⟨e, he, -, -, hv⟩ := MetadataFiles.covered_of_scanSelects
    (fun n (hn : n ∈ []) => absurd hn List.not_mem_nil)
    (h cutShort [] (by simp)) (t := ⟨1, 1, 2⟩) (by decide)
  obtain rfl : e = ⟨1, 1, 1⟩ := by simpa [cutShort] using he
  have : ¬ 2 ≤ (versionsOf cutShort.infos (1, 1)).foldr max 0 := by decide
  exact this (hv rfl)

/-- Two versions of a segment, its range merged with the next, and a pull of the latter. -/
def merged : MetadataFiles where
  infos := [⟨1, 1, 1⟩, ⟨1, 2, 1⟩, ⟨1, 1, 2⟩]
  pulls := [⟨2, 2, 1⟩]
  nonempty := by decide
  bounded := by decide
  laminar := by decide

theorem scanSelects_merged : ScanSelects merged [filePath bitmapKind ⟨1, 1, 1⟩] :=
  (scanSelects_iff (by
    intro n hn
    obtain rfl := List.mem_singleton.mp hn
    exact List.append_nil (filePath _ _) ▸ not_metadataPrefix_filePath (by decide) [])).mpr
    { fits := by decide
      pulls := by
        intro t ht
        obtain rfl : t = ⟨2, 2, 1⟩ := by simpa [merged] using ht
        exact ⟨⟨1, 2, 1⟩, by decide, by decide, by decide, by decide⟩
      sentinel := by decide }

end VectorLsm.Storage
