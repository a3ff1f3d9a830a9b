import VectorLsm.Pull.Machine
import VectorLsm.Storage.RoundTrip

/-! # Names and replies

The files of different versions and kinds have different names, also while they are temporary,
and the scan takes none but metadata for entries. A size comes back as it was sent.
-/

namespace VectorLsm

open Crash Storage Decimal

namespace Storage

variable {d d' : Dir} {path : Name}

/-- What a file reads back as depends on its chunks alone. -/
theorem readSegmentFile_congr (h : ∀ c, d.read (finalPath path c) = d'.read (finalPath path c))
    (counted : Bool) : readSegmentFile d path counted = readSegmentFile d' path counted := by
  have hmissing : ∃ c, d.read (finalPath path c) = none := by
    by_contra! hall
    have hrow : Follows d path 0 d.entries.keys.length := ⟨Nat.zero_le _, fun j _ _ => hall j⟩
    exact absurd (lt_keys hrow) (lt_irrefl _)
  classical
  let n := Nat.find hmissing
  let cs := (List.range n).map fun j => (d.read (finalPath path j)).getD []
  have hlen : cs.length = n := by simp [cs]
  have hsome (i : ℕ) (hi : i < cs.length) : d.read (finalPath path i) = some cs[i] := by
    have hne := Nat.find_min hmissing (hlen ▸ hi)
    obtain ⟨bs, hbs⟩ := Option.ne_none_iff_exists'.mp hne
    simp [cs, hbs]
  have hnone : d.read (finalPath path cs.length) = none := by
    rw [hlen]
    exact Nat.find_spec hmissing
  have hread := readSegmentFile_chunks hsome hnone
  have hread' := readSegmentFile_chunks (d := d') (fun i hi => (h i).symm.trans (hsome i hi))
    ((h _).symm.trans hnone)
  simp only [readSegmentFile, hread, hread']

end Storage

namespace Pull

variable {i j : SegmentFileInfo} {k k' : FileKind} {n m : Name} {p : Primary}

/-! ## Names -/

/-- The first field of a name. -/
def kindName : FileKind → Name
  | .index => indexKind
  | .mapping => mappingKind
  | .offset => offsetKind
  | .bitmap => bitmapKind
  | .metadata | .indexMetadata => metadataKind

theorem kindName_mem (k : FileKind) : kindName k ∈ metadataKind :: fileKinds := by
  cases k <;> decide

theorem kindName_inj (hk : k ≠ .indexMetadata) (hk' : k' ≠ .indexMetadata)
    (h : kindName k = kindName k') : k = k' := by
  revert h
  cases k <;> cases k' <;> first | exact absurd rfl hk | exact absurd rfl hk' | decide

theorem fileVersion_inj (h : fileVersion i = fileVersion j) : i = j := by
  obtain ⟨h₁, h₂, h₃⟩ := Version.mk.injEq .. ▸ h
  cases i
  cases j
  simp_all

theorem path_no_dot {kind : Name} (h : kind ∈ metadataKind :: fileKinds) (v : Version) :
    '.' ∉ filePath kind v := filePath_no_dot (kind_no_dot h)

theorem chunked_mem {kind : Name} (h : kind ∈ chunkedKinds) : kind ∈ metadataKind :: fileKinds := by
  have hall : ∀ kind ∈ chunkedKinds, kind ∈ metadataKind :: fileKinds := by decide
  exact hall kind h

theorem pathOf_buildDestPath (hk : k ≠ .indexMetadata) :
    pathOf (buildDestPath i k) = filePath (kindName k) (fileVersion i) := by
  have hdot := path_no_dot (kindName_mem k) (fileVersion i)
  cases k with
  | index | metadata => exact pathOf_path hdot
  | mapping | offset | bitmap => exact pathOf_finalPath hdot 0
  | indexMetadata => exact absurd rfl hk

/-- The names of the files that are pulled tell them apart. -/
theorem buildDestPath_inj (hk : k ≠ .indexMetadata) (hk' : k' ≠ .indexMetadata)
    (h : buildDestPath i k = buildDestPath j k') : i = j ∧ k = k' := by
  have hpath := congrArg pathOf h
  rw [pathOf_buildDestPath hk, pathOf_buildDestPath hk',
    filePath_inj (kind_no_sep (kindName_mem k)) (kind_no_sep (kindName_mem k'))] at hpath
  exact ⟨fileVersion_inj hpath.2, kindName_inj hk hk' hpath.1⟩

theorem fileOf_buildDestPath (hk : k ≠ .indexMetadata) : FileOf i (buildDestPath i k) := by
  have hmem : ∀ k, k = .mapping ∨ k = .offset ∨ k = .bitmap → kindName k ∈ chunkedKinds := by
    rintro _ (rfl | rfl | rfl) <;> decide
  cases k with
  | index => exact .inl rfl
  | metadata => exact .inr (.inl rfl)
  | mapping => exact .inr (.inr ⟨_, hmem .mapping (by simp), 0, rfl⟩)
  | offset => exact .inr (.inr ⟨_, hmem .offset (by simp), 0, rfl⟩)
  | bitmap => exact .inr (.inr ⟨_, hmem .bitmap (by simp), 0, rfl⟩)
  | indexMetadata => exact absurd rfl hk

theorem untmp_fileOf (h : FileOf i n) : untmp n = n := by
  rcases h with rfl | rfl | ⟨kind, hkind, c, rfl⟩
  · exact untmp_path (path_no_dot (kindName_mem .index) _)
  · exact untmp_path (path_no_dot (kindName_mem .metadata) _)
  · exact untmp_finalPath (path_no_dot (chunked_mem hkind) _) c

theorem untmp_buildDestPath (i : SegmentFileInfo) (k : FileKind) :
    untmp (buildDestPath i k) = buildDestPath i k := by
  by_cases hk : k = .indexMetadata
  · subst hk
    rfl
  · exact untmp_fileOf (fileOf_buildDestPath hk)

theorem untmp_tmpName_path {path : Name} (hp : '.' ∉ path) : untmp (tmpName path) = path := by
  rw [tmpName, untmp_append hp]
  exact List.append_nil path

/-- A temporary name is that of its file. -/
theorem untmp_tmpName_fileOf (h : FileOf i n) : untmp (tmpName n) = n := by
  rcases h with rfl | rfl | ⟨kind, hkind, c, rfl⟩
  · exact untmp_tmpName_path (path_no_dot (kindName_mem .index) _)
  · exact untmp_tmpName_path (path_no_dot (kindName_mem .metadata) _)
  · obtain ⟨a, as, ha, hdigit⟩ := head_digits c
    have hne : a ≠ 't' := by
      rintro rfl
      simp at hdigit
    have hrest : untmp ('.' :: (digits c ++ ['.', 't', 'm', 'p'])) = '.' :: digits c := by
      rw [untmp, untmp_append (digits_no_dot c)]
      · exact congrArg _ (List.append_nil _)
      · intro r _ hr
        rw [ha, List.cons_append, List.cons.injEq] at hr
        exact hne hr.1
    rw [tmpName, finalPath, List.append_assoc,
      untmp_append (path_no_dot (chunked_mem hkind) _), List.cons_append, hrest]

theorem untmp_tmpName (i : SegmentFileInfo) (k : FileKind) :
    untmp (tmpName (buildDestPath i k)) = buildDestPath i k := by
  by_cases hk : k = .indexMetadata
  · subst hk
    rfl
  · exact untmp_tmpName_fileOf (fileOf_buildDestPath hk)

/-- The calls are about the files of one slot. -/
theorem within_create (i : SegmentFileInfo) (k : FileKind) :
    (Op.create (tmpName (buildDestPath i k)) : Op Name UInt8).Within untmp (buildDestPath i k) :=
  untmp_tmpName i k

theorem within_rename (i : SegmentFileInfo) (k : FileKind) :
    (Op.rename (tmpName (buildDestPath i k)) (buildDestPath i k) : Op Name UInt8).Within untmp
      (buildDestPath i k) := ⟨untmp_tmpName i k, untmp_buildDestPath i k⟩

theorem tmpName_ne (n : Name) : tmpName n ≠ n := by
  intro h
  have hlen := congrArg List.length h
  simp [tmpName] at hlen

/-- What is not temporary has no temporary name. -/
theorem ne_tmpName (hn : untmp n = n) (hm : untmp (tmpName m) = m) : n ≠ tmpName m := by
  rintro rfl
  exact tmpName_ne m (hn.symm.trans hm)

theorem sep_mem_of_fileOf (h : FileOf i n) : '_' ∈ n := by
  rcases h with rfl | rfl | ⟨kind, -, c, rfl⟩
  · simp [filePath]
  · simp [metadataName, metadataPath, filePath]
  · simp [finalPath, filePath]

theorem ne_indexMetadata (h : FileOf i n) (j : SegmentFileInfo) :
    n ≠ buildDestPath j .indexMetadata := by
  rintro rfl
  have hsep : '_' ∈ metadataKind := sep_mem_of_fileOf h
  exact absurd hsep (by decide)

/-- Of a version in single chunks the primary has the files that are pulled. -/
theorem SingleChunk.eq_buildDestPath (h : SingleChunk p i) (hn : FileOf i n)
    (hr : p.dir.read n ≠ none) : ∃ k, k ≠ .indexMetadata ∧ n = buildDestPath i k := by
  rcases hn with rfl | rfl | ⟨kind, hkind, c, rfl⟩
  · exact ⟨.index, by decide, rfl⟩
  · exact ⟨.metadata, by decide, rfl⟩
  · obtain rfl : c = 0 := by
      by_contra hc
      exact hr (h kind hkind c (Nat.pos_of_ne_zero hc))
    simp only [chunkedKinds, List.mem_cons, List.not_mem_nil, or_false] at hkind
    rcases hkind with rfl | rfl | rfl
    · exact ⟨.mapping, by decide, rfl⟩
    · exact ⟨.offset, by decide, rfl⟩
    · exact ⟨.bitmap, by decide, rfl⟩

/-- The scan takes a name that is pulled for the version it is of, if for any. -/
theorem parse_named (hi : Valid i) {r : Name} (hr : r = [] ∨ r = ['.', 't', 'm', 'p'])
    (h : parseMetadata (buildDestPath i k ++ r) = some j) : k = .metadata ∧ j = i := by
  obtain ⟨hle, hend, hver⟩ := hi
  have hother (kind : Name) (hkind : kind ∈ fileKinds) (r : Name) :
      parseMetadata (filePath kind (fileVersion i) ++ r) = none :=
    parseMetadata_other (not_metadataPrefix_filePath hkind r)
  have hdigit : ∀ c ∈ r.head?, ¬ c.isDigit := by
    rcases hr with rfl | rfl <;> simp
  cases k with
  | metadata =>
      have hparse := parseMetadata_metadataName hle hend hver hdigit
      exact ⟨rfl, (Option.some.inj (hparse.symm.trans h)).symm⟩
  | index =>
      rw [buildDestPath, buildFilePath, hother _ (by decide)] at h
      cases h
  | mapping | offset | bitmap =>
      rw [buildDestPath, buildFilePath, finalPath, List.append_assoc, hother _ (by decide)] at h
      cases h
  | indexMetadata =>
      have hnone : parseMetadata (metadataKind ++ r) = none := by
        rcases hr with rfl | rfl <;> decide
      exact absurd (hnone.symm.trans h) (Option.some_ne_none j).symm

theorem mem_recordEntry {segments : List SegmentFileInfo} {e : SegmentFileInfo}
    (h : i ∈ recordEntry segments e) : i ∈ segments ∨ i = e := by
  unfold recordEntry at h
  split at h
  · obtain ⟨j, hj, rfl⟩ := List.mem_map.mp h
    split
    case isTrue hr =>
      rcases le_total j.version e.version with hle | hle
      · exact .inr (SegmentFileInfo.ext_range hr (max_eq_right hle))
      · rw [max_eq_left hle]
        exact .inl hj
    case isFalse => exact .inl hj
  · split at h
    · rcases List.mem_append.mp h with h | h
      · exact .inl h
      · exact .inr (List.mem_singleton.mp h)
    · exact .inl h

/-- What the scan reports is the name of some file. -/
theorem mem_scanDirectory {names : List Name} (h : i ∈ scanDirectory names) :
    ∃ n ∈ names, parseMetadata n = some i := by
  have hi := (List.mem_insertionSort _).mp (mem_of_mem_emitFiles h)
  have hfold : ∀ j ∈ (names.filterMap parseMetadata).foldl recordEntry [],
      j ∈ names.filterMap parseMetadata := by
    refine List.foldlRecOn (motive := fun segments => ∀ j ∈ segments,
      j ∈ names.filterMap parseMetadata) _ _ (by simp) fun segments hs e he j hj => ?_
    rcases mem_recordEntry hj with hj | rfl
    · exact hs j hj
    · exact he
  exact List.mem_filterMap.mp (hfold i hi)

/-! ## Replies -/

theorem length_sizeBytes (n : ℕ) : (sizeBytes n).length = 8 := rfl

theorem sizeOfBytes_sizeBytes {n : ℕ} (h : n < 2 ^ 64) : sizeOfBytes (sizeBytes n) = n := by
  simp only [sizeOfBytes, sizeBytes, List.foldl_cons, List.foldl_nil, UInt8.toNat_ofNat']
  omega

/-- A reply that begins with the byte for success is that of a file, cut short somewhere. -/
theorem ok_of_reply {bytes : List UInt8} {fate : Fate} (h : resultOk :: bytes = reply p i k fate) :
    ∃ data, p.dir.read (buildFilePath i k) = some data ∧
      bytes <+: sizeBytes data.length ++ data := by
  have hpre : resultOk :: bytes <+: serve p i k fate := h ▸ List.take_prefix _ _
  unfold serve at hpre
  split at hpre
  · split at hpre
    case h_1 =>
      have hne := (List.cons_prefix_cons.mp hpre).1
      exact absurd hne (by decide)
    case h_2 data hdata =>
      split at hpre
      · exact ⟨data, hdata, (List.cons_prefix_cons.mp hpre).2⟩
      · have hne := (List.cons_prefix_cons.mp hpre).1
        exact absurd hne (by decide)
  · have hne := (List.cons_prefix_cons.mp hpre).1
    exact absurd hne (by decide)

/-- The size that is read is that of the file. -/
theorem size_of_prefix {bytes data : List UInt8} (hlen : data.length < 2 ^ 63)
    (h : bytes <+: sizeBytes data.length ++ data) (h8 : ¬ bytes.length < 8) :
    sizeOfBytes (bytes.take 8) = data.length ∧ bytes.drop 8 <+: data := by
  obtain ⟨rest, hrest⟩ := h
  have htake : bytes.take 8 = sizeBytes data.length := by
    have := congrArg (List.take 8) hrest
    rwa [List.take_append_of_le_length (Nat.le_of_not_lt h8),
      List.take_left' (length_sizeBytes _)] at this
  have hdrop : bytes.drop 8 ++ rest = data := by
    have := congrArg (List.drop 8) hrest
    rwa [List.drop_append_of_le_length (Nat.le_of_not_lt h8),
      List.drop_left' (length_sizeBytes _)] at this
  refine ⟨?_, rest, hdrop⟩
  rw [htake, sizeOfBytes_sizeBytes (by omega)]

end Pull

end VectorLsm
