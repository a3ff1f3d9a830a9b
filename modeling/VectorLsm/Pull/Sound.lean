import VectorLsm.Pull.Names

/-! # The directory of the standby

A file that has its name is the primary's, and on disk: it was renamed when all of it was there,
and no fetcher has it open. The same holds of every directory a crash may bring back.
-/

namespace VectorLsm.Pull

open Crash Storage

variable {p : Primary} {d : Dir} {i j : SegmentFileInfo} {k : FileKind} {n m : Name} {fd : ℕ}

/-- What holds of the names of the directory at some moment. -/
structure Names (p : Primary) (inodes : List (Inode UInt8)) (v : Entries Name) : Prop where
  mirror : ∀ i n, FileOf i n → ∀ fd, v.lookup n = some fd →
    v.lookup (tmpName n) ≠ some fd ∧
      ∃ bs, inodes[fd]? = some ⟨bs, true⟩ ∧ p.dir.read n = some bs
  whole : ∀ i, SingleChunk p i → metadataName i ∈ v → ∀ n, FileOf i n → p.dir.read n ≠ none →
    n ∈ v
  named : ∀ n ∈ v, ∀ i, parseMetadata n = some i → n = metadataName i ∨ n = pullName i

structure Sound (p : Primary) (d : Dir) : Prop where
  owned : Owned untmp d
  views : ∀ v ∈ d.views, Names p d.inodes v
  /-- A temporary file is none of the files that have had their names. -/
  apart : ∀ v ∈ d.views, ∀ i n, FileOf i n → ∀ fd, v.lookup n = some fd →
    d.entries.lookup (tmpName n) ≠ some fd

theorem Names.inodes {inodes inodes' : List (Inode UInt8)} {v : Entries Name}
    (h : Names p inodes v) (heq : ∀ i n, FileOf i n → ∀ fd, v.lookup n = some fd →
      inodes'[fd]? = inodes[fd]?) : Names p inodes' v where
  mirror := by
    intro i n hn fd hfd
    rw [heq i n hn fd hfd]
    exact h.mirror i n hn fd hfd
  whole := h.whole
  named := h.named

namespace Sound

/-! ## Every call keeps it -/

/-- A file that has no name of a version changes. -/
theorem modifyAt (h : Sound p d)
    (hfd : ∀ v ∈ d.views, ∀ i n, FileOf i n → v.lookup n ≠ some fd)
    (f : Inode UInt8 → Inode UInt8) : Sound p (d.modifyAt fd f) where
  owned := h.owned.modifyAt fd f
  views := fun v hv => (h.views v hv).inodes fun i n hn _ hj =>
    Disk.modifyAt_of_ne d (fun he => hfd v hv i n hn (hj.trans (congrArg some he.symm))) f
  apart := h.apart

/-- The directory gets new names; the files it had stay. -/
theorem push {e : Entries Name} {inodes : List (Inode UInt8)} (h : Sound p d)
    (howned : Owned untmp ⟨inodes, e, d.views⟩)
    (hinodes : ∀ fd < d.inodes.length, inodes[fd]? = d.inodes[fd]?) (hnames : Names p inodes e)
    (hapart : ∀ v ∈ d.views, ∀ i n, FileOf i n → ∀ fd, v.lookup n = some fd →
      e.lookup (tmpName n) ≠ some fd) : Sound p ⟨inodes, e, d.views⟩ where
  owned := howned
  views := by
    intro v hv
    rcases List.mem_cons.mp hv with rfl | hv
    · exact hnames
    · exact (h.views v hv).inodes fun i n _ fd hfd =>
        hinodes fd (h.owned.opened hv hfd).lt
  apart := by
    intro v hv i n hn fd hfd
    rcases List.mem_cons.mp hv with rfl | hv
    · exact (hnames.mirror i n hn fd hfd).1
    · exact hapart v hv i n hn fd hfd

theorem unlink (h : Sound p d) (hm : ∀ i n, FileOf i n → n ≠ m) : Sound p (d.unlink m) := by
  have hold {n : Name} (hn : n ≠ m) : (d.entries.erase m).lookup n = d.entries.lookup n :=
    AList.lookup_erase_ne hn
  have htmp {n : Name} {fd : ℕ} (hne : d.entries.lookup n ≠ some fd) :
      (d.entries.erase m).lookup n ≠ some fd := by
    by_cases hn : n = m
    · subst hn
      simp
    · rwa [hold hn]
  refine h.push (h.owned.unlink m) (fun _ _ => rfl) ⟨?_, ?_, ?_⟩ ?_
  · intro i n hn fd hfd
    rw [hold (hm i n hn)] at hfd
    obtain ⟨hne, hbs⟩ := (h.views _ mem_views).mirror i n hn fd hfd
    exact ⟨htmp hne, hbs⟩
  · intro i hs hi n hn hr
    rw [AList.mem_erase] at hi ⊢
    exact ⟨hm i n hn, (h.views _ mem_views).whole i hs hi.2 n hn hr⟩
  · exact fun n hn => (h.views _ mem_views).named n (AList.mem_erase.mp hn).2
  · exact fun v hv i n hn fd hfd => htmp (h.apart v hv i n hn fd hfd)

theorem ne_tmp (hn : FileOf j n) (i : SegmentFileInfo) (k : FileKind) :
    n ≠ tmpName (buildDestPath i k) := ne_tmpName (untmp_fileOf hn) (untmp_tmpName i k)

theorem unlink_tmp (h : Sound p d) (i : SegmentFileInfo) (k : FileKind) :
    Sound p (d.unlink (tmpName (buildDestPath i k))) :=
  h.unlink fun _ _ hn => ne_tmp hn i k

/-- The file that stands under a temporary name is no file of a version. -/
theorem lookup_ne (h : Sound p d)
    (hfd : d.entries.lookup (tmpName (buildDestPath i k)) = some fd) :
    ∀ v ∈ d.views, ∀ j n, FileOf j n → v.lookup n ≠ some fd := by
  intro v hv j n hn hnfd
  have hslot := (h.owned.opened mem_views hfd).names v hv n hnfd
  rw [untmp_fileOf hn, untmp_tmpName] at hslot
  exact h.apart v hv j n hn fd hnfd (hslot ▸ hfd)

theorem tmp_named (hi : Valid i) :
    parseMetadata (tmpName (buildDestPath i k)) = some j →
      tmpName (buildDestPath i k) = metadataName j ∨
        tmpName (buildDestPath i k) = pullName j := by
  intro hparse
  obtain ⟨rfl, rfl⟩ := parse_named hi (.inr rfl) hparse
  exact .inr rfl

/-- A temporary file is opened. -/
theorem create (h : Sound p d) (hi : Valid i) :
    Sound p (d.apply (.create (tmpName (buildDestPath i k)))) := by
  cases hfd : d.entries.lookup (tmpName (buildDestPath i k)) with
  | some fd =>
      rw [create_eq_modifyAt hfd]
      exact h.modifyAt (h.lookup_ne hfd) _
  | none =>
      have howned := h.owned.apply (within_create i k)
      rw [create_of_none hfd] at howned ⊢
      have hold {n : Name} (hn : n ≠ tmpName (buildDestPath i k)) :
          (d.entries.insert (tmpName (buildDestPath i k)) d.inodes.length).lookup n =
            d.entries.lookup n := AList.lookup_insert_ne hn
      have htmp {v : Entries Name} {n m : Name} {fd : ℕ} (hv : v ∈ d.views)
          (hm : v.lookup m = some fd) (hne : d.entries.lookup n ≠ some fd) :
          (d.entries.insert (tmpName (buildDestPath i k)) d.inodes.length).lookup n ≠
            some fd := by
        by_cases hn : n = tmpName (buildDestPath i k)
        · subst hn
          rw [AList.lookup_insert]
          intro hlen
          have hlt := (h.owned.opened hv hm).lt
          rw [← Option.some.inj hlen] at hlt
          exact lt_irrefl _ hlt
        · rwa [hold hn]
      have hinodes (fd : ℕ) (hlt : fd < d.inodes.length) :
          (d.inodes ++ [(⟨[], false⟩ : Inode UInt8)])[fd]? = d.inodes[fd]? :=
        List.getElem?_append_left hlt
      refine h.push howned hinodes ⟨?_, ?_, ?_⟩ ?_
      · intro j n hn fd hnfd
        rw [hold (ne_tmp hn i k)] at hnfd
        obtain ⟨hne, hbs⟩ := (h.views _ mem_views).mirror j n hn fd hnfd
        rw [hinodes fd (h.owned.opened mem_views hnfd).lt]
        exact ⟨htmp mem_views hnfd hne, hbs⟩
      · intro j hs hj n hn hr
        rw [AList.mem_insert] at hj ⊢
        rcases hj with hj | hj
        · exact absurd hj (ne_tmp (.inr (.inl rfl)) i k)
        · exact .inr ((h.views _ mem_views).whole j hs hj n hn hr)
      · intro n hn j hparse
        rcases (AList.mem_insert _).mp hn with rfl | hn
        · exact tmp_named hi hparse
        · exact (h.views _ mem_views).named n hn j hparse
      · exact fun v hv j n hn fd hfd => htmp hv hfd (h.apart v hv j n hn fd hfd)

/-- A temporary file gets its name once it is the primary's. The metadata comes last. -/
theorem rename (h : Sound p d) (hi : Valid i)
    (hfd : d.entries.lookup (tmpName (buildDestPath i k)) = some fd)
    (hdata : k ≠ .indexMetadata → ∃ bs, d.inodes[fd]? = some ⟨bs, true⟩ ∧
      p.dir.read (buildDestPath i k) = some bs)
    (hall : k = .metadata → SingleChunk p i → ∀ k', k' ≠ .indexMetadata → k' ≠ .metadata →
      buildDestPath i k' ∈ d.entries) :
    Sound p (d.apply (.rename (tmpName (buildDestPath i k)) (buildDestPath i k))) := by
  have howned := h.owned.apply (within_rename i k)
  by_cases hsame : d.entries.lookup (buildDestPath i k) = some fd
  · rw [rename_of_eq hfd hsame]
    exact h
  rw [rename_of_ne hfd hsame] at howned ⊢
  generalize htmpName : tmpName (buildDestPath i k) = tmp at *
  have htne : tmp ≠ buildDestPath i k := htmpName ▸ tmpName_ne _
  have hold {n : Name} (hn : n ≠ tmp) (hn' : n ≠ buildDestPath i k) :
      ((d.entries.erase tmp).insert (buildDestPath i k) fd).lookup n = d.entries.lookup n :=
    lookup_rename hn hn'
  have hgone : ((d.entries.erase tmp).insert (buildDestPath i k) fd).lookup tmp = none := by
    rw [AList.lookup_insert_ne htne, AList.lookup_erase]
  have hfile {j : SegmentFileInfo} {n : Name} (hn : FileOf j n) : n ≠ tmp :=
    htmpName ▸ ne_tmp hn i k
  -- the temporary names of other files are as they were
  have htmp {j : SegmentFileInfo} {n : Name} {fd' : ℕ} (hn : FileOf j n)
      (hne : d.entries.lookup (tmpName n) ≠ some fd') :
      ((d.entries.erase tmp).insert (buildDestPath i k) fd).lookup (tmpName n) ≠ some fd' := by
    by_cases hnt : tmpName n = tmp
    · rw [hnt, hgone]
      simp
    · rwa [hold hnt (ne_tmpName (untmp_buildDestPath i k) (untmp_tmpName_fileOf hn)).symm]
  have hmem {n : Name} : n ∈ (d.entries.erase tmp).insert (buildDestPath i k) fd ↔
      n = buildDestPath i k ∨ n ≠ tmp ∧ n ∈ d.entries := by
    rw [AList.mem_insert, AList.mem_erase]
  refine h.push howned (fun _ _ => rfl) ⟨?_, ?_, ?_⟩ ?_
  · intro j n hn fd' hnfd
    by_cases hnk : n = buildDestPath i k
    · subst hnk
      have hk : k ≠ .indexMetadata := by
        rintro rfl
        exact ne_indexMetadata hn i rfl
      obtain rfl : fd = fd' := by simpa using hnfd
      rw [htmpName, hgone]
      exact ⟨by simp, hdata hk⟩
    · rw [hold (hfile hn) hnk] at hnfd
      obtain ⟨hne, hbs⟩ := (h.views _ mem_views).mirror j n hn fd' hnfd
      exact ⟨htmp hn hne, hbs⟩
  · intro j hs hj n hn hr
    rw [hmem] at hj ⊢
    rcases hj with hj | ⟨-, hj⟩
    · have hk : k ≠ .indexMetadata := by
        rintro rfl
        exact ne_indexMetadata (.inr (.inl rfl)) i hj
      obtain ⟨rfl, rfl⟩ : j = i ∧ .metadata = k := buildDestPath_inj (by decide) hk hj
      obtain ⟨k', hk', rfl⟩ := hs.eq_buildDestPath hn hr
      by_cases hkm : k' = .metadata
      · exact .inl (hkm ▸ rfl)
      · exact .inr ⟨hfile hn, hall rfl hs k' hk' hkm⟩
    · exact .inr ⟨hfile hn, (h.views _ mem_views).whole j hs hj n hn hr⟩
  · intro n hn j hparse
    rcases hmem.mp hn with rfl | ⟨-, hn⟩
    · rw [← List.append_nil (buildDestPath i k)] at hparse
      obtain ⟨rfl, rfl⟩ := parse_named hi (.inl rfl) hparse
      exact .inl rfl
    · exact (h.views _ mem_views).named n hn j hparse
  · exact fun v hv j n hn fd' hnfd => htmp hn (h.apart v hv j n hn fd' hnfd)

/-- A crash that brings back the names of some moment. -/
theorem crash {o : Outcome Name UInt8} {v : Entries Name} (h : Sound p d) (ho : d.Leaves o)
    (hv : v ∈ d.views) (hov : ∀ n, o.entries.lookup n = v.lookup n) :
    Sound p (Crash.Disk.crash o) := by
  have hmem {n : Name} : n ∈ o.entries ↔ n ∈ v := by
    rw [← AList.lookup_isSome, ← AList.lookup_isSome, hov]
  have hviews {w : Entries Name} (hw : w ∈ (Crash.Disk.crash o).views) : w = o.entries := by
    simpa [Disk.crash, Disk.views] using hw
  have hmirror (i : SegmentFileInfo) (n : Name) (hn : FileOf i n) (fd : ℕ)
      (hfd : o.entries.lookup n = some fd) : o.entries.lookup (tmpName n) ≠ some fd ∧
        ∃ bs, (Crash.Disk.crash o).inodes[fd]? = some ⟨bs, true⟩ ∧ p.dir.read n = some bs := by
    rw [hov] at hfd ⊢
    obtain ⟨hne, bs, hbs, hr⟩ := (h.views v hv).mirror i n hn fd hfd
    exact ⟨hne, bs, ho.inode hbs, hr⟩
  refine ⟨h.owned.crash ho, fun w hw => ?_, fun w hw i n hn fd hfd => ?_⟩
  · obtain rfl := hviews hw
    refine ⟨hmirror, fun i hs hi n hn hr => ?_, fun n hn => ?_⟩
    · rw [hmem] at hi ⊢
      exact (h.views v hv).whole i hs hi n hn hr
    · exact (h.views v hv).named n (hmem.mp hn)
  · obtain rfl := hviews hw
    exact (hmirror i n hn fd hfd).1

/-! ## What it is worth -/

/-- A version in single chunks whose metadata has its name is complete. -/
theorem complete (h : Sound p d) (hs : SingleChunk p i) (hi : metadataName i ∈ d.entries) :
    Complete p d i := by
  have hread (n : Name) (hn : FileOf i n) : d.read n = p.dir.read n := by
    cases hfd : d.entries.lookup n with
    | some fd =>
        obtain ⟨-, bs, hbs, hr⟩ := (h.views _ mem_views).mirror i n hn fd hfd
        rw [hr, Crash.Disk.read, hfd, Option.bind_some, hbs]
        rfl
    | none =>
        have hnone : p.dir.read n = none := by
          by_contra hr
          have hmem := (h.views _ mem_views).whole i hs hi n hn hr
          exact absurd hmem (AList.lookup_eq_none.mp hfd)
        rw [hnone, Crash.Disk.read, hfd]
        rfl
  have hchunks {kind : Name} (hkind : kind ∈ chunkedKinds) (c : ℕ) :
      d.read (finalPath (filePath kind (fileVersion i)) c) =
        p.dir.read (finalPath (filePath kind (fileVersion i)) c) :=
    hread _ (.inr (.inr ⟨kind, hkind, c, rfl⟩))
  exact ⟨hread _ (.inl rfl), hread _ (.inr (.inl rfl)),
    readSegmentFile_congr (hchunks (by decide)) false,
    readSegmentFile_congr (hchunks (by decide)) false,
    readSegmentFile_congr (hchunks (by decide)) true⟩

/-- Without temporary files the scan reports what has its metadata. -/
theorem scanned (h : Sound p d) (hpull : ∀ i, pullName i ∉ d.entries) {names : List Name}
    (hnames : names.Perm d.entries.keys) (hi : i ∈ scanDirectory names) :
    metadataName i ∈ d.entries := by
  obtain ⟨n, hn, hparse⟩ := mem_scanDirectory hi
  have hmem : n ∈ d.entries := AList.mem_keys.mpr (hnames.mem_iff.mp hn)
  rcases (h.views _ mem_views).named n hmem i hparse with rfl | rfl
  · exact hmem
  · exact absurd hmem (hpull i)

end Sound

end VectorLsm.Pull
