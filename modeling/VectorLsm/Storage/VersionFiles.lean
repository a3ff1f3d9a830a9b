import VectorLsm.Storage.Flush

/-! # The files of a version

Each file is told from the others by its path. Once a version's files have been written, those in
chunks are on disk and the index can be read; system calls about other files leave them so.
-/

namespace VectorLsm.Storage

open Crash

variable {d : Dir} {path : Name} {data : List UInt8} {count : Option UInt32}
  {op : Op Name UInt8} {ops : List (Op Name UInt8)} {kind kind' : Name} {v v' : Version}
  {prep : PrepareFlushMeta} {o : Outcome Name UInt8}

/-! ## Files by their path -/

/-- The path of a file, of whatever chunk and temporary or not. -/
def pathOf : Name → Name := (fun n => n.takeWhile (· ≠ '.')) ∘ untmp

theorem takeWhile_no_dot {p xs : List Char} (hp : '.' ∉ p) :
    (p ++ '.' :: xs).takeWhile (· ≠ '.') = p := by
  rw [List.takeWhile_append_of_pos, List.takeWhile_cons_of_neg (by simp), List.append_nil]
  intro c hc
  simpa using fun h : c = '.' => hp (h ▸ hc)

theorem pathOf_finalPath (hp : '.' ∉ path) (i : ℕ) : pathOf (finalPath path i) = path := by
  rw [pathOf, Function.comp, untmp_finalPath hp, finalPath, takeWhile_no_dot hp]

theorem untmp_path (hp : '.' ∉ path) : untmp path = path := by
  have huntmp := untmp_append (r := []) hp
  rwa [untmp, List.append_nil] at huntmp

theorem takeWhile_path (hp : '.' ∉ path) : path.takeWhile (· ≠ '.') = path := by
  rw [List.takeWhile_eq_self_iff]
  intro c hc
  simpa using fun h : c = '.' => hp (h ▸ hc)

theorem pathOf_path (hp : '.' ∉ path) : pathOf path = path := by
  rw [pathOf, Function.comp, untmp_path hp, takeWhile_path hp]

theorem metadataPath_no_dot (v : Version) : '.' ∉ metadataPath v := filePath_no_dot (by decide)

theorem untmp_metadataTmpPath (v : Version) : untmp (metadataTmpPath v) = metadataPath v := by
  have hkind : '.' ∉ metadataKind := by decide
  rw [metadataTmpPath, filePath, List.append_assoc, untmp_append hkind]
  rfl

/-- The kinds of files of a version. -/
def fileKinds : List Name := [indexKind, bitmapKind, mappingKind, offsetKind]

theorem kind_no_sep (h : kind ∈ metadataKind :: fileKinds) : '_' ∉ kind := by
  have hall : ∀ kind ∈ metadataKind :: fileKinds, '_' ∉ kind := by decide
  exact hall kind h

theorem kind_no_dot (h : kind ∈ metadataKind :: fileKinds) : '.' ∉ kind := by
  have hall : ∀ kind ∈ metadataKind :: fileKinds, '.' ∉ kind := by decide
  exact hall kind h

theorem filePath_inj (h : '_' ∉ kind) (h' : '_' ∉ kind') :
    filePath kind v = filePath kind' v' ↔ kind = kind' ∧ v = v' := by
  constructor
  · intro heq
    have hdot : filePath kind v ++ '.' :: [] = filePath kind' v' ++ '.' :: [] := by rw [heq]
    have hparts := (filePath_eq_iff h h' (by decide) (by decide)).mp hdot
    exact ⟨hparts.1, hparts.2.1⟩
  · rintro ⟨rfl, rfl⟩
    rfl

/-- A system call about the file of this path, or about the directory. -/
def About (p : Name) (op : Op Name UInt8) : Prop :=
  ∃ s, op.Within untmp s ∧ s.takeWhile (· ≠ '.') = p

theorem About.within {p : Name} (h : About p op) : op.Within pathOf p := by
  obtain ⟨s, hop, rfl⟩ := h
  exact hop.map _

theorem about_writeSegmentFile (hp : '.' ∉ path) (h : op ∈ writeSegmentFile path data count) :
    About path op := by
  rcases within_writeSegmentFile hp h with rfl | ⟨i, -, hop⟩
  · exact ⟨path, trivial, takeWhile_path hp⟩
  · exact ⟨_, hop, takeWhile_no_dot hp⟩

/-- The rule of frames for files: what is known of a name is known after system calls about other
files. -/
theorem frame_path {P : Dir → Prop} {n : Name} (hd : Owned untmp d)
    (hops : ∀ op ∈ ops, ∃ p, About p op ∧ pathOf n ≠ p)
    (hP : ∀ d d', Kept n d d' → P d → P d') (h : P d) : P (d.run ops) := by
  have howned : Owned pathOf d := hd.map _
  refine howned.run (n := n) ?_ hP h
  intro op hop
  obtain ⟨p, hp, hne⟩ := hops op hop
  exact ⟨p, hp.within, hne⟩

theorem owned_run (hd : Owned untmp d) (hops : ∀ op ∈ ops, ∃ p, About p op) :
    Owned untmp (d.run ops) := by
  refine hd.runs ?_
  intro op hop
  obtain ⟨p, s, hs, -⟩ := hops op hop
  exact ⟨s, hs⟩

/-! ## Files on disk -/

/-- All chunks of the file are on disk, and no more of them. -/
structure Stored (path : Name) (data : List UInt8) (count : Option UInt32) (d : Dir) : Prop where
  durable : ∀ i, (hi : i < (chunkData data count).length) →
    Durable (finalPath path i) (chunkData data count)[i] d
  ends : Fixed (finalPath path (chunkData data count).length) none d

theorem Stored.run (h : Stored path data count d) (hp : '.' ∉ path) (hd : Owned untmp d)
    (hops : ∀ op ∈ ops, ∃ p, About p op ∧ path ≠ p) : Stored path data count (d.run ops) := by
  have hops' : ∀ i, ∀ op ∈ ops, ∃ p, About p op ∧ pathOf (finalPath path i) ≠ p := by
    intro i
    rwa [pathOf_finalPath hp]
  refine ⟨fun i hi => ?_, ?_⟩
  · exact frame_path hd (hops' i) (fun _ _ hk hd => hk.durable hd) (h.durable i hi)
  · exact frame_path hd (hops' _) (fun _ _ hk hd => hk.fixed hd) h.ends

theorem Stored.crash (h : Stored path data count d) (ho : d.Leaves o) :
    Stored path data count (Crash.Disk.crash o) :=
  ⟨fun i hi => (h.durable i hi).crash ho, h.ends.crash ho⟩

theorem stored_writeSegmentFile (hp : '.' ∉ path) (hd : Owned untmp d)
    (hends : Fixed (finalPath path (chunkData data count).length) none d) :
    Stored path data count (d.run (writeSegmentFile path data count)) := by
  refine ⟨fun i hi => durable_writeSegmentFile hp hd hi, ?_⟩
  refine hd.run (n := finalPath path (chunkData data count).length) ?_
    (fun _ _ hk hd => hk.fixed hd) hends
  intro op hop
  rw [untmp_finalPath hp]
  rcases within_writeSegmentFile hp hop with rfl | ⟨i, hi, hop⟩
  · exact ⟨[], trivial, by simp [finalPath]⟩
  · refine ⟨_, hop, ?_⟩
    rw [Ne, finalPath_inj]
    omega

theorem Stored.map (h : Stored path data none d) : (readSegmentFile d path false).data = data := by
  rw [readSegmentFile_none (fun i hi => (h.durable i hi).read) h.ends.read]

theorem Stored.bitmap {n : UInt32} (h : Stored path data (some n) d) :
    (readSegmentFile d path true).data = data ∧
      (readSegmentFile d path true).deleteCount = some n := by
  rw [readSegmentFile_some (fun i hi => (h.durable i hi).read) h.ends.read]
  exact ⟨rfl, rfl⟩

/-- The files of a version are there: those written in chunks on disk, the index to be read. -/
structure Written (prep : PrepareFlushMeta) (v : Version) (d : Dir) : Prop where
  index : ∀ bin, prep.index = some bin → d.read (filePath indexKind v) = some bin
  bitmap : Stored (filePath bitmapKind v) prep.bitmap (some prep.deleteCount) d
  map : Stored (filePath mappingKind v) prep.map none d
  offsets : ∀ offsets, prep.offsets = some offsets →
    Stored (filePath offsetKind v) offsets none d

theorem Written.readsBack (h : Written prep v d) : ReadsBack d v prep where
  index := h.index
  bitmap := h.bitmap.bitmap.1
  deleteCount := h.bitmap.bitmap.2
  map := h.map.map
  offsets := fun offsets ho => (h.offsets offsets ho).map

theorem fileKind_no_dot (h : kind ∈ fileKinds) : '.' ∉ filePath kind v :=
  filePath_no_dot (kind_no_dot (List.mem_cons_of_mem _ h))

/-- System calls about other files leave the files of a version. -/
theorem Written.run (h : Written prep v d) (hd : Owned untmp d)
    (hops : ∀ op ∈ ops, ∃ p, About p op ∧ ∀ kind ∈ fileKinds, filePath kind v ≠ p) :
    Written prep v (d.run ops) := by
  have hops' : ∀ kind ∈ fileKinds, ∀ op ∈ ops, ∃ p, About p op ∧ filePath kind v ≠ p := by
    intro kind hkind op hop
    obtain ⟨p, hp, hne⟩ := hops op hop
    exact ⟨p, hp, hne kind hkind⟩
  constructor
  case index =>
    intro bin hbin
    refine frame_path (P := fun d => d.read (filePath indexKind v) = some bin)
      (n := filePath indexKind v) hd ?_ (fun _ _ hk hd => hk.read.trans hd) (h.index bin hbin)
    rw [pathOf_path (fileKind_no_dot (by decide))]
    exact hops' _ (by decide)
  case bitmap => exact h.bitmap.run (fileKind_no_dot (by decide)) hd (hops' _ (by decide))
  case map => exact h.map.run (fileKind_no_dot (by decide)) hd (hops' _ (by decide))
  case offsets =>
    intro offsets ho
    exact (h.offsets offsets ho).run (fileKind_no_dot (by decide)) hd (hops' _ (by decide))

theorem Written.crash (h : Written prep v d) (ho : d.Leaves o)
    (hindex : prep.index.isSome → (Crash.Disk.crash o).read (filePath indexKind v) =
      d.read (filePath indexKind v)) : Written prep v (Crash.Disk.crash o) where
  index := fun bin hbin => by rw [hindex (by rw [hbin]; rfl), h.index bin hbin]
  bitmap := h.bitmap.crash ho
  map := h.map.crash ho
  offsets := fun offsets hoff => (h.offsets offsets hoff).crash ho

/-! ## Writing the files of a version -/

/-- What is written between system calls about other files. -/
theorem stored_between {pre post : List (Op Name UInt8)} (hp : '.' ∉ path) (hd : Owned untmp d)
    (hends : Fixed (finalPath path (chunkData data count).length) none d)
    (hpre : ∀ op ∈ pre, ∃ p, About p op ∧ path ≠ p)
    (hpost : ∀ op ∈ post, ∃ p, About p op ∧ path ≠ p) :
    Stored path data count (d.run (pre ++ writeSegmentFile path data count ++ post)) := by
  have hd1 : Owned untmp (d.run pre) := owned_run hd fun op hop => by
    obtain ⟨p, hop, -⟩ := hpre op hop
    exact ⟨p, hop⟩
  have hd2 : Owned untmp ((d.run pre).run (writeSegmentFile path data count)) :=
    owned_run hd1 fun op hop => ⟨path, about_writeSegmentFile hp hop⟩
  have hends' : Fixed (finalPath path (chunkData data count).length) none (d.run pre) := by
    refine frame_path hd ?_ (fun _ _ hk hd => hk.fixed hd) hends
    rwa [pathOf_finalPath hp]
  rw [run_append, run_append]
  exact (stored_writeSegmentFile hp hd1 hends').run hp hd2 hpost

theorem about_indexOps (h : op ∈ indexOps prep v) : About (filePath indexKind v) op := by
  have hp : '.' ∉ filePath indexKind v := fileKind_no_dot (by decide)
  have hpath := untmp_path hp
  unfold indexOps at h
  split at h
  · simp only [indexBinarySetFlush, List.mem_cons, List.not_mem_nil, or_false] at h
    rcases h with rfl | rfl
    · exact ⟨_, hpath, takeWhile_path hp⟩
    · exact ⟨_, hpath, takeWhile_path hp⟩
  · cases h

theorem about_offsetOps (h : op ∈ offsetOps prep v) : About (filePath offsetKind v) op := by
  unfold offsetOps at h
  split at h
  · exact about_writeSegmentFile (fileKind_no_dot (by decide)) h
  · cases h

theorem about_metadata (h : op ∈ writeLsmSegmentMetadata prep v) : About (metadataPath v) op := by
  have hp := metadataPath_no_dot v
  have htmp := untmp_metadataTmpPath v
  simp only [writeLsmSegmentMetadata, List.mem_cons, List.not_mem_nil, or_false] at h
  rcases h with rfl | rfl | rfl | rfl | rfl
  · exact ⟨_, htmp, takeWhile_path hp⟩
  · exact ⟨_, htmp, takeWhile_path hp⟩
  · exact ⟨_, htmp, takeWhile_path hp⟩
  · exact ⟨_, ⟨htmp, untmp_path hp⟩, takeWhile_path hp⟩
  · exact ⟨metadataPath v, trivial, takeWhile_path hp⟩

theorem about_writeFiles (h : op ∈ writeFiles prep v) :
    ∃ kind ∈ fileKinds, About (filePath kind v) op := by
  simp only [writeFiles, List.mem_append] at h
  rcases h with ((h | h) | h) | h
  · exact ⟨_, by decide, about_indexOps h⟩
  · exact ⟨bitmapKind, by decide, about_writeSegmentFile (fileKind_no_dot (by decide)) h⟩
  · exact ⟨mappingKind, by decide, about_writeSegmentFile (fileKind_no_dot (by decide)) h⟩
  · exact ⟨_, by decide, about_offsetOps h⟩

theorem filePath_ne (hkind : kind ∈ metadataKind :: fileKinds)
    (hkind' : kind' ∈ metadataKind :: fileKinds) (hne : kind ≠ kind') :
    filePath kind v ≠ filePath kind' v' := by
  rw [Ne, filePath_inj (kind_no_sep hkind) (kind_no_sep hkind')]
  exact fun h => hne h.1

/-- All files of a version are there before its metadata is written. -/
theorem written_writeFiles (hd : Owned untmp d) (ho : d.older = []) (h : NoLeftover d prep v) :
    Written prep v (d.run (writeFiles prep v)) := by
  have hindex : ∀ {kind}, kind ∈ fileKinds → kind ≠ indexKind → ∀ op ∈ indexOps prep v,
      ∃ p, About p op ∧ filePath kind v ≠ p := fun hkind hne op hop =>
    ⟨_, about_indexOps hop, filePath_ne (List.mem_cons_of_mem _ hkind) (by decide) hne⟩
  have hfile : ∀ {kind kind'} {data : List UInt8} {count : Option UInt32}, kind ∈ fileKinds →
      kind' ∈ fileKinds → kind ≠ kind' → ∀ op ∈ writeSegmentFile (filePath kind' v) data count,
        ∃ p, About p op ∧ filePath kind v ≠ p := fun hkind hkind' hne op hop =>
    ⟨_, about_writeSegmentFile (fileKind_no_dot hkind') hop,
      filePath_ne (List.mem_cons_of_mem _ hkind) (List.mem_cons_of_mem _ hkind') hne⟩
  have hoffset : ∀ {kind}, kind ∈ fileKinds → kind ≠ offsetKind → ∀ op ∈ offsetOps prep v,
      ∃ p, About p op ∧ filePath kind v ≠ p := fun hkind hne op hop =>
    ⟨_, about_offsetOps hop, filePath_ne (List.mem_cons_of_mem _ hkind) (by decide) hne⟩
  have hfixed : ∀ {n}, n ∉ d.entries → Fixed n none d := fun hn =>
    (fixed_iff ho).mpr (AList.lookup_eq_none.mpr hn)
  constructor
  case index =>
    intro bin hbin
    have hheld : Holds (filePath indexKind v) ⟨[] ++ bin, false⟩ (d.run (indexOps prep v)) := by
      rw [indexOps, hbin]
      exact hd.holds_create.append
    have hd1 : Owned untmp (d.run (indexOps prep v)) :=
      owned_run hd fun op hop => ⟨_, about_indexOps hop⟩
    rw [writeFiles, List.append_assoc, List.append_assoc, run_append]
    refine frame_path (P := fun d => d.read (filePath indexKind v) = some bin)
      (n := filePath indexKind v) hd1 ?_ (fun _ _ hk hd => hk.read.trans hd) hheld.read
    rw [pathOf_path (fileKind_no_dot (by decide))]
    intro op hop
    rcases List.mem_append.mp hop with hop | hop
    · exact hfile (by decide) (by decide) (by decide) op hop
    rcases List.mem_append.mp hop with hop | hop
    · exact hfile (by decide) (by decide) (by decide) op hop
    · exact hoffset (by decide) (by decide) op hop
  case bitmap =>
    rw [writeFiles, List.append_assoc]
    refine stored_between (fileKind_no_dot (by decide)) hd (hfixed h.1)
      (hindex (by decide) (by decide)) ?_
    intro op hop
    rcases List.mem_append.mp hop with hop | hop
    · exact hfile (by decide) (by decide) (by decide) op hop
    · exact hoffset (by decide) (by decide) op hop
  case map =>
    refine stored_between (fileKind_no_dot (by decide)) hd (hfixed h.2.1) ?_
      (hoffset (by decide) (by decide))
    intro op hop
    rcases List.mem_append.mp hop with hop | hop
    · exact hindex (by decide) (by decide) op hop
    · exact hfile (by decide) (by decide) (by decide) op hop
  case offsets =>
    intro offsets hoff
    have hops : offsetOps prep v = writeSegmentFile (filePath offsetKind v) offsets none ++ [] := by
      rw [offsetOps, hoff, List.append_nil]
    rw [writeFiles, hops, ← List.append_assoc]
    refine stored_between (fileKind_no_dot (by decide)) hd (hfixed (h.2.2 offsets hoff)) ?_
      (fun op hop => nomatch hop)
    intro op hop
    rcases List.mem_append.mp hop with hop | hop
    rcases List.mem_append.mp hop with hop | hop
    · exact hindex (by decide) (by decide) op hop
    · exact hfile (by decide) (by decide) (by decide) op hop
    · exact hfile (by decide) (by decide) (by decide) op hop

end VectorLsm.Storage
