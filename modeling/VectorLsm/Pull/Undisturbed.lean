import VectorLsm.Pull.Complete

/-! # Pulls that nothing disturbs

A fetcher that is the only one at work, and whose calls succeed, gets every file the primary has,
and `pull_all_files` returns `true`.
-/

namespace VectorLsm.Pull

open Crash Storage Transition

variable {p : Primary} {s s' s'' : State} {i : SegmentFileInfo} {k : FileKind} {t : ℕ} {pc pc' : Pc}
  {n : Name}

/-! ## Names a pull adds -/

/-- Neither does a version return, nor is there a new name, but for the file of the kind and its
temporary one. -/
structure Adds (i : SegmentFileInfo) (k : FileKind) (s s' : State) : Prop where
  names : ∀ n ∈ s'.dir.entries, n ∈ s.dir.entries ∨ untmp n = buildDestPath i k
  pulled : s'.pulled = s.pulled

theorem Adds.refl (i : SegmentFileInfo) (k : FileKind) (s : State) : Adds i k s s :=
  ⟨fun _ hn => .inl hn, rfl⟩

theorem Adds.trans (h : Adds i k s s') (h' : Adds i k s' s'') : Adds i k s s'' := by
  refine ⟨fun n hn => ?_, h'.pulled.trans h.pulled⟩
  rcases h'.names n hn with hn | hn
  · exact h.names n hn
  · exact .inr hn

theorem adds_create : Adds i k s
    ((s.setDir (s.dir.apply (.create (tmpName (buildDestPath i k))))).goto t pc) := by
  refine ⟨fun n hn => ?_, rfl⟩
  by_cases he : n = tmpName (buildDestPath i k)
  · rw [he]
    exact .inr (untmp_tmpName i k)
  · exact .inl (mem_of_lookup_eq (lookup_create_ne he).symm hn)

theorem mem_of_rename {d : Dir} {m m' : Name} (hm : n ≠ m) (hm' : n ≠ m')
    (hn : n ∈ (d.apply (.rename m m')).entries) : n ∈ d.entries := by
  cases hl : d.entries.lookup m with
  | none => rwa [rename_of_none hl] at hn
  | some fd =>
      by_cases hl' : d.entries.lookup m' = some fd
      · rwa [rename_of_eq hl hl'] at hn
      · rw [rename_of_ne hl hl'] at hn
        exact mem_of_lookup_eq (lookup_rename hm hm').symm hn

theorem adds_rename (t : ℕ) (pc : Pc) : Adds i k s ((s.setDir (s.dir.apply
    (.rename (tmpName (buildDestPath i k)) (buildDestPath i k)))).goto t pc) := by
  refine ⟨fun n hn => ?_, rfl⟩
  by_cases he : n = tmpName (buildDestPath i k)
  · rw [he]
    exact .inr (untmp_tmpName i k)
  by_cases he' : n = buildDestPath i k
  · rw [he']
    exact .inr (untmp_buildDestPath i k)
  · exact .inl (mem_of_rename he he' hn)

/-! ## One fetcher -/

/-- A state of a run whose steps meet the condition, in which only this fetcher is at work. -/
structure Stands (p : Primary) (t : ℕ) (pc : Pc) (s : State) : Prop where
  reached : Reachable (Start p) (step p) Careful s
  pc : s.pc = Function.update (fun _ => .idle) t pc

namespace Stands

theorem at_pc (h : Stands p t pc s) : s.pc t = pc := by
  rw [h.pc, Function.update_self]

theorem others (h : Stands p t pc s) {t' : ℕ} (ht : t' ≠ t) : s.pc t' = .idle := by
  rw [h.pc, Function.update_of_ne ht]

theorem next {a : Action} (h : Stands p t pc s) (hs : step p s a = some s') (hc : Careful s a)
    (hpc : s'.pc = Function.update s.pc t pc') : Stands p t pc' s' := by
  refine ⟨h.reached.next hc hs, ?_⟩
  rw [hpc, h.pc, Function.update_idem]

theorem inv (h : Stands p t pc s) : Inv p s :=
  h.reached.invariant (fun _ => Start.inv) fun _ _ _ _ hs hc => hs.step hc

/-- All that is left of the stream is written. -/
theorem drain {bytes : List UInt8} {remaining fd offset : ℕ}
    (h : Stands p t (.stream i k bytes remaining fd offset) s) (hlen : bytes.length = remaining) :
    ∃ s' offset', Stands p t (.stream i k [] 0 fd offset') s' ∧ Adds i k s s' ∧
      s'.dir.entries = s.dir.entries := by
  induction remaining using Nat.strong_induction_on generalizing bytes offset s with
  | _ remaining ih =>
    rcases Nat.eq_zero_or_pos remaining with rfl | hpos
    · obtain rfl := List.eq_nil_of_length_eq_zero hlen
      exact ⟨s, offset, h, .refl i k s, rfl⟩
    have hbuf : 0 < bufSize := by decide
    obtain ⟨n, hn⟩ : ∃ n, n = min remaining bufSize := ⟨_, rfl⟩
    have hstep : step p s (.recv t n) =
        some ((s.setDir (s.dir.writeAt 0 fd offset (bytes.take n))).goto t
          (.stream i k (bytes.drop n) (remaining - n) fd (offset + n))) := by
      have hne : bytes ≠ [] := by
        rintro rfl
        exact absurd hlen (Nat.ne_of_lt hpos)
      simp only [step, recv, h.at_pc]
      rw [if_neg (Nat.ne_of_gt hpos), if_neg hne, if_pos ⟨by omega, by omega, by omega⟩]
    obtain ⟨s', offset', hs', ha, he⟩ := ih (remaining - n) (by omega) (h.next hstep trivial rfl)
      (by rw [List.length_drop, hlen])
    have hwrite : Adds i k s ((s.setDir (s.dir.writeAt 0 fd offset (bytes.take n))).goto t
        (.stream i k (bytes.drop n) (remaining - n) fd (offset + n))) :=
      ⟨fun _ hn => .inl hn, rfl⟩
    exact ⟨s', offset', hs', hwrite.trans ha, he⟩

/-- The reply comes whole. -/
theorem receive {data : List UInt8} (h : Stands p t (.request i k) s)
    (hdata : p.dir.read (buildFilePath i k) = some data) :
    ∃ s', Stands p t (.create i k data data.length) s' ∧ Adds i k s s' := by
  obtain ⟨fate, hfate⟩ : ∃ fate : Fate, fate = ⟨true, true, data.length + 9⟩ := ⟨_, rfl⟩
  have hreply : reply p i k fate = resultOk :: (sizeBytes data.length ++ data) := by
    rw [hfate, reply, serve, if_pos rfl, hdata]
    refine List.take_of_length_le ?_
    simp [length_sizeBytes]
    omega
  have hconnect : step p s (.connect t fate) =
      some (s.goto t (.result i k (resultOk :: (sizeBytes data.length ++ data)))) := by
    simp only [step, h.at_pc, hreply]
  have h₁ := h.next hconnect trivial rfl
  have hresult {u : State} {bytes : List UInt8}
      (hu : Stands p t (.result i k (resultOk :: bytes)) u) :
      step p u (.recv t 1) = some (u.goto t (.size i k bytes)) := by
    simp only [step, recv, hu.at_pc, if_true]
  have h₂ := h₁.next (hresult h₁) trivial rfl
  have hsize {u : State} (hu : Stands p t (.size i k (sizeBytes data.length ++ data)) u) :
      step p u (.recv t 8) = some (u.goto t (.create i k data data.length)) := by
    have hlong : ¬ (sizeBytes data.length ++ data).length < 8 := by
      simp [length_sizeBytes]
    have hbytes : sizeOfBytes (sizeBytes data.length) = data.length :=
      sizeOfBytes_sizeBytes ((p.sizes _ _ hdata).trans (by decide))
    simp only [step, recv, hu.at_pc]
    rw [if_neg hlong, List.take_left' (length_sizeBytes _), List.drop_left' (length_sizeBytes _),
      hbytes]
  exact ⟨_, h₂.next (hsize h₂) trivial rfl, ⟨fun _ hn => .inl hn, rfl⟩⟩

/-- No other fetcher has the file open. -/
theorem careful {bytes : List UInt8} {remaining : ℕ}
    (h : Stands p t (.create i k bytes remaining) s) : Careful s (.call t) := by
  simp only [Careful, h.at_pc]
  intro _ t' hu
  by_cases ht : t' = t
  · rw [ht, h.at_pc] at hu
    exact hu.elim
  · rw [h.others ht] at hu
    exact hu.elim

/-- The file is there under its temporary name. -/
theorem store {data : List UInt8} (h : Stands p t (.create i k data data.length) s) :
    ∃ s', Stands p t (.rename i k) s' ∧ Adds i k s s' ∧
      tmpName (buildDestPath i k) ∈ s'.dir.entries := by
  obtain ⟨fd, hfd, -, -⟩ := h.inv.sound.owned.create (tmpName (buildDestPath i k))
  have hcreate : step p s (.call t) =
      some ((s.setDir (s.dir.apply (.create (tmpName (buildDestPath i k))))).goto t
        (.stream i k data data.length fd 0)) := by
    simp only [step, call, h.at_pc, hfd, Option.map_some]
  obtain ⟨s', offset, h', ha, he⟩ := (h.next hcreate h.careful rfl).drain rfl
  have hsync : step p s' (.call t) =
      some ((s'.setDir (s'.dir.syncAt fd)).goto t (.rename i k)) := by
    simp only [step, call, h'.at_pc]
  refine ⟨_, h'.next hsync (by simp only [Careful, h'.at_pc]) rfl, ?_, ?_⟩
  · exact (adds_create.trans ha).trans ⟨fun _ hn => .inl hn, rfl⟩
  · refine AList.lookup_isSome.mp ?_
    change (s'.dir.entries.lookup _).isSome
    rw [he]
    exact Option.isSome_of_eq_some hfd

/-- `pull_one_file` of a file that the primary has. -/
theorem pullOne {data : List UInt8} (h : Stands p t (.request i k) s) (hk : k ≠ .metadata)
    (hdata : p.dir.read (buildFilePath i k) = some data) :
    ∃ s', Stands p t (.after i k) s' ∧ Adds i k s s' := by
  obtain ⟨s₁, h₁, ha₁⟩ := h.receive hdata
  obtain ⟨s₂, h₂, ha₂, htmp⟩ := h₁.store
  have hrename : step p s₂ (.call t) = some ((s₂.setDir (s₂.dir.apply
      (.rename (tmpName (buildDestPath i k)) (buildDestPath i k)))).goto t (.after i k)) := by
    simp only [step, call, h₂.at_pc]
    rw [if_pos htmp, if_neg hk]
  exact ⟨_, h₂.next hrename (by simp only [Careful, h₂.at_pc]) rfl,
    (ha₁.trans ha₂).trans (adds_rename t _)⟩

/-- The last file of a version. -/
theorem pullMetadata {data : List UInt8} (h : Stands p t (.request i .metadata) s)
    (hdata : p.dir.read (buildFilePath i .metadata) = some data) :
    ∃ s', Stands p t .idle s' ∧ s'.pulled = i :: s.pulled ∧
      ∀ n ∈ s'.dir.entries, n ∈ s.dir.entries ∨ untmp n = buildDestPath i .metadata := by
  obtain ⟨s₁, h₁, ha₁⟩ := h.receive hdata
  obtain ⟨s₂, h₂, ha₂, htmp⟩ := h₁.store
  have hrename : step p s₂ (.call t) = some ((s₂.setDir (s₂.dir.apply (.rename
      (tmpName (buildDestPath i .metadata)) (buildDestPath i .metadata)))).returnTrue t i) := by
    simp only [step, call, h₂.at_pc]
    rw [if_pos htmp, if_pos trivial]
  have ha := ha₁.trans ha₂
  refine ⟨_, h₂.next hrename (by simp only [Careful, h₂.at_pc]) rfl, ?_, ?_⟩
  · exact congrArg _ ha.pulled
  · exact (ha.trans (adds_rename t .idle)).names

/-- `pull_all_files` of a version that is not there yet returns `true`. -/
theorem pullAll (h : Stands p t .idle s) (hi : Valid i)
    (hfiles : ∀ k, p.dir.read (buildFilePath i k) ≠ none) (hnew : metadataName i ∉ s.dir.entries) :
    ∃ s', Stands p t .idle s' ∧ s'.pulled = i :: s.pulled ∧
      ∀ n ∈ s'.dir.entries, n ∈ s.dir.entries ∨ ∃ k, untmp n = buildDestPath i k := by
  choose data hdata using fun k => Option.ne_none_iff_exists'.mp (hfiles k)
  have hbegin : step p s (.begin t i) = some (s.goto t (.makeDir i)) := by
    simp only [step, h.at_pc]
    rw [if_pos ⟨trivial, hi⟩]
  have h₁ := h.next hbegin trivial rfl
  have hmkdir {u : State} (hu : Stands p t (.makeDir i) u) :
      step p u (.call t) = some (u.goto t (.request i .indexMetadata)) := by
    simp only [step, call, hu.at_pc]
  have h₂ := h₁.next (hmkdir h₁) (by simp only [Careful, h₁.at_pc]) rfl
  obtain ⟨s₃, h₃, ha₃⟩ := h₂.pullOne (by decide) (hdata .indexMetadata)
  have habsent : metadataName i ∉ s₃.dir.entries := by
    intro hmem
    rcases ha₃.names _ hmem with hmem | hmem
    · exact hnew hmem
    · rw [untmp_fileOf (.inr (.inl rfl))] at hmem
      exact ne_indexMetadata (.inr (.inl rfl)) i hmem
  have hcheck : step p s₃ (.call t) = some (s₃.goto t (.request i .index)) := by
    simp only [step, call, h₃.at_pc, Pc.after]
    rw [if_neg habsent]
  have h₄ := h₃.next hcheck (by simp only [Careful, h₃.at_pc, Pc.after]) rfl
  obtain ⟨s₅, h₅, ha₅⟩ := h₄.pullOne (by decide) (hdata .index)
  obtain ⟨s₆, h₆, ha₆⟩ := Stands.pullOne h₅ (by decide) (hdata .mapping)
  obtain ⟨s₇, h₇, ha₇⟩ := Stands.pullOne h₆ (by decide) (hdata .offset)
  obtain ⟨s₈, h₈, ha₈⟩ := Stands.pullOne h₇ (by decide) (hdata .bitmap)
  obtain ⟨s₉, h₉, hpulled, hnames⟩ := Stands.pullMetadata h₈ (hdata .metadata)
  refine ⟨s₉, h₉, ?_, fun n hn => ?_⟩
  · rw [hpulled, ha₈.pulled, ha₇.pulled, ha₆.pulled, ha₅.pulled]
    exact congrArg _ ha₃.pulled
  · rcases hnames n hn with hn | hn
    case inr => exact .inr ⟨_, hn⟩
    rcases ha₈.names n hn with hn | hn
    case inr => exact .inr ⟨_, hn⟩
    rcases ha₇.names n hn with hn | hn
    case inr => exact .inr ⟨_, hn⟩
    rcases ha₆.names n hn with hn | hn
    case inr => exact .inr ⟨_, hn⟩
    rcases ha₅.names n hn with hn | hn
    case inr => exact .inr ⟨_, hn⟩
    rcases ha₃.names n hn with hn | hn
    case inr => exact .inr ⟨_, hn⟩
    exact .inl hn

end Stands

/-! ## A version in chunks -/

/-- No fetcher is at work, and nothing is there. -/
def State.empty : State := ⟨⟨[], ∅, []⟩, fun _ => .idle, []⟩

theorem start_empty (p : Primary) : Start p .empty where
  idle := rfl
  pulled := rfl
  owned := by
    refine ⟨fun _ => [], fun v hv n i hi => ?_⟩
    obtain rfl := List.mem_singleton.mp hv
    exact absurd hi (by simp [State.empty])
  older := rfl
  mirror := fun _ _ _ _ hfd => absurd hfd (by simp [State.empty])
  whole := fun _ hi => absurd hi (AList.notMem_empty _)
  named := fun _ hn => absurd hn (AList.notMem_empty _)

theorem stands_empty (p : Primary) (t : ℕ) : Stands p t .idle .empty :=
  ⟨.start (start_empty p), (Function.update_eq_self t _).symm⟩

/-- What is pulled of a file in chunks is the first one. -/
theorem chunk_of_buildDestPath {kind : Name} {c : ℕ} (hkind : kind ∈ chunkedKinds)
    (h : finalPath (filePath kind (fileVersion i)) c = buildDestPath i k) : c = 0 := by
  have hfile : FileOf i (finalPath (filePath kind (fileVersion i)) c) :=
    .inr (.inr ⟨kind, hkind, c, rfl⟩)
  have hk : k ≠ .indexMetadata := by
    rintro rfl
    exact ne_indexMetadata hfile i h
  have hpath := congrArg pathOf h
  rw [pathOf_buildDestPath hk, pathOf_finalPath (path_no_dot (chunked_mem hkind) _)] at hpath
  obtain rfl : kind = kindName k := ((filePath_inj (kind_no_sep (chunked_mem hkind))
    (kind_no_sep (kindName_mem k))).mp hpath).1
  cases k with
  | mapping | offset | bitmap => exact finalPath_inj.mp h
  | index | metadata | indexMetadata => exact absurd hkind (by decide)

/-- Only the first chunk of a file has been transferred. -/
theorem readChunks_first (h : ∀ n ∈ s.dir.entries, ∃ k, untmp n = buildDestPath i k) :
    (readChunks s.dir (filePath mappingKind (fileVersion i)) (s.dir.entries.keys.length + 1)
      0).length ≤ 1 := by
  have hsecond : s.dir.read (finalPath (filePath mappingKind (fileVersion i)) 1) = none := by
    rw [Disk.read, AList.lookup_eq_none.mpr, Option.bind_none]
    intro hmem
    obtain ⟨k, hk⟩ := h _ hmem
    have hfile : FileOf i (finalPath (filePath mappingKind (fileVersion i)) 1) :=
      .inr (.inr ⟨mappingKind, by decide, 1, rfl⟩)
    rw [untmp_fileOf hfile] at hk
    exact absurd (chunk_of_buildDestPath (by decide) hk) (by decide)
  unfold readChunks
  split
  · obtain ⟨fuel, hfuel⟩ : ∃ fuel, fuel = s.dir.entries.keys.length := ⟨_, rfl⟩
    rw [← hfuel]
    cases fuel with
    | zero => exact le_rfl
    | succ fuel =>
        rw [readChunks, hsecond]
        exact le_rfl
  · exact Nat.zero_le 1

/-- A version of which the primary has a second chunk is transferred in part. -/
theorem exists_not_allOrNothing (hi : Valid i)
    (hfiles : ∀ k, p.dir.read (buildFilePath i k) ≠ none)
    (hsecond : p.dir.read (finalPath (filePath mappingKind (fileVersion i)) 1) ≠ none) :
    ∃ s, Reachable (Start p) (step p) anyStep s ∧ ¬ AllOrNothing p s := by
  obtain ⟨s, hs, hpulled, hnames⟩ :=
    (stands_empty p 0).pullAll hi hfiles (AList.notMem_empty _)
  refine ⟨s, hs.reached.mono fun _ _ _ => trivial, fun hall => ?_⟩
  have hmapping := (hall.pulled i (by simp [hpulled])).mapping
  have hfirst := readChunks_first (s := s) (i := i) fun n hn =>
    (hnames n hn).resolve_left (AList.notMem_empty _)
  have hnum (d : Dir) (path : Name) : (readSegmentFile d path false).chunkNum =
      (readChunks d path (d.entries.keys.length + 1) 0).length := by
    unfold readSegmentFile
    cases readChunks d path (d.entries.keys.length + 1) 0 <;> rfl
  have hlen := congrArg Loaded.chunkNum hmapping
  rw [hnum, hnum] at hlen
  obtain ⟨first, hfirst'⟩ := Option.ne_none_iff_exists'.mp (hfiles .mapping)
  obtain ⟨second, hsecond'⟩ := Option.ne_none_iff_exists'.mp hsecond
  have hchunks (j : ℕ) (hj : j < [first, second].length) :
      p.dir.read (finalPath (filePath mappingKind (fileVersion i)) j) =
        some [first, second][j] := by
    match j, hj with
    | 0, _ => exact hfirst'
    | 1, _ => exact hsecond'
  have htwo : [first, second].length ≤ p.dir.entries.keys.length :=
    length_le_keys hchunks
  have happend := readChunks_append (k := 0) (htwo.trans (Nat.le_succ _)) fun j hj => by
    rw [Nat.zero_add]
    exact hchunks j hj
  rw [happend, List.length_append] at hlen
  simp only [List.length_cons, List.length_nil] at hlen
  omega

section Demo

/-- A version of one segment, without deletions since. -/
def demoInfo : SegmentFileInfo := ⟨4, 4, 0⟩

def demoNames : List Name :=
  [buildFilePath demoInfo .mapping, buildFilePath demoInfo .index, buildFilePath demoInfo .offset,
    buildFilePath demoInfo .bitmap, buildFilePath demoInfo .metadata, metadataKind]

/-- Where the second chunk of the mapping is, if there is one. -/
def demoSecond : Name := finalPath (filePath mappingKind (fileVersion demoInfo)) 1

def demoDir (mapping : List UInt8) (names : List Name) : Dir :=
  ⟨⟨mapping, true⟩ :: List.replicate 6 ⟨[7], true⟩,
    (names.zipIdx.map fun x => (⟨x.1, x.2⟩ : Sigma fun _ : Name => ℕ)).toAList, []⟩

/-- A primary with these files, all but the first of one byte. -/
def demoPrimary (mapping : List UInt8) (h : mapping.length < 2 ^ 63) (names : List Name) :
    Primary where
  dir := demoDir mapping names
  sizes := by
    intro n bs hbs
    obtain ⟨j, -, hj⟩ := Option.bind_eq_some_iff.mp hbs
    obtain ⟨x, hx, rfl⟩ := Option.map_eq_some_iff.mp hj
    rcases List.mem_cons.mp (List.mem_of_getElem? hx) with rfl | hmem
    · exact h
    · rw [(List.mem_replicate.mp hmem).2]
      decide

variable {mapping : List UInt8} {h : mapping.length < 2 ^ 63} {names : List Name}

theorem demoPrimary_read {n : Name} {j : ℕ}
    (hn : (demoDir [] names).entries.lookup n = some j) (hj : j < 7) :
    (demoPrimary mapping h names).dir.read n ≠ none := by
  have hlook : (demoPrimary mapping h names).dir.entries.lookup n = some j := hn
  have hlen : (demoPrimary mapping h names).dir.inodes.length = 7 := by
    simp [demoPrimary, demoDir]
  rw [Disk.read, hlook, Option.bind_some, List.getElem?_eq_getElem (by omega)]
  simp

theorem demoPrimary_files
    (hn : ∀ n ∈ demoNames, ∃ j < 7, (demoDir [] names).entries.lookup n = some j) (k : FileKind) :
    (demoPrimary mapping h names).dir.read (buildFilePath demoInfo k) ≠ none := by
  have hmem : buildFilePath demoInfo k ∈ demoNames := by
    cases k <;> simp [demoNames, buildFilePath]
  obtain ⟨j, hj, hlook⟩ := hn _ hmem
  exact demoPrimary_read hlook hj

/-- A mapping of a full chunk and one byte more. -/
theorem not_allOrNothing : ¬ ∀ p s, Reachable (Start p) (step p) (fun s a => anyStep s a) s →
    AllOrNothing p s := by
  intro hall
  obtain ⟨full, hfull⟩ : ∃ full : List UInt8, full = List.replicate maxFileSize 0 := ⟨_, rfl⟩
  have hsize : full.length < 2 ^ 63 := by
    rw [hfull, List.length_replicate]
    decide
  obtain ⟨s, hs, hnot⟩ := exists_not_allOrNothing
    (p := demoPrimary full hsize (demoNames ++ [demoSecond])) (i := demoInfo) (by decide)
    (demoPrimary_files (by decide +kernel))
    (demoPrimary_read (n := demoSecond) (j := 6) (by decide +kernel) (by decide))
  exact hnot (hall _ s hs)

/-- A name of the version that is not among the files is a chunk that is not there. -/
theorem demoPrimary_single : SingleChunk (demoPrimary mapping h demoNames) demoInfo := by
  intro kind hkind c hc
  have hnone : (demoPrimary mapping h demoNames).dir.entries.lookup
      (finalPath (filePath kind (fileVersion demoInfo)) c) = none := by
    refine AList.lookup_eq_none.mpr fun hmem => ?_
    have hnames : ∀ n ∈ (demoDir [] demoNames).entries.keys,
        ∃ k, n = buildDestPath demoInfo k := by
      intro n hn
      have hkeys : (demoDir [] demoNames).entries.keys = demoNames := by decide +kernel
      rw [hkeys] at hn
      simp only [demoNames, List.mem_cons, List.not_mem_nil, or_false] at hn
      rcases hn with rfl | rfl | rfl | rfl | rfl | rfl
      exacts [⟨.mapping, rfl⟩, ⟨.index, rfl⟩, ⟨.offset, rfl⟩, ⟨.bitmap, rfl⟩, ⟨.metadata, rfl⟩,
        ⟨.indexMetadata, rfl⟩]
    obtain ⟨k, hk⟩ := hnames _ hmem
    exact absurd (chunk_of_buildDestPath hkind hk) (Nat.ne_of_gt hc)
  rw [Disk.read, hnone, Option.bind_none]

def demoSmall : Primary := demoPrimary [7] (by decide) demoNames

theorem singleAllOrNothing_demoSmall : ∃ s,
    Reachable (Start demoSmall) (step demoSmall) Careful s ∧ s.pulled = [demoInfo] ∧
      SingleChunk demoSmall demoInfo ∧ SingleAllOrNothing demoSmall s := by
  obtain ⟨s, hs, hpulled, -⟩ := (stands_empty demoSmall 0).pullAll (i := demoInfo) (by decide)
    (demoPrimary_files (by decide +kernel)) (AList.notMem_empty _)
  exact ⟨s, hs.reached, hpulled, demoPrimary_single, singleAllOrNothing hs.reached⟩

end Demo

end VectorLsm.Pull
