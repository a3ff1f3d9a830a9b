import VectorLsm.Pull.Sound
import VectorLsm.Lib.Transition

/-! # Pulls that return true

Each fetcher that has a temporary file open has written to it the bytes of the primary's file up
to its offset, as long as it is the only one, and renames it when all of them are there.
-/

namespace VectorLsm.Pull

open Crash Storage Transition

variable {p : Primary} {s s' : State} {d d' : Dir} {i i' : SegmentFileInfo} {k k' : FileKind}
  {t : ℕ} {pc : Pc}

/-! ## What a call leaves to the other fetchers -/

/-- The calls about the file of a kind. -/
structure Touches (i : SegmentFileInfo) (k : FileKind) (d d' : Dir) : Prop where
  kept : ∀ n, untmp n ≠ buildDestPath i k → Kept n d d'
  derives : Derives untmp d d'
  file : buildDestPath i k ∈ d.entries → buildDestPath i k ∈ d'.entries

theorem mem_of_lookup_eq {n : Name} (h : d'.entries.lookup n = d.entries.lookup n)
    (hn : n ∈ d.entries) : n ∈ d'.entries := by
  rw [← AList.lookup_isSome] at hn ⊢
  rwa [h]

namespace Touches

theorem mem (h : Touches i k d d') (hn : buildDestPath i' k' ∈ d.entries) :
    buildDestPath i' k' ∈ d'.entries := by
  by_cases he : buildDestPath i' k' = buildDestPath i k
  · rw [he] at hn ⊢
    exact h.file hn
  · refine mem_of_lookup_eq (h.kept _ ?_).entries hn
    rwa [untmp_buildDestPath]

theorem modifyAt {fd : ℕ} (h : Opened untmp (buildDestPath i k) fd d)
    (f : Inode UInt8 → Inode UInt8) : Touches i k d (d.modifyAt fd f) where
  kept := fun _ hn => kept_modifyAt h hn f
  derives := derives_modifyAt untmp d fd f
  file := id

theorem file_ne_tmp (i : SegmentFileInfo) (k : FileKind) :
    buildDestPath i k ≠ tmpName (buildDestPath i k) := (tmpName_ne _).symm

theorem ne_of_untmp {n : Name} (hn : untmp n ≠ buildDestPath i k) :
    n ≠ tmpName (buildDestPath i k) := by
  rintro rfl
  exact hn (untmp_tmpName i k)

theorem unlink (i : SegmentFileInfo) (k : FileKind) (d : Dir) :
    Touches i k d (d.unlink (tmpName (buildDestPath i k))) where
  kept := fun _ hn => kept_unlink (ne_of_untmp hn)
  derives := derives_unlink untmp d _
  file := fun hn => AList.mem_erase.mpr ⟨file_ne_tmp i k, hn⟩

theorem create (h : Owned untmp d) (i : SegmentFileInfo) (k : FileKind) :
    Touches i k d (d.apply (.create (tmpName (buildDestPath i k)))) where
  kept := fun _ hn => h.kept (within_create i k) hn
  derives := derives_create untmp d _
  file := mem_of_lookup_eq (lookup_create_ne (file_ne_tmp i k))

theorem rename (h : Owned untmp d) (htmp : tmpName (buildDestPath i k) ∈ d.entries) :
    Touches i k d (d.apply (.rename (tmpName (buildDestPath i k)) (buildDestPath i k))) where
  kept := fun _ hn => h.kept (within_rename i k) hn
  derives := derives_rename ((untmp_tmpName i k).trans (untmp_buildDestPath i k).symm)
  file := fun _ => mem_rename htmp

end Touches

/-! ## What a fetcher has -/

/-- The files that are pulled before. -/
def earlier : FileKind → List FileKind
  | .index | .indexMetadata => []
  | .mapping => [.index]
  | .offset => [.index, .mapping]
  | .bitmap => [.index, .mapping, .offset]
  | .metadata => [.index, .mapping, .offset, .bitmap]

/-- They have their names. -/
structure Reached (d : Dir) (i : SegmentFileInfo) (k : FileKind) : Prop where
  valid : Valid i
  earlier : ∀ k' ∈ earlier k, buildDestPath i k' ∈ d.entries

/-- The temporary file is the fetcher's, with this content. The one of the whole index may have
been opened by others. -/
structure Writes (d : Dir) (i : SegmentFileInfo) (k : FileKind) (fd : ℕ) (data : List UInt8) :
    Prop where
  opened : Opened untmp (buildDestPath i k) fd d
  own : k ≠ .indexMetadata → d.entries.lookup (tmpName (buildDestPath i k)) = some fd ∧
    ∃ synced, d.inodes[fd]? = some ⟨data, synced⟩

def Tracks (p : Primary) (d : Dir) : Pc → Prop
  | .idle => True
  | .makeDir i | .check i => Valid i
  | .request i k => Reached d i k
  | .result i k bytes => Reached d i k ∧ ∃ fate, bytes = reply p i k fate
  | .size i k bytes => Reached d i k ∧ ∃ data, p.dir.read (buildDestPath i k) = some data ∧
      bytes <+: sizeBytes data.length ++ data
  | .create i k bytes remaining => Reached d i k ∧
      ∃ data, p.dir.read (buildDestPath i k) = some data ∧ bytes <+: data ∧
        remaining = data.length
  | .stream i k bytes remaining fd offset => Reached d i k ∧
      ∃ data, p.dir.read (buildDestPath i k) = some data ∧ bytes <+: data.drop offset ∧
        remaining + offset = data.length ∧ Writes d i k fd (data.take offset)
  | .rename i k => Reached d i k ∧ (k ≠ .indexMetadata → ∃ fd data,
      d.entries.lookup (tmpName (buildDestPath i k)) = some fd ∧
        d.inodes[fd]? = some ⟨data, true⟩ ∧ p.dir.read (buildDestPath i k) = some data)

theorem Reached.frame (h : Reached d i' k') (ht : Touches i k d d') : Reached d' i' k' :=
  ⟨h.valid, fun k hk => ht.mem (h.earlier k hk)⟩

/-- The temporary file of another kind or version is as it was. -/
theorem Touches.tmp (ht : Touches i k d d') (hk' : k' ≠ .indexMetadata)
    (hne : ¬ (i' = i ∧ k' = k)) {fd : ℕ} {x : Inode UInt8}
    (hfd : d.entries.lookup (tmpName (buildDestPath i' k')) = some fd)
    (hx : d.inodes[fd]? = some x) :
    d'.entries.lookup (tmpName (buildDestPath i' k')) = some fd ∧ d'.inodes[fd]? = some x := by
  have hpath : buildDestPath i' k' ≠ buildDestPath i k := by
    intro he
    by_cases hk : k = .indexMetadata
    · subst hk
      exact ne_indexMetadata (fileOf_buildDestPath hk') i he
    · exact hne (buildDestPath_inj hk' hk he)
  have hkept : Kept (tmpName (buildDestPath i' k')) d d' :=
    ht.kept _ (by rwa [untmp_tmpName])
  exact ⟨hkept.entries.trans hfd, (hkept.inodes _ mem_views fd hfd).trans hx⟩

/-- What another fetcher does about other temporary files changes nothing. -/
theorem Tracks.frame (h : Tracks p d pc) (ht : Touches i k d d')
    (hpc : ∀ k', k' ≠ .indexMetadata → pc.Uses i k' → k' ≠ k) : Tracks p d' pc := by
  cases pc with
  | idle => trivial
  | makeDir j => exact h
  | check j => exact h
  | request j k' => exact Reached.frame h ht
  | result j k' bytes => exact ⟨h.1.frame ht, h.2⟩
  | size j k' bytes => exact ⟨h.1.frame ht, h.2⟩
  | create j k' bytes remaining => exact ⟨h.1.frame ht, h.2⟩
  | stream j k' bytes remaining fd offset =>
      obtain ⟨hr, data, hdata, hpre, hlen, hw⟩ := h
      refine ⟨hr.frame ht, data, hdata, hpre, hlen, hw.opened.of_derives ht.derives, fun hk' => ?_⟩
      obtain ⟨hfd, synced, hx⟩ := hw.own hk'
      have hne : ¬ (j = i ∧ k' = k) := by
        rintro ⟨rfl, rfl⟩
        exact hpc k' hk' ⟨rfl, rfl⟩ rfl
      obtain ⟨hfd', hx'⟩ := ht.tmp hk' hne hfd hx
      exact ⟨hfd', synced, hx'⟩
  | rename j k' =>
      refine ⟨h.1.frame ht, fun hk' => ?_⟩
      obtain ⟨fd, data, hfd, hx, hdata⟩ := h.2 hk'
      have hne : ¬ (j = i ∧ k' = k) := by
        rintro ⟨rfl, rfl⟩
        exact hpc k' hk' ⟨rfl, rfl⟩ rfl
      obtain ⟨hfd', hx'⟩ := ht.tmp hk' hne hfd hx
      exact ⟨fd, data, hfd', hx', hdata⟩

/-! ## The invariant -/

structure Inv (p : Primary) (s : State) : Prop where
  sound : Sound p s.dir
  pulled : ∀ i ∈ s.pulled, metadataName i ∈ s.dir.entries
  tracks : ∀ t, Tracks p s.dir (s.pc t)
  alone : ∀ t t' i k, k ≠ .indexMetadata → (s.pc t).Uses i k → (s.pc t').Uses i k → t = t'

namespace Inv

/-- A fetcher goes on. -/
theorem goto (h : Inv p s) (hpc : Tracks p s.dir pc)
    (huses : ∀ i k, k ≠ .indexMetadata → pc.Uses i k →
      (s.pc t).Uses i k ∨ ∀ t', ¬ (s.pc t').Uses i k) : Inv p (s.goto t pc) where
  sound := h.sound
  pulled := h.pulled
  tracks := by
    intro t'
    rw [State.goto_pc, Function.update_apply]
    split
    · exact hpc
    · exact h.tracks t'
  alone := by
    intro t₁ t₂ i k hk h₁ h₂
    rw [State.goto_pc, Function.update_apply] at h₁ h₂
    split at h₁ <;> split at h₂
    case isTrue.isTrue h₁' h₂' => rw [h₁', h₂']
    case isTrue.isFalse h₁' _ =>
      rcases huses i k hk h₁ with hu | hu
      · rw [h₁']
        exact h.alone t t₂ i k hk hu h₂
      · exact absurd h₂ (hu t₂)
    case isFalse.isTrue _ h₂' =>
      rcases huses i k hk h₂ with hu | hu
      · rw [h₂']
        exact h.alone t₁ t i k hk h₁ hu
      · exact absurd h₁ (hu t₁)
    case isFalse.isFalse => exact h.alone t₁ t₂ i k hk h₁ h₂

/-- A fetcher gives up. -/
theorem giveUp (h : Inv p s) : Inv p (s.goto t .idle) :=
  h.goto trivial fun _ _ _ hu => hu.elim

/-- A fetcher changes the directory, at a file that no other one has open. -/
theorem act (h : Inv p s) (hsound : Sound p d') (ht : Touches i k s.dir d')
    (hother : k ≠ .indexMetadata → ∀ t' ≠ t, ¬ (s.pc t').Uses i k) (hpc : Tracks p d' pc)
    (huses : ∀ i' k', pc.Uses i' k' → i' = i ∧ k' = k) :
    Inv p ((s.setDir d').goto t pc) where
  sound := hsound
  pulled := fun j hj => by
    have hj' : buildDestPath j .metadata ∈ s.dir.entries := h.pulled j hj
    exact ht.mem hj'
  tracks := by
    intro t'
    rw [State.goto_pc, Function.update_apply]
    split
    case isTrue => exact hpc
    case isFalse hne =>
      refine (h.tracks t').frame ht ?_
      rintro k' hk' hu rfl
      exact hother hk' t' hne hu
  alone := by
    intro t₁ t₂ i' k' hk h₁ h₂
    rw [State.goto_pc, Function.update_apply] at h₁ h₂
    split at h₁ <;> split at h₂
    case isTrue.isTrue h₁' h₂' => rw [h₁', h₂']
    case isTrue.isFalse h₁' h₂' =>
      obtain ⟨rfl, rfl⟩ := huses i' k' h₁
      exact absurd h₂ (hother hk t₂ h₂')
    case isFalse.isTrue h₁' h₂' =>
      obtain ⟨rfl, rfl⟩ := huses i' k' h₂
      exact absurd h₁ (hother hk t₁ h₁')
    case isFalse.isFalse => exact h.alone t₁ t₂ i' k' hk h₁ h₂

/-- What a fetcher uses no other one does. -/
theorem others (h : Inv p s) (hu : (s.pc t).Uses i k) (hk : k ≠ .indexMetadata) :
    ∀ t' ≠ t, ¬ (s.pc t').Uses i k :=
  fun t' hne hu' => hne (h.alone t' t i k hk hu' hu)

/-- It removes its temporary file and gives up. -/
theorem cleanUp (h : Inv p s) (hu : (s.pc t).Uses i k) :
    Inv p ((s.setDir (s.dir.unlink (tmpName (buildDestPath i k)))).goto t .idle) :=
  h.act (h.sound.unlink_tmp i k) (.unlink i k s.dir) (h.others hu) trivial
    fun _ _ hu => hu.elim

theorem returnTrue (h : Inv p (s.goto t .idle)) (hi : metadataName i ∈ s.dir.entries) :
    Inv p (s.returnTrue t i) :=
  ⟨h.sound, List.forall_mem_cons.mpr ⟨hi, h.pulled⟩, h.tracks, h.alone⟩

/-- What is written to is no file of a version. -/
theorem lookup_ne {fd : ℕ} {data : List UInt8} (h : Sound p d) (hw : Writes d i k fd data) :
    ∀ v ∈ d.views, ∀ j n, FileOf j n → v.lookup n ≠ some fd := by
  by_cases hk : k = .indexMetadata
  · subst hk
    intro v hv j n hn hfd
    have hslot := hw.opened.names v hv n hfd
    rw [untmp_fileOf hn] at hslot
    exact ne_indexMetadata hn i hslot
  · exact h.lookup_ne (hw.own hk).1

/-- The bytes that arrive are appended to the temporary file. -/
theorem write {bytes : List UInt8} {remaining fd offset n : ℕ} (h : Inv p s)
    (hpc : s.pc t = .stream i k bytes remaining fd offset) (hn : n ≤ remaining)
    (hlen : n ≤ bytes.length) :
    Inv p ((s.setDir (s.dir.writeAt 0 fd offset (bytes.take n))).goto t
      (.stream i k (bytes.drop n) (remaining - n) fd (offset + n))) := by
  have htr := h.tracks t
  rw [hpc] at htr
  obtain ⟨hr, data, hdata, ⟨rest, hrest⟩, hsum, hw⟩ := htr
  have ht : Touches i k s.dir (s.dir.writeAt 0 fd offset (bytes.take n)) :=
    .modifyAt hw.opened _
  have hu : (s.pc t).Uses i k := by
    rw [hpc]
    exact ⟨rfl, rfl⟩
  have htake : data.take offset ++ bytes.take n = data.take (offset + n) := by
    rw [List.take_add, ← hrest, List.take_append_of_le_length hlen]
  refine h.act (h.sound.modifyAt (lookup_ne h.sound hw) _) ht (h.others hu) ?_
    fun _ _ hu => ⟨hu.1.symm, hu.2.symm⟩
  refine ⟨hr.frame ht, data, hdata, ⟨rest, ?_⟩, by omega, hw.opened.of_derives ht.derives, ?_⟩
  · rw [← List.drop_drop, ← hrest, List.drop_append_of_le_length hlen]
  · intro hk
    obtain ⟨hfd, synced, hx⟩ := hw.own hk
    refine ⟨hfd, false, (Disk.modifyAt_self s.dir hx _).trans ?_⟩
    have hoff : (data.take offset).length = offset := by
      rw [List.length_take]
      omega
    dsimp only
    rw [overwrite_end hoff, htake]

theorem recv {n : ℕ} (h : Inv p s) (hs : Pull.recv s t n = some s') : Inv p s' := by
  have htr := h.tracks t
  unfold Pull.recv at hs
  split at hs
  case h_1 i k b bytes hpc =>
    rw [hpc] at htr
    obtain ⟨hr, fate, hfate⟩ := htr
    obtain rfl := Option.some.inj hs
    split
    case isTrue hb =>
      subst hb
      exact h.goto ⟨hr, ok_of_reply hfate⟩ fun _ _ _ hu => hu.elim
    case isFalse => exact h.giveUp
  case h_2 =>
    obtain rfl := Option.some.inj hs
    exact h.giveUp
  case h_3 i k bytes hpc =>
    rw [hpc] at htr
    obtain ⟨hr, data, hdata, hpre⟩ := htr
    split at hs
    case isTrue =>
      obtain rfl := Option.some.inj hs
      exact h.giveUp
    case isFalse h8 =>
      obtain rfl := Option.some.inj hs
      obtain ⟨hsize, hdrop⟩ := size_of_prefix (p.sizes _ _ hdata) hpre h8
      exact h.goto ⟨hr, data, hdata, hdrop, hsize⟩ fun _ _ _ hu => hu.elim
  case h_4 i k bytes remaining fd offset hpc =>
    split at hs
    · cases hs
    · split at hs
      case isTrue =>
        obtain rfl := Option.some.inj hs
        exact h.cleanUp (by rw [hpc]; exact ⟨rfl, rfl⟩)
      case isFalse =>
        split at hs
        case isTrue hn =>
          obtain rfl := Option.some.inj hs
          exact h.write hpc (hn.2.1.trans (min_le_left _ _)) hn.2.2
        case isFalse => cases hs
  case h_5 => cases hs

/-- A temporary file is opened that no other fetcher has open. -/
theorem create {bytes : List UInt8} {remaining fd : ℕ} (h : Inv p s)
    (hpc : s.pc t = .create i k bytes remaining)
    (hother : k ≠ .indexMetadata → ∀ t', ¬ (s.pc t').Uses i k)
    (hfd : (s.dir.apply (.create (tmpName (buildDestPath i k)))).entries.lookup
      (tmpName (buildDestPath i k)) = some fd) :
    Inv p ((s.setDir (s.dir.apply (.create (tmpName (buildDestPath i k))))).goto t
      (.stream i k bytes remaining fd 0)) := by
  have htr := h.tracks t
  rw [hpc] at htr
  obtain ⟨hr, data, hdata, hpre, hlen⟩ := htr
  have ht := Touches.create h.sound.owned i k
  have hsound := h.sound.create (k := k) hr.valid
  have hopened := hsound.owned.opened mem_views hfd
  rw [untmp_tmpName] at hopened
  refine h.act hsound ht (fun hk t' _ => hother hk t') ?_ fun _ _ hu => ⟨hu.1.symm, hu.2.symm⟩
  refine ⟨hr.frame ht, data, hdata, hpre, hlen, hopened, fun _ => ⟨hfd, false, ?_⟩⟩
  obtain ⟨fd', hfd', hx, -⟩ := h.sound.owned.create (tmpName (buildDestPath i k))
  obtain rfl : fd = fd' := Option.some.inj (hfd.symm.trans hfd')
  exact hx

/-- All of the file is there, and it is synced. -/
theorem sync {bytes : List UInt8} {fd offset : ℕ} (h : Inv p s)
    (hpc : s.pc t = .stream i k bytes 0 fd offset) :
    Inv p ((s.setDir (s.dir.syncAt fd)).goto t (.rename i k)) := by
  have htr := h.tracks t
  rw [hpc] at htr
  obtain ⟨hr, data, hdata, -, hsum, hw⟩ := htr
  have ht : Touches i k s.dir (s.dir.syncAt fd) := .modifyAt hw.opened _
  have hu : (s.pc t).Uses i k := by
    rw [hpc]
    exact ⟨rfl, rfl⟩
  refine h.act (h.sound.modifyAt (lookup_ne h.sound hw) _) ht (h.others hu) ?_
    fun _ _ hu => ⟨hu.1.symm, hu.2.symm⟩
  refine ⟨hr.frame ht, fun hk => ?_⟩
  obtain ⟨hfd, synced, hx⟩ := hw.own hk
  refine ⟨fd, data, hfd, (Disk.modifyAt_self s.dir hx _).trans ?_, hdata⟩
  have hall : data.take offset = data := List.take_of_length_le (by omega)
  rw [hall]

/-- The next file is asked for. -/
theorem tracks_after (hr : Reached d i k) (hk : buildDestPath i k ∈ d.entries) :
    Tracks p d (.after i k) := by
  have hreq {k' : FileKind} (he : ∀ k'' ∈ earlier k', k'' = k ∨ k'' ∈ earlier k) :
      Reached d i k' := by
    refine ⟨hr.valid, fun k'' hk'' => ?_⟩
    rcases he k'' hk'' with rfl | hk''
    · exact hk
    · exact hr.earlier k'' hk''
  cases k with
  | indexMetadata => exact hr.valid
  | metadata => trivial
  | index | mapping | offset | bitmap => exact hreq (by decide)

/-- The temporary file gets its name. -/
theorem rename (h : Inv p s) (hpc : s.pc t = .rename i k)
    (htmp : tmpName (buildDestPath i k) ∈ s.dir.entries) {pc : Pc}
    (hpc' : pc = .after i k) :
    Inv p ((s.setDir (s.dir.apply
      (.rename (tmpName (buildDestPath i k)) (buildDestPath i k)))).goto t pc) := by
  have htr := h.tracks t
  rw [hpc] at htr
  obtain ⟨hr, hdata⟩ := htr
  have hu : (s.pc t).Uses i k := by
    rw [hpc]
    exact ⟨rfl, rfl⟩
  have ht := Touches.rename h.sound.owned htmp
  obtain ⟨fd, hfd⟩ := Option.isSome_iff_exists.mp (AList.lookup_isSome.mpr htmp)
  have hsound := h.sound.rename hr.valid hfd (fun hk => ?_) fun hk _ k' hk' hkm => ?_
  · subst hpc'
    refine h.act hsound ht (h.others hu) (tracks_after (hr.frame ht) (mem_rename htmp)) ?_
    intro i' k' hu'
    cases k <;> exact hu'.elim
  · obtain ⟨fd', data, hfd', hx, hread⟩ := hdata hk
    obtain rfl : fd = fd' := Option.some.inj (hfd.symm.trans hfd')
    exact ⟨data, hx, hread⟩
  · subst hk
    refine hr.earlier k' ?_
    cases k' <;> first | exact absurd rfl hk' | exact absurd rfl hkm | decide

theorem call (h : Inv p s) (hc : Careful s (.call t)) (hs : Pull.call s t = some s') :
    Inv p s' := by
  have htr := h.tracks t
  unfold Pull.call at hs
  split at hs
  case h_1 i hpc =>
    rw [hpc] at htr
    obtain rfl := Option.some.inj hs
    have hreq : Tracks p s.dir (.request i .indexMetadata) := ⟨htr, by simp [earlier]⟩
    exact h.goto hreq fun _ _ _ hu => hu.elim
  case h_2 i k bytes remaining hpc =>
    simp only [Careful, hpc] at hc
    obtain ⟨fd, hfd, rfl⟩ := Option.map_eq_some_iff.mp hs
    exact h.create hpc hc hfd
  case h_3 i k bytes fd offset hpc =>
    obtain rfl := Option.some.inj hs
    exact h.sync hpc
  case h_4 i k hpc =>
    split at hs
    case isTrue htmp =>
      obtain rfl := Option.some.inj hs
      split
      case isTrue hk =>
        subst hk
        exact (h.rename hpc htmp rfl).returnTrue (mem_rename htmp)
      case isFalse => exact h.rename hpc htmp rfl
    case isFalse =>
      obtain rfl := Option.some.inj hs
      exact h.cleanUp (by rw [hpc]; exact ⟨rfl, rfl⟩)
  case h_5 i hpc =>
    rw [hpc] at htr
    split at hs
    case isTrue hi =>
      obtain rfl := Option.some.inj hs
      exact h.giveUp.returnTrue hi
    case isFalse =>
      obtain rfl := Option.some.inj hs
      have hreq : Tracks p s.dir (.request i .index) := ⟨htr, by simp [earlier]⟩
      exact h.goto hreq fun _ _ _ hu => hu.elim
  case h_6 => cases hs

theorem fail (h : Inv p s) (hs : Pull.fail s t = some s') : Inv p s' := by
  unfold Pull.fail at hs
  split at hs
  case h_1 | h_2 => cases hs
  case h_3 | h_4 | h_5 | h_6 | h_7 =>
    obtain rfl := Option.some.inj hs
    exact h.giveUp
  case h_8 i k _ _ _ _ hpc =>
    obtain rfl := Option.some.inj hs
    exact h.cleanUp (by rw [hpc]; exact ⟨rfl, rfl⟩)
  case h_9 i k hpc =>
    obtain rfl := Option.some.inj hs
    exact h.cleanUp (by rw [hpc]; exact ⟨rfl, rfl⟩)

theorem step {a : Action} (h : Inv p s) (hc : Careful s a) (hs : Pull.step p s a = some s') :
    Inv p s' := by
  cases a with
  | begin t i =>
      simp only [Pull.step] at hs
      split at hs
      case isTrue hi =>
        obtain rfl := Option.some.inj hs
        have hdir : Tracks p s.dir (.makeDir i) := hi.2
        exact h.goto hdir fun _ _ _ hu => hu.elim
      case isFalse => cases hs
  | connect t fate =>
      simp only [Pull.step] at hs
      split at hs
      case h_1 i k hpc =>
        obtain rfl := Option.some.inj hs
        have htr := h.tracks t
        rw [hpc] at htr
        have hresult : Tracks p s.dir (.result i k (reply p i k fate)) := ⟨htr, fate, rfl⟩
        exact h.goto hresult fun _ _ _ hu => hu.elim
      case h_2 => cases hs
  | recv t n => exact h.recv hs
  | call t => exact h.call hc hs
  | fail t => exact h.fail hs
  | kill t =>
      obtain rfl := Option.some.inj hs
      exact h.giveUp
  | powerLoss o =>
      simp only [Pull.step] at hs
      split at hs
      case isTrue ho =>
        obtain rfl := Option.some.inj hs
        obtain ⟨⟨v, hv, hov⟩, hpulled⟩ := hc
        exact ⟨h.sound.crash ho hv hov, hpulled, fun _ => trivial, fun _ _ _ _ _ hu => hu.elim⟩
      case isFalse => cases hs

end Inv

theorem Start.inv (h : Start p s) : Inv p s := by
  have hviews {v : Entries Name} (hv : v ∈ s.dir.views) : v = s.dir.entries := by
    simpa [Disk.views, h.older] using hv
  refine ⟨⟨h.owned, fun v hv => ?_, fun v hv i n hn fd hfd => ?_⟩, by simp [h.pulled],
    fun t => by rw [h.idle]; trivial, fun t t' i k _ hu => by rw [h.idle] at hu; exact hu.elim⟩
  · obtain rfl := hviews hv
    exact ⟨h.mirror, fun i _ => h.whole i, h.named⟩
  · obtain rfl := hviews hv
    exact (h.mirror i n hn fd hfd).1

/-- In every run whose steps meet the condition, what is transferred whole is all or nothing. -/
theorem singleAllOrNothing (h : Reachable (Start p) (step p) Careful s) :
    SingleAllOrNothing p s := by
  have hinv := h.invariant (P := Inv p) (fun _ => Start.inv) fun _ _ _ _ hs hc => hs.step hc
  refine ⟨fun i hi hs => hinv.sound.complete hs (hinv.pulled i hi), ?_⟩
  exact fun hpull names hnames i hi hs =>
    hinv.sound.complete hs (hinv.sound.scanned hpull hnames hi)

end VectorLsm.Pull
