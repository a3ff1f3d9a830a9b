import VectorLsm.Storage.Subversions

/-! # The bitmap found after a crash

Whatever updates have been completed and interrupted before, a load returns the last completed or
the interrupted one, as long as no crash leaves a temporary file whose update has no file.
-/

namespace VectorLsm.Storage

open Crash Transition

variable {key k : Version} {s s' : Updates} {b c : Bitmap} {d d' : Dir} {n : Name}

/-- What an update does to the directory, whether it ends or is interrupted. -/
structure Updated (k : Version) (b : Bitmap) (d d' : Dir) : Prop where
  owned : Owned untmp d'
  older : d'.older = []
  lookup : ∀ n, untmp n ≠ finalPath (bitmapPath k (nextSubversion d k)) 0 →
    d'.entries.lookup n = d.entries.lookup n
  durable : ∀ n bs, untmp n ≠ finalPath (bitmapPath k (nextSubversion d k)) 0 →
    Durable n bs d → Durable n bs d'
  names : ∀ n ∈ d'.entries, n ∈ d.entries ∨ n = tmpPath (bitmapPath k (nextSubversion d k)) 0 ∨
    n = finalPath (bitmapPath k (nextSubversion d k)) 0
  final : finalPath (bitmapPath k (nextSubversion d k)) 0 ∉ d.entries →
    finalPath (bitmapPath k (nextSubversion d k)) 0 ∈ d'.entries →
      Durable (finalPath (bitmapPath k (nextSubversion d k)) 0) b.content d'

section Interrupted

variable {o : Outcome Name UInt8} {done : ℕ}

theorem owned_take (h : Owned untmp d) :
    Owned untmp (d.run ((Updates.updateOps d k b).take done)) :=
  h.runs fun _ hop => ⟨_, within_updateOps (List.mem_of_mem_take hop)⟩

theorem frame_take {P : Dir → Prop} (h : Owned untmp d)
    (hn : untmp n ≠ finalPath (bitmapPath k (nextSubversion d k)) 0)
    (hP : ∀ d d', Kept n d d' → P d → P d') (hd : P d) :
    P (d.run ((Updates.updateOps d k b).take done)) :=
  h.run (fun _ hop => ⟨_, within_updateOps (List.mem_of_mem_take hop), hn⟩) hP hd

theorem fixed_take (ho : d.older = []) (hn : n ∉ d.entries)
    (htmp : n ≠ tmpPath (bitmapPath k (nextSubversion d k)) 0)
    (hfinal : n ≠ finalPath (bitmapPath k (nextSubversion d k)) 0) :
    Fixed n none (d.run ((Updates.updateOps d k b).take done)) := by
  refine Fixed.run_none ((fixed_iff ho).mpr (AList.lookup_eq_none.mpr hn)) ?_
  intro op hop hmakes
  rcases makes_updateOps (List.mem_of_mem_take hop) hmakes with h | h
  · exact htmp h
  · exact hfinal h

theorem updated_crash (h : Owned untmp d) (hd : d.older = [])
    (ho : (d.run ((Updates.updateOps d k b).take done)).Leaves o) :
    Updated k b d (Crash.Disk.crash o) := by
  constructor
  case owned => exact (owned_take h).crash ho
  case older => exact crash_older
  case lookup =>
    intro n hn
    have hfixed : Fixed n (d.entries.lookup n) (d.run ((Updates.updateOps d k b).take done)) :=
      frame_take h hn (fun _ _ hk hd => hk.fixed hd) ((fixed_iff hd).mpr rfl)
    exact (fixed_iff crash_older).mp (hfixed.crash ho)
  case durable =>
    intro n bs hn hbs
    have hkept : Durable n bs (d.run ((Updates.updateOps d k b).take done)) :=
      frame_take h hn (fun _ _ hk hd => hk.durable hd) hbs
    exact hkept.crash ho
  case names =>
    intro n hn
    by_contra hnot
    push Not at hnot
    have hfixed : Fixed n none (d.run ((Updates.updateOps d k b).take done)) :=
      fixed_take hd hnot.1 hnot.2.1 hnot.2.2
    have hnone := hfixed.crash ho
    exact AList.lookup_eq_none.mp ((fixed_iff crash_older).mp hnone) hn
  case final =>
    intro hnone hmem
    have hfixed := (fixed_iff hd).mpr (AList.lookup_eq_none.mpr hnone)
    exact (whole_updateOps h hfixed done).crash ho hmem

theorem durable_updateOps (h : Owned untmp d) :
    Durable (finalPath (bitmapPath k (nextSubversion d k)) 0) b.content
      (d.run (Updates.updateOps d k b)) := by
  have hlen : 0 < (chunkData b.bytes (some b.deleteCount)).length := by
    rw [chunkData_content]
    exact Nat.one_pos
  have hdurable := durable_writeSegmentFile (bitmapPath_no_dot (k := k) (nextSubversion d k)) h hlen
  simpa [chunkData_content, Updates.updateOps, writeBitmapFileWithSubversion] using hdurable

theorem updated_run (h : Owned untmp d) (hd : d.older = []) :
    Updated k b d (d.run (Updates.updateOps d k b)) := by
  have htake : (Updates.updateOps d k b).take (Updates.updateOps d k b).length =
      Updates.updateOps d k b := List.take_length
  have holder : (d.run (Updates.updateOps d k b)).older = [] := older_writeSegmentFile
  constructor
  case owned => exact htake ▸ owned_take h
  case older => exact holder
  case lookup =>
    intro n hn
    have hfixed : Fixed n (d.entries.lookup n) (d.run (Updates.updateOps d k b)) :=
      htake ▸ frame_take h hn (fun _ _ hk hd => hk.fixed hd) ((fixed_iff hd).mpr rfl)
    exact hfixed _ mem_views
  case durable =>
    intro n bs hn hbs
    exact htake ▸ frame_take h hn (fun _ _ hk hd => hk.durable hd) hbs
  case names =>
    intro n hn
    by_contra hnot
    push Not at hnot
    have hnone : Fixed n none (d.run ((Updates.updateOps d k b).take
        (Updates.updateOps d k b).length)) := fixed_take hd hnot.1 hnot.2.1 hnot.2.2
    rw [htake] at hnone
    exact AList.lookup_eq_none.mp (hnone _ mem_views) hn
  case final => exact fun _ _ => durable_updateOps h

end Interrupted

/-- What carries the result: the files of the version in the directory are those of its updates,
and the latest of them is on disk. -/
structure Current (key : Version) (s : Updates) (b : Bitmap) : Prop where
  owned : Owned untmp s.dir
  older : s.dir.older = []
  single : finalPath (filePath bitmapKind key) 1 ∉ s.dir.entries
  named : ∀ n ∈ s.dir.entries, subversionPattern key <+: n → ∃ sub < uint32Max,
    n = tmpPath (bitmapPath key sub) 0 ∨ n = finalPath (bitmapPath key sub) 0
  durable : Durable (finalPath (bitmapPath key (findLatestBitmapSubversion s.dir key)) 0)
    b.content s.dir
  last : b = s.completed ∨ s.interrupted = some b

theorem pattern_of_subversionOf {sub : ℕ} (h : subversionOf key n = some sub) :
    subversionPattern key <+: n := by
  by_contra hn
  simp [subversionOf, hn] at h

theorem subversionOf_names {sub : ℕ} (hsub : sub < uint32Max)
    (h : n = tmpPath (bitmapPath key sub) 0 ∨ n = finalPath (bitmapPath key sub) 0) :
    subversionOf key n = some sub := by
  rcases h with rfl | rfl
  · exact subversionOf_bitmapPath hsub
  · exact subversionOf_bitmapPath hsub

theorem untmp_names {sub : ℕ}
    (h : n = tmpPath (bitmapPath key sub) 0 ∨ n = finalPath (bitmapPath key sub) 0) :
    untmp n = finalPath (bitmapPath key sub) 0 := by
  rcases h with rfl | rfl
  · exact untmp_tmpPath (bitmapPath_no_dot sub) 0
  · exact untmp_finalPath (bitmapPath_no_dot sub) 0

namespace Current

theorem lt_max (h : Current key s c) (n : Name) (hn : n ∈ s.dir.entries) (sub : ℕ)
    (hsub : subversionOf key n = some sub) : sub < uint32Max := by
  obtain ⟨sub', hlt, hname⟩ := h.named n hn (pattern_of_subversionOf hsub)
  rw [subversionOf_names hlt hname] at hsub
  exact Option.some.inj hsub ▸ hlt

theorem returns (h : Current key s c) : Returns s.dir key c := by
  have hlen := congrArg List.length (chunkData_content c)
  have hread := h.durable.read
  have hnext : finalPath (bitmapPath key (findLatestBitmapSubversion s.dir key)) 1 ∉
      s.dir.entries := by
    by_cases hmax : findLatestBitmapSubversion s.dir key = uint32Max
    · rw [hmax, bitmapPath_uint32Max]
      exact h.single
    · intro hmem
      obtain ⟨sub, -, hname | hname⟩ := h.named _ hmem (pattern_prefix_iff.mpr ⟨rfl, hmax⟩)
      · exact tmpPath_ne_finalPath_bitmapPath hname.symm
      · exact absurd (finalPath_bitmapPath_inj.mp hname).2.2 Nat.one_ne_zero
  have hloaded : loadBitmapFile s.dir key =
      ⟨(chunkData c.bytes (some c.deleteCount)).length, c.bytes, some c.deleteCount⟩ := by
    refine readSegmentFile_some ?_ ?_
    · intro i hi
      obtain rfl : i = 0 := by
        rw [hlen, List.length_singleton] at hi
        omega
      simpa [chunkData_content] using hread
    · rw [hlen, List.length_singleton]
      simp [Crash.Disk.read, AList.lookup_eq_none.mpr hnext]
  rw [Returns, hloaded, hlen]
  rfl

theorem settled_eq (h : Current key s c) : s.settled key = c := by
  have hreturns := h.returns
  unfold Updates.settled
  cases hi : s.interrupted with
  | none =>
      rcases h.last with hc | hc
      · exact hc.symm
      · rw [hi] at hc
        cases hc
  | some u =>
      dsimp only
      split
      case isTrue hu =>
        rw [Returns, hreturns] at hu
        obtain ⟨-, hbytes, hcount⟩ := Loaded.mk.inj hu
        obtain ⟨_, _, _⟩ := u
        obtain ⟨_, _, _⟩ := c
        obtain rfl := hbytes
        obtain rfl := Option.some.inj hcount
        rfl
      case isFalse hu =>
        rcases h.last with hc | hc
        · exact hc.symm
        · rw [hi] at hc
          exact absurd (Option.some.inj hc ▸ hreturns) hu

/-- The names of the next update are not in the directory, and no name is later. -/
theorem next (h : Current key s c) :
    ∀ n ∈ s.dir.entries, ∀ sub, subversionOf key n = some sub →
      sub < nextSubversion s.dir key := by
  intro n hn sub hsub
  unfold nextSubversion
  rcases findLatest_spec h.lt_max with ⟨-, hnone⟩ | ⟨⟨n', hn', hs'⟩, hmax⟩
  · rw [hnone n hn] at hsub
    cases hsub
  · have hle := hmax n hn sub hsub
    have hlatest := h.lt_max n' hn' _ hs'
    rw [if_neg (Nat.ne_of_lt hlatest), Nat.mod_eq_of_lt (by omega)]
    omega

theorem fresh (h : Current key s c) (hlt : nextSubversion s.dir key < uint32Max)
    (hname : n = tmpPath (bitmapPath key (nextSubversion s.dir key)) 0 ∨
      n = finalPath (bitmapPath key (nextSubversion s.dir key)) 0) : n ∉ s.dir.entries :=
  fun hn => Nat.lt_irrefl _ (h.next n hn _ (subversionOf_names hlt hname))

theorem slot_single (sub : ℕ) :
    untmp (finalPath (filePath bitmapKind key) 1) ≠ finalPath (bitmapPath k sub) 0 := by
  rw [untmp_finalPath (filePath_no_dot bitmapKind_no_dot), ← bitmapPath_uint32Max, Ne,
    finalPath_bitmapPath_inj]
  omega

/-- An update of the version that leaves no name of its own leaves the version as it was, with any
change to what is watched. -/
theorem keep (h : Current key s c) (hu : Updated k b s.dir d')
    (hnames : ∀ n ∈ d'.entries, subversionPattern key <+: n → n ∈ s.dir.entries)
    (hslot : ∀ sub, (∃ n ∈ s.dir.entries, subversionOf key n = some sub) ∨ sub = uint32Max →
      finalPath (bitmapPath key sub) 0 ≠ finalPath (bitmapPath k (nextSubversion s.dir k)) 0)
    (hdir : s'.dir = d') (hlast : c = s'.completed ∨ s'.interrupted = some c) :
    Current key s' c := by
  subst hdir
  have hmem : ∀ n, subversionPattern key <+: n → (n ∈ s'.dir.entries ↔ n ∈ s.dir.entries) := by
    intro n hn
    refine ⟨fun h' => hnames n h' hn, ?_⟩
    intro hin
    obtain ⟨sub, hsub, hname⟩ := h.named n hin hn
    have hother := hslot sub (.inl ⟨n, hin, subversionOf_names hsub hname⟩)
    rw [← AList.lookup_isSome, hu.lookup n (by rwa [untmp_names hname]), AList.lookup_isSome]
    exact hin
  have hlatest := findLatest_congr h.lt_max hmem
  have hslots : finalPath (bitmapPath key (findLatestBitmapSubversion s.dir key)) 0 ≠
      finalPath (bitmapPath k (nextSubversion s.dir k)) 0 := by
    refine hslot _ ?_
    rcases findLatest_spec h.lt_max with ⟨hmax, -⟩ | ⟨hn, -⟩
    · exact .inr hmax
    · exact .inl hn
  constructor
  case owned => exact hu.owned
  case older => exact hu.older
  case single =>
    rw [← AList.lookup_eq_none, hu.lookup _ (slot_single _), AList.lookup_eq_none]
    exact h.single
  case named => exact fun n hn hp => h.named n (hnames n hn hp) hp
  case durable =>
    rw [hlatest]
    refine hu.durable _ _ ?_ h.durable
    rwa [untmp_finalPath (bitmapPath_no_dot _)]
  case last => exact hlast

/-- An update of another version. -/
theorem other (h : Current key s c) (hu : Updated k b s.dir d') (hk : k ≠ key) :
    Current key { s with dir := d' } c := by
  refine h.keep hu ?_ ?_ rfl h.last
  · intro n hn hp
    rcases hu.names n hn with hin | rfl | rfl
    · exact hin
    · exact absurd (pattern_prefix_iff.mp hp).1.symm hk
    · exact absurd (pattern_prefix_iff.mp hp).1.symm hk
  · intro sub _ heq
    exact hk (finalPath_bitmapPath_inj.mp heq).1.symm

/-- An update of the version that is not found. -/
theorem lost (h : Current key s c) (hu : Updated key b s.dir d')
    (hlt : nextSubversion s.dir key < uint32Max)
    (htmp : tmpPath (bitmapPath key (nextSubversion s.dir key)) 0 ∉ d'.entries)
    (hfinal : finalPath (bitmapPath key (nextSubversion s.dir key)) 0 ∉ d'.entries)
    (hdir : s'.dir = d') (hlast : c = s'.completed ∨ s'.interrupted = some c) :
    Current key s' c := by
  refine h.keep hu ?_ ?_ hdir hlast
  · intro n hn _
    rcases hu.names n hn with hin | rfl | rfl
    · exact hin
    · exact absurd hn htmp
    · exact absurd hn hfinal
  · intro sub hsub heq
    have hsame := (finalPath_bitmapPath_inj.mp heq).2.1
    rcases hsub with ⟨n, hn, hsub⟩ | rfl
    · exact absurd hsame (Nat.ne_of_lt (h.next n hn sub hsub))
    · exact absurd hsame (Nat.ne_of_gt hlt)

/-- An update of the version that is found. -/
theorem found (h : Current key s c) (hu : Updated key b s.dir d')
    (hlt : nextSubversion s.dir key < uint32Max)
    (hfinal : finalPath (bitmapPath key (nextSubversion s.dir key)) 0 ∈ d'.entries)
    (hdir : s'.dir = d') (hlast : b = s'.completed ∨ s'.interrupted = some b) :
    Current key s' b := by
  subst hdir
  have hnamed : ∀ n ∈ s'.dir.entries, subversionPattern key <+: n →
      ∃ sub ≤ nextSubversion s.dir key,
        n = tmpPath (bitmapPath key sub) 0 ∨ n = finalPath (bitmapPath key sub) 0 := by
    intro n hn hp
    rcases hu.names n hn with hin | hname
    · obtain ⟨sub, hsub, hname⟩ := h.named n hin hp
      exact ⟨sub, (h.next n hin sub (subversionOf_names hsub hname)).le, hname⟩
    · exact ⟨_, le_rfl, hname⟩
  have hle : ∀ n ∈ s'.dir.entries, ∀ sub, subversionOf key n = some sub →
      sub ≤ nextSubversion s.dir key := by
    intro n hn sub hsub
    obtain ⟨sub', hle, hname⟩ := hnamed n hn (pattern_of_subversionOf hsub)
    rw [subversionOf_names (hle.trans_lt hlt) hname] at hsub
    exact Option.some.inj hsub ▸ hle
  have hlatest : findLatestBitmapSubversion s'.dir key = nextSubversion s.dir key :=
    findLatest_eq (fun n hn sub hsub => (hle n hn sub hsub).trans_lt hlt)
      ⟨_, hfinal, subversionOf_names hlt (.inr rfl)⟩ hle
  constructor
  case owned => exact hu.owned
  case older => exact hu.older
  case single =>
    rw [← AList.lookup_eq_none, hu.lookup _ (slot_single _), AList.lookup_eq_none]
    exact h.single
  case named =>
    intro n hn hp
    obtain ⟨sub, hsub, hname⟩ := hnamed n hn hp
    exact ⟨sub, hsub.trans_lt hlt, hname⟩
  case durable =>
    rw [hlatest]
    exact hu.final (h.fresh hlt (.inr rfl)) hfinal
  case last => exact hlast

end Current

theorem Flushed.current (h : Flushed key s) : Current key s s.completed := by
  have hmax : findLatestBitmapSubversion s.dir key = uint32Max := by
    refine findLatest_of_none ?_
    intro n hn
    rw [subversionOf, if_neg (h.plain n hn)]
  constructor
  case owned => exact h.owned
  case older => exact h.older
  case single => exact h.single
  case named => exact fun n hn hp => absurd hp (h.plain n hn)
  case durable =>
    rw [hmax, bitmapPath_uint32Max]
    exact h.base
  case last => exact .inl rfl

theorem Current.step {a : UpdateAction} (h : Current key s c) (hok : Renamed key s a)
    (hs : Updates.step key s a = some s') : ∃ c', Current key s' c' := by
  obtain ⟨k, b, crash⟩ := a
  cases crash with
  | none =>
      have hu := updated_run (k := k) (b := b) h.owned h.older
      by_cases hk : k = key
      · subst hk
        obtain rfl : ⟨s.dir.run (Updates.updateOps s.dir k b), b, none⟩ = s' := by
          simpa [Updates.step] using hs
        have hfinal := (durable_updateOps (k := k) (b := b) h.owned).mem
        exact ⟨b, h.found hu (hok rfl).1 hfinal rfl (.inl rfl)⟩
      · obtain rfl : { s with dir := s.dir.run (Updates.updateOps s.dir k b) } = s' := by
          simpa [Updates.step, hk] using hs
        exact ⟨c, h.other hu hk⟩
  | some crash =>
      obtain ⟨done, o⟩ := crash
      rw [Updates.step] at hs
      obtain ⟨ho, hs⟩ := Option.ite_none_right_eq_some.mp hs
      have hu := updated_crash h.owned h.older ho
      by_cases hk : k = key
      · subst hk
        rw [if_pos rfl, h.settled_eq] at hs
        obtain rfl := Option.some.inj hs
        obtain ⟨hlt, hrenamed⟩ := hok rfl
        by_cases hfinal : finalPath (bitmapPath k (nextSubversion s.dir k)) 0 ∈ o.entries
        · exact ⟨b, h.found hu hlt hfinal rfl (.inr rfl)⟩
        · exact ⟨c, h.lost hu hlt (mt hrenamed hfinal) hfinal rfl (.inl rfl)⟩
      · rw [if_neg hk] at hs
        obtain rfl := Option.some.inj hs
        exact ⟨c, h.other hu hk⟩

/-- After completed and crashed updates, a load returns the last completed or the interrupted
one. -/
theorem crashSafe (key : Version) (s : Updates)
    (h : Reachable (Flushed key) (Updates.step key) (Renamed key) s) : CrashSafe key s := by
  have hcurrent : ∃ c, Current key s c := by
    refine h.invariant (P := fun s => ∃ c, Current key s c) (fun s hs => ⟨_, hs.current⟩) ?_
    rintro s a s' - ⟨c, hc⟩ hok hs
    exact hc.step hok hs
  obtain ⟨c, hc⟩ := hcurrent
  rcases hc.last with rfl | hlast
  · exact .inl hc.returns
  · exact .inr ⟨c, hlast, hc.returns⟩

section Demo

/-- The first version of the first segment. -/
def demoVersion : Version := ⟨1, 1, 1⟩

def demoBitmap (bits : UInt8) (count : UInt32) : Bitmap := ⟨[bits], count, by simp⟩

/-- The directory after the flush: eight rows, none of them deleted. -/
def demoFlushed : Updates where
  dir :=
    { inodes := [⟨(demoBitmap 0 0).content, true⟩]
      entries := AList.singleton (finalPath (filePath bitmapKind demoVersion) 0) 0
      older := [] }
  completed := demoBitmap 0 0
  interrupted := none

theorem flushed_demoFlushed : Flushed demoVersion demoFlushed := by
  have hlookup : ∀ n i, demoFlushed.dir.entries.lookup n = some i →
      n = finalPath (filePath bitmapKind demoVersion) 0 ∧ i = 0 := by
    intro n i h
    have hmem : n ∈ demoFlushed.dir.entries := AList.lookup_isSome.mp (by rw [h]; rfl)
    obtain rfl : n = finalPath (filePath bitmapKind demoVersion) 0 := by
      simpa [demoFlushed, AList.mem_keys] using hmem
    have hzero : demoFlushed.dir.entries.lookup (finalPath (filePath bitmapKind demoVersion) 0) =
        some 0 := by decide +kernel
    rw [hzero] at h
    exact ⟨rfl, (Option.some.inj h).symm⟩
  constructor
  case owned =>
    refine ⟨fun _ => untmp (finalPath (filePath bitmapKind demoVersion) 0), ?_⟩
    intro v hv n i hi
    obtain rfl : v = demoFlushed.dir.entries := by simpa [Crash.Disk.views, demoFlushed] using hv
    obtain ⟨rfl, rfl⟩ := hlookup n i hi
    exact ⟨Nat.one_pos, rfl⟩
  case older => rfl
  case base =>
    refine ⟨0, (fixed_iff rfl).mpr ?_, rfl⟩
    decide +kernel
  case single => decide +kernel
  case plain =>
    have hplain : ∀ n ∈ demoFlushed.dir.entries.keys, ¬ subversionPattern demoVersion <+: n := by
      decide +kernel
    exact fun n hn => hplain n (AList.mem_keys.mp hn)
  case none => rfl

/-- A crash leaves the files `data`, and `names` with the base file. -/
def demoLeaves (names : List (Name × ℕ)) (data : List (List UInt8)) : Outcome Name UInt8 :=
  ⟨names.foldr (fun n e => e.insert n.1 n.2) demoFlushed.dir.entries, data⟩

def demoBits (bits : UInt8) (count : UInt32) : List UInt8 := (demoBitmap bits count).content

/-- Two updates, the second interrupted when its file has its name. -/
def demoInterrupted : List UpdateAction :=
  [.update demoVersion (demoBitmap 1 1) none,
    .update demoVersion (demoBitmap 3 2) (some (5, demoLeaves
      [(finalPath (bitmapPath demoVersion 0) 0, 1), (finalPath (bitmapPath demoVersion 1) 0, 2)]
      [demoBits 0 0, demoBits 1 1, demoBits 3 2]))]

theorem meets_demoInterrupted :
    Meets (Renamed demoVersion) (Updates.step demoVersion) demoFlushed demoInterrupted := by
  decide +kernel

/-- The interrupted update is found. -/
theorem crashSafe_demoInterrupted :
    ∃ s, exec (Updates.step demoVersion) demoFlushed demoInterrupted = some s ∧
      CrashSafe demoVersion s ∧ loadBitmapFile s.dir demoVersion = ⟨1, [3], some 2⟩ := by
  have hview : (exec (Updates.step demoVersion) demoFlushed demoInterrupted).map
      (fun s => loadBitmapFile s.dir demoVersion) = some ⟨1, [3], some 2⟩ := by decide +kernel
  obtain ⟨s, hs, hview⟩ := Option.map_eq_some_iff.mp hview
  have hreach := (Reachable.start flushed_demoFlushed).of_exec meets_demoInterrupted hs
  exact ⟨s, hs, crashSafe demoVersion s hreach, hview⟩

/-- An update is interrupted when it has made its temporary file. -/
def demoTemporary : List UpdateAction :=
  [.update demoVersion (demoBitmap 1 1)
    (some (1, demoLeaves [(tmpPath (bitmapPath demoVersion 0) 0, 1)] [demoBits 0 0, []]))]

/-- The temporary file is taken for a subversion, whose file is not there: the load finds
nothing, though the bitmap of the flush is on disk. -/
theorem not_crashSafe : ¬ ∀ (key : Version) (s : Updates),
    Reachable (Flushed key) (Updates.step key) anyStep s → CrashSafe key s := by
  intro hall
  have hview : (exec (Updates.step demoVersion) demoFlushed demoTemporary).map
      (fun s => loadBitmapFile s.dir demoVersion) = some ⟨0, [], none⟩ := by decide +kernel
  obtain ⟨s, hs, hview⟩ := Option.map_eq_some_iff.mp hview
  have hreach := (Reachable.start flushed_demoFlushed).of_exec (meets_anyStep demoTemporary) hs
  rcases hall demoVersion s hreach with h | ⟨b, -, h⟩
  · rw [Returns, hview] at h
    cases h
  · rw [Returns, hview] at h
    cases h

end Demo

end VectorLsm.Storage
