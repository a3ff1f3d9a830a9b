import VectorLsm.Storage.VersionFiles

/-! # A version that is found is complete

The files of a version are all on disk before its metadata has a name, all but the index: its data
is on disk only if it has got there by itself.
-/

namespace VectorLsm.Storage

open Crash Decimal Transition

variable {d d' : Dir} {v v' : Version} {prep : PrepareFlushMeta} {s s' : Flushes}
  {o : Outcome Name UInt8} {op : Op Name UInt8} {done : ℕ}

theorem le_foldl_max {l : List ℕ} {m : ℕ} : m ≤ l.foldl max m ∧ ∀ x ∈ l, x ≤ l.foldl max m := by
  induction l generalizing m with
  | nil => simp
  | cons a l ih =>
      obtain ⟨hself, hall⟩ := ih (m := max m a)
      rw [List.foldl_cons]
      refine ⟨(Nat.le_max_left m a).trans hself, ?_⟩
      intro x hx
      rcases List.mem_cons.mp hx with rfl | hx
      · exact (Nat.le_max_right m x).trans hself
      · exact hall x hx

theorem versionOf_metadataPath (h : v.version ≤ uint32Max) :
    versionOf v.startSid v.endSid (metadataPath v) = some v.version := by
  have hsplit : metadataPath v = metadataKind ++ '_' :: (digits v.startSid ++ '_' ::
      (digits v.endSid ++ ['_', 'v'])) ++ (digits v.version ++ []) := by
    simp [metadataPath, filePath]
  unfold versionOf
  dsimp only
  rw [hsplit, if_pos (List.prefix_append _ _), List.drop_left, atoi_digits (by simp),
    Nat.mod_eq_of_lt (Nat.lt_succ_of_le h)]

/-- A new version has no metadata in the directory. -/
theorem newVersion_fresh
    (h : findLatestSegmentVersion d prep.startSid.toNat prep.endSid.toNat < uint32Max) :
    metadataPath (newVersion d prep) ∉ d.entries := by
  intro hmem
  have hversion : (newVersion d prep).version =
      findLatestSegmentVersion d prep.startSid.toNat prep.endSid.toNat + 1 :=
    Nat.mod_eq_of_lt (Nat.succ_lt_succ h)
  have hof := versionOf_metadataPath (v := newVersion d prep) (by omega)
  have hin : (newVersion d prep).version ∈ d.entries.keys.filterMap
      (versionOf prep.startSid.toNat prep.endSid.toNat) :=
    List.mem_filterMap.mpr ⟨_, AList.mem_keys.mp hmem, hof⟩
  have hle : (newVersion d prep).version ≤
      findLatestSegmentVersion d prep.startSid.toNat prep.endSid.toNat := le_foldl_max.2 _ hin
  omega

theorem about_flush (h : op ∈ flushSegmentToDisk d prep) :
    ∃ kind ∈ metadataKind :: fileKinds, About (filePath kind (newVersion d prep)) op := by
  rcases List.mem_append.mp h with h | h
  · obtain ⟨kind, hkind, hop⟩ := about_writeFiles h
    exact ⟨kind, List.mem_cons_of_mem _ hkind, hop⟩
  · exact ⟨metadataKind, List.mem_cons_self, about_metadata h⟩

/-- The system calls of a flush, cut anywhere, are about the files of its version. -/
theorem other_version {kind : Name} (hkind : kind ∈ metadataKind :: fileKinds)
    (hne : v ≠ newVersion d prep) :
    ∀ op ∈ (flushSegmentToDisk d prep).take done, ∃ p, About p op ∧ filePath kind v ≠ p := by
  intro op hop
  obtain ⟨kind', hkind', hop⟩ := about_flush (List.mem_of_mem_take hop)
  refine ⟨_, hop, ?_⟩
  rw [Ne, filePath_inj (kind_no_sep hkind) (kind_no_sep hkind')]
  exact fun h => hne h.2

theorem owned_flush (h : Owned untmp d) :
    Owned untmp (d.run ((flushSegmentToDisk d prep).take done)) :=
  owned_run h fun op hop => by
    obtain ⟨kind, -, hop⟩ := about_flush (List.mem_of_mem_take hop)
    exact ⟨_, hop⟩

/-- Whether a version that is not the new one has metadata does not change. -/
theorem fixed_metadata (hd : Owned untmp d) (ho : d.older = []) (hne : v ≠ newVersion d prep) :
    Fixed (metadataPath v) (d.entries.lookup (metadataPath v))
      (d.run ((flushSegmentToDisk d prep).take done)) := by
  refine frame_path hd ?_ (fun _ _ hk hd => hk.fixed hd) ((fixed_iff ho).mpr rfl)
  rw [pathOf_path (metadataPath_no_dot v)]
  exact other_version List.mem_cons_self hne

/-- The files of the new version are written, or nothing has given its metadata a name. -/
theorem written_or_none (hd : Owned untmp d) (ho : d.older = [])
    (hlt : findLatestSegmentVersion d prep.startSid.toNat prep.endSid.toNat < uint32Max)
    (hleft : NoLeftover d prep (newVersion d prep)) :
    Written prep (newVersion d prep) (d.run ((flushSegmentToDisk d prep).take done)) ∨
      Fixed (metadataPath (newVersion d prep)) none
        (d.run ((flushSegmentToDisk d prep).take done)) := by
  rw [flushSegmentToDisk, List.take_append]
  by_cases hdone : done ≤ (writeFiles prep (newVersion d prep)).length
  · right
    rw [Nat.sub_eq_zero_of_le hdone, List.take_zero, List.append_nil]
    have hnone : Fixed (metadataPath (newVersion d prep)) none d :=
      (fixed_iff ho).mpr (AList.lookup_eq_none.mpr (newVersion_fresh hlt))
    refine hnone.run_none ?_
    intro op hop hmakes
    obtain ⟨kind, hkind, hop⟩ := about_writeFiles (List.mem_of_mem_take hop)
    have hpath := hmakes.within hop.within
    rw [pathOf_path (metadataPath_no_dot _)] at hpath
    refine filePath_ne List.mem_cons_self (List.mem_cons_of_mem _ hkind) ?_ hpath
    rintro rfl
    exact absurd hkind (by decide)
  · left
    rw [List.take_of_length_le (Nat.le_of_not_le hdone), run_append]
    have howned : Owned untmp (d.run (writeFiles prep (newVersion d prep))) :=
      owned_run hd fun op hop => by
        obtain ⟨kind, -, hop⟩ := about_writeFiles hop
        exact ⟨_, hop⟩
    refine (written_writeFiles hd ho hleft).run howned ?_
    intro op hop
    refine ⟨_, about_metadata (List.mem_of_mem_take hop), ?_⟩
    intro kind hkind
    refine filePath_ne (List.mem_cons_of_mem _ hkind) List.mem_cons_self ?_
    rintro rfl
    exact absurd hkind (by decide)

/-- What carries the result: the files of a version that is found are there. -/
structure FilesThere (s : Flushes) : Prop where
  owned : Owned untmp s.dir
  older : s.dir.older = []
  written : ∀ v, metadataPath v ∈ s.dir.entries →
    ∃ prep, s.flushed.lookup v = some prep ∧ Written prep v s.dir

theorem FilesThere.atomic (h : FilesThere s) : FlushAtomic s := by
  intro v hv
  obtain ⟨prep, hprep, hw⟩ := h.written v hv
  exact ⟨prep, hprep, hw.readsBack⟩

theorem Flushes.Start.filesThere (h : s.Start) : FilesThere s :=
  ⟨h.owned, h.older, fun v hv => absurd hv (h.none v)⟩

namespace FilesThere

/-- The versions found while a flush is under way: the new one is written, the others are as they
were. -/
theorem during (h : FilesThere s)
    (hlt : findLatestSegmentVersion s.dir prep.startSid.toNat prep.endSid.toNat < uint32Max)
    (hleft : NoLeftover s.dir prep (newVersion s.dir prep))
    (hfound : ¬ Fixed (metadataPath v) none
      (s.dir.run ((flushSegmentToDisk s.dir prep).take done))) :
    ∃ prep', ((newVersion s.dir prep, prep) :: s.flushed).lookup v = some prep' ∧
      Written prep' v (s.dir.run ((flushSegmentToDisk s.dir prep).take done)) := by
  by_cases hv : v = newVersion s.dir prep
  · subst hv
    refine ⟨prep, by simp, ?_⟩
    exact (written_or_none h.owned h.older hlt hleft).resolve_right hfound
  · have hmem : metadataPath v ∈ s.dir.entries := by
      by_contra hnone
      refine hfound ?_
      rw [← AList.lookup_eq_none.mpr hnone]
      exact fixed_metadata h.owned h.older hv
    obtain ⟨prep', hprep, hw⟩ := h.written v hmem
    have hne : (v == newVersion s.dir prep) = false := beq_eq_false_iff_ne.mpr hv
    refine ⟨prep', by rw [List.lookup_cons, hne]; exact hprep, ?_⟩
    refine hw.run h.owned ?_
    intro op hop
    obtain ⟨kind', hkind', hop⟩ := about_flush (List.mem_of_mem_take hop)
    refine ⟨_, hop, ?_⟩
    intro kind hkind
    rw [Ne, filePath_inj (kind_no_sep (List.mem_cons_of_mem _ hkind)) (kind_no_sep hkind')]
    exact fun heq => hv heq.2

theorem step {a : FlushAction} (h : FilesThere s) (hok : Lasting s a)
    (hs : Flushes.step s a = some s') : FilesThere s' := by
  obtain ⟨prep, crash⟩ := a
  obtain ⟨hlt, hleft, hcrash⟩ := hok
  cases crash with
  | none =>
      obtain rfl := Option.some.inj hs
      have htake : (flushSegmentToDisk s.dir prep).take (flushSegmentToDisk s.dir prep).length =
          flushSegmentToDisk s.dir prep := List.take_length
      constructor
      case owned => exact htake ▸ owned_flush h.owned
      case older =>
        dsimp only
        rw [flushSegmentToDisk, run_append]
        rfl
      case written =>
        intro v hv
        have hduring : ¬ Fixed (metadataPath v) none (s.dir.run
            ((flushSegmentToDisk s.dir prep).take (flushSegmentToDisk s.dir prep).length)) → _ :=
          h.during hlt hleft
        rw [htake] at hduring
        refine hduring ?_
        intro hfixed
        exact AList.lookup_eq_none.mp (hfixed _ mem_views) hv
  | some crash =>
      obtain ⟨done, o⟩ := crash
      rw [Flushes.step] at hs
      obtain ⟨ho, hs⟩ := Option.ite_none_right_eq_some.mp hs
      obtain rfl := Option.some.inj hs
      constructor
      case owned => exact (owned_flush h.owned).crash ho
      case older => exact crash_older
      case written =>
        intro v hv
        have hfound : ¬ Fixed (metadataPath v) none
            (s.dir.run ((flushSegmentToDisk s.dir prep).take done)) := by
          intro hfixed
          exact AList.lookup_eq_none.mp ((fixed_iff crash_older).mp (hfixed.crash ho)) hv
        obtain ⟨prep', hprep, hw⟩ := h.during hlt hleft hfound
        refine ⟨prep', hprep, hw.crash ho ?_⟩
        intro hindex
        have hmem : (v, prep') ∈ (newVersion s.dir prep, prep) :: s.flushed := by
          obtain ⟨l, l', heq, -⟩ := List.lookup_eq_some_iff.mp hprep
          simp [heq]
        exact hcrash _ hmem hv hindex

end FilesThere

/-- After completed and crashed flushes, a version whose metadata is found reads back as it was
flushed. -/
theorem flushAtomic (s : Flushes) (h : Reachable Flushes.Start Flushes.step Lasting s) :
    FlushAtomic s := by
  have hthere : FilesThere s :=
    h.invariant (fun _ hs => hs.filesThere) fun _ _ _ _ hi hok hs => hi.step hok hs
  exact hthere.atomic

section Demo

def demoPrep : PrepareFlushMeta where
  startSid := 1
  endSid := 1
  validRows := 1
  indexType := 2
  map := [7]
  bitmap := [0]
  deleteCount := 0
  index := some [8, 9]
  offsets := some [1, 0, 1]

/-- A new index. -/
def demoEmpty : Flushes := ⟨⟨[], ∅, []⟩, []⟩

theorem start_demoEmpty : demoEmpty.Start where
  owned := by
    refine ⟨fun _ => [], ?_⟩
    intro v hv n i hi
    obtain rfl : v = ∅ := by simpa [Crash.Disk.views, demoEmpty] using hv
    simp at hi
  older := rfl
  none := fun v => AList.notMem_empty _

/-- The files of the version after the flush. -/
def demoNames : Entries Name :=
  (demoEmpty.dir.run (flushSegmentToDisk demoEmpty.dir demoPrep)).entries

/-- A crash when the flush has ended leaves all names, with the data `index` in the index. -/
def demoCrash (index : List UInt8) : FlushAction :=
  .flush demoPrep (some ((flushSegmentToDisk demoEmpty.dir demoPrep).length,
    ⟨demoNames, [index, [0, 0, 0, 0, 0], [7], [1, 0, 1], metadataBytes demoPrep]⟩))

def demoLasting : List FlushAction := [demoCrash [8, 9], .flush demoPrep none]

theorem meets_demoLasting : Meets Lasting Flushes.step demoEmpty demoLasting := by
  decide +kernel

/-- Two versions of a segment, the first found after a crash. -/
theorem flushAtomic_demoLasting :
    ∃ s, exec Flushes.step demoEmpty demoLasting = some s ∧ FlushAtomic s ∧
      metadataPath ⟨1, 1, 1⟩ ∈ s.dir.entries ∧ metadataPath ⟨1, 1, 2⟩ ∈ s.dir.entries := by
  have hview : (exec Flushes.step demoEmpty demoLasting).map
      (fun s => decide (metadataPath ⟨1, 1, 1⟩ ∈ s.dir.entries.keys ∧
        metadataPath ⟨1, 1, 2⟩ ∈ s.dir.entries.keys)) = some true := by decide +kernel
  obtain ⟨s, hs, hview⟩ := Option.map_eq_some_iff.mp hview
  have hreach := (Reachable.start start_demoEmpty).of_exec meets_demoLasting hs
  obtain ⟨hfirst, hsecond⟩ := of_decide_eq_true hview
  exact ⟨s, hs, flushAtomic s hreach, AList.mem_keys.mpr hfirst, AList.mem_keys.mpr hsecond⟩

/-- The index was written through a stream and never synced: a crash after the flush may leave
the version with an empty index. -/
theorem not_flushAtomic :
    ¬ ∀ s : Flushes, Reachable Flushes.Start Flushes.step anyStep s → FlushAtomic s := by
  intro hall
  have hview : (exec Flushes.step demoEmpty [demoCrash []]).map
      (fun s => (decide (metadataPath ⟨1, 1, 1⟩ ∈ s.dir.entries.keys),
        s.dir.read (filePath indexKind ⟨1, 1, 1⟩), s.flushed)) =
      some (true, some [], [(⟨1, 1, 1⟩, demoPrep)]) := by decide +kernel
  obtain ⟨s, hs, hview⟩ := Option.map_eq_some_iff.mp hview
  simp only [Prod.mk.injEq, decide_eq_true_eq] at hview
  obtain ⟨hfound, hread, hflushed⟩ := hview
  have hreach := (Reachable.start start_demoEmpty).of_exec (meets_anyStep [demoCrash []]) hs
  obtain ⟨prep, hprep, hback⟩ := hall s hreach _ (AList.mem_keys.mpr hfound)
  obtain rfl : demoPrep = prep := by simpa [hflushed] using hprep
  have hindex := hback.index [8, 9] rfl
  rw [hread] at hindex
  cases hindex

end Demo

end VectorLsm.Storage
