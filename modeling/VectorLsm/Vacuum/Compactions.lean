import VectorLsm.Vacuum.Files

/-! # Compactions next to VACUUM

What a merge thread does to the directory: it reads the latest version of one segment or of two
neighbours, reads their bitmaps once more and writes the new version. What holds of all files and
is kept by rebuilds and merges holds of whatever the merge threads have in hand.
-/

namespace VectorLsm.BulkDelete

open OnDisk

/-- The files a compaction takes: one segment, or two neighbours. -/
def Neighbours : List SegmentFile → Prop
  | [_] => True
  | [f, g] => f.endSid + 1 = g.startSid
  | _ => False

instance : DecidablePred Neighbours
  | [] => .isFalse id
  | [_] => .isTrue trivial
  | [f, g] => inferInstanceAs (Decidable (f.endSid + 1 = g.startSid))
  | _ :: _ :: _ :: _ => .isFalse id

/-- Where a compaction stands with its files. -/
inductive CompactionPc where
  | idle
  | read (files : List SegmentFile)
  /-- The bitmaps are read again and the new arrays filled. -/
  | built (new : SegmentFile)

namespace CompactionPc

/-- The segments are claimed and the files of their latest versions read. -/
def claim (d : Disk) (ranges : List (SegmentId × SegmentId)) : CompactionPc → Option CompactionPc
  | .idle =>
      (ranges.mapM fun r => d.loadLatest r.1 r.2).bind fun files =>
        if Neighbours files then some (.read files) else none
  | _ => none

def next (d : Disk) : CompactionPc → Option (Disk × CompactionPc)
  | .idle => none
  | .read files =>
      ((files.mapM fun f => d.load f.info).bind (compact files)).map fun new => (d, .built new)
  | .built new =>
      let new := { new with version := d.latestVersion new.startSid new.endSid + 1 }
      some (new :: d, .idle)

/-- What was read first and what is read again go together. -/
def Reread (R : SegmentFile → SegmentFile → Prop) (d : Disk) : CompactionPc → Prop
  | .read files => ∀ f ∈ files, ∀ f', d.load f.info = some f' → R f f'
  | .idle | .built _ => True

theorem reread_true (d : Disk) (pc : CompactionPc) : pc.Reread (fun _ _ => True) d := by
  cases pc with
  | read => exact fun _ _ _ _ => trivial
  | _ => trivial

/-- `P` holds of the files in hand. -/
def All (P : SegmentFile → Prop) : CompactionPc → Prop
  | .idle => True
  | .read files => (∀ f ∈ files, P f) ∧ Neighbours files
  | .built new => P new

end CompactionPc

/-- A property of segment files that compactions keep, if `R` relates a file to the one read
again. -/
structure Kept (R : SegmentFile → SegmentFile → Prop) (P : SegmentFile → Prop) : Prop where
  rebuild : ∀ f f', P f → P f' → f'.info = f.info → R f f' → P (f.rebuild f.bitmap f'.bitmap 0)
  merge : ∀ f g, P f → P g → f.endSid + 1 = g.startSid → P (f.merge g 0)
  setVersion : ∀ f v, P f → P { f with version := v }

section Kept

variable {R : SegmentFile → SegmentFile → Prop} {P Q : SegmentFile → Prop} {d d' : Disk}
  {pc pc' : CompactionPc} {f new : SegmentFile}

theorem CompactionPc.All.imp (h : pc.All P) (hPQ : ∀ f, P f → Q f) : pc.All Q := by
  cases pc with
  | idle => trivial
  | read files => exact ⟨fun f hf => hPQ f (h.1 f hf), h.2⟩
  | built new => exact hPQ new h

theorem load_mem {i : SegmentFileInfo} (hf : d.load i = some f) : f ∈ d ∧ f.info = i :=
  ⟨List.mem_of_find?_eq_some hf, by simpa using List.find?_some hf⟩

theorem Kept.writeBitmap (h : ∀ f ∈ d, P f) {i : SegmentFileInfo} {bitmap : ℕ → Bool} {n : ℕ}
    (hset : ∀ f ∈ d, f.info = i → P (f.setBitmap bitmap n)) :
    ∀ f ∈ d.writeBitmap i bitmap n, P f := by
  intro f hf
  obtain ⟨g, hg, rfl⟩ := Disk.mem_writeBitmap.mp hf
  split
  next hi => exact hset g hg hi
  next => exact h g hg

theorem Kept.compact (hP : Kept R P) {files fs : List SegmentFile} (hfiles : ∀ f ∈ files, P f)
    (hn : Neighbours files) (hfs : ∀ f ∈ fs, P f) (hinfo : fs.map (·.info) = files.map (·.info))
    (hR : ∀ f ∈ files, ∀ f' ∈ fs, f'.info = f.info → R f f')
    (h : OnDisk.compact files fs = some new) : P new := by
  unfold OnDisk.compact at h
  split at h
  next f f' =>
    obtain rfl := Option.some.inj h
    have hf' : f'.info = f.info := by simpa using hinfo
    exact hP.rebuild f f' (hfiles f List.mem_cons_self) (hfs f' List.mem_cons_self) hf'
      (hR f List.mem_cons_self f' List.mem_cons_self hf')
  next f g f' g' =>
    obtain rfl := Option.some.inj h
    have hadj : f.endSid + 1 = g.startSid := hn
    rw [List.map_cons, List.map_cons, List.map_cons, List.map_cons, List.cons.injEq,
      List.cons.injEq] at hinfo
    obtain ⟨hf, hg, -⟩ := hinfo
    have h₁ : f'.endSid = f.endSid := congrArg SegmentFileInfo.endSid hf
    have h₂ : g'.startSid = g.startSid := congrArg SegmentFileInfo.startSid hg
    refine hP.merge f' g' (hfs f' List.mem_cons_self) (hfs g' ?_) (by rw [h₁, h₂, hadj])
    exact List.mem_cons_of_mem f' List.mem_cons_self
  next => cases h

theorem Kept.claim (hd : ∀ f ∈ d, P f) {ranges : List (SegmentId × SegmentId)}
    (h : pc.claim d ranges = some pc') : pc'.All P := by
  unfold CompactionPc.claim at h
  split at h
  next =>
    obtain ⟨files, hfiles, h⟩ := Option.bind_eq_some_iff.mp h
    split at h
    next hn =>
      obtain rfl := Option.some.inj h
      refine ⟨fun f hf => ?_, hn⟩
      obtain ⟨r, -, hr⟩ := mem_of_mapM hfiles hf
      exact hd f (load_mem hr).1
    next => cases h
  next => cases h

theorem Kept.next (hP : Kept R P) (hd : ∀ f ∈ d, P f) (hpc : pc.All P) (hR : pc.Reread R d)
    (h : pc.next d = some (d', pc')) : (∀ f ∈ d', P f) ∧ pc'.All P := by
  cases pc with
  | idle => cases h
  | read files =>
      obtain ⟨new, hnew, h⟩ := Option.map_eq_some_iff.mp h
      obtain ⟨rfl, rfl⟩ := Prod.mk.inj h
      obtain ⟨fs, hfs, hnew⟩ := Option.bind_eq_some_iff.mp hnew
      have hread : ∀ f' ∈ fs, ∃ f ∈ files, d.load f.info = some f' := fun f' hf' =>
        mem_of_mapM hfs hf'
      refine ⟨hd, hP.compact hpc.1 hpc.2 (fun f' hf' => ?_)
        (map_of_mapM hfs fun f _ g hg => (load_mem hg).2) (fun f hf f' hf' hi => ?_) hnew⟩
      · obtain ⟨f, -, hf⟩ := hread f' hf'
        exact hd f' (load_mem hf).1
      · obtain ⟨g, -, hg⟩ := hread f' hf'
        exact hR f hf f' (by rwa [← hi, (load_mem hg).2])
  | built new =>
      obtain ⟨rfl, rfl⟩ := Prod.mk.inj (Option.some.inj h)
      refine ⟨fun f hf => ?_, trivial⟩
      rcases List.mem_cons.mp hf with rfl | hf
      · exact hP.setVersion new _ hpc
      · exact hd f hf

end Kept

end VectorLsm.BulkDelete
