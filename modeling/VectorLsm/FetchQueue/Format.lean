import VectorLsm.FetchQueue.Machine
import VectorLsm.Lib.Codec
import VectorLsm.Lib.Fixed

/-! # The files of the pending fetch queue

An entry file holds a header of fixed size, rewritten in place when the status changes, and the
trailer of the record behind it. Its name holds the key, each number at a fixed width, so that the
same key finds the same file and the name tells finished files from temporary ones.
-/

namespace VectorLsm.FetchQueue

/-! ## Entries -/

/-- `DpvFetchEntryHeader`; the two enumerations are four bytes of their own. -/
structure FetchEntryHeader where
  indexRelId : UInt32
  startSid : UInt32
  endSid : UInt32
  version : UInt32
  kind : UInt32
  sourceLsn : UInt64
  status : UInt32
  deriving DecidableEq, Repr

def FetchStatus.code : FetchStatus → UInt32
  | .pending => 0
  | .fetching => 1
  | .done => 2
  | .failed => 3

def FetchKind.code : FetchKind → UInt32
  | .created => 1
  | .replaced => 2

namespace FetchEntryHeader

open Codec in
/-- The header in memory and on disk; `source_lsn` and the end of the struct are 8-aligned. -/
def codec : Codec FetchEntryHeader :=
  (uint32.prod (uint32.prod (uint32.prod (uint32.prod (uint32.prod
    ((pad 4).prod (uint64.prod (uint32.prod (pad 4))))))))).map
    (fun h =>
      (h.indexRelId, h.startSid, h.endSid, h.version, h.kind, (), h.sourceLsn, h.status, ()))
    (fun ⟨rel, lo, hi, v, k, _, lsn, st, _⟩ => ⟨rel, lo, hi, v, k, lsn, st⟩)
    fun _ => rfl

def setStatus (h : FetchEntryHeader) (st : FetchStatus) : FetchEntryHeader :=
  { h with status := st.code }

@[simp] theorem setStatus_setStatus (h : FetchEntryHeader) (st st' : FetchStatus) :
    (h.setStatus st).setStatus st' = h.setStatus st' := rfl

end FetchEntryHeader

open FetchEntryHeader

/-- The file `dpv_queue_enqueue` writes. -/
def entryFile (junk : ℕ → UInt8) (hdr : FetchEntryHeader) (trailer : List UInt8) : List UInt8 :=
  codec.write junk hdr ++ trailer

/-- The struct in memory after the header of a file was read into it. -/
def fileHeader (bs : List UInt8) : FetchEntryHeader := codec.read (bs.take codec.size)

/-- The header goes back with another status; its padding is what was read. -/
def rewriteStatus (bs : List UInt8) (st : FetchStatus) : List UInt8 :=
  codec.write (fun i => bs.getD i 0) ((fileHeader bs).setStatus st) ++ bs.drop codec.size

/-- `dpv_queue_pop_pending` on a file it has locked: the file as claimed, and the entry that is
handed out. -/
def popPending (bs : List UInt8) : Option (List UInt8 × FetchEntryHeader × List UInt8) :=
  if bs.length < codec.size then none
  else if (fileHeader bs).status ≠ FetchStatus.pending.code then none
  else
    let claimed := rewriteStatus bs .fetching
    some (claimed, (fileHeader bs).setStatus .fetching, claimed.drop codec.size)

/-- `dpv_queue_mark` with a status other than `DPV_FETCH_DONE`, which unlinks the file. -/
def mark (bs : List UInt8) (st : FetchStatus) : List UInt8 :=
  if bs.length < codec.size then bs else rewriteStatus bs st

/-- `dpv_queue_recover_on_startup` on an entry. -/
def recoverEntry (bs : List UInt8) : List UInt8 :=
  if bs.length < codec.size then bs
  else if (fileHeader bs).status = FetchStatus.fetching.code then rewriteStatus bs .pending
  else bs

/-- What happens to an entry file between its rename and its unlink. -/
inductive Change where
  | claim
  | mark (st : FetchStatus)
  | recover
  deriving DecidableEq, Repr

def Change.apply (bs : List UInt8) : Change → List UInt8
  | .claim => ((popPending bs).map Prod.fst).getD bs
  | .mark st => FetchQueue.mark bs st
  | .recover => recoverEntry bs

/-- The changes as the status sees them. -/
def Change.status (st : FetchStatus) : Change → FetchStatus
  | .claim => if st = .pending then .fetching else st
  | .mark st' => st'
  | .recover => if st = .fetching then .pending else st

section Entries

variable {junk : ℕ → UInt8} {hdr : FetchEntryHeader} {trailer : List UInt8} {st st' : FetchStatus}

theorem FetchStatus.code_inj : st.code = st'.code ↔ st = st' := by
  cases st <;> cases st' <;> decide

@[simp] theorem fileHeader_entryFile : fileHeader (entryFile junk hdr trailer) = hdr := by
  rw [fileHeader, entryFile, List.take_left' (codec.length_write junk hdr), codec.read_write]

@[simp] theorem drop_entryFile : (entryFile junk hdr trailer).drop codec.size = trailer :=
  List.drop_left' (codec.length_write junk hdr)

theorem not_short_entryFile : ¬ (entryFile junk hdr trailer).length < codec.size := by
  rw [entryFile, List.length_append, codec.length_write]
  omega

/-- A rewrite leaves the trailer and all of the header but the status. -/
theorem rewriteStatus_entryFile : ∃ junk', rewriteStatus (entryFile junk hdr trailer) st =
    entryFile junk' (hdr.setStatus st) trailer := by
  refine ⟨fun i => (entryFile junk hdr trailer).getD i 0, ?_⟩
  rw [rewriteStatus, fileHeader_entryFile, drop_entryFile]
  rfl

theorem popPending_entryFile : popPending (entryFile junk (hdr.setStatus st) trailer) =
    if st = .pending then
      some (rewriteStatus (entryFile junk (hdr.setStatus st) trailer) .fetching,
        hdr.setStatus .fetching, trailer)
    else none := by
  have hst : (hdr.setStatus st).status = FetchStatus.pending.code ↔ st = .pending :=
    FetchStatus.code_inj
  obtain ⟨junk', hfile⟩ : ∃ junk', rewriteStatus (entryFile junk (hdr.setStatus st) trailer)
      .fetching = entryFile junk' (hdr.setStatus .fetching) trailer := rewriteStatus_entryFile
  rw [popPending, if_neg not_short_entryFile, fileHeader_entryFile]
  simp only [ne_eq, hst, hfile, drop_entryFile, setStatus_setStatus]
  exact ite_not ..

theorem Change.apply_entryFile (junk : ℕ → UInt8) (hdr : FetchEntryHeader) (trailer : List UInt8)
    (st : FetchStatus) (c : Change) : ∃ junk',
    c.apply (entryFile junk (hdr.setStatus st) trailer) =
      entryFile junk' (hdr.setStatus (c.status st)) trailer := by
  cases c with
  | claim =>
      rw [Change.apply, popPending_entryFile, Change.status]
      split
      · exact rewriteStatus_entryFile
      · exact ⟨junk, rfl⟩
  | mark st' =>
      rw [Change.apply, FetchQueue.mark, if_neg not_short_entryFile]
      exact rewriteStatus_entryFile
  | recover =>
      have hst : (hdr.setStatus st).status = FetchStatus.fetching.code ↔ st = .fetching :=
        FetchStatus.code_inj
      rw [Change.apply, recoverEntry, if_neg not_short_entryFile, fileHeader_entryFile,
        Change.status]
      simp only [hst]
      split
      · exact rewriteStatus_entryFile
      · exact ⟨junk, rfl⟩

theorem foldl_apply_entryFile (junk : ℕ → UInt8) (hdr : FetchEntryHeader) (trailer : List UInt8)
    (st : FetchStatus) (cs : List Change) : ∃ junk',
    cs.foldl Change.apply (entryFile junk (hdr.setStatus st) trailer) =
      entryFile junk' (hdr.setStatus (cs.foldl Change.status st)) trailer := by
  induction cs generalizing junk st with
  | nil => exact ⟨junk, rfl⟩
  | cons c cs ih =>
      obtain ⟨junk', h⟩ := c.apply_entryFile junk hdr trailer st
      rw [List.foldl_cons, List.foldl_cons, h]
      exact ih _ _

/-- Whatever claims, marks and sweeps an entry has seen, a claim hands out the header and the
trailer that were enqueued, and it is given one exactly when the entry is pending. -/
theorem popPending_after (junk : ℕ → UInt8) (hdr : FetchEntryHeader) (trailer : List UInt8)
    (cs : List Change) :
    (popPending (cs.foldl Change.apply (entryFile junk (hdr.setStatus .pending) trailer))).map
        Prod.snd =
      if cs.foldl Change.status .pending = .pending then some (hdr.setStatus .fetching, trailer)
      else none := by
  obtain ⟨junk', h⟩ := foldl_apply_entryFile junk hdr trailer .pending cs
  rw [h, popPending_entryFile]
  split <;> rfl

end Entries

/-! ## Names -/

/-- The key of a header. -/
@[ext]
structure HeaderKey where
  indexRelId : UInt32
  startSid : UInt32
  endSid : UInt32
  version : UInt32
  kind : FetchKind
  deriving DecidableEq, Repr

/-- `key_to_filename`. -/
def keyToFilename (k : HeaderKey) : List Char :=
  Fixed.padded 16 8 k.indexRelId.toNat ++ '_' ::
    (Fixed.padded 10 10 k.startSid.toNat ++ '_' ::
      (Fixed.padded 10 10 k.endSid.toNat ++ '_' ::
        (Fixed.padded 10 10 k.version.toNat ++ '_' ::
          (Fixed.padded 10 1 k.kind.code.toNat ++ ".entry".toList))))

/-- The name of the temporary file of an enqueue. -/
def tmpFilename (k : HeaderKey) : List Char := '.' :: keyToFilename k ++ ".tmp".toList

/-- A name in the directory of the queue. -/
inductive HeaderName where
  | entry (k : HeaderKey)
  | tmp (k : HeaderKey)
  deriving DecidableEq, Repr

def HeaderName.text : HeaderName → List Char
  | .entry k => keyToFilename k
  | .tmp k => tmpFilename k

/-- `DpvFetchEntry.filename`. -/
def filenameSize : ℕ := 64

/-- `strlcpy` into a buffer of `n` bytes. -/
def strlcpy (n : ℕ) (s : List Char) : List Char := s.take (n - 1)

/-- The names `dpv_queue_pop_pending` looks into. -/
def popsName (s : List Char) : Bool := s.head? ≠ some '.' && ".entry".toList.isSuffixOf s

/-- What `dpv_queue_recover_on_startup` does with a name. -/
inductive Sweep where
  | skip
  | unlink
  | inspect
  deriving DecidableEq, Repr

def sweepName (s : List Char) : Sweep :=
  if s = ".".toList || s = "..".toList then .skip
  else if ".tmp".toList.isSuffixOf s then .unlink
  else if ".entry".toList.isSuffixOf s then .inspect
  else .skip

section Names

variable {k k' : HeaderKey}

@[simp] theorem length_keyToFilename (k : HeaderKey) : (keyToFilename k).length = 49 := by
  simp [keyToFilename]

theorem entry_suffix (k : HeaderKey) : ".entry".toList <:+ keyToFilename k :=
  ⟨Fixed.padded 16 8 k.indexRelId.toNat ++ '_' ::
    (Fixed.padded 10 10 k.startSid.toNat ++ '_' ::
      (Fixed.padded 10 10 k.endSid.toNat ++ '_' ::
        (Fixed.padded 10 10 k.version.toNat ++ '_' :: Fixed.padded 10 1 k.kind.code.toNat))),
    by simp [keyToFilename]⟩

theorem tmp_suffix (k : HeaderKey) : ".tmp".toList <:+ tmpFilename k :=
  List.suffix_append ('.' :: keyToFilename k) ".tmp".toList

/-- Of two suffixes of one text the shorter is a suffix of the longer. -/
theorem not_both_suffix {s : List Char} (h : ".entry".toList <:+ s) : ¬ ".tmp".toList <:+ s :=
  fun h' => absurd (List.suffix_of_suffix_length_le h' h (by decide)) (by decide)

theorem head_keyToFilename (k : HeaderKey) : (keyToFilename k).head? ≠ some '.' := by
  intro h
  have hmem : '.' ∈ Fixed.padded 16 8 k.indexRelId.toNat := by
    cases hp : Fixed.padded 16 8 k.indexRelId.toNat with
    | nil =>
        have hlen := Fixed.length_padded 16 8 k.indexRelId.toNat
        rw [hp] at hlen
        cases hlen
    | cons c cs =>
        rw [keyToFilename, hp, List.cons_append, List.head?_cons, Option.some.injEq] at h
        exact h ▸ List.mem_cons_self
  obtain ⟨d, hd, hc⟩ := Fixed.mem_padded (by decide) hmem
  have hall : ∀ d < 16, d.digitChar ≠ '.' := by decide
  exact hall d hd hc.symm

theorem keyToFilename_inj : keyToFilename k = keyToFilename k' ↔ k = k' := by
  have hex : ∀ n : UInt32, n.toNat < 16 ^ 8 := fun n => n.toNat_lt
  have dec : ∀ n : UInt32, n.toNat < 10 ^ 10 := fun n => n.toNat_lt.trans (by decide)
  have kind : ∀ t : FetchKind, t.code.toNat < 10 ^ 1 := fun t => by cases t <;> decide
  have kindInj : ∀ t t' : FetchKind, t.code.toNat = t'.code.toNat → t = t' :=
    fun t t' => by cases t <;> cases t' <;> decide
  constructor
  · intro h
    obtain ⟨hrel, h⟩ := (Fixed.padded_append_inj (by decide) (by decide) (hex _) (hex _)).mp h
    obtain ⟨hlo, h⟩ := (Fixed.padded_append_inj (by decide) (by decide) (dec _) (dec _)).mp
      (List.cons.inj h).2
    obtain ⟨hhi, h⟩ := (Fixed.padded_append_inj (by decide) (by decide) (dec _) (dec _)).mp
      (List.cons.inj h).2
    obtain ⟨hv, h⟩ := (Fixed.padded_append_inj (by decide) (by decide) (dec _) (dec _)).mp
      (List.cons.inj h).2
    obtain ⟨ht, -⟩ := (Fixed.padded_append_inj (by decide) (by decide) (kind _) (kind _)).mp
      (List.cons.inj h).2
    exact HeaderKey.ext (UInt32.toNat_inj.mp hrel) (UInt32.toNat_inj.mp hlo)
      (UInt32.toNat_inj.mp hhi) (UInt32.toNat_inj.mp hv) (kindInj _ _ ht)
  · rintro rfl
    rfl

theorem tmpFilename_inj : tmpFilename k = tmpFilename k' ↔ k = k' := by
  rw [tmpFilename, tmpFilename, List.append_left_inj, List.cons.injEq, and_iff_right rfl,
    keyToFilename_inj]

theorem tmpFilename_ne : tmpFilename k ≠ keyToFilename k' :=
  fun h => not_both_suffix (entry_suffix k') (h ▸ tmp_suffix k)

theorem popsName_entry (k : HeaderKey) : popsName (keyToFilename k) = true := by
  have h := List.isSuffixOf_iff_suffix.mpr (entry_suffix k)
  simp only [popsName, h, head_keyToFilename k, ne_eq, not_false_eq_true, decide_true,
    Bool.and_true]

theorem popsName_tmp (k : HeaderKey) : popsName (tmpFilename k) = false := rfl

theorem ne_dots {s : List Char} (h : 3 ≤ s.length) : s ≠ ".".toList ∧ s ≠ "..".toList := by
  constructor <;>
  · rintro rfl
    exact absurd h (by decide)

theorem sweepName_entry (k : HeaderKey) : sweepName (keyToFilename k) = .inspect := by
  obtain ⟨hdot, hdots⟩ := ne_dots (s := keyToFilename k) (by rw [length_keyToFilename]; decide)
  have htmp : ¬ ".tmp".toList.isSuffixOf (keyToFilename k) = true := fun h =>
    not_both_suffix (entry_suffix k) (List.isSuffixOf_iff_suffix.mp h)
  rw [sweepName, if_neg (by simp only [hdot, hdots, decide_false, Bool.or_self,
    Bool.false_eq_true, not_false_eq_true]), if_neg htmp,
    if_pos (List.isSuffixOf_iff_suffix.mpr (entry_suffix k))]

theorem sweepName_tmp (k : HeaderKey) : sweepName (tmpFilename k) = .unlink := by
  have hlen : 3 ≤ (tmpFilename k).length := by
    rw [tmpFilename, List.length_append, List.length_cons, length_keyToFilename]
    decide
  obtain ⟨hdot, hdots⟩ := ne_dots hlen
  rw [sweepName, if_neg (by simp only [hdot, hdots, decide_false, Bool.or_self,
    Bool.false_eq_true, not_false_eq_true]), if_pos (List.isSuffixOf_iff_suffix.mpr (tmp_suffix k))]

/-- Names are read as they are meant: no two of them agree, a claim looks into the finished entries
only, the startup sweep removes the temporary files only, and the buffer that carries the name to
`dpv_queue_mark` holds all of it. -/
theorem names_tell (n n' : HeaderName) :
    (n.text = n'.text ↔ n = n') ∧
      (popsName n.text = true ↔ ∃ k, n = .entry k) ∧
      (sweepName n.text = .unlink ↔ ∃ k, n = .tmp k) ∧
      (sweepName n.text = .inspect ↔ ∃ k, n = .entry k) ∧
      (popsName n.text = true → strlcpy filenameSize n.text = n.text) := by
  refine ⟨?_, ?_, ?_, ?_, ?_⟩
  · cases n <;> cases n' <;>
      simp only [HeaderName.text, keyToFilename_inj, tmpFilename_inj, tmpFilename_ne,
        Ne.symm tmpFilename_ne, HeaderName.entry.injEq, HeaderName.tmp.injEq, reduceCtorEq]
  · cases n <;> simp [HeaderName.text, popsName_entry, popsName_tmp]
  · cases n <;> simp [HeaderName.text, sweepName_entry, sweepName_tmp]
  · cases n <;> simp [HeaderName.text, sweepName_entry, sweepName_tmp]
  · cases n with
    | entry k =>
        exact fun _ => List.take_of_length_le (by
          rw [HeaderName.text, length_keyToFilename]
          decide)
    | tmp k =>
        intro h
        rw [HeaderName.text, popsName_tmp] at h
        cases h

end Names

end VectorLsm.FetchQueue
