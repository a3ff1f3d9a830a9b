import VectorLsm.Wal.Records

/-! # What the redo makes of what was emitted

Every record asks the standby for what the primary has done, with the arguments of the emitting
call, as long as the counts fit in their fields. Of the callbacks that read arrays only one looks at
the length of the record, so that of arbitrary bytes the others read as many as the bytes say.
-/

namespace VectorLsm.Wal

open Codec FetchQueue

/-! ## A stream of records -/

/-- A call of one of the emitting functions. -/
inductive Emission where
  | registerMemtable (indexRelId sid : UInt32)
  | addToMemtable (indexRelId sid slotIndex : UInt32) (tid : ItemPointer) (vector : List UInt8)
      (vectorBytes : UInt32)
  | updateMaxSid (indexRelId sid : UInt32)
  | releaseMemtable (indexRelId sid : UInt32)
  | segmentCreated (indexRelId startSid endSid version : UInt32)
  | segmentReplaced (indexRelId : UInt32) (oldRanges : List SegRange)
      (newStartSid newEndSid newVersion : UInt32) (offsets : List SegOffset)
  | indexCreate (indexRelId indexType dim elemSize : UInt32)
  | vacuumTombstones (indexRelId sid ownerVersion subversion : UInt32) (isMemtableOwner : Bool)
      (entries : List VacuumEntry)

namespace Emission

def record (junk : ℕ → UInt8) (db : UInt32) : Emission → XLogRecord
  | registerMemtable rel sid => emitRegisterMemtable junk db rel sid
  | addToMemtable rel sid slot tid vector n => emitAddToMemtable junk db rel sid slot tid vector n
  | updateMaxSid rel sid => emitUpdateMaxSid junk db rel sid
  | releaseMemtable rel sid => emitReleaseMemtable junk db rel sid
  | segmentCreated rel lo hi v => emitSegmentCreated junk db rel lo hi v
  | segmentReplaced rel old lo hi v offsets => emitSegmentReplaced junk db rel old lo hi v offsets
  | indexCreate rel t dim size => emitIndexCreate junk db rel t dim size
  | vacuumTombstones rel sid v sub mt entries =>
      emitVacuumTombstones junk db rel sid v sub mt entries

/-- What the standby is to do about it. -/
def calls (db : UInt32) (lsn : UInt64) : Emission → List Call
  | registerMemtable rel sid => [.registerMemtable rel sid]
  | addToMemtable rel sid slot tid vector n =>
      [.addToMemtable rel sid slot tid (vector.take n.toNat) n]
  | updateMaxSid rel sid => [.updateMaxSid rel sid]
  | releaseMemtable rel sid => [.releaseMemtable rel sid]
  | segmentCreated rel lo hi v =>
      [.queueEnqueue ⟨rel, lo, hi, v, FetchKind.created.code, lsn, FetchStatus.pending.code⟩ []]
  | segmentReplaced rel old lo hi v offsets =>
      [.queueEnqueue ⟨rel, lo, hi, v, FetchKind.replaced.code, lsn, FetchStatus.pending.code⟩
        (replacedTrailer (fun _ => 0) old offsets)]
  | indexCreate rel t dim size =>
      [.writeIndexMetadata rel t dim size 32 200, .claimIndexSlot db rel t dim size]
  | vacuumTombstones rel sid v sub mt entries =>
      [.applyVacuumTombstones ⟨db, rel, sid, v, sub, if mt then 1 else 0,
        UInt32.ofNat entries.length, 0⟩ entries]

/-- The counts of the arrays are what their fields can hold, and the vector is as long as its
length says. -/
def Fits : Emission → Prop
  | addToMemtable _ _ _ _ vector n => n.toNat ≤ vector.length
  | segmentReplaced _ old _ _ _ offsets => old.length < 2 ^ 16 ∧ offsets.length < 2 ^ 16
  | vacuumTombstones _ _ _ _ _ entries => entries.length < 2 ^ 32
  | _ => True

/-- The redo of an index creation looks for no index. -/
def creates : Emission → Bool
  | indexCreate .. => true
  | _ => false

end Emission

/-- A record in the WAL: what was emitted, the padding of its structs, the bits that the core adds
to `xl_info`, where it lies, and whether the standby finds the index when it comes to it. -/
structure Shipped where
  emission : Emission
  junk : ℕ → UInt8
  db : UInt32
  core : UInt8
  lsn : UInt64
  found : Bool

namespace Shipped

variable (s : Shipped)

def record : XLogRecord :=
  { s.emission.record s.junk s.db with
    info := (s.emission.record s.junk s.db).info ||| (s.core &&& infoMask) }

def redo (hot : Bool) : Except Fault (List Call) :=
  Wal.redo hot (fun _ _ => s.found) s.lsn s.record

def calls (hot : Bool) : List Call :=
  if hot && (s.found || s.emission.creates) then s.emission.calls s.db s.lsn else []

end Shipped

section Structs

variable {α : Type} {c : Codec α} {junk : ℕ → UInt8} {a : α} {rest : List UInt8}

theorem at?_write : at? c (c.write junk a ++ rest) 0 = .ok a := by
  rw [at?, c.readAt_write]

theorem at?_write_self : at? c (c.write junk a) 0 = .ok a := by
  have h : at? c (c.write junk a ++ []) 0 = .ok a := at?_write
  rwa [List.append_nil] at h

end Structs

/-! ## Dispatch -/

theorem info_core {i core : UInt8} (h : i &&& ~~~infoMask = i) :
    (i ||| (core &&& infoMask)) &&& ~~~infoMask = i := by
  have hzero : core &&& infoMask &&& ~~~infoMask = 0 := by
    rw [UInt8.and_assoc, show infoMask &&& ~~~infoMask = 0 from rfl, UInt8.and_zero]
  have hdistrib : (i ||| (core &&& infoMask)) &&& ~~~infoMask =
      (i &&& ~~~infoMask) ||| (core &&& infoMask &&& ~~~infoMask) :=
    UInt8.toBitVec_inj.mp BitVec.and_or_distrib_right
  rw [hdistrib, hzero, h, UInt8.or_zero]

/-- The callback for a record of the emitted kind. -/
def Emission.callback (getIndex : UInt32 → UInt32 → Bool) (lsn : UInt64) (data : List UInt8) :
    Emission → Except Fault (List Call)
  | registerMemtable .. => redoRegisterMemtable getIndex data
  | addToMemtable .. => redoAddToMemtable getIndex data
  | updateMaxSid .. => redoUpdateMaxSid getIndex data
  | releaseMemtable .. => redoReleaseMemtable getIndex data
  | segmentCreated .. => redoSegmentCreated getIndex lsn data
  | segmentReplaced .. => redoSegmentReplaced getIndex lsn data
  | indexCreate .. => redoIndexCreate data
  | vacuumTombstones .. => redoVacuumTombstones getIndex data

def Emission.info : Emission → UInt8
  | registerMemtable .. => infoRegisterMemtable
  | addToMemtable .. => infoAddToMemtable
  | updateMaxSid .. => infoUpdateMaxSid
  | releaseMemtable .. => infoReleaseMemtable
  | segmentCreated .. => infoSegmentCreated
  | segmentReplaced .. => infoSegmentReplaced
  | indexCreate .. => infoIndexCreate
  | vacuumTombstones .. => infoVacuumTombstones

theorem Emission.info_record (e : Emission) (junk : ℕ → UInt8) (db : UInt32) :
    (e.record junk db).info = e.info := by
  cases e <;> rfl

theorem Emission.info_upper (e : Emission) : e.info &&& ~~~infoMask = e.info := by
  cases e <;> simp only [Emission.info] <;> decide

theorem Shipped.redo_eq (s : Shipped) (hot : Bool) : s.redo hot =
    if hot then s.emission.callback (fun _ _ => s.found) s.lsn
      (s.emission.record s.junk s.db).data else .ok [] := by
  have hinfo : s.record.info &&& ~~~infoMask = s.emission.info := by
    rw [Shipped.record, Emission.info_record]
    exact info_core s.emission.info_upper
  rw [Shipped.redo, Wal.redo, hinfo]
  change dispatch hot _ _ _ (s.emission.record s.junk s.db).data = _
  cases s.emission <;> rfl

/-! ## One record -/

section Callbacks

variable {junk : ℕ → UInt8} {db rel sid : UInt32} {found : Bool} {lsn : UInt64}

theorem redoMemtable_write (call : UInt32 → UInt32 → Call) :
    redoMemtable (fun _ _ => found) (MemtableRecord.codec.write junk ⟨db, rel, sid⟩) call =
      .ok (if found then [call rel sid] else []) := by
  rw [redoMemtable, at?_write_self]
  cases found <;> rfl

theorem redoAddToMemtable_iff {slot : UInt32} {tid : ItemPointer} {vector : List UInt8}
    {n : UInt32} :
    redoAddToMemtable (fun _ _ => found)
        (emitAddToMemtable junk db rel sid slot tid vector n).data =
        .ok (if found then [.addToMemtable rel sid slot tid (vector.take n.toNat) n] else []) ↔
      (found = true → n.toNat ≤ vector.length) := by
  have hlen := AddToMemtable.codec.length_write junk ⟨db, rel, sid, slot, tid, n⟩
  rw [emitAddToMemtable, redoAddToMemtable, at?_write]
  cases found with
  | false => exact iff_of_true rfl (fun h => absurd h Bool.false_ne_true)
  | true =>
      simp only [bind, Except.bind, if_true, List.length_append, hlen, List.length_take,
        List.drop_left' hlen, List.take_take, Nat.min_self, true_implies]
      split
      · rename_i hlt
        exact iff_of_false (fun h => nomatch h) (by omega)
      · rename_i hle
        exact iff_of_true rfl (by omega)

theorem dense_segRange : SegRange.codec.Dense :=
  (dense_number.prod (dense_number.prod dense_number)).map

theorem dense_segOffset : SegOffset.codec.Dense := (dense_number.prod dense_number).map

theorem length_replacedTrailer (junk : ℕ → UInt8) (old : List SegRange)
    (offsets : List SegOffset) :
    (replacedTrailer junk old offsets).length =
      old.length * SegRange.codec.size + offsets.length * SegOffset.codec.size := by
  rw [replacedTrailer, List.length_append, length_writeAll, length_writeAll]

theorem trailerSize_le (o f : ℕ) : trailerSize (UInt16.ofNat o) (UInt16.ofNat f) ≤
    o * SegRange.codec.size + f * SegOffset.codec.size := by
  rw [trailerSize, UInt16.toNat_ofNat', UInt16.toNat_ofNat']
  exact Nat.add_le_add (Nat.mul_le_mul_right _ (Nat.mod_le ..))
    (Nat.mul_le_mul_right _ (Nat.mod_le ..))

/-- The counts describe the whole trailer exactly when none of them was cut. -/
theorem trailerSize_eq_iff (o f : ℕ) : trailerSize (UInt16.ofNat o) (UInt16.ofNat f) =
    o * SegRange.codec.size + f * SegOffset.codec.size ↔ o < 2 ^ 16 ∧ f < 2 ^ 16 := by
  have hrange : SegRange.codec.size = 12 := rfl
  have hoffset : SegOffset.codec.size = 8 := rfl
  rw [trailerSize, UInt16.toNat_ofNat', UInt16.toNat_ofNat', hrange, hoffset]
  omega

theorem redoSegmentReplaced_iff {old : List SegRange} {lo hi v : UInt32}
    {offsets : List SegOffset} :
    redoSegmentReplaced (fun _ _ => found) lsn
        (emitSegmentReplaced junk db rel old lo hi v offsets).data =
        .ok (if found then [.queueEnqueue ⟨rel, lo, hi, v, FetchKind.replaced.code, lsn,
          FetchStatus.pending.code⟩ (replacedTrailer (fun _ => 0) old offsets)] else []) ↔
      (found = true → old.length < 2 ^ 16 ∧ offsets.length < 2 ^ 16) := by
  have hlen := SegmentReplaced.codec.length_write junk
    ⟨db, rel, lo, hi, v, UInt16.ofNat old.length, UInt16.ofNat offsets.length⟩
  have htrailer : replacedTrailer junk old offsets = replacedTrailer (fun _ => 0) old offsets := by
    rw [replacedTrailer, replacedTrailer, dense_segRange.writeAll, dense_segOffset.writeAll]
  have hsize := length_replacedTrailer (fun _ => 0) old offsets
  have hle := trailerSize_le old.length offsets.length
  rw [emitSegmentReplaced, redoSegmentReplaced, at?_write, htrailer]
  cases found with
  | false => exact iff_of_true rfl (fun h => absurd h Bool.false_ne_true)
  | true =>
      simp only [bind, Except.bind, if_true, List.length_append, hlen, hsize,
        List.drop_left' hlen, true_implies]
      rw [if_neg (by omega), ← trailerSize_eq_iff]
      constructor
      · intro h
        have htake : (replacedTrailer (fun _ => 0) old offsets).take
            (trailerSize (UInt16.ofNat old.length) (UInt16.ofNat offsets.length)) =
              replacedTrailer (fun _ => 0) old offsets := by
          simpa [pure, Except.pure] using h
        have hl := congrArg List.length htake
        rw [List.length_take, hsize] at hl
        omega
      · intro h
        rw [h, ← hsize, List.take_length]
        rfl

theorem redoVacuumTombstones_iff {v sub : UInt32} {mt : Bool} {entries : List VacuumEntry} :
    redoVacuumTombstones (fun _ _ => found)
        (emitVacuumTombstones junk db rel sid v sub mt entries).data =
        .ok (if found then [.applyVacuumTombstones ⟨db, rel, sid, v, sub, if mt then 1 else 0,
          UInt32.ofNat entries.length, 0⟩ entries] else []) ↔
      (found = true → entries.length < 2 ^ 32) := by
  have hlen := VacuumTombstones.codec.length_write junk ⟨db, rel, sid, v, sub, if mt then 1 else 0,
    UInt32.ofNat entries.length, 0⟩
  have hmod : (UInt32.ofNat entries.length).toNat = entries.length % 2 ^ 32 := UInt32.toNat_ofNat'
  have hread : VacuumEntry.codec.readAll
      (VacuumTombstones.codec.write junk ⟨db, rel, sid, v, sub, if mt then 1 else 0,
        UInt32.ofNat entries.length, 0⟩ ++ VacuumEntry.codec.writeAll junk entries)
      VacuumTombstones.codec.size (entries.length % 2 ^ 32) =
        some (entries.take (entries.length % 2 ^ 32)) := by
    have h : VacuumEntry.codec.readAll (VacuumEntry.codec.writeAll junk entries ++ []) 0
        (entries.length % 2 ^ 32) = some (entries.take (entries.length % 2 ^ 32)) :=
      VacuumEntry.codec.readAll_writeAll (Nat.mod_le ..)
    rw [List.append_nil] at h
    exact (VacuumEntry.codec.readAll_append hlen _ 0).trans h
  rw [emitVacuumTombstones, redoVacuumTombstones, at?_write]
  cases found with
  | false => exact iff_of_true rfl (fun h => absurd h Bool.false_ne_true)
  | true =>
      simp only [bind, Except.bind, if_true, true_implies, hmod, hread]
      constructor
      · intro h
        have htake : entries.take (entries.length % 2 ^ 32) = entries := by
          simpa [pure, Except.pure] using h
        have hl := congrArg List.length htake
        rw [List.length_take] at hl
        omega
      · intro h
        rw [Nat.mod_eq_of_lt h, List.take_length]
        rfl

/-- One record is replayed as it was emitted exactly when it fits, or when nothing is replayed
against it. -/
theorem Shipped.redo_iff (s : Shipped) (hot : Bool) :
    s.redo hot = .ok (s.calls hot) ↔ (hot = true → s.found = true → s.emission.Fits) := by
  cases hot with
  | false =>
      rw [s.redo_eq]
      exact iff_of_true rfl (fun h => absurd h Bool.false_ne_true)
  | true =>
      rw [s.redo_eq, if_pos rfl, Shipped.calls, Bool.true_and, imp_iff_right rfl]
      obtain ⟨e, junk, db, core, lsn, found⟩ := s
      have hmem : ∀ (rel sid : UInt32) (call : UInt32 → UInt32 → Call),
          redoMemtable (fun _ _ => found) (MemtableRecord.codec.write junk ⟨db, rel, sid⟩) call =
            .ok (if found then [call rel sid] else []) := fun _ _ => redoMemtable_write
      cases e with
      | registerMemtable rel sid =>
          simp only [Emission.creates, Bool.or_false]
          exact iff_of_true (hmem rel sid .registerMemtable) fun _ => trivial
      | addToMemtable rel sid slot tid vector n =>
          simp only [Emission.creates, Bool.or_false]
          exact redoAddToMemtable_iff
      | updateMaxSid rel sid =>
          simp only [Emission.creates, Bool.or_false]
          exact iff_of_true (hmem rel sid .updateMaxSid) fun _ => trivial
      | releaseMemtable rel sid =>
          simp only [Emission.creates, Bool.or_false]
          exact iff_of_true (hmem rel sid .releaseMemtable) fun _ => trivial
      | segmentCreated rel lo hi v =>
          refine iff_of_true ?_ fun _ => trivial
          simp only [Emission.callback, Emission.record, emitSegmentCreated, redoSegmentCreated,
            at?_write_self]
          cases found <;> rfl
      | segmentReplaced rel old lo hi v offsets =>
          simp only [Emission.creates, Bool.or_false]
          exact redoSegmentReplaced_iff
      | indexCreate rel t dim size =>
          refine iff_of_true ?_ fun _ => trivial
          simp only [Emission.callback, Emission.record, emitIndexCreate, redoIndexCreate,
            at?_write_self, Emission.creates, Bool.or_true]
          rfl
      | vacuumTombstones rel sid v sub mt entries =>
          simp only [Emission.creates, Bool.or_false]
          exact redoVacuumTombstones_iff

end Callbacks

/-! ## The stream -/

theorem mapM_eq_ok_iff {α β ε : Type} {f : α → Except ε β} {g : α → β} (xs : List α) :
    xs.mapM f = .ok (xs.map g) ↔ ∀ x ∈ xs, f x = .ok (g x) := by
  induction xs with
  | nil => exact iff_of_true rfl (fun x hx => nomatch hx)
  | cons x xs ih =>
      rw [List.mapM_cons, List.map_cons, List.forall_mem_cons]
      cases hx : f x with
      | error e => simp [bind, Except.bind]
      | ok b =>
          cases hxs : xs.mapM f with
          | error e =>
              rw [hxs] at ih
              simp only [bind, Except.bind, reduceCtorEq, false_iff, not_and]
              exact fun _ h => nomatch ih.mpr h
          | ok bs =>
              rw [hxs] at ih
              simp only [bind, Except.bind, pure, Except.pure, Except.ok.injEq, List.cons.injEq]
              rw [← ih, Except.ok.injEq]

/-- Replaying what was emitted, in order, is what the emitting calls were about, for any padding and
any bits of the core, exactly when in every record that is replayed the counts fit. -/
theorem replay_emitted (hot : Bool) (ss : List Shipped) :
    ss.mapM (Shipped.redo · hot) = .ok (ss.map (Shipped.calls · hot)) ↔
      (hot = true → ∀ s ∈ ss, s.found = true → s.emission.Fits) := by
  rw [mapM_eq_ok_iff]
  constructor
  · intro h hhot s hs
    exact (s.redo_iff hot).mp (h s hs) hhot
  · intro h s hs
    exact (s.redo_iff hot).mpr fun hhot => h hhot s hs

/-! ## Arbitrary bytes -/

/-- The length a record of this op code must have for its callback to stay within it. Only a
replaced segment is asked for no more than its header: its callback checks the rest. -/
def needed (getIndex : UInt32 → UInt32 → Bool) (info : UInt8) (data : List UInt8) : ℕ :=
  if info = infoRegisterMemtable ∨ info = infoUpdateMaxSid ∨ info = infoReleaseMemtable then
    MemtableRecord.codec.size
  else if info = infoAddToMemtable then
    let size := AddToMemtable.codec.size
    let rec_ := AddToMemtable.codec.read (data.take size)
    if getIndex rec_.indexRelId rec_.dbOid then size + rec_.vectorBytes.toNat else size
  else if info = infoSegmentCreated then SegmentCreated.codec.size
  else if info = infoSegmentReplaced then SegmentReplaced.codec.size
  else if info = infoIndexCreate then IndexCreate.codec.size
  else if info = infoVacuumTombstones then
    let size := VacuumTombstones.codec.size
    let hdr := VacuumTombstones.codec.read (data.take size)
    if getIndex hdr.indexRelId hdr.dbOid then
      size + hdr.entryCount.toNat * VacuumEntry.codec.size
    else size
  else 0

section Overread

variable {getIndex : UInt32 → UInt32 → Bool} {lsn : UInt64} {data : List UInt8}

theorem at?_cases {α : Type} (c : Codec α) (data : List UInt8) :
    data.length < c.size ∧ at? c data 0 = .error .overread ∨
      c.size ≤ data.length ∧ at? c data 0 = .ok (c.read (data.take c.size)) := by
  rcases Nat.lt_or_ge data.length c.size with hlt | hle
  · refine .inl ⟨hlt, ?_⟩
    rw [at?, c.readAt_eq_none.mpr (by omega)]
  · refine .inr ⟨hle, ?_⟩
    rw [at?, readAt, if_pos (by omega), List.drop_zero]

theorem redoMemtable_overread (call : UInt32 → UInt32 → Call) :
    redoMemtable getIndex data call = .error .overread ↔
      data.length < MemtableRecord.codec.size := by
  rw [redoMemtable]
  rcases at?_cases MemtableRecord.codec data with ⟨hlt, h⟩ | ⟨hle, h⟩ <;> rw [h]
  · exact iff_of_true rfl hlt
  · simp only [bind, Except.bind]
    refine iff_of_false ?_ (by omega)
    split <;> exact fun h => nomatch h

theorem redoAddToMemtable_overread : redoAddToMemtable getIndex data = .error .overread ↔
    data.length < needed getIndex infoAddToMemtable data := by
  rw [redoAddToMemtable, needed, if_neg (by decide), if_pos rfl]
  rcases at?_cases AddToMemtable.codec data with ⟨hlt, h⟩ | ⟨hle, h⟩ <;> rw [h]
  · refine iff_of_true rfl ?_
    dsimp only
    split <;> omega
  · simp only [bind, Except.bind]
    split
    · split
      · rename_i hlt
        exact iff_of_true rfl hlt
      · rename_i hge
        exact iff_of_false (fun h => nomatch h) hge
    · exact iff_of_false (fun h => nomatch h) (by omega)

theorem redoSegmentCreated_overread : redoSegmentCreated getIndex lsn data = .error .overread ↔
    data.length < SegmentCreated.codec.size := by
  rw [redoSegmentCreated]
  rcases at?_cases SegmentCreated.codec data with ⟨hlt, h⟩ | ⟨hle, h⟩ <;> rw [h]
  · exact iff_of_true rfl hlt
  · simp only [bind, Except.bind]
    refine iff_of_false ?_ (by omega)
    split <;> exact fun h => nomatch h

theorem redoSegmentReplaced_overread : redoSegmentReplaced getIndex lsn data = .error .overread ↔
    data.length < SegmentReplaced.codec.size := by
  rw [redoSegmentReplaced]
  rcases at?_cases SegmentReplaced.codec data with ⟨hlt, h⟩ | ⟨hle, h⟩ <;> rw [h]
  · exact iff_of_true rfl hlt
  · simp only [bind, Except.bind]
    refine iff_of_false ?_ (by omega)
    split
    · split <;> exact fun h => nomatch h
    · exact fun h => nomatch h

theorem redoIndexCreate_overread : redoIndexCreate data = .error .overread ↔
    data.length < IndexCreate.codec.size := by
  rw [redoIndexCreate]
  rcases at?_cases IndexCreate.codec data with ⟨hlt, h⟩ | ⟨hle, h⟩ <;> rw [h]
  · exact iff_of_true rfl hlt
  · exact iff_of_false (fun h => nomatch h) (by omega)

theorem redoVacuumTombstones_overread : redoVacuumTombstones getIndex data = .error .overread ↔
    data.length < needed getIndex infoVacuumTombstones data := by
  rw [redoVacuumTombstones, needed, if_neg (by decide), if_neg (by decide), if_neg (by decide),
    if_neg (by decide), if_neg (by decide), if_pos rfl]
  rcases at?_cases VacuumTombstones.codec data with ⟨hlt, h⟩ | ⟨hle, h⟩ <;> rw [h]
  · refine iff_of_true rfl ?_
    dsimp only
    split <;> omega
  · simp only [bind, Except.bind]
    split
    · rw [← VacuumEntry.codec.readAll_eq_none hle]
      split
      · rename_i entries hread
        rw [hread]
        exact iff_of_false (fun h => nomatch h) (Option.some_ne_none entries)
      · rename_i hread
        exact iff_of_true rfl hread
    · exact iff_of_false (fun h => nomatch h) (by omega)

end Overread

end VectorLsm.Wal
