import VectorLsm.FetchQueue.Format

/-! # WAL records

The custom resource manager of the index: a record is an op code and the bytes that the emitting
function registered, a struct and the arrays behind it. The redo of the standby reads them back
where its own structs lie; only one of its callbacks checks the length of what it was given.
-/

namespace VectorLsm.Wal

open Codec FetchQueue

/-! ## Structs -/

/-- `ItemPointerData`, with its block number in two halves. -/
structure ItemPointer where
  blockHi : UInt16
  blockLo : UInt16
  posid : UInt16
  deriving DecidableEq, Repr

/-- `xl_dpv_register_memtable`, `xl_dpv_update_max_sid` and `xl_dpv_release_memtable`. -/
structure MemtableRecord where
  dbOid : UInt32
  indexRelId : UInt32
  sid : UInt32
  deriving DecidableEq, Repr

/-- `xl_dpv_add_to_memtable`. -/
structure AddToMemtable where
  dbOid : UInt32
  indexRelId : UInt32
  sid : UInt32
  slotIndex : UInt32
  tid : ItemPointer
  vectorBytes : UInt32
  deriving DecidableEq, Repr

/-- `xl_dpv_segment_created`. -/
structure SegmentCreated where
  dbOid : UInt32
  indexRelId : UInt32
  startSid : UInt32
  endSid : UInt32
  version : UInt32
  deriving DecidableEq, Repr

/-- `xl_dpv_seg_range`. -/
structure SegRange where
  startSid : UInt32
  endSid : UInt32
  version : UInt32
  deriving DecidableEq, Repr

/-- `xl_dpv_seg_offset`. -/
structure SegOffset where
  sourceSid : UInt32
  startOffset : UInt32
  deriving DecidableEq, Repr

/-- `xl_dpv_segment_replaced`. -/
structure SegmentReplaced where
  dbOid : UInt32
  indexRelId : UInt32
  newStartSid : UInt32
  newEndSid : UInt32
  newVersion : UInt32
  oldCount : UInt16
  offsetCount : UInt16
  deriving DecidableEq, Repr

/-- `xl_dpv_index_create`. -/
structure IndexCreate where
  dbOid : UInt32
  indexRelId : UInt32
  indexType : UInt32
  dim : UInt32
  elemSize : UInt32
  deriving DecidableEq, Repr

/-- `xl_dpv_vacuum_entry`; the tid is a packed item pointer. -/
structure VacuumEntry where
  sidLocalIdx : UInt32
  tid : Int64
  deriving DecidableEq, Repr

/-- `xl_dpv_vacuum_tombstones`. -/
structure VacuumTombstones where
  dbOid : UInt32
  indexRelId : UInt32
  sid : UInt32
  ownerVersion : UInt32
  subversion : UInt32
  isMemtableOwner : UInt32
  entryCount : UInt32
  pad : UInt32
  deriving DecidableEq, Repr

/-! ## Their bytes -/

def ItemPointer.codec : Codec ItemPointer :=
  (uint16.prod (uint16.prod uint16)).map (fun t => (t.blockHi, t.blockLo, t.posid))
    (fun ⟨hi, lo, pos⟩ => ⟨hi, lo, pos⟩) fun _ => rfl

def MemtableRecord.codec : Codec MemtableRecord :=
  (uint32.prod (uint32.prod uint32)).map (fun r => (r.dbOid, r.indexRelId, r.sid))
    (fun ⟨db, rel, sid⟩ => ⟨db, rel, sid⟩) fun _ => rfl

/-- The vector's length is 4-aligned, behind the six bytes of the item pointer. -/
def AddToMemtable.codec : Codec AddToMemtable :=
  (uint32.prod (uint32.prod (uint32.prod (uint32.prod (ItemPointer.codec.prod
    ((Codec.pad 2).prod uint32)))))).map
    (fun r => (r.dbOid, r.indexRelId, r.sid, r.slotIndex, r.tid, (), r.vectorBytes))
    (fun ⟨db, rel, sid, slot, tid, _, n⟩ => ⟨db, rel, sid, slot, tid, n⟩) fun _ => rfl

def SegmentCreated.codec : Codec SegmentCreated :=
  (uint32.prod (uint32.prod (uint32.prod (uint32.prod uint32)))).map
    (fun r => (r.dbOid, r.indexRelId, r.startSid, r.endSid, r.version))
    (fun ⟨db, rel, lo, hi, v⟩ => ⟨db, rel, lo, hi, v⟩) fun _ => rfl

def SegRange.codec : Codec SegRange :=
  (uint32.prod (uint32.prod uint32)).map (fun r => (r.startSid, r.endSid, r.version))
    (fun ⟨lo, hi, v⟩ => ⟨lo, hi, v⟩) fun _ => rfl

def SegOffset.codec : Codec SegOffset :=
  (uint32.prod uint32).map (fun r => (r.sourceSid, r.startOffset))
    (fun ⟨sid, off⟩ => ⟨sid, off⟩) fun _ => rfl

def SegmentReplaced.codec : Codec SegmentReplaced :=
  (uint32.prod (uint32.prod (uint32.prod (uint32.prod (uint32.prod
    (uint16.prod uint16)))))).map
    (fun r => (r.dbOid, r.indexRelId, r.newStartSid, r.newEndSid, r.newVersion, r.oldCount,
      r.offsetCount))
    (fun ⟨db, rel, lo, hi, v, o, f⟩ => ⟨db, rel, lo, hi, v, o, f⟩) fun _ => rfl

def IndexCreate.codec : Codec IndexCreate :=
  (uint32.prod (uint32.prod (uint32.prod (uint32.prod uint32)))).map
    (fun r => (r.dbOid, r.indexRelId, r.indexType, r.dim, r.elemSize))
    (fun ⟨db, rel, t, dim, size⟩ => ⟨db, rel, t, dim, size⟩) fun _ => rfl

/-- The tid is 8-aligned. -/
def VacuumEntry.codec : Codec VacuumEntry :=
  (uint32.prod ((Codec.pad 4).prod int64)).map (fun e => (e.sidLocalIdx, (), e.tid))
    (fun ⟨idx, _, tid⟩ => ⟨idx, tid⟩) fun _ => rfl

def VacuumTombstones.codec : Codec VacuumTombstones :=
  (uint32.prod (uint32.prod (uint32.prod (uint32.prod (uint32.prod (uint32.prod
    (uint32.prod uint32))))))).map
    (fun r => (r.dbOid, r.indexRelId, r.sid, r.ownerVersion, r.subversion, r.isMemtableOwner,
      r.entryCount, r.pad))
    (fun ⟨db, rel, sid, v, sub, mt, n, p⟩ => ⟨db, rel, sid, v, sub, mt, n, p⟩) fun _ => rfl

-- the two sizes that the source asserts
example : VacuumTombstones.codec.size = 32 ∧ VacuumEntry.codec.size = 16 := by decide

/-! ## Emitting -/

structure XLogRecord where
  info : UInt8
  data : List UInt8
  deriving DecidableEq, Repr

/-- The op codes, in the upper nibble of `xl_info`. -/
def infoRegisterMemtable : UInt8 := 0x00
def infoAddToMemtable : UInt8 := 0x10
def infoUpdateMaxSid : UInt8 := 0x30
def infoReleaseMemtable : UInt8 := 0x40
def infoSegmentCreated : UInt8 := 0x50
def infoSegmentReplaced : UInt8 := 0x60
def infoIndexCreate : UInt8 := 0x70
def infoVacuumTombstones : UInt8 := 0x80

section Emit

variable (junk : ℕ → UInt8) (myDatabaseId indexRelId sid : UInt32)

def emitRegisterMemtable : XLogRecord :=
  ⟨infoRegisterMemtable, MemtableRecord.codec.write junk ⟨myDatabaseId, indexRelId, sid⟩⟩

/-- `vector_bytes` of what `vector` points to are registered. -/
def emitAddToMemtable (slotIndex : UInt32) (tid : ItemPointer) (vector : List UInt8)
    (vectorBytes : UInt32) : XLogRecord :=
  ⟨infoAddToMemtable,
    AddToMemtable.codec.write junk ⟨myDatabaseId, indexRelId, sid, slotIndex, tid, vectorBytes⟩ ++
      vector.take vectorBytes.toNat⟩

def emitUpdateMaxSid : XLogRecord :=
  ⟨infoUpdateMaxSid, MemtableRecord.codec.write junk ⟨myDatabaseId, indexRelId, sid⟩⟩

def emitReleaseMemtable : XLogRecord :=
  ⟨infoReleaseMemtable, MemtableRecord.codec.write junk ⟨myDatabaseId, indexRelId, sid⟩⟩

def emitSegmentCreated (startSid endSid version : UInt32) : XLogRecord :=
  ⟨infoSegmentCreated,
    SegmentCreated.codec.write junk ⟨myDatabaseId, indexRelId, startSid, endSid, version⟩⟩

/-- What is registered behind the header of `xl_dpv_segment_replaced`. -/
def replacedTrailer (oldRanges : List SegRange) (offsets : List SegOffset) : List UInt8 :=
  SegRange.codec.writeAll junk oldRanges ++ SegOffset.codec.writeAll junk offsets

/-- The counts are asserted to fit in 16 bits and cut down to them; the arrays are registered
whole. -/
def emitSegmentReplaced (oldRanges : List SegRange) (newStartSid newEndSid newVersion : UInt32)
    (offsets : List SegOffset) : XLogRecord :=
  ⟨infoSegmentReplaced,
    SegmentReplaced.codec.write junk ⟨myDatabaseId, indexRelId, newStartSid, newEndSid, newVersion,
      UInt16.ofNat oldRanges.length, UInt16.ofNat offsets.length⟩ ++
      replacedTrailer junk oldRanges offsets⟩

def emitIndexCreate (indexType dim elemSize : UInt32) : XLogRecord :=
  ⟨infoIndexCreate,
    IndexCreate.codec.write junk ⟨myDatabaseId, indexRelId, indexType, dim, elemSize⟩⟩

/-- The count of the entries is an `int` of the caller. -/
def emitVacuumTombstones (ownerVersion subversion : UInt32) (isMemtableOwner : Bool)
    (entries : List VacuumEntry) : XLogRecord :=
  ⟨infoVacuumTombstones,
    VacuumTombstones.codec.write junk ⟨myDatabaseId, indexRelId, sid, ownerVersion, subversion,
      if isMemtableOwner then 1 else 0, UInt32.ofNat entries.length, 0⟩ ++
      VacuumEntry.codec.writeAll junk entries⟩

end Emit

/-! ## Redo -/

inductive Fault where
  /-- A read behind the end of the record. -/
  | overread
  | unknownOp (info : UInt8)
  | tooShort (got expected : ℕ) (oldCount offsetCount : UInt16)
  deriving DecidableEq, Repr

/-- The text of the `PANIC`, of which an overread has none. -/
def Fault.message : Fault → Option String
  | .overread => none
  | .unknownOp info => some s!"decoupled_pgvector_redo: unknown op code {info}"
  | .tooShort got expected oldCount offsetCount =>
      some (s!"redo_segment_replaced: WAL record too short: got {got} bytes, " ++
        s!"expected at least {expected} (old_count={oldCount} offset_count={offsetCount})")

/-- What a redo callback asks of the rest of the standby. -/
inductive Call where
  | registerMemtable (indexRelId sid : UInt32)
  | addToMemtable (indexRelId sid slotIndex : UInt32) (tid : ItemPointer) (vector : List UInt8)
      (vectorBytes : UInt32)
  | updateMaxSid (indexRelId sid : UInt32)
  | releaseMemtable (indexRelId sid : UInt32)
  | queueEnqueue (hdr : FetchEntryHeader) (trailer : List UInt8)
  /-- `write_lsm_index_metadata`, with the options that the record does not carry. -/
  | writeIndexMetadata (indexRelId indexType dim elemSize hnswM hnswEfConstruction : UInt32)
  | claimIndexSlot (dbOid indexRelId indexType dim elemSize : UInt32)
  | applyVacuumTombstones (hdr : VacuumTombstones) (entries : List VacuumEntry)
  deriving DecidableEq, Repr

/-- A struct of the record, read where it lies. -/
def at? {α : Type} (c : Codec α) (data : List UInt8) (off : ℕ) : Except Fault α :=
  match c.readAt data off with
  | some a => .ok a
  | none => .error .overread

section Redo

-- `getIndex` is `get_lsm_index_idx` for redo, which may fail to recover the index
variable (getIndex : UInt32 → UInt32 → Bool) (readRecPtr : UInt64) (data : List UInt8)

/-- The three callbacks whose record names a memtable. -/
def redoMemtable (call : UInt32 → UInt32 → Call) : Except Fault (List Call) := do
  let rec_ ← at? MemtableRecord.codec data 0
  if getIndex rec_.indexRelId rec_.dbOid then return [call rec_.indexRelId rec_.sid] else return []

def redoRegisterMemtable : Except Fault (List Call) := redoMemtable getIndex data .registerMemtable

def redoUpdateMaxSid : Except Fault (List Call) := redoMemtable getIndex data .updateMaxSid

def redoReleaseMemtable : Except Fault (List Call) := redoMemtable getIndex data .releaseMemtable

/-- The vector is `vector_bytes` long, whatever the length of the record. -/
def redoAddToMemtable : Except Fault (List Call) := do
  let rec_ ← at? AddToMemtable.codec data 0
  if getIndex rec_.indexRelId rec_.dbOid then
    if data.length < AddToMemtable.codec.size + rec_.vectorBytes.toNat then .error .overread
    else
      return [.addToMemtable rec_.indexRelId rec_.sid rec_.slotIndex rec_.tid
        ((data.drop AddToMemtable.codec.size).take rec_.vectorBytes.toNat) rec_.vectorBytes]
  else return []

def redoSegmentCreated : Except Fault (List Call) := do
  let rec_ ← at? SegmentCreated.codec data 0
  if getIndex rec_.indexRelId rec_.dbOid then
    return [.queueEnqueue
      { indexRelId := rec_.indexRelId, startSid := rec_.startSid, endSid := rec_.endSid,
        version := rec_.version, kind := FetchKind.created.code, sourceLsn := readRecPtr,
        status := FetchStatus.pending.code } []]
  else return []

def trailerSize (oldCount offsetCount : UInt16) : ℕ :=
  oldCount.toNat * SegRange.codec.size + offsetCount.toNat * SegOffset.codec.size

def redoSegmentReplaced : Except Fault (List Call) := do
  let hdr ← at? SegmentReplaced.codec data 0
  if getIndex hdr.indexRelId hdr.dbOid then
    let size := trailerSize hdr.oldCount hdr.offsetCount
    let expectedTotal := SegmentReplaced.codec.size + size
    if data.length < expectedTotal then
      .error (.tooShort data.length expectedTotal hdr.oldCount hdr.offsetCount)
    else
      return [.queueEnqueue
        { indexRelId := hdr.indexRelId, startSid := hdr.newStartSid, endSid := hdr.newEndSid,
          version := hdr.newVersion, kind := FetchKind.replaced.code, sourceLsn := readRecPtr,
          status := FetchStatus.pending.code }
        ((data.drop SegmentReplaced.codec.size).take size)]
  else return []

/-- No recovery here: the index is new. -/
def redoIndexCreate : Except Fault (List Call) := do
  let rec_ ← at? IndexCreate.codec data 0
  return [.writeIndexMetadata rec_.indexRelId rec_.indexType rec_.dim rec_.elemSize 32 200,
    .claimIndexSlot rec_.dbOid rec_.indexRelId rec_.indexType rec_.dim rec_.elemSize]

/-- The entries are read as far as the header counts them, whatever the length of the record. -/
def redoVacuumTombstones : Except Fault (List Call) := do
  let hdr ← at? VacuumTombstones.codec data 0
  if getIndex hdr.indexRelId hdr.dbOid then
    match VacuumEntry.codec.readAll data VacuumTombstones.codec.size hdr.entryCount.toNat with
    | some entries => return [.applyVacuumTombstones hdr entries]
    | none => .error .overread
  else return []

end Redo

/-- `XLR_INFO_MASK`, the bits of `xl_info` that belong to the core. -/
def infoMask : UInt8 := 0x0F

section Dispatch

variable (inHotStandby : Bool) (getIndex : UInt32 → UInt32 → Bool) (readRecPtr : UInt64)

/-- The callback for an op code; each returns at once outside of hot standby. -/
def dispatch (info : UInt8) (data : List UInt8) : Except Fault (List Call) :=
  let callback (body : Except Fault (List Call)) : Except Fault (List Call) :=
    if inHotStandby then body else .ok []
  if info = infoRegisterMemtable then callback (redoRegisterMemtable getIndex data)
  else if info = infoAddToMemtable then callback (redoAddToMemtable getIndex data)
  else if info = infoUpdateMaxSid then callback (redoUpdateMaxSid getIndex data)
  else if info = infoReleaseMemtable then callback (redoReleaseMemtable getIndex data)
  else if info = infoSegmentCreated then callback (redoSegmentCreated getIndex readRecPtr data)
  else if info = infoSegmentReplaced then callback (redoSegmentReplaced getIndex readRecPtr data)
  else if info = infoIndexCreate then callback (redoIndexCreate data)
  else if info = infoVacuumTombstones then callback (redoVacuumTombstones getIndex data)
  else .error (.unknownOp info)

/-- `dpv_replication_redo`. -/
def redo (r : XLogRecord) : Except Fault (List Call) :=
  dispatch inHotStandby getIndex readRecPtr (r.info &&& ~~~infoMask) r.data

end Dispatch

end VectorLsm.Wal
