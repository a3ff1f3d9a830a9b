import VectorLsm.Storage.Bitmaps
import VectorLsm.Lib.Transition

/-! # Flushes that can crash

`flush_segment_to_disk` writes the files of a new version of a segment one after the other, its
metadata last. Flushes of any segments follow each other, each of which may be cut short by a
crash.
-/

namespace VectorLsm.Storage

open Crash Decimal Transition

/-- What is flushed: the rows of `PrepareFlushMetaData`, and its files as bytes. There is no index
to write for DiskANN. -/
structure PrepareFlushMeta where
  startSid : UInt32
  endSid : UInt32
  validRows : UInt32
  indexType : UInt32
  map : List UInt8
  bitmap : List UInt8
  deleteCount : UInt32
  index : Option (List UInt8)
  offsets : Option (List UInt8)
  deriving DecidableEq

def indexKind : Name := ['i', 'n', 'd', 'e', 'x']
def mappingKind : Name := ['m', 'a', 'p', 'p', 'i', 'n', 'g']
def offsetKind : Name := ['o', 'f', 'f', 's', 'e', 't']
def metadataKind : Name := ['m', 'e', 't', 'a', 'd', 'a', 't', 'a']

def metadataPath (v : Version) : Name := filePath metadataKind v

def metadataTmpPath (v : Version) : Name := filePath (metadataKind ++ ['.', 't', 'm', 'p']) v

/-- The version of a name that begins like the metadata of the segment. -/
def versionOf (startSid endSid : ℕ) (n : Name) : Option ℕ :=
  let pattern := metadataKind ++ '_' :: (digits startSid ++ '_' :: (digits endSid ++ ['_', 'v']))
  if pattern <+: n then some (atoi (n.drop pattern.length)) else none

def findLatestSegmentVersion (d : Dir) (startSid endSid : ℕ) : ℕ :=
  (d.entries.keys.filterMap (versionOf startSid endSid)).foldl max 0

def newVersion (d : Dir) (prep : PrepareFlushMeta) : Version where
  startSid := prep.startSid.toNat
  endSid := prep.endSid.toNat
  version := (findLatestSegmentVersion d prep.startSid.toNat prep.endSid.toNat + 1) %
    (uint32Max + 1)

/-- `IndexBinarySetFlush`: a stream that is closed, not synced. -/
def indexBinarySetFlush (path : Name) (bin : List UInt8) : List (Op Name UInt8) :=
  [.create path, .append path bin]

def metadataBytes (prep : PrepareFlushMeta) : List UInt8 :=
  countBytes prep.startSid ++ countBytes prep.endSid ++ countBytes prep.validRows ++
    countBytes prep.indexType

def writeLsmSegmentMetadata (prep : PrepareFlushMeta) (v : Version) : List (Op Name UInt8) :=
  [.create (metadataTmpPath v), .append (metadataTmpPath v) (metadataBytes prep),
    .fsync (metadataTmpPath v), .rename (metadataTmpPath v) (metadataPath v), .fsyncDir]

def indexOps (prep : PrepareFlushMeta) (v : Version) : List (Op Name UInt8) :=
  match prep.index with
  | some bin => indexBinarySetFlush (filePath indexKind v) bin
  | none => []

def offsetOps (prep : PrepareFlushMeta) (v : Version) : List (Op Name UInt8) :=
  match prep.offsets with
  | some offsets => writeSegmentFile (filePath offsetKind v) offsets none
  | none => []

/-- The files of a version but its metadata. -/
def writeFiles (prep : PrepareFlushMeta) (v : Version) : List (Op Name UInt8) :=
  indexOps prep v ++
    writeSegmentFile (filePath bitmapKind v) prep.bitmap (some prep.deleteCount) ++
    writeSegmentFile (filePath mappingKind v) prep.map none ++ offsetOps prep v

def flushSegmentToDisk (d : Dir) (prep : PrepareFlushMeta) : List (Op Name UInt8) :=
  writeFiles prep (newVersion d prep) ++ writeLsmSegmentMetadata prep (newVersion d prep)

/-- The run of flushes. `flushed` is not in the program: what was last written for each version,
completely or not. -/
structure Flushes where
  dir : Dir
  flushed : List (Version × PrepareFlushMeta)

/-- A flush, and the crash that ends it: after how many system calls, and what is left. -/
inductive FlushAction
  | flush (prep : PrepareFlushMeta) (crash : Option (ℕ × Outcome Name UInt8))

namespace Flushes

def step (s : Flushes) : FlushAction → Option Flushes
  | .flush prep none =>
      some ⟨s.dir.run (flushSegmentToDisk s.dir prep),
        (newVersion s.dir prep, prep) :: s.flushed⟩
  | .flush prep (some (done, o)) =>
      if (s.dir.run ((flushSegmentToDisk s.dir prep).take done)).Leaves o then
        some ⟨Crash.Disk.crash o, (newVersion s.dir prep, prep) :: s.flushed⟩
      else none

/-- A directory in which no flush has ended, whatever crashed ones have left in it. -/
structure Start (s : Flushes) : Prop where
  owned : Owned untmp s.dir
  older : s.dir.older = []
  none : ∀ v, metadataPath v ∉ s.dir.entries

end Flushes

/-- The files of the version read back as they were flushed. -/
structure ReadsBack (d : Dir) (v : Version) (prep : PrepareFlushMeta) : Prop where
  index : ∀ bin, prep.index = some bin → d.read (filePath indexKind v) = some bin
  bitmap : (readSegmentFile d (filePath bitmapKind v) true).data = prep.bitmap
  deleteCount : (readSegmentFile d (filePath bitmapKind v) true).deleteCount =
    some prep.deleteCount
  map : (readSegmentFile d (filePath mappingKind v) false).data = prep.map
  offsets : ∀ offsets, prep.offsets = some offsets →
    (readSegmentFile d (filePath offsetKind v) false).data = offsets

/-- A version whose metadata is found is complete. -/
def FlushAtomic (s : Flushes) : Prop :=
  ∀ v, metadataPath v ∈ s.dir.entries →
    ∃ prep, s.flushed.lookup v = some prep ∧ ReadsBack s.dir v prep

/-- No crashed flush of the version has left a chunk after the last one that is now written. -/
def NoLeftover (d : Dir) (prep : PrepareFlushMeta) (v : Version) : Prop :=
  finalPath (filePath bitmapKind v) (chunkData prep.bitmap (some prep.deleteCount)).length ∉
      d.entries ∧
    finalPath (filePath mappingKind v) (chunkData prep.map none).length ∉ d.entries ∧
    ∀ offsets ∈ prep.offsets,
      finalPath (filePath offsetKind v) (chunkData offsets none).length ∉ d.entries

/-- The crash in `d` leaves the index files of the versions found as they were. -/
def IndexKept (d : Dir) (o : Outcome Name UInt8)
    (flushed : List (Version × PrepareFlushMeta)) : Prop :=
  ∀ f ∈ flushed, metadataPath f.1 ∈ o.entries → f.2.index.isSome →
    (Crash.Disk.crash o).read (filePath indexKind f.1) = d.read (filePath indexKind f.1)

/-- The condition on a step: there is a version left, the new files end where the chunks in the
directory end, and a crash loses no index. -/
def Lasting (s : Flushes) : FlushAction → Prop
  | .flush prep crash =>
      findLatestSegmentVersion s.dir prep.startSid.toNat prep.endSid.toNat < uint32Max ∧
      NoLeftover s.dir prep (newVersion s.dir prep) ∧
      match crash with
      | some (done, o) =>
          IndexKept (s.dir.run ((flushSegmentToDisk s.dir prep).take done)) o
            ((newVersion s.dir prep, prep) :: s.flushed)
      | none => True

instance (s : Flushes) (a : FlushAction) : Decidable (Lasting s a) := by
  cases a with
  | flush prep crash =>
      unfold Lasting NoLeftover IndexKept
      dsimp only
      split <;> infer_instance

end VectorLsm.Storage
