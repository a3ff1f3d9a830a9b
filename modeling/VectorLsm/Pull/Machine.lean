import VectorLsm.Lib.Descriptor
import VectorLsm.Storage.DirectoryScan

/-! # Pulling the files of a segment version

A fetcher of the standby asks the file server of the primary for one file after the other, each
over a connection of its own, and stores what arrives under a temporary name until all of it is
there. The metadata comes last. Several fetchers may pull the same version.
-/

namespace VectorLsm.Pull

open Crash Storage

/-! ## The file server -/

/-- `DpvFileKind`. -/
inductive FileKind where
  | index
  | mapping
  | offset
  | bitmap
  | metadata
  /-- The metadata of the whole index. -/
  | indexMetadata
  deriving DecidableEq

/-- The version in the names of the files. -/
def fileVersion (i : SegmentFileInfo) : Version := ⟨i.startSid, i.endSid, i.version⟩

/-- `build_file_path`. Of a file in chunks it is the first one. -/
def buildFilePath (i : SegmentFileInfo) : FileKind → Name
  | .index => filePath indexKind (fileVersion i)
  | .mapping => finalPath (filePath mappingKind (fileVersion i)) 0
  | .offset => finalPath (filePath offsetKind (fileVersion i)) 0
  | .bitmap => finalPath (filePath bitmapKind (fileVersion i)) 0
  | .metadata => metadataName i
  | .indexMetadata => metadataKind

/-- `build_dest_path`, and the path of the metadata of the whole index. -/
def buildDestPath (i : SegmentFileInfo) (k : FileKind) : Name := buildFilePath i k

/-- The files of the primary, which stay as they are. -/
structure Primary where
  dir : Dir
  /-- A size is an `off_t`. -/
  sizes : ∀ n bs, dir.read n = some bs → bs.length < 2 ^ 63

def resultOk : UInt8 := 0
def resultAuthFail : UInt8 := 1
def resultNotFound : UInt8 := 2
def resultIoError : UInt8 := 3

/-- A `uint64` in network byte order. -/
def sizeBytes (n : ℕ) : List UInt8 :=
  [UInt8.ofNat (n / 2 ^ 56), UInt8.ofNat (n / 2 ^ 48), UInt8.ofNat (n / 2 ^ 40),
    UInt8.ofNat (n / 2 ^ 32), UInt8.ofNat (n / 2 ^ 24), UInt8.ofNat (n / 2 ^ 16),
    UInt8.ofNat (n / 2 ^ 8), UInt8.ofNat n]

/-- `pg_ntoh64`. -/
def sizeOfBytes (bs : List UInt8) : ℕ := bs.foldl (fun n b => 256 * n + b.toNat) 0

/-- How a request fares: whether the secret is right and the file can be read, and after how many
bytes of the reply the connection is lost. -/
structure Fate where
  authorized : Bool
  readable : Bool
  cut : ℕ
  deriving DecidableEq

/-- What `handle_one_connection` sends. -/
def serve (p : Primary) (i : SegmentFileInfo) (k : FileKind) (fate : Fate) : List UInt8 :=
  if fate.authorized then
    match p.dir.read (buildFilePath i k) with
    | none => [resultNotFound]
    | some data =>
        if fate.readable then resultOk :: (sizeBytes data.length ++ data) else [resultIoError]
  else [resultAuthFail]

/-- What arrives of it. -/
def reply (p : Primary) (i : SegmentFileInfo) (k : FileKind) (fate : Fate) : List UInt8 :=
  (serve p i k fate).take fate.cut

/-! ## The fetchers -/

/-- The size of the buffer. -/
def bufSize : ℕ := 1024 * 1024

/-- Where a fetcher stands in `pull_all_files` for a version, and in `pull_one_file` for a kind of
file. -/
inductive Pc where
  | idle
  | makeDir (i : SegmentFileInfo)
  /-- Before it connects and sends the request. -/
  | request (i : SegmentFileInfo) (k : FileKind)
  /-- The bytes are those still to be read. -/
  | result (i : SegmentFileInfo) (k : FileKind) (bytes : List UInt8)
  | size (i : SegmentFileInfo) (k : FileKind) (bytes : List UInt8)
  /-- Before the temporary file is opened. -/
  | create (i : SegmentFileInfo) (k : FileKind) (bytes : List UInt8) (remaining : ℕ)
  | stream (i : SegmentFileInfo) (k : FileKind) (bytes : List UInt8) (remaining fd offset : ℕ)
  /-- The file is synced and closed. -/
  | rename (i : SegmentFileInfo) (k : FileKind)
  /-- Before it looks whether the metadata is there. -/
  | check (i : SegmentFileInfo)
  deriving DecidableEq

/-- What comes after a file. -/
def Pc.after (i : SegmentFileInfo) : FileKind → Pc
  | .indexMetadata => .check i
  | .index => .request i .mapping
  | .mapping => .request i .offset
  | .offset => .request i .bitmap
  | .bitmap => .request i .metadata
  | .metadata => .idle

def tmpName (n : Name) : Name := n ++ ['.', 't', 'm', 'p']

structure State where
  /-- The directory of the index on the standby. -/
  dir : Dir
  pc : ℕ → Pc
  /-- History: the versions for which `pull_all_files` has returned `true`. -/
  pulled : List SegmentFileInfo

namespace State

variable (s : State)

@[simps] def goto (t : ℕ) (pc : Pc) : State := { s with pc := Function.update s.pc t pc }

@[simps] def setDir (d : Dir) : State := { s with dir := d }

/-- `pull_all_files` returns `true`. -/
@[simps] def returnTrue (t : ℕ) (i : SegmentFileInfo) : State :=
  { s with pc := Function.update s.pc t .idle, pulled := i :: s.pulled }

end State

/-- The fields of a queue entry are those of a `uint32`. -/
def Valid (i : SegmentFileInfo) : Prop :=
  i.startSid ≤ i.endSid ∧ i.endSid ≤ uint32Max ∧ i.version ≤ uint32Max

instance (i : SegmentFileInfo) : Decidable (Valid i) := inferInstanceAs (Decidable (_ ∧ _ ∧ _))

inductive Action where
  /-- `pull_all_files`. -/
  | begin (t : ℕ) (i : SegmentFileInfo)
  | connect (t : ℕ) (fate : Fate)
  /-- The next `read` from the connection; of the file it returns up to `n` bytes. -/
  | recv (t : ℕ) (n : ℕ)
  /-- The next call about the directory or a file in it. -/
  | call (t : ℕ)
  /-- A call or an allocation fails: `pull_all_files` returns `false`. -/
  | fail (t : ℕ)
  /-- The process of a fetcher is killed. -/
  | kill (t : ℕ)
  /-- The machine goes down, and `o` is what is left on its disk. -/
  | powerLoss (o : Outcome Name UInt8)

/-- A read from the connection. -/
def recv (s : State) (t n : ℕ) : Option State :=
  match s.pc t with
  | .result i k (b :: bytes) =>
      some (s.goto t (if b = resultOk then .size i k bytes else .idle))
  | .result _ _ [] => some (s.goto t .idle)
  | .size i k bytes =>
      if bytes.length < 8 then some (s.goto t .idle)
      else some (s.goto t (.create i k (bytes.drop 8) (sizeOfBytes (bytes.take 8))))
  | .stream i k bytes remaining fd offset =>
      if remaining = 0 then none
      else if bytes = [] then
        some ((s.setDir (s.dir.unlink (tmpName (buildDestPath i k)))).goto t .idle)
      else if 0 < n ∧ n ≤ min remaining bufSize ∧ n ≤ bytes.length then
        some ((s.setDir (s.dir.writeAt 0 fd offset (bytes.take n))).goto t
          (.stream i k (bytes.drop n) (remaining - n) fd (offset + n)))
      else none
  | _ => none

/-- `mkdir`, `open` of a temporary file, `fsync`, `rename` and `access`. -/
def call (s : State) (t : ℕ) : Option State :=
  match s.pc t with
  | .makeDir i => some (s.goto t (.request i .indexMetadata))
  | .create i k bytes remaining =>
      let d := s.dir.apply (.create (tmpName (buildDestPath i k)))
      (d.entries.lookup (tmpName (buildDestPath i k))).map fun fd =>
        (s.setDir d).goto t (.stream i k bytes remaining fd 0)
  | .stream i k _ 0 fd _ => some ((s.setDir (s.dir.syncAt fd)).goto t (.rename i k))
  | .rename i k =>
      if tmpName (buildDestPath i k) ∈ s.dir.entries then
        let s := s.setDir (s.dir.apply (.rename (tmpName (buildDestPath i k)) (buildDestPath i k)))
        some (if k = .metadata then s.returnTrue t i else s.goto t (.after i k))
      -- another fetcher has renamed it
      else some ((s.setDir (s.dir.unlink (tmpName (buildDestPath i k)))).goto t .idle)
  | .check i =>
      if metadataName i ∈ s.dir.entries then some (s.returnTrue t i)
      else some (s.goto t (.request i .index))
  | _ => none

/-- The clean-up on the way out. -/
def fail (s : State) (t : ℕ) : Option State :=
  match s.pc t with
  | .idle | .check _ => none
  | .makeDir _ | .request _ _ | .result _ _ _ | .size _ _ _ | .create _ _ _ _ =>
      some (s.goto t .idle)
  | .stream i k _ _ _ _ | .rename i k =>
      some ((s.setDir (s.dir.unlink (tmpName (buildDestPath i k)))).goto t .idle)

def step (p : Primary) (s : State) : Action → Option State
  | .begin t i => if s.pc t = .idle ∧ Valid i then some (s.goto t (.makeDir i)) else none
  | .connect t fate =>
      match s.pc t with
      | .request i k => some (s.goto t (.result i k (reply p i k fate)))
      | _ => none
  | .recv t n => recv s t n
  | .call t => call s t
  | .fail t => fail s t
  | .kill t => some (s.goto t .idle)
  | .powerLoss o =>
      if s.dir.Leaves o then some { s with dir := Crash.Disk.crash o, pc := fun _ => .idle }
      else none

/-! ## What a pull is for -/

/-- The kinds of files that are written in chunks. -/
def chunkedKinds : List Name := [mappingKind, offsetKind, bitmapKind]

/-- The files of a version, in all their chunks. -/
def FileOf (i : SegmentFileInfo) (n : Name) : Prop :=
  n = filePath indexKind (fileVersion i) ∨ n = metadataName i ∨
    ∃ kind ∈ chunkedKinds, ∃ c, n = finalPath (filePath kind (fileVersion i)) c

/-- Every file of the version reads back as on the primary. -/
structure Complete (p : Primary) (d : Dir) (i : SegmentFileInfo) : Prop where
  index : d.read (filePath indexKind (fileVersion i)) =
    p.dir.read (filePath indexKind (fileVersion i))
  metadata : d.read (metadataName i) = p.dir.read (metadataName i)
  mapping : readSegmentFile d (filePath mappingKind (fileVersion i)) false =
    readSegmentFile p.dir (filePath mappingKind (fileVersion i)) false
  offset : readSegmentFile d (filePath offsetKind (fileVersion i)) false =
    readSegmentFile p.dir (filePath offsetKind (fileVersion i)) false
  bitmap : readSegmentFile d (filePath bitmapKind (fileVersion i)) true =
    readSegmentFile p.dir (filePath bitmapKind (fileVersion i)) true

/-- What `pull_all_files` has returned `true` for is complete, and so is what the scan reports,
in whatever order it finds the names. -/
structure AllOrNothing (p : Primary) (s : State) : Prop where
  pulled : ∀ i ∈ s.pulled, Complete p s.dir i
  scanned : ∀ names : List Name, names.Perm s.dir.entries.keys →
    ∀ i ∈ scanDirectory names, Complete p s.dir i

/-- No file of the version has a second chunk. -/
def SingleChunk (p : Primary) (i : SegmentFileInfo) : Prop :=
  ∀ kind ∈ chunkedKinds, ∀ c, 0 < c →
    p.dir.read (finalPath (filePath kind (fileVersion i)) c) = none

/-- The same of the versions that are transferred whole; what the scan makes of the temporary
file of a transfer is left open. -/
structure SingleAllOrNothing (p : Primary) (s : State) : Prop where
  pulled : ∀ i ∈ s.pulled, SingleChunk p i → Complete p s.dir i
  scanned : (∀ i, pullName i ∉ s.dir.entries) →
    ∀ names : List Name, names.Perm s.dir.entries.keys →
      ∀ i ∈ scanDirectory names, SingleChunk p i → Complete p s.dir i

/-- The fetcher has the temporary file of this kind and version open or about to be renamed. -/
def Pc.Uses (i : SegmentFileInfo) (k : FileKind) : Pc → Prop
  | .stream i' k' _ _ _ _ | .rename i' k' => i' = i ∧ k' = k
  | _ => False

/-- The condition on a step: a temporary file of a version is opened by one fetcher at a time, and
a crash keeps the names of the directory as they were at some moment, since which no pull has
returned `true`. -/
def Careful (s : State) : Action → Prop
  | .call t =>
      match s.pc t with
      | .create i k _ _ => k ≠ .indexMetadata → ∀ t', ¬ (s.pc t').Uses i k
      | _ => True
  | .powerLoss o =>
      (∃ v ∈ s.dir.views, ∀ n, o.entries.lookup n = v.lookup n) ∧
        ∀ i ∈ s.pulled, metadataName i ∈ o.entries
  | _ => True

/-- No fetcher is at work, and the directory holds files of the primary: of each version with
metadata all of them. -/
structure Start (p : Primary) (s : State) : Prop where
  idle : s.pc = fun _ => .idle
  pulled : s.pulled = []
  owned : Owned untmp s.dir
  older : s.dir.older = []
  mirror : ∀ i n, FileOf i n → ∀ fd, s.dir.entries.lookup n = some fd →
    s.dir.entries.lookup (tmpName n) ≠ some fd ∧
      ∃ bs, s.dir.inodes[fd]? = some ⟨bs, true⟩ ∧ p.dir.read n = some bs
  whole : ∀ i, metadataName i ∈ s.dir.entries → ∀ n, FileOf i n → p.dir.read n ≠ none →
    n ∈ s.dir.entries
  named : ∀ n ∈ s.dir.entries, ∀ i, parseMetadata n = some i → n = metadataName i ∨ n = pullName i

end VectorLsm.Pull
