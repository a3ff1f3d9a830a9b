import VectorLsm.Lib.Crash
import VectorLsm.Lib.Decimal

/-! # Segment files

The files of an index lie in one directory. A file is written in chunks, each under a temporary
name, synced, and renamed when all of them are there.
-/

namespace VectorLsm.Storage

open Crash Decimal

abbrev Name := List Char

abbrev Dir := Crash.Disk Name UInt8

/-- The largest chunk. -/
def maxFileSize : ℕ := 1024 * 1024 * 1024

def tmpPath (path : Name) (i : ℕ) : Name := path ++ ('.' :: 't' :: 'm' :: 'p' :: '.' :: digits i)

def finalPath (path : Name) (i : ℕ) : Name := path ++ '.' :: digits i

/-- A `uint32_t` in memory. -/
def countBytes (n : UInt32) : List UInt8 :=
  [UInt8.ofNat n.toNat, UInt8.ofNat (n.toNat / 256), UInt8.ofNat (n.toNat / 65536),
    UInt8.ofNat (n.toNat / 16777216)]

def countOfBytes : List UInt8 → UInt32
  | [a, b, c, d] =>
      UInt32.ofNat (a.toNat + 256 * b.toNat + 65536 * c.toNat + 16777216 * d.toNat)
  | _ => 0

/-- The `write` calls of the chunks that hold data only. -/
def dataChunks : ℕ → List UInt8 → List (List (List UInt8))
  | 0, _ => []
  | n + 1, data =>
      if data = [] then []
      else [data.take maxFileSize] :: dataChunks n (data.drop maxFileSize)

/-- The `write` calls for each chunk. The count comes first, in the first chunk. -/
def chunkWrites (data : List UInt8) : Option UInt32 → List (List (List UInt8))
  | none => dataChunks data.length data
  | some count =>
      (countBytes count :: if data = [] then [] else [data.take (maxFileSize - 4)]) ::
        dataChunks data.length (data.drop (maxFileSize - 4))

def writeTmp (path : Name) (i : ℕ) (writes : List (List UInt8)) : List (Op Name UInt8) :=
  .create (tmpPath path i) :: writes.map (.append (tmpPath path i)) ++ [.fsync (tmpPath path i)]

def renames (path : Name) (n : ℕ) : List (Op Name UInt8) :=
  (List.range n).map fun i => .rename (tmpPath path i) (finalPath path i)

def writeSegmentFile (path : Name) (data : List UInt8) (deleteCount : Option UInt32) :
    List (Op Name UInt8) :=
  ((chunkWrites data deleteCount).zipIdx.flatMap fun c => writeTmp path c.2 c.1) ++
    renames path (chunkWrites data deleteCount).length ++ [.fsyncDir]

/-- The chunks from number `i` on, up to the first that cannot be opened. -/
def readChunks (d : Dir) (path : Name) : ℕ → ℕ → List (List UInt8)
  | 0, _ => []
  | fuel + 1, i =>
      match d.read (finalPath path i) with
      | some bs => bs :: readChunks d path fuel (i + 1)
      | none => []

/-- What `read_segment_file` returns. No chunk means that the file could not be opened: the error
is printed and the count is not set. -/
structure Loaded where
  chunkNum : ℕ
  data : List UInt8
  deleteCount : Option UInt32
  deriving DecidableEq

def readSegmentFile (d : Dir) (path : Name) (counted : Bool) : Loaded :=
  let chunks := readChunks d path (d.entries.keys.length + 1) 0
  let totalSize := chunks.flatten.length
  let dataSize := if counted ∧ 4 ≤ totalSize then totalSize - 4 else totalSize
  match chunks with
  | [] => ⟨0, [], none⟩
  | c :: cs =>
      if counted ∧ 4 ≤ c.length then
        ⟨cs.length + 1, (c.drop 4 ++ cs.flatten).take dataSize, some (countOfBytes (c.take 4))⟩
      else ⟨cs.length + 1, (c ++ cs.flatten).take dataSize, none⟩

/-! ## Names -/

/-- The name a temporary file will have. -/
def untmp : Name → Name
  | [] => []
  | '.' :: 't' :: 'm' :: 'p' :: r => r
  | c :: r => c :: untmp r

theorem untmp_append {p r : Name} (hp : '.' ∉ p) : untmp (p ++ r) = p ++ untmp r := by
  induction p with
  | nil => rfl
  | cons c p ih =>
      obtain ⟨hc, hp⟩ := not_or.mp (mt List.mem_cons.mpr hp)
      rw [List.cons_append, untmp, ih hp, List.cons_append]
      rintro r' rfl
      exact absurd rfl hc

theorem digits_no_dot (i : ℕ) : '.' ∉ digits i := fun h => by
  have := isDigit_of_mem h
  simp at this

theorem untmp_digits (i : ℕ) : untmp (digits i) = digits i := by
  have h := untmp_append (r := []) (digits_no_dot i)
  simpa [untmp] using h

theorem untmp_dot_digits (i : ℕ) : untmp ('.' :: digits i) = '.' :: digits i := by
  obtain ⟨c, ds, hds, hc⟩ := head_digits i
  have ht : c ≠ 't' := by
    rintro rfl
    simp at hc
  rw [untmp, untmp_digits]
  intro r _ h
  rw [hds, List.cons.injEq] at h
  exact ht h.1

variable {path : Name}

theorem untmp_tmpPath (h : '.' ∉ path) (i : ℕ) : untmp (tmpPath path i) = finalPath path i := by
  rw [tmpPath, untmp_append h, finalPath]
  rfl

theorem untmp_finalPath (h : '.' ∉ path) (i : ℕ) :
    untmp (finalPath path i) = finalPath path i := by
  rw [finalPath, untmp_append h, untmp_dot_digits]

@[simp] theorem finalPath_inj {i j : ℕ} : finalPath path i = finalPath path j ↔ i = j := by
  simp [finalPath]

@[simp] theorem tmpPath_inj {i j : ℕ} : tmpPath path i = tmpPath path j ↔ i = j := by
  simp [tmpPath]

theorem tmpPath_ne_finalPath (i j : ℕ) : tmpPath path i ≠ finalPath path j := by
  obtain ⟨c, ds, hds, hc⟩ := head_digits j
  have ht : 't' ≠ c := by
    rintro rfl
    simp at hc
  simp [tmpPath, finalPath, hds, ht]

/-! ## Contents -/

theorem countOfBytes_countBytes (n : UInt32) : countOfBytes (countBytes n) = n := by
  have hn : n.toNat < 2 ^ 32 := n.toNat_lt
  apply UInt32.toNat_inj.mp
  simp only [countBytes, countOfBytes, UInt8.toNat_ofNat', UInt32.toNat_ofNat']
  omega

@[simp] theorem length_countBytes (n : UInt32) : (countBytes n).length = 4 := rfl

theorem maxFileSize_eq : maxFileSize = 1073741824 := rfl

theorem dataChunks_flatten : ∀ (n : ℕ) (data : List UInt8), data.length ≤ n →
    (dataChunks n data).flatten.flatten = data
  | 0, data, h => by
      obtain rfl : data = [] := List.length_eq_zero_iff.mp (by omega)
      rfl
  | n + 1, data, h => by
      rw [dataChunks]
      split
      case isTrue hd => simp [hd]
      case isFalse hd =>
        have hpos : 0 < data.length := List.length_pos_iff.mpr hd
        have hlen : (data.drop maxFileSize).length ≤ n := by
          rw [List.length_drop, maxFileSize_eq]
          omega
        simp only [List.flatten_cons, List.singleton_append, dataChunks_flatten n _ hlen,
          List.take_append_drop]

/-- The contents of the chunks. -/
def chunkData (data : List UInt8) (deleteCount : Option UInt32) : List (List UInt8) :=
  (chunkWrites data deleteCount).map List.flatten

theorem flatten_map_flatten {α : Type*} (l : List (List (List α))) :
    (l.map List.flatten).flatten = l.flatten.flatten := by
  rw [List.flatten_flatten]

theorem chunkData_none (data : List UInt8) : (chunkData data none).flatten = data := by
  rw [chunkData, flatten_map_flatten]
  exact dataChunks_flatten _ _ le_rfl

theorem chunkData_some (data : List UInt8) (count : UInt32) : chunkData data (some count) =
    (countBytes count ++ data.take (maxFileSize - 4)) ::
      (dataChunks data.length (data.drop (maxFileSize - 4))).map List.flatten := by
  rw [chunkData, chunkWrites, List.map_cons]
  congr 1
  split
  case isTrue h => simp [h]
  case isFalse => simp

end VectorLsm.Storage
