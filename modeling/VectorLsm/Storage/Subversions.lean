import VectorLsm.Storage.Bitmaps
import VectorLsm.Lib.Transition

/-! # Updates of a bitmap that can crash

Bitmap updates of any segments one after the other, each of which may be cut short by a crash. One
version is watched: what was last completed for it, and what was interrupted since.
-/

namespace VectorLsm.Storage

open Crash Transition

/-- A bitmap with its count. It has a bit for each of at most `2 ^ 32` rows. -/
structure Bitmap where
  bytes : List UInt8
  deleteCount : UInt32
  small : bytes.length ≤ 536870912
  deriving DecidableEq

/-- The run of updates, with the version watched. `completed` and `interrupted` are not in the
program. -/
structure Updates where
  dir : Dir
  completed : Bitmap
  interrupted : Option Bitmap

/-- An update, and the crash that ends it: after how many system calls, and what is left. -/
inductive UpdateAction
  | update (k : Version) (b : Bitmap) (crash : Option (ℕ × Outcome Name UInt8))

/-- The version can be loaded, and the bitmap is `b`. -/
def Returns (d : Dir) (k : Version) (b : Bitmap) : Prop :=
  loadBitmapFile d k = ⟨1, b.bytes, some b.deleteCount⟩

instance (d : Dir) (k : Version) (b : Bitmap) : Decidable (Returns d k b) :=
  inferInstanceAs (Decidable (_ = _))

namespace Updates

/-- An interrupted update that a load has returned is complete. -/
def settled (key : Version) (s : Updates) : Bitmap :=
  match s.interrupted with
  | some b => if Returns s.dir key b then b else s.completed
  | none => s.completed

/-- The system calls of an update. -/
def updateOps (d : Dir) (k : Version) (b : Bitmap) : List (Op Name UInt8) :=
  writeBitmapFileWithSubversion k (nextSubversion d k) b.bytes b.deleteCount

def step (key : Version) (s : Updates) : UpdateAction → Option Updates
  | .update k b none =>
      let d := s.dir.run (updateOps s.dir k b)
      if k = key then some ⟨d, b, none⟩ else some { s with dir := d }
  | .update k b (some (done, o)) =>
      if (s.dir.run ((updateOps s.dir k b).take done)).Leaves o then
        if k = key then some ⟨Crash.Disk.crash o, s.settled key, some b⟩
        else some { s with dir := Crash.Disk.crash o }
      else none

end Updates

/-- The bytes of a bitmap file. -/
def Bitmap.content (b : Bitmap) : List UInt8 := countBytes b.deleteCount ++ b.bytes

/-- The directory once the version has been flushed and is on disk. -/
structure Flushed (key : Version) (s : Updates) : Prop where
  owned : Owned untmp s.dir
  older : s.dir.older = []
  base : Durable (finalPath (filePath bitmapKind key) 0) s.completed.content s.dir
  single : finalPath (filePath bitmapKind key) 1 ∉ s.dir.entries
  plain : ∀ n ∈ s.dir.entries, ¬ subversionPattern key <+: n
  none : s.interrupted = none

/-- A load of the version returns the last completed update or the interrupted one. -/
def CrashSafe (key : Version) (s : Updates) : Prop :=
  Returns s.dir key s.completed ∨ ∃ b, s.interrupted = some b ∧ Returns s.dir key b

/-- The condition on a step: there is a subversion left, and no crash leaves the temporary file of
an update without the file itself. -/
def Renamed (key : Version) (s : Updates) : UpdateAction → Prop
  | .update k _ crash => k = key → nextSubversion s.dir key < uint32Max ∧
      match crash with
      | some (_, o) =>
          tmpPath (bitmapPath key (nextSubversion s.dir key)) 0 ∈ o.entries →
            finalPath (bitmapPath key (nextSubversion s.dir key)) 0 ∈ o.entries
      | none => True

instance (key : Version) (s : Updates) (a : UpdateAction) : Decidable (Renamed key s a) := by
  match a with
  | .update k b (some (done, o)) =>
      exact inferInstanceAs (Decidable (k = key → nextSubversion s.dir key < uint32Max ∧
        (tmpPath (bitmapPath key (nextSubversion s.dir key)) 0 ∈ o.entries →
          finalPath (bitmapPath key (nextSubversion s.dir key)) 0 ∈ o.entries)))
  | .update k b none =>
      exact inferInstanceAs (Decidable (k = key → nextSubversion s.dir key < uint32Max ∧ True))

variable {k : Version} {b : Bitmap} {d : Dir} {op : Op Name UInt8}

theorem chunkData_content (b : Bitmap) :
    chunkData b.bytes (some b.deleteCount) = [b.content] := by
  have hsmall : b.bytes.length ≤ maxFileSize - 4 := by
    have := b.small
    rw [maxFileSize_eq]
    omega
  have hrest : dataChunks b.bytes.length [] = [] := by
    cases b.bytes.length <;> rfl
  rw [chunkData_some, List.take_of_length_le hsmall, List.drop_of_length_le hsmall, hrest]
  rfl

theorem within_updateOps (h : op ∈ Updates.updateOps d k b) :
    op.Within untmp (finalPath (bitmapPath k (nextSubversion d k)) 0) := by
  rcases within_writeSegmentFile (bitmapPath_no_dot _) h with rfl | ⟨i, hi, hop⟩
  · trivial
  · rw [chunkData_content, List.length_singleton] at hi
    obtain rfl : i = 0 := by omega
    exact hop

/-- The system calls of an update make two names. -/
theorem makes_updateOps {n : Name} (h : op ∈ Updates.updateOps d k b) (hn : op.Makes n) :
    n = tmpPath (bitmapPath k (nextSubversion d k)) 0 ∨
      n = finalPath (bitmapPath k (nextSubversion d k)) 0 := by
  have hlen := congrArg List.length (chunkData_content b)
  have hchunks : (chunkWrites b.bytes (some b.deleteCount)).length = 1 := by
    simpa [chunkData] using hlen
  rw [Updates.updateOps, writeBitmapFileWithSubversion, writeSegmentFile_eq] at h
  simp only [List.mem_append, List.mem_singleton] at h
  rcases h with (h | h) | rfl
  · obtain ⟨c, hc, h⟩ := List.mem_flatMap.mp h
    have hlt := List.snd_lt_add_of_mem_zipIdx hc
    obtain hc0 : c.2 = 0 := by omega
    simp only [writeTmp, List.cons_append, List.mem_cons, List.mem_append, List.mem_map,
      List.not_mem_nil, or_false] at h
    rcases h with rfl | ⟨bs, -, rfl⟩ | rfl
    · rw [hc0] at hn
      exact .inl hn.symm
    · exact hn.elim
    · exact hn.elim
  · obtain ⟨i, hi, rfl⟩ := List.mem_map.mp h
    rw [List.mem_range, hlen, List.length_singleton] at hi
    obtain rfl : i = 0 := by omega
    exact .inr hn.symm
  · exact hn.elim

/-- A file under a name of an update that has not been started is whole, wherever the update is
interrupted. -/
theorem whole_updateOps (h : Owned untmp d)
    (hn : Fixed (finalPath (bitmapPath k (nextSubversion d k)) 0) none d) (done : ℕ) :
    Whole (finalPath (bitmapPath k (nextSubversion d k)) 0) b.content
      (d.run ((Updates.updateOps d k b).take done)) := by
  have hp : '.' ∉ bitmapPath k (nextSubversion d k) := bitmapPath_no_dot _
  have hlen := congrArg List.length (chunkData_content b)
  have hchunks : (chunkWrites b.bytes (some b.deleteCount)).length = 1 := by
    simpa [chunkData] using hlen
  have hops : Updates.updateOps d k b =
      writeTmps (bitmapPath k (nextSubversion d k)) 0 (chunkWrites b.bytes (some b.deleteCount)) ++
        [.rename (tmpPath (bitmapPath k (nextSubversion d k)) 0)
          (finalPath (bitmapPath k (nextSubversion d k)) 0), .fsyncDir] := by
    rw [Updates.updateOps, writeBitmapFileWithSubversion, writeSegmentFile_eq, hlen,
      List.append_assoc]
    rfl
  have hpre : ∀ op ∈ writeTmps (bitmapPath k (nextSubversion d k)) 0
      (chunkWrites b.bytes (some b.deleteCount)),
      ¬ op.Makes (finalPath (bitmapPath k (nextSubversion d k)) 0) := by
    intro op hop hmakes
    obtain ⟨c, -, hop⟩ := List.mem_flatMap.mp hop
    simp only [writeTmp, List.cons_append, List.mem_cons, List.mem_append, List.mem_map,
      List.not_mem_nil, or_false] at hop
    rcases hop with rfl | ⟨bs, -, rfl⟩ | rfl
    · exact tmpPath_ne_finalPath _ _ hmakes
    · exact hmakes
    · exact hmakes
  rw [hops, List.take_append, run_append]
  by_cases hdone : done ≤ (writeTmps (bitmapPath k (nextSubversion d k)) 0
      (chunkWrites b.bytes (some b.deleteCount))).length
  · -- nothing has been renamed
    rw [Nat.sub_eq_zero_of_le hdone, List.take_zero, run_nil]
    exact (hn.run_none fun op hop => hpre op (List.mem_of_mem_take hop)).whole
  · obtain ⟨j, hj⟩ := Nat.exists_eq_add_of_lt (Nat.lt_of_not_le hdone)
    rw [List.take_of_length_le (Nat.le_of_not_le hdone), hj, Nat.add_assoc, Nat.add_sub_cancel_left,
      List.take_succ_cons, run_cons]
    have hpos : 0 < (chunkWrites b.bytes (some b.deleteCount)).length := by omega
    have hheld := holds_writeTmps hp (k := 0) h hpos
    have hcontent : (chunkWrites b.bytes (some b.deleteCount))[0].flatten = b.content := by
      have hget := congrArg (fun l : List (List UInt8) => l[0]?) (chunkData_content b)
      simpa [chunkData, hchunks] using hget
    rw [Nat.zero_add, hcontent] at hheld
    have hsame : Whole (finalPath (bitmapPath k (nextSubversion d k)) 0) b.content _ :=
      (hn.run_none hpre).whole
    have hwhole := hsame.rename hheld
    cases j with
    | zero => exact hwhole
    | succ j =>
        rw [List.take_succ_cons, List.take_nil, run_cons, run_nil]
        exact hwhole.fsyncDir

end VectorLsm.Storage
