import VectorLsm.Storage.SegmentFile

/-! # Segment files are written and read back

A write that has run to its end leaves every chunk on disk under its name, and touches no other
file. The chunks are read in order up to the first number that is not there.
-/

namespace VectorLsm.Storage

open Crash

variable {d : Dir} {path : Name} {data : List UInt8} {count : Option UInt32}
  {op : Op Name UInt8}

theorem within_writeTmp {i : ℕ} {writes : List (List UInt8)} (hp : '.' ∉ path)
    (h : op ∈ writeTmp path i writes) : op.Within untmp (finalPath path i) := by
  simp only [writeTmp, List.cons_append, List.mem_cons, List.mem_append, List.mem_map,
    List.not_mem_nil, or_false] at h
  rcases h with rfl | ⟨bs, -, rfl⟩ | rfl <;> exact untmp_tmpPath hp i

theorem within_rename (hp : '.' ∉ path) (i : ℕ) :
    (Op.rename (B := UInt8) (tmpPath path i) (finalPath path i)).Within untmp
      (finalPath path i) :=
  ⟨untmp_tmpPath hp i, untmp_finalPath hp i⟩

/-- The chunks from number `k` on, as `writeSegmentFile` writes them. -/
def writeTmps (path : Name) (k : ℕ) (cs : List (List (List UInt8))) : List (Op Name UInt8) :=
  (cs.zipIdx k).flatMap fun c => writeTmp path c.2 c.1

theorem within_writeTmps (hp : '.' ∉ path) {k : ℕ} {cs : List (List (List UInt8))}
    (h : op ∈ writeTmps path k cs) :
    ∃ i, k ≤ i ∧ i < k + cs.length ∧ op.Within untmp (finalPath path i) := by
  obtain ⟨c, hc, hop⟩ := List.mem_flatMap.mp h
  have hle := List.le_snd_of_mem_zipIdx hc
  have hlt := List.snd_lt_add_of_mem_zipIdx hc
  exact ⟨c.2, hle, by omega, within_writeTmp hp hop⟩

theorem within_renames (hp : '.' ∉ path) {n : ℕ} (h : op ∈ renames path n) :
    ∃ i < n, op.Within untmp (finalPath path i) := by
  obtain ⟨i, hi, rfl⟩ := List.mem_map.mp h
  exact ⟨i, List.mem_range.mp hi, within_rename hp i⟩

theorem writeSegmentFile_eq : writeSegmentFile path data count =
    writeTmps path 0 (chunkWrites data count) ++
      renames path (chunkData data count).length ++ [.fsyncDir] := by
  simp [writeSegmentFile, writeTmps, chunkData]

/-- Every system call is about the directory or one of the chunks. -/
theorem within_writeSegmentFile (hp : '.' ∉ path) (h : op ∈ writeSegmentFile path data count) :
    op = .fsyncDir ∨ ∃ i < (chunkData data count).length, op.Within untmp (finalPath path i) := by
  rw [writeSegmentFile_eq] at h
  simp only [List.mem_append, List.mem_singleton] at h
  rcases h with (h | h) | h
  · obtain ⟨i, -, hi, hop⟩ := within_writeTmps hp h
    exact .inr ⟨i, by simpa [chunkData] using hi, hop⟩
  · exact .inr (within_renames hp h)
  · exact .inl h

theorem holds_writeTmp {i : ℕ} (writes : List (List UInt8)) (h : Owned untmp d) :
    Holds (tmpPath path i) ⟨writes.flatten, true⟩ (d.run (writeTmp path i writes)) := by
  have happend : ∀ (ws : List (List UInt8)) (d : Dir) (bs : List UInt8) (b : Bool),
      Holds (tmpPath path i) ⟨bs, b⟩ d →
        ∃ b', Holds (tmpPath path i) ⟨bs ++ ws.flatten, b'⟩
          (d.run (ws.map (.append (tmpPath path i)))) := by
    intro ws
    induction ws with
    | nil => exact fun d bs b hd => ⟨b, by simpa using hd⟩
    | cons w ws ih =>
        intro d bs b hd
        have happ : Holds (tmpPath path i) ⟨bs ++ w, false⟩ _ := hd.append
        have hw := ih _ _ _ happ
        simpa using hw
  obtain ⟨b, hb⟩ := happend writes _ [] false (h.holds_create (n := tmpPath path i))
  rw [writeTmp, List.cons_append, run_cons, run_append]
  exact hb.fsync

theorem holds_writeTmps (hp : '.' ∉ path) {k : ℕ} {cs : List (List (List UInt8))}
    (h : Owned untmp d) {i : ℕ} (hi : i < cs.length) :
    Holds (tmpPath path (k + i)) ⟨cs[i].flatten, true⟩ (d.run (writeTmps path k cs)) := by
  induction cs generalizing d k i with
  | nil => exact absurd hi (Nat.not_lt_zero _)
  | cons c cs ih =>
      have hsplit : writeTmps path k (c :: cs) =
          writeTmp path k c ++ writeTmps path (k + 1) cs := by
        simp [writeTmps]
      have howned : Owned untmp (d.run (writeTmp path k c)) :=
        h.runs fun op hop => ⟨_, within_writeTmp hp hop⟩
      rw [hsplit, run_append]
      cases i with
      | zero =>
          -- the later chunks are other files
          refine howned.run ?_ (fun d d' hk hd => hk.holds hd) (holds_writeTmp c h)
          intro op hop
          obtain ⟨j, hj, -, hop⟩ := within_writeTmps hp hop
          refine ⟨_, hop, ?_⟩
          rw [untmp_tmpPath hp, Ne, finalPath_inj]
          omega
      | succ i =>
          have hnext := ih (k := k + 1) howned (Nat.lt_of_succ_lt_succ hi)
          rwa [Nat.add_right_comm, Nat.add_assoc] at hnext

theorem holds_renames (hp : '.' ∉ path) (h : Owned untmp d) {bs : ℕ → Inode UInt8} {n : ℕ}
    (hd : ∀ i < n, Holds (tmpPath path i) (bs i) d) {k : ℕ} (hk : k ≤ n) :
    (∀ i < k, Holds (finalPath path i) (bs i) (d.run (renames path k))) ∧
      ∀ i, k ≤ i → i < n → Holds (tmpPath path i) (bs i) (d.run (renames path k)) := by
  induction k with
  | zero => exact ⟨fun i hi => absurd hi (Nat.not_lt_zero _), fun i _ hi => hd i hi⟩
  | succ k ih =>
      obtain ⟨hfinal, htmp⟩ := ih (by omega)
      have howned : Owned untmp (d.run (renames path k)) := h.runs fun op hop => by
        obtain ⟨i, -, hop⟩ := within_renames hp hop
        exact ⟨_, hop⟩
      have hsplit : renames path (k + 1) =
          renames path k ++ [.rename (tmpPath path k) (finalPath path k)] := by
        simp [renames, List.range_succ]
      rw [hsplit, run_append]
      constructor
      · intro i hi
        rcases Nat.lt_succ_iff_lt_or_eq.mp hi with hi | rfl
        · refine (howned.kept (within_rename hp k) ?_).holds (hfinal i hi)
          rw [untmp_finalPath hp, Ne, finalPath_inj]
          omega
        · exact (htmp i le_rfl (by omega)).rename
      · intro i hi hin
        refine (howned.kept (within_rename hp k) ?_).holds (htmp i (by omega) hin)
        rw [untmp_tmpPath hp, Ne, finalPath_inj]
        omega

/-- A file that has been written is on disk, chunk by chunk. -/
theorem durable_writeSegmentFile (hp : '.' ∉ path) (h : Owned untmp d) {i : ℕ}
    (hi : i < (chunkData data count).length) :
    Durable (finalPath path i) (chunkData data count)[i]
      (d.run (writeSegmentFile path data count)) := by
  have howned : Owned untmp (d.run (writeTmps path 0 (chunkWrites data count))) :=
    h.runs fun op hop => by
      obtain ⟨i, -, -, hop⟩ := within_writeTmps hp hop
      exact ⟨_, hop⟩
  have htmp : ∀ j < (chunkData data count).length, Holds (tmpPath path j)
      ⟨(chunkData data count)[j]?.getD [], true⟩
      (d.run (writeTmps path 0 (chunkWrites data count))) := by
    intro j hj
    have hj' : j < (chunkWrites data count).length := by simpa [chunkData] using hj
    have hheld := holds_writeTmps hp (k := 0) h hj'
    rw [Nat.zero_add] at hheld
    simpa [chunkData, hj'] using hheld
  have hfinal := (holds_renames hp howned htmp le_rfl).1 i hi
  rw [writeSegmentFile_eq, run_append, run_append]
  rw [List.getElem?_eq_getElem hi, Option.getD_some] at hfinal
  exact hfinal.fsyncDir

/-- The directory is synced last. -/
theorem older_writeSegmentFile : (d.run (writeSegmentFile path data count)).older = [] := by
  rw [writeSegmentFile_eq, run_append]
  rfl

/-! ## Reading -/

theorem read_eq_some_mem {n : Name} {bs : List UInt8} (h : d.read n = some bs) :
    n ∈ d.entries.keys := by
  obtain ⟨i, hi, -⟩ := Option.bind_eq_some_iff.mp h
  have hsome : (d.entries.lookup n).isSome := by simp [hi]
  exact AList.mem_keys.mp (AList.lookup_isSome.mp hsome)

theorem readChunks_eq {cs : List (List UInt8)} {k fuel : ℕ} (hfuel : cs.length < fuel)
    (hsome : ∀ i, (hi : i < cs.length) → d.read (finalPath path (k + i)) = some cs[i])
    (hnone : d.read (finalPath path (k + cs.length)) = none) :
    readChunks d path fuel k = cs := by
  induction cs generalizing k fuel with
  | nil =>
      obtain ⟨fuel, rfl⟩ := Nat.exists_eq_succ_of_ne_zero (Nat.ne_zero_of_lt hfuel)
      rw [List.length_nil, Nat.add_zero] at hnone
      simp [readChunks, hnone]
  | cons c cs ih =>
      obtain ⟨fuel, rfl⟩ := Nat.exists_eq_succ_of_ne_zero (Nat.ne_zero_of_lt hfuel)
      have hhead : d.read (finalPath path k) = some c := hsome 0 (Nat.succ_pos _)
      have htail : readChunks d path fuel (k + 1) = cs := by
        refine ih (Nat.lt_of_succ_lt_succ hfuel) ?_ ?_
        · intro i hi
          rw [Nat.add_right_comm, Nat.add_assoc]
          exact hsome (i + 1) (Nat.succ_lt_succ hi)
        · rwa [Nat.add_right_comm, Nat.add_assoc]
      simp [readChunks, hhead, htail]

/-- There are no more chunks than names, so that the reader sees all of them. -/
theorem length_le_keys {cs : List (List UInt8)}
    (hsome : ∀ i, (hi : i < cs.length) → d.read (finalPath path i) = some cs[i]) :
    cs.length ≤ d.entries.keys.length := by
  have hinj : Function.Injective (finalPath path) := fun i j h => finalPath_inj.mp h
  have hnodup : ((List.range cs.length).map (finalPath path)).Nodup :=
    List.nodup_range.map hinj
  have hsub : (List.range cs.length).map (finalPath path) ⊆ d.entries.keys := by
    intro n hn
    obtain ⟨i, hi, rfl⟩ := List.mem_map.mp hn
    exact read_eq_some_mem (hsome i (List.mem_range.mp hi))
  have hle := (List.subperm_of_subset hnodup hsub).length_le
  simpa using hle

theorem readSegmentFile_chunks {cs : List (List UInt8)}
    (hsome : ∀ i, (hi : i < cs.length) → d.read (finalPath path i) = some cs[i])
    (hnone : d.read (finalPath path cs.length) = none) :
    readChunks d path (d.entries.keys.length + 1) 0 = cs := by
  refine readChunks_eq (Nat.lt_succ_of_le (length_le_keys hsome)) ?_ ?_
  · intro i hi
    rw [Nat.zero_add]
    exact hsome i hi
  · rwa [Nat.zero_add]

/-- A file without a count is read back as it was written. -/
theorem readSegmentFile_none
    (hsome : ∀ i, (hi : i < (chunkData data none).length) →
      d.read (finalPath path i) = some (chunkData data none)[i])
    (hnone : d.read (finalPath path (chunkData data none).length) = none) :
    readSegmentFile d path false = ⟨(chunkData data none).length, data, none⟩ := by
  have hread := readSegmentFile_chunks hsome hnone
  have hdata := chunkData_none data
  simp only [readSegmentFile, hread, Bool.false_eq_true, false_and, if_false]
  cases hc : chunkData data none with
  | nil =>
      rw [hc] at hdata
      simp [← hdata]
  | cons c cs =>
      rw [hc] at hdata
      simp [← hdata]

/-- A file with a count is read back with it. -/
theorem readSegmentFile_some {n : UInt32}
    (hsome : ∀ i, (hi : i < (chunkData data (some n)).length) →
      d.read (finalPath path i) = some (chunkData data (some n))[i])
    (hnone : d.read (finalPath path (chunkData data (some n)).length) = none) :
    readSegmentFile d path true = ⟨(chunkData data (some n)).length, data, some n⟩ := by
  have hread := readSegmentFile_chunks hsome hnone
  have hdata : data.take (maxFileSize - 4) ++ ((dataChunks data.length
      (data.drop (maxFileSize - 4))).map List.flatten).flatten = data := by
    rw [flatten_map_flatten, dataChunks_flatten _ _ (by simp), List.take_append_drop]
  rw [chunkData_some] at hread ⊢
  have htotal : ((countBytes n ++ data.take (maxFileSize - 4)) ::
      (dataChunks data.length (data.drop (maxFileSize - 4))).map List.flatten).flatten =
        countBytes n ++ data := by
    rw [List.flatten_cons, List.append_assoc, hdata]
  have hcount : (countBytes n ++ data.take (maxFileSize - 4)).take 4 = countBytes n :=
    List.take_left' rfl
  have hrest : (countBytes n ++ data.take (maxFileSize - 4)).drop 4 =
      data.take (maxFileSize - 4) := List.drop_left' rfl
  simp only [readSegmentFile, hread, htotal, hcount, hrest, hdata, countOfBytes_countBytes]
  simp

end VectorLsm.Storage
