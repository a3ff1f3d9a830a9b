import VectorLsm.Storage.VersionFiles

/-! # Round trips of segment files

The reader takes the chunks that it finds, one number after the other. A write replaces the chunks
it has and removes none, so what an earlier, longer file has left behind the last one is read with
it.
-/

namespace VectorLsm.Storage

open Crash

variable {d : Dir} {path : Name} {data : List UInt8} {count : Option UInt32}

/-- A file that is written and then read, with or without a count both times, comes back as it
was. -/
def RoundTrip (d : Dir) (path : Name) (data : List UInt8) (count : Option UInt32) : Prop :=
  let loaded := readSegmentFile (d.run (writeSegmentFile path data count)) path count.isSome
  loaded.data = data ∧ loaded.deleteCount = count

/-- Chunk `i` is there, and so is every one from number `n` on before it. -/
def Follows (d : Dir) (path : Name) (n i : ℕ) : Prop :=
  n ≤ i ∧ ∀ j, n ≤ j → j ≤ i → d.read (finalPath path j) ≠ none

/-- The chunks behind those of a write are as they were. -/
theorem read_behind (hp : '.' ∉ path) (hd : Owned untmp d) {i : ℕ}
    (hi : (chunkData data count).length ≤ i) :
    (d.run (writeSegmentFile path data count)).read (finalPath path i) =
      d.read (finalPath path i) := by
  refine hd.run (P := fun d' => d'.read (finalPath path i) = d.read (finalPath path i)) ?_
    (fun _ _ hk h => hk.read.trans h) rfl
  intro op hop
  rw [untmp_finalPath hp]
  rcases within_writeSegmentFile hp hop with rfl | ⟨j, hj, hop⟩
  · exact ⟨[], trivial, by simp [finalPath]⟩
  · refine ⟨_, hop, ?_⟩
    rw [Ne, finalPath_inj]
    omega

theorem readChunks_append {cs : List (List UInt8)} {k fuel : ℕ} (hfuel : cs.length ≤ fuel)
    (hsome : ∀ i, (hi : i < cs.length) → d.read (finalPath path (k + i)) = some cs[i]) :
    readChunks d path fuel k = cs ++ readChunks d path (fuel - cs.length) (k + cs.length) := by
  induction cs generalizing k fuel with
  | nil => rfl
  | cons c cs ih =>
      obtain ⟨fuel, rfl⟩ := Nat.exists_eq_succ_of_ne_zero (Nat.ne_zero_of_lt hfuel)
      have hhead : d.read (finalPath path k) = some c := hsome 0 (Nat.succ_pos _)
      have htail : readChunks d path fuel (k + 1) =
          cs ++ readChunks d path (fuel - cs.length) (k + 1 + cs.length) := by
        refine ih (Nat.le_of_succ_le_succ hfuel) fun i hi => ?_
        rw [Nat.add_right_comm, Nat.add_assoc]
        exact hsome (i + 1) (Nat.succ_lt_succ hi)
      rw [readChunks, hhead, htail, List.cons_append, List.length_cons, Nat.succ_sub_succ,
        Nat.add_right_comm, Nat.add_assoc]

/-- What is read is in an unbroken row of chunks. -/
theorem exists_of_mem_readChunks {b : List UInt8} {k fuel : ℕ}
    (h : b ∈ readChunks d path fuel k) :
    ∃ i, Follows d path k i ∧ d.read (finalPath path i) = some b := by
  induction fuel generalizing k with
  | zero => exact absurd h List.not_mem_nil
  | succ fuel ih =>
      unfold readChunks at h
      split at h
      · rename_i bs hbs
        rcases List.mem_cons.mp h with rfl | h
        · refine ⟨k, ⟨le_rfl, fun j hj hjk => ?_⟩, hbs⟩
          obtain rfl : j = k := by omega
          rw [hbs]
          exact Option.some_ne_none _
        · obtain ⟨i, ⟨hki, hrow⟩, hi⟩ := ih h
          refine ⟨i, ⟨by omega, fun j hj hji => ?_⟩, hi⟩
          rcases Nat.eq_or_lt_of_le hj with rfl | hj
          · rw [hbs]
            exact Option.some_ne_none _
          · exact hrow j hj hji
      · exact absurd h List.not_mem_nil

/-- Every chunk of the row is read, given the turns. -/
theorem mem_readChunks {b : List UInt8} {k i fuel : ℕ} (hrow : Follows d path k i)
    (hi : d.read (finalPath path i) = some b) (hfuel : i < k + fuel) :
    b ∈ readChunks d path fuel k := by
  induction fuel generalizing k with
  | zero =>
      have := hrow.1
      omega
  | succ fuel ih =>
      unfold readChunks
      obtain ⟨bs, hbs⟩ := Option.ne_none_iff_exists'.mp (hrow.2 k le_rfl hrow.1)
      rw [hbs]
      rcases Nat.eq_or_lt_of_le hrow.1 with rfl | hlt
      · obtain rfl := Option.some.inj (hbs.symm.trans hi)
        exact List.mem_cons_self
      · refine List.mem_cons_of_mem _ (ih ⟨hlt, fun j hj hji => hrow.2 j (by omega) hji⟩ ?_)
        omega

/-- The row of chunks is no longer than the directory. -/
theorem lt_keys {i : ℕ} (h : Follows d path 0 i) : i < d.entries.keys.length := by
  have hlen : ((List.range (i + 1)).map fun j => (d.read (finalPath path j)).getD []).length ≤
      d.entries.keys.length := by
    refine length_le_keys fun j hj => (?_ : d.read (finalPath path j) = _)
    rw [List.length_map, List.length_range] at hj
    obtain ⟨b, hb⟩ := Option.ne_none_iff_exists'.mp (h.2 j (Nat.zero_le j) (by omega))
    rw [List.getElem_map, List.getElem_range, hb]
    rfl
  rw [List.length_map, List.length_range] at hlen
  omega

/-- What is read after a write: its chunks, and whatever row of chunks follows them. -/
theorem exists_rest (data : List UInt8) (count : Option UInt32) (hp : '.' ∉ path)
    (hd : Owned untmp d) :
    ∃ rest, readChunks (d.run (writeSegmentFile path data count)) path
        ((d.run (writeSegmentFile path data count)).entries.keys.length + 1) 0 =
          chunkData data count ++ rest ∧
      ∀ b, b ∈ rest ↔ ∃ i, Follows d path (chunkData data count).length i ∧
        d.read (finalPath path i) = some b := by
  set n := (chunkData data count).length with hn
  set d' := d.run (writeSegmentFile path data count)
  have hsome (i : ℕ) (hi : i < (chunkData data count).length) :
      d'.read (finalPath path i) = some (chunkData data count)[i] :=
    (durable_writeSegmentFile hp hd hi).read
  have hbehind (i : ℕ) (hi : n ≤ i) : d'.read (finalPath path i) = d.read (finalPath path i) :=
    read_behind hp hd hi
  have hfollows (i : ℕ) : Follows d' path n i ↔ Follows d path n i :=
    and_congr_right fun _ => forall_congr' fun j => forall_congr' fun hj => by rw [hbehind j hj]
  have hfuel : n ≤ d'.entries.keys.length + 1 := (length_le_keys hsome).trans (Nat.le_succ _)
  refine ⟨_, readChunks_append hfuel (by simpa using hsome), fun b => ?_⟩
  rw [Nat.zero_add, ← hn]
  constructor
  · intro hb
    obtain ⟨i, hrow, hi⟩ := exists_of_mem_readChunks hb
    exact ⟨i, (hfollows i).mp hrow, (hbehind i hrow.1).symm.trans hi⟩
  · rintro ⟨i, hrow, hi⟩
    have hall : Follows d' path 0 i := ⟨Nat.zero_le i, fun j _ hji => by
      rcases Nat.lt_or_ge j n with hj | hj
      · rw [hsome j hj]
        exact Option.some_ne_none _
      · rw [hbehind j hj]
        exact hrow.2 j hj hji⟩
    refine mem_readChunks ((hfollows i).mpr hrow) ((hbehind i hrow.1).trans hi) ?_
    have := lt_keys hall
    omega

/-- The reader cuts the count off and joins what is left of the chunks. -/
theorem readSegmentFile_rest {d' : Dir} {rest : List (List UInt8)}
    (h : readChunks d' path (d'.entries.keys.length + 1) 0 = chunkData data count ++ rest) :
    (readSegmentFile d' path count.isSome).data = data ++ rest.flatten ∧
      (chunkData data count ++ rest ≠ [] →
        (readSegmentFile d' path count.isSome).deleteCount = count) := by
  unfold readSegmentFile
  rw [h]
  cases count with
  | none =>
      have hdata : (chunkData data none ++ rest).flatten = data ++ rest.flatten := by
        rw [List.flatten_append, chunkData_none]
      simp only [Option.isSome_none, Bool.false_eq_true, false_and, if_false]
      cases hc : chunkData data none ++ rest with
      | nil =>
          rw [hc] at hdata
          exact ⟨hdata, fun hne => absurd rfl hne⟩
      | cons c cs =>
          rw [hc, List.flatten_cons] at hdata
          refine ⟨?_, fun _ => rfl⟩
          rw [← hdata, List.flatten_cons]
          exact List.take_length
  | some n =>
      have hdata : data.take (maxFileSize - 4) ++ ((dataChunks data.length
          (data.drop (maxFileSize - 4))).map List.flatten).flatten = data := by
        rw [flatten_map_flatten, dataChunks_flatten _ _ (by simp), List.take_append_drop]
      have hcount : (countBytes n ++ data.take (maxFileSize - 4)).take 4 = countBytes n :=
        List.take_left' rfl
      have hdrop : (countBytes n ++ data.take (maxFileSize - 4)).drop 4 =
          data.take (maxFileSize - 4) := List.drop_left' rfl
      have hlen : 4 ≤ (countBytes n ++ data.take (maxFileSize - 4)).length := by
        rw [List.length_append, length_countBytes]
        omega
      rw [chunkData_some, List.cons_append]
      simp only [Option.isSome_some, true_and, if_pos hlen, hcount, hdrop, countOfBytes_countBytes]
      refine ⟨?_, fun _ => trivial⟩
      have htotal : data.take (maxFileSize - 4) ++ ((dataChunks data.length
          (data.drop (maxFileSize - 4))).map List.flatten ++ rest).flatten =
            data ++ rest.flatten := by
        rw [List.flatten_append, ← List.append_assoc, hdata]
      rw [htotal, List.flatten_cons, List.append_assoc, htotal, List.length_append,
        length_countBytes, if_pos (by omega), Nat.add_sub_cancel_left, List.take_length]

/-- A file comes back as it was written exactly if the row of chunks behind it holds nothing. -/
theorem exists_rest_iff (data : List UInt8) (count : Option UInt32) (hp : '.' ∉ path)
    (hd : Owned untmp d) :
    ∃ rest : List (List UInt8), (RoundTrip d path data count ↔ rest.flatten = []) ∧
      ∀ b, b ∈ rest ↔ ∃ i, Follows d path (chunkData data count).length i ∧
        d.read (finalPath path i) = some b := by
  obtain ⟨rest, hread, hrest⟩ := exists_rest data count hp hd
  obtain ⟨hdata, hcount⟩ := readSegmentFile_rest hread
  refine ⟨rest, ⟨fun ⟨hsame, _⟩ => ?_, fun hnil => ⟨?_, ?_⟩⟩, hrest⟩
  · exact List.append_right_eq_self.mp (hdata.symm.trans hsame)
  · rw [hdata, hnil, List.append_nil]
  · by_cases hne : chunkData data count ++ rest = []
    · -- nothing to read: there was no count to write either
      cases count with
      | none =>
          unfold readSegmentFile
          rw [hread, hne]
      | some n => simp [chunkData_some] at hne
    · exact hcount hne

/-- A file comes back as it was written exactly if no bytes are left in the row of chunks behind
the last one written. -/
theorem roundTrip_iff (hp : '.' ∉ path) (hd : Owned untmp d) :
    RoundTrip d path data count ↔ ∀ (i : ℕ) (b : List UInt8),
      Follows d path (chunkData data count).length i → d.read (finalPath path i) = some b →
        b = [] := by
  obtain ⟨rest, hiff, hrest⟩ := exists_rest_iff data count hp hd
  rw [hiff, List.flatten_eq_nil_iff]
  constructor
  · exact fun h i b hrow hi => h b ((hrest b).mpr ⟨i, hrow, hi⟩)
  · intro h b hb
    obtain ⟨i, hrow, hi⟩ := (hrest b).mp hb
    exact h i b hrow hi

/-- Where every chunk holds some byte, only the next number matters. -/
theorem RoundTrip.iff_none (hp : '.' ∉ path) (hd : Owned untmp d)
    (hne : ∀ i, d.read (finalPath path i) ≠ some []) :
    RoundTrip d path data count ↔
      d.read (finalPath path (chunkData data count).length) = none := by
  obtain ⟨rest, hiff, hrest⟩ := exists_rest_iff data count hp hd
  rw [hiff, List.flatten_eq_nil_iff]
  constructor
  · intro h
    by_contra hsome
    obtain ⟨b, hb⟩ := Option.ne_none_iff_exists'.mp hsome
    have hrow : Follows d path (chunkData data count).length (chunkData data count).length :=
      ⟨le_rfl, fun j hj hji => by rwa [Nat.le_antisymm hji hj]⟩
    obtain rfl := h b ((hrest b).mpr ⟨_, hrow, hb⟩)
    exact hne _ hb
  · intro hnone b hb
    obtain ⟨i, hrow, _⟩ := (hrest b).mp hb
    exact absurd hnone (hrow.2 _ le_rfl hrow.1)

/-- The directories that writes of segment files leave: each has run to its end or was cut short by
an error, and there may have been crashes. -/
inductive Left : Dir → Prop
  | empty : Left ⟨[], ∅, []⟩
  | write {d : Dir} (path : Name) (data : List UInt8) (count : Option UInt32) (k : ℕ)
      (hp : '.' ∉ path) : Left d → Left (d.run ((writeSegmentFile path data count).take k))
  | crash {d : Dir} (o : Outcome Name UInt8) : Left d → d.Leaves o → Left (Crash.Disk.crash o)

theorem Left.owned (h : Left d) : Owned untmp d := by
  induction h with
  | empty =>
      refine ⟨fun _ => [], fun v hv n i hi => ?_⟩
      obtain rfl : v = ∅ := by simpa [Crash.Disk.views] using hv
      simp at hi
  | write path data count k hp _ ih =>
      refine ih.runs fun op hop => ?_
      rcases within_writeSegmentFile hp (List.mem_of_mem_take hop) with rfl | ⟨i, _, hop⟩
      · exact ⟨[], trivial⟩
      · exact ⟨_, hop⟩
  | crash o _ ho ih => exact ih.crash ho

/-- What an earlier write of one byte more than a chunk has left of a file `f`. -/
def demoLonger : Dir where
  inodes := [⟨List.replicate maxFileSize 1, true⟩, ⟨[2], true⟩]
  entries := (((∅ : Entries Name).insert (finalPath ['f'] 0) 0).insert (finalPath ['f'] 1) 1)
  older := []

theorem owned_demoLonger : Owned untmp demoLonger := by
  refine ⟨finalPath ['f'], fun v hv n i hi => ?_⟩
  obtain rfl : v = demoLonger.entries := by simpa [Crash.Disk.views, demoLonger] using hv
  have hdot : '.' ∉ ['f'] := by decide
  rw [demoLonger] at hi
  by_cases h1 : n = finalPath ['f'] 1
  · subst h1
    rw [AList.lookup_insert] at hi
    obtain rfl := Option.some.inj hi
    exact ⟨by decide, untmp_finalPath hdot 1⟩
  · rw [AList.lookup_insert_ne h1] at hi
    by_cases h0 : n = finalPath ['f'] 0
    · subst h0
      rw [AList.lookup_insert] at hi
      obtain rfl := Option.some.inj hi
      exact ⟨by decide, untmp_finalPath hdot 0⟩
    · rw [AList.lookup_insert_ne h0] at hi
      simp at hi

theorem roundTrip_iff_demoLonger :
    RoundTrip demoLonger ['f'] [7] none ↔ ∀ (i : ℕ) (b : List UInt8),
      Follows demoLonger ['f'] (chunkData [7] none).length i →
        demoLonger.read (finalPath ['f'] i) = some b → b = [] :=
  roundTrip_iff (by decide) owned_demoLonger

/-- The second chunk of the longer file is read behind the shorter one. -/
theorem not_roundTrip : ¬ ∀ (d : Dir) (path : Name) (data : List UInt8) (count : Option UInt32),
    '.' ∉ path → Owned untmp d → RoundTrip d path data count := by
  intro h
  have hback := h demoLonger ['f'] [7] none (by decide) owned_demoLonger
  obtain ⟨rest, hiff, hrest⟩ := exists_rest_iff [7] none
    (show '.' ∉ ['f'] by decide) owned_demoLonger
  have hread : demoLonger.read (finalPath ['f'] 1) = some [2] := by decide +kernel
  have hlen : (chunkData [7] none).length = 1 := by decide +kernel
  have hmem : [2] ∈ rest := by
    refine (hrest [2]).mpr ⟨1, ⟨hlen.le, fun j hj hji => ?_⟩, hread⟩
    obtain rfl : j = 1 := by omega
    rw [hread]
    exact Option.some_ne_none _
  exact absurd (List.flatten_eq_nil_iff.mp (hiff.mp hback) [2] hmem) (by decide)

end VectorLsm.Storage
