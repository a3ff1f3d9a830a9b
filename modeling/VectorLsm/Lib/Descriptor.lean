import VectorLsm.Lib.Crash

/-! # Open files

A file that is open is written and synced by its inode, whatever has become of its name. Several
writers may have it open, each at an offset of its own.
-/

namespace Crash

variable {N B S : Type*}

/-- The content after a write at an offset; a hole before it reads as `zero`. -/
def overwrite (zero : B) (data : List B) (offset : ℕ) (bs : List B) : List B :=
  data.take offset ++ List.replicate (offset - data.length) zero ++ bs ++
    data.drop (offset + bs.length)

theorem overwrite_end {zero : B} {data : List B} {offset : ℕ} (h : data.length = offset)
    (bs : List B) : overwrite zero data offset bs = data ++ bs := by
  have hdrop : data.drop (offset + bs.length) = [] := List.drop_eq_nil_of_le (by omega)
  rw [overwrite, hdrop, ← h, List.take_length, Nat.sub_self, List.replicate_zero,
    List.append_nil, List.append_nil]

namespace Disk

variable (d : Disk N B)

/-- The inode of an open file changes. -/
def modifyAt (fd : ℕ) (f : Inode B → Inode B) : Disk N B :=
  { d with inodes := d.inodes.modify fd f }

def writeAt (zero : B) (fd offset : ℕ) (bs : List B) : Disk N B :=
  d.modifyAt fd fun x => ⟨overwrite zero x.data offset bs, false⟩

def syncAt (fd : ℕ) : Disk N B := d.modifyAt fd fun x => ⟨x.data, true⟩

def unlink [DecidableEq N] (n : N) : Disk N B := ⟨d.inodes, d.entries.erase n, d.views⟩

@[simp] theorem modifyAt_views (fd : ℕ) (f : Inode B → Inode B) :
    (d.modifyAt fd f).views = d.views := rfl

@[simp] theorem modifyAt_entries (fd : ℕ) (f : Inode B → Inode B) :
    (d.modifyAt fd f).entries = d.entries := rfl

@[simp] theorem modifyAt_length (fd : ℕ) (f : Inode B → Inode B) :
    (d.modifyAt fd f).inodes.length = d.inodes.length := List.length_modify ..

theorem modifyAt_self {fd : ℕ} {x : Inode B} (h : d.inodes[fd]? = some x) (f : Inode B → Inode B) :
    (d.modifyAt fd f).inodes[fd]? = some (f x) := by
  simp [modifyAt, h]

theorem modifyAt_of_ne {fd i : ℕ} (h : fd ≠ i) (f : Inode B → Inode B) :
    (d.modifyAt fd f).inodes[i]? = d.inodes[i]? := by
  simp [modifyAt, h]

end Disk

open Disk

variable [DecidableEq N] {d d' : Disk N B} {slot : N → S} {s : S} {n m k : N} {fd i : ℕ}

/-- All the names the open file has are of one slot. -/
structure Opened (slot : N → S) (s : S) (fd : ℕ) (d : Disk N B) : Prop where
  lt : fd < d.inodes.length
  names : ∀ v ∈ d.views, ∀ n, v.lookup n = some fd → slot n = s

/-- A name stands for an inode that had a name of the slot before, or for a new one. -/
structure Derives (slot : N → S) (d d' : Disk N B) : Prop where
  length : d.inodes.length ≤ d'.inodes.length
  names : ∀ v ∈ d'.views, ∀ n i, v.lookup n = some i → d.inodes.length ≤ i ∨
    ∃ w ∈ d.views, ∃ m, slot m = slot n ∧ w.lookup m = some i

theorem Opened.of_derives (h : Opened slot s fd d) (hd : Derives slot d d') :
    Opened slot s fd d' := by
  refine ⟨Nat.lt_of_lt_of_le h.lt hd.length, fun v hv n hn => ?_⟩
  rcases hd.names v hv n fd hn with hle | ⟨w, hw, m, hm, hwm⟩
  · exact absurd h.lt (Nat.not_lt.mpr hle)
  · rw [← hm]
    exact h.names w hw m hwm

theorem derives_modifyAt (slot : N → S) (d : Disk N B) (fd : ℕ) (f : Inode B → Inode B) :
    Derives slot d (d.modifyAt fd f) where
  length := Nat.le_of_eq (modifyAt_length d fd f).symm
  names := fun v hv n _ hi => .inr ⟨v, hv, n, rfl, hi⟩

theorem derives_unlink (slot : N → S) (d : Disk N B) (n : N) : Derives slot d (d.unlink n) where
  length := le_rfl
  names := by
    intro v hv m i hi
    rcases List.mem_cons.mp hv with rfl | hv
    · refine .inr ⟨d.entries, mem_views, m, rfl, ?_⟩
      by_cases hm : m = n
      · subst hm
        simp [Disk.unlink] at hi
      · exact (AList.lookup_erase_ne hm).symm.trans hi
    · exact .inr ⟨v, hv, m, rfl, hi⟩

/-- The slots of a directory without the name. -/
theorem Owned.unlink (h : Owned slot d) (n : N) : Owned slot (d.unlink n) := by
  obtain ⟨owner, h⟩ := h
  refine ⟨owner, fun v hv m i hi => ?_⟩
  rcases List.mem_cons.mp hv with rfl | hv
  · by_cases hm : m = n
    · subst hm
      simp [Disk.unlink] at hi
    · exact h _ mem_views m i ((AList.lookup_erase_ne hm).symm.trans hi)
  · exact h v hv m i hi

theorem Owned.modifyAt (h : Owned slot d) (fd : ℕ) (f : Inode B → Inode B) :
    Owned slot (d.modifyAt fd f) := by
  obtain ⟨owner, h⟩ := h
  refine ⟨owner, fun v hv n i hi => ?_⟩
  rw [modifyAt_length]
  exact h v hv n i hi

theorem Owned.opened (h : Owned slot d) {v : Entries N} (hv : v ∈ d.views)
    (hn : v.lookup n = some fd) : Opened slot (slot n) fd d := by
  obtain ⟨owner, ho⟩ := h
  refine ⟨(ho v hv n fd hn).1, fun w hw m hm => ?_⟩
  rw [(ho w hw m fd hm).2, (ho v hv n fd hn).2]

/-! ## What each call leaves -/

theorem kept_modifyAt (h : Opened slot s fd d) (hn : slot n ≠ s) (f : Inode B → Inode B) :
    Kept n d (d.modifyAt fd f) where
  entries := rfl
  views := fun v hv => ⟨v, hv, rfl⟩
  inodes := fun v hv _ hi =>
    modifyAt_of_ne d (fun he => hn (h.names v hv n (hi.trans (congrArg some he.symm)))) f

theorem kept_unlink (hn : n ≠ m) : Kept n d (d.unlink m) where
  entries := AList.lookup_erase_ne hn
  views := by
    intro v hv
    rcases List.mem_cons.mp hv with rfl | hv
    · exact ⟨d.entries, mem_views, AList.lookup_erase_ne hn⟩
    · exact ⟨v, hv, rfl⟩
  inodes := fun _ _ _ _ => rfl

theorem create_eq_modifyAt (h : d.entries.lookup n = some fd) :
    d.apply (.create n) = d.modifyAt fd fun _ => ⟨[], false⟩ := by
  simp [Disk.apply, h, Disk.modifyAt]

/-- The file that is opened is empty; it is the one of this name, or a new one. -/
theorem Owned.create (h : Owned slot d) (n : N) : ∃ fd,
    (d.apply (.create n)).entries.lookup n = some fd ∧
      (d.apply (.create n)).inodes[fd]? = some ⟨[], false⟩ ∧
      (d.entries.lookup n = some fd ∨ fd = d.inodes.length) := by
  cases hn : d.entries.lookup n with
  | some fd =>
      have hlt : fd < d.inodes.length := (h.opened mem_views hn).lt
      rw [create_eq_modifyAt hn]
      exact ⟨fd, hn, modifyAt_self d (List.getElem?_eq_getElem hlt) _, .inl rfl⟩
  | none =>
      rw [create_of_none hn]
      exact ⟨d.inodes.length, by simp, by simp, .inr rfl⟩

theorem lookup_create_ne (h : m ≠ n) :
    (d.apply (.create n)).entries.lookup m = d.entries.lookup m := by
  cases hn : d.entries.lookup n with
  | some fd => rw [create_eq_modifyAt hn, modifyAt_entries]
  | none =>
      rw [create_of_none hn]
      exact AList.lookup_insert_ne h

theorem derives_create (slot : N → S) (d : Disk N B) (n : N) :
    Derives slot d (d.apply (.create n)) := by
  cases hn : d.entries.lookup n with
  | some fd =>
      rw [create_eq_modifyAt hn]
      exact derives_modifyAt slot d fd _
  | none =>
      rw [create_of_none hn]
      refine ⟨by simp, fun v hv m i hi => ?_⟩
      rcases List.mem_cons.mp hv with rfl | hv
      · by_cases hm : m = n
        · subst hm
          exact .inl (Nat.le_of_eq (by simpa using hi))
        · exact .inr ⟨d.entries, mem_views, m, rfl, (AList.lookup_insert_ne hm).symm.trans hi⟩
      · exact .inr ⟨v, hv, m, rfl, hi⟩

theorem mem_rename (h : m ∈ d.entries) : n ∈ (d.apply (.rename m n)).entries := by
  obtain ⟨fd, hm⟩ := Option.isSome_iff_exists.mp (AList.lookup_isSome.mpr h)
  by_cases hn : d.entries.lookup n = some fd
  · rw [rename_of_eq hm hn]
    exact AList.lookup_isSome.mp (by rw [hn]; rfl)
  · rw [rename_of_ne hm hn]
    exact (AList.mem_insert _).mpr (.inl rfl)

theorem derives_rename (hs : slot m = slot n) : Derives slot d (d.apply (.rename m n)) := by
  cases hm : d.entries.lookup m with
  | none =>
      rw [rename_of_none hm]
      exact ⟨le_rfl, fun v hv k _ hi => .inr ⟨v, hv, k, rfl, hi⟩⟩
  | some fd =>
      by_cases hn : d.entries.lookup n = some fd
      · rw [rename_of_eq hm hn]
        exact ⟨le_rfl, fun v hv k _ hi => .inr ⟨v, hv, k, rfl, hi⟩⟩
      rw [rename_of_ne hm hn]
      refine ⟨le_rfl, fun v hv k i hi => ?_⟩
      rcases List.mem_cons.mp hv with rfl | hv
      · by_cases hkn : k = n
        · subst hkn
          obtain rfl : fd = i := by simpa using hi
          exact .inr ⟨d.entries, mem_views, m, hs, hm⟩
        · by_cases hkm : k = m
          · subst hkm
            simp [AList.lookup_insert_ne hkn] at hi
          · rw [lookup_rename hkm hkn] at hi
            exact .inr ⟨d.entries, mem_views, k, rfl, hi⟩
      · exact .inr ⟨v, hv, k, rfl, hi⟩

end Crash
