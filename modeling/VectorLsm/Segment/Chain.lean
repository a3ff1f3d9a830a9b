import VectorLsm.Segment.RedoExact

/-! # Chains of flushes, merges and rebuilds

The files a segment can have are those of flushed memtables, and what rebuilds and merges make of
them; in between, VACUUM on a primary and redo on a standby set bits. The delete count of such a
file is the number of its set bits, and the slice of a segment id holds the rows of that memtable.
-/

namespace VectorLsm

open Compact SegmentFile

section Bits

variable {b : ℕ → Bool} {m n : ℕ}

theorem countBits_add (b : ℕ → Bool) (m n : ℕ) :
    countBits b (m + n) = countBits b m + countBits (fun i => b (m + i)) n := by
  induction n with
  | zero => rfl
  | succ n ih => rw [← Nat.add_assoc, countBits_succ, countBits_succ, ih, Nat.add_assoc]

/-- The bits of the rows that stay, counted where they move to. -/
theorem countBits_kept {p q : ℕ → Bool} (h : ∀ j < n, p j = false → b (kept p j) = q j) :
    countBits b (kept p n) = countBits (fun j => !p j && q j) n := by
  induction n with
  | zero => rfl
  | succ n ih =>
      have ih := ih fun j hj => h j (Nat.lt_succ_of_lt hj)
      rw [kept_succ, countBits_succ, ← ih]
      cases hp : p n with
      | true => simp
      | false =>
          rw [if_neg Bool.false_ne_true, countBits_succ, h n (Nat.lt_succ_self n) hp]
          simp

/-- Bits below `n` set one after the other. -/
def Sets (n : ℕ) (s s' : Marking) : Prop :=
  ∃ ms : List ℕ, (∀ m ∈ ms, m < n) ∧ s' = ms.foldl Marking.set s

namespace Sets

variable {s s' s'' : Marking}

theorem refl (n : ℕ) (s : Marking) : Sets n s s := ⟨[], by simp, rfl⟩

theorem set (h : Sets n s s') (hm : m < n) : Sets n s (s'.set m) := by
  obtain ⟨ms, hms, rfl⟩ := h
  refine ⟨ms ++ [m], fun k hk => ?_, ?_⟩
  · rcases List.mem_append.mp hk with hk | hk
    · exact hms k hk
    · rwa [List.mem_singleton.mp hk]
  · rw [List.foldl_append]
    rfl

theorem fast {es : List VacuumEntry} {start last : ℕ} (h : Sets n s s') (hlast : last ≤ n) :
    Sets n s (tombstoneFast start last es s') := by
  induction es generalizing s' with
  | nil => exact h
  | cons e es ih =>
      rw [tombstoneFast, List.foldl_cons, ← tombstoneFast]
      apply ih
      split
      case isTrue hlt => exact h.set (hlt.trans_le hlast)
      case isFalse => exact h

theorem walk {ts : List Tid} {es : List VacuumEntry} (h : Sets n s s') (hn : m + ts.length ≤ n) :
    Sets n s (tombstoneWalk m ts es s') := by
  induction ts generalizing m es s' with
  | nil => exact h
  | cons t ts ih =>
      rw [List.length_cons] at hn
      cases es with
      | nil => exact h
      | cons e es =>
          rw [tombstoneWalk]
          split
          · exact ih (h.set (by omega)) (by omega)
          · exact ih h (by omega)

end Sets

/-- Bits set one after the other. -/
theorem Marking.Counts.foldl_set {s : Marking} {ms : List ℕ} (h : s.Counts n b)
    (hms : ∀ m ∈ ms, m < n) : (ms.foldl Marking.set s).Counts n b := by
  induction ms generalizing s with
  | nil => exact h
  | cons m ms ih =>
      rw [List.foldl_cons]
      exact ih (h.set (hms m List.mem_cons_self)) fun k hk => hms k (List.mem_cons_of_mem m hk)

theorem Sets.counts {s s' : Marking} (h : Sets n s s') (hs : s.Counts n b) : s'.Counts n b := by
  obtain ⟨ms, hms, rfl⟩ := h
  exact hs.foldl_set hms

theorem foldl_set_bitmap {s : Marking} {ms : List ℕ} {k : ℕ} :
    (ms.foldl Marking.set s).bitmap k = true ↔ s.bitmap k = true ∨ k ∈ ms := by
  induction ms generalizing s with
  | nil => simp
  | cons m ms ih => rw [List.foldl_cons, ih, Marking.set_bitmap, or_assoc, List.mem_cons]

/-- The count goes on from where it starts. -/
theorem foldl_set_add (b : ℕ → Bool) (ms : List ℕ) (k : ℕ) : ms.foldl Marking.set ⟨b, k⟩ =
    ⟨(ms.foldl Marking.set ⟨b, 0⟩).bitmap, k + (ms.foldl Marking.set ⟨b, 0⟩).applied⟩ := by
  induction ms using List.reverseRecOn with
  | nil => rfl
  | append_singleton ms m ih =>
      simp only [List.foldl_append, List.foldl_cons, List.foldl_nil, ih]
      generalize ms.foldl Marking.set ⟨b, 0⟩ = s
      unfold Marking.set
      dsimp only
      split <;> rfl

end Bits

namespace SegmentFile

variable {tids : SegmentId → List Tid} {f g : SegmentFile}

/-- A new bitmap subversion with the bits at `ms`. -/
def markRows (f : SegmentFile) (ms : List ℕ) : SegmentFile :=
  let s := ms.foldl Marking.set ⟨f.bitmap, f.deleteCount⟩
  f.setBitmap s.bitmap s.applied

@[simp] theorem markRows_mapping (ms : List ℕ) : (f.markRows ms).mapping = f.mapping := rfl

/-- The segment files that flushes, rebuilds and merges produce, with bits set at any time. -/
inductive Chain (tids : SegmentId → List Tid) : SegmentFile → Prop
  | flush (sid : SegmentId) (bitmap : ℕ → Bool) (version : ℕ) :
      Chain tids (.flush sid (tids sid) bitmap version)
  | markRows {f : SegmentFile} (hf : Chain tids f) (ms : List ℕ)
      (hms : ∀ m ∈ ms, m < f.mapping.length) : Chain tids (f.markRows ms)
  | rebuild {f : SegmentFile} (hf : Chain tids f) (snapshot : ℕ → Bool) (version : ℕ)
      (hsnap : ∀ i, snapshot i = true → f.bitmap i = true) :
      Chain tids (f.rebuild snapshot f.bitmap version)
  | merge {f g : SegmentFile} (hf : Chain tids f) (hg : Chain tids g)
      (hadj : f.endSid + 1 = g.startSid) (version : ℕ) : Chain tids (f.merge g version)

theorem Chain.descends (h : Chain tids f) : f.Descends tids := by
  induction h with
  | flush sid bitmap version => exact .flush sid bitmap version
  | markRows _ ms _ ih => exact ih.setBitmap _ _
  | rebuild _ snapshot version _ ih => exact ih.rebuild snapshot _ version
  | merge _ _ hadj version ihf ihg => exact ihf.merge ihg hadj version

/-- The delete count is the number of set bits. -/
def Counted (f : SegmentFile) : Prop := f.deleteCount = countBits f.bitmap f.mapping.length

theorem Counted.markRows (h : f.Counted) {ms : List ℕ} (hms : ∀ m ∈ ms, m < f.mapping.length) :
    (f.markRows ms).Counted := by
  have h0 : countBits (fun _ => false) f.mapping.length = 0 := by simp [countBits]
  have hc : Marking.Counts f.mapping.length (fun _ => false) ⟨f.bitmap, f.deleteCount⟩ := by
    rw [Marking.Counts, h0, Nat.zero_add]
    exact h.symm
  have := hc.foldl_set hms
  rw [Marking.Counts, h0, Nat.zero_add] at this
  exact this.symm

/-- A file with the bitmap of one that has its rows. -/
theorem Counted.reread (h : g.Counted) (hm : g.mapping = f.mapping) :
    (f.setBitmap g.bitmap g.deleteCount).Counted := by
  rwa [Counted, hm] at h

/-- Whatever count the file had, a rebuild counts anew. -/
theorem rebuild_counted (ht : Tiles 0 f.offsets f.mapping.length) (snapshot fresh : ℕ → Bool)
    (version : ℕ) : (f.rebuild snapshot fresh version).Counted := by
  have hc := rebuild_copied snapshot fresh ht
  have hlen := length_compact (p := snapshot) 0 f.mapping
  rw [kept_zero, Nat.add_zero, Nat.zero_add] at hlen
  rw [Counted, rebuild_mapping ht, hlen]
  refine hc.deleteCount.trans (countBits_kept fun j hj hs => ?_).symm
  rw [Bool.eq_iff_iff]
  constructor
  · intro hb
    obtain ⟨k, -, hk, hkj, hf⟩ := (hc.bitmap _).mp hb
    exact kept_inj hk hs hkj ▸ hf
  · exact fun hf => (hc.bitmap _).mpr ⟨j, hj, hs, rfl, hf⟩

theorem Counted.join (hf : f.Counted) (hg : g.Counted) {start last : SegmentId} {version : ℕ} :
    (join f g start last version).Counted := by
  have hlen : (SegmentFile.join f g start last version).mapping.length =
      f.mapping.length + g.mapping.length := List.length_append
  rw [Counted, hlen, countBits_add]
  refine congrArg₂ (· + ·) (hf.trans (countBits_congr fun i hi => ?_))
    (hg.trans (countBits_congr fun i hi => ?_))
  · simp [SegmentFile.join, hi]
  · simp [SegmentFile.join, hi]

theorem Counted.merge (hf : f.Counted) (hg : g.Counted) (version : ℕ) :
    (f.merge g version).Counted := by
  unfold SegmentFile.merge
  split
  · exact hf.join hg
  · exact hg.join hf

theorem Chain.counted (h : Chain tids f) : f.Counted := by
  induction h with
  | flush sid bitmap version => simp [Counted, SegmentFile.flush, memtableRows]
  | markRows _ ms hms ih => exact ih.markRows hms
  | rebuild hf snapshot version _ _ => exact rebuild_counted hf.descends.tiles snapshot _ version
  | merge _ _ _ version ihf ihg => exact ihf.merge ihg version

/-- The entries at a stretch of positions, when a predicate tells them from the others. -/
theorem filter_eq_slice {α : Type*} {l : List α} {p : α → Bool} {lo hi : ℕ} (hle : lo ≤ hi)
    (hp : ∀ i a, l[i]? = some a → (p a = true ↔ lo ≤ i ∧ i < hi)) :
    l.filter p = (l.drop lo).take (hi - lo) := by
  have hsplit : l = l.take lo ++ ((l.drop lo).take (hi - lo) ++ l.drop hi) := by
    have : (l.drop lo).drop (hi - lo) = l.drop hi := by
      rw [List.drop_drop, Nat.add_sub_cancel' hle]
    rw [← this, List.take_append_drop, List.take_append_drop]
  have hfront : (l.take lo).filter p = [] := by
    rw [List.filter_eq_nil_iff]
    intro a ha hpa
    obtain ⟨i, hi', hl⟩ := List.mem_take_iff_getElem.mp ha
    have hl' : l[i]? = some a := List.getElem?_eq_some_iff.mpr ⟨by omega, hl⟩
    have := ((hp i a hl').mp hpa).1
    omega
  have hback : (l.drop hi).filter p = [] := by
    rw [List.filter_eq_nil_iff]
    intro a ha hpa
    obtain ⟨i, hl⟩ := List.mem_iff_getElem?.mp ha
    rw [List.getElem?_drop] at hl
    have := ((hp _ a hl).mp hpa).2
    omega
  have hmid : ((l.drop lo).take (hi - lo)).filter p = (l.drop lo).take (hi - lo) := by
    rw [List.filter_eq_self]
    intro a ha
    obtain ⟨i, hl⟩ := List.mem_iff_getElem?.mp ha
    have hi' : i < hi - lo := (List.getElem?_eq_some_iff.mp hl).1.trans_le (List.length_take_le _ _)
    rw [List.getElem?_take_of_lt hi', List.getElem?_drop] at hl
    exact (hp _ a hl).mpr ⟨Nat.le_add_right _ _, by omega⟩
  conv_lhs => rw [hsplit]
  rw [List.filter_append, List.filter_append, hfront, hback, hmid, List.nil_append, List.append_nil]

/-- The slice of a segment id is what the mapping has of that memtable. -/
theorem Descends.slice_eq_filter (h : f.Descends tids) {o : SegmentOffsetRange}
    (ho : o ∈ f.offsets) : f.slice o = f.mapping.filter (·.sid = o.sid) := by
  refine (filter_eq_slice (h.tiles.mem ho).2.1 fun i row hi => ?_).symm
  rw [decide_eq_true_eq]
  exact h.sid_eq_iff ho hi

section MoreMarked

variable {callback : Tid → Bool} {s : SegmentVacuum} {rec : VacuumTombstones}

/-- A new subversion with bits of rows set. -/
def MoreMarked (f f' : SegmentFile) : Prop :=
  ∃ ms : List ℕ, (∀ m ∈ ms, m < f.mapping.length) ∧ f' = f.markRows ms

namespace MoreMarked

variable {f' : SegmentFile}

theorem mapping (h : MoreMarked f f') : f'.mapping = f.mapping := by
  obtain ⟨ms, -, rfl⟩ := h
  rfl

theorem counted (h : MoreMarked f f') (hf : f.Counted) : f'.Counted := by
  obtain ⟨ms, hms, rfl⟩ := h
  exact hf.markRows hms

theorem chain (h : MoreMarked f f') (hf : Chain tids f) : Chain tids f' := by
  obtain ⟨ms, hms, rfl⟩ := h
  exact hf.markRows ms hms

end MoreMarked

theorem moreMarked_of_sets {s : Marking} (h : Sets f.mapping.length ⟨f.bitmap, f.deleteCount⟩ s) :
    MoreMarked f (f.setBitmap s.bitmap s.applied) := by
  obtain ⟨ms, hms, rfl⟩ := h
  exact ⟨ms, hms, rfl⟩

/-- The loop of VACUUM sets bits and counts them. -/
theorem sets_next {i : ℕ} {s' : SegmentVacuum} {row : MappedRow} {s₀ : Marking}
    (h : Sets f.mapping.length s₀ ⟨s.bitmap, s.deleteCount⟩) (hi : i < f.mapping.length)
    (hs : s.next f callback i row = some s') :
    Sets f.mapping.length s₀ ⟨s'.bitmap, s'.deleteCount⟩ := by
  unfold SegmentVacuum.next at hs
  split at hs
  case isFalse =>
    obtain rfl := Option.some.inj hs
    exact h
  case isTrue hd =>
    have hb : s.bitmap i = false := by simpa using (Bool.and_eq_true_iff.mp hd).1
    have hset := h.set hi
    rw [Marking.set, if_neg (Bool.not_eq_true _ ▸ hb)] at hset
    split at hs
    · obtain rfl := Option.some.inj hs
      exact hset
    · dsimp only at hs
      split at hs
      · cases hs
      · obtain rfl := Option.some.inj hs
        exact hset

theorem sets_loop {i : ℕ} {s' : SegmentVacuum} {rows : List MappedRow} {s₀ : Marking}
    (h : Sets f.mapping.length s₀ ⟨s.bitmap, s.deleteCount⟩)
    (hi : i + rows.length ≤ f.mapping.length)
    (hs : SegmentVacuum.loop f callback s i rows = some s') :
    Sets f.mapping.length s₀ ⟨s'.bitmap, s'.deleteCount⟩ := by
  induction rows generalizing i s with
  | nil =>
      obtain rfl := Option.some.inj hs
      exact h
  | cons row rows ih =>
      rw [List.length_cons] at hi
      obtain ⟨s₁, hs₁, hs'⟩ := Option.bind_eq_some_iff.mp hs
      exact ih (sets_next h (by omega) hs₁) (by omega) hs'

/-- The subversion that VACUUM writes. -/
theorem moreMarked_vacuum (hs : f.vacuum callback = some s) :
    MoreMarked f (f.setBitmap s.bitmap s.deleteCount) := by
  apply moreMarked_of_sets (s := ⟨s.bitmap, s.deleteCount⟩)
  exact sets_loop (s := .init f) (.refl _ _) (Nat.zero_add _).le hs

theorem Chain.vacuum (hf : Chain tids f) (hs : f.vacuum callback = some s) :
    Chain tids (f.setBitmap s.bitmap s.deleteCount) := (moreMarked_vacuum hs).chain hf

theorem sets_mark {o : SegmentOffsetRange} {s₀ s : Marking} (ho : o.endOffset ≤ f.mapping.length)
    (hs : o.startOffset ≤ f.mapping.length) (h : Sets f.mapping.length s₀ s) :
    Sets f.mapping.length s₀ (rec.mark f o s) := by
  unfold VacuumTombstones.mark
  split
  · exact h.fast ho
  · apply h.walk
    rw [List.length_map, slice, List.length_take, List.length_drop]
    omega

/-- The subversion that the redo of a record writes. -/
theorem moreMarked_applyToSegment (ht : Tiles 0 f.offsets f.mapping.length) :
    MoreMarked f (rec.applyToSegment f) := by
  unfold VacuumTombstones.applyToSegment
  split
  case h_1 => exact ⟨[], by simp, rfl⟩
  case h_2 o ho =>
    have hm := ht.mem (offsetOf_mem ho).1
    have hsets : Sets f.mapping.length ⟨f.bitmap, 0⟩ (rec.mark f o ⟨f.bitmap, 0⟩) :=
      sets_mark hm.2.2 (hm.2.1.trans hm.2.2) (.refl _ _)
    obtain ⟨ms, hms, hs⟩ := hsets
    refine ⟨ms, hms, ?_⟩
    rw [SegmentFile.markRows, foldl_set_add, hs]

theorem Chain.applyToSegment (hf : Chain tids f) : Chain tids (rec.applyToSegment f) :=
  (moreMarked_applyToSegment hf.descends.tiles).chain hf

end MoreMarked

/-- Two memtables, the second the larger. -/
def demoRows : SegmentId → List Tid
  | 4 => [7]
  | 5 => [8, 9]
  | _ => []

def demoLower : SegmentFile := .flush 4 (demoRows 4) noBits 1

def demoUpper : SegmentFile := .flush 5 (demoRows 5) noBits 1

/-- The larger one comes first. -/
def demoMixed : SegmentFile := demoLower.merge demoUpper 1

theorem chain_demoLower : Chain demoRows demoLower := .flush 4 noBits 1

theorem chain_demoUpper : Chain demoRows demoUpper := .flush 5 noBits 1

theorem chain_demoMixed : Chain demoRows demoMixed :=
  chain_demoLower.merge chain_demoUpper rfl 1

end SegmentFile

end VectorLsm
