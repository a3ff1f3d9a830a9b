import VectorLsm.InMemory.Groups
import VectorLsm.Lib.Compact

/-! # Deletions carried over from a predecessor

The slice of a segment id in a new segment is that of its predecessor with masked rows dropped.
The pass over the two matches each row of the new slice with the first row of the old one that its
tid meets. A dropped row whose heap slot was used again is taken for the later row of the same tid.
-/

namespace VectorLsm.InMemory

open Subsequence Compact

/-- A new segment and a predecessor, of which the rows in `drop` are gone. -/
structure Succeeds (new old : Arrays) (newOffsets oldOffsets : List SegmentOffsetRange)
    (drop : ℕ → Bool) : Prop where
  newTable : new.offsets = some newOffsets
  oldTable : old.offsets = some oldOffsets
  tiles : Tiles 0 newOffsets new.map.length
  masked : ∀ i, drop i = true → old.bitmap i = true
  slices : ∀ n ∈ newOffsets, ∀ o, oldOffsets.find? (·.sid = n.sid) = some o →
    sliceOf new.map n = compact drop o.startOffset (sliceOf old.map o)

/-- The position in the new slice of the row at `p` of the old one. -/
def newPosition (drop : ℕ → Bool) (o : SegmentOffsetRange) (p : ℕ) : ℕ :=
  kept drop (o.startOffset + p) - kept drop o.startOffset

/-- The surviving rows masked in the predecessor are masked, no row live in it is, nothing else
changes, and the count is that of the bits newly set. -/
structure CarriesPredecessor (new old : Arrays) (newOffsets oldOffsets : List SegmentOffsetRange)
    (drop : ℕ → Bool) : Prop where
  mask : ∀ n ∈ newOffsets, ∀ o, oldOffsets.find? (·.sid = n.sid) = some o → ∀ p row,
    (sliceOf old.map o)[p]? = some row → drop (o.startOffset + p) = false →
    ((new.unionSegment old ⟨new.bitmap, 0⟩).bitmap (n.startOffset + newPosition drop o p) = true ↔
      new.bitmap (n.startOffset + newPosition drop o p) = true ∨
        old.bitmap (o.startOffset + p) = true)
  other : ∀ k, (∀ n ∈ newOffsets, (∃ o ∈ oldOffsets, o.sid = n.sid) →
      ¬ (n.startOffset ≤ k ∧ k < n.endOffset)) →
    (new.unionSegment old ⟨new.bitmap, 0⟩).bitmap k = new.bitmap k
  count : countBits (new.unionSegment old ⟨new.bitmap, 0⟩).bitmap new.map.length =
    countBits new.bitmap new.map.length + (new.unionSegment old ⟨new.bitmap, 0⟩).applied

/-- The tids of the new slice up to a row, found in order as early as they can be in the old one,
end at a row that is masked as the row itself is; rows masked in the new segment are left out. -/
def LeftmostAgrees (new old : Arrays) (newOffsets oldOffsets : List SegmentOffsetRange)
    (drop : ℕ → Bool) : Prop :=
  ∀ n ∈ newOffsets, ∀ o, oldOffsets.find? (·.sid = n.sid) = some o → ∀ p q row,
    (sliceOf old.map o)[p]? = some row → drop (o.startOffset + p) = false →
    new.bitmap (n.startOffset + newPosition drop o p) = false →
    Placed ((sliceOf new.map n).map (·.tid)) ((sliceOf old.map o).map (·.tid))
      (newPosition drop o p) q →
    old.bitmap (o.startOffset + q) = old.bitmap (o.startOffset + p)

section Walk

variable {old : ℕ → Bool} {s : Marking} {i m k n : ℕ} {rs rs' : List MappedRow}

theorem unionWalk_bitmap : (unionWalk old i m rs rs' s).bitmap k = true ↔ s.bitmap k = true ∨
    (m ≤ k ∧ ∃ q, Placed (rs'.map (·.tid)) (rs.map (·.tid)) (k - m) q ∧ old (i + q) = true) := by
  induction rs generalizing i m rs' s with
  | nil => simp [unionWalk, Placed]
  | cons r rs ih =>
      cases rs' with
      | nil => simp [unionWalk, Placed]
      | cons r' rs' =>
          rw [unionWalk, List.map_cons, List.map_cons]
          split
          case isTrue ht =>
            rw [ih, ← ht]
            have hset : (if old i then s.set m else s).bitmap k = true ↔
                s.bitmap k = true ∨ (k = m ∧ old i = true) := by
              split
              case isTrue h => rw [Marking.set_bitmap, and_iff_left h]
              case isFalse h => rw [or_iff_left fun h' => h h'.2]
            rw [hset, or_assoc]
            refine or_congr_right ?_
            simp only [placed_cons_self]
            constructor
            · rintro (⟨rfl, h⟩ | ⟨hle, q, hq, hb⟩)
              · exact ⟨le_rfl, 0, .inl ⟨Nat.sub_self k, rfl⟩, h⟩
              · refine ⟨Nat.le_of_succ_le hle, q + 1, .inr ⟨k - (m + 1), q, by omega, rfl, hq⟩, ?_⟩
                rwa [Nat.add_comm q, ← Nat.add_assoc]
            · rintro ⟨hle, q, ⟨hk, rfl⟩ | ⟨j, q, hk, rfl, hq⟩, hb⟩
              · exact .inl ⟨by omega, hb⟩
              · have hj : j = k - (m + 1) := by omega
                rw [Nat.add_comm q, ← Nat.add_assoc] at hb
                exact .inr ⟨by omega, q, hj ▸ hq, hb⟩
          case isFalse ht =>
            rw [ih]
            refine or_congr_right (and_congr_right fun _ => ?_)
            simp only [placed_cons_of_ne ht, List.map_cons]
            constructor
            · rintro ⟨q, hq, hb⟩
              refine ⟨q + 1, ⟨q, rfl, hq⟩, ?_⟩
              rwa [Nat.add_comm q, ← Nat.add_assoc]
            · rintro ⟨_, ⟨q, rfl, hq⟩, hb⟩
              rw [Nat.add_comm q, ← Nat.add_assoc] at hb
              exact ⟨q, hq, hb⟩

theorem unionWalk_counts {b : ℕ → Bool} (h : s.Counts n b) (hn : m + rs'.length ≤ n) :
    (unionWalk old i m rs rs' s).Counts n b := by
  induction rs generalizing i m rs' s with
  | nil => exact h
  | cons r rs ih =>
      cases rs' with
      | nil => exact h
      | cons r' rs' =>
          rw [List.length_cons] at hn
          rw [unionWalk]
          split
          · apply ih
            · split
              · exact h.set (by omega)
              · exact h
            · omega
          · apply ih h
            rw [List.length_cons]
            omega

end Walk

section Segment

variable {new old : Arrays} {newOffsets oldOffsets : List SegmentOffsetRange} {drop : ℕ → Bool}
  {s : Marking} {k : ℕ}

/-- The bit at `k` is set for the slice `n` of the new segment. -/
def Carried (new old : Arrays) (oldOffsets : List SegmentOffsetRange) (n : SegmentOffsetRange)
    (k : ℕ) : Prop :=
  ∃ o, oldOffsets.find? (·.sid = n.sid) = some o ∧ n.startOffset ≤ k ∧
    ∃ q, Placed ((sliceOf new.map n).map (·.tid)) ((sliceOf old.map o).map (·.tid))
      (k - n.startOffset) q ∧ old.bitmap (o.startOffset + q) = true

theorem unionSegment_bitmap (hn : new.offsets = some newOffsets)
    (ho : old.offsets = some oldOffsets) : (new.unionSegment old s).bitmap k = true ↔
      s.bitmap k = true ∨ ∃ n ∈ newOffsets, Carried new old oldOffsets n k := by
  unfold Arrays.unionSegment
  rw [hn, ho]
  dsimp only
  clear hn
  induction newOffsets generalizing s with
  | nil => simp
  | cons n ns ih =>
      have hsplit : (∃ n' ∈ n :: ns, Carried new old oldOffsets n' k) ↔
          Carried new old oldOffsets n k ∨ ∃ n' ∈ ns, Carried new old oldOffsets n' k := by simp
      rw [List.foldl_cons, ih, hsplit, ← or_assoc]
      refine or_congr_left ?_
      unfold Carried
      split
      case h_1 hnone => simp [hnone]
      case h_2 o hsome => simp [hsome, unionWalk_bitmap]

theorem unionSegment_counts {b : ℕ → Bool} (hn : new.offsets = some newOffsets)
    (ho : old.offsets = some oldOffsets) (ht : Tiles 0 newOffsets new.map.length)
    (h : s.Counts new.map.length b) :
    (new.unionSegment old s).Counts new.map.length b := by
  have hle : ∀ n ∈ newOffsets, n.startOffset + (sliceOf new.map n).length ≤ new.map.length := by
    intro n hn
    have hm := ht.mem hn
    have := length_sliceOf_le new.map n
    omega
  unfold Arrays.unionSegment
  rw [hn, ho]
  dsimp only
  clear hn ht
  induction newOffsets generalizing s with
  | nil => exact h
  | cons n ns ih =>
      rw [List.foldl_cons]
      apply ih _ fun n' hn' => hle n' (List.mem_cons_of_mem n hn')
      split
      case h_1 => exact h
      case h_2 o _ => exact unionWalk_counts h (hle n List.mem_cons_self)

end Segment

section Compaction

variable {α : Type*} {p : ℕ → Bool}

/-- The new position of an entry, counted from the start of the stretch. -/
theorem getElem?_compact_from (l : List α) {n i : ℕ} (hi : p (n + i) = false) :
    (compact p n l)[kept p (n + i) - kept p n]? = l[i]? := by
  induction l generalizing n i with
  | nil => simp
  | cons a l ih =>
      have hk := kept_succ (p := p) n
      cases i with
      | zero =>
          rw [Nat.add_zero] at hi
          simp [compact, hi]
      | succ i =>
          have hn : n + (i + 1) = n + 1 + i := by omega
          have hmono : kept p (n + 1) ≤ kept p (n + 1 + i) := kept_mono (Nat.le_add_right _ _)
          rw [hn] at hi ⊢
          rw [List.getElem?_cons_succ, ← ih hi, compact]
          split
          case isTrue hp =>
            simp only [hp, if_true, Nat.add_zero] at hk
            rw [hk]
          case isFalse hp =>
            rw [if_neg hp] at hk
            have hs : kept p (n + 1 + i) - kept p n = kept p (n + 1 + i) - kept p (n + 1) + 1 := by
              omega
            rw [hs, List.getElem?_cons_succ]

theorem take_compact_from (l : List α) {n i : ℕ} (hi : i ≤ l.length) :
    (compact p n l).take (kept p (n + i) - kept p n) = compact p n (l.take i) := by
  have hlen := length_compact (p := p) n (l.take i)
  rw [List.length_take_of_le hi] at hlen
  have happ := compact_append (p := p) n (l.take i) (l.drop i)
  rw [List.take_append_drop] at happ
  rw [happ]
  exact List.take_left' (by omega)

end Compaction

section Carries

variable {new old : Arrays} {newOffsets oldOffsets : List SegmentOffsetRange} {drop : ℕ → Bool}
  {n o : SegmentOffsetRange} {p : ℕ} {row : MappedRow}

/-- A surviving row is in the new slice, and the pass finds a place for it in the old one. -/
theorem Succeeds.survivor (h : Succeeds new old newOffsets oldOffsets drop) (hn : n ∈ newOffsets)
    (ho : oldOffsets.find? (·.sid = n.sid) = some o) (hp : (sliceOf old.map o)[p]? = some row)
    (hd : drop (o.startOffset + p) = false) :
    (sliceOf new.map n)[newPosition drop o p]? = some row ∧
      ∃ q ≤ p, Placed ((sliceOf new.map n).map (·.tid)) ((sliceOf old.map o).map (·.tid))
        (newPosition drop o p) q := by
  have hslice := h.slices n hn o ho
  have hlt := (List.getElem?_eq_some_iff.mp hp).1
  have hrow : (sliceOf new.map n)[newPosition drop o p]? = some row := by
    rw [hslice, newPosition, getElem?_compact_from _ hd, hp]
  refine ⟨hrow, ?_⟩
  have hnew := (List.getElem?_eq_some_iff.mp hrow).1
  -- The new slice up to the row is the old one up to it, compacted.
  have hnext : newPosition drop o p + 1 =
      kept drop (o.startOffset + (p + 1)) - kept drop o.startOffset := by
    have hk := kept_succ (p := drop) (o.startOffset + p)
    have hmono : kept drop o.startOffset ≤ kept drop (o.startOffset + p) :=
      kept_mono (Nat.le_add_right _ _)
    rw [hd, if_neg Bool.false_ne_true] at hk
    rw [newPosition, ← Nat.add_assoc, hk]
    omega
  have hsub : (((sliceOf new.map n).map (·.tid)).take (newPosition drop o p + 1)).Sublist
      (((sliceOf old.map o).map (·.tid)).take (p + 1)) := by
    rw [← List.map_take, ← List.map_take, hslice, hnext, take_compact_from _ hlt]
    exact (compact_sublist _ _).map _
  obtain ⟨q, hq, hpl⟩ := exists_placed (by rwa [List.length_map])
    (by rw [List.length_map]; exact hlt) hsub
  exact ⟨q, Nat.le_of_lt_succ hq, hpl⟩

/-- A bit is set for the slice it lies in. -/
theorem Carried.lt {k : ℕ} (h : Carried new old oldOffsets n k) :
    n.startOffset ≤ k ∧ k < n.endOffset := by
  obtain ⟨o, -, hle, q, hq, -⟩ := h
  have hj := hq.1
  rw [List.length_map] at hj
  have := sliceOf_lt (List.getElem?_eq_getElem hj)
  omega

theorem Succeeds.carried_iff (h : Succeeds new old newOffsets oldOffsets drop)
    (hn : n ∈ newOffsets) (ho : oldOffsets.find? (·.sid = n.sid) = some o)
    (hp : (sliceOf old.map o)[p]? = some row) (hd : drop (o.startOffset + p) = false) :
    (∃ n' ∈ newOffsets, Carried new old oldOffsets n' (n.startOffset + newPosition drop o p)) ↔
      ∃ q, Placed ((sliceOf new.map n).map (·.tid)) ((sliceOf old.map o).map (·.tid))
        (newPosition drop o p) q ∧ old.bitmap (o.startOffset + q) = true := by
  have hin := sliceOf_lt (h.survivor hn ho hp hd).1
  constructor
  · rintro ⟨n', hn', hc⟩
    obtain rfl : n = n' := h.tiles.eq_of_mem hn hn' ⟨Nat.le_add_right _ _, hin⟩ hc.lt
    obtain ⟨o', ho', -, q, hq, hb⟩ := hc
    obtain rfl : o = o' := Option.some.inj (ho.symm.trans ho')
    rw [Nat.add_sub_cancel_left] at hq
    exact ⟨q, hq, hb⟩
  · rintro ⟨q, hq, hb⟩
    refine ⟨n, hn, o, ho, Nat.le_add_right _ _, q, ?_, hb⟩
    rwa [Nat.add_sub_cancel_left]

/-- Adoption carries predecessor deletions exactly when each surviving row meets, as early as
possible, a row of the predecessor that is masked as it is. -/
theorem carriesPredecessor_iff (new old : Arrays)
    (newOffsets oldOffsets : List SegmentOffsetRange) (drop : ℕ → Bool)
    (h : Succeeds new old newOffsets oldOffsets drop) :
    CarriesPredecessor new old newOffsets oldOffsets drop ↔
      LeftmostAgrees new old newOffsets oldOffsets drop := by
  constructor
  · intro hc n hn o ho p q row hp hd hclear hq
    have hm := hc.mask n hn o ho p row hp hd
    rw [unionSegment_bitmap h.newTable h.oldTable, h.carried_iff hn ho hp hd] at hm
    simp only [hclear, Bool.false_eq_true, false_or] at hm
    rw [Bool.eq_iff_iff, ← hm]
    constructor
    · exact fun hb => ⟨q, hq, hb⟩
    · rintro ⟨q', hq', hb⟩
      rwa [hq.unique hq']
  · intro hagree
    constructor
    case mask =>
      intro n hn o ho p row hp hd
      rw [unionSegment_bitmap h.newTable h.oldTable, h.carried_iff hn ho hp hd]
      dsimp only
      cases hclear : new.bitmap (n.startOffset + newPosition drop o p) with
      | true => simp
      | false =>
          simp only [Bool.false_eq_true, false_or]
          obtain ⟨q, -, hq⟩ := (h.survivor hn ho hp hd).2
          rw [← hagree n hn o ho p q row hp hd hclear hq]
          constructor
          · rintro ⟨q', hq', hb⟩
            rwa [hq.unique hq']
          · exact fun hb => ⟨q, hq, hb⟩
    case other =>
      intro k hk
      rw [Bool.eq_iff_iff, unionSegment_bitmap h.newTable h.oldTable]
      refine or_iff_left ?_
      rintro ⟨n, hn, hc⟩
      obtain ⟨o, ho, -⟩ := id hc
      refine hk n hn ⟨o, List.mem_of_find?_eq_some ho, ?_⟩ hc.lt
      simpa using List.find?_some ho
    case count => exact unionSegment_counts h.newTable h.oldTable h.tiles rfl

/-- Where no dropped row has the tid of a later row that survives, each row finds itself. -/
theorem placed_compact {l : List MappedRow} {n i q : ℕ} {row : MappedRow}
    (hnew : ∀ d j r r', l[d]? = some r → l[j]? = some r' → d < j → drop (n + d) = true →
      drop (n + j) = false → r.tid ≠ r'.tid)
    (hi : l[i]? = some row) (hd : drop (n + i) = false)
    (hq : Placed ((compact drop n l).map (·.tid)) (l.map (·.tid))
      (kept drop (n + i) - kept drop n) q) : q = i := by
  induction l generalizing n i q with
  | nil => simp at hi
  | cons a l ih =>
      have hk := kept_succ (p := drop) n
      have hrest : ∀ d j r r', l[d]? = some r → l[j]? = some r' → d < j →
          drop (n + 1 + d) = true → drop (n + 1 + j) = false → r.tid ≠ r'.tid := by
        intro d j r r' hr hr' hlt hd hj
        have hnd : ∀ d, n + (d + 1) = n + 1 + d := fun d => by omega
        exact hnew (d + 1) (j + 1) r r' hr hr' (by omega) (by rwa [hnd]) (by rwa [hnd])
      rw [compact] at hq
      split at hq
      case isTrue ha =>
        simp only [ha, if_true, Nat.add_zero] at hk
        cases i with
        | zero =>
            rw [Nat.add_zero, ha] at hd
            cases hd
        | succ i =>
            have hn : n + (i + 1) = n + 1 + i := by omega
            rw [hn] at hd hq
            rw [← hk] at hq
            -- The dropped row is not taken for the first of the others.
            cases hc : compact drop (n + 1) l with
            | nil =>
                rw [hc] at hq
                exact absurd hq not_placed_nil_left
            | cons b c =>
                obtain ⟨k, hkd, hb, -⟩ := exists_of_getElem?_compact (w := 0) (by rw [hc]; rfl)
                have hne : a.tid ≠ b.tid := by
                  refine hnew 0 (k + 1) a b rfl hb (by omega) ha ?_
                  rwa [Nat.add_comm k, ← Nat.add_assoc]
                rw [hc, List.map_cons, List.map_cons, placed_cons_of_ne hne] at hq
                obtain ⟨q', rfl, hq'⟩ := hq
                rw [← List.map_cons, ← hc] at hq'
                rw [ih hrest hi hd hq']
      case isFalse ha =>
        rw [if_neg ha] at hk
        rw [List.map_cons, List.map_cons, placed_cons_self] at hq
        cases i with
        | zero =>
            rcases hq with ⟨-, rfl⟩ | ⟨j, q', hj, rfl, -⟩
            · rfl
            · rw [Nat.add_zero, Nat.sub_self] at hj
              omega
        | succ i =>
            have hn : n + (i + 1) = n + 1 + i := by omega
            have hmono : kept drop (n + 1) ≤ kept drop (n + 1 + i) :=
              kept_mono (Nat.le_add_right _ _)
            rw [hn] at hd hq
            rcases hq with ⟨hj, -⟩ | ⟨j, q', hj, rfl, hq'⟩
            · omega
            · have hj' : j = kept drop (n + 1 + i) - kept drop (n + 1) := by omega
              rw [hj'] at hq'
              rw [ih hrest hi hd hq']

theorem carriesPredecessor_of_not_recycled (h : Succeeds new old newOffsets oldOffsets drop)
    (hnew : ∀ o ∈ oldOffsets, ∀ d j r r', (sliceOf old.map o)[d]? = some r →
      (sliceOf old.map o)[j]? = some r' → d < j → drop (o.startOffset + d) = true →
      drop (o.startOffset + j) = false → r.tid ≠ r'.tid) :
    CarriesPredecessor new old newOffsets oldOffsets drop := by
  rw [carriesPredecessor_iff new old newOffsets oldOffsets drop h]
  intro n hn o ho p q row hp hd hclear hq
  rw [h.slices n hn o ho] at hq
  rw [placed_compact (hnew o (List.mem_of_find?_eq_some ho)) hp hd hq]

/-- The first row is masked, its heap slot used again by the second. -/
def demoRecycled : Arrays where
  map := [⟨7, 4, 0⟩, ⟨7, 4, 1⟩]
  bitmap := fun i => decide (i = 0)
  offsets := some [⟨4, 0, 2⟩]
  index := ⟨4, 4, 1⟩
  acked := fun _ => false

/-- The masked row is gone. -/
def demoSuccessor : Arrays where
  map := [⟨7, 4, 1⟩]
  bitmap := fun _ => false
  offsets := some [⟨4, 0, 1⟩]
  index := ⟨4, 4, 2⟩
  acked := fun _ => false

theorem succeeds_demoSuccessor :
    Succeeds demoSuccessor demoRecycled [⟨4, 0, 1⟩] [⟨4, 0, 2⟩] (· == 0) where
  newTable := rfl
  oldTable := rfl
  tiles := ⟨rfl, by decide, rfl⟩
  masked := fun i hi => hi
  slices := by decide

theorem not_carriesPredecessor : ¬ ∀ (new old : Arrays)
    (newOffsets oldOffsets : List SegmentOffsetRange) (drop : ℕ → Bool),
    Succeeds new old newOffsets oldOffsets drop →
      CarriesPredecessor new old newOffsets oldOffsets drop := by
  intro h
  have hm := (h _ _ _ _ _ succeeds_demoSuccessor).mask ⟨4, 0, 1⟩ List.mem_cons_self ⟨4, 0, 2⟩
    rfl 1 ⟨7, 4, 1⟩ rfl rfl
  have hset : (demoSuccessor.unionSegment demoRecycled ⟨demoSuccessor.bitmap, 0⟩).bitmap 0 =
      true := by decide
  rcases hm.mp hset with hb | hb
  · cases hb
  · cases hb

theorem carriesPredecessor_iff_demoSuccessor :
    CarriesPredecessor demoSuccessor demoRecycled [⟨4, 0, 1⟩] [⟨4, 0, 2⟩] (· == 0) ↔
      LeftmostAgrees demoSuccessor demoRecycled [⟨4, 0, 1⟩] [⟨4, 0, 2⟩] (· == 0) :=
  carriesPredecessor_iff _ _ _ _ _ succeeds_demoSuccessor

end Carries

end VectorLsm.InMemory
