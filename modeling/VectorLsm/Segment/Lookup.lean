import VectorLsm.Segment.Chain
import Mathlib.Data.List.Sort

/-! # Lookup in an offset table

The redo of tombstones searches the table of a file as if it listed segment ids in ascending
order; a merge lists those of the larger segment first. The search agrees with a scan of the table
exactly when the table is ascending, and that is when each merge met the larger segment below.
-/

namespace VectorLsm

open SegmentFile

section Search

variable {offsets : List SegmentOffsetRange} {sid : SegmentId} {fuel lo hi oi i j : ℕ}

/-- One turn of the loop. -/
theorem offsetIndexForSid_turn {mid : ℕ} {m : SegmentOffsetRange} (hlt : lo < hi)
    (hmid : lo + (hi - 1 - lo) / 2 = mid) (hm : offsets[mid]? = some m) :
    offsetIndexForSid offsets sid (fuel + 1) lo hi =
      if m.sid = sid then some mid
      else if m.sid < sid then offsetIndexForSid offsets sid fuel (mid + 1) hi
      else offsetIndexForSid offsets sid fuel lo mid := by
  rw [offsetIndexForSid, if_pos hlt, hmid]
  dsimp only
  rw [hm]

/-- A hit lies between the bounds. -/
theorem offsetIndexForSid_bounds (h : offsetIndexForSid offsets sid fuel lo hi = some oi) :
    lo ≤ oi ∧ oi < hi := by
  induction fuel generalizing lo hi with
  | zero => cases h
  | succ fuel ih =>
      rw [offsetIndexForSid] at h
      split at h
      case isFalse => cases h
      case isTrue hlt =>
        dsimp only at h
        split at h
        case h_1 => cases h
        case h_2 =>
          split_ifs at h
          · obtain rfl := Option.some.inj h
            omega
          · have := ih h
            omega
          · have := ih h
            omega

/-- One more turn than there are entries left changes nothing. -/
theorem offsetIndexForSid_succ (h : hi - lo ≤ fuel) (hhi : hi ≤ offsets.length) :
    offsetIndexForSid offsets sid (fuel + 1) lo hi = offsetIndexForSid offsets sid fuel lo hi := by
  induction fuel generalizing lo hi with
  | zero =>
      have hle : ¬ lo < hi := by omega
      simp [offsetIndexForSid, hle]
  | succ fuel ih =>
      by_cases hlt : lo < hi
      case neg => simp [offsetIndexForSid, hlt]
      case pos =>
        have hm := List.getElem?_eq_getElem (l := offsets) (i := lo + (hi - 1 - lo) / 2) (by omega)
        rw [offsetIndexForSid_turn hlt rfl hm, offsetIndexForSid_turn hlt rfl hm,
          ih (by omega) hhi, ih (by omega) (by omega)]

/-- Between the bounds, the segment ids ascend. -/
def AscendsIn (offsets : List SegmentOffsetRange) (lo hi : ℕ) : Prop :=
  ∀ i j o o', offsets[i]? = some o → offsets[j]? = some o' → lo ≤ i → i < j → j < hi →
    o.sid < o'.sid

/-- Between the bounds, each entry is found. -/
def FindsIn (offsets : List SegmentOffsetRange) (fuel lo hi : ℕ) : Prop :=
  ∀ i o, offsets[i]? = some o → lo ≤ i → i < hi →
    offsetIndexForSid offsets o.sid fuel lo hi = some i

theorem FindsIn.of_ascends (h : AscendsIn offsets lo hi) (hf : hi - lo ≤ fuel)
    (hhi : hi ≤ offsets.length) : FindsIn offsets fuel lo hi := by
  intro i o ho hlo hlt
  induction fuel generalizing lo hi with
  | zero => omega
  | succ fuel ih =>
      obtain ⟨mid, hmid⟩ : ∃ mid, lo + (hi - 1 - lo) / 2 = mid := ⟨_, rfl⟩
      obtain ⟨m, hm⟩ : ∃ m, offsets[mid]? = some m :=
        ⟨_, List.getElem?_eq_getElem (by omega)⟩
      rw [offsetIndexForSid_turn (by omega) hmid hm]
      rcases Nat.lt_trichotomy i mid with hi' | rfl | hi'
      · have hlt' := h i mid o m ho hm hlo hi' (by omega)
        rw [if_neg hlt'.ne', if_neg hlt'.not_gt]
        exact ih (fun a b p q hp hq h1 h2 h3 => h a b p q hp hq h1 h2 (by omega)) (by omega)
          (by omega) hlo hi'
      · obtain rfl : o = m := Option.some.inj (ho.symm.trans hm)
        rw [if_pos rfl]
      · have hlt' := h mid i m o hm ho (by omega) hi' hlt
        rw [if_neg hlt'.ne, if_pos hlt']
        exact ih (fun a b p q hp hq h1 h2 h3 => h a b p q hp hq (by omega) h2 h3) (by omega)
          hhi hi' hlt

/-- The search sends the entries below the middle to the left, so that each is smaller, and those
above it to the right. -/
theorem AscendsIn.of_finds (h : FindsIn offsets fuel lo hi) (hhi : hi ≤ offsets.length) :
    AscendsIn offsets lo hi := by
  induction fuel generalizing lo hi with
  | zero =>
      intro i j o o' ho ho' hlo hij hj
      have := h i o ho hlo (by omega)
      cases this
  | succ fuel ih =>
      intro i j o o' ho ho' hlo hij hj
      obtain ⟨mid, hmid⟩ : ∃ mid, lo + (hi - 1 - lo) / 2 = mid := ⟨_, rfl⟩
      obtain ⟨m, hm⟩ : ∃ m, offsets[mid]? = some m :=
        ⟨_, List.getElem?_eq_getElem (by omega)⟩
      have hturn : ∀ i o, offsets[i]? = some o → lo ≤ i → i < hi →
          (if m.sid = o.sid then some mid
            else if m.sid < o.sid then offsetIndexForSid offsets o.sid fuel (mid + 1) hi
            else offsetIndexForSid offsets o.sid fuel lo mid) = some i := by
        intro i o ho hlo hi'
        rw [← offsetIndexForSid_turn (by omega) hmid hm]
        exact h i o ho hlo hi'
      have hleft : ∀ i o, offsets[i]? = some o → lo ≤ i → i < mid →
          o.sid < m.sid ∧ offsetIndexForSid offsets o.sid fuel lo mid = some i := by
        intro i o ho hlo hi'
        have ht := hturn i o ho hlo (by omega)
        split_ifs at ht with h1 h2
        · have := Option.some.inj ht
          omega
        · have := offsetIndexForSid_bounds ht
          omega
        · exact ⟨lt_of_le_of_ne (not_lt.mp h2) (Ne.symm h1), ht⟩
      have hright : ∀ i o, offsets[i]? = some o → mid < i → i < hi →
          m.sid < o.sid ∧ offsetIndexForSid offsets o.sid fuel (mid + 1) hi = some i := by
        intro i o ho hlo hi'
        have ht := hturn i o ho (by omega) hi'
        split_ifs at ht with h1 h2
        · have := Option.some.inj ht
          omega
        · exact ⟨h2, ht⟩
        · have := offsetIndexForSid_bounds ht
          omega
      rcases Nat.lt_trichotomy i mid with hi' | rfl | hi'
      · rcases Nat.lt_trichotomy j mid with hj' | rfl | hj'
        · have hrec : AscendsIn offsets lo mid :=
            ih (fun k o ho h1 h2 => (hleft k o ho h1 h2).2) (by omega)
          exact hrec i j o o' ho ho' hlo hij hj'
        · obtain rfl : o' = m := Option.some.inj (ho'.symm.trans hm)
          exact (hleft i o ho hlo hi').1
        · exact (hleft i o ho hlo hi').1.trans (hright j o' ho' hj' hj).1
      · obtain rfl : o = m := Option.some.inj (ho.symm.trans hm)
        exact (hright j o' ho' hij hj).1
      · have hrec : AscendsIn offsets (mid + 1) hi :=
          ih (fun k o ho h1 h2 => (hright k o ho (by omega) h2).2) hhi
        exact hrec i j o o' ho ho' (by omega) hij hj

end Search

namespace SegmentFile

variable {tids : SegmentId → List Tid} {f g : SegmentFile}

/-- The entries of the table are in the order of their segment ids. -/
def Ascending (f : SegmentFile) : Prop := (f.offsets.map (·.sid)).Pairwise (· < ·)

/-- `offset_index_for_sid` on the table of the file. -/
def offsetIndex (f : SegmentFile) (sid : SegmentId) : Option ℕ :=
  offsetIndexForSid f.offsets sid (f.endSid + 1 - f.startSid) 0 (f.endSid + 1 - f.startSid)

/-- Each segment id of the range is found at its own entry, the one a scan finds, and no other
segment id is found. -/
def LookupAgrees (f : SegmentFile) : Prop :=
  (∀ sid, f.startSid ≤ sid → sid ≤ f.endSid → ∃ i o, f.offsetIndex sid = some i ∧
      f.offsets[i]? = some o ∧ o.sid = sid ∧ f.offsets.findIdx? (·.sid = sid) = some i) ∧
    ∀ sid, sid < f.startSid ∨ f.endSid < sid → f.offsetIndex sid = none

theorem ascending_iff : f.Ascending ↔ AscendsIn f.offsets 0 f.offsets.length := by
  rw [Ascending, List.pairwise_map, List.pairwise_iff_getElem]
  constructor
  · intro h i j o o' ho ho' _ hij _
    obtain ⟨hi, rfl⟩ := List.getElem?_eq_some_iff.mp ho
    obtain ⟨hj, rfl⟩ := List.getElem?_eq_some_iff.mp ho'
    exact h i j hi hj hij
  · intro h i j hi hj hij
    exact h i j _ _ (List.getElem?_eq_getElem hi) (List.getElem?_eq_getElem hj) (Nat.zero_le i) hij
      hj

theorem Descends.length_offsets (h : f.Descends tids) :
    f.offsets.length = f.endSid + 1 - f.startSid := by
  have := h.sids.length_eq
  rwa [List.length_map, List.length_range'] at this

theorem Descends.mem_range (h : f.Descends tids) {i : ℕ} {o : SegmentOffsetRange}
    (ho : f.offsets[i]? = some o) : f.startSid ≤ o.sid ∧ o.sid ≤ f.endSid := by
  have hm : o.sid ∈ f.offsets.map (·.sid) := List.mem_map_of_mem (List.mem_of_getElem? ho)
  rw [h.sids.mem_iff, List.mem_range'_1] at hm
  have := h.range
  lia

/-- A scan finds each entry, since no segment id is listed twice. -/
theorem Descends.findIdx? (h : f.Descends tids) {i : ℕ} {o : SegmentOffsetRange}
    (ho : f.offsets[i]? = some o) : f.offsets.findIdx? (·.sid = o.sid) = some i := by
  obtain ⟨hi, rfl⟩ := List.getElem?_eq_some_iff.mp ho
  rw [List.findIdx?_eq_some_iff_getElem]
  refine ⟨hi, decide_eq_true rfl, fun j hji => ?_⟩
  have hnd := h.nodup
  rw [List.Nodup, List.pairwise_map, List.pairwise_iff_getElem] at hnd
  simpa using hnd j i (hji.trans hi) hi hji

/-- A merge has searched and scanned tables agree only if it put the lower segment first. -/
theorem merge_ascending_iff (hf : f.Descends tids) (hg : g.Descends tids)
    (hadj : f.endSid + 1 = g.startSid) (version : ℕ) :
    (f.merge g version).Ascending ↔
      g.mapping.length ≤ f.mapping.length ∧ f.Ascending ∧ g.Ascending := by
  have hshift : ∀ (os : List SegmentOffsetRange) n, (os.map (·.shift n)).map (·.sid) =
      os.map (·.sid) := by
    intro os n
    rw [List.map_map]
    rfl
  have hcross : ∀ a ∈ f.offsets.map (·.sid), ∀ b ∈ g.offsets.map (·.sid), a < b := by
    intro a ha b hb
    rw [hf.sids.mem_iff, List.mem_range'_1] at ha
    rw [hg.sids.mem_iff, List.mem_range'_1] at hb
    have := hf.range
    lia
  unfold SegmentFile.merge Ascending SegmentFile.join
  split
  case isTrue hle =>
    rw [List.map_append, hshift, List.pairwise_append, and_iff_right hle]
    exact and_congr_right fun _ => and_iff_left hcross
  case isFalse hlt =>
    rw [List.map_append, hshift, List.pairwise_append]
    refine iff_of_false ?_ fun h => hlt h.1
    rintro ⟨-, -, h⟩
    obtain ⟨o, ho, hos⟩ := hf.exists_offset le_rfl hf.range
    obtain ⟨p, hp, hps⟩ := hg.exists_offset le_rfl hg.range
    have h1 := h _ (List.mem_map_of_mem hp) _ (List.mem_map_of_mem ho)
    have h2 := hcross _ (List.mem_map_of_mem ho) _ (List.mem_map_of_mem hp)
    exact h1.asymm h2

theorem rebuild_ascending_iff (hf : f.Descends tids) (snapshot fresh : ℕ → Bool) (version : ℕ) :
    (f.rebuild snapshot fresh version).Ascending ↔ f.Ascending := by
  unfold Ascending
  rw [rebuild_offsets hf.tiles, List.map_map]
  rfl

theorem flush_ascending (sid : SegmentId) (ts : List Tid) (bitmap : ℕ → Bool) (version : ℕ) :
    (SegmentFile.flush sid ts bitmap version).Ascending := List.pairwise_singleton _ _

/-- Then entry `i` is that of the segment id `start_sid + i`. -/
theorem Descends.sids_of_ascending (h : f.Descends tids) (ha : f.Ascending) :
    f.offsets.map (·.sid) = List.range' f.startSid (f.endSid + 1 - f.startSid) :=
  h.sids.eq_of_sortedLE (ha.imp le_of_lt).sortedLE (List.sortedLE_range' _ _ _)

end SegmentFile

end VectorLsm
