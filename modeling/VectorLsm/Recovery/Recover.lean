import VectorLsm.Recovery.Machine

/-! # What a recovery rebuilds

The two loops of `recover_lsm_index_internal` in closed form, and when they stay inside their
arrays.
-/

namespace VectorLsm.Recovery

variable {last growingSid sid : SegmentId} {sids tracked : List SegmentId} {l : LSMIndex}
  {st : StatusPages} {files : List SegmentFileInfo}

theorem trackFlushed_eq (h : tracked.length ≤ memtableNum) : trackFlushed last tracked sids =
    if tracked.length + (sids.takeWhile (· ≤ last)).length ≤ memtableNum then
      some (tracked ++ sids.takeWhile (· ≤ last))
    else none := by
  induction sids generalizing tracked with
  | nil => simp [trackFlushed, h]
  | cons sid sids ih =>
      unfold trackFlushed
      split
      next hle =>
        rw [List.takeWhile_cons_of_pos (by simpa using hle)]
        split
        next hlt =>
          rw [ih (by rw [List.length_append]; exact hlt)]
          simp only [List.length_append, List.length_cons, List.length_nil, List.append_assoc,
            List.cons_append, List.nil_append]
          congr 1
          grind
        next hlt =>
          rw [if_neg]
          simp only [List.length_cons]
          omega
      next hle =>
        rw [List.takeWhile_cons_of_neg (by simpa using hle)]
        simp [h]

/-- The memtable becomes a sealed one. -/
def Sealed (last growingSid sid : SegmentId) : Prop := last < sid ∧ sid ≠ growingSid

instance : Decidable (Sealed last growingSid sid) := inferInstanceAs (Decidable (_ ∧ _))

theorem constructMemtable_of_le (h : sid ≤ last) :
    constructMemtable last growingSid l sid = some l := if_pos h

theorem constructMemtable_growing (h : last < growingSid) :
    constructMemtable last growingSid l growingSid =
      some { l with growing := .slot growingSid, nextSegmentId := growingSid + 1 } := by
  rw [constructMemtable, if_neg (not_le.mpr h), if_pos rfl]

theorem constructMemtable_sealed (h : Sealed last growingSid sid) :
    constructMemtable last growingSid l sid =
      if l.memtables.length < memtableNum then some { l with memtables := l.memtables ++ [sid] }
      else none := by
  rw [constructMemtable, if_neg (not_le.mpr h.1), if_neg h.2]

theorem constructMemtable_foldlM (h : l.memtables.length ≤ memtableNum) :
    sids.foldlM (constructMemtable last growingSid) l =
      if l.memtables.length + (sids.filter (Sealed last growingSid ·)).length ≤ memtableNum then
        some { l with
          memtables := l.memtables ++ sids.filter (Sealed last growingSid ·)
          growing := if last < growingSid ∧ growingSid ∈ sids then .slot growingSid else l.growing
          nextSegmentId :=
            if last < growingSid ∧ growingSid ∈ sids then growingSid + 1 else l.nextSegmentId }
      else none := by
  induction sids generalizing l with
  | nil => simp [h]
  | cons sid sids ih =>
      rw [List.foldlM_cons, Option.bind_eq_bind]
      rcases le_or_gt sid last with hle | hlt
      · -- The memtable is on disk.
        have hs : ¬ Sealed last growingSid sid := fun hs => absurd hs.1 (not_lt.mpr hle)
        have hmem : last < growingSid ∧ growingSid ∈ sid :: sids ↔
            last < growingSid ∧ growingSid ∈ sids := by
          grind
        rw [constructMemtable_of_le hle, Option.bind_some, ih h,
          List.filter_cons_of_neg (by simpa using hs)]
        simp only [hmem]
      by_cases heq : sid = growingSid
      · subst heq
        have hs : ¬ Sealed last sid sid := fun hs => hs.2 rfl
        have hmem : last < sid ∧ sid ∈ sid :: sids := ⟨hlt, List.mem_cons_self⟩
        rw [constructMemtable_growing hlt, Option.bind_some,
          ih (l := { l with growing := .slot sid, nextSegmentId := sid + 1 }) h,
          List.filter_cons_of_neg (by simpa using hs)]
        simp only [hmem, and_self, if_true, ite_self]
      · have hs : Sealed last growingSid sid := ⟨hlt, heq⟩
        have hmem : last < growingSid ∧ growingSid ∈ sid :: sids ↔
            last < growingSid ∧ growingSid ∈ sids := by
          grind
        rw [constructMemtable_sealed hs, List.filter_cons_of_pos (by simpa using hs)]
        split
        next hroom =>
          rw [Option.bind_some, ih (by rw [List.length_append]; exact hroom)]
          simp only [List.length_append, List.length_cons, List.length_nil, List.append_assoc,
            List.cons_append, List.nil_append, hmem]
          congr 1
          grind
        next hroom =>
          rw [if_neg, Option.bind_none]
          simp only [List.length_cons]
          omega

/-- The ids of the status array as recovery goes through them. -/
def ascending (st : StatusPages) : List SegmentId := (st.memtables.insertionSort (· ≥ ·)).reverse

theorem ascending_perm : (ascending st).Perm st.memtables :=
  (List.reverse_perm _).trans (List.perm_insertionSort _ _)

theorem ascending_pairwise : (ascending st).Pairwise (· ≤ ·) :=
  List.pairwise_reverse.mpr (List.pairwise_insertionSort (· ≥ ·) _)

theorem takeWhile_le_eq_filter (h : sids.Pairwise (· ≤ ·)) :
    sids.takeWhile (· ≤ last) = sids.filter (· ≤ last) := by
  induction sids with
  | nil => rfl
  | cons sid sids ih =>
      rw [List.pairwise_cons] at h
      by_cases hle : sid ≤ last
      · rw [List.takeWhile_cons_of_pos (by simpa using hle),
          List.filter_cons_of_pos (by simpa using hle), ih h.2]
      · rw [List.takeWhile_cons_of_neg (by simpa using hle), eq_comm, List.filter_eq_nil_iff]
        intro x hx
        rcases List.mem_cons.mp hx with rfl | hx
        · simpa using hle
        · have := h.1 x hx
          simp only [decide_eq_true_eq]
          lia

/-- No array of a recovery is read or written outside its bounds. -/
structure InBounds (st : StatusPages) (files : List SegmentFileInfo) : Prop where
  hasSids : st.memtables ≠ []
  hasFiles : files ≠ []
  sealed : ∀ last ∈ files.getLast?,
    (st.memtables.filter (Sealed last.endSid st.maxMemtableSid ·)).length ≤ memtableNum
  flushed : ∀ last ∈ files.getLast?, (st.memtables.filter (· ≤ last.endSid)).length ≤ memtableNum

/-- What a recovery that stays in bounds rebuilds; `top` is the largest id of the array. -/
def rebuilt (st : StatusPages) (last : SegmentId) (top : SegmentId) : LSMIndex where
  growing :=
    if last < st.maxMemtableSid ∧ st.maxMemtableSid ∈ st.memtables then .slot st.maxMemtableSid
    else .invalid
  memtables := (ascending st).filter (Sealed last st.maxMemtableSid ·)
  flushing := .idle
  flushedNotReleased := (ascending st).filter (· ≤ last)
  releasing := []
  nextSegmentId :=
    if last < st.maxMemtableSid ∧ st.maxMemtableSid ∈ st.memtables then st.maxMemtableSid + 1
    else top + 1

theorem recover_eq {f : SegmentFileInfo} {top : SegmentId} (hf : f ∈ files.getLast?)
    (ht : top ∈ (st.memtables.insertionSort (· ≥ ·)).head?) :
    recoverLsmIndexInternal st files =
      if (st.memtables.filter (· ≤ f.endSid)).length ≤ memtableNum ∧
          (st.memtables.filter (Sealed f.endSid st.maxMemtableSid ·)).length ≤ memtableNum then
        some (rebuilt st f.endSid top)
      else none := by
  have hlen : ∀ p : SegmentId → Bool,
      ((ascending st).filter p).length = (st.memtables.filter p).length := fun p =>
    (ascending_perm.filter p).length_eq
  unfold recoverLsmIndexInternal
  simp only [Option.mem_def.mp ht, Option.mem_def.mp hf]
  rw [← ascending, trackFlushed_eq (Nat.zero_le _), takeWhile_le_eq_filter ascending_pairwise]
  simp only [List.length_nil, Nat.zero_add, List.nil_append, hlen]
  by_cases hfl : (st.memtables.filter (· ≤ f.endSid)).length ≤ memtableNum
  · rw [if_pos hfl, Option.bind_eq_bind, Option.bind_some, constructMemtable_foldlM (Nat.zero_le _)]
    simp only [List.length_nil, Nat.zero_add, List.nil_append, hlen, hfl, true_and,
      ascending_perm.mem_iff]
    rfl
  · rw [if_neg hfl, if_neg fun h => hfl h.1]
    rfl

theorem head_insertionSort (h : st.memtables ≠ []) :
    ∃ top ∈ (st.memtables.insertionSort (· ≥ ·)).head?, top ∈ st.memtables ∧
      ∀ sid ∈ st.memtables, sid ≤ top := by
  have hp := List.perm_insertionSort (· ≥ ·) st.memtables
  have hs := List.pairwise_insertionSort (· ≥ ·) st.memtables
  cases hc : st.memtables.insertionSort (· ≥ ·) with
  | nil =>
      rw [hc] at hp
      exact absurd hp.symm.eq_nil h
  | cons top sids =>
      rw [hc] at hp hs
      refine ⟨top, rfl, hp.mem_iff.mp List.mem_cons_self, fun sid hsid => ?_⟩
      rcases List.mem_cons.mp (hp.mem_iff.mpr hsid) with rfl | hm
      · exact le_rfl
      · exact (List.pairwise_cons.mp hs).1 sid hm

/-- Recovery succeeds just where it stays in bounds. -/
theorem recover_isSome_iff : (recoverLsmIndexInternal st files).isSome ↔ InBounds st files := by
  constructor
  · intro h
    have hs : st.memtables ≠ [] := by
      intro hn
      simp [recoverLsmIndexInternal, hn] at h
    obtain ⟨top, ht, -⟩ := head_insertionSort hs
    cases hl : files.getLast? with
    | none => simp [recoverLsmIndexInternal, hl] at h
    | some f =>
        rw [recover_eq hl ht, Option.isSome_ite] at h
        refine ⟨hs, ?_, ?_, ?_⟩
        · rintro rfl
          exact absurd hl (by simp)
        · intro last hlast
          cases hl.symm.trans hlast
          exact h.2
        · intro last hlast
          cases hl.symm.trans hlast
          exact h.1
  · intro h
    obtain ⟨top, ht, -⟩ := head_insertionSort h.hasSids
    have hl := List.getLast?_eq_some_getLast h.hasFiles
    rw [recover_eq hl ht, if_pos ⟨h.flushed _ hl, h.sealed _ hl⟩]
    rfl

/-- What is known of a rebuilt index. -/
theorem recover_spec (h : recoverLsmIndexInternal st files = some l) :
    ∃ f ∈ files.getLast?, ∃ top ∈ st.memtables, (∀ sid ∈ st.memtables, sid ≤ top) ∧
      l = rebuilt st f.endSid top := by
  have hb : InBounds st files := recover_isSome_iff.mp (h ▸ rfl)
  obtain ⟨top, ht, hmem, hle⟩ := head_insertionSort hb.hasSids
  have hl := List.getLast?_eq_some_getLast hb.hasFiles
  rw [recover_eq hl ht, if_pos ⟨hb.flushed _ hl, hb.sealed _ hl⟩] at h
  exact ⟨_, hl, top, hmem, hle, (Option.some.inj h).symm⟩

end VectorLsm.Recovery
