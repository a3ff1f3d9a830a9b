import VectorLsm.Lib.TopK
import VectorLsm.Search.Machine

/-! # Combining the results of a search

`search_lsm_index` merges the result of the growing memtable with that of each sealed memtable,
and what comes of it with the result of the segments. A row that has been flushed while the
search holds its memtable is found on both sides, so the last merge passes over ids it has
already put out.
-/

namespace VectorLsm.Search

open TopK

variable {D : Type} [LinearOrder D] {k : ℕ} {out ps qs : List (DistancePair D)}

/-- `merge_top_k`, the loop of `merge_top_k_cpp` in the backend. -/
def mergeTopKPairs (topK : ℕ) (pairs₁ pairs₂ : List (DistancePair D)) : List (DistancePair D) :=
  mergeTopK (fun x y => decide (x ≤ y)) topK pairs₁ pairs₂

/-- A candidate goes to the output unless its id is already there. -/
def putOut (mergePair : List (DistancePair D)) (candidate : DistancePair D) :
    List (DistancePair D) :=
  if mergePair.any fun p => p.id == candidate.id then mergePair else mergePair ++ [candidate]

/-- The loop of `merge_top_k_dedup`. -/
def mergeTopKDedupLoop (topK : ℕ) (mergePair pairs₁ pairs₂ : List (DistancePair D)) :
    List (DistancePair D) :=
  if mergePair.length < topK then
    match pairs₁, pairs₂ with
    | [], [] => mergePair
    | p :: ps, [] => mergeTopKDedupLoop topK (putOut mergePair p) ps []
    | [], q :: qs => mergeTopKDedupLoop topK (putOut mergePair q) [] qs
    | p :: ps, q :: qs =>
        if p.distance ≤ q.distance then mergeTopKDedupLoop topK (putOut mergePair p) ps (q :: qs)
        else mergeTopKDedupLoop topK (putOut mergePair q) (p :: ps) qs
  else mergePair
termination_by pairs₁.length + pairs₂.length

/-- `merge_top_k_dedup`. -/
def mergeTopKDedup (topK : ℕ) (pairs₁ pairs₂ : List (DistancePair D)) : List (DistancePair D) :=
  mergeTopKDedupLoop topK [] pairs₁ pairs₂

/-- Steps 3 to 5 of `search_lsm_index`, from the results of the searches on. -/
def combine (k : ℕ) (gmtPairs : List (DistancePair D)) (smtPairs : List (List (DistancePair D)))
    (segmentPairs : List (DistancePair D)) : List (DistancePair D) :=
  mergeTopKDedup k (smtPairs.foldl (fun pair₁ smt => mergeTopKPairs k pair₁ smt) gmtPairs)
    segmentPairs

theorem mergeTopKPairs_eq (k : ℕ) (ps qs : List (DistancePair D)) :
    mergeTopKPairs k ps qs = (merged DistancePair.distance ps qs).take k := by
  unfold mergeTopKPairs
  induction k generalizing ps qs with
  | zero => rw [mergeTopK, List.take_zero]
  | succ k ih =>
      cases ps with
      | nil =>
          cases qs with
          | nil => rw [mergeTopK, merged_nil_left, List.take_nil]
          | cons q qs => rw [mergeTopK, ih, merged_nil_left, merged_nil_left, List.take_succ_cons]
      | cons p ps =>
          cases qs with
          | nil => rw [mergeTopK, ih, merged_nil_right, merged_nil_right, List.take_succ_cons]
          | cons q qs =>
              rw [mergeTopK, merged_cons_cons]
              simp only [decide_eq_true_eq]
              split
              · rw [ih, List.take_succ_cons]
              · rw [ih, List.take_succ_cons]

omit [LinearOrder D] in
theorem putOut_firsts (n : ℕ) (out rest : List (DistancePair D)) (p : DistancePair D)
    (hn : out.length < n) :
    putOut out p ++ (firsts DistancePair.id ((putOut out p).map DistancePair.id) rest).take
        (n - (putOut out p).length) =
      out ++ (firsts DistancePair.id (out.map DistancePair.id) (p :: rest)).take
        (n - out.length) := by
  have hany : (out.any fun q => q.id == p.id) = true ↔ p.id ∈ out.map DistancePair.id := by
    rw [List.any_eq_true, List.mem_map]
    exact exists_congr fun q => and_congr_right fun _ => beq_iff_eq
  by_cases hp : p.id ∈ out.map DistancePair.id
  · rw [putOut, if_pos (hany.mpr hp), firsts, if_pos hp]
  · rw [putOut, if_neg (fun h => hp (hany.mp h)), firsts, if_neg hp, List.length_append,
      List.length_singleton, List.map_append, List.map_singleton]
    obtain ⟨m, hm⟩ : ∃ m, n - out.length = m + 1 := ⟨n - out.length - 1, by omega⟩
    rw [hm, List.take_succ_cons, show n - (out.length + 1) = m by omega, List.append_assoc,
      List.singleton_append]

theorem mergeTopKDedupLoop_eq (topK : ℕ) (out ps qs : List (DistancePair D)) :
    mergeTopKDedupLoop topK out ps qs =
      out ++ (firsts DistancePair.id (out.map DistancePair.id)
        (merged DistancePair.distance ps qs)).take (topK - out.length) := by
  fun_induction mergeTopKDedupLoop topK out ps qs with
  | case1 out hlt => simp [firsts]
  | case2 out hlt p ps ih =>
      rw [ih, merged_nil_right, merged_nil_right, putOut_firsts topK out ps p hlt]
  | case3 out hlt q qs ih =>
      rw [ih, merged_nil_left, merged_nil_left, putOut_firsts topK out qs q hlt]
  | case4 out hlt p ps q qs hle ih =>
      rw [ih, merged_cons_cons, if_pos hle, putOut_firsts topK out _ p hlt]
  | case5 out hlt p ps q qs hle ih =>
      rw [ih, merged_cons_cons, if_neg hle, putOut_firsts topK out _ q hlt]
  | case6 out ps qs hge =>
      rw [show topK - out.length = 0 by omega, List.take_zero, List.append_nil]

theorem mergeTopKDedup_eq (topK : ℕ) (ps qs : List (DistancePair D)) :
    mergeTopKDedup topK ps qs =
      (firsts DistancePair.id [] (merged DistancePair.distance ps qs)).take topK := by
  rw [mergeTopKDedup, mergeTopKDedupLoop_eq]
  rfl

/-- What is searched, and the result of its search. -/
structure Searched (D : Type) where
  rows : List (DistancePair D)
  pairs : List (DistancePair D)

/-- The result of a search is the `k` best rows. -/
def Searched.Best (k : ℕ) (s : Searched D) : Prop :=
  Nearest DistancePair.distance k s.rows s.pairs

/-- The rows of a list of sources. -/
def allRows (sources : List (Searched D)) : List (DistancePair D) :=
  sources.flatMap Searched.rows

def allPairs (sources : List (Searched D)) : List (DistancePair D) :=
  sources.flatMap Searched.pairs

variable {gmt segments : Searched D} {smts : List (Searched D)}

/-- The merges of the sealed memtables keep the `k` best rows of all memtables so far. -/
theorem Searched.Best.foldl (hg : gmt.Best k) (hs : ∀ m ∈ smts, m.Best k) :
    Nearest DistancePair.distance k (allRows (gmt :: smts))
      ((smts.map Searched.pairs).foldl (fun pair₁ smt => mergeTopKPairs k pair₁ smt)
        gmt.pairs) := by
  induction smts generalizing gmt with
  | nil =>
      rw [allRows, List.flatMap_singleton]
      exact hg
  | cons m smts ih =>
      have hgm : Searched.Best k ⟨gmt.rows ++ m.rows, mergeTopKPairs k gmt.pairs m.pairs⟩ := by
        rw [Searched.Best, mergeTopKPairs_eq]
        exact Nearest.merge hg (hs m List.mem_cons_self) le_rfl le_rfl
      have := ih hgm fun m' hm' => hs m' (List.mem_cons_of_mem _ hm')
      simpa [allRows] using this

/-- A result taken for all that was searched. -/
def Searched.result (s : Searched D) : Searched D := ⟨s.pairs, s.pairs⟩

theorem Searched.Best.result {s : Searched D} (h : s.Best k) : s.result.Best k :=
  Nearest.self h.ordered h.length_le

/-- What the merges put out comes from the results, each pair no more often than there. -/
theorem Searched.Best.nodup_foldl (hg : gmt.Best k) (hs : ∀ m ∈ smts, m.Best k)
    (hids : ((allPairs (gmt :: smts)).map DistancePair.id).Nodup) :
    (((smts.map Searched.pairs).foldl (fun pair₁ smt => mergeTopKPairs k pair₁ smt)
      gmt.pairs).map DistancePair.id).Nodup := by
  have hres : Nearest DistancePair.distance k (allRows (gmt.result :: smts.map Searched.result))
      (((smts.map Searched.result).map Searched.pairs).foldl
        (fun pair₁ smt => mergeTopKPairs k pair₁ smt) gmt.result.pairs) := Searched.Best.foldl
    hg.result
    (by
      intro r hr
      obtain ⟨m, hm, rfl⟩ := List.mem_map.mp hr
      exact (hs m hm).result)
  rw [List.map_map] at hres
  obtain ⟨rest, hp, _⟩ := hres.split
  have hrows : allRows (gmt.result :: smts.map Searched.result) = allPairs (gmt :: smts) := by
    simp [allRows, allPairs, List.flatMap_map, Searched.result]
  rw [hrows] at hp
  have := (hp.map DistancePair.id).nodup_iff.mp hids
  rw [List.map_append, List.nodup_append] at this
  exact this.1

/-- The results of the memtables, no id in two of them, and of the segments combine to the `k`
best ids of all rows. -/
theorem combine_exact (hg : gmt.Best k) (hs : ∀ m ∈ smts, m.Best k) (hseg : segments.Best k)
    (hids : ((allPairs (gmt :: smts)).map DistancePair.id).Nodup)
    (hsegids : (segments.pairs.map DistancePair.id).Nodup) :
    NearestNames DistancePair.distance DistancePair.id k
      (allRows (gmt :: smts) ++ segments.rows)
      (combine k gmt.pairs (smts.map Searched.pairs) segments.pairs) := by
  rw [combine, mergeTopKDedup_eq]
  exact (Searched.Best.foldl hg hs).names hseg (Searched.Best.nodup_foldl hg hs hids) hsegids

/-- A growing memtable whose third row has been flushed since. -/
def demoGrowing : Searched ℕ where
  rows := [⟨7, 1⟩, ⟨2, 2⟩, ⟨4, 3⟩]
  pairs := [⟨2, 2⟩, ⟨4, 3⟩]

def demoSealed : Searched ℕ := ⟨[⟨4, 4⟩], [⟨4, 4⟩]⟩

def demoSegments : Searched ℕ := ⟨[⟨9, 5⟩, ⟨4, 3⟩, ⟨2, 6⟩], [⟨2, 6⟩, ⟨4, 3⟩]⟩

theorem combine_exact_demo :
    NearestNames DistancePair.distance DistancePair.id 2
      (allRows [demoGrowing, demoSealed] ++ demoSegments.rows)
      (combine 2 demoGrowing.pairs ([demoSealed].map Searched.pairs) demoSegments.pairs) := by
  have hg : demoGrowing.Best 2 :=
    ⟨by unfold Ordered; decide, by decide, [⟨7, 1⟩], by decide, by decide⟩
  have hs : demoSealed.Best 2 := ⟨by unfold Ordered; decide, by decide, [], by decide, by decide⟩
  have hseg : demoSegments.Best 2 :=
    ⟨by unfold Ordered; decide, by decide, [⟨9, 5⟩], by decide, by decide⟩
  exact combine_exact hg (by simpa using hs) hseg (by decide) (by decide)

end VectorLsm.Search
