import VectorLsm.Compaction.Inputs

/-! # The library takes what it is handed

Where index, bitmap, mapping and row count go together and a rebuild has a row left, the call of
the library succeeds, and its result has a vector for each row of the new mapping.
-/

namespace VectorLsm.Building

open Pool InMemory Compact

variable {I V : Type*} {cfg : Config I V} {vectors : I → List V} {x y : I} {bitmap : ℕ → Bool}
  {count : ℕ}

theorem mergeIndex_eq_some {k : Knowhere I V} {n : ℕ}
    (h : k.mergeIndex x bitmap count = some (y, n)) :
    ∃ ids vs, ids ≠ [] ∧ k.getVectorByIds x ids = some vs ∧ y = k.build vs := by
  unfold Knowhere.mergeIndex at h
  split at h
  · cases h
  · split at h
    · cases h
    · dsimp only at h
      split at h
      · cases h
      next hne =>
        obtain ⟨vs, hvs, he⟩ := Option.map_eq_some_iff.mp h
        exact ⟨_, vs, hne, hvs, (Prod.mk.inj he).1.symm⟩

theorem length_unmasked (vs : List V) :
    ((vs.zipIdx.filter fun v => !bitmap v.2).map (·.1)).length = kept bitmap vs.length := by
  rw [← compact_zipIdx, map_compact, List.zipIdx_map_fst]
  have h := length_compact (p := bitmap) 0 vs
  simpa using h

/-- `MergeIndex` on an index of `count` vectors, not all of them masked. -/
theorem mergeIndexOrError_ok (hk : Keeps cfg vectors) (hcount : cfg.knowhere.count x = count)
    (hleft : ∃ i < count, bitmap i = false) :
    ∃ y n, cfg.knowhere.mergeIndexOrError x bitmap count cfg.targetType = .ok (y, n) ∧
      cfg.knowhere.count y = kept bitmap count ∧ cfg.dim y = cfg.dim x := by
  have hlen : (vectors x).length = count := (hk.lawful.count x).symm.trans hcount
  obtain ⟨y, hy, hvec⟩ := mergeIndex_buildsInOrder hk.lawful (hk.hasRawData x) hlen hleft
  refine ⟨y, _, (Knowhere.mergeIndexOrError_eq_ok hk.targetType).mpr hy, ?_, ?_⟩
  · rw [hk.lawful.count, hvec, length_unmasked, hlen]
  · obtain ⟨ids, vs, hne, hvs, rfl⟩ := mergeIndex_eq_some hy
    exact hk.dim_build x ids vs hne hvs

theorem mergeTwoIndices_eq_some {k : Knowhere I V} {lcount scount n : ℕ} {lindex sindex : I}
    (h : k.mergeTwoIndices lindex lcount sindex scount = some (y, n)) :
    ∃ vs, k.add lindex vs = some y := by
  unfold Knowhere.mergeTwoIndices at h
  split at h
  · cases h
  · split at h
    · cases h
    · split at h
      · cases h
      · obtain ⟨vs, -, h⟩ := Option.bind_eq_some_iff.mp h
        obtain ⟨merged, hadd, h⟩ := Option.bind_eq_some_iff.mp h
        split at h
        · cases h
        · obtain ⟨rfl, -⟩ := Prod.mk.inj (Option.some.inj h)
          exact ⟨vs, hadd⟩

/-- `MergeTwoIndices` on two indexes of one dimension, the larger one first. -/
theorem mergeTwoIndicesOrError_ok (hk : Keeps cfg vectors) {lcount scount : ℕ} {lindex sindex : I}
    (hl : cfg.knowhere.count lindex = lcount) (hs : cfg.knowhere.count sindex = scount)
    (hle : scount ≤ lcount) (hd : cfg.dim lindex = cfg.dim sindex) :
    ∃ y n, cfg.knowhere.mergeTwoIndicesOrError cfg.dim lindex lcount sindex scount = .ok (y, n) ∧
      cfg.knowhere.count y = lcount + scount ∧ cfg.dim y = cfg.dim lindex := by
  subst hl hs
  rw [hk.lawful.count, hk.lawful.count] at hle ⊢
  obtain ⟨y, hy, hvec⟩ := mergeTwoIndices_appendsInOrder hk.lawful (hk.hasRawData lindex)
    (hk.hasRawData sindex) hle
  refine ⟨y, _, Knowhere.mergeTwoIndicesOrError_eq_ok.mpr ⟨hd, hy⟩, ?_, ?_⟩
  · rw [hk.lawful.count, hvec, List.length_append]
  · obtain ⟨vs, hadd⟩ := mergeTwoIndices_eq_some hy
    exact hk.dim_add lindex vs y hadd

/-- What a compaction hands to the library. -/
structure Handed (cfg : Config I V) (s : State I) (task : MergeTask) (fs : List SegmentFile) :
    Prop where
  versions : List.Forall₂ (OneVersion cfg s) task.olds fs
  dims : ∀ f ∈ fs, cfg.dim (s.index f.info) = cfg.columnDim
  left : task.operationType ≠ .merge → ∀ f ∈ fs, RowLeft f f.bitmap
  paired : task.operationType = .merge → task.segmentIdx1 ≠ none

variable {s : State I} {task : MergeTask} {fs fs' : List SegmentFile} {new f g : SegmentFile}

theorem length_rebuild {fresh : ℕ → Bool} (hw : Written f) :
    (f.rebuild f.bitmap fresh 0).mapping.length = kept f.bitmap f.mapping.length := by
  rw [SegmentFile.rebuild_mapping hw]
  have h := length_compact (p := f.bitmap) 0 f.mapping
  simpa using h

theorem length_merge {version : ℕ} :
    (f.merge g version).mapping.length = f.mapping.length + g.mapping.length := by
  unfold SegmentFile.merge
  split
  · exact List.length_append
  · exact List.length_append.trans (Nat.add_comm _ _)

theorem call_single {i : ℕ} (h : task.olds = [i]) : Building.call cfg s task [f] =
    some (cfg.knowhere.mergeIndexOrError (s.index f.info) f.bitmap (s.base.pool.seg i).vecCount
      cfg.targetType) := by
  simp only [Building.call, h]

theorem call_pair {i j : ℕ} (h : task.olds = [i, j]) : Building.call cfg s task [f, g] =
    some (if (s.base.pool.seg j).vecCount ≤ (s.base.pool.seg i).vecCount then
      cfg.knowhere.mergeTwoIndicesOrError cfg.dim (s.index f.info) (s.base.pool.seg i).vecCount
        (s.index g.info) (s.base.pool.seg j).vecCount
    else
      cfg.knowhere.mergeTwoIndicesOrError cfg.dim (s.index g.info) (s.base.pool.seg j).vecCount
        (s.index f.info) (s.base.pool.seg i).vecCount) := by
  simp only [Building.call, h]

/-- The call succeeds, and the index goes with what is written for it. -/
theorem Handed.call (hk : Keeps cfg vectors) (h : Handed cfg s task fs) :
    ∃ y n, Building.call cfg s task fs = some (.ok (y, n)) ∧ cfg.dim y = cfg.columnDim ∧
      ((∀ f ∈ fs, Written f) → ∀ fs' new, combine task fs fs' = some new →
        cfg.knowhere.count y = new.mapping.length) := by
  have hv := h.versions
  have hd := h.dims
  rcases olds_cases task with holds | ⟨b, hb, holds⟩
  · rw [holds] at hv
    obtain ⟨f, _, hf, hnil, rfl⟩ := List.forall₂_cons_left_iff.mp hv
    obtain rfl := List.forall₂_nil_left_iff.mp hnil
    -- a task of one slot is a rebuild
    have hop : task.operationType ≠ .merge := by
      intro hm
      obtain ⟨b, hb⟩ := Option.ne_none_iff_exists'.mp (h.paired hm)
      simp [MergeTask.olds, hm, hb] at holds
    obtain ⟨i, hi, hbit⟩ := h.left hop f List.mem_cons_self
    obtain ⟨y, n, hy, hcount, hdim⟩ :=
      mergeIndexOrError_ok hk hf.index ⟨i, hf.mapping ▸ hi, hbit⟩
    refine ⟨y, n, ?_, hdim.trans (hd f List.mem_cons_self), fun hw fs' new hc => ?_⟩
    · rw [call_single holds, hy]
    · unfold combine at hc
      split at hc
      case h_1 he =>
        obtain rfl := Option.some.inj hc
        obtain ⟨rfl, -⟩ := List.cons.inj he
        rw [hcount, ← hf.mapping, length_rebuild (hw f List.mem_cons_self)]
      case h_2 he => cases he
      case h_3 => cases hc
  · rw [holds] at hv
    obtain ⟨f, _, hf, htail, rfl⟩ := List.forall₂_cons_left_iff.mp hv
    obtain ⟨g, _, hg, hnil, rfl⟩ := List.forall₂_cons_left_iff.mp htail
    obtain rfl := List.forall₂_nil_left_iff.mp hnil
    have hdf := hd f List.mem_cons_self
    have hdg := hd g (List.mem_cons_of_mem f List.mem_cons_self)
    have hnew : ∀ fs' new, combine task [f, g] fs' = some new → new.mapping.length =
        (s.base.pool.seg task.segmentIdx0).vecCount + (s.base.pool.seg b).vecCount := by
      intro fs' new hc
      unfold combine at hc
      split at hc
      case h_1 he => cases he
      case h_2 he =>
        obtain rfl := Option.some.inj hc
        simp only [List.cons.injEq, and_true] at he
        obtain ⟨rfl, rfl⟩ := he
        rw [← hf.mapping, ← hg.mapping]
        exact length_merge
      case h_3 => cases hc
    rw [call_pair holds]
    split
    case isTrue hle =>
      obtain ⟨y, n, hy, hcount, hdim⟩ :=
        mergeTwoIndicesOrError_ok hk hf.index hg.index hle (hdf.trans hdg.symm)
      exact ⟨y, n, congrArg some hy, hdim.trans hdf, fun _ fs' new hc =>
        hcount.trans (hnew fs' new hc).symm⟩
    case isFalse hle =>
      obtain ⟨y, n, hy, hcount, hdim⟩ :=
        mergeTwoIndicesOrError_ok hk hg.index hf.index (Nat.le_of_not_le hle) (hdg.trans hdf.symm)
      refine ⟨y, n, congrArg some hy, hdim.trans hdg, fun _ fs' new hc => ?_⟩
      rw [hcount, hnew fs' new hc, Nat.add_comm]

end VectorLsm.Building
