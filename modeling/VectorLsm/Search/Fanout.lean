import VectorLsm.Lib.Tally
import VectorLsm.Lib.Transition
import VectorLsm.Search.Combine
import VectorLsm.Search.Library

/-! # The fan-out of a search over segments

Every segment is searched by a task of its own. A task turns the positions it finds into tids and
counts down, and the last one folds all results together. The library pads what it finds to
`topk`, and the tasks look the padding up like a position.
-/

namespace VectorLsm.Fanout

open TopK Tally Transition Search

/-- The fields of `SegmentSearchInfo` that say which rows there are. -/
structure Slots where
  bitmap : ℕ → Bool
  vecCount : ℕ
  vecCount_lt : vecCount < 2 ^ 32

/-- `SegmentSearchInfo`: the index as the distances of its rows to the query, the mapping with what
lies around the array. -/
structure SegmentSearchInfo (D : Type) extends Slots where
  index : ℕ → D
  map : ℤ → ℤ

/-- A C cast to `int`. -/
def toInt (n : ℤ) : ℤ := n.bmod (2 ^ 32)

/-- Where a task stands. -/
inductive Task where
  | queued
  | searched
  | counted
  deriving DecidableEq, Repr

/-- `ConcurrentSearchContext`. -/
structure State (D : Type) where
  tasks : List Task
  /-- `none` is a segment that is not searched yet. -/
  results : List (Option (List (DistancePair D)))
  remainingCount : ℕ
  /-- What the last finisher has put into the result slot. -/
  published : Option (List (DistancePair D))
  /-- History: the segments and positions at which mappings were read. -/
  reads : List (ℕ × ℤ)

inductive Action where
  /-- Task `i` searches its segment and stores the result. -/
  | search (i : ℕ)
  /-- Task `i` counts down, and merges if it is the last. -/
  | countDown (i : ℕ)
  deriving DecidableEq, Repr

variable {D : Type} [LinearOrder D]

section Model

variable (lib : Library D) (topk : ℕ)

/-- `VectorIndexSearchImpl`. -/
def vectorIndexSearch (seg : SegmentSearchInfo D) : Option (List D × List ℤ) :=
  if seg.vecCount = 0 then none
  else (lib seg.index seg.bitmap seg.vecCount topk).map fun res =>
    (res.1.take topk, res.2.take topk)

/-- The positions at which a task reads the mapping of its segment. -/
def positions (seg : SegmentSearchInfo D) : List ℤ :=
  match vectorIndexSearch lib topk seg with
  | none => []
  | some (_, vids) => vids.map toInt

/-- The pairs of `search_segment_task`. -/
def taskPairs (seg : SegmentSearchInfo D) : List (DistancePair D) :=
  match vectorIndexSearch lib topk seg with
  | none => []
  | some (distances, vids) => List.zipWith (fun d vid => ⟨d, seg.map (toInt vid)⟩) distances vids

/-- `merge_all_segment_results`. -/
def mergeAllSegmentResults (results : List (Option (List (DistancePair D)))) :
    List (DistancePair D) :=
  mergeAll (fun x y => decide (x ≤ y)) topk (results.map fun r => r.getD [])

def step (segs : List (SegmentSearchInfo D)) (s : State D) : Action → Option (State D)
  | .search i =>
      match s.tasks[i]?, segs[i]? with
      | some .queued, some seg =>
          some { s with
            tasks := s.tasks.set i .searched
            results := s.results.set i (some (taskPairs lib topk seg))
            reads := s.reads ++ (positions lib topk seg).map fun pos => (i, pos) }
      | _, _ => none
  | .countDown i =>
      match s.tasks[i]? with
      | some .searched =>
          some { s with
            tasks := s.tasks.set i .counted
            remainingCount := s.remainingCount - 1
            published :=
              if s.remainingCount - 1 = 0 then some (mergeAllSegmentResults topk s.results)
              else s.published }
      | _ => none

/-- `ConcurrentVectorSearchOnSegments`. -/
def start (segs : List (SegmentSearchInfo D)) : State D where
  tasks := segs.map fun _ => .queued
  results := segs.map fun _ => none
  remainingCount := segs.length
  published := none
  reads := []

end Model

/-- The rows of a segment that are not masked, with the tids of its mapping. -/
def rows (seg : SegmentSearchInfo D) : List (DistancePair D) :=
  (unmasked seg.bitmap seg.vecCount).map fun i => ⟨seg.index i, seg.map i⟩

/-- In whatever order the tasks finish: every read hits the mapping, the last one publishes, and
what is published is the `topk` nearest rows of all segments, the same in every run. -/
structure RunsExact (lib : Library D) (topk : ℕ) (segs : List (SegmentSearchInfo D)) : Prop where
  reads : ∀ (run : List Action) (s : State D), exec (step lib topk segs) (start segs) run = some s →
    ∀ r ∈ s.reads, ∃ seg, segs[r.1]? = some seg ∧ 0 ≤ r.2 ∧ r.2 < seg.vecCount
  publishes : ∀ (run : List Action) (s : State D),
    exec (step lib topk segs) (start segs) run = some s → segs ≠ [] →
      (∀ t ∈ s.tasks, t = .counted) → ∃ pairs, s.published = some pairs
  nearest : ∀ (run : List Action) (s : State D) (pairs : List (DistancePair D)),
    exec (step lib topk segs) (start segs) run = some s → s.published = some pairs →
      Nearest DistancePair.distance topk (segs.flatMap rows) pairs
  same : ∀ (run run' : List Action) (s s' : State D) (pairs pairs' : List (DistancePair D)),
    exec (step lib topk segs) (start segs) run = some s → s.published = some pairs →
    exec (step lib topk segs) (start segs) run' = some s' → s'.published = some pairs' →
      pairs = pairs'

/-- Whatever the segments hold, a fan-out that rests on an exact library is exact. -/
def FanoutExact (topk : ℕ) (slots : List Slots) : Prop :=
  ∀ (D : Type) [LinearOrder D] (lib : Library D) (segs : List (SegmentSearchInfo D)),
    lib.Exact → segs.map SegmentSearchInfo.toSlots = slots → RunsExact lib topk segs

/-- A segment that is empty, or that has enough rows left, all at positions an `int` can hold. -/
def Slots.Searchable (topk : ℕ) (g : Slots) : Prop :=
  g.vecCount = 0 ∨ topk ≤ (unmasked g.bitmap g.vecCount).length ∧
    ∀ i ∈ unmasked g.bitmap g.vecCount, i < 2 ^ 31

variable {lib : Library D} {topk : ℕ} {seg : SegmentSearchInfo D}
variable {segs : List (SegmentSearchInfo D)}
variable {s s' : State D} {a : Action} {slots : List Slots}

theorem toInt_eq {n : ℕ} (h : n < 2 ^ 31) : toInt n = n := by
  rw [toInt, Int.bmod]
  split
  · omega
  · omega

theorem toInt_neg_one : toInt (-1) = -1 := by decide

theorem toInt_lt {n : ℕ} (h : 2 ^ 31 ≤ n) (h' : n < 2 ^ 32) : toInt n < 0 := by
  rw [toInt, Int.bmod]
  split
  · omega
  · omega

/-- With enough rows left, a search finds the nearest ones at their own positions. -/
theorem vectorIndexSearch_spec (hlib : lib.Exact) (h0 : seg.vecCount ≠ 0)
    (h : topk ≤ (unmasked seg.bitmap seg.vecCount).length) :
    ∃ best, Nearest seg.index topk (unmasked seg.bitmap seg.vecCount) best ∧
      vectorIndexSearch lib topk seg = some (best.map seg.index, best.map Nat.cast) := by
  obtain ⟨best, ⟨distances, ids⟩, hans, ha⟩ :=
    hlib seg.index seg.bitmap seg.vecCount topk (Nat.pos_of_ne_zero h0)
  have hlen : best.length = topk := by
    have := ha.nearest.length_eq
    omega
  refine ⟨best, ha.nearest, ?_⟩
  have hd := ha.distances
  have hi := ha.ids
  simp only at hd hi
  rw [vectorIndexSearch, if_neg h0, hans, Option.map_some]
  simp only [hi]
  rw [← hlen, hd, List.take_left' (List.length_map _)]

theorem Searchable.task (hlib : lib.Exact) (h : seg.Searchable topk) :
    Nearest DistancePair.distance topk (rows seg) (taskPairs lib topk seg) ∧
      ∀ pos ∈ positions lib topk seg, 0 ≤ pos ∧ pos < seg.vecCount := by
  by_cases h0 : seg.vecCount = 0
  · have hnone : vectorIndexSearch lib topk seg = none := by rw [vectorIndexSearch, if_pos h0]
    rw [taskPairs, positions, hnone, rows, h0]
    exact ⟨Nearest.self List.Pairwise.nil (Nat.zero_le _),
      fun pos hpos => absurd hpos List.not_mem_nil⟩
  · obtain ⟨henough, hint⟩ := h.resolve_left h0
    obtain ⟨best, hbest, hsearch⟩ := vectorIndexSearch_spec hlib h0 henough
    have hcast (i : ℕ) (hi : i ∈ best) : toInt i = i := toInt_eq (hint i (hbest.subset hi))
    have hpairs : taskPairs lib topk seg =
        best.map fun i : ℕ => (⟨seg.index i, seg.map i⟩ : DistancePair D) := by
      rw [taskPairs, hsearch]
      simp only [List.zipWith_map, List.zipWith_self]
      exact List.map_congr_left fun i hi => by rw [hcast i hi]
    constructor
    · rw [hpairs]
      exact hbest.map _ fun _ _ => rfl
    · intro pos hpos
      rw [positions, hsearch] at hpos
      obtain ⟨vid, hvid, rfl⟩ := List.mem_map.mp hpos
      obtain ⟨i, hi, rfl⟩ := List.mem_map.mp hvid
      rw [hcast i hi]
      have := (mem_unmasked.mp (hbest.subset hi)).1
      omega

/-- The fold over the results of all segments has the best rows of all of them. -/
theorem mergeAll_best (hk : 0 < topk) {l : List (Searched D)} (h : ∀ m ∈ l, m.Best topk) :
    Nearest DistancePair.distance topk (allRows l)
      (mergeAll (fun x y => decide (x ≤ y)) topk (l.map Searched.pairs)) := by
  have hempty (m : Searched D) (hm : m ∈ l) (hp : m.pairs = []) : m.rows = [] := by
    have := (h m hm).length_eq
    rw [hp, List.length_nil] at this
    exact List.eq_nil_of_length_eq_zero (by omega)
  have hrows : allRows (l.filter fun m => !m.pairs.isEmpty) = allRows l := by
    clear h
    induction l with
    | nil => rfl
    | cons m l ih =>
        have ih := ih fun m' hm' => hempty m' (List.mem_cons_of_mem _ hm')
        rw [allRows, allRows] at ih
        rw [allRows, allRows, List.flatMap_cons]
        cases hp : m.pairs with
        | nil =>
            rw [List.filter_cons_of_neg (by simp [hp]), hempty m List.mem_cons_self hp, ih]
            rfl
        | cons p ps => rw [List.filter_cons_of_pos (by simp [hp]), List.flatMap_cons, ih]
  have hfilter : (l.map Searched.pairs).filter (fun r => !r.isEmpty) =
      (l.filter fun m => !m.pairs.isEmpty).map Searched.pairs := List.filter_map
  have hbest (m : Searched D) (hm : m ∈ l.filter fun m => !m.pairs.isEmpty) : m.Best topk :=
    h m (List.mem_of_mem_filter hm)
  rw [mergeAll, hfilter, ← hrows]
  cases hl : l.filter fun m => !m.pairs.isEmpty with
  | nil => exact Nearest.self List.Pairwise.nil (Nat.zero_le _)
  | cons m ms =>
      rw [hl] at hbest
      exact Searched.Best.foldl (hbest m List.mem_cons_self)
        fun m' hm' => hbest m' (List.mem_cons_of_mem _ hm')

/-- A task that has not counted down. -/
def Task.left : Task → ℕ
  | .counted => 0
  | _ => 1

/-- Where the tasks stand says what is stored, and what is published is the fold over all. -/
structure Inv (lib : Library D) (topk : ℕ) (segs : List (SegmentSearchInfo D)) (s : State D) :
    Prop where
  length_tasks : s.tasks.length = segs.length
  length_results : s.results.length = segs.length
  results : ∀ (i : ℕ) (t : Task) (seg : SegmentSearchInfo D), s.tasks[i]? = some t → t ≠ .queued →
    segs[i]? = some seg → s.results[i]? = some (some (taskPairs lib topk seg))
  count : s.remainingCount = tally Task.left s.tasks
  published : ∀ pairs, s.published = some pairs →
    pairs = mergeAllSegmentResults topk (segs.map fun seg => some (taskPairs lib topk seg))
  done : segs ≠ [] → s.remainingCount = 0 → ∃ pairs, s.published = some pairs
  reads : ∀ r ∈ s.reads, ∃ seg, segs[r.1]? = some seg ∧ r.2 ∈ positions lib topk seg

theorem Inv.start : Inv lib topk segs (start segs) where
  length_tasks := List.length_map _
  length_results := List.length_map _
  results i t seg ht hne _ := by
    obtain ⟨_, _, rfl⟩ := List.mem_map.mp (List.mem_of_getElem? ht)
    exact absurd rfl hne
  count := by
    induction segs with
    | nil => rfl
    | cons seg segs ih =>
        have ih : segs.length = tally Task.left (segs.map fun _ => Task.queued) := ih
        rw [Fanout.start, List.map_cons, tally_cons, ← ih, List.length_cons]
        exact Nat.add_comm _ _
  published _ hp := absurd hp (by simp [Fanout.start])
  done hne h0 := absurd (List.eq_nil_of_length_eq_zero h0) hne
  reads _ hr := absurd hr List.not_mem_nil

theorem Inv.search (h : Inv lib topk segs s) {i : ℕ} (ht : s.tasks[i]? = some .queued)
    (hseg : segs[i]? = some seg) : Inv lib topk segs { s with
      tasks := s.tasks.set i .searched
      results := s.results.set i (some (taskPairs lib topk seg))
      reads := s.reads ++ (positions lib topk seg).map fun pos => (i, pos) } where
  length_tasks := by rw [List.length_set, h.length_tasks]
  length_results := by rw [List.length_set, h.length_results]
  results j t seg' htj hne hseg' := by
    have hi : i < s.results.length := by
      rw [h.length_results]
      exact (List.getElem?_eq_some_iff.mp hseg).1
    rcases (getElem?_set_iff ht).mp htj with ⟨rfl, _⟩ | ⟨hji, htj⟩
    · obtain rfl : seg = seg' := Option.some.inj (hseg.symm.trans hseg')
      exact List.getElem?_set_self hi
    · rw [List.getElem?_set_ne (Ne.symm hji)]
      exact h.results j t seg' htj hne hseg'
  count := by
    have htally := tally_set Task.left ht .searched
    simp only [Task.left] at htally
    have hcount := h.count
    show s.remainingCount = tally Task.left (s.tasks.set i .searched)
    omega
  published := h.published
  done := h.done
  reads r hr := by
    rcases List.mem_append.mp hr with hr | hr
    · exact h.reads r hr
    · obtain ⟨pos, hpos, rfl⟩ := List.mem_map.mp hr
      exact ⟨seg, hseg, hpos⟩

/-- When nothing remains, every segment has been searched. -/
theorem Inv.complete (h : Inv lib topk segs s) (h0 : ∀ t ∈ s.tasks, t ≠ .queued) :
    s.results = segs.map fun seg => some (taskPairs lib topk seg) := by
  refine List.ext_getElem? fun i => ?_
  rw [List.getElem?_map]
  cases hseg : segs[i]? with
  | none =>
      rw [Option.map_none, List.getElem?_eq_none_iff, h.length_results]
      exact List.getElem?_eq_none_iff.mp hseg
  | some seg =>
      have hi : i < s.tasks.length := by
        rw [h.length_tasks]
        exact (List.getElem?_eq_some_iff.mp hseg).1
      rw [Option.map_some]
      exact h.results i _ seg (List.getElem?_eq_getElem hi) (h0 _ (List.getElem_mem hi)) hseg

theorem Inv.countDown (h : Inv lib topk segs s) {i : ℕ} (ht : s.tasks[i]? = some .searched) :
    Inv lib topk segs { s with
      tasks := s.tasks.set i .counted
      remainingCount := s.remainingCount - 1
      published :=
        if s.remainingCount - 1 = 0 then some (mergeAllSegmentResults topk s.results)
        else s.published } := by
  have htally := tally_set Task.left ht .counted
  simp only [Task.left] at htally
  have hcount := h.count
  refine ⟨by rw [List.length_set, h.length_tasks], h.length_results, ?_, ?_, ?_, ?_, h.reads⟩
  · intro j t seg htj hne hseg
    rcases (getElem?_set_iff ht).mp htj with ⟨rfl, _⟩ | ⟨_, htj⟩
    · exact h.results j _ seg ht (by decide) hseg
    · exact h.results j t seg htj hne hseg
  · show s.remainingCount - 1 = tally Task.left (s.tasks.set i .counted)
    omega
  · intro pairs hp
    simp only at hp
    split at hp
    · rename_i hzero
      have hall : ∀ t ∈ s.tasks, t ≠ .queued := by
        rintro t hmem rfl
        obtain ⟨j, hj, hq⟩ := List.mem_iff_getElem.mp hmem
        have hq : s.tasks[j]? = some .queued := by rw [List.getElem?_eq_getElem hj, hq]
        have hji : j ≠ i := by
          rintro rfl
          exact absurd (ht.symm.trans hq) (by decide)
        have := add_le_tally Task.left hq ht hji
        simp only [Task.left] at this
        omega
      rw [← Option.some.inj hp, h.complete hall]
    · exact h.published pairs hp
  · intro _ hzero
    exact ⟨_, if_pos hzero⟩

theorem Inv.step (h : Inv lib topk segs s) (hs : step lib topk segs s a = some s') :
    Inv lib topk segs s' := by
  cases a with
  | search i =>
      simp only [Fanout.step] at hs
      split at hs
      · rename_i seg ht hseg
        exact Option.some.inj hs ▸ h.search ht hseg
      · cases hs
  | countDown i =>
      simp only [Fanout.step] at hs
      split at hs
      · rename_i ht
        exact Option.some.inj hs ▸ h.countDown ht
      · cases hs

theorem inv_of_exec {run : List Action}
    (h : exec (step lib topk segs) (start segs) run = some s) : Inv lib topk segs s := by
  have hstart : Reachable (fun u => u = start segs) (step lib topk segs) anyStep (start segs) :=
    .start rfl
  refine (hstart.of_exec (meets_anyStep run) h).invariant (P := Inv lib topk segs) ?_ ?_
  · rintro u rfl
    exact Inv.start
  · exact fun u a u' _ hu _ hstep => hu.step hstep

theorem Searchable.runsExact (hk : 0 < topk) (hlib : lib.Exact)
    (h : ∀ seg ∈ segs, seg.Searchable topk) : RunsExact lib topk segs where
  reads run s hrun r hr := by
    obtain ⟨seg, hseg, hpos⟩ := (inv_of_exec hrun).reads r hr
    exact ⟨seg, hseg, (Searchable.task hlib (h seg (List.mem_of_getElem? hseg))).2 r.2 hpos⟩
  publishes run s hrun hne hall := by
    have h := inv_of_exec hrun
    refine h.done hne ?_
    rw [h.count, tally_eq_zero]
    intro t ht
    rw [hall t ht]
    rfl
  nearest run s pairs hrun hp := by
    have hbest := mergeAll_best hk
      (l := segs.map fun seg => ⟨rows seg, taskPairs lib topk seg⟩) (by
        intro m hm
        obtain ⟨seg, hseg, rfl⟩ := List.mem_map.mp hm
        exact (Searchable.task hlib (h seg hseg)).1)
    rw [(inv_of_exec hrun).published pairs hp, mergeAllSegmentResults]
    simpa [allRows, List.flatMap_map, Function.comp_def] using hbest
  same run run' s s' pairs pairs' hrun hp hrun' hp' :=
    ((inv_of_exec hrun).published pairs hp).trans ((inv_of_exec hrun').published pairs' hp').symm

/-- The segments with every row at distance 0, and its position as tid. -/
def flat (slots : List Slots) : List (SegmentSearchInfo ℕ) :=
  slots.map fun g => { g with index := fun _ => 0, map := id }

theorem flat_slots (slots : List Slots) : (flat slots).map SegmentSearchInfo.toSlots = slots := by
  rw [flat, List.map_map]
  exact List.map_id slots

/-- In some order the mapping of every segment is read at all positions its task has found. -/
theorem FanoutExact.positions (h : FanoutExact topk slots) (i : ℕ) {g : Slots} (hg : g ∈ slots) :
    ∀ pos ∈ positions (sorting 0 i) topk { g with index := fun _ => 0, map := id },
      0 ≤ pos ∧ pos < g.vecCount := by
  obtain ⟨j, hj⟩ := List.getElem?_of_mem hg
  have hseg : (flat slots)[j]? = some { g with index := fun _ => 0, map := id } := by
    rw [flat, List.getElem?_map, hj, Option.map_some]
  have htask : (start (flat slots)).tasks[j]? = some .queued := by
    rw [start, List.getElem?_map, hseg, Option.map_some]
  have hexact := h ℕ (sorting 0 i) (flat slots) (sorting_exact i 0) (flat_slots slots)
  intro pos hpos
  obtain ⟨seg, hseg', hbound⟩ := hexact.reads [.search j] _
    (by rw [exec_cons, step, htask, hseg]; rfl) (j, pos)
    (List.mem_append_right _ (List.mem_map_of_mem hpos))
  obtain rfl := Option.some.inj (hseg.symm.trans hseg')
  exact hbound

theorem vids_sorting (i : ℕ) (g : Slots) (h0 : g.vecCount ≠ 0) :
    positions (sorting 0 i) topk { g with index := fun _ => 0, map := id } =
      (((((unmasked g.bitmap g.vecCount).mergeSort (before (fun _ => 0) i)).take topk).map
          Nat.cast ++
        List.replicate (topk - (((unmasked g.bitmap g.vecCount).mergeSort
          (before (fun _ => 0) i)).take topk).length) (-1)).take topk).map toInt := by
  rw [positions, vectorIndexSearch, if_neg h0]
  rfl

theorem FanoutExact.searchable (hk : 0 < topk) (h : FanoutExact topk slots) :
    ∀ g ∈ slots, g.Searchable topk := by
  intro g hg
  by_cases h0 : g.vecCount = 0
  · exact Or.inl h0
  · refine Or.inr ⟨?_, fun i hi => ?_⟩
    · by_contra hlt
      rw [not_le] at hlt
      have hread := h.positions 0 hg (-1) (by
        rw [vids_sorting 0 g h0, List.take_append, List.take_replicate, List.map_append]
        refine List.mem_append_right _ (List.mem_map.mpr ⟨-1, ?_, toInt_neg_one⟩)
        rw [List.length_map, List.length_take, List.length_mergeSort]
        exact List.mem_replicate.mpr ⟨by omega, rfl⟩)
      omega
    · by_contra hlt
      have hbound : i < 2 ^ 32 := (mem_unmasked.mp hi).1.trans g.vecCount_lt
      have hfirst := mem_take_sorted (fun _ => (0 : ℕ)) i hk hi fun _ _ => le_rfl
      have hread := h.positions i hg (toInt i) (by
        rw [vids_sorting i g h0, List.take_append, List.take_of_length_le (by simp)]
        exact List.mem_map_of_mem (List.mem_append_left _ (List.mem_map_of_mem hfirst)))
      have := toInt_lt (not_lt.mp hlt) hbound
      omega

/-- The fan-out is exact for every content exactly if no segment has rows and too few of them
left. -/
theorem fanoutExact_iff (hk : 0 < topk) :
    FanoutExact topk slots ↔ ∀ g ∈ slots, g.Searchable topk := by
  refine ⟨fun h => h.searchable hk, fun h D _ lib segs hlib hsegs => ?_⟩
  refine Searchable.runsExact hk hlib fun seg hseg => h seg.toSlots ?_
  rw [← hsegs]
  exact List.mem_map_of_mem hseg

/-- A segment of one row. -/
def demoShort : Slots where
  bitmap _ := false
  vecCount := 1
  vecCount_lt := by decide

theorem fanoutExact_iff_demoShort :
    FanoutExact 2 [demoShort] ↔ ∀ g ∈ [demoShort], g.Searchable 2 :=
  fanoutExact_iff (by decide)

/-- The padding of a short segment is looked up in its mapping. -/
theorem not_fanoutExact : ¬ ∀ (topk : ℕ) (slots : List Slots), 0 < topk →
    FanoutExact topk slots := by
  intro h
  have := (h 2 [demoShort] (by decide)).searchable (by decide) demoShort List.mem_cons_self
  rcases this with h0 | ⟨henough, _⟩
  · exact absurd h0 (by decide)
  · exact absurd henough (by decide)

end VectorLsm.Fanout
