import VectorLsm.Lib.Potential
import VectorLsm.Pool.Claims

/-! # The merge threads

The threads of the merge pool wait for a signal, scan for a task, execute it and signal again,
also where the task has failed. What a compaction builds is the source's here, its inputs being
those of a pool that nothing else writes: index load and upgrades may be under way, but no
segment is flushed, vacuumed or adopted.
-/

namespace VectorLsm.Scheduler

open Pool FlushedSegmentPool Transition

/-- What does not change while the threads run. -/
structure MergeConfig extends PoolConfig where
  /-- `postgresqlv_deletion_rebuild_ratio` is at least zero. -/
  overDeleted_zero : ∀ n, overDeleted 0 n = false
  /-- `lsmIndex.index_type`. -/
  targetType : IndexType
  /-- `postgresqlv_merge_worker_threads`. -/
  numThreads : ℕ
  numThreads_pos : 0 < numThreads

structure State where
  base : Pool.State
  /-- `pending_signals`. -/
  pendingSignals : ℕ
  /-- `find_latest_segment_version` of a range. -/
  latestVersion : SegmentId → SegmentId → ℕ
  /-- The threads in which a builder has raised an error. -/
  raised : ℕ → Bool

/-- What a compaction reads and builds: the rows of a rebuilt index, the deleted rows of the
bitmaps of a merge. -/
structure Built where
  rows : ℕ
  deleteCount : ℕ
  deriving DecidableEq, Repr

namespace State

variable (x : State)

@[simps] def setBase (s : Pool.State) : State := { x with base := s }

/-- `signal_merge_pool`. -/
@[simps] def signal : State := { x with pendingSignals := x.pendingSignals + 1 }

/-- `flush_segment_to_disk`. -/
@[simps] def flush (lo hi : SegmentId) : State :=
  { x with
    latestVersion := fun a b => if a = lo ∧ b = hi then x.latestVersion a b + 1
      else x.latestVersion a b }

/-- What a compaction writes into its slot. A rebuild drops the rows deleted in its snapshot,
and nobody deletes others; a merge keeps all rows and the type of the larger index. -/
def segmentBuilt (cfg : MergeConfig) (task : MergeTask) (b : Built) : SegmentMetadata :=
  let lo := (buildRange x.base.pool task).1
  let hi := (buildRange x.base.pool task).2
  match task.operationType, task.segmentIdx1 with
  | .merge, some idx1 =>
      let seg0 := x.base.pool.seg task.segmentIdx0
      let seg1 := x.base.pool.seg idx1
      { startSid := lo
        endSid := hi
        validRows := seg0.vecCount + seg1.vecCount
        indexType := if seg1.vecCount ≤ seg0.vecCount then seg0.indexType else seg1.indexType
        version := x.latestVersion lo hi
        deleteCount := b.deleteCount }
  | _, _ =>
      { startSid := lo
        endSid := hi
        validRows := b.rows
        indexType := cfg.targetType
        version := x.latestVersion lo hi
        deleteCount := 0 }

/-- What the next section of thread `t` works on. -/
def input (cfg : MergeConfig) (t : ℕ) (b : Option Built) : Option SegmentMetadata :=
  (x.base.pc t).task.bind fun task => b.map (x.segmentBuilt cfg task)

/-- What the next section of thread `t` does outside the pool: a build ends with the files
written, a task with a signal. -/
def leave (t : ℕ) (b : Option Built) : State :=
  match x.base.pc t with
  | .build task =>
      if b.isSome then
        x.flush (buildRange x.base.pool task).1 (buildRange x.base.pool task).2
      else x
  | .compactInstall _ _ _ _ | .abort _ => x.signal
  | _ => x

end State

/-- The actions of the others: searches, the index load and its upgrades. -/
def background (n : ℕ) : Pool.Action → Bool
  | .takeUpgrade t | .run t _ => n ≤ t
  | .search | .drop _ | .check _ _ => true
  | _ => false

/-- The upgrade installs its segment and signals. -/
def upgrades (s : Pool.State) : Pool.Action → Bool
  | .run t (some _) =>
      match s.pc t with
      | .upgrade u => upgradable s.pool u && s.pool.reserve.isSome
      | _ => false
  | _ => false

inductive Action where
  /-- Thread `t` takes a signal. -/
  | wake (t : ℕ)
  /-- The next section of thread `t`; without a result a load or an allocation has failed. -/
  | run (t : ℕ) (b : Option Built)
  /-- `MergeIndex` or `MergeTwoIndices` raises an error. -/
  | raise (t : ℕ)
  | other (a : Pool.Action)
  deriving DecidableEq, Repr

variable (cfg : MergeConfig)

/-- A merge thread that still runs. -/
def Alive (x : State) (t : ℕ) : Prop := t < cfg.numThreads ∧ x.raised t = false

instance (x : State) (t : ℕ) : Decidable (Alive cfg x t) := inferInstanceAs (Decidable (_ ∧ _))

def step (x : State) : Action → Option State
  | .wake t =>
      if Alive cfg x t ∧ 0 < x.pendingSignals then
        (Pool.step cfg.toPoolConfig x.base (.scan t)).map fun s =>
          { x with base := s, pendingSignals := x.pendingSignals - 1 }
      else none
  | .run t b =>
      if Alive cfg x t then
        (runStep cfg.toPoolConfig x.base t (x.input cfg t b)).map (x.leave t b).setBase
      else none
  | .raise t =>
      match x.base.pc t with
      | .build _ =>
          if Alive cfg x t then some { x with raised := Function.update x.raised t true } else none
      | _ => none
  | .other a =>
      if background cfg.numThreads a then
        (Pool.step cfg.toPoolConfig x.base a).map
          (if upgrades x.base a then x.signal else x).setBase
      else none

section Scan

variable {cfg : PoolConfig} {s : Pool.State} {pool pool' : FlushedSegmentPool} {l : List ℕ}
  {p a b g : ℕ} {idx0 : ℕ} {idx1 : Option ℕ}

/-- A scan would pick a task at this priority. -/
def Offers (cfg : PoolConfig) (pool : FlushedSegmentPool) (p : ℕ) : Prop :=
  pool.priorityGate p = true ∧ pool.traverse cfg p true ≠ none

/-- There is no task to claim. -/
def Exhausted (cfg : PoolConfig) (pool : FlushedSegmentPool) : Prop := ∀ p, ¬ Offers cfg pool p

/-- What a scan takes a segment for. -/
def Wanted (cfg : PoolConfig) (pool : FlushedSegmentPool) (type : CompactionType) (idx0 : ℕ) :
    Prop :=
  match type with
  | .rebuildFlat => (pool.seg idx0).indexType = .flat
  | .rebuildDeletion => cfg.overDeleted (pool.seg idx0).deleteCount (pool.seg idx0).vecCount = true
  | .merge => True

/-- The slots are next to each other in the list and available. -/
def Claimable (pool : FlushedSegmentPool) (type : CompactionType) (idx0 : ℕ) (idx1 : Option ℕ) :
    Prop :=
  claimOlds type idx0 idx1 <:+: pool.members ∧
    (∀ g ∈ claimOlds type idx0 idx1, pool.available g = true) ∧ (type = .merge → idx1.isSome)

instance (pool : FlushedSegmentPool) (type : CompactionType) (idx0 : ℕ) (idx1 : Option ℕ) :
    Decidable (Claimable pool type idx0 idx1) := inferInstanceAs (Decidable (_ ∧ _ ∧ _))

theorem Claimable.isSome (h : Claimable pool type idx0 idx1) :
    (pool.claimTask type idx0 idx1).isSome := by
  obtain ⟨-, havail, hpair⟩ := h
  unfold claimTask
  cases type with
  | merge =>
      obtain ⟨i1, rfl⟩ := Option.isSome_iff_exists.mp (hpair rfl)
      simp [havail idx0 (by simp [claimOlds]), havail i1 (by simp [claimOlds])]
  | rebuildFlat | rebuildDeletion => simp [havail idx0 (by simp [claimOlds])]

/-- The neighbours of a member are members. -/
theorem pair_of_next (h : pool.Linked l) (hg : g ∈ l) (hn : pool.next g = some a) :
    [g, a] <:+: l := by
  obtain ⟨xs, ys, rfl⟩ := List.append_of_mem hg
  obtain ⟨-, -, hnext, -⟩ := Chain.seg_append.mp h.seg
  rw [hn] at hnext
  cases ys with
  | nil => simp at hnext
  | cons c ys =>
      obtain rfl : a = c := by simpa using hnext
      exact ⟨xs, ys, by simp⟩

theorem pair_of_prev (h : pool.Linked l) (hg : g ∈ l) (hp : pool.prev g = some a) :
    [a, g] <:+: l := by
  obtain ⟨xs, ys, rfl⟩ := List.append_of_mem hg
  obtain ⟨-, hprev, -⟩ := Chain.seg_append.mp h.seg
  rw [hp] at hprev
  obtain ⟨xs, c, rfl⟩ := List.eq_nil_or_concat xs |>.resolve_left (by rintro rfl; simp at hprev)
  obtain rfl : a = c := by simpa using hprev
  exact ⟨xs, ys, by simp⟩

theorem mem_of_neighbour (h : pool.Linked l) (hg : g ∈ l)
    (ha : pool.prev g = some a ∨ pool.next g = some a) : a ∈ l := by
  rcases ha with hp | hn
  · exact (pair_of_prev h hg hp).subset (by simp)
  · exact (pair_of_next h hg hn).subset (by simp)

/-- The chosen neighbour is available. -/
theorem neighbour_of_choose (h : pool.chooseAdjacentSmaller g = some a) :
    (pool.prev g = some a ∨ pool.next g = some a) ∧ pool.available a = true := by
  have hok : ∀ {o : Option ℕ} {c : ℕ}, o.filter pool.candidateOk = some c →
      o = some c ∧ pool.available c = true := by
    intro o c ho
    obtain ⟨ho, hc⟩ := Option.filter_eq_some_iff.mp ho
    exact ⟨ho, (Bool.and_eq_true _ _ ▸ hc).1⟩
  unfold chooseAdjacentSmaller at h
  split at h
  · cases h
  · next hp _ =>
      obtain rfl := Option.some.inj h
      exact ⟨.inl (hok hp).1, (hok hp).2⟩
  · next _ hn =>
      obtain rfl := Option.some.inj h
      exact ⟨.inr (hok hn).1, (hok hn).2⟩
  · next hp hn =>
      split_ifs at h <;> obtain rfl := Option.some.inj h
      · exact ⟨.inl (hok hp).1, (hok hp).2⟩
      · exact ⟨.inr (hok hn).1, (hok hn).2⟩

/-- So is the partner of a merge. -/
theorem partner_spec {limit : ℕ} (h : pool.mergePartner g limit = some a) :
    (pool.prev g = some a ∨ pool.next g = some a) ∧ pool.available a = true := by
  unfold mergePartner at h
  split_ifs at h
  exact neighbour_of_choose (Option.filter_eq_some_iff.mp h).1

/-- A scan offers a member, or two of them in list order, that are available and call for it. -/
theorem offered_of_shouldClaim {l : List ℕ} (hS : Inv s.pool s.reserved s.held s.retired l)
    (hg : g ∈ l) (ha : s.pool.available g = true)
    (h : s.pool.shouldClaim cfg p g = some (idx0, idx1)) :
    Claimable s.pool (.ofPriority p) idx0 idx1 ∧ Wanted cfg s.pool (.ofPriority p) idx0 := by
  have hself : [g] <:+: s.pool.members := by
    rw [hS.members]
    exact List.singleton_infix_iff _ _ |>.mpr hg
  -- the partner comes before or behind the segment, and its ids tell which
  have hmerge : ∀ {limit : ℕ} {o : ℕ × Option ℕ}, (s.pool.mergePartner g limit).map (fun adj =>
      if (s.pool.seg adj).segmentIdStart < (s.pool.seg g).segmentIdStart then (adj, some g)
      else (g, some adj)) = some o →
      Claimable s.pool .merge o.1 o.2 := by
    intro limit o ho
    obtain ⟨adj, hadj, rfl⟩ := Option.map_eq_some_iff.mp ho
    obtain ⟨hnb, hav⟩ := partner_spec hadj
    rcases hnb with hp | hn
    · have hpair := pair_of_prev hS.linked hg hp
      have hlt := (List.pairwise_cons.mp (hS.sorted.sublist hpair.sublist)).1 g (by simp)
      have hne := hS.nonempty adj (hpair.subset (by simp))
      rw [if_pos (by lia)]
      refine ⟨by rwa [hS.members], ?_, fun _ => rfl⟩
      simp [claimOlds, ha, hav]
    · have hpair := pair_of_next hS.linked hg hn
      have hlt := (List.pairwise_cons.mp (hS.sorted.sublist hpair.sublist)).1 adj (by simp)
      have hne := hS.nonempty g hg
      rw [if_neg (by lia)]
      refine ⟨by rwa [hS.members], ?_, fun _ => rfl⟩
      simp [claimOlds, ha, hav]
  unfold shouldClaim at h
  split at h
  · split_ifs at h with hflat
    obtain ⟨rfl, rfl⟩ := Prod.mk.inj (Option.some.inj h)
    exact ⟨⟨hself, by simpa [claimOlds, CompactionType.ofPriority] using ha,
      fun hm => by cases hm⟩, hflat⟩
  · exact ⟨hmerge h, trivial⟩
  · split_ifs at h with hdel
    obtain ⟨rfl, rfl⟩ := Prod.mk.inj (Option.some.inj h)
    exact ⟨⟨hself, by simpa [claimOlds, CompactionType.ofPriority] using ha,
      fun hm => by cases hm⟩, hdel.2⟩
  · exact ⟨hmerge h, trivial⟩
  · exact ⟨hmerge h, trivial⟩
  · cases h

theorem offered_of_traverse (hS : Sound s) {firstPass : Bool}
    (h : s.pool.traverse cfg p firstPass = some (idx0, idx1)) :
    Claimable s.pool (.ofPriority p) idx0 idx1 ∧ Wanted cfg s.pool (.ofPriority p) idx0 := by
  obtain ⟨l, hl⟩ := hS
  unfold FlushedSegmentPool.traverse at h
  split_ifs at h
  obtain ⟨g, hg, hclaim⟩ := List.exists_of_findSome?_eq_some h
  split_ifs at hclaim with ha
  exact offered_of_shouldClaim hl (hl.members ▸ hg) ha hclaim

/-- A later pass over an empty scan finds nothing either. -/
theorem not_offers_of_traverse {firstPass : Bool} (h : pool.traverse cfg p firstPass = none) :
    ¬ Offers cfg pool p := by
  rintro ⟨-, ho⟩
  refine ho ?_
  unfold FlushedSegmentPool.traverse at h ⊢
  cases firstPass with
  | true => exact h
  | false =>
      rw [Bool.false_and, if_neg Bool.false_ne_true] at h
      rw [h, ite_self]

theorem not_offers_of_lt (hp : 5 < p) : ¬ Offers cfg pool p := by
  rintro ⟨-, ho⟩
  refine ho ?_
  have hnone : ∀ g, pool.shouldClaim cfg p g = none := by
    intro g
    unfold shouldClaim
    split <;> first | omega | rfl
  unfold FlushedSegmentPool.traverse
  simp [hnone]

theorem not_offers_zero : ¬ Offers cfg pool 0 := by
  rintro ⟨-, ho⟩
  refine ho ?_
  unfold FlushedSegmentPool.traverse
  simp [shouldClaim]

/-- The pools have the same list, and its members differ in their reference counts at most. -/
structure Alike (pool pool' : FlushedSegmentPool) : Prop where
  members : pool'.members = pool.members
  headIdx : pool'.headIdx = pool.headIdx
  stats : pool'.stats = pool.stats
  seg : ∀ g ∈ pool.members, ∃ n, pool'.seg g = (pool.seg g).setRef n

namespace Alike

theorem refl (pool : FlushedSegmentPool) : Alike pool pool := ⟨rfl, rfl, rfl, fun _ _ => ⟨_, rfl⟩⟩

theorem available (h : Alike pool pool') (hg : g ∈ pool.members) :
    pool'.available g = pool.available g := by
  obtain ⟨n, hn⟩ := h.seg g hg
  unfold FlushedSegmentPool.available
  rw [hn]
  rfl

theorem claimable (h : Alike pool pool') {type : CompactionType} :
    Claimable pool' type idx0 idx1 ↔ Claimable pool type idx0 idx1 := by
  unfold Claimable
  rw [h.members]
  refine and_congr_right fun hin => and_congr_left fun _ => ?_
  exact forall₂_congr fun g hg => by rw [h.available (hin.subset hg)]

theorem candidate (h : Alike pool pool') {o : Option ℕ} (ho : ∀ g ∈ o, g ∈ pool.members) :
    o.filter pool'.candidateOk = o.filter pool.candidateOk := by
  cases o with
  | none => rfl
  | some g =>
      obtain ⟨n, hn⟩ := h.seg g (ho g rfl)
      have hok : pool'.candidateOk g = pool.candidateOk g := by
        unfold candidateOk
        rw [h.available (ho g rfl), hn]
        rfl
      rw [Option.filter_some, Option.filter_some, hok]

theorem seg_eq (h : Alike pool pool') (hg : g ∈ pool.members) :
    (pool'.seg g).vecCount = (pool.seg g).vecCount ∧
      (pool'.seg g).indexType = (pool.seg g).indexType ∧
      (pool'.seg g).deleteCount = (pool.seg g).deleteCount ∧
      (pool'.seg g).segmentIdStart = (pool.seg g).segmentIdStart ∧
      (pool'.seg g).inUsed = (pool.seg g).inUsed ∧
      pool'.prev g = pool.prev g ∧ pool'.next g = pool.next g := by
  obtain ⟨n, hn⟩ := h.seg g hg
  unfold prev next
  rw [hn]
  exact ⟨rfl, rfl, rfl, rfl, rfl, rfl, rfl⟩

theorem chooseAdjacentSmaller (h : Alike pool pool') (hl : pool.Linked pool.members)
    (hg : g ∈ pool.members) : pool'.chooseAdjacentSmaller g = pool.chooseAdjacentSmaller g := by
  have hprev : ∀ a ∈ pool.prev g, a ∈ pool.members := fun a ha =>
    (pair_of_prev hl hg ha).subset (by simp)
  have hnext : ∀ a ∈ pool.next g, a ∈ pool.members := fun a ha =>
    (pair_of_next hl hg ha).subset (by simp)
  obtain ⟨-, -, -, -, -, hp, hn⟩ := h.seg_eq hg
  unfold FlushedSegmentPool.chooseAdjacentSmaller
  rw [hp, hn, h.candidate hprev, h.candidate hnext]
  split
  · rfl
  · rfl
  · rfl
  · next a b ha hb =>
      have ha := hprev a (Option.filter_eq_some_iff.mp ha).1
      have hb := hnext b (Option.filter_eq_some_iff.mp hb).1
      rw [(h.seg_eq ha).1, (h.seg_eq hb).1]

theorem mergePartner (h : Alike pool pool') (hl : pool.Linked pool.members)
    (hg : g ∈ pool.members) (limit : ℕ) :
    pool'.mergePartner g limit = pool.mergePartner g limit := by
  obtain ⟨hv, ht, -⟩ := h.seg_eq hg
  unfold FlushedSegmentPool.mergePartner
  rw [hv, ht, h.chooseAdjacentSmaller hl hg]
  cases hadj : pool.chooseAdjacentSmaller g with
  | none => rfl
  | some adj =>
      have hm := mem_of_neighbour hl hg (neighbour_of_choose hadj).1
      rw [Option.filter_some, Option.filter_some, (h.seg_eq hm).1]

theorem shouldClaim (h : Alike pool pool') (hl : pool.Linked pool.members)
    (hg : g ∈ pool.members) : pool'.shouldClaim cfg p g = pool.shouldClaim cfg p g := by
  obtain ⟨hv, ht, hd, hs, -⟩ := h.seg_eq hg
  have hmap : ∀ limit, (pool'.mergePartner g limit).map (fun adj =>
      if (pool'.seg adj).segmentIdStart < (pool'.seg g).segmentIdStart then (adj, some g)
      else (g, some adj)) = (pool.mergePartner g limit).map fun adj =>
      if (pool.seg adj).segmentIdStart < (pool.seg g).segmentIdStart then (adj, some g)
      else (g, some adj) := by
    intro limit
    rw [h.mergePartner hl hg]
    cases hadj : pool.mergePartner g limit with
    | none => rfl
    | some adj =>
        have hm := mem_of_neighbour hl hg (partner_spec hadj).1
        rw [Option.map_some, Option.map_some, hs, (h.seg_eq hm).2.2.2.1]
  unfold FlushedSegmentPool.shouldClaim
  split
  · rw [ht]
  · exact hmap _
  · rw [hv, hd]
  · exact hmap _
  · exact hmap _
  · rfl

theorem traverse (h : Alike pool pool') (hl : pool.Linked pool.members) (firstPass : Bool) :
    pool'.traverse cfg p firstPass = pool.traverse cfg p firstPass := by
  have hhead : (pool'.headIdx.all fun head => !(pool'.seg head).inUsed) =
      pool.headIdx.all fun head => !(pool.seg head).inUsed := by
    rw [h.headIdx]
    cases hd : pool.headIdx with
    | none => rfl
    | some g =>
        have hg : g ∈ pool.members := List.mem_of_head? (hl.head.symm.trans hd)
        simp [(h.seg_eq hg).2.2.2.2.1]
  have hscan : ∀ gs : List ℕ, (∀ g ∈ gs, g ∈ pool.members) →
      (gs.findSome? fun g => if pool'.available g then pool'.shouldClaim cfg p g else none) =
      gs.findSome? fun g => if pool.available g then pool.shouldClaim cfg p g else none := by
    intro gs
    induction gs with
    | nil => exact fun _ => rfl
    | cons g gs ih =>
        intro hgs
        have hg := hgs g List.mem_cons_self
        rw [List.findSome?_cons, List.findSome?_cons, h.available hg, h.shouldClaim hl hg,
          ih fun a ha => hgs a (List.mem_cons_of_mem g ha)]
  unfold FlushedSegmentPool.traverse
  rw [hhead, h.members, hscan _ fun _ hg => hg]

theorem offers (h : Alike pool pool') (hl : pool.Linked pool.members) :
    Offers cfg pool' p ↔ Offers cfg pool p := by
  unfold Offers priorityGate
  rw [h.traverse hl, h.stats]

end Alike

end Scan

end VectorLsm.Scheduler
