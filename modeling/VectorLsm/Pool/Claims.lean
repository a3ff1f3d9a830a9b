import VectorLsm.Pool.WellFormed

/-! # Claimed compactions

A merge thread picks a segment and a neighbour by slot under the read lock and claims the two
slots later. When the claim finds them next to each other, and no other writer then links a
segment between claimed neighbours or displaces one, the slots of a claimed task stay together
until the task replaces them, and it finds the place it builds a segment for.
-/

namespace VectorLsm.Pool

open FlushedSegmentPool Transition

variable {cfg : PoolConfig} {s s' : State} {t slot : ℕ}

/-- The task that a thread has claimed and not finished. -/
def Pc.task : Pc → Option MergeTask
  | .build task | .compactReserve task _ _ | .compactInstall task _ _ _ | .abort task => some task
  | _ => none

/-- The task with the range it is to write. -/
def Pc.bounds : Pc → Option (MergeTask × SegmentId × SegmentId)
  | .compactReserve task lo hi | .compactInstall task lo hi _ => some (task, lo, hi)
  | _ => none

/-- The two segments of a claimed merge are immediate neighbours in ascending order, and no
segment belongs to two claimed tasks. -/
def ClaimsValid (s : State) : Prop :=
  (∀ t task, (s.pc t).task = some task → task.operationType = .merge →
    ∃ idx1, task.segmentIdx1 = some idx1 ∧ [task.segmentIdx0, idx1] <:+: s.pool.members ∧
      (s.pool.seg task.segmentIdx0).segmentIdEnd < (s.pool.seg idx1).segmentIdStart) ∧
    ∀ t t' task task', t ≠ t' → (s.pc t).task = some task → (s.pc t').task = some task' →
      ∀ g ∈ task.olds, g ∉ task'.olds

/-- The slots of a claim, in list order. -/
def claimOlds (type : CompactionType) (idx0 : ℕ) (idx1 : Option ℕ) : List ℕ :=
  match type, idx1 with
  | .merge, some idx1 => [idx0, idx1]
  | _, _ => [idx0]

/-- A range does not come between the two segments of a claimed merge. -/
def Apart (s : State) (lo hi : SegmentId) : Prop :=
  ∀ t task a b, (s.pc t).task = some task → task.olds = [a, b] →
    ¬ ((s.pool.seg a).segmentIdEnd < lo ∧ hi < (s.pool.seg b).segmentIdStart)

/-- A claim finds its slots still next to each other in the list. A segment that is linked finds
the place it was prepared for, does not come between claimed neighbours, and displaces no
claimed segment; nothing is asked of the compactions. -/
def SteadyRun (s : State) (t : ℕ) (m : Option SegmentMetadata) : Prop :=
  match s.pc t with
  | .regularRegister slot =>
      Fits s.pool [] (s.pool.seg slot).segmentIdStart (s.pool.seg slot).segmentIdEnd ∧
        Apart s (s.pool.seg slot).segmentIdStart (s.pool.seg slot).segmentIdEnd
  | .adoptInstall slot .append _ =>
      Fits s.pool [] (s.pool.seg slot).segmentIdStart (s.pool.seg slot).segmentIdEnd ∧
        Apart s (s.pool.seg slot).segmentIdStart (s.pool.seg slot).segmentIdEnd
  | .adoptInstall slot _ snaps =>
      Fits s.pool (snaps.map PredSnap.segIdx) (s.pool.seg slot).segmentIdStart
          (s.pool.seg slot).segmentIdEnd ∧
        ∀ g ∈ snaps.map PredSnap.segIdx, (s.pool.seg g).isCompacting = false
  | .upgrade u => m ≠ none → upgradable s.pool u → u.segmentIdx ∈ s.pool.members
  | .claim p idx0 idx1 => (s.pool.claimTask (.ofPriority p) idx0 idx1).isSome →
      claimOlds (.ofPriority p) idx0 idx1 <:+: s.pool.members
  | _ => True

/-- The condition on a step. -/
def Steady (s : State) : Action → Prop
  | .run t m => SteadyRun s t m
  | .check g _ => (s.pool.seg g).refCount = 0 → ∀ t, (s.pc t).reserved ≠ some g
  | _ => True

/-- The slots of a claimed task are members next to each other, flagged and loaded, of no other
task, and of the range recorded at the claim. -/
structure Claims (s : State) : Prop where
  linked : ∀ t task, (s.pc t).task = some task → task.olds <:+: s.pool.members
  flagged : ∀ t task, (s.pc t).task = some task → ∀ g ∈ task.olds,
    (s.pool.seg g).isCompacting = true ∧ (s.pool.seg g).loadState = .fullyLoaded
  exclusive : ∀ t t' task task', t ≠ t' → (s.pc t).task = some task → (s.pc t').task = some task' →
    ∀ g ∈ task.olds, g ∉ task'.olds
  paired : ∀ t task, (s.pc t).task = some task → task.operationType = .merge →
    task.segmentIdx1 ≠ none
  first : ∀ t task, (s.pc t).task = some task → ∀ g, task.olds.head? = some g →
    (s.pool.seg g).segmentIdStart = task.mergedStartSid
  last : ∀ t task, (s.pc t).task = some task → ∀ g, task.olds.getLast? = some g →
    (s.pool.seg g).segmentIdEnd = task.mergedEndSid
  bounds : ∀ t task lo hi, (s.pc t).bounds = some (task, lo, hi) →
    lo = task.mergedStartSid ∧ hi = task.mergedEndSid

section Lists

variable {α : Type*} {a b c : α} {xs ys olds : List α}

/-- Two neighbours of a list cut in two. -/
theorem pair_of_append (h : [a, b] <:+: xs ++ ys) : [a, b] <:+: xs ∨ [a, b] <:+: ys ∨
    (xs.getLast? = some a ∧ ys.head? = some b) := by
  obtain ⟨p, q, h⟩ := h
  rw [List.append_assoc] at h
  rcases List.append_eq_append_iff.mp h with ⟨r, hxs, hr⟩ | ⟨r, -, hys⟩
  · match r with
    | [] => exact .inr (.inl ⟨[], q, by simpa using hr⟩)
    | [x] =>
        obtain ⟨rfl, hys⟩ : a = x ∧ b :: q = ys := by simpa using hr
        refine .inr (.inr ⟨?_, by rw [← hys]; rfl⟩)
        rw [hxs]
        exact List.getLast?_concat
    | x :: y :: r =>
        obtain ⟨rfl, rfl, -⟩ : a = x ∧ b = y ∧ q = r ++ ys := by simpa using hr
        exact .inl ⟨p, r, by rw [hxs]; simp⟩
  · exact .inr (.inl ⟨r, q, by rw [hys]; simp⟩)

/-- Neighbours that are not taken out stay neighbours when `olds` is replaced. -/
theorem pair_of_replaced (h : [a, b] <:+: xs ++ olds ++ ys) (hne : olds ≠ []) (ha : a ∉ olds)
    (hb : b ∉ olds) : [a, b] <:+: xs ++ c :: ys := by
  have hx : xs <:+: xs ++ c :: ys := ⟨[], c :: ys, rfl⟩
  have hy : ys <:+: xs ++ c :: ys := ⟨xs ++ [c], [], by simp⟩
  rcases pair_of_append h with h | h | ⟨h, -⟩
  · rcases pair_of_append h with h | h | ⟨-, h⟩
    · exact h.trans hx
    · exact absurd (h.subset List.mem_cons_self) ha
    · exact absurd (List.mem_of_head? h) hb
  · exact h.trans hy
  · have hd := List.getLast?_eq_some_getLast hne
    rw [List.getLast?_append, hd] at h
    obtain rfl : olds.getLast hne = a := by simpa using h
    exact absurd (List.getLast_mem hne) ha

end Lists

theorem olds_cases (task : MergeTask) : task.olds = [task.segmentIdx0] ∨
    ∃ idx1, task.segmentIdx1 = some idx1 ∧ task.olds = [task.segmentIdx0, idx1] := by
  unfold MergeTask.olds
  split
  case h_1 idx1 _ h => exact .inr ⟨idx1, h, rfl⟩
  case h_2 => exact .inl rfl

theorem Pc.task_of_bounds {pc : Pc} {task : MergeTask} {lo hi : SegmentId}
    (h : pc.bounds = some (task, lo, hi)) : pc.task = some task := by
  cases pc <;> simp_all [Pc.bounds, Pc.task]

theorem Pc.bounds_eq_none {pc : Pc} (h : pc.task = none) : pc.bounds = none := by
  cases hb : pc.bounds with
  | none => rfl
  | some b =>
      obtain ⟨task, lo, hi⟩ := b
      rw [Pc.task_of_bounds hb] at h
      cases h

namespace Claims

theorem valid (hS : Sound s) (h : Claims s) : ClaimsValid s := by
  obtain ⟨l, hl⟩ := hS
  refine ⟨fun t task ht hm => ?_, h.exclusive⟩
  obtain ⟨idx1, hidx⟩ := Option.ne_none_iff_exists'.mp (h.paired t task ht hm)
  have holds : task.olds = [task.segmentIdx0, idx1] := by
    unfold MergeTask.olds
    rw [hm, hidx]
  have hlink := holds ▸ h.linked t task ht
  refine ⟨idx1, hidx, hlink, ?_⟩
  rw [hl.members] at hlink
  exact (List.pairwise_cons.mp (hl.sorted.sublist hlink.sublist)).1 idx1 List.mem_cons_self

/-- Tasks only end, and their slots keep their place and the fields that matter. -/
theorem mono (h : Claims s)
    (htask : ∀ u task, (s'.pc u).task = some task → (s.pc u).task = some task)
    (hbounds : ∀ u task lo hi, (s'.pc u).bounds = some (task, lo, hi) →
      lo = task.mergedStartSid ∧ hi = task.mergedEndSid)
    (hlinked : ∀ u task, (s'.pc u).task = some task → task.olds <:+: s'.pool.members)
    (hseg : ∀ u task, (s'.pc u).task = some task → ∀ g ∈ task.olds,
      (s'.pool.seg g).segmentIdStart = (s.pool.seg g).segmentIdStart ∧
      (s'.pool.seg g).segmentIdEnd = (s.pool.seg g).segmentIdEnd ∧
      (s'.pool.seg g).isCompacting = (s.pool.seg g).isCompacting ∧
      (s'.pool.seg g).loadState = (s.pool.seg g).loadState) : Claims s' where
  linked := hlinked
  flagged := by
    intro u task hu g hg
    obtain ⟨-, -, hc, hl⟩ := hseg u task hu g hg
    rw [hc, hl]
    exact h.flagged u task (htask u task hu) g hg
  exclusive := fun u u' task task' hne hu hu' =>
    h.exclusive u u' task task' hne (htask u task hu) (htask u' task' hu')
  paired := fun u task hu => h.paired u task (htask u task hu)
  first := by
    intro u task hu g hg
    rw [(hseg u task hu g (List.mem_of_head? hg)).1]
    exact h.first u task (htask u task hu) g hg
  last := by
    intro u task hu g hg
    rw [(hseg u task hu g (List.mem_of_getLast? hg)).2.1]
    exact h.last u task (htask u task hu) g hg
  bounds := hbounds

theorem task_goto {pc : Pc} (hpc : pc.task = none ∨ pc.task = (s.pc t).task) {u : ℕ}
    {task : MergeTask} (h : ((s.goto t pc).pc u).task = some task) :
    (s.pc u).task = some task := by
  rw [State.goto_pc, Function.update_apply] at h
  split at h
  case isTrue hu =>
    subst hu
    rcases hpc with hpc | hpc
    · rw [hpc] at h
      cases h
    · rwa [← hpc]
  case isFalse => exact h

/-- A thread goes on with its task, or with none. -/
theorem goto (h : Claims s) {pc : Pc} (hpc : pc.task = none ∨ pc.task = (s.pc t).task)
    (hb : ∀ task lo hi, pc.bounds = some (task, lo, hi) →
      lo = task.mergedStartSid ∧ hi = task.mergedEndSid) : Claims (s.goto t pc) := by
  refine h.mono (fun u task => task_goto hpc) ?_ ?_ fun u task _ g _ => ⟨rfl, rfl, rfl, rfl⟩
  · intro u task lo hi hu
    rw [State.goto_pc, Function.update_apply] at hu
    split at hu
    case isTrue => exact hb task lo hi hu
    case isFalse => exact h.bounds u task lo hi hu
  · exact fun u task hu => h.linked u task (task_goto hpc hu)

theorem goto_none (h : Claims s) {pc : Pc} (hpc : pc.task = none) : Claims (s.goto t pc) := by
  refine h.goto (.inl hpc) fun task lo hi hb => ?_
  rw [Pc.bounds_eq_none hpc] at hb
  cases hb

/-- The list is the same, and so are its members in the fields that matter. -/
theorem setPool (h : Claims s) {pool : FlushedSegmentPool} (hm : pool.members = s.pool.members)
    (hseg : ∀ g ∈ s.pool.members, (pool.seg g).segmentIdStart = (s.pool.seg g).segmentIdStart ∧
      (pool.seg g).segmentIdEnd = (s.pool.seg g).segmentIdEnd ∧
      (pool.seg g).isCompacting = (s.pool.seg g).isCompacting ∧
      (pool.seg g).loadState = (s.pool.seg g).loadState) : Claims (s.setPool pool) := by
  refine h.mono (fun _ _ hu => hu) h.bounds ?_ ?_
  · intro u task hu
    rw [State.setPool_pool, hm]
    exact h.linked u task hu
  · exact fun u task hu g hg => hseg g ((h.linked u task hu).subset hg)

/-- A free slot is reserved, or the thread goes on without. -/
theorem reserve (hS : Sound s) (h : Claims s) {pc : ℕ → Pc} {full : State}
    (ht : s.reserved t = none)
    (hpc : ∀ slot, (pc slot).task = none ∨ (pc slot).task = (s.pc t).task)
    (hb : ∀ slot task lo hi, (pc slot).bounds = some (task, lo, hi) →
      lo = task.mergedStartSid ∧ hi = task.mergedEndSid)
    (hfull : Claims full) : Claims (s.reserve t pc full) := by
  unfold State.reserve
  split
  next => exact hfull
  next idx pool hres =>
      obtain ⟨l, hl⟩ := hS
      have hm : pool.members = s.pool.members := by
        rw [(hl.reserve ht hres).members, hl.members]
      obtain ⟨hfree, -, hpool⟩ := reserve_eq hres
      have hp : Claims (s.setPool pool) := h.setPool hm fun g hg => by
        have hne : g ≠ idx := ne_of_mem_of_not_mem (hl.members ▸ hg) (hl.not_mem_of_free hfree)
        simp [hpool, hne]
      have hr : Claims ((s.setPool pool).setRetired (Function.update s.retired idx false)) :=
        ⟨hp.linked, hp.flagged, hp.exclusive, hp.paired, hp.first, hp.last, hp.bounds⟩
      exact hr.goto (hpc idx) (hb idx)

/-- The owner of a reserved slot writes its fields. -/
theorem write (hS : Sound s) (h : Claims s) (ht : s.reserved t = some slot)
    (x : FlushedSegment) : Claims (s.setPool (s.pool.setSeg slot x)) := by
  obtain ⟨l, hl⟩ := hS
  have hout := hl.resOutside t slot ht
  refine h.setPool ?_ fun g hg => ?_
  · rw [(hl.linked.setSeg hout x).members, hl.members]
  · have hne : g ≠ slot := ne_of_mem_of_not_mem (hl.members ▸ hg) hout
    simp [hne]

/-- A segment is linked where it does not come between claimed neighbours. -/
theorem register (hS : Sound s) (h : Claims s) (ht : s.reserved t = some slot)
    (hf : Fits s.pool [] (s.pool.seg slot).segmentIdStart (s.pool.seg slot).segmentIdEnd)
    (ha : Apart s (s.pool.seg slot).segmentIdStart (s.pool.seg slot).segmentIdEnd) :
    Claims (s.register cfg t slot) := by
  obtain ⟨l, hl⟩ := hS
  obtain ⟨xs, ys, rfl, hlink, hx, hy⟩ := hl.register_linked cfg ht hf
  have hm : (s.pool.register cfg slot).members = xs ++ slot :: ys := hlink.members
  refine Claims.goto_none (s := s.setPool _) ?_ rfl
  refine h.mono (fun _ _ hu => hu) h.bounds ?_ fun u task _ g _ => ?_
  · intro u task hu
    rw [State.setPool_pool, hm]
    have hold := h.linked u task hu
    rw [hl.members] at hold
    rcases olds_cases task with holds | ⟨b, hb, holds⟩
    · rw [holds] at hold ⊢
      rw [List.singleton_infix_iff] at hold ⊢
      rcases List.mem_append.mp hold with hmem | hmem
      · exact List.mem_append_left _ hmem
      · exact List.mem_append_right _ (List.mem_cons_of_mem slot hmem)
    · rw [holds] at hold ⊢
      rcases pair_of_append hold with hp | hp | ⟨hp, hq⟩
      · exact hp.trans ⟨[], slot :: ys, rfl⟩
      · exact hp.trans ⟨xs ++ [slot], [], by simp⟩
      · exact absurd ⟨hx _ (List.mem_of_getLast? hp), hy _ (List.mem_of_head? hq)⟩
          (ha u task _ b hu holds)
  · rw [State.setPool_pool, register_seg]
    exact ⟨rfl, rfl, rfl, rfl⟩

section Flags

variable {pool pool' : FlushedSegmentPool} {olds : List ℕ} {b : Bool}

theorem members_congr (hn : ∀ g, (pool'.seg g).nextIdx = (pool.seg g).nextIdx)
    (hh : pool'.headIdx = pool.headIdx) : pool'.members = pool.members := by
  have : pool'.next = pool.next := funext hn
  rw [members, members, this, hh]

theorem seg_setCompacting_foldl (g : ℕ) :
    (olds.foldl (fun pool g => pool.setCompacting g b) pool).seg g =
      { pool.seg g with isCompacting := if g ∈ olds then b else (pool.seg g).isCompacting } := by
  induction olds generalizing pool with
  | nil => rfl
  | cons a olds ih =>
      rw [List.foldl_cons, ih, setCompacting, seg_setSeg]
      by_cases hga : g = a
      · subst hga
        simp
      · simp [hga]

theorem members_setCompacting_foldl :
    (olds.foldl (fun pool g => pool.setCompacting g b) pool).members = pool.members := by
  refine members_congr (fun g => by rw [seg_setCompacting_foldl]) ?_
  induction olds generalizing pool with
  | nil => rfl
  | cons a olds ih => exact ih

/-- What a successful claim finds and leaves. -/
theorem claimTask_eq {type : CompactionType} {idx0 : ℕ} {idx1 : Option ℕ} {task : MergeTask}
    (h : pool.claimTask type idx0 idx1 = some (pool', task)) :
    task.olds = claimOlds type idx0 idx1 ∧ (∀ g ∈ task.olds, pool.available g = true) ∧
      pool' = task.olds.foldl (fun pool g => pool.setCompacting g true) pool ∧
      (task.operationType = .merge → task.segmentIdx1 ≠ none) ∧
      (∀ g, task.olds.head? = some g → (pool.seg g).segmentIdStart = task.mergedStartSid) ∧
      ∀ g, task.olds.getLast? = some g → (pool.seg g).segmentIdEnd = task.mergedEndSid := by
  unfold claimTask at h
  split at h
  case isTrue => cases h
  case isFalse h0 =>
    have h0 : pool.available idx0 = true := by simpa using h0
    split at h
    case h_1 => cases h
    case h_2 i1 =>
      split at h
      case isTrue => cases h
      case isFalse h1 =>
        have h1 : pool.available i1 = true := by simpa using h1
        obtain ⟨rfl, rfl⟩ := Prod.mk.inj (Option.some.inj h)
        refine ⟨rfl, ?_, rfl, fun _ => Option.some_ne_none i1, ?_, ?_⟩
        · intro g hg
          rcases List.mem_cons.mp hg with rfl | hg
          · exact h0
          · rwa [List.mem_singleton.mp hg]
        · rintro g hg
          obtain rfl : idx0 = g := Option.some.inj hg
          rfl
        · rintro g hg
          obtain rfl : i1 = g := Option.some.inj hg
          rfl
    case h_3 hm hm' =>
      obtain ⟨rfl, rfl⟩ := Prod.mk.inj (Option.some.inj h)
      have hne : type ≠ .merge := by
        rintro rfl
        cases idx1 with
        | none => exact hm rfl rfl
        | some i1 => exact hm' i1 rfl rfl
      have holds : (⟨type, idx0, idx1, (pool.seg idx0).segmentIdStart,
          (pool.seg idx0).segmentIdEnd⟩ : MergeTask).olds = [idx0] := by
        cases type with
        | merge => exact absurd rfl hne
        | rebuildFlat | rebuildDeletion => rfl
      have hclaim : claimOlds type idx0 idx1 = [idx0] := by
        cases type with
        | merge => exact absurd rfl hne
        | rebuildFlat | rebuildDeletion => rfl
      rw [holds, hclaim]
      refine ⟨rfl, ?_, rfl, fun hm => absurd hm hne, ?_, ?_⟩
      · intro g hg
        rwa [List.mem_singleton.mp hg]
      · rintro g hg
        obtain rfl : idx0 = g := Option.some.inj hg
        rfl
      · rintro g hg
        obtain rfl : idx0 = g := Option.some.inj hg
        rfl

end Flags

/-- The claim of slots that are next to each other in the list. -/
theorem claim (h : Claims s) {type : CompactionType} {idx0 : ℕ} {idx1 : Option ℕ}
    {pool : FlushedSegmentPool} {task : MergeTask}
    (hc : s.pool.claimTask type idx0 idx1 = some (pool, task))
    (hin : claimOlds type idx0 idx1 <:+: s.pool.members) :
    Claims ((s.setPool pool).goto t (.build task)) := by
  obtain ⟨holds, havail, rfl, hpair, hfirst, hlast⟩ := claimTask_eq hc
  have hm : (task.olds.foldl (fun pool g => pool.setCompacting g true) s.pool).members =
      s.pool.members := members_setCompacting_foldl
  have hfree : ∀ g ∈ task.olds, (s.pool.seg g).isCompacting = false ∧
      (s.pool.seg g).loadState = .fullyLoaded := by
    intro g hg
    have := havail g hg
    simp only [available, Bool.and_eq_true, Bool.not_eq_true', decide_eq_true_eq] at this
    exact ⟨this.1.2, this.2⟩
  have hsplit : ∀ {q : FlushedSegmentPool} {u task'},
      (((s.setPool q).goto t (.build task)).pc u).task = some task' →
      (u = t ∧ task' = task) ∨ (u ≠ t ∧ (s.pc u).task = some task') := by
    intro q u task' hu
    rw [State.goto_pc, Function.update_apply] at hu
    split at hu
    case isTrue ht => exact .inl ⟨ht, (Option.some.inj hu).symm⟩
    case isFalse ht => exact .inr ⟨ht, hu⟩
  have hother : ∀ {u task'}, (s.pc u).task = some task' → ∀ g ∈ task'.olds, g ∉ task.olds := by
    intro u task' hu g hg hg'
    have := (h.flagged u task' hu g hg).1
    rw [(hfree g hg').1] at this
    cases this
  constructor
  case linked =>
    intro u task' hu
    rw [State.goto_pool, State.setPool_pool, hm]
    rcases hsplit hu with ⟨-, rfl⟩ | ⟨-, hu⟩
    · rwa [holds]
    · exact h.linked u task' hu
  case flagged =>
    intro u task' hu g hg
    rw [State.goto_pool, State.setPool_pool, seg_setCompacting_foldl]
    rcases hsplit hu with ⟨-, rfl⟩ | ⟨-, hu⟩
    · exact ⟨if_pos hg, (hfree g hg).2⟩
    · dsimp only
      rw [if_neg (hother hu g hg)]
      exact h.flagged u task' hu g hg
  case exclusive =>
    intro u u' task₁ task₂ hne hu hu' g hg hg'
    rcases hsplit hu with ⟨ht, htask⟩ | ⟨-, hold⟩
    · rcases hsplit hu' with ⟨ht', -⟩ | ⟨-, hold'⟩
      · exact hne (ht.trans ht'.symm)
      · exact hother hold' g hg' (htask ▸ hg)
    · rcases hsplit hu' with ⟨-, htask'⟩ | ⟨-, hold'⟩
      · exact hother hold g hg (htask' ▸ hg')
      · exact h.exclusive u u' task₁ task₂ hne hold hold' g hg hg'
  case paired =>
    intro u task' hu
    rcases hsplit hu with ⟨-, rfl⟩ | ⟨-, hu⟩
    · exact hpair
    · exact h.paired u task' hu
  case first =>
    intro u task' hu g hg
    rw [State.goto_pool, State.setPool_pool, seg_setCompacting_foldl]
    rcases hsplit hu with ⟨-, rfl⟩ | ⟨-, hu⟩
    · exact hfirst g hg
    · exact h.first u task' hu g hg
  case last =>
    intro u task' hu g hg
    rw [State.goto_pool, State.setPool_pool, seg_setCompacting_foldl]
    rcases hsplit hu with ⟨-, rfl⟩ | ⟨-, hu⟩
    · exact hlast g hg
    · exact h.last u task' hu g hg
  case bounds =>
    intro u task' lo hi hu
    rw [State.goto_pc, Function.update_apply] at hu
    split at hu
    case isTrue => cases hu
    case isFalse => exact h.bounds u task' lo hi hu

/-- A thread gives its task up. -/
theorem abort (h : Claims s) {task : MergeTask} (ht : (s.pc t).task = some task) :
    Claims ((s.setPool (task.olds.foldl (fun pool g => pool.setCompacting g false) s.pool)).goto t
      .idle) := by
  have hm : (task.olds.foldl (fun pool g => pool.setCompacting g false) s.pool).members =
      s.pool.members := members_setCompacting_foldl
  have hsplit : ∀ {q : FlushedSegmentPool} {u task'},
      (((s.setPool q).goto t .idle).pc u).task = some task' →
      u ≠ t ∧ (s.pc u).task = some task' := by
    intro q u task' hu
    rw [State.goto_pc, Function.update_apply] at hu
    split at hu
    case isTrue => cases hu
    case isFalse hne => exact ⟨hne, hu⟩
  refine h.mono (fun u task' hu => (hsplit hu).2) ?_ ?_ ?_
  · intro u task' lo hi hu
    rw [State.goto_pc, Function.update_apply] at hu
    split at hu
    case isTrue => cases hu
    case isFalse => exact h.bounds u task' lo hi hu
  · intro u task' hu
    rw [State.goto_pool, State.setPool_pool, hm]
    exact h.linked u task' (hsplit hu).2
  · intro u task' hu g hg
    obtain ⟨hne, hu⟩ := hsplit hu
    rw [State.goto_pool, State.setPool_pool, seg_setCompacting_foldl]
    exact ⟨rfl, rfl, if_neg (h.exclusive u t task' task hne hu ht g hg), rfl⟩

theorem discard (hS : Sound s) (h : Claims s) (ht : s.reserved t = some slot) :
    Claims ((s.setPool (s.pool.discard slot)).goto t .idle) := by
  obtain ⟨l, hl⟩ := hS
  have hm := (hl.discard ht).members
  refine (h.setPool (hm.trans hl.members.symm) fun g hg => ?_).goto_none rfl
  have hne : g ≠ slot := ne_of_mem_of_not_mem (hl.members ▸ hg) (hl.resOutside t slot ht)
  simp [FlushedSegmentPool.discard, hne]

theorem check (hS : Sound s) (h : Claims s) {g : ℕ} (hz : (s.pool.seg g).refCount = 0)
    (hg : ∀ t, (s.pc t).reserved ≠ some g) (lockFree : Bool) :
    Claims ((s.setDropping (Function.update s.dropping g (s.dropping g - 1))).setPool
      (if lockFree then (s.pool.cleanup g).rewind g else s.pool.cleanup g)) := by
  obtain ⟨l, hl⟩ := hS
  have hm := (hl.cleanup hz hg).members
  have hc : Claims (s.setPool (s.pool.cleanup g)) :=
    h.setPool (hm.trans hl.members.symm) fun a _ => by
      by_cases ha : a = g <;> simp [FlushedSegmentPool.cleanup, ha]
  cases lockFree with
  | false => exact ⟨hc.linked, hc.flagged, hc.exclusive, hc.paired, hc.first, hc.last, hc.bounds⟩
  | true =>
      have hr : Claims ((s.setPool (s.pool.cleanup g)).setPool ((s.pool.cleanup g).rewind g)) :=
        hc.setPool (members_congr (fun a => by rw [seg_rewind]; rfl) (headIdx_rewind _ g))
          fun a _ => by
            rw [seg_rewind]
            exact ⟨rfl, rfl, rfl, rfl⟩
      exact ⟨hr.linked, hr.flagged, hr.exclusive, hr.paired, hr.first, hr.last, hr.bounds⟩

theorem replaceN_fields (cfg : PoolConfig) (pool : FlushedSegmentPool) (idx : ℕ) {olds : List ℕ}
    (hl : olds.Nodup) (hne : olds ≠ []) (g : ℕ) :
    ((pool.replaceN cfg olds idx).seg g).segmentIdStart = (pool.seg g).segmentIdStart ∧
    ((pool.replaceN cfg olds idx).seg g).segmentIdEnd = (pool.seg g).segmentIdEnd ∧
    ((pool.replaceN cfg olds idx).seg g).isCompacting = (pool.seg g).isCompacting ∧
    ((pool.replaceN cfg olds idx).seg g).loadState = (pool.seg g).loadState := by
  obtain ⟨hs, he, -, -⟩ := replaceN_seg cfg pool idx hl hne g
  obtain ⟨hspec, -, -⟩ := replaceN_spec cfg pool idx hl (List.head?_eq_some_head hne)
    (List.getLast?_eq_some_getLast hne)
  refine ⟨hs, he, ?_, ?_⟩
  all_goals
    rw [hspec g]
    dsimp only [dropped]
    split
  case refine_1.isTrue | refine_2.isTrue =>
    unfold FlushedSegment.dropRef
    split
    · rfl
    · rfl
  case refine_1.isFalse | refine_2.isFalse => rfl

/-- Members that no other thread has claimed are replaced. -/
theorem replace (hS : Sound s) (h : Claims s) (ht : s.reserved t = some slot) {olds : List ℕ}
    {lo hi : SegmentId} (hf : Fits s.pool olds lo hi)
    (hother : ∀ u task, u ≠ t → (s.pc u).task = some task → ∀ g ∈ task.olds, g ∉ olds) :
    Claims (s.replace cfg t olds slot) := by
  obtain ⟨l, hl⟩ := hS
  have hidle : ∀ {u : ℕ} {task : MergeTask}, ((s.replace cfg t olds slot).pc u).task = some task →
      u ≠ t ∧ (s.pc u).task = some task := by
    intro u task hu
    rw [State.replace, State.goto_pc, Function.update_apply] at hu
    split at hu
    case isTrue => cases hu
    case isFalse hne => exact ⟨hne, hu⟩
  have hbounds : ∀ u task lo hi, ((s.replace cfg t olds slot).pc u).bounds = some (task, lo, hi) →
      lo = task.mergedStartSid ∧ hi = task.mergedEndSid := by
    intro u task lo hi hu
    rw [State.replace, State.goto_pc, Function.update_apply] at hu
    split at hu
    case isTrue => cases hu
    case isFalse => exact h.bounds u task lo hi hu
  rcases eq_or_ne olds [] with rfl | hne
  · exact h.mono (fun u task hu => (hidle hu).2) hbounds
      (fun u task hu => h.linked u task (hidle hu).2) fun _ _ _ _ _ => ⟨rfl, rfl, rfl, rfl⟩
  · obtain ⟨xs, ys, rfl, hlink, -, -⟩ := hl.replaceN_linked cfg ht hne hf
    have hno : olds.Nodup := (List.nodup_append.mp (List.nodup_append.mp hl.linked.nodup).1).2.1
    have hm : (s.pool.replaceN cfg olds slot).members = xs ++ slot :: ys := hlink.members
    refine h.mono (fun u task hu => (hidle hu).2) hbounds ?_ ?_
    · intro u task hu
      obtain ⟨hut, hu⟩ := hidle hu
      have hold := h.linked u task hu
      have hout := hother u task hut hu
      rw [hl.members] at hold
      change task.olds <:+: (s.pool.replaceN cfg olds slot).members
      rw [hm]
      rcases olds_cases task with holds | ⟨b, hb, holds⟩
      · rw [holds] at hold hout ⊢
        rw [List.singleton_infix_iff] at hold ⊢
        have := hout _ List.mem_cons_self
        simp only [List.mem_append, List.mem_cons] at hold ⊢
        tauto
      · rw [holds] at hold hout ⊢
        exact pair_of_replaced hold hne (hout _ List.mem_cons_self)
          (hout _ (List.mem_cons_of_mem _ List.mem_cons_self))
    · exact fun u task _ g _ => replaceN_fields cfg s.pool slot hno hne g

/-- A rebuild reads its range from the slot that it has claimed. -/
theorem buildRange_eq (h : Claims s) {u : ℕ} {task : MergeTask}
    (hu : (s.pc u).task = some task) : (buildRange s.pool task).1 = task.mergedStartSid ∧
      (buildRange s.pool task).2 = task.mergedEndSid := by
  have hfirst := h.first u task hu
  have hlast := h.last u task hu
  unfold buildRange
  unfold MergeTask.olds at hfirst hlast
  cases hop : task.operationType with
  | merge => exact ⟨rfl, rfl⟩
  | rebuildFlat | rebuildDeletion =>
      rw [hop] at hfirst hlast
      exact ⟨hfirst _ rfl, hlast _ rfl⟩

/-- The place of a claimed task is the one that its range fits. -/
theorem fits (hS : Sound s) (h : Claims s) {u : ℕ} {task : MergeTask}
    (hu : (s.pc u).task = some task) :
    Fits s.pool task.olds task.mergedStartSid task.mergedEndSid := by
  obtain ⟨l, hl⟩ := hS
  have hlink := h.linked u task hu
  have hfirst := h.first u task hu
  have hlast := h.last u task hu
  rcases olds_cases task with holds | ⟨b, hb, holds⟩
  · rw [holds] at hlink hfirst hlast ⊢
    rw [← hfirst _ rfl, ← hlast _ rfl]
    rw [List.singleton_infix_iff, hl.members] at hlink
    exact hl.fits_self hlink
  · rw [holds] at hlink hfirst hlast ⊢
    rw [← hfirst task.segmentIdx0 rfl, ← hlast b rfl]
    rw [hl.members] at hlink
    obtain ⟨xs, ys, rfl⟩ := id hlink
    have hs := hl.sorted
    rw [List.append_assoc] at hs
    obtain ⟨-, hs, hx⟩ := List.pairwise_append.mp hs
    obtain ⟨ha, hs⟩ := List.pairwise_cons.mp hs
    obtain ⟨hb, -⟩ := List.pairwise_cons.mp hs
    have hab := ha b List.mem_cons_self
    have hna := hl.nonempty task.segmentIdx0 (by simp)
    have hnb := hl.nonempty b (by simp)
    refine ⟨by lia, by rwa [hl.members], .inr ⟨task.segmentIdx0, List.mem_cons_self, by lia, hna⟩,
      fun g hg hgo => ?_⟩
    rw [hl.members] at hg
    simp only [List.mem_append, List.mem_cons, List.not_mem_nil, or_false] at hg hgo
    rcases hg with (hg | hg) | hg
    · exact .inr (hx g hg _ List.mem_cons_self)
    · exact absurd hg hgo
    · exact .inl (hb g hg)

/-- An upgrade reserves, fills and installs its slot in one section; no task has claimed a
segment that is still mapped. -/
theorem upgrade (hS : Sound s) (h : Claims s) {pool : FlushedSegmentPool} {g idx : ℕ}
    (ht : s.reserved t = none)
    (hres : s.pool.reserve = some (idx, pool)) (hg : g ∈ s.pool.members)
    (hmap : (s.pool.seg g).loadState = .mmapLoaded) :
    Claims ((((s.setPool (pool.setSeg idx ((pool.seg idx).fill
      (upgradeMetadata (s.pool.seg g))))).setRetired
        (Function.update s.retired idx false))).replace cfg t [g] idx) := by
  have hfit : Fits pool [g] (s.pool.seg g).segmentIdStart (s.pool.seg g).segmentIdEnd := by
    obtain ⟨l, hl⟩ := hS
    rw [hl.members] at hg
    obtain ⟨hfree, -, hpool⟩ := reserve_eq hres
    have hsg : pool.seg g = s.pool.seg g := by
      simp [hpool, ne_of_mem_of_not_mem hg (hl.not_mem_of_free hfree)]
    exact hsg ▸ (hl.reserve ht hres).fits_self hg
  -- the slot is reserved, then filled, then it replaces the segment
  have hS₁ : Sound (s.reserve t (fun slot => .regularRegister slot) s) :=
    hS.reserve ht (fun _ => rfl) hS
  have h₁ : Claims (s.reserve t (fun slot => .regularRegister slot) s) :=
    h.reserve hS ht (fun _ => .inl rfl) (fun _ _ _ _ hb => by cases hb) h
  simp only [State.reserve, hres] at hS₁ h₁
  have ht₁ : (((s.setPool pool).setRetired (Function.update s.retired idx false)).goto t
      (.regularRegister idx)).reserved t = some idx := by
    simp [State.reserved, Pc.reserved]
  have hS₂ := hS₁.write (x := (pool.seg idx).fill (upgradeMetadata (s.pool.seg g))) ht₁
    (hS₁.inUsed ht₁) rfl
  have h₂ := h₁.write hS₁ ht₁ ((pool.seg idx).fill (upgradeMetadata (s.pool.seg g)))
  have hfit₂ : Fits (pool.setSeg idx ((pool.seg idx).fill (upgradeMetadata (s.pool.seg g)))) [g]
      (s.pool.seg g).segmentIdStart (s.pool.seg g).segmentIdEnd := hS₁.fits_write ht₁ hfit _
  have hother : ∀ u task, u ≠ t → (s.pc u).task = some task → ∀ a ∈ task.olds, a ∉ [g] := by
    intro u task _ htask a ha hag
    obtain rfl := List.mem_singleton.mp hag
    have := (h.flagged u task htask a ha).2
    rw [hmap] at this
    cases this
  have h₃ : Claims (((((s.setPool pool).setRetired (Function.update s.retired idx false)).goto t
      (.regularRegister idx)).setPool (pool.setSeg idx ((pool.seg idx).fill
        (upgradeMetadata (s.pool.seg g))))).replace cfg t [g] idx) :=
    h₂.replace hS₂ ht₁ hfit₂ fun u task hu htask => hother u task hu (by simpa [hu] using htask)
  simpa [State.replace, State.goto, State.setPool, State.setRetired] using h₃

/-- References do not matter to the claims. -/
theorem acquire (h : Claims s) (gs : List ℕ) : Claims (s.acquire gs) := by
  have hp : Claims (s.setPool (s.acquire gs).pool) :=
    h.setPool (members_congr (fun _ => rfl) rfl) fun _ _ => ⟨rfl, rfl, rfl, rfl⟩
  exact ⟨hp.linked, hp.flagged, hp.exclusive, hp.paired, hp.first, hp.last, hp.bounds⟩

theorem drop (h : Claims s) (g : ℕ) :
    Claims (((s.setPool (s.pool.setSeg g
      ((s.pool.seg g).setRef ((s.pool.seg g).refCount - 1)))).setHeld
        (Function.update s.held g (s.held g - 1))).setDropping
        (Function.update s.dropping g (s.dropping g + 1))) := by
  have hseg : ∀ a, (s.pool.setSeg g ((s.pool.seg g).setRef ((s.pool.seg g).refCount - 1))).seg a =
      (s.pool.seg a).setRef (if a = g then (s.pool.seg g).refCount - 1
        else (s.pool.seg a).refCount) := by
    intro a
    by_cases ha : a = g
    · subst ha
      simp
    · simp [ha, FlushedSegment.setRef]
  have hp : Claims (s.setPool (s.pool.setSeg g
      ((s.pool.seg g).setRef ((s.pool.seg g).refCount - 1)))) := by
    refine h.setPool (members_congr (fun a => by rw [hseg]; rfl) rfl) fun a _ => ?_
    rw [hseg]
    exact ⟨rfl, rfl, rfl, rfl⟩
  exact ⟨hp.linked, hp.flagged, hp.exclusive, hp.paired, hp.first, hp.last, hp.bounds⟩

theorem setStats (h : Claims s) (n : ℕ) (type : IndexType) :
    Claims (s.setPool (s.pool.addCompactionStats cfg n type)) :=
  h.setPool (members_congr (fun _ => rfl) rfl) fun _ _ => ⟨rfl, rfl, rfl, rfl⟩

end Claims

/-- The places the compactions need are among the claims. -/
theorem Steady.undisturbed (hS : Sound s) (h : Claims s) {a : Action} (ha : Steady s a) :
    Undisturbed s a := by
  cases a with
  | run t m =>
      change Placed s t m
      replace ha : SteadyRun s t m := ha
      unfold SteadyRun at ha
      unfold Placed
      cases hpc : s.pc t with
      | regularRegister slot =>
          simp only [hpc] at ha ⊢
          exact ha.1
      | adoptInstall slot kind snaps =>
          simp only [hpc] at ha ⊢
          cases kind with
          | append | exact | stale | tile => exact ha.1
      | upgrade u =>
          simp only [hpc] at ha ⊢
          exact ha
      | compactInstall task lo hi slot =>
          obtain ⟨rfl, rfl⟩ := h.bounds t task lo hi (by rw [hpc]; rfl)
          exact h.fits hS (by rw [hpc]; rfl)
      | _ => trivial
  | check => exact ha
  | _ => trivial

theorem claims_runStep {m : Option SegmentMetadata} (hS : Sound s) (h : Claims s)
    (ha : SteadyRun s t m) (hs : runStep cfg s t m = some s') : Claims s' := by
  unfold runStep at hs
  unfold SteadyRun at ha
  cases hpc : s.pc t with
  | idle =>
      rw [hpc] at hs
      cases hs
  | regularReserve lo hi =>
      simp only [hpc] at hs
      split at hs
      · cases hs
      · obtain rfl := Option.some.inj hs
        exact h.reserve hS (reserved_eq hpc) (fun _ => .inl rfl) (fun _ _ _ _ hb => by cases hb) h
  | regularLoad slot lo hi =>
      simp only [hpc] at hs
      split at hs
      · obtain rfl := Option.some.inj hs
        exact (h.write hS (reserved_eq hpc) _).goto_none rfl
      · cases hs
  | regularRegister slot =>
      simp only [hpc] at hs ha
      obtain rfl := Option.some.inj hs
      exact h.register hS (reserved_eq hpc) ha.1 ha.2
  | adoptReserve a =>
      simp only [hpc] at hs
      obtain rfl := Option.some.inj hs
      exact h.reserve hS (reserved_eq hpc) (fun _ => .inl rfl) (fun _ _ _ _ hb => by cases hb)
        (h.goto_none rfl)
  | adoptLoad a slot =>
      simp only [hpc] at hs
      split at hs
      · obtain rfl := Option.some.inj hs
        exact (h.write hS (reserved_eq hpc) _).goto_none rfl
      · cases hs
  | adoptDecide a slot retry =>
      simp only [hpc] at hs
      split at hs
      · obtain rfl := Option.some.inj hs
        exact h.goto_none rfl
      · split at hs <;>
          · obtain rfl := Option.some.inj hs
            exact h.goto_none rfl
  | adoptValidate a slot retry kind snaps =>
      simp only [hpc] at hs
      split at hs <;>
        · obtain rfl := Option.some.inj hs
          exact h.goto_none rfl
  | adoptInstall slot kind snaps =>
      have hr := reserved_eq hpc
      simp only [hpc] at hs ha
      cases kind with
      | append =>
          obtain rfl := Option.some.inj hs
          exact h.register hS hr ha.1 ha.2
      | exact | stale | tile =>
          obtain rfl := Option.some.inj hs
          refine h.replace hS hr ha.1 fun u task _ hu g hg hgo => ?_
          have := (h.flagged u task hu g hg).1
          rw [ha.2 g hgo] at this
          cases this
  | adoptDiscard slot =>
      simp only [hpc] at hs
      obtain rfl := Option.some.inj hs
      exact h.discard hS (reserved_eq hpc)
  | submitUpgrades =>
      simp only [hpc] at hs
      obtain rfl := Option.some.inj hs
      have hq : Claims (s.setUpgrades (s.upgrades ++ upgradeTasks s.pool)) :=
        ⟨h.linked, h.flagged, h.exclusive, h.paired, h.first, h.last, h.bounds⟩
      exact hq.goto_none rfl
  | upgrade u =>
      simp only [hpc] at hs ha
      cases m with
      | none =>
          obtain rfl := Option.some.inj hs
          exact h.goto_none rfl
      | some m =>
          dsimp only at hs
          split at hs
          next hu =>
            split at hs
            next =>
              obtain rfl := Option.some.inj hs
              exact h.goto_none rfl
            next idx pool hres =>
              obtain rfl := Option.some.inj hs
              refine h.upgrade hS (reserved_eq hpc) hres (ha (by simp) hu) ?_
              simp only [upgradable, Bool.and_eq_true, decide_eq_true_eq] at hu
              exact hu.2
          next =>
            obtain rfl := Option.some.inj hs
            exact h.goto_none rfl
  | gate p =>
      simp only [hpc] at hs
      split_ifs at hs <;>
        · obtain rfl := Option.some.inj hs
          exact h.goto_none rfl
  | traverse p firstPass =>
      simp only [hpc] at hs
      split at hs <;>
        · obtain rfl := Option.some.inj hs
          exact h.goto_none rfl
  | claim p idx0 idx1 =>
      simp only [hpc] at hs ha
      split at hs
      next =>
        obtain rfl := Option.some.inj hs
        exact h.goto_none rfl
      next pool task hc =>
        obtain rfl := Option.some.inj hs
        exact h.claim hc (ha (by rw [hc]; rfl))
  | build task =>
      have htask : (s.pc t).task = some task := by rw [hpc]; rfl
      simp only [hpc] at hs
      cases m with
      | none =>
          obtain rfl := Option.some.inj hs
          exact h.goto (.inr htask.symm) fun _ _ _ hb => by cases hb
      | some m =>
          obtain rfl := Option.some.inj hs
          refine h.goto (.inr htask.symm) fun task' lo hi hb => ?_
          obtain ⟨rfl, hrange⟩ : task = task' ∧ buildRange s.pool task = (lo, hi) := by
            simpa [Pc.bounds] using hb
          have := h.buildRange_eq htask
          rwa [hrange] at this
  | compactReserve task lo hi =>
      have htask : (s.pc t).task = some task := by rw [hpc]; rfl
      have hb := h.bounds t task lo hi (by rw [hpc]; rfl)
      simp only [hpc] at hs
      obtain rfl := Option.some.inj hs
      refine h.reserve hS (reserved_eq hpc) (fun _ => .inr htask.symm) ?_
        (h.goto (.inr htask.symm) fun _ _ _ hb => by cases hb)
      intro slot task' lo' hi' hb'
      obtain ⟨rfl, rfl, rfl⟩ : task = task' ∧ lo = lo' ∧ hi = hi' := by
        simpa [Pc.bounds] using hb'
      exact hb
  | compactInstall task lo hi slot =>
      have htask : (s.pc t).task = some task := by rw [hpc]; rfl
      have hr := reserved_eq hpc
      obtain ⟨rfl, rfl⟩ := h.bounds t task lo hi (by rw [hpc]; rfl)
      simp only [hpc] at hs
      cases m with
      | none => cases hs
      | some m =>
          obtain rfl := Option.some.inj hs
          have hw := h.write hS hr ((s.pool.seg slot).fill
            { m with startSid := task.mergedStartSid, endSid := task.mergedEndSid })
          have hSw := hS.write (x := (s.pool.seg slot).fill
            { m with startSid := task.mergedStartSid, endSid := task.mergedEndSid }) hr
            (hS.inUsed hr) rfl
          have hf := hS.fits_write hr (h.fits hS htask) ((s.pool.seg slot).fill
            { m with startSid := task.mergedStartSid, endSid := task.mergedEndSid })
          refine Claims.setStats (hw.replace hSw hr hf fun u task' hu hutask => ?_)
            m.validRows m.indexType
          exact h.exclusive u t task' task hu hutask htask
  | abort task =>
      have htask : (s.pc t).task = some task := by rw [hpc]; rfl
      simp only [hpc] at hs
      obtain rfl := Option.some.inj hs
      exact h.abort htask

theorem claims_step {a : Action} (hS : Sound s) (h : Claims s) (ha : Steady s a)
    (hs : step cfg s a = some s') : Claims s' := by
  cases a with
  | regular t lo hi =>
      dsimp only [step] at hs
      split_ifs at hs
      · obtain rfl := Option.some.inj hs
        exact h
      · obtain rfl := Option.some.inj hs
        exact h.goto_none rfl
  | adopt t a =>
      dsimp only [step] at hs
      split_ifs at hs
      obtain rfl := Option.some.inj hs
      exact h.goto_none rfl
  | takeUpgrade t =>
      dsimp only [step] at hs
      split at hs
      · cases hs
      next us _ =>
        split_ifs at hs
        obtain rfl := Option.some.inj hs
        have hq : Claims (s.setUpgrades us) :=
          ⟨h.linked, h.flagged, h.exclusive, h.paired, h.first, h.last, h.bounds⟩
        exact hq.goto_none rfl
  | scan t =>
      dsimp only [step] at hs
      split_ifs at hs
      obtain rfl := Option.some.inj hs
      exact h.goto_none rfl
  | run t m => exact claims_runStep hS h ha hs
  | search =>
      obtain rfl := Option.some.inj hs
      exact h.acquire _
  | pin lo hi =>
      dsimp only [step] at hs
      split at hs
      next =>
        obtain rfl := Option.some.inj hs
        exact h
      next =>
        obtain rfl := Option.some.inj hs
        exact h.acquire _
  | drop g =>
      dsimp only [step] at hs
      split_ifs at hs
      obtain rfl := Option.some.inj hs
      exact h.drop g
  | check g lockFree =>
      dsimp only [step] at hs
      split at hs
      · split at hs
        next hz =>
          obtain rfl := Option.some.inj hs
          exact h.check hS hz (ha hz) lockFree
        next =>
          obtain rfl := Option.some.inj hs
          exact ⟨h.linked, h.flagged, h.exclusive, h.paired, h.first, h.last, h.bounds⟩
      · cases hs

theorem claims_of_start (h : Start cfg s) : Claims s := by
  obtain ⟨files, useMmap, -, -, -, hpc, -⟩ := h
  have hnone : ∀ t task, (s.pc t).task ≠ some task := by
    intro t task ht
    rw [hpc, Function.update_apply] at ht
    split_ifs at ht <;> cases ht
  constructor
  case bounds => exact fun t task lo hi hb => absurd (Pc.task_of_bounds hb) (hnone t task)
  case exclusive => exact fun t _ task _ _ ht => absurd ht (hnone t task)
  all_goals exact fun t task ht => absurd ht (hnone t task)

section Demo

/-- The segments 4 and 6 have been loaded, and the file of 5 is still to come. -/
def gapStart : State where
  pool := .loadAll demoConfig false [demoFile 4 4, demoFile 6 6]
  pc := Function.update (fun _ => .idle) 0 .idle
  upgrades := []
  held := fun _ => 0
  dropping := fun _ => 0
  retired := fun _ => false

theorem start_gapStart : Start demoConfig gapStart :=
  ⟨[demoFile 4 4, demoFile 6 6], false, by simp [demoFile], by simp [demoFile], rfl, rfl, rfl, rfl,
    rfl, rfl⟩

/-- Thread 1 picks the two segments, thread 2 adopts segment 5, and thread 1 claims. -/
def gapClaim : List Action :=
  [.scan 1, .run 1 none, .run 1 none, .run 1 none,
    .adopt 2 ⟨5, 5, 1, [5]⟩, .run 2 none, .run 2 (some (demoFile 5 5)), .run 2 none, .run 2 none,
    .run 2 none, .run 1 none]

/-- The condition on a step that links no segment and cleans nothing up; it can be evaluated. -/
def SteadyNoLink (s : State) : Action → Prop
  | .run t _ =>
      match s.pc t with
      | .regularRegister _ | .adoptInstall _ _ _ | .upgrade _ => False
      | .claim p idx0 idx1 => claimOlds (.ofPriority p) idx0 idx1 <:+: s.pool.members
      | _ => True
  | .check _ _ => False
  | _ => True

instance (s : State) (a : Action) : Decidable (SteadyNoLink s a) :=
  decidable_of_bool
    (match a with
      | .run t _ =>
          match s.pc t with
          | .regularRegister _ | .adoptInstall _ _ _ | .upgrade _ => false
          | .claim p idx0 idx1 => claimOlds (.ofPriority p) idx0 idx1 <:+: s.pool.members
          | _ => true
      | .check _ _ => false
      | _ => true) <| by
    unfold SteadyNoLink
    cases a with
    | run t m =>
        dsimp only
        split <;> simp
    | _ => simp

theorem SteadyNoLink.steady {a : Action} (h : SteadyNoLink s a) : Steady s a := by
  cases a with
  | check => exact h.elim
  | run t m =>
      change SteadyRun s t m
      dsimp only [SteadyNoLink] at h
      unfold SteadyRun
      cases hpc : s.pc t <;> simp only [hpc] at h ⊢
      case claim => exact fun _ => h
  | _ => trivial

end Demo

end VectorLsm.Pool
