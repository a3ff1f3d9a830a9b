import VectorLsm.Compaction.Rows

/-! # Claimed slots over the steps of the machine

The list and the claims of the pool stay sound under the steps of the machine with arrays and
files. A member keeps its range, its version and its row count, and every member points to arrays;
a thread gets a task by a claim only.
-/

namespace VectorLsm.Building

open Pool FlushedSegmentPool Transition InMemory

variable {cfg : InMemory.Config} {s s' : InMemory.State} {b b' : Pool.State} {t u slot g n : ℕ}
  {m m' : Option SegmentMetadata} {task : MergeTask}

/-- The new segment of a compaction, once it is built. -/
def newFile? : Work → Option SegmentFile
  | .built new | .flushed new | .published new => some new
  | _ => none

/-- What is built for a task has the range of the task. -/
def Ranged (s : InMemory.State) : Prop :=
  ∀ t task new, (s.base.pc t).task = some task → newFile? (s.work t) = some new →
    new.startSid = task.mergedStartSid ∧ new.endSid = task.mergedEndSid

section DeleteCount

/-- The pool with another delete count of a slot. -/
def recount (b : Pool.State) (slot n : ℕ) : Pool.State :=
  b.setPool (b.pool.setSeg slot { b.pool.seg slot with deleteCount := n })

@[simp] theorem recount_pc : (recount b slot n).pc = b.pc := rfl

theorem seg_recount (b : Pool.State) (slot n g : ℕ) :
    ∃ c, (recount b slot n).pool.seg g = { b.pool.seg g with deleteCount := c } := by
  by_cases hg : g = slot
  · subst hg
    exact ⟨n, by simp [recount]⟩
  · exact ⟨(b.pool.seg g).deleteCount, by simp [recount, hg]⟩

@[simp] theorem recount_segmentIdStart (g : ℕ) :
    ((recount b slot n).pool.seg g).segmentIdStart = (b.pool.seg g).segmentIdStart := by
  obtain ⟨c, hc⟩ := seg_recount b slot n g
  rw [hc]

@[simp] theorem recount_segmentIdEnd (g : ℕ) :
    ((recount b slot n).pool.seg g).segmentIdEnd = (b.pool.seg g).segmentIdEnd := by
  obtain ⟨c, hc⟩ := seg_recount b slot n g
  rw [hc]

@[simp] theorem recount_isCompacting (g : ℕ) :
    ((recount b slot n).pool.seg g).isCompacting = (b.pool.seg g).isCompacting := by
  obtain ⟨c, hc⟩ := seg_recount b slot n g
  rw [hc]

@[simp] theorem recount_loadState (g : ℕ) :
    ((recount b slot n).pool.seg g).loadState = (b.pool.seg g).loadState := by
  obtain ⟨c, hc⟩ := seg_recount b slot n g
  rw [hc]

theorem sameFields_recount : SameFields b.pool (recount b slot n).pool := .setSeg _ rfl

@[simp] theorem members_recount : (recount b slot n).pool.members = b.pool.members := by
  refine Claims.members_congr (fun g => ?_) rfl
  obtain ⟨c, hc⟩ := seg_recount b slot n g
  rw [hc]

theorem sound_recount (h : Sound b) : Sound (recount b slot n) := by
  obtain ⟨l, hl⟩ := h
  refine ⟨l, hl.congr (fun g => ?_) recount_segmentIdStart recount_segmentIdEnd (fun g => ?_)
    (hl.linked.setSeg_links _ rfl rfl)⟩
  · obtain ⟨c, hc⟩ := seg_recount b slot n g
    rw [hc]
  · obtain ⟨c, hc⟩ := seg_recount b slot n g
    rw [hc]

theorem claims_recount (h : Claims b) : Claims (recount b slot n) :=
  h.setPool members_recount fun g _ => ⟨recount_segmentIdStart g, recount_segmentIdEnd g,
    recount_isCompacting g, recount_loadState g⟩

theorem steadyRun_recount {kind : AdoptCase} {snaps : List PredSnap} {i : ℕ}
    (hpc : b.pc t = .adoptInstall i kind snaps) (h : SteadyRun b t m) :
    SteadyRun (recount b slot n) t m' := by
  unfold SteadyRun at h ⊢
  rw [recount_pc, hpc]
  rw [hpc] at h
  cases kind <;> simpa [Fits, Apart] using h

end DeleteCount

section Data

theorem reserved_notMem (hS : Sound b) (ht : b.reserved t = some slot) : slot ∉ b.pool.members := by
  obtain ⟨l, hl⟩ := hS
  rw [hl.members]
  exact hl.resOutside t slot ht

/-- A section fills the slot of its thread, which is not on the list. -/
theorem data_runStep (hS : Sound b) (h : Pool.runStep cfg.pool b t m = some b')
    (hg : g ∈ b.pool.members) : data (b'.pool.seg g) = data (b.pool.seg g) := by
  have hpass : (∀ a slot, b.pc t ≠ .adoptLoad a slot) →
      Pool.runStep cfg.pool b t none = some b' → data (b'.pool.seg g) = data (b.pool.seg g) :=
    fun hl hs => (sameContent_runStep hs hl).sameFields g
  have hne : ∀ slot, b.reserved t = some slot → g ≠ slot := fun slot ht =>
    ne_of_mem_of_not_mem hg (reserved_notMem hS ht)
  cases hpc : b.pc t with
  | idle => simp [Pool.runStep, hpc] at h
  | regularLoad slot lo hi =>
      rw [seg_regularLoad hpc h, if_neg (hne slot (by rw [State.reserved, hpc]; rfl))]
  | adoptLoad a slot =>
      rw [seg_adoptLoad hpc h, if_neg (hne slot (by rw [State.reserved, hpc]; rfl))]
  | upgrade u =>
      cases m with
      | none => exact hpass (by simp [hpc]) h
      | some m =>
          by_cases hu : upgradable b.pool u
          · cases hr : b.pool.reserve with
            | none => exact hpass (by simp [hpc]) (by simpa [Pool.runStep, hpc, hu, hr] using h)
            | some r =>
                obtain ⟨idx, pool⟩ := r
                have hc := content_upgrade hpc hu hr h g
                have hidx : g ≠ idx := by
                  obtain ⟨l, hl⟩ := hS
                  rw [hl.members] at hg
                  exact ne_of_mem_of_not_mem hg (hl.not_mem_of_free (reserve_eq hr).1)
                rw [if_neg hidx] at hc
                exact congrArg Prod.fst hc
          · exact hpass (by simp [hpc]) (by simpa [Pool.runStep, hpc, hu] using h)
  | build task =>
      cases m with
      | none => exact hpass (by simp [hpc]) h
      | some m =>
          simp only [Pool.runStep, hpc] at h
          obtain rfl := Option.some.inj h
          rfl
  | compactInstall task lo hi slot =>
      cases m with
      | none => exact hpass (by simp [hpc]) h
      | some m =>
          have hc := content_compactInstall hpc h g
          rw [if_neg (hne slot (by rw [State.reserved, hpc]; rfl))] at hc
          exact congrArg Prod.fst hc
  | adoptInstall slot kind snaps =>
      refine hpass (by simp [hpc]) ?_
      cases kind <;> simpa [Pool.runStep, hpc] using h
  | _ => exact hpass (by simp [hpc]) (by simpa [Pool.runStep, hpc] using h)

end Data

/-- The pool as a section of a thread finds it: the adoption has counted the bits it has set. -/
structure Under (s : InMemory.State) (b : Pool.State) : Prop where
  sound : Sound b
  claims : Claims b
  pc : b.pc = s.base.pc
  members : b.pool.members = s.base.pool.members
  fields : SameFields s.base.pool b.pool

theorem Under.refl (hS : Sound s.base) (hC : Claims s.base) : Under s s.base :=
  ⟨hS, hC, rfl, rfl, fun _ => rfl⟩

theorem steadyRun_mono (h : SteadyRun b t m) (hm : m = none → m' = none) : SteadyRun b t m' := by
  unfold SteadyRun at h ⊢
  cases hpc : b.pc t with
  | upgrade u =>
      simp only [hpc] at h ⊢
      exact fun hne => h fun hnone => hne (hm hnone)
  | adoptInstall slot kind snaps =>
      simp only [hpc] at h ⊢
      cases kind <;> exact h
  | _ =>
      simp only [hpc] at h ⊢
      try exact h

theorem goto_self {pc : Pc} (h : b.pc t = pc) : b.goto t pc = b := by
  subst h
  cases b
  simp [State.goto]

/-- A section of the machine is one of the pool. It fills the slot that it links, and all work but
that of a claim stays. -/
structure Section (cfg : InMemory.Config) (s : InMemory.State) (t : ℕ) (b : Pool.State)
    (m : Option SegmentMetadata) (s' : InMemory.State) : Prop where
  under : Under s b
  steady : SteadyRun b t m
  run : Pool.runStep cfg.pool b t m = some s'.base
  claim : ∀ p idx0 idx1, s.base.pc t = .claim p idx0 idx1 →
    b = s.base ∧ s'.work = Function.update s.work t .none
  work : (∀ p idx0 idx1, s.base.pc t ≠ .claim p idx0 idx1) → s'.work = s.work
  disk : s'.disk = s.disk
  arrays : ∀ g, (s'.base.pool.seg g).inUsed = true → (s.arrays g).isSome ∨ Links b t m g →
    (s'.arrays g).isSome

theorem arrays_setBase {arrays : ℕ → Option Arrays} (hu : (b.pool.seg g).inUsed = true)
    (ha : (arrays g).isSome) : ((s.setBase b arrays).arrays g).isSome := by
  rw [State.setBase_arrays, if_pos hu]
  exact ha

theorem fill_isSome {a : Arrays} (h : (s.arrays g).isSome ∨ g = slot) :
    (s.fill slot a g).isSome := by
  rw [State.fill, Function.update_apply]
  split
  · rfl
  · rcases h with h | h
    · exact h
    · contradiction

/-- A section that is handed nothing. -/
theorem Section.pass {ok : Bool} (hS : Sound s.base) (hC : Claims s.base)
    (hf : Feeds s (.run t ok)) (hc : ∀ p idx0 idx1, s.base.pc t ≠ .claim p idx0 idx1)
    (hci : ∀ task lo hi slot, s.base.pc t ≠ .compactInstall task lo hi slot)
    (hs : (Pool.runStep cfg.pool s.base t none).map (s.setBase · s.arrays) = some s') :
    ∃ b m, Section cfg s t b m s' := by
  obtain ⟨b, hb, rfl⟩ := Option.map_eq_some_iff.mp hs
  refine ⟨s.base, none, .refl hS hC, steadyRun_mono hf.1 fun _ => rfl, hb,
    fun p idx0 idx1 h => absurd h (hc p idx0 idx1), fun _ => rfl, rfl, fun g hu hg => ?_⟩
  refine arrays_setBase hu (hg.elim id fun hl => ?_)
  have hlink := hf.2
  unfold Links at hl
  split at hl
  case h_1 slot hpc =>
    simp only [hpc] at hlink
    exact hl ▸ hlink
  case h_2 slot kind snaps hpc =>
    simp only [hpc] at hlink
    exact hl ▸ hlink
  case h_3 task lo hi slot hpc => exact absurd hpc (hci task lo hi slot)
  case h_4 => exact absurd rfl hl.1
  case h_5 => exact hl.elim

theorem run_section {ok : Bool} (hS : Sound s.base) (hC : Claims s.base) (hr : Ranged s)
    (hf : Feeds s (.run t ok)) (hs : InMemory.runStep cfg s t ok = some s') :
    ∃ b m, Section cfg s t b m s' := by
  have hst : SteadyRun s.base t (if ok then some ⟨0, 0, 0, .flat, 0, 0⟩ else none) := hf.1
  have hpass := fun hc hci => @Section.pass cfg s s' t ok hS hC hf hc hci
  unfold InMemory.runStep at hs
  split at hs
  case h_1 _ _ slot lo hi hpc =>
    split at hs
    case h_1 => exact hpass (by simp [hpc]) (by simp [hpc]) hs
    case h_2 f hf =>
      obtain ⟨b, hb, rfl⟩ := Option.map_eq_some_iff.mp hs
      refine ⟨s.base, _, .refl hS hC, by simp [SteadyRun, hpc], hb, by simp [hpc], fun _ => rfl,
        rfl, fun g hu hg => arrays_setBase hu (fill_isSome ?_)⟩
      exact hg.imp_right fun hl => by simp [Links, hpc] at hl
  case h_2 _ _ a slot hpc =>
    split at hs
    case h_1 => exact hpass (by simp [hpc]) (by simp [hpc]) hs
    case h_2 f hf =>
      obtain ⟨b, hb, rfl⟩ := Option.map_eq_some_iff.mp hs
      refine ⟨s.base, _, .refl hS hC, by simp [SteadyRun, hpc], hb, by simp [hpc], fun _ => rfl,
        rfl, fun g hu hg => arrays_setBase hu (fill_isSome ?_)⟩
      exact hg.imp_right fun hl => by simp [Links, hpc] at hl
  case h_3 _ _ slot kind snaps hpc =>
    dsimp only at hs
    split at hs
    case h_1 => exact hpass (by simp [hpc]) (by simp [hpc]) hs
    case h_2 a ha =>
      obtain ⟨b, hb, rfl⟩ := Option.map_eq_some_iff.mp hs
      refine ⟨recount s.base slot _, none, ⟨sound_recount hS, claims_recount hC, rfl,
        members_recount, sameFields_recount⟩, steadyRun_recount hpc hst, hb, by simp [hpc],
        fun _ => rfl, rfl, fun g hu hg => arrays_setBase hu (fill_isSome ?_)⟩
      exact hg.imp_right fun hl => by simpa [Links, hpc] using hl
  case h_4 _ _ u i hpc hw =>
    split at hs
    case isTrue hok =>
      split at hs
      · split at hs
        · exact hpass (by simp [hpc]) (by simp [hpc]) hs
        · cases hs
        case h_3 idx pool a hres ha =>
          obtain ⟨b, hb, rfl⟩ := Option.map_eq_some_iff.mp hs
          refine ⟨s.base, _, .refl hS hC, steadyRun_mono hst fun h => ?_, hb, by simp [hpc],
            fun _ => rfl, rfl, fun g hu hg => arrays_setBase hu (fill_isSome ?_)⟩
          · rw [if_pos hok] at h
            cases h
          · refine hg.imp_right fun hl => ?_
            simp only [Links, hpc, hres] at hl
            obtain ⟨-, -, pool', he⟩ := hl
            exact (Prod.mk.inj (Option.some.inj he)).1.symm
      · exact hpass (by simp [hpc]) (by simp [hpc]) hs
    case isFalse => cases hs
  case h_5 _ _ u hpc _ =>
    split at hs
    · cases hs
    · exact hpass (by simp [hpc]) (by simp [hpc]) hs
  case h_6 _ _ task new hpc hw =>
    obtain rfl := Option.some.inj hs
    have htask : (s.base.pc t).task = some task := by rw [hpc]; rfl
    obtain ⟨h₁, h₂⟩ := hr t task new htask (by rw [hw]; rfl)
    obtain ⟨h₃, h₄⟩ := hC.buildRange_eq htask
    refine ⟨s.base, some ⟨0, 0, 0, .flat, 0, 0⟩, .refl hS hC, by simp [SteadyRun, hpc], ?_,
      by simp [hpc], fun _ => rfl, rfl, fun g hu hg => arrays_setBase hu (hg.elim id fun hl => ?_)⟩
    · simp only [Pool.runStep, hpc, h₃, h₄, h₁, h₂, State.setBase_base]
    · simp [Links, hpc] at hl
  case h_7 _ _ task hpc _ =>
    split at hs
    · cases hs
    · exact hpass (by simp [hpc]) (by simp [hpc]) hs
  case h_8 _ _ task lo hi slot new hpc hw =>
    obtain ⟨b, hb, rfl⟩ := Option.map_eq_some_iff.mp hs
    have htask : (s.base.pc t).task = some task := by rw [hpc]; rfl
    obtain ⟨h₁, h₂⟩ := hr t task new htask (by rw [hw]; rfl)
    obtain ⟨rfl, rfl⟩ := hC.bounds t task lo hi (by rw [hpc]; rfl)
    rw [h₁, h₂, goto_self hpc] at hb
    refine ⟨s.base, _, .refl hS hC, by simp [SteadyRun, hpc], hb, by simp [hpc], fun _ => rfl, rfl,
      fun g hu hg => arrays_setBase hu (fill_isSome ?_)⟩
    exact hg.imp_right fun hl => by simpa [Links, hpc] using hl
  case h_9 _ _ p idx0 idx1 hpc =>
    obtain ⟨b, hb, rfl⟩ := Option.map_eq_some_iff.mp hs
    refine ⟨s.base, none, .refl hS hC, steadyRun_mono hst fun _ => rfl, hb,
      fun _ _ _ _ => ⟨rfl, rfl⟩, fun h => absurd hpc (h p idx0 idx1), rfl,
      fun g hu hg => arrays_setBase hu (hg.elim id fun hl => ?_)⟩
    simp [Links, hpc] at hl
  case h_10 hclaim _ _ _ =>
    refine hpass hclaim (fun task lo hi slot hpc => ?_) hs
    simp [Pool.runStep, hpc] at hs

/-- Where the task of a thread comes from. -/
inductive TaskCase (s : InMemory.State) (a : InMemory.Action) (s' : InMemory.State) (u : ℕ)
    (task : MergeTask) : Prop
  | kept (hpc : (s.base.pc u).task = some task)
      (hb : s'.base.pc u = .build task → s.base.pc u = .build task)
      (hw : s'.work u = s.work u ∨ a = .work u)
  | claimed (p idx0 : ℕ) (idx1 : Option ℕ) (ok : Bool) (pool : FlushedSegmentPool)
      (ha : a = .run u ok) (hpc : s.base.pc u = .claim p idx0 idx1)
      (hc : s.base.pool.claimTask (.ofPriority p) idx0 idx1 = some (pool, task))
      (hw : s'.work u = .none)

/-- Every member points to arrays. -/
def Filled (s : InMemory.State) : Prop := ∀ g ∈ s.base.pool.members, (s.arrays g).isSome

/-- What a step does to the pool and to the tasks. -/
structure Moves (s : InMemory.State) (a : InMemory.Action) (s' : InMemory.State) : Prop where
  sound : Sound s'.base
  claims : Claims s'.base
  filled : Filled s'
  data : ∀ g ∈ s.base.pool.members, data (s'.base.pool.seg g) = data (s.base.pool.seg g)
  task : ∀ u task, (s'.base.pc u).task = some task → TaskCase s a s' u task

theorem inUsed_of_mem (hS : Sound b) (hg : g ∈ b.pool.members) : (b.pool.seg g).inUsed = true := by
  obtain ⟨l, hl⟩ := hS
  exact hl.used g (hl.members ▸ hg)

section Moves

variable {a : InMemory.Action}

theorem moves_run {ok : Bool} (hS : Sound s.base) (hC : Claims s.base) (hr : Ranged s)
    (hF : Filled s) (hf : Feeds s (.run t ok)) (hs : InMemory.runStep cfg s t ok = some s') :
    Moves s (.run t ok) s' := by
  obtain ⟨b, m, h⟩ := run_section hS hC hr hf hs
  have hsteady : Steady b (.run t m) := h.steady
  have hsound : Sound s'.base :=
    sound_step h.under.sound (hsteady.undisturbed h.under.sound h.under.claims) h.run
  have he := runEffect h.under.sound h.under.claims h.steady h.run
  have hmem : ∀ g ∈ s'.base.pool.members, g ∈ b.pool.members ∨ Links b t m g := by
    intro g hg
    cases he with
    | pass _ _ _ hm => exact .inl (hm g hg)
    | linked slot hl _ hm =>
        rcases hm g hg with hg | rfl
        · exact .inl hg
        · exact .inr hl
    | claimed _ _ _ _ _ _ _ _ hm => exact .inl (hm g hg)
    | carried _ _ _ _ _ _ hm => exact .inl (hm g hg)
  constructor
  case sound => exact hsound
  case claims => exact claims_runStep h.under.sound h.under.claims h.steady h.run
  case filled =>
    intro g hg
    refine h.arrays g (inUsed_of_mem hsound hg) ((hmem g hg).imp_left fun hg => hF g ?_)
    exact h.under.members ▸ hg
  case data =>
    intro g hg
    exact (data_runStep h.under.sound h.run (h.under.members ▸ hg)).trans (h.under.fields g)
  case task =>
    intro u task hu
    -- the other threads stay where they are, and so does their work
    have hother : s'.base.pc u = s.base.pc u → u ≠ t → TaskCase s (.run t ok) s' u task := by
      intro hpc hut
      refine .kept (hpc ▸ hu) (fun hb => hpc ▸ hb) (.inl ?_)
      by_cases hc : ∃ p idx0 idx1, s.base.pc t = .claim p idx0 idx1
      · obtain ⟨p, idx0, idx1, hc⟩ := hc
        rw [(h.claim p idx0 idx1 hc).2, Function.update_of_ne hut]
      · rw [h.work fun p idx0 idx1 hpc => hc ⟨p, idx0, idx1, hpc⟩]
    have hthread : ∀ pc, s'.base.pc = Function.update b.pc t pc → (u = t ∧ s'.base.pc u = pc) ∨
        (u ≠ t ∧ s'.base.pc u = s.base.pc u) := by
      intro pc hpc
      rw [hpc, Function.update_apply, h.under.pc]
      split
      case isTrue hut => exact .inl ⟨hut, rfl⟩
      case isFalse hut => exact .inr ⟨hut, rfl⟩
    cases he with
    | pass pc hpc hn _ =>
        rcases hthread pc hpc with ⟨rfl, hpcu⟩ | ⟨hut, hpcu⟩
        · rw [hpcu, hn] at hu
          cases hu
        · exact hother hpcu hut
    | linked slot _ hpc _ =>
        rcases hthread _ hpc with ⟨rfl, hpcu⟩ | ⟨hut, hpcu⟩
        · rw [hpcu] at hu
          cases hu
        · exact hother hpcu hut
    | claimed p idx0 idx1 pool task' hold hc hpc _ =>
        rcases hthread _ hpc with ⟨rfl, hpcu⟩ | ⟨hut, hpcu⟩
        · rw [h.under.pc] at hold
          obtain ⟨rfl, hw⟩ := h.claim p idx0 idx1 hold
          rw [hpcu] at hu
          obtain rfl : task' = task := Option.some.inj hu
          exact .claimed p idx0 idx1 ok pool rfl hold hc (by rw [hw, Function.update_self])
        · exact hother hpcu hut
    | carried task' pc hold hpc ht hb _ =>
        rcases hthread _ hpc with ⟨rfl, hpcu⟩ | ⟨hut, hpcu⟩
        · rw [h.under.pc] at hold
          rw [hpcu, ht] at hu
          obtain rfl : task' = task := Option.some.inj hu
          refine .kept hold (fun hbu => absurd (hpcu.symm.trans hbu) hb) (.inl ?_)
          rw [h.work fun p idx0 idx1 hc => ?_]
          rw [hc] at hold
          cases hold
        · exact hother hpcu hut

/-- The pool is left as it is, but for a delete count. -/
theorem moves_same (hU : Under s s'.base) (hF : Filled s)
    (ha : ∀ g, (s'.base.pool.seg g).inUsed = true → (s.arrays g).isSome → (s'.arrays g).isSome)
    (hw : ∀ u, s'.work u = s.work u ∨ a = .work u) : Moves s a s' where
  sound := hU.sound
  claims := hU.claims
  filled := fun g hg => ha g (inUsed_of_mem hU.sound hg) (hF g (hU.members ▸ hg))
  data := fun g _ => hU.fields g
  task := by
    intro u task hu
    rw [hU.pc] at hu
    exact .kept hu (fun hb => hU.pc ▸ hb) (hw u)

/-- A step of the pool that is no section of a maintenance thread. -/
theorem moves_other {x : Pool.Action} (hS : Sound s.base) (hC : Claims s.base) (hF : Filled s)
    (hx : Steady s.base x) (hr : ∀ t m, x ≠ .run t m)
    (hs : Pool.step cfg.pool s.base x = some s'.base)
    (ha : ∀ g, (s'.base.pool.seg g).inUsed = true → (s.arrays g).isSome → (s'.arrays g).isSome)
    (hw : ∀ u, s.base.pc u ≠ .idle → s'.work u = s.work u) : Moves s a s' := by
  obtain ⟨hm, hpc⟩ := otherEffect hS hx hr hs
  have hsound : Sound s'.base := sound_step hS (hx.undisturbed hS hC) hs
  constructor
  case sound => exact hsound
  case claims => exact claims_step hS hC hx hs
  case filled => exact fun g hg => ha g (inUsed_of_mem hsound hg) (hF g (hm ▸ hg))
  case data => exact fun g _ => (sameContent_step hs hr).sameFields g
  case task =>
    intro u task hu
    rcases hpc u with hpcu | ⟨-, hnone⟩
    · rw [hpcu] at hu
      refine .kept hu (fun hb => hpcu ▸ hb) (.inl (hw u fun hidle => ?_))
      rw [hidle] at hu
      cases hu
    · rw [hnone] at hu
      cases hu

theorem moves_update {junk : ℕ → Bool} (hS : Sound s.base) (hC : Claims s.base) (hF : Filled s)
    (hs : InMemory.updateStep cfg s t junk = some s') : Moves s (.updateNext t junk) s' := by
  have hU := Under.refl hS hC
  unfold InMemory.updateStep at hs
  split at hs
  case h_1 => cases hs
  case h_2 =>
    split at hs <;>
      · obtain rfl := Option.some.inj hs
        exact moves_same hU hF (fun _ _ h => h) fun _ => .inl rfl
  case h_3 lo hi g hu =>
    split at hs
    case h_1 =>
      obtain rfl := Option.some.inj hs
      exact moves_same hU hF (fun _ _ h => h) fun _ => .inl rfl
    case h_2 => cases hs
    case h_3 f a hf ha =>
      obtain rfl := Option.some.inj hs
      exact moves_same ⟨sound_recount hS, claims_recount hC, rfl, members_recount,
        sameFields_recount⟩ hF (fun _ _ h => fill_isSome (.inl h)) fun _ => .inl rfl
  case h_4 g bits hu =>
    obtain ⟨b, hb, rfl⟩ := Option.map_eq_some_iff.mp hs
    refine moves_other (x := .drop g) hS hC hF trivial (by simp) hb
      (fun g' hu' h => arrays_setBase hu' ?_) fun _ _ => rfl
    cases s.arrays g with
    | none => exact h
    | some a => exact fill_isSome (.inl h)
  case h_5 g hu =>
    obtain ⟨b, hb, rfl⟩ := Option.map_eq_some_iff.mp hs
    exact moves_other (x := .drop g) hS hC hF trivial (by simp) hb
      (fun _ hu' h => arrays_setBase hu' h) fun _ _ => rfl

theorem moves_work (hS : Sound s.base) (hC : Claims s.base) (hF : Filled s)
    (hs : InMemory.workStep s t = some s') : Moves s (.work t) s' := by
  have hU := Under.refl hS hC
  have hset : ∀ w : Work, ∀ u, (s.setWork t w).work u = s.work u ∨
      InMemory.Action.work t = .work u := by
    intro w u
    rw [State.setWork_work, Function.update_apply]
    split
    case isTrue hu => exact .inr (by rw [hu])
    case isFalse => exact .inl rfl
  unfold InMemory.workStep at hs
  split at hs
  case h_1 | h_2 | h_3 =>
    obtain ⟨x, -, rfl⟩ := Option.map_eq_some_iff.mp hs
    exact moves_same hU hF (fun _ _ h => h) (hset _)
  case h_4 | h_5 =>
    obtain rfl := Option.some.inj hs
    exact moves_same hU hF (fun _ _ h => h) (hset _)
  case h_6 => cases hs

theorem moves_step (hS : Sound s.base) (hC : Claims s.base) (hr : Ranged s) (hF : Filled s)
    (hf : Feeds s a) (hs : InMemory.step cfg s a = some s') : Moves s a s' := by
  have hU := Under.refl hS hC
  cases a with
  | regular t lo hi =>
      obtain ⟨b, hb, rfl⟩ := Option.map_eq_some_iff.mp hs
      exact moves_other (x := .regular t lo hi) hS hC hF trivial (by simp) hb
        (fun _ hu h => arrays_setBase hu h) fun _ _ => rfl
  | adopt t a gs =>
      obtain ⟨b, hb, rfl⟩ := Option.map_eq_some_iff.mp hs
      have hidle : s.base.pc t = .idle := by
        simp only [Pool.step] at hb
        split at hb
        next h => exact h.1
        next => cases hb
      refine moves_other (x := .adopt t a) hS hC hF trivial (by simp) hb
        (fun _ hu h => arrays_setBase hu h) fun u hu => ?_
      refine Function.update_of_ne (fun hut => hu ?_) _ _
      rw [hut, hidle]
  | takeUpgrade t =>
      obtain ⟨b, hb, rfl⟩ := Option.map_eq_some_iff.mp hs
      have hidle : s.base.pc t = .idle := by
        simp only [Pool.step] at hb
        split at hb
        · cases hb
        · split at hb
          next h => exact h
          next => cases hb
      refine moves_other (x := .takeUpgrade t) hS hC hF trivial (by simp) hb
        (fun _ hu h => arrays_setBase hu h) fun u hu => ?_
      refine Function.update_of_ne (fun hut => hu ?_) _ _
      rw [hut, hidle]
  | scan t =>
      obtain ⟨b, hb, rfl⟩ := Option.map_eq_some_iff.mp hs
      exact moves_other (x := .scan t) hS hC hF trivial (by simp) hb
        (fun _ hu h => arrays_setBase hu h) fun _ _ => rfl
  | run t ok => exact moves_run hS hC hr hF hf hs
  | work t => exact moves_work hS hC hF hs
  | pull f =>
      simp only [InMemory.step] at hs
      split at hs
      · obtain rfl := Option.some.inj hs
        exact moves_same hU hF (fun _ _ h => h) fun _ => .inl rfl
      · cases hs
  | writeBitmap i bitmap n =>
      obtain ⟨f, -, rfl⟩ := Option.map_eq_some_iff.mp hs
      exact moves_same hU hF (fun _ _ h => h) fun _ => .inl rfl
  | update t lo hi expected =>
      simp only [InMemory.step] at hs
      split at hs
      · split at hs
        · obtain rfl := Option.some.inj hs
          exact moves_same hU hF (fun _ _ h => h) fun _ => .inl rfl
        · obtain ⟨b, hb, rfl⟩ := Option.map_eq_some_iff.mp hs
          exact moves_other (x := .pin lo hi) hS hC hF trivial (by simp) hb
            (fun _ hu h => arrays_setBase hu h) fun _ _ => rfl
      · cases hs
  | updateNext t junk => exact moves_update hS hC hF hs
  | search =>
      simp only [InMemory.step] at hs
      obtain ⟨b, hb, rfl⟩ := Option.map_eq_some_iff.mp hs
      exact moves_other (x := .search) hS hC hF trivial (by simp) hb
        (fun _ hu h => arrays_setBase hu h) fun _ _ => rfl
  | drop g =>
      simp only [InMemory.step] at hs
      split at hs
      · obtain ⟨b, hb, rfl⟩ := Option.map_eq_some_iff.mp hs
        exact moves_other (x := .drop g) hS hC hF trivial (by simp) hb
          (fun _ hu h => arrays_setBase hu h) fun _ _ => rfl
      · cases hs
  | check g lockFree =>
      obtain ⟨b, hb, rfl⟩ := Option.map_eq_some_iff.mp hs
      exact moves_other (x := .check g lockFree) hS hC hF hf (by simp) hb
        (fun _ hu h => arrays_setBase hu h) fun _ _ => rfl

end Moves

end VectorLsm.Building
