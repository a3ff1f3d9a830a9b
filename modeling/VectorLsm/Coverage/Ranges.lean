import VectorLsm.Compaction.Entries
import VectorLsm.Pool.Displacement

/-! # The ids a pool represents

On a primary segments come from the flush and from compactions. None of their steps, and none of
the readers', takes an id out of the ranges of the list, and a slot in service keeps its range
whatever the others do.
-/

namespace VectorLsm.Pool

open FlushedSegmentPool Transition InMemory

variable {cfg : PoolConfig} {s s' : State} {t slot g : ℕ} {m : Option SegmentMetadata}
  {sid lo hi : SegmentId}

/-- The id is in the range of a member. -/
def Represented (pool : FlushedSegmentPool) (sid : SegmentId) : Prop :=
  ∃ g ∈ pool.members, pool.Covers g sid

instance (pool : FlushedSegmentPool) (sid : SegmentId) : Decidable (Represented pool sid) :=
  inferInstanceAs (Decidable (∃ g ∈ _, _))

/-- Program points of a primary, which adopts nothing. -/
def Pc.Local : Pc → Prop
  | .adoptReserve _ | .adoptLoad _ _ | .adoptDecide _ _ _ | .adoptValidate _ _ _ _ _
  | .adoptInstall _ _ _ | .adoptDiscard _ => False
  | _ => True

/-- Actions of a primary. -/
def Action.Local : Action → Prop
  | .adopt _ _ => False
  | _ => True

section Kept

theorem covers_iff_info {pool : FlushedSegmentPool} : pool.Covers g sid ↔
    (pool.seg g).info.startSid ≤ sid ∧ sid ≤ (pool.seg g).info.endSid := Iff.rfl

/-- Slots with the same content have the same range. -/
theorem covers_congr {pool pool' : FlushedSegmentPool}
    (h : data (pool'.seg g) = data (pool.seg g)) :
    pool'.Covers g sid ↔ pool.Covers g sid := by
  have hinfo : (pool'.seg g).info = (pool.seg g).info := congrArg Prod.fst h
  rw [covers_iff_info, covers_iff_info, hinfo]

/-- A section fills the slot of its thread, or one that is free. -/
theorem data_section (h : runStep cfg s t m = some s') (hr : s.reserved t ≠ some g)
    (hu : (s.pool.seg g).inUsed = true) : data (s'.pool.seg g) = data (s.pool.seg g) := by
  have hpass : (∀ a slot, s.pc t ≠ .adoptLoad a slot) →
      runStep cfg s t none = some s' → data (s'.pool.seg g) = data (s.pool.seg g) :=
    fun hl hs => (sameContent_runStep hs hl).sameFields g
  have hne : ∀ slot, s.reserved t = some slot → g ≠ slot := by
    rintro slot ht rfl
    exact hr ht
  cases hpc : s.pc t with
  | idle => simp [runStep, hpc] at h
  | regularLoad slot lo hi =>
      rw [seg_regularLoad hpc h, if_neg (hne slot (reserved_eq hpc))]
  | adoptLoad a slot =>
      rw [seg_adoptLoad hpc h, if_neg (hne slot (reserved_eq hpc))]
  | upgrade u =>
      cases m with
      | none => exact hpass (by simp [hpc]) h
      | some m =>
          by_cases hup : upgradable s.pool u
          · cases hres : s.pool.reserve with
            | none => exact hpass (by simp [hpc]) (by simpa [runStep, hpc, hup, hres] using h)
            | some r =>
                obtain ⟨idx, pool⟩ := r
                have hc := content_upgrade hpc hup hres h g
                have hidx : g ≠ idx := by
                  rintro rfl
                  rw [(reserve_eq hres).1] at hu
                  cases hu
                rw [if_neg hidx] at hc
                exact congrArg Prod.fst hc
          · exact hpass (by simp [hpc]) (by simpa [runStep, hpc, hup] using h)
  | build task =>
      cases m with
      | none => exact hpass (by simp [hpc]) h
      | some m =>
          simp only [runStep, hpc] at h
          obtain rfl := Option.some.inj h
          rfl
  | compactInstall task lo hi slot =>
      cases m with
      | none => exact hpass (by simp [hpc]) h
      | some m =>
          have hc := content_compactInstall hpc h g
          rw [if_neg (hne slot (reserved_eq hpc))] at hc
          exact congrArg Prod.fst hc
  | adoptInstall slot kind snaps =>
      refine hpass (by simp [hpc]) ?_
      cases kind <;> simpa [runStep, hpc] using h
  | _ => exact hpass (by simp [hpc]) (by simpa [runStep, hpc] using h)

/-- A slot in service keeps its range while its owner does nothing. -/
theorem data_step {a : Action} (h : step cfg s a = some s') (hu : (s.pool.seg g).inUsed = true)
    (hr : ∀ t m, a = .run t m → s.reserved t ≠ some g) :
    data (s'.pool.seg g) = data (s.pool.seg g) := by
  cases a with
  | run t m => exact data_section h (hr t m rfl) hu
  | _ => exact (sameContent_step h (by simp)).sameFields g

end Kept

section Lists

/-- A list that has the members it had keeps what it represents. -/
theorem represented_of_subset {pool pool' : FlushedSegmentPool}
    (hm : ∀ g ∈ pool.members, g ∈ pool'.members)
    (hd : ∀ g ∈ pool.members, data (pool'.seg g) = data (pool.seg g))
    (h : Represented pool sid) : Represented pool' sid := by
  obtain ⟨g, hg, hc⟩ := h
  exact ⟨g, hm g hg, (covers_congr (hd g hg)).2 hc⟩

/-- A registered segment comes to the members there are. -/
theorem mem_register (cfg : PoolConfig) (hS : Sound s) (ht : s.reserved t = some slot)
    (hf : Fits s.pool [] (s.pool.seg slot).segmentIdStart (s.pool.seg slot).segmentIdEnd) :
    slot ∈ (s.register cfg t slot).pool.members ∧
      ∀ g ∈ s.pool.members, g ∈ (s.register cfg t slot).pool.members := by
  obtain ⟨l, hl⟩ := hS
  obtain ⟨xs, ys, rfl, hlink, -, -⟩ := hl.register_linked cfg ht hf
  have hm : (s.register cfg t slot).pool.members = xs ++ slot :: ys := hlink.members
  rw [hm, hl.members]
  refine ⟨by simp, fun g hg => ?_⟩
  simp only [List.mem_append, List.mem_cons] at hg ⊢
  tauto

/-- A segment that takes the place of others comes to the members that are left. -/
theorem mem_replaceN (cfg : PoolConfig) {pool : FlushedSegmentPool} {reserved : ℕ → Option ℕ}
    {held : ℕ → ℕ} {retired : ℕ → Bool} {l olds : List ℕ} (hl : Inv pool reserved held retired l)
    (ht : reserved t = some slot) (hne : olds ≠ []) (hf : Fits pool olds lo hi) :
    slot ∈ (pool.replaceN cfg olds slot).members ∧
      ∀ g ∈ pool.members, g ∉ olds → g ∈ (pool.replaceN cfg olds slot).members := by
  obtain ⟨xs, ys, rfl, hlink, -, -⟩ := hl.replaceN_linked cfg ht hne hf
  rw [hlink.members, hl.members]
  refine ⟨by simp, fun g hg hgo => ?_⟩
  simp only [List.mem_append, List.mem_cons] at hg ⊢
  tauto

/-- The range of a task holds the ranges of its segments. -/
theorem covers_of_olds (hS : Sound s) (hC : Claims s) {task : MergeTask}
    (ht : (s.pc t).task = some task) (hg : g ∈ task.olds) (hc : s.pool.Covers g sid) :
    task.mergedStartSid ≤ sid ∧ sid ≤ task.mergedEndSid := by
  obtain ⟨l, hl⟩ := hS
  obtain ⟨hlo, hhi⟩ := hc
  have hlink := hC.linked t task ht
  have hfirst := hC.first t task ht
  have hlast := hC.last t task ht
  rcases olds_cases task with holds | ⟨b, -, holds⟩
  · rw [holds] at hg hfirst hlast
    obtain rfl := List.mem_singleton.mp hg
    rw [← hfirst _ rfl, ← hlast _ rfl]
    exact ⟨hlo, hhi⟩
  · rw [holds] at hg hlink hfirst hlast
    rw [← hfirst _ rfl, ← hlast b rfl]
    rw [hl.members] at hlink
    have hab := (List.pairwise_cons.mp (hl.sorted.sublist hlink.sublist)).1 b List.mem_cons_self
    have hna := hl.nonempty task.segmentIdx0 (hlink.subset List.mem_cons_self)
    have hnb := hl.nonempty b (hlink.subset (by simp))
    rcases List.mem_cons.mp hg with rfl | hg
    · exact ⟨hlo, by lia⟩
    · obtain rfl := List.mem_singleton.mp hg
      exact ⟨by lia, hhi⟩

end Lists

section Steps

/-- The member stays on the list, or another takes its place with a range that holds its own. -/
def Survives (pool : FlushedSegmentPool) (g : ℕ) (pool' : FlushedSegmentPool) : Prop :=
  g ∈ pool'.members ∨
    ∃ slot ∈ pool'.members, ∀ sid, pool.Covers g sid → pool'.Covers slot sid

theorem survives_install {task : MergeTask} {x : SegmentMetadata} (hS : Sound s) (hC : Claims s)
    (hpc : s.pc t = .compactInstall task lo hi slot)
    (hs : runStep cfg s t (some x) = some s') (hg : g ∈ s.pool.members) :
    Survives s.pool g s'.pool := by
  have htask : (s.pc t).task = some task := by rw [hpc]; rfl
  have hr := reserved_eq hpc
  have hinfo : (s'.pool.seg slot).info = ⟨lo, hi, x.version⟩ := by
    have hcontent := content_compactInstall hpc hs slot
    rw [if_pos rfl] at hcontent
    exact congrArg (fun c => c.1.1) hcontent
  obtain ⟨rfl, rfl⟩ := hC.bounds t task lo hi (by rw [hpc]; rfl)
  have hne : task.olds ≠ [] := by
    rcases olds_cases task with h | ⟨b, -, h⟩ <;> simp [h]
  have hfit := hS.fits_write hr (hC.fits hS htask) ((s.pool.seg slot).fill
    { x with startSid := task.mergedStartSid, endSid := task.mergedEndSid })
  have hw := hS.write (x := (s.pool.seg slot).fill
    { x with startSid := task.mergedStartSid, endSid := task.mergedEndSid }) hr (hS.inUsed hr) rfl
  have hmw := members_of_write hS hr ((s.pool.seg slot).fill
    { x with startSid := task.mergedStartSid, endSid := task.mergedEndSid })
  simp only [runStep, hpc] at hs
  obtain rfl := Option.some.inj hs
  obtain ⟨l, hl⟩ := hw
  obtain ⟨hslot, hkeep⟩ := mem_replaceN cfg hl hr hne hfit
  by_cases hgo : g ∈ task.olds
  · -- the new segment has the range of the task
    refine .inr ⟨slot, hslot, fun sid hc => ?_⟩
    rw [covers_iff_info, hinfo]
    exact covers_of_olds hS hC htask hgo hc
  · exact .inl (hkeep g (hmw ▸ hg) hgo)

theorem survives_upgrade {u : UpgradeTask} {x : SegmentMetadata} {idx : ℕ}
    {pool : FlushedSegmentPool} (hS : Sound s) (hpc : s.pc t = .upgrade u)
    (hu : upgradable s.pool u = true) (hres : s.pool.reserve = some (idx, pool))
    (hm : u.segmentIdx ∈ s.pool.members) (hs : runStep cfg s t (some x) = some s')
    (hg : g ∈ s.pool.members) : Survives s.pool g s'.pool := by
  have hinfo : (s'.pool.seg idx).info = (s.pool.seg u.segmentIdx).info := by
    have hcontent := content_upgrade hpc hu hres hs idx
    rw [if_pos rfl] at hcontent
    exact congrArg (fun c => c.1.1) hcontent
  simp only [runStep, hpc, hu, hres, if_true] at hs
  obtain rfl := Option.some.inj hs
  have hpool := members_of_reserve hS (reserved_eq hpc) hres
  obtain ⟨l, hl⟩ := hS
  have hr := hl.reserve (t := t) (reserved_eq hpc) hres
  have htr : Function.update s.reserved t (some idx) t = some idx := by simp
  have hw := hr.write htr (s := (pool.seg idx).fill (upgradeMetadata (s.pool.seg u.segmentIdx)))
    (by simpa using hr.resUsed t idx htr) rfl
  have hmw : (pool.setSeg idx ((pool.seg idx).fill
      (upgradeMetadata (s.pool.seg u.segmentIdx)))).members = s.pool.members := by
    rw [hw.members, ← hr.members, hpool]
  have hmem : u.segmentIdx ∈ l := by rwa [← hw.members, hmw]
  obtain ⟨hslot, hkeep⟩ := mem_replaceN cfg hw htr (by simp) (hw.fits_self hmem)
  by_cases hgu : g = u.segmentIdx
  · subst hgu
    refine .inr ⟨idx, hslot, fun sid hc => ?_⟩
    rwa [covers_iff_info, hinfo]
  · exact .inl (hkeep g (hmw ▸ hg) (by simpa using hgu))

theorem survives_section (hS : Sound s) (hC : Claims s) (hl : (s.pc t).Local)
    (ha : SteadyRun s t m) (hs : runStep cfg s t m = some s') (hg : g ∈ s.pool.members) :
    Survives s.pool g s'.pool := by
  have hstep := hs
  unfold runStep at hs
  unfold SteadyRun at ha
  cases hpc : s.pc t with
  | idle =>
      rw [hpc] at hs
      cases hs
  | regularReserve lo hi =>
      simp only [hpc, State.reserve] at hs
      split at hs
      · cases hs
      · obtain rfl := Option.some.inj hs
        cases hr : s.pool.reserve with
        | none => exact .inl hg
        | some r => exact .inl (members_of_reserve hS (reserved_eq hpc) hr ▸ hg)
  | regularLoad slot lo hi =>
      simp only [hpc] at hs
      split at hs
      · obtain rfl := Option.some.inj hs
        exact .inl (members_of_write hS (reserved_eq hpc) _ ▸ hg)
      · cases hs
  | regularRegister slot =>
      simp only [hpc] at hs ha
      obtain rfl := Option.some.inj hs
      exact .inl ((mem_register _ hS (reserved_eq hpc) ha.1).2 g hg)
  | submitUpgrades =>
      simp only [hpc] at hs
      obtain rfl := Option.some.inj hs
      exact .inl hg
  | upgrade u =>
      simp only [hpc] at hs ha
      cases m with
      | none =>
          obtain rfl := Option.some.inj hs
          exact .inl hg
      | some x =>
          dsimp only at hs
          split at hs
          next hu =>
            split at hs
            next =>
              obtain rfl := Option.some.inj hs
              exact .inl hg
            next idx pool hres => exact survives_upgrade hS hpc hu hres (ha (by simp) hu) hstep hg
          next =>
            obtain rfl := Option.some.inj hs
            exact .inl hg
  | gate p =>
      simp only [hpc] at hs
      split_ifs at hs <;>
        · obtain rfl := Option.some.inj hs
          exact .inl hg
  | traverse p firstPass =>
      simp only [hpc] at hs
      split at hs <;>
        · obtain rfl := Option.some.inj hs
          exact .inl hg
  | claim p idx0 idx1 =>
      simp only [hpc] at hs
      split at hs
      next =>
        obtain rfl := Option.some.inj hs
        exact .inl hg
      next pool task hc =>
        obtain rfl := Option.some.inj hs
        obtain ⟨-, -, rfl, -⟩ := Claims.claimTask_eq hc
        exact .inl (Claims.members_setCompacting_foldl.symm ▸ hg)
  | build task =>
      simp only [hpc] at hs
      cases m <;>
        · obtain rfl := Option.some.inj hs
          exact .inl hg
  | compactReserve task lo hi =>
      simp only [hpc, State.reserve] at hs
      obtain rfl := Option.some.inj hs
      cases hr : s.pool.reserve with
      | none => exact .inl hg
      | some r => exact .inl (members_of_reserve hS (reserved_eq hpc) hr ▸ hg)
  | compactInstall task lo hi slot =>
      cases m with
      | none => simp [runStep, hpc] at hstep
      | some x => exact survives_install hS hC hpc hstep hg
  | abort task =>
      simp only [hpc] at hs
      obtain rfl := Option.some.inj hs
      exact .inl (Claims.members_setCompacting_foldl.symm ▸ hg)
  | adoptReserve | adoptLoad | adoptDecide | adoptValidate | adoptInstall | adoptDiscard =>
      rw [hpc] at hl
      exact hl.elim

/-- On a primary no step takes an id out of the pool. -/
theorem represented_step {a : Action} (hS : Sound s) (hC : Claims s)
    (hl : ∀ t, (s.pc t).Local) (ha : Steady s a) (hs : step cfg s a = some s')
    (h : Represented s.pool sid) : Represented s'.pool sid := by
  obtain ⟨l, hinv⟩ := id hS
  have hdata : ∀ g ∈ s.pool.members, data (s'.pool.seg g) = data (s.pool.seg g) := by
    intro g hg
    rw [hinv.members] at hg
    exact data_step hs (hinv.used g hg) fun t _ _ hr => hinv.resOutside t g hr hg
  cases a with
  | run t m =>
      obtain ⟨g, hg, hc⟩ := h
      rcases survives_section hS hC (hl t) ha hs hg with hmem | ⟨slot, hslot, hsub⟩
      · exact ⟨g, hmem, (covers_congr (hdata g hg)).2 hc⟩
      · exact ⟨slot, hslot, hsub sid hc⟩
  | _ =>
      have hm := (otherEffect hS ha (by simp) hs).1
      exact represented_of_subset (fun g hg => hm ▸ hg) hdata h

/-- A slot that somebody references keeps its range. -/
theorem covers_of_held {a : Action} (hS : Sound s) (hg : 0 < s.held g)
    (hs : step cfg s a = some s') : s'.pool.Covers g sid ↔ s.pool.Covers g sid := by
  obtain ⟨l, hl⟩ := hS
  have hu : (s.pool.seg g).inUsed = true := by
    by_contra hu
    have := hl.free g (by simpa using hu)
    omega
  refine covers_congr (data_step hs hu fun t _ _ hr => ?_)
  have := hl.resUnheld t g hr
  omega

end Steps

section Threads

/-- Where a thread that runs goes is where it stands in the next state; the others stay. -/
theorem pc_runStep (hS : Sound s) (hC : Claims s) (ha : SteadyRun s t m)
    (hs : runStep cfg s t m = some s') : ∃ pc, s'.pc = Function.update s.pc t pc := by
  cases runEffect hS hC ha hs with
  | pass pc hpc | carried task pc _ hpc => exact ⟨pc, hpc⟩
  | linked slot _ hpc => exact ⟨.idle, hpc⟩
  | claimed p idx0 idx1 pool task _ _ hpc => exact ⟨.build task, hpc⟩

theorem local_goto {pc : Pc} (hl : ∀ u, (s.pc u).Local) (hpc : pc.Local) (u : ℕ) :
    ((s.goto t pc).pc u).Local := by
  rw [State.goto_pc, Function.update_apply]
  split
  · exact hpc
  · exact hl u

theorem local_reserve {pc : ℕ → Pc} {full : State} (hl : ∀ u, (s.pc u).Local)
    (hpc : ∀ slot, (pc slot).Local) (hfull : ∀ u, (full.pc u).Local) (u : ℕ) :
    ((s.reserve t pc full).pc u).Local := by
  unfold State.reserve
  split
  · exact hfull u
  · exact local_goto hl (hpc _) u

theorem held_reserve {pc : ℕ → Pc} {full : State} (hfull : full.held = s.held) :
    (s.reserve t pc full).held = s.held := by
  unfold State.reserve
  split
  · exact hfull
  · rfl

/-- No section of a thread drops a reference, and on a primary none goes on with an adoption. -/
theorem local_runStep (hl : ∀ u, (s.pc u).Local) (hs : runStep cfg s t m = some s') :
    s'.held = s.held ∧ ∀ u, (s'.pc u).Local := by
  have ht := hl t
  unfold runStep at hs
  cases hpc : s.pc t with
  | idle =>
      rw [hpc] at hs
      cases hs
  | regularReserve lo hi =>
      simp only [hpc] at hs
      split at hs
      · cases hs
      · obtain rfl := Option.some.inj hs
        exact ⟨held_reserve rfl, local_reserve hl (fun _ => trivial) hl⟩
  | regularLoad slot lo hi =>
      simp only [hpc] at hs
      split at hs
      · obtain rfl := Option.some.inj hs
        exact ⟨rfl, local_goto hl trivial⟩
      · cases hs
  | regularRegister slot | submitUpgrades | abort task =>
      simp only [hpc] at hs
      obtain rfl := Option.some.inj hs
      exact ⟨rfl, local_goto hl trivial⟩
  | upgrade u =>
      simp only [hpc] at hs
      cases m with
      | none =>
          obtain rfl := Option.some.inj hs
          exact ⟨rfl, local_goto hl trivial⟩
      | some x =>
          dsimp only at hs
          split at hs
          · split at hs <;>
              · obtain rfl := Option.some.inj hs
                exact ⟨rfl, local_goto hl trivial⟩
          · obtain rfl := Option.some.inj hs
            exact ⟨rfl, local_goto hl trivial⟩
  | gate p =>
      simp only [hpc] at hs
      split_ifs at hs <;>
        · obtain rfl := Option.some.inj hs
          exact ⟨rfl, local_goto hl trivial⟩
  | traverse p firstPass | claim p idx0 idx1 =>
      simp only [hpc] at hs
      split at hs <;>
        · obtain rfl := Option.some.inj hs
          exact ⟨rfl, local_goto hl trivial⟩
  | build task =>
      simp only [hpc] at hs
      cases m <;>
        · obtain rfl := Option.some.inj hs
          exact ⟨rfl, local_goto hl trivial⟩
  | compactReserve task lo hi =>
      simp only [hpc] at hs
      obtain rfl := Option.some.inj hs
      exact ⟨held_reserve rfl, local_reserve hl (fun _ => trivial) (local_goto hl trivial)⟩
  | compactInstall task lo hi slot =>
      simp only [hpc] at hs
      cases m with
      | none => cases hs
      | some x =>
          obtain rfl := Option.some.inj hs
          exact ⟨rfl, local_goto hl trivial⟩
  | adoptReserve | adoptLoad | adoptDecide | adoptValidate | adoptInstall | adoptDiscard =>
      rw [hpc] at ht
      exact ht.elim

theorem local_step {a : Action} (hl : ∀ u, (s.pc u).Local) (ha : a.Local)
    (hs : step cfg s a = some s') : ∀ u, (s'.pc u).Local := by
  cases a with
  | run t m => exact (local_runStep hl hs).2
  | adopt => exact ha.elim
  | regular t lo hi =>
      simp only [step] at hs
      split_ifs at hs <;> obtain rfl := Option.some.inj hs
      · exact hl
      · exact local_goto hl trivial
  | takeUpgrade t =>
      simp only [step] at hs
      split at hs
      · cases hs
      · split_ifs at hs
        obtain rfl := Option.some.inj hs
        exact local_goto (s := s.setUpgrades _) hl trivial
  | scan t =>
      simp only [step] at hs
      split_ifs at hs
      obtain rfl := Option.some.inj hs
      exact local_goto hl trivial
  | search =>
      obtain rfl := Option.some.inj hs
      exact hl
  | pin lo hi =>
      simp only [step] at hs
      split at hs <;>
        · obtain rfl := Option.some.inj hs
          exact hl
  | drop g =>
      simp only [step] at hs
      split_ifs at hs
      obtain rfl := Option.some.inj hs
      exact hl
  | check g lockFree =>
      simp only [step] at hs
      split at hs
      · split at hs <;>
          · obtain rfl := Option.some.inj hs
            exact hl
      · cases hs

/-- A reference is dropped by the one that drops it. -/
theorem le_held_step {a : Action} {n : ℕ} (hl : ∀ u, (s.pc u).Local)
    (hs : step cfg s a = some s') (h : n ≤ s.held g) (ha : a = .drop g → n < s.held g) :
    n ≤ s'.held g := by
  cases a with
  | run t m => rwa [(local_runStep hl hs).1]
  | search =>
      obtain rfl := Option.some.inj hs
      exact h.trans (Nat.le_add_right _ _)
  | drop g' =>
      simp only [step] at hs
      split_ifs at hs
      obtain rfl := Option.some.inj hs
      rcases eq_or_ne g g' with rfl | hne
      · have := ha rfl
        simp only [State.setDropping_held, State.setHeld_held, Function.update_self]
        omega
      · simpa [hne] using h
  | pin lo hi =>
      simp only [step] at hs
      split at hs <;> obtain rfl := Option.some.inj hs
      · exact h
      · exact h.trans (Nat.le_add_right _ _)
  | _ =>
      simp only [step] at hs
      grind [State.goto_held, State.setUpgrades_held, State.setDropping_held, State.setPool_held]

/-- The thread is on its way to register the segment of one id. -/
def Pc.Serves (pool : FlushedSegmentPool) (sid : SegmentId) : Pc → Prop
  | .regularReserve lo hi | .regularLoad _ lo hi => lo = sid ∧ hi = sid
  | .regularRegister slot => (pool.seg slot).info.range = (sid, sid)
  | _ => False

/-- The thread is about to read the file of a `SEGMENT_UPDATE_REGULAR`. -/
def Pc.regularLoading : Pc → Bool
  | .regularLoad _ _ _ => true
  | _ => false

/-- A `SEGMENT_UPDATE_REGULAR` load finds its file. -/
def Loads (s : State) : Action → Prop
  | .run t none => (s.pc t).regularLoading = false
  | _ => True

instance (s : State) (a : Action) : Decidable (Loads s a) :=
  a.casesOn (motive := fun a => Decidable (Loads s a))
    (fun _ _ _ => .isTrue trivial) (fun _ _ => .isTrue trivial) (fun _ => .isTrue trivial)
    (fun _ => .isTrue trivial)
    (fun t m => m.casesOn (motive := fun m => Decidable (Loads s (.run t m)))
      (inferInstanceAs (Decidable ((s.pc t).regularLoading = false))) fun _ => .isTrue trivial)
    (.isTrue trivial) (fun _ _ => .isTrue trivial) (fun _ => .isTrue trivial)
    fun _ _ => .isTrue trivial

/-- A thread that is not the one that runs goes on serving what it serves. -/
theorem Pc.Serves.congr {pool' : FlushedSegmentPool} {pc : Pc} (h : pc.Serves s.pool sid)
    (hd : ∀ slot, pc.reserved = some slot → data (pool'.seg slot) = data (s.pool.seg slot)) :
    pc.Serves pool' sid := by
  cases pc with
  | regularRegister slot =>
      have hinfo : (pool'.seg slot).info = (s.pool.seg slot).info := congrArg Prod.fst (hd slot rfl)
      change (pool'.seg slot).info.range = (sid, sid)
      rw [hinfo]
      exact h
  | regularReserve | regularLoad => exact h
  | _ => exact h.elim

/-- The sections of the thread itself lead to the registration. -/
theorem serves_runStep (hS : Sound s) (ha : SteadyRun s t m) (hload : Loads s (.run t m))
    (h : (s.pc t).Serves s.pool sid) (hs : runStep cfg s t m = some s') :
    (s'.pc t).Serves s'.pool sid ∨ s'.pc t = .idle ∧ Represented s'.pool sid := by
  have hstep := hs
  unfold runStep at hs
  unfold SteadyRun at ha
  cases hpc : s.pc t with
  | regularReserve lo hi =>
      rw [hpc] at h
      simp only [hpc, State.reserve] at hs
      split at hs
      · cases hs
      · obtain rfl := Option.some.inj hs
        cases hr : s.pool.reserve with
        | none => simp [hr] at *
        | some r => exact .inl (by simpa [Pc.Serves] using h)
  | regularLoad slot lo hi =>
      rw [hpc] at h
      obtain ⟨rfl, rfl⟩ : lo = sid ∧ hi = sid := h
      simp only [hpc] at hs
      split at hs
      next hfile =>
        obtain rfl := Option.some.inj hs
        cases m with
        | none =>
            simp [Loads, hpc, Pc.regularLoading] at hload
        | some x =>
            obtain ⟨hlo, hhi⟩ := hfile x rfl
            refine .inl ?_
            simp [Pc.Serves, FlushedSegment.load, FlushedSegment.info, SegmentFileInfo.range,
              hlo, hhi]
      next => cases hs
  | regularRegister slot =>
      rw [hpc] at h
      simp only [hpc] at hs ha
      obtain rfl := Option.some.inj hs
      have hmem := (mem_register cfg hS (reserved_eq hpc) ha.1).1
      refine .inr ⟨by simp [State.register], slot, hmem, ?_⟩
      have hd : data ((s.register cfg t slot).pool.seg slot) = data (s.pool.seg slot) :=
        (SameContent.register cfg).sameFields slot
      obtain ⟨hlo, hhi⟩ := Prod.mk.inj h
      rw [covers_congr hd, covers_iff_info]
      exact ⟨hlo.le, hhi.ge⟩
  | _ =>
      rw [hpc] at h
      exact h.elim

theorem serves_step {a : Action} (hS : Sound s) (hC : Claims s) (ha : Steady s a)
    (hload : Loads s a) (h : (s.pc t).Serves s.pool sid) (hs : step cfg s a = some s') :
    (s'.pc t).Serves s'.pool sid ∨ s'.pc t = .idle ∧ Represented s'.pool sid := by
  obtain ⟨l, hl⟩ := id hS
  have hother : (∀ m, a ≠ .run t m) → s'.pc t = s.pc t →
      (s'.pc t).Serves s'.pool sid := by
    intro hne hpc
    rw [hpc]
    refine h.congr fun slot hslot => data_step hs (hl.resUsed t slot hslot) ?_
    rintro u m rfl hu
    obtain rfl := hl.distinct u t slot hu hslot
    exact hne m rfl
  cases a with
  | run u m =>
      by_cases hu : u = t
      · subst hu
        exact serves_runStep hS ha hload h hs
      · obtain ⟨pc, hpc⟩ := pc_runStep hS hC ha hs
        refine .inl (hother (fun m' => ?_) ?_)
        · simp only [ne_eq, Action.run.injEq, not_and]
          exact fun h => absurd h hu
        · rw [hpc, Function.update_of_ne (Ne.symm hu)]
  | _ =>
      refine .inl (hother (by simp) ?_)
      rcases (otherEffect hS ha (by simp) hs).2 t with hpc | ⟨hidle, -⟩
      · exact hpc
      · rw [hidle] at h
        exact h.elim

/-- A request for one id is answered at once when the id is in the pool. -/
theorem serves_regular (hS : Sound s) (hs : step cfg s (.regular t sid sid) = some s') :
    (s'.pc t).Serves s'.pool sid ∨ s'.pc t = .idle ∧ Represented s'.pool sid := by
  simp only [step] at hs
  split at hs
  next hidle =>
    split at hs <;> obtain rfl := Option.some.inj hs
    next hfound =>
      obtain ⟨l, hl⟩ := hS
      obtain ⟨g, hg⟩ := Option.isSome_iff_exists.mp hfound
      have hmem := List.mem_of_find?_eq_some hg
      have hrange := List.find?_some hg
      rw [hl.linked.membersToTail, ← hl.members] at hmem
      simp only [Bool.and_eq_true, decide_eq_true_eq] at hrange
      exact .inr ⟨hidle.1, g, hmem, hrange.1.2.le, hrange.2.ge⟩
    next => exact .inl (by simp [Pc.Serves])
  next => cases hs

end Threads

end VectorLsm.Pool
