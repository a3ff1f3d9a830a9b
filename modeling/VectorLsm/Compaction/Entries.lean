import VectorLsm.InMemory.Fields
import VectorLsm.Pool.Claims

/-! # What comes onto the list

Each section of a thread links at most one slot, and its position says which. It gets a task by a
claim and keeps it until it is done with it; the other steps touch neither list nor tasks.
-/

namespace VectorLsm.Pool

open FlushedSegmentPool Transition InMemory

variable {cfg : PoolConfig} {s s' : State} {t slot g : ℕ} {m : Option SegmentMetadata}

/-- The slot the section of a thread links. -/
def Links (s : State) (t : ℕ) (m : Option SegmentMetadata) (g : ℕ) : Prop :=
  match s.pc t with
  | .regularRegister slot | .adoptInstall slot _ _ | .compactInstall _ _ _ slot => g = slot
  | .upgrade u => m ≠ none ∧ upgradable s.pool u = true ∧ ∃ pool, s.pool.reserve = some (g, pool)
  | _ => False

/-- What a section does to the list and to the task of its thread. -/
inductive RunEffect (s : State) (t : ℕ) (m : Option SegmentMetadata) (s' : State) : Prop
  | pass (pc : Pc) (hpc : s'.pc = Function.update s.pc t pc) (hn : pc.task = none)
      (hm : ∀ g ∈ s'.pool.members, g ∈ s.pool.members)
  | linked (slot : ℕ) (hl : Links s t m slot) (hpc : s'.pc = Function.update s.pc t .idle)
      (hm : ∀ g ∈ s'.pool.members, g ∈ s.pool.members ∨ g = slot)
  | claimed (p idx0 : ℕ) (idx1 : Option ℕ) (pool : FlushedSegmentPool) (task : MergeTask)
      (hold : s.pc t = .claim p idx0 idx1)
      (hc : s.pool.claimTask (.ofPriority p) idx0 idx1 = some (pool, task))
      (hpc : s'.pc = Function.update s.pc t (.build task))
      (hm : ∀ g ∈ s'.pool.members, g ∈ s.pool.members)
  | carried (task : MergeTask) (pc : Pc) (hold : (s.pc t).task = some task)
      (hpc : s'.pc = Function.update s.pc t pc) (ht : pc.task = some task)
      (hb : pc ≠ .build task) (hm : ∀ g ∈ s'.pool.members, g ∈ s.pool.members)

section Members

theorem members_of_reserve {pool : FlushedSegmentPool} (hS : Sound s) (ht : s.reserved t = none)
    (hr : s.pool.reserve = some (slot, pool)) : pool.members = s.pool.members := by
  obtain ⟨l, hl⟩ := hS
  rw [(hl.reserve ht hr).members, hl.members]

theorem members_of_write (hS : Sound s) (ht : s.reserved t = some slot) (x : FlushedSegment) :
    (s.pool.setSeg slot x).members = s.pool.members := by
  obtain ⟨l, hl⟩ := hS
  rw [(hl.linked.setSeg (hl.resOutside t slot ht) x).members, hl.members]

theorem members_of_register (hS : Sound s) (ht : s.reserved t = some slot)
    (hf : Fits s.pool [] (s.pool.seg slot).segmentIdStart (s.pool.seg slot).segmentIdEnd) :
    ∀ g ∈ (s.register cfg t slot).pool.members, g ∈ s.pool.members ∨ g = slot := by
  intro g hg
  obtain ⟨l, hl⟩ := hS
  obtain ⟨xs, ys, rfl, hlink, -, -⟩ := hl.register_linked cfg ht hf
  have hm : (s.register cfg t slot).pool.members = xs ++ slot :: ys := hlink.members
  rw [hm] at hg
  rw [hl.members]
  simp only [List.mem_append, List.mem_cons] at hg ⊢
  tauto

theorem members_of_replace {olds : List ℕ} {lo hi : SegmentId} (hS : Sound s)
    (ht : s.reserved t = some slot) (hne : olds ≠ []) (hf : Fits s.pool olds lo hi) :
    ∀ g ∈ (s.replace cfg t olds slot).pool.members, g ∈ s.pool.members ∨ g = slot := by
  intro g hg
  obtain ⟨l, hl⟩ := hS
  obtain ⟨xs, ys, rfl, hlink, -, -⟩ := hl.replaceN_linked cfg ht hne hf
  have hm : (s.replace cfg t olds slot).pool.members = xs ++ slot :: ys := hlink.members
  rw [hm] at hg
  rw [hl.members]
  simp only [List.mem_append, List.mem_cons] at hg ⊢
  tauto

/-- The list after an adoption. -/
theorem members_of_adoptInstall {snaps : List PredSnap} {lo hi : SegmentId} (hS : Sound s)
    (ht : s.reserved t = some slot) (hf : Fits s.pool (snaps.map PredSnap.segIdx) lo hi) :
    ∀ g ∈ (s.replace cfg t (snaps.map PredSnap.segIdx) slot).pool.members,
      g ∈ s.pool.members ∨ g = slot := by
  intro g hg
  rcases eq_or_ne (snaps.map PredSnap.segIdx) [] with hnil | hne
  · rw [hnil] at hg
    exact .inl hg
  · exact members_of_replace hS ht hne hf g hg

theorem members_of_upgrade {pool : FlushedSegmentPool} {idx : ℕ} (hS : Sound s)
    (ht : s.reserved t = none) (hr : s.pool.reserve = some (idx, pool))
    (hg : g ∈ s.pool.members) (x : FlushedSegment) (hu : x.inUsed = true)
    (hx : x.refCount = (pool.seg idx).refCount) :
    ∀ a ∈ ((pool.setSeg idx x).replaceN cfg [g] idx).members, a ∈ s.pool.members ∨ a = idx := by
  intro a ha
  obtain ⟨l, hl⟩ := hS
  have hres := hl.reserve ht hr
  have htr : Function.update s.reserved t (some idx) t = some idx := by simp
  have hw := hres.write htr hu hx
  obtain ⟨xs, ys, hxy, hlink, -, -⟩ := hw.replaceN_linked cfg htr (by simp)
    (hw.fits_self (hl.members ▸ hg))
  rw [hlink.members] at ha
  rw [hl.members, hxy]
  simp only [List.mem_append, List.mem_cons] at ha ⊢
  tauto

theorem members_of_check (hS : Sound s) (hz : (s.pool.seg g).refCount = 0)
    (hg : ∀ u, (s.pc u).reserved ≠ some g) (lockFree : Bool) :
    (if lockFree then (s.pool.cleanup g).rewind g else s.pool.cleanup g).members =
      s.pool.members := by
  obtain ⟨l, hl⟩ := hS
  have hclean : (s.pool.cleanup g).members = s.pool.members :=
    (hl.cleanup hz hg).members.trans hl.members.symm
  cases lockFree with
  | false => exact hclean
  | true =>
      refine (Claims.members_congr (fun a => ?_) (headIdx_rewind _ g)).trans hclean
      rw [seg_rewind]

end Members

/-- No other step changes the list, and none gives a thread a task. -/
theorem otherEffect {a : Action} (hS : Sound s) (ha : Steady s a) (hr : ∀ t m, a ≠ .run t m)
    (hs : step cfg s a = some s') : s'.pool.members = s.pool.members ∧
      ∀ u, s'.pc u = s.pc u ∨ s.pc u = .idle ∧ (s'.pc u).task = none := by
  have hgoto : ∀ {x : State} {t : ℕ} {pc : Pc}, x.pc = s.pc → s.pc t = .idle → pc.task = none →
      ∀ u, (x.goto t pc).pc u = s.pc u ∨ s.pc u = .idle ∧ ((x.goto t pc).pc u).task = none := by
    intro x t pc hx hidle hpc u
    rw [State.goto_pc, Function.update_apply, hx]
    split
    case isTrue hu => exact .inr ⟨hu ▸ hidle, hpc⟩
    case isFalse => exact .inl rfl
  have hsame : ∀ {x : State}, x.pc = s.pc →
      ∀ u, x.pc u = s.pc u ∨ s.pc u = .idle ∧ (x.pc u).task = none :=
    fun hx u => .inl (congrFun hx u)
  cases a with
  | run t m => exact absurd rfl (hr t m)
  | regular t lo hi =>
      simp only [step] at hs
      split at hs
      next h =>
        split at hs <;> obtain rfl := Option.some.inj hs
        · exact ⟨rfl, hsame rfl⟩
        · exact ⟨rfl, hgoto rfl h.1 rfl⟩
      next => cases hs
  | adopt t a =>
      simp only [step] at hs
      split at hs
      next h =>
        obtain rfl := Option.some.inj hs
        exact ⟨rfl, hgoto rfl h.1 rfl⟩
      next => cases hs
  | takeUpgrade t =>
      simp only [step] at hs
      split at hs
      · cases hs
      next us _ =>
        split at hs
        next h =>
          obtain rfl := Option.some.inj hs
          exact ⟨rfl, hgoto (x := s.setUpgrades us) rfl h rfl⟩
        next => cases hs
  | scan t =>
      simp only [step] at hs
      split at hs
      next h =>
        obtain rfl := Option.some.inj hs
        exact ⟨rfl, hgoto rfl h rfl⟩
      next => cases hs
  | search =>
      obtain rfl := Option.some.inj hs
      exact ⟨Claims.members_congr (fun _ => rfl) rfl, hsame rfl⟩
  | pin lo hi =>
      simp only [step] at hs
      split at hs <;> obtain rfl := Option.some.inj hs
      · exact ⟨rfl, hsame rfl⟩
      · exact ⟨Claims.members_congr (fun _ => rfl) rfl, hsame rfl⟩
  | drop g =>
      simp only [step] at hs
      split at hs
      · obtain rfl := Option.some.inj hs
        refine ⟨Claims.members_congr (fun a => ?_) rfl, hsame rfl⟩
        by_cases hag : a = g
        · subst hag
          simp [FlushedSegment.setRef]
        · simp [hag]
      · cases hs
  | check g lockFree =>
      simp only [step] at hs
      split at hs
      · split at hs
        next hz =>
          obtain rfl := Option.some.inj hs
          exact ⟨members_of_check hS hz (ha hz) lockFree, hsame rfl⟩
        next =>
          obtain rfl := Option.some.inj hs
          exact ⟨rfl, hsame rfl⟩
      · cases hs

theorem runEffect (hS : Sound s) (hC : Claims s) (ha : SteadyRun s t m)
    (hs : runStep cfg s t m = some s') : RunEffect s t m s' := by
  unfold runStep at hs
  unfold SteadyRun at ha
  cases hpc : s.pc t with
  | idle =>
      rw [hpc] at hs
      cases hs
  | regularReserve lo hi =>
      simp only [hpc, State.reserve] at hs
      split at hs
      · cases hs
      · obtain rfl := Option.some.inj hs
        cases hr : s.pool.reserve with
        | none => simp [hr] at *
        | some r =>
            have hm := members_of_reserve hS (reserved_eq hpc) hr
            exact .pass _ rfl rfl fun g hg => hm ▸ hg
  | regularLoad slot lo hi =>
      simp only [hpc] at hs
      split at hs
      · obtain rfl := Option.some.inj hs
        have hm := members_of_write hS (reserved_eq hpc) ((s.pool.seg slot).load m false)
        exact .pass _ rfl rfl fun g hg => hm ▸ hg
      · cases hs
  | regularRegister slot =>
      simp only [hpc] at hs ha
      obtain rfl := Option.some.inj hs
      refine .linked slot ?_ rfl (members_of_register hS (reserved_eq hpc) ha.1)
      simp [Links, hpc]
  | adoptReserve a =>
      simp only [hpc, State.reserve] at hs
      obtain rfl := Option.some.inj hs
      cases hr : s.pool.reserve with
      | none => exact .pass .idle rfl rfl fun g hg => hg
      | some r =>
          have hm := members_of_reserve hS (reserved_eq hpc) hr
          exact .pass _ rfl rfl fun g hg => hm ▸ hg
  | adoptLoad a slot =>
      simp only [hpc] at hs
      split at hs
      · obtain rfl := Option.some.inj hs
        have hm := members_of_write hS (reserved_eq hpc)
          { (s.pool.seg slot).load m false with version := a.version }
        exact .pass _ rfl rfl fun g hg => hm ▸ hg
      · cases hs
  | adoptDecide a slot retry =>
      simp only [hpc] at hs
      split at hs
      · obtain rfl := Option.some.inj hs
        exact .pass _ rfl rfl fun g hg => hg
      · split at hs <;>
          · obtain rfl := Option.some.inj hs
            exact .pass _ rfl rfl fun g hg => hg
  | adoptValidate a slot retry kind snaps =>
      simp only [hpc] at hs
      split at hs <;>
        · obtain rfl := Option.some.inj hs
          exact .pass _ rfl rfl fun g hg => hg
  | adoptInstall slot kind snaps =>
      have hr := reserved_eq hpc
      have hlinks : Links s t m slot := by simp [Links, hpc]
      simp only [hpc] at hs ha
      cases kind with
      | append =>
          obtain rfl := Option.some.inj hs
          exact .linked slot hlinks rfl (members_of_register hS hr ha.1)
      | exact | stale | tile =>
          obtain rfl := Option.some.inj hs
          exact .linked slot hlinks rfl (members_of_adoptInstall hS hr ha.1)
  | adoptDiscard slot =>
      simp only [hpc] at hs
      obtain rfl := Option.some.inj hs
      obtain ⟨l, hl⟩ := hS
      have hm := (hl.discard (reserved_eq hpc)).members.trans hl.members.symm
      exact .pass .idle rfl rfl fun g hg => hm ▸ hg
  | submitUpgrades =>
      simp only [hpc] at hs
      obtain rfl := Option.some.inj hs
      exact .pass .idle rfl rfl fun g hg => hg
  | upgrade u =>
      simp only [hpc] at hs ha
      have hidle : RunEffect s t m (s.goto t .idle) :=
        .pass .idle rfl rfl fun g hg => hg
      cases m with
      | none =>
          obtain rfl := Option.some.inj hs
          exact hidle
      | some m =>
          dsimp only at hs
          split at hs
          next hu =>
            split at hs
            next =>
              obtain rfl := Option.some.inj hs
              exact hidle
            next idx pool hres =>
              obtain rfl := Option.some.inj hs
              have hg := ha (by simp) hu
              obtain ⟨-, -, hpool⟩ := reserve_eq hres
              refine .linked idx ?_ rfl (members_of_upgrade hS (reserved_eq hpc) hres hg _ ?_ rfl)
              · simp only [Links, hpc]
                exact ⟨by simp, hu, pool, hres⟩
              · simp [hpool]
          next =>
            obtain rfl := Option.some.inj hs
            exact hidle
  | gate p =>
      simp only [hpc] at hs
      split_ifs at hs <;>
        · obtain rfl := Option.some.inj hs
          exact .pass _ rfl rfl fun g hg => hg
  | traverse p firstPass =>
      simp only [hpc] at hs
      split at hs <;>
        · obtain rfl := Option.some.inj hs
          exact .pass _ rfl rfl fun g hg => hg
  | claim p idx0 idx1 =>
      simp only [hpc] at hs
      split at hs
      next =>
        obtain rfl := Option.some.inj hs
        exact .pass _ rfl rfl fun g hg => hg
      next pool task hc =>
        obtain rfl := Option.some.inj hs
        obtain ⟨-, -, rfl, -⟩ := Claims.claimTask_eq hc
        exact .claimed p idx0 idx1 _ task hpc hc rfl fun g hg =>
          Claims.members_setCompacting_foldl ▸ hg
  | build task =>
      have htask : (s.pc t).task = some task := by rw [hpc]; rfl
      simp only [hpc] at hs
      cases m with
      | none =>
          obtain rfl := Option.some.inj hs
          exact .carried task _ htask rfl rfl (by simp) fun g hg => hg
      | some m =>
          obtain rfl := Option.some.inj hs
          exact .carried task _ htask rfl rfl (by simp) fun g hg => hg
  | compactReserve task lo hi =>
      have htask : (s.pc t).task = some task := by rw [hpc]; rfl
      simp only [hpc, State.reserve] at hs
      obtain rfl := Option.some.inj hs
      cases hr : s.pool.reserve with
      | none => exact .carried task _ htask rfl rfl (by simp) fun g hg => hg
      | some r =>
          have hm := members_of_reserve hS (reserved_eq hpc) hr
          exact .carried task _ htask rfl rfl (by simp) fun g hg => hm ▸ hg
  | compactInstall task lo hi slot =>
      have htask : (s.pc t).task = some task := by rw [hpc]; rfl
      have hr := reserved_eq hpc
      obtain ⟨rfl, rfl⟩ := hC.bounds t task lo hi (by rw [hpc]; rfl)
      have hne : task.olds ≠ [] := by
        rcases olds_cases task with h | ⟨b, -, h⟩ <;> simp [h]
      have hlinks : Links s t m slot := by simp [Links, hpc]
      simp only [hpc] at hs
      cases m with
      | none => cases hs
      | some m =>
          obtain rfl := Option.some.inj hs
          set x := (s.pool.seg slot).fill
            { m with startSid := task.mergedStartSid, endSid := task.mergedEndSid } with hx
          have hSw : Sound (s.setPool (s.pool.setSeg slot x)) := hS.write hr (hS.inUsed hr) rfl
          have hf := hS.fits_write hr (hC.fits hS htask) x
          have hm := @members_of_replace cfg _ _ _ _ _ _ hSw hr hne hf
          have hstats : ∀ pool : FlushedSegmentPool,
              (pool.addCompactionStats cfg m.validRows m.indexType).members = pool.members :=
            fun _ => Claims.members_congr (fun _ => rfl) rfl
          refine .linked slot hlinks rfl fun g hg => ?_
          rw [← members_of_write hS hr x]
          exact hm g (hstats _ ▸ hg)
  | abort task =>
      simp only [hpc] at hs
      obtain rfl := Option.some.inj hs
      exact .pass .idle rfl rfl fun g hg => Claims.members_setCompacting_foldl ▸ hg

end VectorLsm.Pool
