import VectorLsm.Compaction.Measure

/-! # What the steps do to the measure

The invariant that holds while nobody else writes the pool, and what each step takes off the
potential. Searches, the index load and its upgrades may come in between.
-/

namespace VectorLsm.Scheduler

open Pool FlushedSegmentPool Transition

section Steps

variable {cfg : MergeConfig} {x x' : State} {t : ℕ} {s' : Pool.State}

/-- What a section of a merge thread works on is what its task builds. -/
theorem input_eq {task : MergeTask} (ht : (x.base.pc t).task = some task) (b : Built) :
    x.input cfg t (some b) = some (x.segmentBuilt cfg task b) := by
  unfold State.input
  rw [ht]
  rfl

theorem steady_of_carriesThrough {b : Option Built} (hm : Merging (x.base.pc t))
    (ha : CarriesThrough cfg x (.run t b)) : SteadyRun x.base t (x.input cfg t b) := by
  unfold CarriesThrough at ha
  unfold SteadyRun
  cases hpc : x.base.pc t with
  | claim p idx0 idx1 =>
      simp only [hpc] at ha
      exact fun h => (ha h).1
  | regularReserve | regularLoad | regularRegister | adoptReserve | adoptLoad | adoptDecide
  | adoptValidate | adoptInstall | adoptDiscard | submitUpgrades | upgrade =>
      rw [hpc] at hm
      exact hm.elim
  | _ => trivial

theorem mem_olds (task : MergeTask) : task.segmentIdx0 ∈ task.olds := by
  rcases olds_cases task with h | ⟨b, -, h⟩ <;> simp [h]

/-- Tasks only end, and the kinds of the segments are kept. -/
theorem Settled.due_of_kinds (h : Settled cfg x)
    (htask : ∀ u task, (s'.pc u).task = some task → (x.base.pc u).task = some task)
    (hkind : ∀ g ∈ x.base.pool.members, kind (s'.pool.seg g) = kind (x.base.pool.seg g))
    (u : ℕ) (task : MergeTask) (hu : (s'.pc u).task = some task) : Due s'.pool task := by
  have hu := htask u task hu
  exact (h.due u task hu).congr (hkind _ ((h.claims.linked u task hu).subset (mem_olds task)))

/-- The thread that runs goes on with its task, or has none. -/
theorem task_of_update (pc : Pc) {u : ℕ} {task : MergeTask}
    (hpc : s'.pc = Function.update x.base.pc t pc)
    (ht : pc.task = none ∨ pc.task = (x.base.pc t).task) (hu : (s'.pc u).task = some task) :
    (x.base.pc u).task = some task := by
  rw [hpc] at hu
  rcases eq_or_ne u t with rfl | hne
  · rw [Function.update_self] at hu
    rcases ht with ht | ht
    · rw [ht] at hu
      cases hu
    · rwa [← ht]
  · rwa [Function.update_of_ne hne] at hu

theorem Settled.due_runStep {b : Option Built} (h : Settled cfg x)
    (ha : CarriesThrough cfg x (.run t b))
    (ht : MergeTrans cfg.toPoolConfig x.base t (x.input cfg t b) s') (u : ℕ) (task : MergeTask)
    (hu : (s'.pc u).task = some task) : Due s'.pool task := by
  have hkeeps := ht.keeps h.sound
  unfold CarriesThrough at ha
  generalize x.input cfg t b = m at ht
  cases ht with
  | claimed hpc hc =>
      have hw := ha
      simp only [hpc, hc] at hw
      have hk := (hkeeps (by simp [hpc])).kind
      by_cases hut : u = t
      · subst hut
        rw [State.goto_pc, Function.update_self] at hu
        obtain rfl := Option.some.inj hu
        have hd := due_of_claimTask cfg hc (hw rfl).2
        refine hd.congr (hk _ ((hw rfl).1.subset ?_))
        rw [← (Claims.claimTask_eq hc).1]
        exact mem_olds _
      · rw [State.goto_pc, Function.update_of_ne hut] at hu
        exact (h.due u task hu).congr (hk _ ((h.claims.linked u task hu).subset (mem_olds task)))
  | @installed m task' lo hi slot hpc =>
      have hrep := (replaced_install cfg.toPoolConfig m h.sound h.claims hpc).1
      exact h.due_of_kinds (fun u task => task_of_update .idle rfl (.inl rfl)) hrep.kind
        u task hu
  | buildFailed hpc | built hpc | full hpc =>
      refine h.due_of_kinds (fun u task => task_of_update _ rfl (.inr ?_))
        (hkeeps (by simp [hpc])).kind u task hu
      rw [hpc]
      rfl
  | reserved hpc =>
      refine h.due_of_kinds (fun u task => task_of_update _ rfl (.inr ?_))
        (hkeeps (by simp [hpc])).kind u task hu
      rw [hpc]
      rfl
  | gateEnd hpc | gateOpen hpc | gateSkip hpc | nothing hpc | found hpc | claimLost hpc
  | aborted hpc =>
      exact h.due_of_kinds (fun u task => task_of_update _ rfl (.inl rfl))
        (hkeeps (by simp [hpc])).kind u task hu

/-- A section of a merge thread keeps the invariant. -/
theorem Settled.runStep {b : Option Built} (h : Settled cfg x) (hlt : t < cfg.numThreads)
    (ha : CarriesThrough cfg x (.run t b))
    (hs : Pool.runStep cfg.toPoolConfig x.base t (x.input cfg t b) = some s') :
    Settled cfg ((x.leave t b).setBase s') := by
  have hm := h.merging t hlt
  have hsteady := steady_of_carriesThrough hm ha
  have htrans := mergeTrans_of_runStep hm hs
  constructor
  case sound =>
    exact sound_runStep h.sound (Steady.undisturbed (a := .run t _) h.sound h.claims hsteady) hs
  case claims => exact claims_runStep h.sound h.claims hsteady hs
  case due => exact h.due_runStep ha htrans
  case merging =>
    intro u hu
    rcases eq_or_ne u t with rfl | hne
    · exact htrans.merging hm
    · rw [State.setBase_base, htrans.pc_of_ne hne]
      exact h.merging u hu
  case loading =>
    intro u hu
    rw [State.setBase_base, htrans.pc_of_ne (by omega)]
    exact h.loading u hu
  case alive =>
    intro u
    have : (x.leave t b).raised = x.raised := by
      unfold State.leave
      split <;> try split
      all_goals rfl
    rw [State.setBase_raised, this]
    exact h.alive u

end Steps

section Background

variable {cfg : MergeConfig} {x x' : State} {n t : ℕ} {s s' : Pool.State} {a : Pool.Action}

/-- An upgraded segment takes the place of the mapped one. -/
theorem replaced_upgrade (c : PoolConfig) {l : List ℕ} {slot g : ℕ} {pool : FlushedSegmentPool}
    (h : Pool.Inv s.pool s.reserved s.held s.retired l) (ht : s.reserved t = none)
    (hres : s.pool.reserve = some (slot, pool)) (hg : g ∈ s.pool.members) :
    Replaced [g] slot s.pool ((pool.setSeg slot ((pool.seg slot).fill
        (upgradeMetadata (s.pool.seg g)))).replaceN c [g] slot) ∧
      kind (((pool.setSeg slot ((pool.seg slot).fill
        (upgradeMetadata (s.pool.seg g)))).replaceN c [g] slot).seg slot) =
        ((s.pool.seg g).indexType, (s.pool.seg g).deleteCount, .fullyLoaded) := by
  obtain ⟨hfree, -, hpool⟩ := reserve_eq hres
  have hne : ∀ a ∈ l, a ≠ slot := fun a ha => ne_of_mem_of_not_mem ha (h.not_mem_of_free hfree)
  have hout : slot ∉ l := h.not_mem_of_free hfree
  have h₁ := h.reserve ht hres
  have htr : Function.update s.reserved t (some slot) t = some slot := by simp
  have h₂ := h₁.write (s := (pool.seg slot).fill (upgradeMetadata (s.pool.seg g))) htr
    (by simpa using h₁.resUsed t slot htr) rfl
  have hkeep : Keeps s.pool pool := by
    refine ⟨h₁.members.trans h.members.symm, fun a ha => ?_⟩
    simp [hpool, hne a (h.members ▸ ha)]
  have hkeep' := hkeep.trans (Keeps.setSeg h₁.linked hout
    ((pool.seg slot).fill (upgradeMetadata (s.pool.seg g))))
  refine ⟨hkeep'.replaced (replaced_of_fits c h₂ htr (by simp) (h₂.fits_self (h.members ▸ hg))), ?_⟩
  rw [kind_replaceN (List.nodup_singleton g) (by simp)]
  simp [kind, upgradeMetadata]

/-- A slot that is cleaned up is not on the list. -/
theorem alike_cleanup {l : List ℕ} {g : ℕ} (h : Pool.Inv s.pool s.reserved s.held s.retired l)
    (hz : (s.pool.seg g).refCount = 0) (hg : ∀ u, (s.pc u).reserved ≠ some g) (lockFree : Bool) :
    Alike s.pool (if lockFree then (s.pool.cleanup g).rewind g else s.pool.cleanup g) := by
  have hclean : Alike s.pool (s.pool.cleanup g) := by
    refine ⟨(h.cleanup hz hg).members.trans h.members.symm, rfl, rfl, fun a ha => ?_⟩
    have hne : a ≠ g := ne_of_mem_of_not_mem (h.members ▸ ha) (h.kept.not_mem_of_zero hz)
    refine ⟨(s.pool.seg a).refCount, ?_⟩
    simp [FlushedSegmentPool.cleanup, hne, FlushedSegment.setRef]
  cases lockFree with
  | false => exact hclean
  | true =>
      have hrewind : ((s.pool.cleanup g).rewind g).stats = (s.pool.cleanup g).stats := by
        unfold rewind
        split <;> rfl
      refine ⟨(Claims.members_congr (fun a => ?_) ?_).trans hclean.members, ?_,
        hrewind.trans hclean.stats, fun a ha => ?_⟩
      · rw [if_pos rfl, seg_rewind]
      · exact headIdx_rewind _ g
      · exact (headIdx_rewind _ g).trans hclean.headIdx
      · rw [if_pos rfl, seg_rewind]
        exact hclean.seg a ha

/-- What the others do: the pool is left as it is but for references, or an upgrade takes the
place of its segment. -/
theorem background_cases {c : PoolConfig} (hS : Sound s) (hl : ∀ u, n ≤ u → Loading (s.pc u))
    (ha : Steady s a) (hb : background n a = true) (hs : Pool.step c s a = some s') :
    (∀ u < n, s'.pc u = s.pc u) ∧ (∀ u, n ≤ u → Loading (s'.pc u)) ∧
      (upgrades s a = false ∧ Alike s.pool s'.pool ∨
        upgrades s a = true ∧ ∃ g slot, g ∈ s.pool.members ∧
          (s.pool.seg g).loadState = .mmapLoaded ∧ Replaced [g] slot s.pool s'.pool ∧
          kind (s'.pool.seg slot) = ((s.pool.seg g).indexType, (s.pool.seg g).deleteCount,
            .fullyLoaded)) := by
  obtain ⟨l, hlist⟩ := hS
  have hpcs : ∀ {t : ℕ} (pc : Pc), n ≤ t → Loading pc →
      (∀ u < n, Function.update s.pc t pc u = s.pc u) ∧
        ∀ u, n ≤ u → Loading (Function.update s.pc t pc u) := by
    intro t pc ht hpc
    refine ⟨fun u hu => Function.update_of_ne (by omega) _ _, fun u hu => ?_⟩
    rcases eq_or_ne u t with rfl | hne
    · rwa [Function.update_self]
    · rw [Function.update_of_ne hne]
      exact hl u hu
  cases a with
  | takeUpgrade t =>
      have ht : n ≤ t := by simpa [background] using hb
      dsimp only [Pool.step] at hs
      split at hs
      · cases hs
      next u us _ =>
        split_ifs at hs
        obtain rfl := Option.some.inj hs
        have hup := hpcs (.upgrade u) ht trivial
        exact ⟨hup.1, hup.2, .inl ⟨rfl, .refl _⟩⟩
  | run t m =>
      have ht : n ≤ t := by simpa [background] using hb
      have hload := hl t ht
      dsimp only [Pool.step, Pool.runStep] at hs
      cases hpc : s.pc t with
      | idle => simp [hpc] at hs
      | submitUpgrades =>
          simp only [hpc] at hs
          obtain rfl := Option.some.inj hs
          have hidle := hpcs .idle ht trivial
          refine ⟨hidle.1, hidle.2, .inl ⟨?_, .refl _⟩⟩
          cases m <;> simp [upgrades, hpc]
      | upgrade u =>
          simp only [hpc] at hs
          have hidle := hpcs .idle ht trivial
          cases m with
          | none =>
              obtain rfl := Option.some.inj hs
              exact ⟨hidle.1, hidle.2, .inl ⟨rfl, .refl _⟩⟩
          | some m =>
              dsimp only at hs
              split_ifs at hs with hu
              · split at hs
                next hres =>
                  obtain rfl := Option.some.inj hs
                  exact ⟨hidle.1, hidle.2, .inl ⟨by simp [upgrades, hpc, hres], .refl _⟩⟩
                next slot pool hres =>
                  obtain rfl := Option.some.inj hs
                  have hg : u.segmentIdx ∈ s.pool.members := by
                    have ha : SteadyRun s t (some m) := ha
                    simp only [SteadyRun, hpc] at ha
                    exact ha (Option.some_ne_none m) hu
                  obtain ⟨hrep, hk⟩ := replaced_upgrade c hlist (reserved_eq hpc) hres hg
                  refine ⟨hidle.1, hidle.2, .inr ⟨by simp [upgrades, hpc, hu, hres],
                    u.segmentIdx, slot, hg, ?_, hrep, hk⟩⟩
                  simp only [upgradable, Bool.and_eq_true, decide_eq_true_eq] at hu
                  exact hu.2
              · obtain rfl := Option.some.inj hs
                exact ⟨hidle.1, hidle.2, .inl ⟨by simp [upgrades, hpc, hu], .refl _⟩⟩
      | _ =>
          rw [hpc] at hload
          exact hload.elim
  | search =>
      obtain rfl := Option.some.inj hs
      refine ⟨fun _ _ => rfl, hl, .inl ⟨rfl, ?_, rfl, rfl, fun g _ => ⟨_, rfl⟩⟩⟩
      exact Claims.members_congr (fun _ => rfl) rfl
  | drop g =>
      dsimp only [Pool.step] at hs
      split_ifs at hs
      obtain rfl := Option.some.inj hs
      refine ⟨fun _ _ => rfl, hl, .inl ⟨rfl, ?_, rfl, rfl, fun a _ => ?_⟩⟩
      · refine Claims.members_congr (fun a => ?_) rfl
        by_cases h : a = g <;> simp [h]
      · by_cases h : a = g
        · exact ⟨(s.pool.seg g).refCount - 1, by simp [h]⟩
        · exact ⟨(s.pool.seg a).refCount, by simp [h, FlushedSegment.setRef]⟩
  | check g lockFree =>
      dsimp only [Pool.step] at hs
      split at hs
      · split at hs
        next hz =>
          obtain rfl := Option.some.inj hs
          exact ⟨fun _ _ => rfl, hl, .inl ⟨rfl, alike_cleanup hlist hz (ha hz) lockFree⟩⟩
        next =>
          obtain rfl := Option.some.inj hs
          exact ⟨fun _ _ => rfl, hl, .inl ⟨rfl, .refl _⟩⟩
      · cases hs
  | _ => cases hb

end Background

variable {cfg : MergeConfig} {x x' : State} {t : ℕ} {s' : Pool.State}

section Effects

theorem taskPotential_lt (pc : Pc) (hlt : t < cfg.numThreads)
    (hpc : x'.base.pc = Function.update x.base.pc t pc)
    (hw : 4 * weight x'.base.pool + mapped x'.base.pool + stage pc <
      4 * weight x.base.pool + mapped x.base.pool + stage (x.base.pc t)) :
    taskPotential cfg x' < taskPotential cfg x := by
  have hstage := sum_update_add hlt stage x.base.pc pc
  unfold taskPotential
  rw [hpc]
  omega

/-- A section of a merge thread takes a scan on, or a task. -/
theorem run_effect {b : Option Built} (h : Settled cfg x) (hlt : t < cfg.numThreads)
    (ha : CarriesThrough cfg x (.run t b))
    (hs : Pool.runStep cfg.toPoolConfig x.base t (x.input cfg t b) = some s') :
    (∃ pc, x.leave t b = x ∧ s'.pool = x.base.pool ∧ s'.pc = Function.update x.base.pc t pc ∧
        stage pc = stage (x.base.pc t) ∧
        scanRank x.base.pool pc < scanRank x.base.pool (x.base.pc t)) ∨
      (taskPotential cfg ((x.leave t b).setBase s') < taskPotential cfg x ∧
        (x.leave t b).pendingSignals ≤ x.pendingSignals + 1 ∧
        ∀ lo hi, (x.leave t b).latestVersion lo hi ≤ x.latestVersion lo hi + 1) := by
  have hm := h.merging t hlt
  have htrans := mergeTrans_of_runStep hm hs
  have hkeeps := htrans.keeps h.sound
  generalize hinput : x.input cfg t b = m at htrans
  unfold CarriesThrough at ha
  cases htrans with
  | @gateEnd m p hpc hp | @gateOpen m p hpc hp | @gateSkip m p hpc hp =>
      refine .inl ⟨_, by simp [State.leave, hpc], rfl, rfl, by simp [stage, hpc], ?_⟩
      simp only [hpc, scanRank]
      omega
  | @nothing m p firstPass hpc hn =>
      refine .inl ⟨_, by simp [State.leave, hpc], rfl, rfl, by simp [stage, hpc], ?_⟩
      simp only [hpc, Merging] at hm
      simp only [hpc, scanRank]
      omega
  | @found m p firstPass idx0 idx1 hpc hf =>
      refine .inl ⟨_, by simp [State.leave, hpc], rfl, rfl, by simp [stage, hpc], ?_⟩
      simp only [hpc, scanRank, if_pos (offered_of_traverse h.sound hf).1]
      omega
  | @claimLost m p idx0 idx1 hpc hl =>
      have hnot : ¬ Claimable x.base.pool (.ofPriority p) idx0 idx1 := fun hc => by
        simpa [hl] using hc.isSome
      refine .inl ⟨_, by simp [State.leave, hpc], rfl, rfl, by simp [stage, hpc], ?_⟩
      simp only [hpc, scanRank, if_neg hnot]
      omega
  | claimed hpc =>
      refine .inr ⟨taskPotential_lt _ hlt rfl ?_, by simp [State.leave, hpc],
        by simp [State.leave, hpc]⟩
      rw [State.setBase_base, (hkeeps (by simp [hpc])).weight_eq,
        (hkeeps (by simp [hpc])).mapped_eq]
      simp [stage, hpc]
  | @buildFailed task hpc =>
      have htask : (x.base.pc t).task = some task := by rw [hpc]; rfl
      cases b with
      | none => simp [hpc] at ha
      | some b =>
          rw [input_eq htask] at hinput
          cases hinput
  | @built m task hpc =>
      have hb : b.isSome = true := by
        cases b with
        | none => simp [State.input] at hinput
        | some b => rfl
      refine .inr ⟨taskPotential_lt _ hlt rfl ?_, by simp [State.leave, hpc, hb], fun lo hi => ?_⟩
      · simp [stage, hpc]
      · simp only [State.leave, hpc, hb, if_true, State.flush_latestVersion]
        split_ifs <;> omega
  | full hpc hn => simp [hpc, hn] at ha
  | reserved hpc =>
      refine .inr ⟨taskPotential_lt _ hlt rfl ?_, by simp [State.leave, hpc],
        by simp [State.leave, hpc]⟩
      rw [State.setBase_base, (hkeeps (by simp [hpc])).weight_eq,
        (hkeeps (by simp [hpc])).mapped_eq]
      simp [stage, hpc]
  | @installed m task lo hi slot hpc =>
      have htask : (x.base.pc t).task = some task := by rw [hpc]; rfl
      obtain ⟨b, rfl⟩ : ∃ b', b = some b' := by
        cases b with
        | none => simp [State.input] at hinput
        | some b => exact ⟨b, rfl⟩
      rw [input_eq htask] at hinput
      obtain rfl := Option.some.inj hinput
      simp only [hpc] at ha
      refine .inr ⟨taskPotential_lt .idle hlt rfl ?_, by simp [State.leave, hpc],
        by simp [State.leave, hpc]⟩
      have hw := weight_install b h.sound h.claims hpc (h.due t task htask) ha
      have hmap := mapped_install cfg (x.segmentBuilt cfg task b) h.sound h.claims hpc
      simp only [State.setBase_base, stage, hpc]
      omega
  | aborted hpc =>
      refine .inr ⟨taskPotential_lt _ hlt rfl ?_, by simp [State.leave, hpc],
        by simp [State.leave, hpc]⟩
      rw [State.setBase_base, (hkeeps (by simp [hpc])).weight_eq,
        (hkeeps (by simp [hpc])).mapped_eq]
      simp [stage, hpc]

/-- A task that is carried through makes the pool lighter; nothing else changes its weight. -/
theorem weight_run {b : Option Built} (h : Settled cfg x) (hlt : t < cfg.numThreads)
    (ha : CarriesThrough cfg x (.run t b))
    (hs : Pool.runStep cfg.toPoolConfig x.base t (x.input cfg t b) = some s') :
    carriedThrough x (.run t b) + weight s'.pool ≤ weight x.base.pool := by
  have htrans := mergeTrans_of_runStep (h.merging t hlt) hs
  have hkeeps := htrans.keeps h.sound
  unfold carriedThrough CarriesThrough at *
  cases hpc : x.base.pc t with
  | compactInstall task lo hi slot =>
      have htask : (x.base.pc t).task = some task := by rw [hpc]; rfl
      simp only [Pool.runStep, hpc] at hs
      cases b with
      | none => simp [State.input] at hs
      | some b =>
          rw [input_eq htask] at hs
          obtain rfl := Option.some.inj hs
          simp only [hpc] at ha
          have hlt := weight_install b h.sound h.claims hpc (h.due t task htask) ha
          simp only [hpc]
          exact Nat.one_add_le_iff.mpr hlt
  | _ =>
      rw [(hkeeps (by simp [hpc])).weight_eq]
      simp [hpc]

end Effects

section Background

/-- What the others do is paid for by what is left to upgrade. -/
theorem other_effect {a : Pool.Action} (h : Settled cfg x) (ha : Steady x.base a)
    (hb : background cfg.numThreads a = true)
    (hs : Pool.step cfg.toPoolConfig x.base a = some s') :
    weight s'.pool = weight x.base.pool ∧
      (upgrades x.base a = false ∧ taskPotential cfg (x.setBase s') = taskPotential cfg x ∧
          potential cfg (x.setBase s') = potential cfg x ∨
        upgrades x.base a = true ∧
          taskPotential cfg (x.signal.setBase s') < taskPotential cfg x) := by
  obtain ⟨hpc, -, hcase⟩ := background_cases h.sound h.loading ha hb hs
  have hstage : ∑ u ∈ Finset.range cfg.numThreads, stage (s'.pc u) =
      ∑ u ∈ Finset.range cfg.numThreads, stage (x.base.pc u) :=
    Finset.sum_congr rfl fun u hu => by rw [hpc u (Finset.mem_range.mp hu)]
  rcases hcase with ⟨hup, halike⟩ | ⟨hup, g, slot, hg, hload, hrep, hk⟩
  · have htask : taskPotential cfg (x.setBase s') = taskPotential cfg x := by
      unfold taskPotential
      rw [State.setBase_base, hstage, halike.keeps.weight_eq, halike.keeps.mapped_eq]
    refine ⟨halike.keeps.weight_eq, .inl ⟨hup, htask, ?_⟩⟩
    have hrank : ∑ u ∈ Finset.range cfg.numThreads, scanRank s'.pool (s'.pc u) =
        ∑ u ∈ Finset.range cfg.numThreads, scanRank x.base.pool (x.base.pc u) := by
      refine Finset.sum_congr rfl fun u hu => ?_
      rw [hpc u (Finset.mem_range.mp hu)]
      unfold scanRank
      split
      · rfl
      · rfl
      · simp only [halike.claimable]
      · rfl
    unfold potential
    rw [htask, State.setBase_base, hrank]
    rfl
  · have hsw : segWeight (s'.pool.seg slot) = segWeight (x.base.pool.seg g) := by
      obtain ⟨ht, hrest⟩ := Prod.mk.inj hk
      obtain ⟨hd, -⟩ := Prod.mk.inj hrest
      unfold segWeight
      rw [ht, hd]
    have hsm : (s'.pool.seg slot).loadState = .fullyLoaded :=
      (Prod.mk.inj (Prod.mk.inj hk).2).2
    have hw := hrep.weight_add
    have hm := hrep.mapped_add
    simp only [List.map_cons, List.map_nil, List.sum_cons, List.sum_nil, hsw] at hw
    simp only [hsm, List.countP_cons, List.countP_nil, hload] at hm
    refine ⟨by omega, .inr ⟨hup, ?_⟩⟩
    unfold taskPotential
    rw [State.setBase_base, hstage]
    simp at hm
    omega

theorem Settled.other {a : Pool.Action} (h : Settled cfg x) (ha : Steady x.base a)
    (hb : background cfg.numThreads a = true)
    (hs : Pool.step cfg.toPoolConfig x.base a = some s') : Settled cfg (x.setBase s') := by
  obtain ⟨hpc, hload, hcase⟩ := background_cases h.sound h.loading ha hb hs
  constructor
  case sound => exact sound_step h.sound (ha.undisturbed h.sound h.claims) hs
  case claims => exact claims_step h.sound h.claims ha hs
  case due =>
    refine h.due_of_kinds (fun u task hu => ?_) ?_
    · rcases lt_or_ge u cfg.numThreads with hlt | hge
      · rwa [← hpc u hlt]
      · have := hload u hge
        cases hpcu : s'.pc u <;> simp_all [Loading, Pc.task]
    · rcases hcase with ⟨-, halike⟩ | ⟨-, g, slot, -, -, hrep, -⟩
      · exact halike.keeps.kind
      · exact hrep.kind
  case merging =>
    intro u hu
    rw [State.setBase_base, hpc u hu]
    exact h.merging u hu
  case loading => exact hload
  case alive => exact h.alive

end Background

section Wake

theorem scan_eq {c : PoolConfig} {s : Pool.State} (h : Pool.step c s (.scan t) = some s') :
    s.pc t = .idle ∧ s' = s.goto t (.gate 1) := by
  dsimp only [Pool.step] at h
  split_ifs at h with hpc
  exact ⟨hpc, (Option.some.inj h).symm⟩

theorem Settled.wake (h : Settled cfg x) (hlt : t < cfg.numThreads)
    (hs : Pool.step cfg.toPoolConfig x.base (.scan t) = some s') (n : ℕ) :
    Settled cfg { x with base := s', pendingSignals := n } := by
  obtain ⟨hpc, rfl⟩ := scan_eq hs
  constructor
  case sound => exact sound_step (a := .scan t) h.sound trivial hs
  case claims => exact claims_step (a := .scan t) h.sound h.claims trivial hs
  case due =>
    exact h.due_of_kinds (fun u task => task_of_update _ rfl (.inl rfl)) fun _ _ => rfl
  case merging =>
    intro u hu
    rcases eq_or_ne u t with rfl | hne
    · simp [Merging]
    · simpa [hne] using h.merging u hu
  case loading =>
    intro u hu
    simpa [show u ≠ t by omega] using h.loading u hu
  case alive => exact h.alive

/-- A signal pays for a scan. -/
theorem potential_wake (hlt : t < cfg.numThreads) (hp : 0 < x.pendingSignals)
    (hpc : x.base.pc t = .idle) : potential cfg
      { x with base := x.base.goto t (.gate 1), pendingSignals := x.pendingSignals - 1 } <
      potential cfg x := by
  refine potential_lt_of_scan (.gate 1) hlt rfl rfl ?_ ?_
  · simp [stage, hpc]
  · simp only [hpc, scanRank]
    omega

end Wake

section Run

variable {a : Action}

/-- What a step of the system is. -/
theorem step_cases (hs : step cfg x a = some x') :
    (∃ t s', a = .wake t ∧ Alive cfg x t ∧ 0 < x.pendingSignals ∧
        Pool.step cfg.toPoolConfig x.base (.scan t) = some s' ∧
        x' = { x with base := s', pendingSignals := x.pendingSignals - 1 }) ∨
      (∃ t b s', a = .run t b ∧ Alive cfg x t ∧
        Pool.runStep cfg.toPoolConfig x.base t (x.input cfg t b) = some s' ∧
        x' = (x.leave t b).setBase s') ∨
      (∃ t, a = .raise t) ∨
      ∃ b s', a = .other b ∧ background cfg.numThreads b = true ∧
        Pool.step cfg.toPoolConfig x.base b = some s' ∧
        x' = (if upgrades x.base b then x.signal else x).setBase s' := by
  cases a with
  | wake t =>
      dsimp only [step] at hs
      split_ifs at hs with h
      obtain ⟨s', hrun, rfl⟩ := Option.map_eq_some_iff.mp hs
      exact .inl ⟨t, s', rfl, h.1, h.2, hrun, rfl⟩
  | run t b =>
      dsimp only [step] at hs
      split_ifs at hs with h
      obtain ⟨s', hrun, rfl⟩ := Option.map_eq_some_iff.mp hs
      exact .inr (.inl ⟨t, b, s', rfl, h, hrun, rfl⟩)
  | raise t => exact .inr (.inr (.inl ⟨t, rfl⟩))
  | other b =>
      dsimp only [step] at hs
      split_ifs at hs with h
      all_goals obtain ⟨s', hrun, rfl⟩ := Option.map_eq_some_iff.mp hs
      all_goals exact .inr (.inr (.inr ⟨b, s', rfl, h, hrun, by simp [*]⟩))

theorem Settled.step (h : Settled cfg x) (ha : CarriesThrough cfg x a)
    (hs : Scheduler.step cfg x a = some x') : Settled cfg x' := by
  rcases step_cases hs with ⟨t, s', rfl, hal, -, hrun, rfl⟩ | ⟨t, b, s', rfl, hal, hrun, rfl⟩ |
    ⟨t, rfl⟩ | ⟨b, s', rfl, hb, hrun, rfl⟩
  · exact h.wake hal.1 hrun _
  · exact h.runStep hal.1 ha hrun
  · exact ha.elim
  · have hset := h.other ha hb hrun
    split
    · exact ⟨hset.sound, hset.claims, hset.due, hset.merging, hset.loading, hset.alive⟩
    · exact hset

/-- Every step of a merge thread is paid for. -/
theorem potential_step (h : Settled cfg x) (ha : CarriesThrough cfg x a)
    (hs : Scheduler.step cfg x a = some x') :
    mergeStep x a + potential cfg x' ≤ potential cfg x := by
  rcases step_cases hs with ⟨t, s', rfl, hal, hp, hrun, rfl⟩ | ⟨t, b, s', rfl, hal, hrun, rfl⟩ |
    ⟨t, rfl⟩ | ⟨b, s', rfl, hb, hrun, rfl⟩
  · obtain ⟨hpc, rfl⟩ := scan_eq hrun
    have hlt := potential_wake hal.1 hp hpc
    simp only [mergeStep]
    omega
  · have hlt : potential cfg ((x.leave t b).setBase s') < potential cfg x := by
      rcases run_effect h hal.1 ha hrun with ⟨pc, hleave, hpool, hpc, hst, hr⟩ | ⟨htask, hp, -⟩
      · rw [hleave]
        exact potential_lt_of_scan pc hal.1 hpool hpc hst (by simpa using hr)
      · exact potential_lt_of_task htask hp
    simp only [mergeStep]
    omega
  · exact ha.elim
  · obtain ⟨-, ⟨hup, -, hpot⟩ | ⟨hup, htask⟩⟩ := other_effect h ha hb hrun
    · rw [hup, if_neg Bool.false_ne_true, hpot]
      simp [mergeStep]
    · rw [hup, if_pos rfl]
      have := potential_lt_of_task htask (by simp)
      simp only [mergeStep]
      omega

/-- A task that is carried through makes the pool lighter. -/
theorem weight_step (h : Settled cfg x) (ha : CarriesThrough cfg x a)
    (hs : Scheduler.step cfg x a = some x') :
    carriedThrough x a + weight x'.base.pool ≤ weight x.base.pool := by
  rcases step_cases hs with ⟨t, s', rfl, -, -, hrun, rfl⟩ | ⟨t, b, s', rfl, hal, hrun, rfl⟩ |
    ⟨t, rfl⟩ | ⟨b, s', rfl, hb, hrun, rfl⟩
  · obtain ⟨-, rfl⟩ := scan_eq hrun
    simp [carriedThrough]
  · exact weight_run h hal.1 ha hrun
  · exact ha.elim
  · have hw := (other_effect h ha hb hrun).1
    simp [carriedThrough, hw]

/-- A file version is paid for by the task that writes it. -/
theorem version_step (h : Settled cfg x) (ha : CarriesThrough cfg x a)
    (hs : Scheduler.step cfg x a = some x') (lo hi : SegmentId) :
    x'.latestVersion lo hi + taskPotential cfg x' ≤
      x.latestVersion lo hi + taskPotential cfg x := by
  rcases step_cases hs with ⟨t, s', rfl, hal, -, hrun, rfl⟩ | ⟨t, b, s', rfl, hal, hrun, rfl⟩ |
    ⟨t, rfl⟩ | ⟨b, s', rfl, hb, hrun, rfl⟩
  · obtain ⟨hpc, rfl⟩ := scan_eq hrun
    have hstage := sum_update_add hal.1 stage x.base.pc (.gate 1)
    simp only [taskPotential, State.goto_pool, State.goto_pc, hpc, stage] at hstage ⊢
    omega
  · rcases run_effect h hal.1 ha hrun with ⟨pc, hleave, hpool, hpc, hst, -⟩ | ⟨htask, -, hver⟩
    · have hstage := sum_update_add hal.1 stage x.base.pc pc
      simp only [taskPotential, State.setBase_base, State.setBase_latestVersion, hleave, hpool, hpc]
      omega
    · have := hver lo hi
      simp only [State.setBase_latestVersion]
      omega
  · exact ha.elim
  · obtain ⟨-, ⟨hup, htask, -⟩ | ⟨hup, htask⟩⟩ := other_effect h ha hb hrun
    · rw [hup, if_neg Bool.false_ne_true, htask]
      simp
    · rw [hup, if_pos rfl]
      simp only [State.setBase_latestVersion, State.signal_latestVersion]
      omega

end Run

end VectorLsm.Scheduler
