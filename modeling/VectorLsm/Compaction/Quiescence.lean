import VectorLsm.Compaction.Steps
import VectorLsm.Pool.Pieces

/-! # Compaction comes to rest

Where every task is carried through, each takes the measure of the pool down, the merge threads
take no more steps than the potential they start with, and where none of them can move there is
no task to claim. A task that fails leaves the pool as it was, and its signal has it claimed
again.
-/

namespace VectorLsm.Scheduler

open Pool FlushedSegmentPool Transition

variable {cfg : MergeConfig} {x x' : State} {t : ℕ} {s' : Pool.State}

section Rest

/-- The priority a scan has come to. -/
def scanAt : Pc → Option ℕ
  | .gate p | .traverse p _ | .claim p _ _ => some p
  | _ => none

/-- Someone is on the way to every task there is to claim: a signal is pending, a task is under
way that will signal, or a scan has not come to a task yet. -/
def Woken (cfg : MergeConfig) (x : State) : Prop :=
  Exhausted cfg.toPoolConfig x.base.pool ∨ 0 < x.pendingSignals ∨
    ∃ t < cfg.numThreads, (x.base.pc t).task ≠ none ∨
      ∃ p, scanAt (x.base.pc t) = some p ∧ ∀ q < p, ¬ Offers cfg.toPoolConfig x.base.pool q

/-- No merge thread can move. -/
def AtRest (cfg : MergeConfig) (x : State) : Prop :=
  ∀ t, step cfg x (.wake t) = none ∧ ∀ b, step cfg x (.run t b) = none

/-- A scan goes on where it has found nothing. -/
theorem woken_scan {pc : Pc} {p : ℕ} (h : Woken cfg x) (hlt : t < cfg.numThreads)
    (hat : scanAt (x.base.pc t) = some p) (hpool : s'.pool = x.base.pool)
    (hpc : s'.pc = Function.update x.base.pc t pc)
    (hnext : (∀ q < p, ¬ Offers cfg.toPoolConfig x.base.pool q) →
      Exhausted cfg.toPoolConfig x.base.pool ∨
        ∃ p', scanAt pc = some p' ∧ ∀ q < p', ¬ Offers cfg.toPoolConfig x.base.pool q) :
    Woken cfg (x.setBase s') := by
  unfold Woken
  rw [State.setBase_base, hpool, hpc]
  rcases h with he | hp | ⟨u, hu, hon⟩
  · exact .inl he
  · exact .inr (.inl hp)
  · rcases eq_or_ne u t with rfl | hne
    · rcases hon with htask | ⟨p', hat', hno⟩
      · cases hpcu : x.base.pc u <;> simp_all [scanAt, Pc.task]
      · obtain rfl : p = p' := Option.some.inj (hat.symm.trans hat')
        rcases hnext hno with he | hon
        · exact .inl he
        · exact .inr (.inr ⟨u, hu, .inr (by rwa [Function.update_self])⟩)
    · exact .inr (.inr ⟨u, hu, by rwa [Function.update_of_ne hne]⟩)

theorem Woken.runStep {b : Option Built} (hw : Woken cfg x) (h : Settled cfg x)
    (hlt : t < cfg.numThreads)
    (hs : Pool.runStep cfg.toPoolConfig x.base t (x.input cfg t b) = some s') :
    Woken cfg ((x.leave t b).setBase s') := by
  have htrans := mergeTrans_of_runStep (h.merging t hlt) hs
  have htask : ∀ {y : State} {task : MergeTask}, (y.base.pc t).task = some task → Woken cfg y :=
    fun ht => .inr (.inr ⟨t, hlt, .inl (by simp [ht])⟩)
  have hscan : ∀ {p}, scanAt (x.base.pc t) = some p → x.leave t b = x := by
    intro p hat
    cases hpc : x.base.pc t <;> simp_all [scanAt, State.leave]
  generalize x.input cfg t b = m at htrans
  cases htrans with
  | gateEnd hpc hp =>
      rw [hscan (by rw [hpc]; rfl)]
      refine woken_scan hw hlt (by rw [hpc]; rfl) rfl rfl fun hno => .inl fun q => ?_
      rcases lt_or_ge q _ with hq | hq
      · exact hno q hq
      · exact not_offers_of_lt (hp.trans_le hq)
  | gateSkip hpc hp hg =>
      rw [hscan (by rw [hpc]; rfl)]
      refine woken_scan hw hlt (by rw [hpc]; rfl) rfl rfl fun hno => .inr ⟨_, rfl, fun q hq => ?_⟩
      rcases Nat.lt_succ_iff_lt_or_eq.mp hq with hq | rfl
      · exact hno q hq
      · exact fun ho => by simp [ho.1] at hg
  | nothing hpc hn =>
      rw [hscan (by rw [hpc]; rfl)]
      refine woken_scan hw hlt (by rw [hpc]; rfl) rfl rfl fun hno => .inr ⟨_, rfl, fun q hq => ?_⟩
      rcases Nat.lt_succ_iff_lt_or_eq.mp hq with hq | rfl
      · exact hno q hq
      · exact not_offers_of_traverse hn
  | gateOpen hpc | found hpc | claimLost hpc =>
      rw [hscan (by rw [hpc]; rfl)]
      exact woken_scan hw hlt (by rw [hpc]; rfl) rfl rfl fun hno => .inr ⟨_, rfl, hno⟩
  | installed hpc | aborted hpc => exact .inr (.inl (by simp [State.leave, hpc]))
  | claimed | buildFailed | built | full | reserved => exact htask (by simp; rfl)

theorem Woken.step {a : Action} (hw : Woken cfg x) (h : Settled cfg x)
    (ha : CarriesThrough cfg x a) (hs : Scheduler.step cfg x a = some x') : Woken cfg x' := by
  rcases step_cases hs with ⟨t, s', rfl, hal, -, hrun, rfl⟩ | ⟨t, b, s', rfl, hal, hrun, rfl⟩ |
    ⟨t, rfl⟩ | ⟨b, s', rfl, hb, hrun, rfl⟩
  · obtain ⟨-, rfl⟩ := scan_eq hrun
    refine .inr (.inr ⟨t, hal.1, .inr ⟨1, by simp [scanAt], fun q hq => ?_⟩⟩)
    obtain rfl : q = 0 := by omega
    exact not_offers_zero
  · exact hw.runStep h hal.1 hrun
  · exact ha.elim
  · obtain ⟨hpc, -, ⟨hup, halike⟩ | ⟨hup, -⟩⟩ := background_cases h.sound h.loading ha hb hrun
    · rw [hup, if_neg Bool.false_ne_true]
      obtain ⟨l, hl⟩ := h.sound
      have hoff : ∀ p, Offers cfg.toPoolConfig s'.pool p ↔ Offers cfg.toPoolConfig x.base.pool p :=
        fun p => halike.offers (hl.members ▸ hl.linked)
      rcases hw with he | hp | ⟨u, hu, hon⟩
      · exact .inl fun p => (hoff p).not.mpr (he p)
      · exact .inr (.inl hp)
      · refine .inr (.inr ⟨u, hu, ?_⟩)
        simpa [hpc u hu, hoff] using hon
    · rw [hup, if_pos rfl]
      exact .inr (.inl (by simp))

/-- A merge thread that is not idle can move. -/
theorem run_isSome (h : Settled cfg x) (hlt : t < cfg.numThreads) (hne : x.base.pc t ≠ .idle) :
    ∃ b, step cfg x (.run t b) ≠ none := by
  have hal : Alive cfg x t := ⟨hlt, h.alive t⟩
  have hm := h.merging t hlt
  refine ⟨some ⟨0, 0⟩, ?_⟩
  dsimp only [step]
  rw [if_pos hal]
  refine Option.map_eq_none_iff.not.mpr ?_
  unfold Pool.runStep
  cases hpc : x.base.pc t with
  | idle => exact absurd hpc hne
  | gate p =>
      dsimp only
      split_ifs <;> simp
  | traverse p f =>
      dsimp only
      split <;> simp
  | claim p i j =>
      dsimp only
      split <;> simp
  | build task | compactInstall task =>
      have htask : (x.base.pc t).task = some task := by rw [hpc]; rfl
      rw [input_eq htask]
      simp
  | compactReserve | abort => simp
  | _ =>
      rw [hpc] at hm
      exact hm.elim

/-- Where the merge threads have come to rest there is no task to claim. -/
theorem exhausted_of_atRest (h : Settled cfg x) (hw : Woken cfg x) (hr : AtRest cfg x) :
    Exhausted cfg.toPoolConfig x.base.pool := by
  have hidle : ∀ t < cfg.numThreads, x.base.pc t = .idle := by
    intro t hlt
    by_contra hne
    obtain ⟨b, hb⟩ := run_isSome h hlt hne
    exact hb ((hr t).2 b)
  rcases hw with he | hp | ⟨t, hlt, hon⟩
  · exact he
  · have h0 := (hr 0).1
    dsimp only [step] at h0
    rw [if_pos ⟨⟨cfg.numThreads_pos, h.alive 0⟩, hp⟩] at h0
    simp [Pool.step, hidle 0 cfg.numThreads_pos] at h0
  · rw [hidle t hlt] at hon
    rcases hon with ht | ⟨p, hp, -⟩
    · exact absurd rfl ht
    · cases hp

end Rest

/-- Where every task is carried through, compaction comes to rest. Each task that is executed
makes the pool lighter, the merge threads take boundedly many steps and write boundedly many
versions of every range, and where they cannot move there is no task to claim. -/
theorem quiesces_of_carriesThrough {as : List Action} (h : Settled cfg x) (hw : Woken cfg x)
    (hm : Meets (CarriesThrough cfg) (step cfg) x as) (he : exec (step cfg) x as = some x') :
    spent carriedThrough (step cfg) x as + weight x'.base.pool ≤ weight x.base.pool ∧
      spent mergeStep (step cfg) x as + potential cfg x' ≤ potential cfg x ∧
      (∀ lo hi, x'.latestVersion lo hi ≤ x.latestVersion lo hi + taskPotential cfg x) ∧
      (AtRest cfg x' → Exhausted cfg.toPoolConfig x'.base.pool) := by
  have hweight := (spent_add_le (P := Settled cfg) carriedThrough (fun y => weight y.base.pool)
    (fun y a y' hy ha hs => ⟨hy.step ha hs, weight_step hy ha hs⟩) h hm he).2
  have hsteps := (spent_add_le (P := Settled cfg) mergeStep (potential cfg)
    (fun y a y' hy ha hs => ⟨hy.step ha hs, potential_step hy ha hs⟩) h hm he).2
  refine ⟨hweight, hsteps, fun lo hi => ?_, fun hr => ?_⟩
  · have hver := (spent_add_le (P := Settled cfg) (fun _ _ => 0)
      (fun y => y.latestVersion lo hi + taskPotential cfg y)
      (fun y a y' hy ha hs => ⟨hy.step ha hs, by simpa using version_step hy ha hs lo hi⟩)
      h hm he).2
    omega
  · have hend := (spent_add_le (P := fun y => Settled cfg y ∧ Woken cfg y)
      (fun _ _ => 0) (fun _ => 0)
      (fun y a y' hy ha hs => ⟨⟨hy.1.step ha hs, hy.2.step hy.1 ha hs⟩, by simp⟩)
      ⟨h, hw⟩ hm he).1
    exact exhausted_of_atRest hend.1 hend.2 hr


section Failing

variable {pool pool' : FlushedSegmentPool}

theorem pool_ext (hseg : ∀ g, pool'.seg g = pool.seg g)
    (hcount : pool'.flushedSegmentCount = pool.flushedSegmentCount)
    (hhead : pool'.headIdx = pool.headIdx) (htail : pool'.tailIdx = pool.tailIdx)
    (hins : pool'.insertIdx = pool.insertIdx) (hstats : pool'.stats = pool.stats) :
    pool' = pool := by
  cases pool
  cases pool'
  simp only [FlushedSegmentPool.mk.injEq]
  exact ⟨funext hseg, hcount, hhead, htail, hins, hstats⟩

/-- Whether a slot is free does not depend on the claims. -/
theorem reserve_isNone_congr (hins : pool'.insertIdx = pool.insertIdx)
    (hused : ∀ g, (pool'.seg g).inUsed = (pool.seg g).inUsed) (h : pool.reserve = none) :
    pool'.reserve = none := by
  unfold FlushedSegmentPool.reserve at h ⊢
  simp only [hins, hused]
  rwa [Option.map_eq_none_iff] at h ⊢

/-- A claim that is given up leaves the pool as it was. -/
theorem claim_abort {type : CompactionType} {idx0 : ℕ} {idx1 : Option ℕ} {task : MergeTask}
    {s : Pool.State} (hc : s.pool.claimTask type idx0 idx1 = some (pool, task)) :
    task.olds.foldl (fun pool g => pool.setCompacting g false) pool = s.pool := by
  have hclaim := Pool.Quiet.claim hc
  have habort := Pool.Quiet.abort (s := s.setPool pool) task.olds
  obtain ⟨-, havail, hpool, -⟩ := Claims.claimTask_eq hc
  refine pool_ext (fun g => ?_) (habort.count.trans hclaim.count)
    (habort.headIdx.trans hclaim.headIdx) (habort.tailIdx.trans hclaim.tailIdx)
    (habort.insertIdx.trans hclaim.insertIdx) (habort.stats.trans hclaim.stats)
  rw [Claims.seg_setCompacting_foldl, hpool, Claims.seg_setCompacting_foldl]
  by_cases hg : g ∈ task.olds
  · have hfree := havail g hg
    simp only [available, Bool.and_eq_true, Bool.not_eq_true'] at hfree
    simp only [hg, if_true, ← hfree.1.2]
  · simp only [hg, if_false]

/-- A task that finds no free slot leaves the files it has written, and a signal. -/
theorem exec_full {p idx0 : ℕ} {idx1 : Option ℕ} {task : MergeTask} (b : Built)
    (hal : Alive cfg x t) (hpc : x.base.pc t = .claim p idx0 idx1)
    (hc : x.base.pool.claimTask (.ofPriority p) idx0 idx1 = some (pool, task))
    (hfull : x.base.pool.reserve = none) :
    exec (step cfg) x [.run t none, .run t (some b), .run t none, .run t none] =
      some (((x.flush (buildRange pool task).1 (buildRange pool task).2).signal).setBase
        (x.base.goto t .idle)) := by
  have hclaim := Pool.Quiet.claim hc
  have hfull' : pool.reserve = none := reserve_isNone_congr hclaim.insertIdx (fun g => by
    obtain ⟨b, hb⟩ := hclaim.seg g
    simp only [State.setPool_pool] at hb
    rw [hb]) hfull
  have h₁ : step cfg x (.run t none) =
      some (x.setBase ((x.base.setPool pool).goto t (.build task))) := by
    simp [step, hal, runStep, hpc, hc, State.leave]
  set x₁ := x.setBase ((x.base.setPool pool).goto t (.build task)) with hx₁
  have hpc₁ : x₁.base.pc t = .build task := by simp [hx₁]
  have hpool₁ : x₁.base.pool = pool := rfl
  generalize hr : buildRange pool task = r
  have h₂ : step cfg x₁ (.run t (some b)) = some ((x₁.flush r.1 r.2).setBase
      (x₁.base.goto t (.compactReserve task r.1 r.2))) := by
    have htask : (x₁.base.pc t).task = some task := by rw [hpc₁]; rfl
    have hal₁ : Alive cfg x₁ t := hal
    simp [step, hal₁, runStep, hpc₁, input_eq htask, State.leave, hpool₁, hr]
  set x₂ := (x₁.flush r.1 r.2).setBase (x₁.base.goto t (.compactReserve task r.1 r.2)) with hx₂
  have hpc₂ : x₂.base.pc t = .compactReserve task r.1 r.2 := by simp [hx₂]
  have h₃ : step cfg x₂ (.run t none) = some (x₂.setBase (x₂.base.goto t (.abort task))) := by
    have hal₂ : Alive cfg x₂ t := hal
    have hres : x₂.base.pool.reserve = none := hfull'
    simp [step, hal₂, runStep, hpc₂, State.leave, Pool.State.reserve, hres]
  set x₃ := x₂.setBase (x₂.base.goto t (.abort task)) with hx₃
  have hpc₃ : x₃.base.pc t = .abort task := by simp [hx₃]
  have h₄ : step cfg x₃ (.run t none) = some (x₃.signal.setBase
      ((x₃.base.setPool x.base.pool).goto t .idle)) := by
    have hal₃ : Alive cfg x₃ t := hal
    have hpool₃ : x₃.base.pool = pool := rfl
    simp [step, hal₃, runStep, hpc₃, State.leave, hpool₃, claim_abort hc]
  simp only [exec_cons, h₁, h₂, h₃, h₄, Option.bind_some, exec_nil]
  simp [hx₁, hx₂, hx₃, Pool.State.goto, Pool.State.setPool, State.setBase, State.signal,
    State.flush]

end Failing

section Demo

/-- One merge thread, and a rebuild of what is more than three tenths deleted. -/
def demoMerging : MergeConfig where
  memtableCapacity := 10
  overDeleted := fun deleted rows => 3 * rows < 10 * deleted
  overDeleted_zero := by simp
  targetType := .hnsw
  numThreads := 1
  numThreads_pos := Nat.one_pos

/-- The segments 4 and 5 are loaded, and `insert_idx` has run out. -/
def fullPool : FlushedSegmentPool := demoStart.pool.setInsertIdx maxSegmentsCount

/-- A signal is pending, and the range of both segments has been written `v` times. -/
def fullState (v : ℕ) : State where
  base := demoStart.setPool fullPool
  pendingSignals := 1
  latestVersion := fun a b => if a = 4 ∧ b = 5 then v else 1
  raised := fun _ => false

/-- The thread wakes up, scans, claims the two segments, merges them, finds no slot, and gives
them back. -/
def fullRound : List Action :=
  [.wake 0, .run 0 none, .run 0 none, .run 0 none] ++
    [.run 0 none, .run 0 (some ⟨0, 0⟩), .run 0 none, .run 0 none]

theorem exec_fullRound (v : ℕ) :
    exec (step demoMerging) (fullState v) fullRound = some (fullState (v + 1)) := by
  have hal : ∀ y : State, y.raised = (fun _ => false) → Alive demoMerging y 0 := fun y hy =>
    ⟨Nat.one_pos, by rw [hy]⟩
  have hgate₁ : fullPool.priorityGate 1 = false := by decide +kernel
  have hgate₂ : fullPool.priorityGate 2 = true := by decide +kernel
  have hscan : fullPool.traverse demoMerging.toPoolConfig 2 true = some (0, some 1) := by
    decide +kernel
  have hsome : (fullPool.claimTask (.ofPriority 2) 0 (some 1)).map
      (fun r => buildRange r.1 r.2) = some (4, 5) := by decide +kernel
  obtain ⟨⟨pool, task⟩, hclaim, hrange⟩ := Option.map_eq_some_iff.mp hsome
  have hfull : fullPool.reserve = none := by decide +kernel
  have hfind : exec (step demoMerging) (fullState v)
      [.wake 0, .run 0 none, .run 0 none, .run 0 none] =
      some { (fullState v).setBase ((fullState v).base.goto 0 (.claim 2 0 (some 1))) with
        pendingSignals := 0 } := by
    have hpool : (fullState v).base.pool = fullPool := rfl
    simp [exec, step, Pool.step, runStep, hal, State.leave, fullState, demoStart, hgate₁, hgate₂,
      hscan, Pool.State.goto, Pool.State.setPool, State.setBase]
  rw [fullRound, exec_append, hfind, Option.bind_some,
    exec_full ⟨0, 0⟩ (hal _ rfl) (by simp) hclaim hfull, hrange]
  simp [fullState, Pool.State.goto, Pool.State.setPool, State.setBase, State.flush, State.signal,
    demoStart]
  funext a b
  split_ifs <;> rfl

theorem exec_fullRounds (v n : ℕ) :
    exec (step demoMerging) (fullState v) (List.replicate n fullRound).flatten =
      some (fullState (v + n)) := by
  induction n generalizing v with
  | zero => rfl
  | succ n ih =>
      rw [List.replicate_succ, List.flatten_cons, exec_append, exec_fullRound, Option.bind_some,
        ih, Nat.add_assoc, Nat.add_comm 1]

/-- Nobody is at work, and no builder has raised an error. -/
theorem settled_of_idle (hS : Sound x.base) (hC : Claims x.base) (hidle : ∀ t, x.base.pc t = .idle)
    (hr : ∀ t, x.raised t = false) : Settled cfg x where
  sound := hS
  claims := hC
  due t task ht := by
    rw [hidle t] at ht
    cases ht
  merging t _ := by
    rw [hidle t]
    trivial
  loading t _ := by
    rw [hidle t]
    trivial
  alive := hr

theorem idle_demoStart (t : ℕ) : demoStart.pc t = .idle := by
  simp [demoStart]

theorem settled_fullState (v : ℕ) : Settled demoMerging (fullState v) := by
  obtain ⟨l, hl⟩ := sound_of_start start_demoStart
  refine settled_of_idle ⟨l, hl.congr (fun _ => rfl) (fun _ => rfl) (fun _ => rfl) (fun _ => rfl)
    (hl.linked.congr (fun _ _ => rfl) (fun _ _ => rfl) rfl rfl)⟩ ?_ idle_demoStart fun _ => rfl
  exact (claims_of_start start_demoStart).setPool (Claims.members_congr (fun _ => rfl) rfl)
    fun _ _ => ⟨rfl, rfl, rfl, rfl⟩

/-- In a pool without a free slot the same two segments are merged and written again for ever. -/
theorem not_quiesces : ¬ ∀ (cfg : MergeConfig) (x : State), Settled cfg x → Woken cfg x →
    ∃ n, ∀ as x', exec (step cfg) x as = some x' → ∀ lo hi, x'.latestVersion lo hi ≤ n := by
  intro h
  obtain ⟨n, hn⟩ := h demoMerging (fullState 0) (settled_fullState 0) (.inr (.inl Nat.one_pos))
  have hle := hn _ _ (exec_fullRounds 0 (n + 1)) 4 5
  simp [fullState] at hle

/-- The condition on a step of a merge thread; it can be evaluated. -/
def carriesAlone (cfg : MergeConfig) (x : State) : Action → Bool
  | .wake _ => true
  | .run t b =>
      match x.base.pc t with
      | .claim p idx0 idx1 =>
          decide (claimOlds (.ofPriority p) idx0 idx1 <:+: x.base.pool.members) &&
            (CompactionType.ofPriority p = .merge)
      | .build _ => b.isSome
      | .compactReserve _ _ _ => x.base.pool.reserve.isSome
      | .compactInstall _ _ _ _ => cfg.targetType ≠ .flat
      | _ => true
  | _ => false

theorem carriesThrough_of_alone {a : Action} (h : carriesAlone cfg x a = true) :
    CarriesThrough cfg x a := by
  unfold carriesAlone at h
  unfold CarriesThrough
  cases a with
  | wake => trivial
  | raise | other => cases h
  | run t b =>
      dsimp only at h ⊢
      cases hpc : x.base.pc t <;> simp only [hpc] at h ⊢
      case claim p idx0 idx1 =>
        obtain ⟨hin, htype⟩ := Bool.and_eq_true_iff.mp h
        rw [of_decide_eq_true htype] at hin ⊢
        exact fun _ => ⟨of_decide_eq_true hin, trivial⟩
      case build => exact h
      case compactReserve => exact h
      case compactInstall => exact fun _ => of_decide_eq_true h

/-- The two segments with free slots behind them. -/
def roomyState : State := { fullState 0 with base := demoStart }

/-- The thread merges the two segments and scans once more. -/
def roomyRun : List Action :=
  [.wake 0, .run 0 none, .run 0 none, .run 0 none, .run 0 none, .run 0 (some ⟨0, 0⟩), .run 0 none,
    .run 0 (some ⟨0, 0⟩), .wake 0] ++ List.replicate 10 (.run 0 none)

/-- Then it has come to rest, and there is nothing left to claim. -/
theorem quiesces_demoMerging : ∃ x', exec (step demoMerging) roomyState roomyRun = some x' ∧
    x'.base.pool.members = [2] ∧ spent carriedThrough (step demoMerging) roomyState roomyRun = 1 ∧
    Exhausted demoMerging.toPoolConfig x'.base.pool := by
  have hrun : (exec (step demoMerging) roomyState roomyRun).map
      (fun x => (x.base.pool.members, x.base.pc 0, x.pendingSignals)) = some ([2], .idle, 0) := by
    decide +kernel
  obtain ⟨x', he, hview⟩ := Option.map_eq_some_iff.mp hrun
  obtain ⟨hmem, hview⟩ := Prod.mk.inj hview
  obtain ⟨hpc, hp⟩ := Prod.mk.inj hview
  have hmeets : Meets (fun x a => carriesAlone demoMerging x a = true) (step demoMerging)
      roomyState roomyRun := by decide +kernel
  have hcarried : spent carriedThrough (step demoMerging) roomyState roomyRun = 1 := by
    decide +kernel
  have hsettled : Settled demoMerging roomyState :=
    settled_of_idle (sound_of_start start_demoStart) (claims_of_start start_demoStart)
      idle_demoStart fun _ => rfl
  obtain ⟨-, -, -, hrest⟩ := quiesces_of_carriesThrough hsettled (.inr (.inl Nat.one_pos))
    (hmeets.mono fun _ _ => carriesThrough_of_alone) he
  refine ⟨x', he, hmem, hcarried, hrest fun t => ⟨?_, fun b => ?_⟩⟩
  · simp [step, hp]
  · dsimp only [step]
    split_ifs with hal
    · obtain rfl : t = 0 := by
        have : t < 1 := hal.1
        omega
      simp [runStep, hpc]
    · rfl

end Demo

end VectorLsm.Scheduler
