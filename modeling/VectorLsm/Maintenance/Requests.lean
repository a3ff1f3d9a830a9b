import VectorLsm.Maintenance.Answered

/-! # Requests are answered once

The step and run lemmas, and the request that is dropped behind the upgrades of two index loads.
-/

namespace VectorLsm.Maintenance

open Transition

variable {ringSize : ℕ} {s s' : State} {a : Action} {r : Request} {t : ℕ}

namespace Inv

theorem init (h : Init s) : Inv s := by
  obtain ⟨n, results, rfl⟩ := h
  have hth : ∀ x ∈ List.replicate n Thread.idle, x = .idle := fun x hx =>
    List.eq_of_mem_replicate hx
  constructor
  case placed =>
    intro m
    simp [places, List.countP_replicate, Thread.pending]
  case waits =>
    rintro r (ho | ho | ⟨x, hx, hr⟩)
    · simp at ho
    · simp at ho
    · rw [hth x hx] at hr
      cases hr
  case done =>
    intro r us hm
    exact absurd (hth _ hm) (by simp)
  all_goals simp

/-- A backend finds its flag set and returns. -/
theorem leave {p : ℕ} (h : Inv s) (hp : s.backends p = .waiting r)
    (hd : (s.results p).maintDone = true) : Inv (s.leave p r) := by
  have hf := (h.flag p r hp).mp hd
  have hback : ∀ q r', (s.leave p r).backends q = .waiting r' →
      q ≠ p ∧ s.backends q = .waiting r' := by
    intro q r' hq
    by_cases hqp : q = p
    · simp [State.leave, hqp] at hq
    · exact ⟨hqp, by simpa [State.leave, hqp] using hq⟩
  constructor
  case placed => exact h.placed
  case waits =>
    intro r' ho
    have hr := h.waits r' ho
    have hne : r'.backendPgprocno ≠ p := by
      intro he
      rw [he, hp] at hr
      obtain rfl : r = r' := by simpa using hr
      exact h.not_flagged ho hf
    simpa [State.leave, hne] using hr
  case own => exact fun q r' hq => h.own q r' (hback q r' hq).2
  case distinct =>
    exact fun q q' r₁ r₂ h₁ h₂ he => h.distinct q q' r₁ r₂ (hback q r₁ h₁).2 (hback q' r₂ h₂).2 he
  case flag => exact fun q r' hq => h.flag q r' (hback q r' hq).2
  case status => exact fun q r' hq hf ht => h.status q r' (hback q r' hq).2 hf ht
  case done => exact h.done
  case executed => exact h.executed
  case returned =>
    intro x hx
    simp only [State.leave] at hx
    split at hx
    next htype =>
      rcases List.mem_cons.mp hx with rfl | hx
      · exact h.status p r hp hf htype
      · exact h.returned x hx
    next => exact h.returned x hx

/-- A thread turns to something that is no request. -/
theorem setThread (h : Inv s) {th th' : Thread} (ht : s.threads[t]? = some th)
    (hth : th.pending = none) (hth' : th'.pending = none) : Inv (s.setThread t th') := by
  have hthreads : ∀ x ∈ (s.setThread t th').threads, x ∈ s.threads ∨ x = th' := fun x hx =>
    List.mem_or_eq_of_mem_set hx
  apply h.move <;> try rfl
  case hplaces =>
    intro n
    simpa [hth, hth'] using places_setThread ht th' n
  case hout =>
    rintro r (ho | ho | ⟨x, hx, hr⟩)
    · exact Or.inl ho
    · exact Or.inr (Or.inl ho)
    · rcases hthreads x hx with hx | rfl
      · exact Or.inr (Or.inr ⟨x, hx, hr⟩)
      · simp [hth'] at hr
  case hdone =>
    intro r us hm
    rcases hthreads _ hm with hm | rfl
    · exact hm
    · cases hth'

/-- Tasks that are no requests come and go. -/
theorem setQueues (h : Inv s) {ring : List TaskSlot} {queue : List MaintenanceTask} (b : Bool)
    (hring : ring.filterMap TaskSlot.pending = s.ring.filterMap TaskSlot.pending)
    (hqueue : queue.filterMap MaintenanceTask.pending =
      s.queue.filterMap MaintenanceTask.pending) :
    Inv { s with ring := ring, queue := queue, handing := b } := by
  have hcount : ∀ {α : Type} (f : α → Option Request) (l : List α) (n : ℕ),
      l.countP (fun x => isReq n (f x)) = (l.filterMap f).countP fun r => isReq n (some r) := by
    intro α f l n
    rw [List.countP_filterMap]
    congr 1
    funext x
    cases f x <;> rfl
  apply h.move <;> try rfl
  case hplaces =>
    intro n
    simp only [places]
    rw [hcount TaskSlot.pending, hcount TaskSlot.pending s.ring, hring,
      hcount MaintenanceTask.pending, hcount MaintenanceTask.pending s.queue, hqueue]
  case hout =>
    rintro r (ho | ho | ho)
    · have hm : r ∈ s.ring.filterMap TaskSlot.pending := by
        rw [← hring]
        exact List.mem_filterMap.mpr ⟨_, ho, rfl⟩
      obtain ⟨x, hx, hr⟩ := List.mem_filterMap.mp hm
      cases x with
      | vectorSearch => cases hr
      | maintenance r' =>
          obtain rfl := Option.some.inj hr
          exact Or.inl hx
    · have hm : r ∈ s.queue.filterMap MaintenanceTask.pending := by
        rw [← hqueue]
        exact List.mem_filterMap.mpr ⟨_, ho, rfl⟩
      obtain ⟨x, hx, hr⟩ := List.mem_filterMap.mp hm
      cases x with
      | segmentUpgrade u => cases hr
      | request r' =>
          obtain rfl := Option.some.inj hr
          exact Or.inr (Or.inl hx)
    · exact Or.inr (Or.inr ho)
  case hdone => exact fun _ _ hm => hm

/-- The worker passes the head of the ring on. -/
theorem enqueue (h : Inv s) {ring : List TaskSlot} (hr : s.ring = .maintenance r :: ring) :
    Inv { s with ring := ring, handing := false, queue := s.queue ++ [.request r] } := by
  apply h.move <;> try rfl
  case hplaces =>
    intro n
    simp only [places, hr, List.countP_append, List.countP_cons, List.countP_nil,
      pending_maintenance, pending_request, isReq_some, decide_eq_true_eq]
    omega
  case hout =>
    rintro r' (ho | ho | ho)
    · exact Or.inl (by simp [hr, ho])
    · rcases List.mem_append.mp ho with ho | ho
      · exact Or.inr (Or.inl ho)
      · obtain rfl : r' = r := by simpa using ho
        exact Or.inl (by simp [hr])
    · exact Or.inr (Or.inr ho)
  case hdone => exact fun _ _ hm => hm

/-- A thread takes the head of the queue. -/
theorem dequeue (h : Inv s) {task : MaintenanceTask} {queue : List MaintenanceTask}
    (hq : s.queue = task :: queue) (ht : s.threads[t]? = some .idle) :
    Inv { s.setThread t (.executing task) with queue := queue } := by
  have hthreads : ∀ x ∈ (s.setThread t (.executing task)).threads,
      x ∈ s.threads ∨ x = .executing task := fun x hx => List.mem_or_eq_of_mem_set hx
  apply h.move <;> try rfl
  case hplaces =>
    intro n
    have hc := countP_setThread ht (.executing task) n
    have hidle : Thread.idle.pending = none := rfl
    have hexec : (Thread.executing task).pending = task.pending := rfl
    simp only [hidle, hexec, isReq_none] at hc
    simp only [places, State.setThread, hq, List.countP_cons]
    simp at hc
    omega
  case hout =>
    rintro r (ho | ho | ⟨x, hx, hr⟩)
    · exact Or.inl ho
    · exact Or.inr (Or.inl (by simp [hq]; exact Or.inr ho))
    · rcases hthreads x hx with hx | rfl
      · exact Or.inr (Or.inr ⟨x, hx, hr⟩)
      · cases task with
        | request r' =>
            obtain rfl := Option.some.inj hr
            exact Or.inr (Or.inl (by simp [hq]))
        | segmentUpgrade u => cases hr
  case hdone =>
    intro r us hm
    rcases hthreads _ hm with hm | hm
    · exact hm
    · cases hm

theorem step (h : Inv s) (ha : Roomy s a) (hs : Maintenance.step ringSize s a = some s') :
    Inv s' := by
  cases a with
  | submit p type =>
      simp only [Maintenance.step] at hs
      split at hs
      next hp =>
        split at hs
        next => exact Option.some.inj hs ▸ h.clear hp _
        next => exact Option.some.inj hs ▸ h.submit hp type
      next => cases hs
  | submitSearch =>
      simp only [Maintenance.step] at hs
      split at hs
      next => exact Option.some.inj hs ▸ h
      next =>
        obtain rfl := Option.some.inj hs
        apply h.setQueues
        · simp [TaskSlot.pending]
        · rfl
  | handleSearch =>
      simp only [Maintenance.step] at hs
      split at hs
      next ring hr =>
        obtain rfl := Option.some.inj hs
        apply h.setQueues
        · rw [hr]
          rfl
        · rfl
      next => cases hs
  | check =>
      simp only [Maintenance.step] at hs
      split at hs
      next r ring hr =>
        split at hs
        next => cases hs
        next =>
          split at hs
          next hfull =>
            have hroom : s.queue.length < maintenanceTaskQueueSize := ha
            omega
          next =>
            obtain rfl := Option.some.inj hs
            exact h.setQueues true rfl rfl
      next => cases hs
  | enqueue =>
      simp only [Maintenance.step] at hs
      split at hs
      next r ring hr =>
        split at hs
        next => exact Option.some.inj hs ▸ h.enqueue hr
        next => cases hs
      next => cases hs
  | dequeue t =>
      simp only [Maintenance.step] at hs
      split at hs
      next task queue hq =>
        split at hs
        next ht => exact Option.some.inj hs ▸ h.dequeue hq ht
        next => cases hs
      next => cases hs
  | execute t status upgrades =>
      simp only [Maintenance.step] at hs
      split at hs
      next r ht =>
        split at hs
        next => exact Option.some.inj hs ▸ h.execute ht status upgrades
        next => cases hs
      next => cases hs
  | setDone t =>
      simp only [Maintenance.step] at hs
      split at hs
      next r upgrades ht => exact Option.some.inj hs ▸ h.setDone ht
      next => cases hs
  | checkUpgrade t =>
      simp only [Maintenance.step] at hs
      split at hs
      next u upgrades ht =>
        split at hs <;> exact Option.some.inj hs ▸ h.setThread ht rfl rfl
      next => cases hs
  | enqueueUpgrade t =>
      simp only [Maintenance.step] at hs
      split at hs
      next u upgrades ht =>
        obtain rfl := Option.some.inj hs
        have hset : Inv (s.setThread t (.submitting upgrades)) := h.setThread ht rfl rfl
        apply hset.setQueues
        · rfl
        · simp [State.setThread, MaintenanceTask.pending]
      next => cases hs
  | finish t =>
      simp only [Maintenance.step] at hs
      split at hs
      next u ht => exact Option.some.inj hs ▸ h.setThread ht rfl rfl
      next ht => exact Option.some.inj hs ▸ h.setThread ht rfl rfl
      next => cases hs
  | wake p =>
      simp only [Maintenance.step] at hs
      split at hs
      next r hp =>
        split at hs
        next hd => exact Option.some.inj hs ▸ h.leave hp hd
        next => exact Option.some.inj hs ▸ h
      next => cases hs

theorem answered (h : Inv s) : Answered s where
  placed := fun n hn => by simpa [hn] using h.placed n
  executed := h.executed
  flag := fun p r hp => ⟨(h.own p r hp).2, h.flag p r hp⟩
  returned := h.returned

end Inv

section Demo

/-- Two maintenance threads, and no request yet. -/
def demoStart : State :=
  ⟨[], false, [], List.replicate 2 .idle, fun _ => ⟨0, false⟩, fun _ => .idle, 0, [], [], []⟩

theorem init_demoStart : Init demoStart := ⟨2, _, rfl⟩

/-- Process `p` loads an index of `n` mapped segments on thread `t`. -/
def demoLoad (p t n : ℕ) : List Action :=
  [.submit p .indexLoad, .check, .enqueue, .dequeue t,
    .execute t 0 (List.replicate n ⟨t, 0⟩), .setDone t, .wake p]

/-- Process 1 loads an index of one segment, process 2 updates a segment meanwhile. -/
def demoRoomy : List Action :=
  demoLoad 1 0 1 ++ [.checkUpgrade 0, .submit 2 .segmentUpdate, .check, .enqueueUpgrade 0,
    .enqueue, .dequeue 1, .finish 1, .dequeue 1, .wake 2, .execute 1 1 [], .setDone 1, .wake 2]

/-- A thread submits its upgrades one after the other while the queue has room. -/
def demoUpgrades (t n : ℕ) : List Action :=
  (List.replicate n [Action.checkUpgrade t, .enqueueUpgrade t]).flatten

theorem exec_demoUpgrades (n : ℕ) (u : Upgrade) (us : List Upgrade)
    (ht : s.threads[t]? = some (.submitting (List.replicate n u ++ us)))
    (hroom : s.queue.length + n ≤ maintenanceTaskQueueSize) :
    exec (step ringSize) s (demoUpgrades t n) =
      some { s.setThread t (.submitting us) with
        queue := s.queue ++ List.replicate n (.segmentUpgrade u) } := by
  induction n generalizing s with
  | zero =>
      obtain ⟨hlt, hget⟩ := List.getElem?_eq_some_iff.mp ht
      have hsame : s.threads.set t (.submitting us) = s.threads := by
        rw [List.replicate_zero, List.nil_append] at hget
        rw [← hget, List.set_getElem_self]
      simp [demoUpgrades, State.setThread, hsame]
  | succ n ih =>
      obtain ⟨hlt, -⟩ := List.getElem?_eq_some_iff.mp ht
      have hnot : ¬ maintenanceTaskQueueSize ≤ s.queue.length := by omega
      have hcheck : step ringSize s (.checkUpgrade t) =
          some (s.setThread t (.admitted u (List.replicate n u ++ us))) := by
        simp [step, ht, List.replicate_succ, hnot]
      set s₁ : State := { s.setThread t (.submitting (List.replicate n u ++ us)) with
        queue := s.queue ++ [.segmentUpgrade u] } with hs₁
      have henqueue : step ringSize (s.setThread t (.admitted u (List.replicate n u ++ us)))
          (.enqueueUpgrade t) = some s₁ := by
        simp [step, State.setThread, hlt, hs₁]
      have hcons : demoUpgrades t (n + 1) =
          .checkUpgrade t :: .enqueueUpgrade t :: demoUpgrades t n := by
        simp [demoUpgrades, List.replicate_succ]
      rw [hcons, exec_cons, hcheck, Option.bind_some, exec_cons, henqueue, Option.bind_some,
        ih (by simp [hs₁, State.setThread, hlt]) (by simp [hs₁, State.setThread]; omega)]
      simp [hs₁, State.setThread, List.replicate_succ]

/-- Process `p` loads an index of `n` mapped segments on thread `t` while nothing else goes on. -/
theorem exec_demoLoad {p n : ℕ} (hroom : ringSize ≠ 0) (hn : n ≤ maxSegmentsCount)
    (hring : s.ring = []) (hhand : s.handing = false) (hqueue : s.queue = [])
    (hback : s.backends p = .idle) (ht : s.threads[t]? = some .idle) :
    ∃ s', exec (step ringSize) s (demoLoad p t n) = some s' ∧ s'.ring = [] ∧ s'.handing = false ∧
      s'.queue = [] ∧ s'.threads = s.threads.set t (.submitting (List.replicate n ⟨t, 0⟩)) ∧
      s'.backends = s.backends ∧ s'.next = s.next + 1 ∧ s'.flagged = s.next :: s.flagged := by
  obtain ⟨hlt, hget⟩ := List.getElem?_eq_some_iff.mp ht
  have hidle : Function.update s.backends p .idle = s.backends := by
    rw [Function.update_eq_self_iff, hback]
  simp [demoLoad, step, State.submit, State.cleared, State.setThread, State.execute,
    State.setDone, State.leave, hring, hhand, hqueue, hback, hget, hlt, hn, hroom.symm, hidle]

/-- Two indexes whose segments fill the queue, and the request that comes then. -/
theorem dropped {n m : ℕ} (hn : n ≤ maxSegmentsCount) (hm : m ≤ maxSegmentsCount)
    (hfull : n + m = maintenanceTaskQueueSize) :
    ∃ s, Reachable Init (step 4) anyStep s ∧ 2 < s.next ∧ 2 ∉ s.flagged ∧ places s 2 = 0 := by
  obtain ⟨s, hs, hring, hhand, hqueue, hthreads, hback, hnext, hflag⟩ :=
    @exec_demoLoad 4 demoStart 0 1 n (by simp) hn rfl rfl rfl rfl rfl
  obtain ⟨s₀, hs₀, hring₀, hhand₀, hqueue₀, hthreads₀, hback₀, hnext₀, hflag₀⟩ :=
    @exec_demoLoad 4 s 1 2 m (by simp) hm hring hhand hqueue (by rw [hback]; rfl)
      (by simp [hthreads, demoStart])
  have hlist : s₀.threads = [.submitting (List.replicate n ⟨0, 0⟩),
      .submitting (List.replicate m ⟨1, 0⟩)] := by
    rw [hthreads₀, hthreads]
    rfl
  have h₁ := @exec_demoUpgrades 4 s₀ 0 n ⟨0, 0⟩ [] (by simp [hlist])
    (by simp only [hqueue₀, List.length_nil]; omega)
  set s₁ : State := { s₀.setThread 0 (.submitting []) with
    queue := s₀.queue ++ List.replicate n (.segmentUpgrade ⟨0, 0⟩) } with hs₁
  have h₂ := @exec_demoUpgrades 4 s₁ 1 m ⟨1, 0⟩ [] (by simp [hs₁, State.setThread, hlist])
    (by simp only [hs₁, hqueue₀, List.nil_append, List.length_replicate]; omega)
  set s₂ : State := { s₁.setThread 1 (.submitting []) with
    queue := s₁.queue ++ List.replicate m (.segmentUpgrade ⟨1, 0⟩) } with hs₂
  have hring₂ : s₂.ring = [] := hring₀
  have hhand₂ : s₂.handing = false := hhand₀
  have hback₂ : s₂.backends 3 = .idle := by
    show s₀.backends 3 = .idle
    rw [hback₀, hback]
    rfl
  have hlen : maintenanceTaskQueueSize ≤ s₂.queue.length := by
    simp only [hs₂, hs₁, hqueue₀, List.nil_append, List.length_append, List.length_replicate]
    omega
  have h₃ : exec (step 4) s₂ [.submit 3 .segmentUpdate, .check] =
      some { s₂.submit 3 .segmentUpdate with ring := [] } := by
    simp [step, State.submit, hback₂, hring₂, hhand₂, hlen]
  have hthreads₂ : s₂.threads = [.submitting [], .submitting []] := by
    simp [hs₂, hs₁, State.setThread, hlist]
  refine ⟨{ s₂.submit 3 .segmentUpdate with ring := [] }, ?_, ?_, ?_, ?_⟩
  · exact (((((Reachable.start init_demoStart).of_exec (meets_anyStep _) hs).of_exec
      (meets_anyStep _) hs₀).of_exec (meets_anyStep _) h₁).of_exec (meets_anyStep _) h₂).of_exec
        (meets_anyStep _) h₃
  · show 2 < s₀.next + 1
    rw [hnext₀, hnext]
    decide
  · show 2 ∉ s₀.flagged
    rw [hflag₀, hflag, hnext]
    decide
  · have hqueue₂ : s₂.queue =
        List.replicate n (.segmentUpgrade ⟨0, 0⟩) ++ List.replicate m (.segmentUpgrade ⟨1, 0⟩) := by
      simp [hs₂, hs₁, hqueue₀]
    simp [places, State.submit, hthreads₂, hqueue₂, List.countP_replicate,
      MaintenanceTask.pending, Thread.pending]

end Demo

end VectorLsm.Maintenance
