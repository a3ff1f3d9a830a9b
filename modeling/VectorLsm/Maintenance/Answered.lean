import Mathlib.Data.List.Count
import VectorLsm.Maintenance.Machine

/-! # Where a request is until it is answered

A request is in the ring, in the queue or with a thread until its flag is set, unless the worker
finds the queue full.
-/

namespace VectorLsm.Maintenance

open Transition

def TaskSlot.pending : TaskSlot → Option Request
  | .vectorSearch => none
  | .maintenance r => some r

def MaintenanceTask.pending : MaintenanceTask → Option Request
  | .request r => some r
  | .segmentUpgrade _ => none

/-- The request a thread has not answered yet. -/
def Thread.pending : Thread → Option Request
  | .executing t => t.pending
  | .executed r _ => some r
  | _ => none

/-- The request is number `n`. -/
def isReq (n : ℕ) : Option Request → Bool
  | some r => decide (r.req = n)
  | none => false

/-- In how many places request `n` is. -/
def places (s : State) (n : ℕ) : ℕ :=
  s.ring.countP (fun x => isReq n x.pending) + s.queue.countP (fun x => isReq n x.pending) +
    s.threads.countP fun x => isReq n x.pending

/-- Every submitted request is in one place until its flag is set, once and after it was
executed; the flag is that of its process, which returns with the status of its own request. -/
structure Answered (s : State) : Prop where
  placed : ∀ n < s.next, s.flagged.count n + places s n = 1
  executed : ∀ n ∈ s.flagged, n ∈ s.executed.map Prod.fst
  flag : ∀ p r, s.backends p = .waiting r →
    r.req < s.next ∧ ((s.results p).maintDone = true ↔ r.req ∈ s.flagged)
  returned : ∀ x ∈ s.returned, x ∈ s.executed

/-- The condition on a step: the worker finds room in the queue. -/
def Roomy (s : State) : Action → Prop
  | .check => s.queue.length < maintenanceTaskQueueSize
  | _ => True

instance (s : State) (a : Action) : Decidable (Roomy s a) := by
  cases a <;> unfold Roomy <;> infer_instance

/-- A request on its way to its flag. -/
def Outstanding (s : State) (r : Request) : Prop :=
  .maintenance r ∈ s.ring ∨ .request r ∈ s.queue ∨ ∃ th ∈ s.threads, th.pending = some r

structure Inv (s : State) : Prop where
  placed : ∀ n, s.flagged.count n + places s n = if n < s.next then 1 else 0
  waits : ∀ r, Outstanding s r → s.backends r.backendPgprocno = .waiting r
  own : ∀ p r, s.backends p = .waiting r → r.backendPgprocno = p ∧ r.req < s.next
  distinct : ∀ p p' r r', s.backends p = .waiting r → s.backends p' = .waiting r' →
    r.req = r'.req → r = r'
  flag : ∀ p r, s.backends p = .waiting r →
    ((s.results p).maintDone = true ↔ r.req ∈ s.flagged)
  status : ∀ p r, s.backends p = .waiting r → r.req ∈ s.flagged → r.taskType = .segmentUpdate →
    (r.req, (s.results p).maintStatus) ∈ s.executed
  done : ∀ r us, .executed r us ∈ s.threads → r.req ∈ s.executed.map Prod.fst ∧
    (r.taskType = .segmentUpdate →
      (r.req, (s.results r.backendPgprocno).maintStatus) ∈ s.executed)
  executed : ∀ n ∈ s.flagged, n ∈ s.executed.map Prod.fst
  returned : ∀ x ∈ s.returned, x ∈ s.executed

section Places

variable {s : State} {r : Request} {n t : ℕ} {th th' : Thread}

@[simp] theorem isReq_some : isReq n (some r) = decide (r.req = n) := rfl

@[simp] theorem isReq_none : isReq n none = false := rfl

@[simp] theorem pending_maintenance : (TaskSlot.maintenance r).pending = some r := rfl

@[simp] theorem pending_request : (MaintenanceTask.request r).pending = some r := rfl

theorem Outstanding.places_pos (h : Outstanding s r) : 0 < places s r.req := by
  unfold places
  rcases h with h | h | ⟨th, hth, hr⟩
  · have : 0 < s.ring.countP fun x => isReq r.req x.pending :=
      List.countP_pos_iff.mpr ⟨_, h, by simp⟩
    omega
  · have : 0 < s.queue.countP fun x => isReq r.req x.pending :=
      List.countP_pos_iff.mpr ⟨_, h, by simp⟩
    omega
  · have : 0 < s.threads.countP fun x => isReq r.req x.pending :=
      List.countP_pos_iff.mpr ⟨th, hth, by simp [hr]⟩
    omega

/-- What a thread gives up and takes on. -/
theorem countP_setThread (h : s.threads[t]? = some th) (th' : Thread) (n : ℕ) :
    (s.threads.set t th').countP (fun x => isReq n x.pending) +
        (if isReq n th.pending then 1 else 0) =
      s.threads.countP (fun x => isReq n x.pending) + if isReq n th'.pending then 1 else 0 := by
  obtain ⟨hlt, hget⟩ := List.getElem?_eq_some_iff.mp h
  have hle : (if isReq n th.pending then 1 else 0) ≤
      s.threads.countP fun x => isReq n x.pending := by
    split
    next hr => exact List.countP_pos_iff.mpr ⟨th, List.mem_of_getElem? h, hr⟩
    next => exact Nat.zero_le _
  rw [List.countP_set hlt, hget]
  omega

theorem places_setThread (h : s.threads[t]? = some th) (th' : Thread) (n : ℕ) :
    places (s.setThread t th') n + (if isReq n th.pending then 1 else 0) =
      places s n + if isReq n th'.pending then 1 else 0 := by
  have := countP_setThread h th' n
  simp only [places, State.setThread]
  omega

end Places

namespace Inv

variable {s s' : State} {r : Request} {n t : ℕ} {th : Thread}

/-- A request that is still outstanding is not flagged. -/
theorem not_flagged (h : Inv s) (ho : Outstanding s r) : r.req ∉ s.flagged := by
  intro hf
  have hp := ho.places_pos
  have hc := List.count_pos_iff.mpr hf
  have := h.placed r.req
  split at this <;> omega

/-- Requests move between the places, and threads submit upgrades. -/
theorem move (h : Inv s) (hnext : s'.next = s.next) (hres : s'.results = s.results)
    (hback : s'.backends = s.backends) (hexec : s'.executed = s.executed)
    (hflag : s'.flagged = s.flagged) (hret : s'.returned = s.returned)
    (hplaces : ∀ n, places s' n = places s n)
    (hout : ∀ r, Outstanding s' r → Outstanding s r)
    (hdone : ∀ r us, .executed r us ∈ s'.threads → .executed r us ∈ s.threads) : Inv s' where
  placed := by simpa only [hflag, hplaces, hnext] using h.placed
  waits := by simpa only [hback] using fun r ho => h.waits r (hout r ho)
  own := by simpa only [hback, hnext] using h.own
  distinct := by simpa only [hback] using h.distinct
  flag := by simpa only [hback, hres, hflag] using h.flag
  status := by simpa only [hback, hres, hflag, hexec] using h.status
  done := by simpa only [hres, hexec] using fun r us hm => h.done r us (hdone r us hm)
  executed := by simpa only [hflag, hexec] using h.executed
  returned := by simpa only [hret, hexec] using h.returned

/-- The result slot of a process with nothing outstanding is cleared. -/
theorem clear {p : ℕ} (h : Inv s) (hp : s.backends p = .idle) (x : ResultSlot) :
    Inv { s with results := Function.update s.results p x } := by
  have hne : ∀ q r, s.backends q = .waiting r → q ≠ p := by
    rintro q r hq rfl
    simp [hp] at hq
  constructor
  case placed => exact h.placed
  case waits => exact h.waits
  case own => exact h.own
  case distinct => exact h.distinct
  case flag => exact fun q r hq => by simpa [hne q r hq] using h.flag q r hq
  case status => exact fun q r hq hf ht => by simpa [hne q r hq] using h.status q r hq hf ht
  case done =>
    intro r us hm
    have hq := h.waits r (Or.inr (Or.inr ⟨_, hm, rfl⟩))
    simpa [hne _ r hq] using h.done r us hm
  case executed => exact h.executed
  case returned => exact h.returned

/-- A process with nothing outstanding submits a request. -/
theorem submit {p : ℕ} (h : Inv s) (hp : s.backends p = .idle) (type : TaskType) :
    Inv (s.submit p type) := by
  have hne : ∀ q r, s.backends q = .waiting r → q ≠ p := by
    rintro q r hq rfl
    simp [hp] at hq
  have hback : ∀ q r, (s.submit p type).backends q = .waiting r →
      (q = p ∧ r = ⟨s.next, p, type⟩) ∨ (q ≠ p ∧ s.backends q = .waiting r) := by
    intro q r hq
    by_cases hqp : q = p
    · subst hqp
      exact Or.inl ⟨rfl, by simpa [State.submit, eq_comm] using hq⟩
    · exact Or.inr ⟨hqp, by simpa [State.submit, hqp] using hq⟩
  have hnew : s.next ∉ s.flagged := by
    intro hf
    have hc := List.count_pos_iff.mpr hf
    have := h.placed s.next
    simp at this
    omega
  have hplaces : ∀ n, places (s.submit p type) n = places s n + if s.next = n then 1 else 0 := by
    intro n
    simp only [places, State.submit, List.countP_append, List.countP_singleton,
      pending_maintenance, isReq_some, decide_eq_true_eq]
    omega
  constructor
  case placed =>
    intro n
    have := h.placed n
    have hnext : (s.submit p type).next = s.next + 1 := rfl
    rw [hplaces, hnext]
    show s.flagged.count n + _ = _
    split_ifs at this ⊢ <;> omega
  case waits =>
    intro r ho
    have ho' : Outstanding s r ∨ r = ⟨s.next, p, type⟩ := by
      rcases ho with ho | ho | ho
      · rcases List.mem_append.mp ho with ho | ho
        · exact Or.inl (Or.inl ho)
        · exact Or.inr (by simpa using ho)
      · exact Or.inl (Or.inr (Or.inl ho))
      · exact Or.inl (Or.inr (Or.inr ho))
    rcases ho' with ho' | rfl
    · have hq := h.waits r ho'
      simpa [State.submit, hne _ r hq] using hq
    · simp [State.submit]
  case own =>
    intro q r hq
    rcases hback q r hq with ⟨rfl, rfl⟩ | ⟨-, hq⟩
    · exact ⟨rfl, Nat.lt_succ_self _⟩
    · exact ⟨(h.own q r hq).1, (h.own q r hq).2.trans (Nat.lt_succ_self _)⟩
  case distinct =>
    intro q q' r r' hq hq' he
    rcases hback q r hq with ⟨-, rfl⟩ | ⟨-, hq₁⟩ <;>
      rcases hback q' r' hq' with ⟨-, rfl⟩ | ⟨-, hq₂⟩
    · rfl
    · exact absurd he (h.own q' r' hq₂).2.ne'
    · exact absurd he (h.own q r hq₁).2.ne
    · exact h.distinct q q' r r' hq₁ hq₂ he
  case flag =>
    intro q r hq
    rcases hback q r hq with ⟨rfl, rfl⟩ | ⟨hqp, hq⟩
    · simpa [State.submit, State.cleared] using hnew
    · simpa [State.submit, hqp] using h.flag q r hq
  case status =>
    intro q r hq hf ht
    rcases hback q r hq with ⟨rfl, rfl⟩ | ⟨hqp, hq⟩
    · exact absurd hf hnew
    · simpa [State.submit, hqp] using h.status q r hq hf ht
  case done =>
    intro r us hm
    have hq := h.waits r (Or.inr (Or.inr ⟨_, hm, rfl⟩))
    simpa [State.submit, hne _ r hq] using h.done r us hm
  case executed => exact h.executed
  case returned => exact h.returned

/-- A thread executes a request. -/
theorem execute (h : Inv s) (ht : s.threads[t]? = some (.executing (.request r))) (status : ℕ)
    (upgrades : List Upgrade) : Inv (s.execute t r status upgrades) := by
  have hmem := List.mem_of_getElem? ht
  have hout : Outstanding s r := Or.inr (Or.inr ⟨_, hmem, rfl⟩)
  have hr := h.waits r hout
  have hthreads : ∀ x ∈ (s.execute t r status upgrades).threads,
      x ∈ s.threads ∨ x = .executed r upgrades := fun x hx => List.mem_or_eq_of_mem_set hx
  have hstat : ∀ q, q ≠ r.backendPgprocno →
      (s.execute t r status upgrades).results q = s.results q := by
    intro q hq
    simp only [State.execute]
    split <;> simp [hq]
  have hdone : ∀ q, ((s.execute t r status upgrades).results q).maintDone =
      (s.results q).maintDone := by
    intro q
    simp only [State.execute]
    split
    · by_cases hq : q = r.backendPgprocno <;> simp [hq]
    · rfl
  have hsub : ∀ x ∈ s.executed, x ∈ (s.execute t r status upgrades).executed :=
    fun x hx => List.mem_cons_of_mem _ hx
  have hplaces : ∀ n, places (s.execute t r status upgrades) n = places s n := by
    intro n
    exact Nat.add_right_cancel (places_setThread ht (.executed r upgrades) n)
  constructor
  case placed =>
    intro n
    rw [hplaces]
    exact h.placed n
  case waits =>
    intro r' ho
    refine h.waits r' ?_
    rcases ho with ho | ho | ⟨x, hx, hxr⟩
    · exact Or.inl ho
    · exact Or.inr (Or.inl ho)
    · rcases hthreads x hx with hx | rfl
      · exact Or.inr (Or.inr ⟨x, hx, hxr⟩)
      · obtain rfl := Option.some.inj hxr
        exact hout
  case own => exact h.own
  case distinct => exact h.distinct
  case flag => exact fun q r' hq => by rw [hdone]; exact h.flag q r' hq
  case status =>
    intro q r' hq hf htype
    by_cases hqr : q = r.backendPgprocno
    · subst hqr
      have hq : s.backends r.backendPgprocno = .waiting r' := hq
      rw [hr] at hq
      obtain rfl : r = r' := by simpa using hq
      exact absurd hf (h.not_flagged hout)
    · rw [hstat q hqr]
      exact hsub _ (h.status q r' hq hf htype)
  case done =>
    intro r' us hm
    rcases hthreads _ hm with hm | hm
    · have hq := h.waits r' (Or.inr (Or.inr ⟨_, hm, rfl⟩))
      by_cases hqr : r'.backendPgprocno = r.backendPgprocno
      · rw [hqr, hr] at hq
        obtain rfl : r = r' := by simpa using hq
        refine ⟨by simp [State.execute], fun htype => ?_⟩
        simp [State.execute, htype]
      · rw [hstat _ hqr]
        obtain ⟨h₁, h₂⟩ := h.done r' us hm
        refine ⟨?_, fun htype => hsub _ (h₂ htype)⟩
        obtain ⟨x, hx, he⟩ := List.mem_map.mp h₁
        exact List.mem_map.mpr ⟨x, hsub x hx, he⟩
    · obtain ⟨rfl, rfl⟩ : r' = r ∧ us = upgrades := by simpa using hm
      refine ⟨by simp [State.execute], fun htype => ?_⟩
      simp [State.execute, htype]
  case executed =>
    intro n hn
    obtain ⟨x, hx, he⟩ := List.mem_map.mp (h.executed n hn)
    exact List.mem_map.mpr ⟨x, hsub x hx, he⟩
  case returned => exact fun x hx => hsub x (h.returned x hx)

/-- A thread that has executed a request sets its flag. -/
theorem setDone (h : Inv s) {upgrades : List Upgrade}
    (ht : s.threads[t]? = some (.executed r upgrades)) : Inv (s.setDone t r upgrades) := by
  have hmem := List.mem_of_getElem? ht
  have hout : Outstanding s r := Or.inr (Or.inr ⟨_, hmem, rfl⟩)
  have hr := h.waits r hout
  have hthreads : ∀ x ∈ (s.setDone t r upgrades).threads,
      x ∈ s.threads ∨ x = .submitting upgrades := fun x hx => List.mem_or_eq_of_mem_set hx
  have hplaces : ∀ n, places (s.setDone t r upgrades) n + (if r.req = n then 1 else 0) =
      places s n := by
    intro n
    have := places_setThread ht (.submitting upgrades) n
    simp only [Thread.pending, isReq_some, isReq_none, decide_eq_true_eq] at this
    exact this
  have hout' : ∀ r', Outstanding (s.setDone t r upgrades) r' → Outstanding s r' := by
    rintro r' (ho | ho | ⟨x, hx, hxr⟩)
    · exact Or.inl ho
    · exact Or.inr (Or.inl ho)
    · rcases hthreads x hx with hx | rfl
      · exact Or.inr (Or.inr ⟨x, hx, hxr⟩)
      · cases hxr
  have hstat : ∀ q, ((s.setDone t r upgrades).results q).maintStatus =
      (s.results q).maintStatus := by
    intro q
    by_cases hq : q = r.backendPgprocno <;> simp [State.setDone, hq]
  constructor
  case placed =>
    intro n
    have := h.placed n
    have hp := hplaces n
    show (r.req :: s.flagged).count n + _ = if n < s.next then 1 else 0
    rw [List.count_cons]
    by_cases hn : r.req = n
    · simp only [hn, beq_self_eq_true, if_true] at hp ⊢
      omega
    · simp only [hn, if_false, beq_iff_eq] at hp ⊢
      omega
  case waits => exact fun r' ho => h.waits r' (hout' r' ho)
  case own => exact h.own
  case distinct => exact h.distinct
  case flag =>
    intro q r' hq
    have hq' : s.backends q = .waiting r' := hq
    have hf := h.flag q r' hq'
    by_cases hqr : q = r.backendPgprocno
    · subst hqr
      rw [hr] at hq'
      obtain rfl : r = r' := by simpa using hq'
      simp [State.setDone]
    · have hne : r'.req ≠ r.req := by
        intro he
        obtain rfl := h.distinct q _ r' r hq' hr he
        exact hqr (h.own q r' hq').1.symm
      simpa [State.setDone, hqr, hne] using hf
  case status =>
    intro q r' hq hf htype
    rw [hstat]
    have hq' : s.backends q = .waiting r' := hq
    by_cases hqr : q = r.backendPgprocno
    · subst hqr
      rw [hr] at hq'
      obtain rfl : r = r' := by simpa using hq'
      exact (h.done r upgrades hmem).2 htype
    · refine h.status q r' hq' ?_ htype
      rcases List.mem_cons.mp hf with he | hf
      · obtain rfl := h.distinct q _ r' r hq' hr he
        exact absurd (h.own q r' hq').1.symm hqr
      · exact hf
  case done =>
    intro r' us hm
    rw [hstat]
    rcases hthreads _ hm with hm | hm
    · exact h.done r' us hm
    · cases hm
  case executed =>
    intro n hn
    rcases List.mem_cons.mp hn with rfl | hn
    · exact (h.done r upgrades hmem).1
    · exact h.executed n hn
  case returned => exact h.returned

end Inv

end VectorLsm.Maintenance
