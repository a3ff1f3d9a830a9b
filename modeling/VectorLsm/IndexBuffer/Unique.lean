import VectorLsm.IndexBuffer.Machine

/-! # One slot for each index

The claims that scan the buffer under its lock put no relid in a second slot. The other
writes do, when they meet a slot that shows the relid already.
-/

namespace VectorLsm

namespace IndexBuffer

open Transition

/-- Slot `k` is in use with `relid`. -/
def Shows (s : State) (k : ℕ) (relid : Oid) : Prop :=
  k < indexBufSize ∧ (s.slots k).valid ≠ .free ∧ (s.slots k).indexRelId = relid

instance (s : State) (k : ℕ) (relid : Oid) : Decidable (Shows s k relid) := by
  unfold Shows
  infer_instance

def OneSlotPerIndex (s : State) : Prop :=
  ∀ relid j k, Shows s j relid → Shows s k relid → j = k

/-- The claim looks for a slot of the relid before it takes one. -/
def Claim.looks : Claim → Bool
  | .build _ _ => false
  | _ => true

/-- Under the lock and on the way to claim a slot for `relid`, after looking for one. -/
def BackendPc.claims : BackendPc → Oid → Prop
  | .find c _, relid | .findRel c _ _, relid | .claim c _, relid | .request c _, relid
  | .relId c _, relid => c.looks = true ∧ c.relid = relid
  | _, _ => False

instance (pc : BackendPc) (relid : Oid) : Decidable (pc.claims relid) := by
  cases pc <;> unfold BackendPc.claims <;> infer_instance

/-- The slot and the relid that a step is to show without having looked for the relid. -/
def exposes (s : State) : Action → Option (ℕ × Oid)
  | .backend p =>
      match s.pc p with
      | .claim c i =>
          -- A freed slot keeps the relid it had.
          if i < indexBufSize ∧ (s.slots i).valid = .free ∧
              ¬ (c.looks = true ∧ c.relid = (s.slots i).indexRelId) then
            some (i, (s.slots i).indexRelId)
          else none
      | .buildRelId relid _ k => if (s.slots k).valid = .free then none else some (k, relid)
      | .publish _ _ k | .loading k => some (k, (s.slots k).indexRelId)
      | _ => none
  | .backendError p =>
      match s.pc p with
      | .loading k => some (k, (s.slots k).indexRelId)
      | _ => none
  | .worker =>
      match s.worker with
      | .rebuild i relid => if (s.slots i).valid = .free then none else some (i, relid)
      | .publish i _ => some (i, (s.slots i).indexRelId)
      | _ => none
  | _ => none

/-- No slot but `k` shows `relid`, and nobody is about to make another one show it. -/
def Unclaimed (s : State) (k : ℕ) (relid : Oid) : Prop :=
  (∀ j < indexBufSize, Shows s j relid → j = k) ∧ ∀ p ∈ s.lock, ¬ (s.pc p).claims relid

instance (s : State) (k : ℕ) (relid : Oid) : Decidable (Unclaimed s k relid) := by
  unfold Unclaimed
  cases s.lock <;> infer_instance

/-- What is shown without looking is shown there already, or nowhere else. -/
def Looked (s : State) (a : Action) : Prop :=
  ∀ e ∈ exposes s a, Shows s e.1 e.2 ∨ Unclaimed s e.1 e.2

instance (s : State) (a : Action) : Decidable (Looked s a) := by
  unfold Looked
  cases exposes s a <;> infer_instance

/-- The lock is held at this point. -/
def BackendPc.underLock : BackendPc → Bool
  | .find _ _ | .findRel _ _ _ | .claim _ _ | .request _ _ | .relId _ _ | .unlock _ _ => true
  | _ => false

/-- The scan has passed slot `j` without a match for `relid`. -/
def BackendPc.passed : BackendPc → ℕ → Oid → Prop
  | .find c i, j, relid | .findRel c i _, j, relid => c.looks = true ∧ c.relid = relid ∧ j < i
  | .claim c _, _, relid => c.looks = true ∧ c.relid = relid
  | .request c k, j, relid | .relId c k, j, relid => c.looks = true ∧ c.relid = relid ∧ j ≠ k
  | _, _, _ => False

/-- The slot that the next step puts to use. -/
def BackendPc.takes : BackendPc → Option ℕ
  | .claim _ i => some i
  | .relId _ k => some k
  | _ => none

/-- Nobody is under the lock that does not hold it. -/
def Locked (s : State) : Prop := ∀ p, (s.pc p).underLock = true → s.lock = some p

/-- The lock keeps claims apart, and what a scan has passed still does not match. -/
structure Inv (s : State) : Prop where
  locked : Locked s
  passed : ∀ p j relid, (s.pc p).passed j relid → ¬ Shows s j relid
  unique : OneSlotPerIndex s

variable {s s' : State} {p j k i : ℕ} {relid : Oid} {slot : LSMIndexBufferSlot} {a : Action}

theorem BackendPc.claims.underLock {pc : BackendPc} (h : pc.claims relid) :
    pc.underLock = true := by
  cases pc <;> first | rfl | cases h

theorem BackendPc.passed.claims {pc : BackendPc} (h : pc.passed j relid) : pc.claims relid := by
  cases pc <;> first | exact ⟨h.1, h.2.1⟩ | exact h

section Shows

@[simp] theorem shows_goto (pc : BackendPc) : Shows (s.goto p pc) k relid ↔ Shows s k relid :=
  Iff.rfl

@[simp] theorem shows_setLock (l : Option ℕ) : Shows (s.setLock l) k relid ↔ Shows s k relid :=
  Iff.rfl

@[simp] theorem shows_setWorker (w : WorkerPc) :
    Shows (s.setWorker w) k relid ↔ Shows s k relid := Iff.rfl

@[simp] theorem shows_setExclusive (r : Oid) (b : Bool) :
    Shows (s.setExclusive r b) k relid ↔ Shows s k relid := Iff.rfl

@[simp] theorem shows_setMetadata (r : Oid) (md : LSMIndexMetadata) :
    Shows (s.setMetadata r md) k relid ↔ Shows s k relid := Iff.rfl

theorem shows_setSlot : Shows (s.setSlot i slot) k relid ↔
    if k = i then k < indexBufSize ∧ slot.valid ≠ .free ∧ slot.indexRelId = relid
    else Shows s k relid := by
  unfold Shows
  rw [State.setSlot_slots, Function.update_apply]
  split <;> rfl

theorem shows_store (v : LSMSlotState) : Shows (s.store i p v) k relid ↔
    if k = i then k < indexBufSize ∧ v ≠ .free ∧ (s.slots i).indexRelId = relid
    else Shows s k relid := by
  unfold Shows
  rw [State.store_slots, Function.update_apply]
  split <;> rfl

/-- A write that leaves the relid and frees no slot. -/
theorem shows_of_setSlot (hv : slot.valid = (s.slots i).valid)
    (hr : slot.indexRelId = (s.slots i).indexRelId) (h : Shows (s.setSlot i slot) k relid) :
    Shows s k relid := by
  rw [shows_setSlot] at h
  split at h
  · next hk =>
    subst hk
    rw [hv, hr] at h
    exact h
  · exact h

end Shows

/-- Backend `p` puts slot `k` to use for the relid after it has passed the other slots. -/
structure Claims (s s' : State) (p k : ℕ) (relid : Oid) : Prop where
  claims : (s.pc p).claims relid
  takes : (s.pc p).takes = some k
  others : ∀ j, j ≠ k → (s.pc p).passed j relid
  own : ¬ (s'.pc p).passed k relid

/-- What slot `k` shows after a step it showed before, or the step exposes it, or claims it. -/
theorem backendStep_shows (h : backendStep p s = some s') (hk : Shows s' k relid) :
    Shows s k relid ∨ exposes s (.backend p) = some (k, relid) ∨ Claims s s' p k relid := by
  cases hpc : s.pc p with
  | lookup | lookupRel | findRel | unlock | signal | await | loadWait | building | commit =>
      left
      simp only [backendStep, hpc] at h
      repeat' split at h
      all_goals cases h <;> exact hk
  | find c i =>
      left
      simp only [backendStep, hpc] at h
      split_ifs at h <;> cases h <;> exact hk
  | lock c =>
      left
      cases c <;> simp only [backendStep, hpc] at h <;> split at h <;> cases h <;> exact hk
  | claim c i =>
      by_cases hi : i < indexBufSize
      · by_cases hv : (s.slots i).valid = .free
        · have hs : (k = i ∧ (s.slots i).indexRelId = relid ∧ ¬ (s'.pc p).passed i relid) ∨
              Shows s k relid := by
            cases c <;> simp only [backendStep, hpc, if_pos hi, if_pos hv] at h <;> cases h <;>
              rw [shows_goto, shows_setSlot] at hk <;> split at hk
            all_goals first
              | exact Or.inr hk
              | exact Or.inl ⟨‹_›, hk.2.2, by simp [BackendPc.passed]⟩
          rcases hs with ⟨rfl, rfl, hp⟩ | hs
          · right
            by_cases hl : c.looks = true ∧ c.relid = (s.slots k).indexRelId
            · exact Or.inr ⟨by rw [hpc]; exact hl, by rw [hpc]; rfl,
                fun _ _ => by rw [hpc]; exact hl, hp⟩
            · exact Or.inl (by simp only [exposes, hpc]; exact if_pos ⟨hi, hv, hl⟩)
          · exact Or.inl hs
        · left
          simp only [backendStep, hpc, if_pos hi, if_neg hv] at h
          cases h
          exact hk
      · left
        cases c <;> simp only [backendStep, hpc, if_neg hi] at h <;> cases h <;> exact hk
  | request c i =>
      left
      cases c <;> simp only [backendStep, hpc] at h <;> cases h <;>
        exact shows_of_setSlot (by rfl) (by rfl) hk
  | relId c i =>
      have hs : (k = i ∧ (c.looks = true ∧ c.relid = relid) ∧ ¬ (s'.pc p).passed i relid) ∨
          Shows s k relid := by
        cases c <;> simp only [backendStep, hpc] at h <;> cases h <;>
          rw [shows_goto, shows_setSlot] at hk <;> split at hk
        all_goals first
          | exact Or.inr hk
          | exact Or.inl ⟨‹_›, ⟨rfl, hk.2.2⟩, by simp [BackendPc.passed]⟩
      rcases hs with ⟨rfl, hl, hp⟩ | hs
      · exact Or.inr (Or.inr ⟨by rw [hpc]; exact hl, by rw [hpc]; rfl,
          fun j hj => by rw [hpc]; exact ⟨hl.1, hl.2, hj⟩, hp⟩)
      · exact Or.inl hs
  | reset i =>
      left
      simp only [backendStep, hpc, Option.some.injEq] at h
      subst h
      rw [shows_goto, shows_store] at hk
      split at hk
      · exact absurd rfl hk.2.1
      · exact hk
  | buildRelId r md i =>
      simp only [backendStep, hpc, Option.some.injEq] at h
      subst h
      rw [shows_goto, shows_setSlot] at hk
      split at hk
      · next hki =>
        subst hki
        refine Or.inr (Or.inl ?_)
        simp only [exposes, hpc, if_neg hk.2.1, ← hk.2.2]
      · exact Or.inl hk
  | publish _ _ i | loading i =>
      simp only [backendStep, hpc, Option.some.injEq] at h
      subst h
      rw [shows_goto, shows_store] at hk
      split at hk
      · next hki =>
        subst hki
        exact Or.inr (Or.inl (by simp only [exposes, hpc, ← hk.2.2]))
      · exact Or.inl hk
  | load i =>
      left
      simp only [backendStep, hpc] at h
      split at h <;> cases h <;> try exact hk
      next hv =>
      rw [shows_goto, shows_setSlot] at hk
      split at hk
      · next hki =>
        subst hki
        exact ⟨hk.1, by rw [hv]; decide, hk.2.2⟩
      · exact hk
  | idle | returned | failed => simp [backendStep, hpc] at h

theorem backendError_shows (h : backendError p s = some s') (hk : Shows s' k relid) :
    Shows s k relid ∨ exposes s (.backendError p) = some (k, relid) := by
  cases hpc : s.pc p with
  | await | loadWait | building =>
      simp only [backendError, hpc, Option.some.injEq] at h
      subst h
      exact Or.inl hk
  | loading i =>
      simp only [backendError, hpc, Option.some.injEq] at h
      subst h
      rw [shows_goto, shows_store] at hk
      split at hk
      · next hki =>
        subst hki
        rw [State.setSlot_slots, Function.update_self] at hk
        exact Or.inr (by simp only [exposes, hpc, ← hk.2.2])
      · next hki =>
        rw [shows_setSlot, if_neg hki] at hk
        exact Or.inl hk
  | _ => simp [backendError, hpc] at h

theorem shows_giveUp (hk : Shows (s.giveUp i) k relid) : Shows s k relid := by
  unfold State.giveUp at hk
  rw [shows_setWorker, shows_setSlot] at hk
  split at hk
  · exact absurd rfl hk.2.1
  · exact hk

theorem workerStep_shows (h : workerStep s = some s') (hk : Shows s' k relid) :
    Shows s k relid ∨ exposes s .worker = some (k, relid) := by
  cases hw : s.worker with
  | off => simp [workerStep, hw] at h
  | waiting | scan | opening | commit =>
      left
      simp only [workerStep, hw] at h
      repeat' split at h
      all_goals cases h <;> exact hk
  | serve i =>
      left
      simp only [workerStep, hw] at h
      repeat' split at h
      all_goals cases h
      · exact hk
      · exact shows_giveUp hk
      · exact hk
  | recover i =>
      left
      simp only [workerStep, hw, Option.some.injEq] at h
      subst h
      rw [shows_setWorker] at hk
      exact shows_of_setSlot (by rfl) (by rfl) hk
  | rebuild i r =>
      simp only [workerStep, hw] at h
      split at h <;> cases h
      · exact Or.inl hk
      · rw [shows_setWorker, shows_setSlot] at hk
        split at hk
        · next hki =>
          subst hki
          refine Or.inr ?_
          simp only [exposes, hw]
          rw [if_neg hk.2.1, ← hk.2.2]
        · exact Or.inl hk
  | publish i r =>
      simp only [workerStep, hw, Option.some.injEq] at h
      subst h
      rw [shows_setWorker, shows_setSlot] at hk
      split at hk
      · next hki =>
        subst hki
        exact Or.inr (by simp only [exposes, hw, ← hk.2.2])
      · exact Or.inl hk
  | caught i =>
      simp only [workerStep, hw, Option.some.injEq] at h
      subst h
      exact Or.inl (shows_giveUp hk)

theorem workerError_shows (h : workerError s = some s') (hk : Shows s' k relid) :
    Shows s k relid := by
  unfold workerError at h
  split at h <;> cases h <;> exact hk

/-- Every slot shown after a step was shown before, or is exposed or claimed by the step. -/
theorem step_shows (h : step s a = some s') (hk : Shows s' k relid) :
    Shows s k relid ∨ exposes s a = some (k, relid) ∨
      ∃ p, a = .backend p ∧ Claims s s' p k relid := by
  cases a with
  | lookup | createRedo | build | load | leave | startWorker | stopWorker =>
      left
      simp only [step] at h
      split at h <;> cases h <;> exact hk
  | backend p =>
      rcases backendStep_shows h hk with h | h | h
      · exact Or.inl h
      · exact Or.inr (Or.inl h)
      · exact Or.inr (Or.inr ⟨p, rfl, h⟩)
  | backendError p => exact (backendError_shows h hk).imp_right Or.inl
  | worker => exact (workerStep_shows h hk).imp_right Or.inl
  | workerError => exact Or.inl (workerError_shows h hk)

/-- A step of a backend moves no other backend. -/
theorem backendStep_pc (h : backendStep p s = some s') {q : ℕ} (hq : q ≠ p) :
    s'.pc q = s.pc q := by
  unfold backendStep at h
  repeat' split at h
  all_goals cases h <;> simp [hq]

theorem backendError_pc (h : backendError p s = some s') {q : ℕ} (hq : q ≠ p) :
    s'.pc q = s.pc q := by
  unfold backendError at h
  split at h <;> cases h <;> simp [hq]

/-- The lock stays, or is taken when nobody holds it, or is given back. -/
theorem backendStep_lock (h : backendStep p s = some s') :
    (s'.lock = s.lock ∧ ((s'.pc p).underLock = true → (s.pc p).underLock = true)) ∨
      (s.lock = none ∧ s'.lock = some p) ∨
      ((s.pc p).underLock = true ∧ (s'.pc p).underLock = false) := by
  unfold backendStep at h
  repeat' split at h
  all_goals cases h <;> simp [BackendPc.underLock, *]

/-- What a backend has passed after its own step it had passed before, or it has just seen. -/
theorem backendStep_passed (h : backendStep p s = some s') (hj : (s'.pc p).passed j relid) :
    (s.pc p).passed j relid ∨ (s.pc p).claims relid ∧ ¬ Shows s j relid := by
  cases hpc : s.pc p with
  | find c i =>
      simp only [backendStep, hpc] at h
      split_ifs at h with hi hv <;> cases h <;>
        simp only [State.goto_pc, Function.update_self, BackendPc.passed, BackendPc.claims] at hj ⊢
      · rcases Nat.lt_succ_iff_lt_or_eq.mp hj.2.2 with hlt | rfl
        · exact Or.inl ⟨hj.1, hj.2.1, hlt⟩
        · exact Or.inr ⟨⟨hj.1, hj.2.1⟩, fun hs => hs.2.1 hv⟩
      · exact Or.inl hj
      · by_cases hji : j < i
        · exact Or.inl ⟨hj.1, hj.2, hji⟩
        · exact Or.inr ⟨hj, fun hs => hi (lt_of_le_of_lt (not_lt.mp hji) hs.1)⟩
  | findRel c i v =>
      by_cases hr : (s.slots i).indexRelId = c.relid
      · cases c <;> simp only [backendStep, hpc, ne_eq, hr, not_true_eq_false, if_false] at h <;>
          cases h <;> simp only [State.goto_pc, Function.update_self] at hj
        · split at hj <;> exact hj.elim
        · exact hj.elim
        · exact hj.elim
      · simp only [backendStep, hpc, ne_eq, hr, not_false_eq_true, if_true] at h
        cases h
        simp only [State.goto_pc, Function.update_self, BackendPc.passed, BackendPc.claims] at hj ⊢
        rcases Nat.lt_succ_iff_lt_or_eq.mp hj.2.2 with hlt | rfl
        · exact Or.inl ⟨hj.1, hj.2.1, hlt⟩
        · exact Or.inr ⟨⟨hj.1, hj.2.1⟩, fun hs => hr (hs.2.2.trans hj.2.1.symm)⟩
  | claim c i =>
      left
      by_cases hi : i < indexBufSize
      · by_cases hv : (s.slots i).valid = .free
        · cases c <;> simp only [backendStep, hpc, if_pos hi, if_pos hv] at h <;> cases h <;>
            simp only [State.goto_pc, Function.update_self, BackendPc.passed] at hj ⊢
          · exact ⟨hj.1, hj.2.1⟩
          · exact ⟨hj.1, hj.2.1⟩
        · simp only [backendStep, hpc, if_pos hi, if_neg hv] at h
          cases h
          simp only [State.goto_pc, Function.update_self] at hj
          exact hj
      · cases c <;> simp only [backendStep, hpc, if_neg hi] at h <;> cases h <;>
          simp only [State.goto_pc, Function.update_self] at hj <;> exact hj.elim
  | request c k =>
      left
      cases c <;> simp only [backendStep, hpc] at h <;> cases h <;>
        simp only [State.goto_pc, Function.update_self] at hj <;> exact hj
  | lock c =>
      cases c <;> simp only [backendStep, hpc] at h <;> split at h <;> cases h <;>
        simp [BackendPc.passed, Claim.looks] at hj
  | _ =>
      simp only [backendStep, hpc] at h
      repeat' split at h
      all_goals cases h <;> simp only [State.goto_pc, Function.update_self] at hj <;> exact hj.elim

/-- The other steps leave the lock, and put no backend under it. -/
theorem step_quiet (h : step s a = some s') (ha : ∀ p, a ≠ .backend p) :
    s'.lock = s.lock ∧ ∀ p, s'.pc p = s.pc p ∨ (s'.pc p).underLock = false := by
  have hgoto : ∀ {t : State} {p : ℕ} {pc : BackendPc}, t.pc = s.pc → pc.underLock = false →
      ∀ q, (t.goto p pc).pc q = s.pc q ∨ ((t.goto p pc).pc q).underLock = false := by
    intro t p pc ht hpc q
    rw [State.goto_pc, Function.update_apply, ht]
    split
    · exact Or.inr hpc
    · exact Or.inl rfl
  cases a with
  | backend p => exact absurd rfl (ha p)
  | lookup | createRedo | build | load | leave =>
      simp only [step] at h
      split at h <;> cases h <;> exact ⟨rfl, hgoto rfl rfl⟩
  | backendError p =>
      simp only [step, backendError] at h
      split at h <;> cases h
      all_goals first
        | exact ⟨rfl, hgoto rfl rfl⟩
        | exact ⟨by simp, hgoto (by rw [State.store_pc]; rfl) rfl⟩
  | startWorker | stopWorker =>
      simp only [step] at h
      split at h <;> cases h <;> exact ⟨rfl, fun _ => Or.inl rfl⟩
  | worker =>
      simp only [step, workerStep] at h
      repeat' split at h
      all_goals cases h <;> exact ⟨rfl, fun _ => Or.inl rfl⟩
  | workerError =>
      simp only [step, workerError] at h
      split at h <;> cases h <;> exact ⟨rfl, fun _ => Or.inl rfl⟩

theorem Locked.step (h : Locked s) (hs : step s a = some s') : Locked s' := by
  intro p hp
  by_cases ha : ∃ q, a = .backend q
  · obtain ⟨q, rfl⟩ := ha
    rcases eq_or_ne p q with rfl | hpq
    · rcases backendStep_lock hs with ⟨hl, hu⟩ | ⟨-, hl⟩ | ⟨-, hu⟩
      · exact hl.trans (h p (hu hp))
      · exact hl
      · rw [hu] at hp
        exact absurd hp Bool.false_ne_true
    · rw [backendStep_pc hs hpq] at hp
      have hl' := h p hp
      rcases backendStep_lock hs with ⟨hl, -⟩ | ⟨hl, -⟩ | ⟨hu, -⟩
      · exact hl.trans hl'
      · rw [hl] at hl'
        exact absurd hl' (by simp)
      · exact absurd (Option.some.inj (hl'.symm.trans (h q hu))) hpq
  · obtain ⟨hl, hpc⟩ := step_quiet hs (fun q hq => ha ⟨q, hq⟩)
    rcases hpc p with hpc | hpc
    · rw [hpc] at hp
      exact hl.trans (h p hp)
    · rw [hpc] at hp
      exact absurd hp Bool.false_ne_true

/-- What a backend has passed after a step it had passed before, or it has just seen. -/
theorem step_passed (hs : step s a = some s') (hp : (s'.pc p).passed j relid) :
    (s.pc p).passed j relid ∨ (s.pc p).claims relid ∧ ¬ Shows s j relid := by
  by_cases ha : ∃ q, a = .backend q
  · obtain ⟨q, rfl⟩ := ha
    rcases eq_or_ne p q with rfl | hpq
    · exact backendStep_passed hs hp
    · rw [backendStep_pc hs hpq] at hp
      exact Or.inl hp
  · rcases (step_quiet hs fun q hq => ha ⟨q, hq⟩).2 p with hpc | hpc
    · exact Or.inl (hpc ▸ hp)
    · rw [hp.claims.underLock] at hpc
      exact absurd hpc.symm Bool.false_ne_true

theorem Inv.claims_unique (h : Inv s) {q : ℕ} {r : Oid} (hp : (s.pc p).claims relid)
    (hq : (s.pc q).claims r) : p = q :=
  Option.some.inj ((h.locked p hp.underLock).symm.trans (h.locked q hq.underLock))

theorem exposes_takes (he : exposes s (.backend p) = some (j, relid))
    (ht : (s.pc p).takes = some k) : j = k := by
  cases hpc : s.pc p with
  | claim c i =>
      rw [hpc] at ht
      simp only [exposes, hpc] at he
      split at he <;> cases he
      exact Option.some.inj ht
  | _ => simp [exposes, hpc, BackendPc.takes] at he ht

/-- A slot that comes to show a relid is the only one, and nobody has passed it on the way to
a claim. -/
theorem Inv.fresh (h : Inv s) (hok : Looked s a) (hs : step s a = some s')
    (hk : Shows s' k relid) (hn : ¬ Shows s k relid) :
    (∀ j, Shows s' j relid → j = k) ∧ ∀ q, ¬ (s'.pc q).passed k relid := by
  rcases step_shows hs hk with hk' | he | ⟨p, rfl, hc⟩
  · exact absurd hk' hn
  · obtain ⟨hu, hl⟩ := (hok _ he).resolve_left hn
    have hidle : ∀ q, ¬ (s.pc q).claims relid := fun q hq => hl q (h.locked q hq.underLock) hq
    constructor
    · intro j hj
      rcases step_shows hs hj with hj | hj | ⟨q, -, hc⟩
      · exact hu j hj.1 hj
      · exact (Prod.mk.inj (Option.some.inj (hj.symm.trans he))).1
      · exact absurd hc.claims (hidle q)
    · intro q hq
      rcases step_passed hs hq with hq | hq
      · exact hidle q hq.claims
      · exact hidle q hq.1
  · constructor
    · intro j hj
      by_contra hjk
      rcases step_shows hs hj with hj | hj | ⟨q, hq, hc'⟩
      · exact h.passed p j relid (hc.others j hjk) hj
      · exact hjk (exposes_takes hj hc.takes)
      · cases hq
        exact hjk (Option.some.inj (hc'.takes.symm.trans hc.takes))
    · intro q hq
      have hqp : q = p := by
        rcases step_passed hs hq with hq | hq
        · exact h.claims_unique hq.claims hc.claims
        · exact h.claims_unique hq.1 hc.claims
      exact hc.own (hqp ▸ hq)

theorem Inv.step (h : Inv s) (hok : Looked s a) (hs : step s a = some s') : Inv s' where
  locked := h.locked.step hs
  passed := by
    intro q j relid hq hj
    have hn : ¬ Shows s j relid := by
      rcases step_passed hs hq with hq | hq
      · exact h.passed q j relid hq
      · exact hq.2
    exact (h.fresh hok hs hj hn).2 q hq
  unique := by
    intro relid j k hj hk
    by_cases hj' : Shows s j relid
    · by_cases hk' : Shows s k relid
      · exact h.unique relid j k hj' hk'
      · exact (h.fresh hok hs hk hk').1 j hj
    · exact ((h.fresh hok hs hj hj').1 k hk).symm

theorem Init.locked (h : Init s) : Locked s := by
  intro p hp
  rw [h.pc p] at hp
  exact absurd hp Bool.false_ne_true

theorem Init.inv (h : Init s) : Inv s where
  locked := h.locked
  passed := by
    intro p j relid hp
    rw [h.pc p] at hp
    exact hp.elim
  unique := fun relid j k hj => absurd (h.slots j) hj.2.1

/-- In a run that shows no relid without looking for it, except where it is shown already or
nowhere else, no relid is in two slots. -/
theorem one_slot_per_index (h : Reachable Init step Looked s) : OneSlotPerIndex s :=
  have inv : Inv s := h.invariant (fun _ h => h.inv) fun _ _ _ _ h hok hs => h.step hok hs
  inv.unique

/-- Relation 7 is recovered, relation 9 is built. -/
theorem one_slot_per_index_built : ∃ s,
    view s = [(.writable, 7), (.queryable, 9)] ++ List.replicate 6 (.free, 0) ∧
      OneSlotPerIndex s := by
  have hm : Meets Looked step demoInit (recoverRun ++ buildRun 9 1) := by decide +kernel
  have hs : (exec step demoInit (recoverRun ++ buildRun 9 1)).map view =
      some ([(.writable, 7), (.queryable, 9)] ++ List.replicate 6 (.free, 0)) := by
    decide +kernel
  obtain ⟨s, he, hv⟩ := Option.map_eq_some_iff.mp hs
  exact ⟨s, hv, one_slot_per_index ((Reachable.start init_demoInit).of_exec hm he)⟩

/-- Relation 7 is recovered into slot 0 and then built again, into slot 1. -/
theorem not_one_slot_per_index :
    ¬ ∀ s, Reachable Init step anyStep s → OneSlotPerIndex s := by
  intro h
  have hs : (exec step demoInit (recoverRun ++ buildRun 7 1)).map
      (fun s => decide (Shows s 0 7 ∧ Shows s 1 7)) = some true := by
    decide +kernel
  obtain ⟨s, he, hv⟩ := Option.map_eq_some_iff.mp hs
  obtain ⟨h₀, h₁⟩ := of_decide_eq_true hv
  have hr := (Reachable.start init_demoInit).of_exec (meets_anyStep _) he
  exact absurd (h s hr 7 0 1 h₀ h₁) (by decide)

end IndexBuffer

end VectorLsm
