import VectorLsm.IndexBuffer.Machine

/-! # The owner of a recovering slot

A slot is put in `RECOVERING` by a build, which works on it alone, or by a backend that hands
it to the recovery worker. The worker takes up whatever it finds in that state.
-/

namespace VectorLsm

namespace IndexBuffer

open Transition

/-- The slot that the worker has taken up. -/
def WorkerPc.serving : WorkerPc → Option ℕ
  | .serve i | .recover i | .opening i _ | .rebuild i _ | .publish i _ | .commit i
  | .caught i => some i
  | _ => none

/-- The move is by the owner of the slot: a builder moves its own; the worker moves a slot put
there for recovery, which it recovers in one pass for the relid that was written; the backend
that asked for the recovery moves it while no pass has begun. -/
def Move.Proper (m : Move) : Prop :=
  match m.tenure with
  | some ⟨.build _ _, p, _, _⟩ => m.actor = .backend p
  | some ⟨.register _, p, relid, n⟩ =>
      (m.actor = .worker ∧ n ≤ 1 ∧ ∀ r ∈ m.recovered, relid = some r ∧ n = 1) ∨
        (m.actor = .backend p ∧ n = 0)
  | _ => False

def OneOwner (s : State) : Prop := ∀ m ∈ s.moves, m.Proper

/-- The slot waits for the recovery that a backend has asked for. -/
def Requested (s : State) (k : ℕ) : Prop :=
  match (s.slots k).tenure with
  | some ⟨.register _, _, some _, _⟩ => True
  | _ => False

/-- Nobody acts on a slot in `RECOVERING` that is not its own: the worker finds a slot only
when its recovery was asked for and the relid is written, a backend frees its slot before the
worker takes it up, and a load ends on a slot that no one has claimed again. -/
def Heeds (s : State) : Action → Prop
  | .worker =>
      match s.worker with
      | .scan i _ => i < indexBufSize → (s.slots i).valid = .recovering → Requested s i
      | _ => True
  | .backend p =>
      match s.pc p with
      | .reset k =>
          (s.slots k).valid = .recovering ∧ s.worker.serving ≠ some k ∧ Requested s k ∧
            (s.slots k).tenure.map Tenure.proc = some p
      | .loading k => (s.slots k).valid ≠ .recovering
      | _ => True
  | .backendError p =>
      match s.pc p with
      | .loading k => (s.slots k).valid ≠ .recovering
      | _ => True
  | _ => True

instance (s : State) (k : ℕ) : Decidable (Requested s k) := by
  unfold Requested
  split <;> infer_instance

instance (s : State) (a : Action) : Decidable (Heeds s a) := by
  unfold Heeds
  repeat' split
  all_goals infer_instance

/-- The slot that is a backend's own until its next step, with the tenure it has there. -/
def BackendPc.holds : BackendPc → Option (ℕ × Claim × Option Oid)
  | .request c k | .relId c k => some (k, c, none)
  | .unlock (.build relid md) k | .buildRelId relid md k => some (k, .build relid md, none)
  | .building relid md k | .publish relid md k => some (k, .build relid md, some relid)
  | _ => none

/-- The slot is in the hands of backend `p`. -/
structure LSMIndexBufferSlot.Held (slot : LSMIndexBufferSlot) (p : ℕ) (c : Claim)
    (relid : Option Oid) : Prop where
  tenure : slot.tenure = some ⟨c, p, relid, 0⟩
  inUse : slot.valid ≠ .free
  recovering : c.target = .recovering → slot.valid = .recovering

/-- The slot is in the hands of the worker, which has begun `n` passes over it. -/
structure LSMIndexBufferSlot.Served (slot : LSMIndexBufferSlot) (relid : Oid) (n : ℕ) :
    Prop where
  tenure : ∃ r p, slot.tenure = some ⟨.register r, p, some relid, n⟩
  inUse : slot.valid ≠ .free

/-- What the worker knows of the slot it has taken up. -/
def Serving (s : State) : Prop :=
  match s.worker with
  | .serve i | .recover i => (s.slots i).valid = .recovering ∧ ∃ relid, (s.slots i).Served relid 0
  | .opening i relid | .rebuild i relid | .publish i relid =>
      (s.slots i).valid = .recovering ∧ (s.slots i).Served relid 1
  | .commit i => (s.slots i).valid ≠ .recovering ∧ ∃ relid, (s.slots i).Served relid 1
  | .caught i => ∃ relid, (s.slots i).Served relid 1
  | _ => True

structure OwnerInv (s : State) : Prop where
  held : ∀ p k c relid, (s.pc p).holds = some (k, c, relid) → (s.slots k).Held p c relid
  serving : Serving s
  /-- A slot that waits for its recovery carries the relid, and no pass has begun. -/
  waits : ∀ k r p relid n, (s.slots k).valid = .recovering →
    (s.slots k).tenure = some ⟨.register r, p, some relid, n⟩ →
      (s.slots k).indexRelId = relid ∧ (s.worker.serving ≠ some k → n = 0)
  moves : OneOwner s

variable {s s' : State} {p k i : ℕ} {relid : Oid} {slot : LSMIndexBufferSlot} {a : Action}
  {c : Claim} {r : Option Oid}

/-- A backend's own slot was not handed to the worker. -/
theorem BackendPc.holds_cases {pc : BackendPc} (h : pc.holds = some (k, c, r)) :
    r = none ∨ ∃ relid md, c = .build relid md := by
  cases pc with
  | request | relId =>
      cases h
      exact Or.inl rfl
  | unlock c k =>
      cases c with
      | build relid md =>
          cases h
          exact Or.inl rfl
      | _ => cases h
  | buildRelId =>
      cases h
      exact Or.inl rfl
  | building relid md | publish relid md =>
      cases h
      exact Or.inr ⟨relid, md, rfl⟩
  | _ => cases h

theorem Requested.exists_tenure (h : Requested s k) :
    ∃ r p relid n, (s.slots k).tenure = some ⟨.register r, p, some relid, n⟩ := by
  unfold Requested at h
  split at h
  · next r p relid n ht => exact ⟨r, p, relid, n, ht⟩
  · exact h.elim

theorem Serving.served (h : Serving s) (hw : s.worker.serving = some i) :
    ∃ relid n, (s.slots i).Served relid n := by
  unfold Serving at h
  cases hpc : s.worker with
  | serve | recover =>
      rw [hpc] at hw h
      cases hw
      obtain ⟨-, relid, h⟩ := h
      exact ⟨relid, 0, h⟩
  | opening | rebuild | publish =>
      rw [hpc] at hw h
      cases hw
      exact ⟨_, 1, h.2⟩
  | commit =>
      rw [hpc] at hw h
      cases hw
      obtain ⟨-, relid, h⟩ := h
      exact ⟨relid, 1, h⟩
  | caught =>
      rw [hpc] at hw h
      cases hw
      obtain ⟨relid, h⟩ := h
      exact ⟨relid, 1, h⟩
  | _ =>
      rw [hpc] at hw
      cases hw

/-- The worker and the backends hold different slots. -/
theorem OwnerInv.not_serving (h : OwnerInv s) (hp : (s.pc p).holds = some (k, c, r)) :
    s.worker.serving ≠ some k := by
  intro hw
  obtain ⟨relid, n, ⟨q, p', ht⟩, -⟩ := h.serving.served hw
  have he := Tenure.mk.inj (Option.some.inj ((h.held p k c r hp).tenure.symm.trans ht))
  rcases BackendPc.holds_cases hp with rfl | ⟨relid', md, rfl⟩
  · exact absurd he.2.2.1 (by simp)
  · exact absurd he.1 (by simp)

theorem OwnerInv.not_held (h : OwnerInv s) (hp : (s.pc p).holds = some (k, c, r)) {q : ℕ}
    (hq : q ≠ p) (c' : Claim) (r' : Option Oid) : (s.pc q).holds ≠ some (k, c', r') := by
  intro hq'
  have he := Tenure.mk.inj
    (Option.some.inj ((h.held p k c r hp).tenure.symm.trans (h.held q k c' r' hq').tenure))
  exact hq he.2.1.symm

/-- A free slot is in nobody's hands. -/
theorem OwnerInv.not_held_of_free (h : OwnerInv s) (hk : (s.slots k).valid = .free) (q : ℕ)
    (c : Claim) (r : Option Oid) : (s.pc q).holds ≠ some (k, c, r) :=
  fun hq => (h.held q k c r hq).inUse hk

theorem OwnerInv.not_serving_of_free (h : OwnerInv s) (hk : (s.slots k).valid = .free) :
    s.worker.serving ≠ some k := by
  intro hw
  obtain ⟨relid, n, hs⟩ := h.serving.served hw
  exact hs.inUse hk

theorem Serving.congr (h : Serving s) (hw : s'.worker = s.worker)
    (hs : ∀ i, s.worker.serving = some i → s'.slots i = s.slots i) : Serving s' := by
  unfold Serving at h ⊢
  rw [hw]
  cases hpc : s.worker with
  | serve i | recover i | opening i | rebuild i | publish i | commit i | caught i =>
      rw [hpc] at h hs
      dsimp only
      rw [hs i rfl]
      exact h
  | _ => trivial

/-- A backend moves on with the slot it holds, or gives it out of its hands. -/
theorem OwnerInv.goto (h : OwnerInv s) (pc : BackendPc)
    (hp : ∀ k c r, pc.holds = some (k, c, r) → (s.slots k).Held p c r) :
    OwnerInv (s.goto p pc) where
  held := by
    intro q k c r hq
    rw [State.goto_pc, Function.update_apply] at hq
    split at hq
    · next hqp => exact hqp ▸ hp k c r hq
    · exact h.held q k c r hq
  serving := h.serving
  waits := h.waits
  moves := h.moves

/-- Backend `p` writes to slot `k`, which is in no other hands. -/
theorem OwnerInv.update (h : OwnerInv s) (pc : BackendPc)
    (hq : ∀ q, q ≠ p → ∀ c r, (s.pc q).holds ≠ some (k, c, r))
    (hw : s.worker.serving ≠ some k)
    (hp : ∀ k' c r, pc.holds = some (k', c, r) → k' = k ∧ slot.tenure = some ⟨c, p, r, 0⟩ ∧
      slot.valid ≠ .free ∧ (c.target = .recovering → slot.valid = .recovering))
    (hr : ∀ r p relid n, slot.valid = .recovering →
      slot.tenure = some ⟨.register r, p, some relid, n⟩ → slot.indexRelId = relid ∧ n = 0) :
    OwnerInv ((s.setSlot k slot).goto p pc) where
  held := by
    intro q k' c r hqh
    rw [State.goto_pc, Function.update_apply] at hqh
    split at hqh
    · next hqp =>
      subst hqp
      obtain ⟨rfl, ht, hv, hrec⟩ := hp k' c r hqh
      exact ⟨by simpa using ht, by simpa using hv, by simpa using hrec⟩
    · next hqp =>
      have hk : k' ≠ k := by
        rintro rfl
        exact hq q hqp c r hqh
      obtain ⟨ht, hv, hrec⟩ := h.held q k' c r hqh
      exact ⟨by simpa [hk] using ht, by simpa [hk] using hv, by simpa [hk] using hrec⟩
  serving := h.serving.congr rfl fun i hi => by
    have hik : i ≠ k := by
      rintro rfl
      exact hw hi
    simp [hik]
  waits := by
    intro k' r q relid n hv ht
    simp only [State.goto_slots, State.setSlot_slots, Function.update_apply] at hv ht ⊢
    split at hv
    · next hk =>
      rw [if_pos hk] at ht ⊢
      obtain ⟨hrel, hn⟩ := hr r q relid n hv ht
      exact ⟨hrel, fun _ => hn⟩
    · next hk =>
      rw [if_neg hk] at ht ⊢
      exact h.waits k' r q relid n hv ht
  moves := h.moves

/-- A load changes the state of a slot that is not recovering. -/
theorem OwnerInv.revalue (h : OwnerInv s) (ht : slot.tenure = (s.slots k).tenure)
    (hv : (s.slots k).valid ≠ .recovering) (hv' : slot.valid ≠ .recovering)
    (hf : slot.valid ≠ .free) : OwnerInv (s.setSlot k slot) where
  held := by
    intro q k' c r hq
    obtain ⟨ht', hin, hrec⟩ := h.held q k' c r hq
    rcases eq_or_ne k' k with rfl | hk
    · rw [State.setSlot_slots, Function.update_self]
      exact ⟨ht.trans ht', hf, fun hc => absurd (hrec hc) hv⟩
    · rw [State.setSlot_slots, Function.update_of_ne hk]
      exact ⟨ht', hin, hrec⟩
  serving := by
    have hs := h.serving
    by_cases hk : s.worker.serving = some k
    · unfold Serving at hs ⊢
      rw [State.setSlot_worker]
      cases hpc : s.worker with
      | serve i | recover i | opening i | rebuild i | publish i =>
          rw [hpc] at hk hs
          cases hk
          exact absurd hs.1 hv
      | commit i =>
          rw [hpc] at hk hs
          cases hk
          obtain ⟨-, relid, ⟨q, p', hq⟩, -⟩ := hs
          dsimp only
          rw [State.setSlot_slots, Function.update_self]
          exact ⟨hv', relid, ⟨q, p', ht.trans hq⟩, hf⟩
      | caught i =>
          rw [hpc] at hk hs
          cases hk
          obtain ⟨relid, ⟨q, p', hq⟩, -⟩ := hs
          dsimp only
          rw [State.setSlot_slots, Function.update_self]
          exact ⟨relid, ⟨q, p', ht.trans hq⟩, hf⟩
      | _ => trivial
    · refine hs.congr rfl fun i hi => ?_
      rw [State.setSlot_slots, Function.update_of_ne]
      rintro rfl
      exact hk hi
  waits := by
    intro k' r q relid n hv₁ ht₁
    rw [State.setSlot_slots, Function.update_apply] at hv₁ ht₁ ⊢
    split at hv₁
    · exact absurd hv₁ hv'
    · next hk =>
      rw [if_neg hk] at ht₁ ⊢
      exact h.waits k' r q relid n hv₁ ht₁
  moves := h.moves

theorem OwnerInv.record (h : OwnerInv s) {m : Move} (hm : m.Proper) :
    OwnerInv { s with moves := s.moves ++ [m] } where
  held := h.held
  serving := h.serving
  waits := h.waits
  moves := by
    intro x hx
    rcases List.mem_append.mp hx with hx | hx
    · exact h.moves x hx
    · exact List.mem_singleton.mp hx ▸ hm

theorem OwnerInv.store {v : LSMSlotState} {pc : BackendPc}
    (h : OwnerInv ((s.setSlot k { s.slots k with valid := v }).goto p pc))
    (hm : (s.slots k).valid = .recovering → Move.Proper ⟨k, (s.slots k).tenure, .backend p, none⟩) :
    OwnerInv ((s.store k p v).goto p pc) := by
  unfold State.store
  split
  · next hv => exact h.record (hm hv)
  · exact h

theorem OwnerInv.setLock (h : OwnerInv s) (l : Option ℕ) : OwnerInv (s.setLock l) :=
  ⟨h.held, h.serving, h.waits, h.moves⟩

theorem OwnerInv.setExclusive (h : OwnerInv s) (relid : Oid) (b : Bool) :
    OwnerInv (s.setExclusive relid b) :=
  ⟨h.held, h.serving, h.waits, h.moves⟩

theorem OwnerInv.setMetadata (h : OwnerInv s) (relid : Oid) (md : LSMIndexMetadata) :
    OwnerInv (s.setMetadata relid md) :=
  ⟨h.held, h.serving, h.waits, h.moves⟩

/-- The worker writes to the slot it has taken up. -/
theorem OwnerInv.work (h : OwnerInv s) (hi : s.worker.serving = some i) (w : WorkerPc)
    (hs : Serving ((s.setSlot i slot).setWorker w))
    (hr : ∀ r p relid n, slot.valid = .recovering →
      slot.tenure = some ⟨.register r, p, some relid, n⟩ →
        slot.indexRelId = relid ∧ (w.serving ≠ some i → n = 0)) :
    OwnerInv ((s.setSlot i slot).setWorker w) where
  held := by
    intro q k c r hq
    have hk : k ≠ i := by
      rintro rfl
      exact h.not_serving hq hi
    rw [State.setWorker_slots, State.setSlot_slots, Function.update_of_ne hk]
    exact h.held q k c r hq
  serving := hs
  waits := by
    intro k r q relid n hv ht
    rw [State.setWorker_slots, State.setSlot_slots, Function.update_apply] at hv ht ⊢
    split at hv
    · next hk =>
      rw [if_pos hk] at ht ⊢
      exact hk ▸ hr r q relid n hv ht
    · next hk =>
      rw [if_neg hk] at ht ⊢
      obtain ⟨hrel, hn⟩ := h.waits k r q relid n hv ht
      refine ⟨hrel, fun _ => hn ?_⟩
      rw [hi]
      exact fun he => hk (Option.some.inj he).symm
  moves := h.moves

/-- The worker moves on without a write. -/
theorem OwnerInv.setWorker (h : OwnerInv s) (w : WorkerPc) (hs : Serving (s.setWorker w))
    (hw : ∀ r p relid n k, s.worker.serving = some k → w.serving ≠ some k →
      (s.slots k).valid = .recovering →
        (s.slots k).tenure = some ⟨.register r, p, some relid, n⟩ → n = 0) :
    OwnerInv (s.setWorker w) where
  held := h.held
  serving := hs
  waits := by
    intro k r q relid n hv ht
    obtain ⟨hrel, hn⟩ := h.waits k r q relid n hv ht
    refine ⟨hrel, fun hk => ?_⟩
    by_cases hk' : s.worker.serving = some k
    · exact hw r q relid n k hk' hk hv ht
    · exact hn hk'
  moves := h.moves

section Backend

theorem OwnerInv.goto_own (h : OwnerInv s) {pc : BackendPc} (hpc : pc.holds = (s.pc p).holds) :
    OwnerInv (s.goto p pc) :=
  h.goto pc fun k c r hq => h.held p k c r (hpc ▸ hq)

theorem OwnerInv.goto_none (h : OwnerInv s) {pc : BackendPc} (hpc : pc.holds = none) :
    OwnerInv (s.goto p pc) :=
  h.goto pc fun k c r hq => by simp [hpc] at hq

/-- The compare-and-swap on a free slot. -/
theorem OwnerInv.claim (h : OwnerInv s) (hv : (s.slots i).valid = .free) {pc : BackendPc}
    (hpc : ∀ k c' r, pc.holds = some (k, c', r) → k = i ∧ c' = c ∧ r = none) :
    OwnerInv ((s.setSlot i { s.slots i with
      valid := c.target, tenure := some ⟨c, p, none, 0⟩ }).goto p pc) := by
  have htarget : c.target ≠ .free := by cases c <;> simp [Claim.target]
  refine h.update pc (fun q _ => h.not_held_of_free hv q) (h.not_serving_of_free hv) ?_ ?_
  · intro k c' r hq
    obtain ⟨rfl, rfl, rfl⟩ := hpc k c' r hq
    exact ⟨rfl, rfl, htarget, id⟩
  · intro r q relid n _ ht
    simp at ht

/-- A write to the slot that the backend holds. -/
theorem OwnerInv.own (h : OwnerInv s) (hp : (s.pc p).holds = some (k, c, r)) {pc : BackendPc}
    (hpc : ∀ k' c' r', pc.holds = some (k', c', r') → k' = k ∧ slot.Held p c' r')
    (hr : ∀ r p relid n, slot.valid = .recovering →
      slot.tenure = some ⟨.register r, p, some relid, n⟩ → slot.indexRelId = relid ∧ n = 0) :
    OwnerInv ((s.setSlot k slot).goto p pc) := by
  refine h.update pc (fun q hq c' r' => h.not_held hp hq c' r') (h.not_serving hp) ?_ hr
  intro k' c' r' hq
  obtain ⟨rfl, hh⟩ := hpc k' c' r' hq
  exact ⟨rfl, hh.tenure, hh.inUse, hh.recovering⟩

theorem OwnerInv.request (h : OwnerInv s) (hpc : s.pc p = .request c k)
    (ht : slot.tenure = (s.slots k).tenure) (hv : slot.valid = (s.slots k).valid) :
    OwnerInv ((s.setSlot k slot).goto p (.relId c k)) := by
  have hp : (s.pc p).holds = some (k, c, none) := by rw [hpc]; rfl
  have hh := h.held p k c none hp
  refine h.own hp ?_ ?_
  · rintro k' c' r' ⟨⟩
    exact ⟨rfl, ht.trans hh.tenure, hv ▸ hh.inUse, fun hc => hv.trans (hh.recovering hc)⟩
  · intro r q relid n _ ht'
    rw [ht, hh.tenure] at ht'
    simp at ht'

theorem OwnerInv.backendStep (h : OwnerInv s) (hok : Heeds s (.backend p))
    (hs : backendStep p s = some s') : OwnerInv s' := by
  cases hpc : s.pc p with
  | lookup | lookupRel | find | findRel | await | loadWait =>
      simp only [IndexBuffer.backendStep, hpc] at hs
      repeat' split at hs
      all_goals cases hs
      all_goals first
        | exact h.goto_none rfl
        | exact (h.setLock none).goto_none rfl
  | lock c =>
      cases c <;> simp only [IndexBuffer.backendStep, hpc] at hs <;> split at hs <;> cases hs <;>
        exact (h.setLock _).goto_none rfl
  | claim c i =>
      by_cases hi : i < indexBufSize
      · by_cases hv : (s.slots i).valid = .free
        · cases c <;> simp only [IndexBuffer.backendStep, hpc, if_pos hi, if_pos hv] at hs <;>
            cases hs <;> refine h.claim hv ?_ <;> rintro k c' r ⟨⟩ <;> exact ⟨rfl, rfl, rfl⟩
        · simp only [IndexBuffer.backendStep, hpc, if_pos hi, if_neg hv] at hs
          cases hs
          exact h.goto_none rfl
      · cases c <;> simp only [IndexBuffer.backendStep, hpc, if_neg hi] at hs <;> cases hs
        · exact (h.setLock _).goto_none rfl
        · exact (h.setLock _).goto_none rfl
        · exact ((h.setLock _).setExclusive _ _).goto_none rfl
  | request c k =>
      cases c <;> simp only [IndexBuffer.backendStep, hpc] at hs <;> cases hs <;>
        exact h.request hpc rfl rfl
  | relId c k =>
      have hp : (s.pc p).holds = some (k, c, none) := by rw [hpc]; rfl
      have ht := (h.held p k c none hp).tenure
      cases c <;> simp only [IndexBuffer.backendStep, hpc] at hs <;> cases hs
      · refine h.own hp (by rintro _ _ _ ⟨⟩) ?_
        intro r q relid n _ ht'
        simp only [ht, Option.map_some, Option.some.injEq, Tenure.mk.injEq] at ht'
        exact ⟨ht'.2.2.1, ht'.2.2.2.symm⟩
      · refine h.own hp (by rintro _ _ _ ⟨⟩) ?_
        intro r q relid n _ ht'
        simp [ht] at ht'
  | unlock c k =>
      cases c <;> simp only [IndexBuffer.backendStep, hpc] at hs <;> cases hs
      · exact (h.setLock none).goto_none rfl
      · exact (h.setLock none).goto_none rfl
      · exact (h.setLock none).goto_own (by rw [State.setLock_pc, hpc]; rfl)
  | signal k =>
      simp only [IndexBuffer.backendStep, hpc] at hs
      split at hs <;> cases hs <;> exact h.goto_none rfl
  | reset k =>
      simp only [IndexBuffer.backendStep, hpc, Option.some.injEq] at hs
      simp only [Heeds, hpc] at hok
      obtain ⟨hv, hw, hreq, hproc⟩ := hok
      subst hs
      obtain ⟨r, p', relid, n, ht⟩ := hreq.exists_tenure
      rw [ht, Option.map_some, Option.some.injEq] at hproc
      change p' = p at hproc
      subst hproc
      have hn : n = 0 := (h.waits k _ _ relid n hv ht).2 hw
      refine OwnerInv.store (h.update .failed ?_ hw (by rintro _ _ _ ⟨⟩) ?_) fun _ => ?_
      · intro q hq c' r' hq'
        have he := Option.some.inj ((h.held q k c' r' hq').tenure.symm.trans ht)
        exact hq (Tenure.mk.inj he).2.1
      · rintro r q relid n ⟨⟩
      · rw [ht]
        exact Or.inr ⟨rfl, hn⟩
  | buildRelId relid md k =>
      have hp : (s.pc p).holds = some (k, .build relid md, none) := by rw [hpc]; rfl
      obtain ⟨ht, hin, hrec⟩ := h.held p k _ _ hp
      simp only [IndexBuffer.backendStep, hpc, Option.some.injEq] at hs
      subst hs
      refine h.own hp ?_ ?_
      · rintro _ _ _ ⟨⟩
        exact ⟨rfl, by simp [ht], hin, hrec⟩
      · intro r q relid n _ ht'
        simp [ht] at ht'
  | building relid md k =>
      simp only [IndexBuffer.backendStep, hpc, Option.some.injEq] at hs
      subst hs
      exact (h.setMetadata relid md).goto_own (by rw [State.setMetadata_pc, hpc]; rfl)
  | publish relid md k =>
      have hp : (s.pc p).holds = some (k, .build relid md, some relid) := by rw [hpc]; rfl
      have ht := (h.held p k _ _ hp).tenure
      simp only [IndexBuffer.backendStep, hpc, Option.some.injEq] at hs
      subst hs
      refine OwnerInv.store (h.own hp (by rintro _ _ _ ⟨⟩) ?_) fun _ => ?_
      · rintro r q relid n ⟨⟩
      · rw [ht]
        rfl
  | commit relid k =>
      simp only [IndexBuffer.backendStep, hpc, Option.some.injEq] at hs
      subst hs
      exact (h.setExclusive relid false).goto_none rfl
  | load k =>
      simp only [IndexBuffer.backendStep, hpc] at hs
      split at hs <;> cases hs
      · exact h.goto_none rfl
      · next hv =>
        have hr : OwnerInv (s.setSlot k { s.slots k with
            valid := .loadingIndex, stateError := false }) :=
          h.revalue rfl (by simp [hv]) (by simp) (by simp)
        exact hr.goto_none rfl
      · exact h.goto_none rfl
  | loading k =>
      simp only [IndexBuffer.backendStep, hpc, Option.some.injEq] at hs
      simp only [Heeds, hpc] at hok
      subst hs
      have hr : OwnerInv (s.setSlot k { s.slots k with valid := .queryable }) :=
        h.revalue rfl hok (by simp) (by simp)
      exact OwnerInv.store (hr.goto_none rfl) fun hv => absurd hv hok
  | idle | returned | failed => simp [IndexBuffer.backendStep, hpc] at hs

end Backend

theorem setSlot_setSlot (slot' : LSMIndexBufferSlot) :
    (s.setSlot k slot').setSlot k slot = s.setSlot k slot := by
  unfold State.setSlot
  simp

theorem OwnerInv.backendError (h : OwnerInv s) (hok : Heeds s (.backendError p))
    (hs : backendError p s = some s') : OwnerInv s' := by
  cases hpc : s.pc p with
  | await | loadWait =>
      simp only [IndexBuffer.backendError, hpc, Option.some.injEq] at hs
      subst hs
      exact h.goto_none rfl
  | building =>
      simp only [IndexBuffer.backendError, hpc, Option.some.injEq] at hs
      subst hs
      exact (h.setExclusive _ _).goto_none rfl
  | loading k =>
      simp only [IndexBuffer.backendError, hpc, Option.some.injEq] at hs
      simp only [Heeds, hpc] at hok
      subst hs
      refine OwnerInv.store ?_ fun hv => absurd hv (by simpa using hok)
      rw [setSlot_setSlot]
      have hr : OwnerInv (s.setSlot k { s.slots k with stateError := true, valid := .writable }) :=
        h.revalue rfl hok (by simp) (by simp)
      simpa using hr.goto_none rfl
  | _ => simp [IndexBuffer.backendError, hpc] at hs

section Worker

/-- The worker gives up the slot it has taken up. -/
theorem OwnerInv.giveUp (h : OwnerInv s) (hi : s.worker.serving = some i) {n : ℕ}
    (hs : (s.slots i).Served relid n) (hn : n ≤ 1) : OwnerInv (s.giveUp i) := by
  obtain ⟨r, p, ht⟩ := hs.tenure
  have hm : Move.Proper ⟨i, (s.slots i).tenure, .worker, none⟩ := by
    rw [ht]
    exact Or.inl ⟨rfl, hn, by simp⟩
  refine (h.record hm).work hi _ trivial ?_
  rintro r p relid n ⟨⟩

theorem OwnerInv.workerStep (h : OwnerInv s) (hok : Heeds s .worker)
    (hs : workerStep s = some s') : OwnerInv s' := by
  have hsv := h.serving
  unfold Serving at hsv
  cases hw : s.worker with
  | off => simp [IndexBuffer.workerStep, hw] at hs
  | waiting =>
      simp only [IndexBuffer.workerStep, hw, Option.some.injEq] at hs
      subst hs
      refine h.setWorker _ trivial ?_
      simp [hw, WorkerPc.serving]
  | scan i found =>
      simp only [Heeds, hw] at hok
      simp only [IndexBuffer.workerStep, hw] at hs
      split_ifs at hs with hi hv hf <;> cases hs
      · obtain ⟨r, p, relid, n, ht⟩ := (hok hi hv).exists_tenure
        obtain ⟨-, hn⟩ := h.waits i r p relid n hv ht
        obtain rfl := hn (by simp [hw, WorkerPc.serving])
        refine h.setWorker _ ⟨hv, relid, ⟨r, p, ht⟩, by simp [hv]⟩ ?_
        simp [hw, WorkerPc.serving]
      all_goals exact h.setWorker _ trivial (by simp [hw, WorkerPc.serving])
  | serve i =>
      have hi : s.worker.serving = some i := by rw [hw]; rfl
      rw [hw] at hsv
      obtain ⟨hv, relid, hsv⟩ := hsv
      have hr : OwnerInv (s.setWorker (.recover i)) :=
        h.setWorker _ ⟨hv, relid, hsv⟩ (by simp [hw, WorkerPc.serving])
      simp only [IndexBuffer.workerStep, hw] at hs
      repeat' split at hs
      all_goals cases hs
      · exact ⟨hr.held, hr.serving, hr.waits, hr.moves⟩
      · exact h.giveUp hi hsv (Nat.zero_le 1)
      · exact hr
  | recover i =>
      have hi : s.worker.serving = some i := by rw [hw]; rfl
      rw [hw] at hsv
      obtain ⟨hv, relid, ⟨r, p, ht⟩, hf⟩ := hsv
      obtain ⟨rfl, -⟩ := h.waits i r p relid 0 hv ht
      simp only [IndexBuffer.workerStep, hw, Option.some.injEq] at hs
      subst hs
      refine h.work hi _ ?_ ?_
      · refine ⟨by simpa using hv, ⟨r, p, ?_⟩, by simpa using hf⟩
        simp [ht]
      · intro r' p' relid n _ ht'
        simp only [ht, Option.map_some, Option.some.injEq, Tenure.mk.injEq] at ht'
        exact ⟨ht'.2.2.1, fun hne => absurd rfl hne⟩
  | opening i relid =>
      rw [hw] at hsv
      simp only [IndexBuffer.workerStep, hw] at hs
      split at hs <;> cases hs
      exact h.setWorker _ hsv (by simp [hw, WorkerPc.serving])
  | rebuild i relid =>
      have hi : s.worker.serving = some i := by rw [hw]; rfl
      rw [hw] at hsv
      obtain ⟨hv, ⟨r, p, ht⟩, hf⟩ := hsv
      simp only [IndexBuffer.workerStep, hw] at hs
      split at hs <;> cases hs
      · exact h.setWorker _ ⟨relid, ⟨r, p, ht⟩, hf⟩ (by simp [hw, WorkerPc.serving])
      · have hm : Move.Proper ⟨i, (s.slots i).tenure, .worker, some relid⟩ := by
          rw [ht]
          exact Or.inl ⟨rfl, le_rfl, by simp⟩
        refine (h.record hm).work hi _ ?_ ?_
        · exact ⟨by simpa using hv, ⟨r, p, by simpa using ht⟩, by simpa using hf⟩
        · intro r' p' relid' n _ ht'
          obtain ⟨-, -, h₃, -⟩ := Tenure.mk.inj (Option.some.inj (ht.symm.trans ht'))
          exact ⟨Option.some.inj h₃, fun hne => absurd rfl hne⟩
  | publish i relid =>
      have hi : s.worker.serving = some i := by rw [hw]; rfl
      rw [hw] at hsv
      obtain ⟨hv, ⟨r, p, ht⟩, hf⟩ := hsv
      simp only [IndexBuffer.workerStep, hw, Option.some.injEq] at hs
      subst hs
      have hm : Move.Proper ⟨i, (s.slots i).tenure, .worker, some relid⟩ := by
        rw [ht]
        exact Or.inl ⟨rfl, le_rfl, by simp⟩
      refine (h.record hm).work hi _ ?_ ?_
      · exact ⟨by simp, relid, ⟨r, p, by simpa using ht⟩, by simp⟩
      · rintro r' p' relid' n ⟨⟩
  | commit i =>
      rw [hw] at hsv
      simp only [IndexBuffer.workerStep, hw, Option.some.injEq] at hs
      subst hs
      refine h.setWorker _ trivial ?_
      intro r p relid n k hk _ hv
      rw [hw] at hk
      cases hk
      exact absurd hv hsv.1
  | caught i =>
      rw [hw] at hsv
      obtain ⟨relid, hsv⟩ := hsv
      simp only [IndexBuffer.workerStep, hw, Option.some.injEq] at hs
      subst hs
      exact h.giveUp (by rw [hw]; rfl) hsv le_rfl

theorem OwnerInv.workerError (h : OwnerInv s) (hs : workerError s = some s') : OwnerInv s' := by
  have hsv := h.serving
  unfold Serving at hsv
  cases hw : s.worker with
  | serve i =>
      rw [hw] at hsv
      obtain ⟨hv, relid, ⟨r, p, ht⟩, hf⟩ := hsv
      simp only [IndexBuffer.workerError, hw, Option.some.injEq] at hs
      subst hs
      have hr : OwnerInv (s.setWorker .off) := by
        refine h.setWorker _ trivial ?_
        intro r' p' relid' n k hk _ _ ht'
        rw [hw] at hk
        cases hk
        exact (Tenure.mk.inj (Option.some.inj (ht.symm.trans ht'))).2.2.2.symm
      exact ⟨hr.held, hr.serving, hr.waits, hr.moves⟩
  | opening i relid | rebuild i relid | publish i relid =>
      rw [hw] at hsv
      simp only [IndexBuffer.workerError, hw, Option.some.injEq] at hs
      subst hs
      exact h.setWorker _ ⟨relid, hsv.2⟩ (by simp [hw, WorkerPc.serving])
  | commit i =>
      rw [hw] at hsv
      simp only [IndexBuffer.workerError, hw, Option.some.injEq] at hs
      subst hs
      exact h.setWorker _ hsv.2 (by simp [hw, WorkerPc.serving])
  | _ => simp [IndexBuffer.workerError, hw] at hs

end Worker

theorem OwnerInv.step (h : OwnerInv s) (hok : Heeds s a) (hs : step s a = some s') :
    OwnerInv s' := by
  cases a with
  | lookup | load | leave =>
      simp only [IndexBuffer.step] at hs
      split at hs <;> cases hs <;> exact h.goto_none rfl
  | createRedo =>
      simp only [IndexBuffer.step] at hs
      split at hs <;> cases hs
      exact (h.setMetadata _ _).goto_none rfl
  | build =>
      simp only [IndexBuffer.step] at hs
      split at hs <;> cases hs
      exact (h.setExclusive _ _).goto_none rfl
  | backend p => exact h.backendStep hok hs
  | backendError p => exact h.backendError hok hs
  | startWorker n =>
      simp only [IndexBuffer.step] at hs
      split at hs <;> cases hs
      next hw =>
      have hr : OwnerInv (s.setWorker (.scan 0 false)) :=
        h.setWorker _ trivial (by simp [hw, WorkerPc.serving])
      exact ⟨hr.held, hr.serving, hr.waits, hr.moves⟩
  | stopWorker =>
      simp only [IndexBuffer.step] at hs
      split at hs <;> cases hs
      next hw =>
      have hr : OwnerInv (s.setWorker .off) :=
        h.setWorker _ trivial (by simp [hw, WorkerPc.serving])
      exact ⟨hr.held, hr.serving, hr.waits, hr.moves⟩
  | worker => exact h.workerStep hok hs
  | workerError => exact h.workerError hs

theorem Init.ownerInv (h : Init s) : OwnerInv s where
  held := by
    intro p k c r hp
    rw [h.pc p] at hp
    cases hp
  serving := by
    unfold Serving
    rw [h.worker]
    trivial
  waits := by
    intro k r p relid n hv
    rw [h.slots k] at hv
    cases hv
  moves := by
    intro m hm
    rw [h.moves] at hm
    cases hm

/-- In a run whose steps heed whose a recovering slot is, each such slot is moved by its owner
alone and recovered once, for the relid its claimer wrote. -/
theorem recovering_slot_has_one_owner (h : Reachable Init step Heeds s) : OneOwner s :=
  have inv : OwnerInv s :=
    h.invariant (fun _ h => h.ownerInv) fun _ _ _ _ h hok hs => h.step hok hs
  inv.moves

/-- The worker recovers slot 0 for relation 7. -/
theorem recovering_slot_has_one_owner_recovered : ∃ s,
    s.moves = List.replicate 2 ⟨0, some ⟨.register ⟨7, 1, 10⟩, 0, some 7, 1⟩, .worker, some 7⟩ ∧
      OneOwner s := by
  have hm : Meets Heeds step demoInit recoverRun := by decide +kernel
  have hs : (exec step demoInit recoverRun).map State.moves = some (List.replicate 2
      ⟨0, some ⟨.register ⟨7, 1, 10⟩, 0, some 7, 1⟩, .worker, some 7⟩) := by
    decide +kernel
  obtain ⟨s, he, hv⟩ := Option.map_eq_some_iff.mp hs
  exact ⟨s, hv, recovering_slot_has_one_owner ((Reachable.start init_demoInit).of_exec hm he)⟩

/-- While relation 9 is built in slot 1 the worker scans on, and frees the slot because it
names no database. -/
theorem not_recovering_slot_has_one_owner :
    ¬ ∀ s, Reachable Init step anyStep s → OneOwner s := by
  intro h
  have hs : (exec step demoInit (recoverRun ++ (buildRun 9 1).take 7 ++
      List.replicate 2 .worker)).map (fun s => s.moves.getLast?) =
        some (some ⟨1, some ⟨.build 9 demoMetadata, 1, some 9, 0⟩, .worker, none⟩) := by
    decide +kernel
  obtain ⟨s, he, hv⟩ := Option.map_eq_some_iff.mp hs
  have hr := (Reachable.start init_demoInit).of_exec (meets_anyStep _) he
  exact absurd (h s hr _ (List.mem_of_getLast? hv)) (by simp [Move.Proper])

end IndexBuffer

end VectorLsm
