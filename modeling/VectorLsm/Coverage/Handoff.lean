import VectorLsm.Coverage.Machine

/-! # No memtable is handed off unseen

A memtable leaves the queue only after the pool has its id, and the pool keeps it. What a search
holds references on stays as it is until the search has looked at it.
-/

namespace VectorLsm.Coverage

open Transition Pool FlushedSegmentPool ConcurrentMemTable

variable {V : Type*} {cfg : Config} {own own' : SlotIdx → Memtable.Owner} {s s' : State V}

/-- The memtable part of the invariant. -/
structure MemInv (own : SlotIdx → Memtable.Owner) (mem : Memtable.State V) : Prop where
  inv : Memtable.Inv own mem
  unwritten : Memtable.Unwritten own mem
  noOrphan : Memtable.NoOrphan own

/-- The pool part. -/
structure PoolInv (p : Pool.State) : Prop where
  sound : Sound p
  claims : Pool.Claims p
  isLocal : ∀ t, (p.pc t).Local

/-- A memtable that is being handed over, or was, is in the pool as far as its flush was told. -/
structure Announced (mem : Memtable.State V) (p : Pool.State) (handoff : ℕ → Handoff) : Prop where
  sent : ∀ f t sid, handoff f = .sent t sid → (p.pc t).Serves p.pool sid ∧
    ∃ g, mem.flu f = .written g ∧ (mem.mt g).memtableId = sid
  answered : ∀ f sid, handoff f = .answered sid → Represented p.pool sid ∧
    ∃ g, mem.flu f = .written g ∧ (mem.mt g).memtableId = sid
  registered : ∀ f g, mem.flu f = .registered g → Represented p.pool (mem.mt g).memtableId
  handed : ∀ m ∈ mem.handedOff, Represented p.pool m.memtableId

section Mem

variable {mcfg : Memtable.Config} {mem mem' : Memtable.State V} {a : Memtable.Action V}
  {g : SlotIdx} {f : ℕ}

/-- Only its own steps move a flush that is under way. -/
theorem flu_step (hs : Memtable.step mcfg mem a = some mem') (ha : a ≠ .flu f)
    (hf : mem.flu f ≠ .idle) : mem'.flu f = mem.flu f := by
  cases a with
  | ins t =>
      simp only [Memtable.step] at hs
      unfold Memtable.insertStep at hs
      grind
  | flu f' =>
      have hne : f ≠ f' := fun h => ha (by rw [h])
      simp only [Memtable.step, Memtable.flushStep, Memtable.failFlush] at hs
      grind [Function.update_apply]
  | _ =>
      simp only [Memtable.step, Memtable.allocStep, Memtable.claimStep, Memtable.readerStep] at hs
      grind [Function.update_apply]

/-- A flush comes behind its request from the point where it sends it. -/
theorem registered_step (hs : Memtable.step mcfg mem a = some mem')
    (h : mem'.flu f = .registered g) :
    mem.flu f = .registered g ∨ a = .flu f ∧ mem.flu f = .written g := by
  cases a with
  | ins t =>
      simp only [Memtable.step] at hs
      unfold Memtable.insertStep at hs
      grind
  | flu f' =>
      simp only [Memtable.step, Memtable.flushStep, Memtable.failFlush] at hs
      grind [Function.update_apply]
  | _ =>
      simp only [Memtable.step, Memtable.allocStep, Memtable.claimStep, Memtable.readerStep] at hs
      grind [Function.update_apply]

/-- What is handed off was registered. -/
theorem handedOff_trans (h : Memtable.Trans mcfg own mem own' mem') {m : ConcurrentMemTable V}
    (hm : m ∈ mem'.handedOff) :
    m ∈ mem.handedOff ∨ ∃ f g, mem.flu f = .registered g ∧ m = mem.mt g := by
  cases h with
  | insert h => cases h <;> exact .inl hm
  | rotate h => cases h <;> exact .inl hm
  | reader h => cases h <;> exact .inl hm
  | flush h =>
      cases h with
      | @handoff f g h hx hg =>
          rcases List.mem_cons.mp hm with rfl | hm
          · exact .inr ⟨f, g, h, rfl⟩
          · exact .inl hm
      | _ => exact .inl hm

/-- A claimed memtable keeps its id. -/
theorem memtableId_of_claim (hi : MemInv own mem) (h : Memtable.Trans mcfg own mem own' mem')
    (hg : (mem.flu f).claim = some g) : (mem'.mt g).memtableId = (mem.mt g).memtableId := by
  have hlive : (own g).Live := by
    rw [(hi.inv.claims.queued f g hg).1]
    trivial
  exact (h.aged hi.inv hi.unwritten (hi.inv.tenant_of_live hlive)).1.memtableId

theorem MemInv.step (hi : MemInv own mem) (hok : Memtable.EntersEmpty mem a)
    (hs : Memtable.step mcfg mem a = some mem') :
    ∃ own', MemInv own' mem' ∧ Memtable.Trans mcfg own mem own' mem' := by
  obtain ⟨own', ht, ho⟩ := Memtable.step_trans own hs
  exact ⟨own', ⟨hi.inv.trans ht, hi.unwritten.trans ht hi.inv, ho hok hi.noOrphan⟩, ht⟩

theorem memInv_of_start (h : Memtable.Start mcfg mem) : ∃ own, MemInv own mem := by
  obtain ⟨bound, hl, hb⟩ := h.loaded
  refine ⟨_, hl.inv hb, ⟨fun g hg i _ => ?_, fun t g i ht => ?_⟩,
    Memtable.noOrphan_startOwner mem⟩
  · have hlisted : mem.growingIdx = .slot g ∨ g ∈ mem.memtableIdxs :=
      Memtable.startOwner_ne_nobody fun h => by simp [h] at hg
    exact (hl.present g hlisted).2.2.1.writer i
  · simp [hl.idle] at ht

end Mem

section Announced

variable {mcfg : Memtable.Config} {mem mem' : Memtable.State V} {p p' : Pool.State}
  {handoff : ℕ → Handoff} {a : Memtable.Action V} {f : ℕ} {g : SlotIdx}

/-- A step of the memtables; a flush goes on with its request answered. -/
theorem Announced.memStep (h : Announced mem p handoff) (hi : MemInv own mem)
    (ht : Memtable.Trans mcfg own mem own' mem') (hs : Memtable.step mcfg mem a = some mem')
    (ha : ∀ f g, a = .flu f → mem.flu f = .written g →
      handoff f = .none ∧ Represented p.pool (mem.mt g).memtableId) :
    Announced mem' p handoff := by
  have hwritten : ∀ {f g}, handoff f ≠ .none → mem.flu f = .written g →
      mem'.flu f = .written g ∧ (mem'.mt g).memtableId = (mem.mt g).memtableId := by
    intro f g hne hf
    refine ⟨?_, memtableId_of_claim hi ht (f := f) (by simp [hf])⟩
    rw [flu_step hs (fun heq => hne (ha f g heq hf).1) (by simp [hf]), hf]
  constructor
  case sent =>
    intro f t sid hf
    obtain ⟨hserves, g, hw, hid⟩ := h.sent f t sid hf
    have hw' := hwritten (by simp [hf]) hw
    exact ⟨hserves, g, hw'.1, hw'.2.trans hid⟩
  case answered =>
    intro f sid hf
    obtain ⟨hrep, g, hw, hid⟩ := h.answered f sid hf
    have hw' := hwritten (by simp [hf]) hw
    exact ⟨hrep, g, hw'.1, hw'.2.trans hid⟩
  case registered =>
    intro f g hf
    rcases registered_step hs hf with hold | ⟨rfl, hold⟩
    · rw [memtableId_of_claim hi ht (f := f) (by simp [hold])]
      exact h.registered f g hold
    · rw [memtableId_of_claim hi ht (f := f) (by simp [hold])]
      exact (ha f g rfl hold).2
  case handed =>
    intro m hm
    rcases handedOff_trans ht hm with hm | ⟨f, g, hf, rfl⟩
    · exact h.handed m hm
    · exact h.registered f g hf

/-- A step of the pool; the requests it ends are answered. -/
theorem Announced.poolStep {pcfg : PoolConfig} {b : Pool.Action} (h : Announced mem p handoff)
    (hp : PoolInv p) (hb : Steady p b) (hload : Loads p b)
    (hs : Pool.step pcfg p b = some p') :
    Announced mem p' fun f => (handoff f).settle p' := by
  have hrep : ∀ {sid}, Represented p.pool sid → Represented p'.pool sid :=
    represented_step hp.sound hp.claims hp.isLocal hb hs
  constructor
  case sent =>
    intro f t sid hf
    cases hold : handoff f with
    | none | answered => simp [hold, Handoff.settle] at hf
    | sent t' sid' =>
        simp only [hold, Handoff.settle] at hf
        split at hf
        · cases hf
        next hidle =>
          cases hf
          obtain ⟨hserves, hw⟩ := h.sent f t sid hold
          rcases serves_step hp.sound hp.claims hb hload hserves hs with hserves | ⟨hpc, -⟩
          · exact ⟨hserves, hw⟩
          · exact absurd hpc hidle
  case answered =>
    intro f sid hf
    cases hold : handoff f with
    | none => simp [hold, Handoff.settle] at hf
    | answered sid' =>
        simp only [hold, Handoff.settle, Handoff.answered.injEq] at hf
        subst hf
        exact (h.answered f sid' hold).imp hrep id
    | sent t sid' =>
        simp only [hold, Handoff.settle] at hf
        split at hf
        next hidle =>
          cases hf
          obtain ⟨hserves, hw⟩ := h.sent f t sid hold
          rcases serves_step hp.sound hp.claims hb hload hserves hs with hserves | ⟨-, hdone⟩
          · rw [hidle] at hserves
            exact hserves.elim
          · exact ⟨hdone, hw⟩
        next => cases hf
  case registered => exact fun f g hf => hrep (h.registered f g hf)
  case handed => exact fun m hm => hrep (h.handed m hm)

/-- Another point of one hand-off. -/
theorem Announced.setHandoff (h : Announced mem p handoff) {x : Handoff}
    (hsent : ∀ t sid, x = .sent t sid → (p.pc t).Serves p.pool sid ∧
      ∃ g, mem.flu f = .written g ∧ (mem.mt g).memtableId = sid)
    (hanswered : ∀ sid, x = .answered sid → Represented p.pool sid ∧
      ∃ g, mem.flu f = .written g ∧ (mem.mt g).memtableId = sid) :
    Announced mem p (Function.update handoff f x) := by
  refine ⟨fun f' t sid hf => ?_, fun f' sid hf => ?_, h.registered, h.handed⟩
  · rcases eq_or_ne f' f with rfl | hne
    · exact hsent t sid (by simpa using hf)
    · exact h.sent f' t sid (by simpa [hne] using hf)
  · rcases eq_or_ne f' f with rfl | hne
    · exact hanswered sid (by simpa using hf)
    · exact h.answered f' sid (by simpa [hne] using hf)

/-- The request of a flush is taken by a thread, or answered at once. -/
theorem Announced.notify {pcfg : PoolConfig} {t : ℕ} (h : Announced mem p handoff)
    (hp : PoolInv p) (hf : mem.flu f = .written g)
    (hs : Pool.step pcfg p (.regular t (mem.mt g).memtableId (mem.mt g).memtableId) = some p') :
    Announced mem p' fun f' =>
      (Function.update handoff f (.sent t (mem.mt g).memtableId) f').settle p' := by
  have hsettle : (fun f' => (Function.update handoff f (.sent t (mem.mt g).memtableId) f').settle
      p') = Function.update (fun f' => (handoff f').settle p') f
        ((Handoff.sent t (mem.mt g).memtableId).settle p') := by
    funext f'
    rcases eq_or_ne f' f with rfl | hne
    · simp
    · simp [hne]
  rw [hsettle]
  have hserves := serves_regular hp.sound hs
  refine (h.poolStep (b := .regular t _ _) hp trivial trivial hs).setHandoff ?_ ?_
  · intro u sid hx
    simp only [Handoff.settle] at hx
    split at hx
    · cases hx
    next hidle =>
      cases hx
      exact ⟨hserves.resolve_right fun h => hidle h.1, g, hf, rfl⟩
  · intro sid hx
    simp only [Handoff.settle] at hx
    split at hx
    next hidle =>
      cases hx
      refine ⟨(hserves.resolve_left fun h => ?_).2, g, hf, rfl⟩
      rw [hidle] at h
      exact h
    next => cases hx

end Announced

section References

variable {mcfg : Memtable.Config} {mem mem' : Memtable.State V} {p p' : Pool.State}
  {a : Memtable.Action V} {b : Pool.Action} {g : SlotIdx} {n : ℕ}

theorem PoolInv.step {pcfg : PoolConfig} (hp : PoolInv p) (hl : b.Local) (hb : Steady p b)
    (hs : Pool.step pcfg p b = some p') : PoolInv p' where
  sound := sound_step hp.sound (hb.undisturbed hp.sound hp.claims) hs
  claims := claims_step hp.sound hp.claims hb hs
  isLocal := local_step hp.isLocal hl hs

theorem poolInv_of_start {pcfg : PoolConfig} (h : Pool.Start pcfg p) : PoolInv p := by
  refine ⟨sound_of_start h, claims_of_start h, fun t => ?_⟩
  obtain ⟨files, useMmap, -, -, -, hpc, -⟩ := h
  rw [hpc, Function.update_apply]
  split
  · cases useMmap <;> trivial
  · trivial

/-- References are kept by all but their holder. -/
theorem le_readers_step (hs : Memtable.step mcfg mem a = some mem')
    (h : n ≤ (mem.slots g).readers) (ha : a = .unref g → n < (mem.slots g).readers) :
    n ≤ (mem'.slots g).readers := by
  by_cases hu : a = .unref g
  · subst hu
    have := ha rfl
    simp only [Memtable.step, Memtable.readerStep] at hs
    split_ifs at hs
    obtain rfl := Option.some.inj hs
    simp only [Memtable.State.setSlot_slots, Function.update_self]
    omega
  · exact h.trans (Memtable.step_readers hs hu)

/-- A referenced memtable stays the tenant of its slot. -/
theorem tenant_step (ht : Memtable.Trans mcfg own mem own' mem') (hi : MemInv own' mem')
    (h : Memtable.Tenant own mem g) (hr : 0 < (mem'.slots g).readers) :
    Memtable.Tenant own' mem' g :=
  ht.tenant h (hr.trans_le (hi.inv.refs.readers g))

end References

end VectorLsm.Coverage
