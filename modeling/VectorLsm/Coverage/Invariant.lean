import VectorLsm.Coverage.Handoff

/-! # The invariant of the search

The memtables, the pool and the hand-offs keep their invariants, and the references of the search
are among those that are counted.
-/

namespace VectorLsm.Coverage

open Transition Pool FlushedSegmentPool ConcurrentMemTable

variable {V : Type*} {cfg : Config} {own : SlotIdx → Memtable.Owner} {s s' : State V}

structure Inv (own : SlotIdx → Memtable.Owner) (s : State V) : Prop where
  mem : MemInv own s.mem
  pool : PoolInv s.pool
  announced : Announced s.mem s.pool s.handoff
  tenants : ∀ c, s.search = some c → ∀ g ∈ c.todo, Memtable.Tenant own s.mem g
  memRefs : ∀ g, s.memRefs g ≤ (s.mem.slots g).readers
  segRefs : ∀ g, s.segRefs g ≤ s.pool.held g

section Fields

variable {c : Call V} {mem : Memtable.State V} {p : Pool.State}

@[simp] theorem setMem_memRefs : (s.setMem mem).memRefs = s.memRefs := rfl

@[simp] theorem setMem_segRefs : (s.setMem mem).segRefs = s.segRefs := rfl

@[simp] theorem setPool_memRefs : (s.setPool p).memRefs = s.memRefs := rfl

@[simp] theorem setPool_segRefs : (s.setPool p).segRefs = s.segRefs := rfl

@[simp] theorem setSearch_memRefs (g : SlotIdx) : (s.setSearch c).memRefs g = c.todo.count g := rfl

theorem memRefs_eq (h : s.search = some c) (g : SlotIdx) : s.memRefs g = c.todo.count g := by
  rw [State.memRefs, h]

theorem segRefs_eq {todo : List ℕ} {toSearch : List SegmentSearchInfo} (h : s.search = some c)
    (hw : c.walk = .filtering todo toSearch) (g : ℕ) : s.segRefs g = todo.count g := by
  obtain ⟨sn, mts, scanned, walk⟩ := c
  obtain rfl : walk = .filtering todo toSearch := hw
  rw [State.segRefs, h]

end Fields

section Snapshot

variable {mcfg : Memtable.Config} {mem mem' : Memtable.State V} {p : Pool.State}
  {handoff : ℕ → Handoff} {gs : List SlotIdx}

/-- The references of a snapshot change nothing else. -/
theorem acquireAll_spec (hi : MemInv own mem) (ha : Announced mem p handoff)
    (hs : acquireAll mcfg mem gs = some mem') : MemInv own mem' ∧ Announced mem' p handoff ∧
      (∀ g, mem'.mt g = mem.mt g) ∧
      ∀ g, (mem'.slots g).readers = (mem.slots g).readers + gs.count g := by
  induction gs generalizing mem with
  | nil =>
      obtain rfl := Option.some.inj hs
      exact ⟨hi, ha, fun _ => rfl, fun _ => rfl⟩
  | cons g gs ih =>
      obtain ⟨mem₁, h₁, hs⟩ := Option.bind_eq_some_iff.mp hs
      have ht : Memtable.Trans mcfg own mem own mem₁ :=
        Memtable.readerStep_trans (a := .acquire g) h₁
      have hi₁ : MemInv own mem₁ := ⟨hi.inv.trans ht, hi.unwritten.trans ht hi.inv, hi.noOrphan⟩
      obtain ⟨hi', ha', hmt, hreaders⟩ := ih hi₁ (ha.memStep hi ht h₁ (by simp)) hs
      simp only [Memtable.step, Memtable.readerStep] at h₁
      split_ifs at h₁
      obtain rfl := Option.some.inj h₁
      refine ⟨hi', ha', fun g' => ?_, fun g' => ?_⟩
      · rw [hmt, Memtable.State.setSlot_mt]
        split
        next hg => rw [hg, Memtable.State.slots_mt]
        next => rfl
      · rw [hreaders, Memtable.State.setSlot_slots, Function.update_apply, List.count_cons]
        split
        next hg =>
          subst hg
          simp only [BEq.rfl, if_true]
          omega
        next hg => simp [Ne.symm hg]

end Snapshot

namespace Inv

theorem memStep {a : Memtable.Action V} {mem : Memtable.State V} {handoff : ℕ → Handoff}
    (h : Inv own s) (hok : Memtable.EntersEmpty s.mem a)
    (hs : Memtable.step cfg.memtable s.mem a = some mem)
    (ha : Announced s.mem s.pool handoff)
    (hf : ∀ f g, a = .flu f → s.mem.flu f = .written g →
      handoff f = .none ∧ Represented s.pool.pool (s.mem.mt g).memtableId)
    (hu : ∀ g, a = .unref g → s.memRefs g < (s.mem.slots g).readers) :
    ∃ own', Inv own' ({ s with handoff := handoff }.setMem mem) := by
  obtain ⟨own', hi, ht⟩ := h.mem.step hok hs
  have hrefs : ∀ g, s.memRefs g ≤ (mem.slots g).readers :=
    fun g => le_readers_step hs (h.memRefs g) (hu g)
  refine ⟨own', hi, h.pool, ha.memStep h.mem ht hs hf, fun c hc g hg => ?_, hrefs, h.segRefs⟩
  have hcount := memRefs_eq (s := s) hc g
  refine tenant_step ht hi (h.tenants c hc g hg) (lt_of_lt_of_le ?_ (hrefs g))
  rw [hcount]
  exact List.count_pos_iff.mpr hg

theorem poolStep {a : Pool.Action} {p : Pool.State} {handoff : ℕ → Handoff} (h : Inv own s)
    (hl : a.Local) (hok : Steady s.pool a) (hs : Pool.step cfg.pool s.pool a = some p)
    (ha : Announced s.mem p handoff) (hd : ∀ g, a = .drop g → s.segRefs g < s.pool.held g) :
    Inv own { s with pool := p, handoff := handoff } where
  mem := h.mem
  pool := h.pool.step hl hok hs
  announced := ha
  tenants := h.tenants
  memRefs := h.memRefs
  segRefs := fun g => le_held_step h.pool.isLocal hs (h.segRefs g) (hd g)

theorem snapshot (h : Inv own s) (hs : step cfg s .snapshot = some s') : Inv own s' := by
  simp only [step] at hs
  split at hs
  next g _ hgrow =>
    obtain ⟨mem, hacq, rfl⟩ := Option.map_eq_some_iff.mp hs
    obtain ⟨hi, ha, -, hreaders⟩ := acquireAll_spec h.mem h.announced hacq
    refine ⟨hi, h.pool, ha, ?_, fun g' => ?_, fun g' => Nat.zero_le _⟩
    · rintro c hc g' hg'
      obtain rfl := Option.some.inj hc
      refine hi.inv.tenant_of_live ?_
      rcases List.mem_cons.mp hg' with rfl | hg'
      · rw [(h.mem.inv.places.growing g').2 hgrow]
        trivial
      · rw [(h.mem.inv.places.queued g').2 hg']
        trivial
    · change (g :: s.mem.memtableIdxs).count g' ≤ (mem.slots g').readers
      rw [hreaders]
      exact Nat.le_add_left _ _
  next => cases hs

theorem scan (h : Inv own s) (hs : step cfg s .scan = some s') : ∃ own', Inv own' s' := by
  simp only [step] at hs
  split at hs
  next sn g todo scanned walk hc =>
    obtain ⟨mem, hunref, rfl⟩ := Option.map_eq_some_iff.mp hs
    obtain ⟨own', hi, ht⟩ := h.mem.step (a := .unref g) trivial hunref
    have hcount := fun g' => memRefs_eq hc g' ▸ h.memRefs g'
    have hrefs : ∀ g', todo.count g' ≤ (mem.slots g').readers := by
      intro g'
      have hold := hcount g'
      refine le_readers_step hunref ((List.count_le_count_cons).trans hold) ?_
      rintro heq
      obtain rfl : g = g' := by simpa using heq
      rw [List.count_cons_self] at hold
      omega
    refine ⟨own', hi, h.pool, h.announced.memStep h.mem ht hunref (by simp), ?_, hrefs, ?_⟩
    · rintro c hc' g' hg'
      obtain rfl := Option.some.inj hc'
      exact tenant_step ht hi (h.tenants _ hc g' (List.mem_cons_of_mem g hg'))
        ((List.count_pos_iff.mpr hg').trans_le (hrefs g'))
    · intro g'
      have hold := h.segRefs g'
      rw [State.segRefs, hc] at hold
      cases walk <;> exact hold
  next => cases hs

theorem traverse (h : Inv own s) (hs : step cfg s .traverse = some s') : Inv own s' := by
  simp only [step] at hs
  split at hs
  next sn mts scanned hc =>
    obtain ⟨p, hp, rfl⟩ := Option.map_eq_some_iff.mp hs
    have hinv := h.poolStep (a := .search) trivial trivial hp
      (h.announced.poolStep (b := .search) h.pool trivial trivial hp) (by simp)
    obtain rfl := Option.some.inj hp
    refine ⟨hinv.mem, hinv.pool, hinv.announced, ?_, fun g => ?_, fun g => ?_⟩
    · rintro c hc' g hg
      obtain rfl := Option.some.inj hc'
      exact h.tenants _ hc g hg
    · have := h.memRefs g
      rwa [memRefs_eq hc] at this
    · exact Nat.le_add_left _ _
  next => cases hs

theorem classify (h : Inv own s) (hs : step cfg s .classify = some s') : Inv own s' := by
  simp only [step] at hs
  split at hs
  next sn mts scanned g todo toSearch hc =>
    have hheld := fun g' => segRefs_eq hc rfl g' ▸ h.segRefs g'
    have hmem : ∀ g', mts.count g' ≤ (s.mem.slots g').readers :=
      fun g' => memRefs_eq hc g' ▸ h.memRefs g'
    simp only [classifyStep] at hs
    split at hs
    · obtain ⟨p, hp, rfl⟩ := Option.map_eq_some_iff.mp hs
      refine ⟨h.mem, h.pool.step (b := .drop g) trivial trivial hp,
        h.announced.poolStep (b := .drop g) h.pool trivial trivial hp, ?_, hmem, fun g' => ?_⟩
      · rintro c hc' g' hg'
        obtain rfl := Option.some.inj hc'
        exact h.tenants _ hc g' hg'
      · have hold := hheld g'
        refine le_held_step h.pool.isLocal hp (List.count_le_count_cons.trans hold) ?_
        rintro heq
        obtain rfl : g = g' := by simpa using heq
        rw [List.count_cons_self] at hold
        change todo.count g < s.pool.held g
        omega
    · obtain rfl := Option.some.inj hs
      refine ⟨h.mem, h.pool, h.announced, ?_, hmem, fun g' => ?_⟩
      · rintro c hc' g' hg'
        obtain rfl := Option.some.inj hc'
        exact h.tenants _ hc g' hg'
      · exact List.count_le_count_cons.trans (hheld g')
  next => cases hs

theorem step {a : Action V} (h : Inv own s) (hok : Clear s a)
    (hs : Coverage.step cfg s a = some s') : ∃ own', Inv own' s' := by
  cases a with
  | mem a =>
      simp only [Coverage.step] at hs
      split at hs
      next hallow =>
        obtain ⟨mem, hmem, rfl⟩ := Option.map_eq_some_iff.mp hs
        refine h.memStep hok hmem h.announced ?_ ?_
        · rintro f g rfl hf
          exact absurd hf (hallow g)
        · rintro g rfl
          exact hallow
      next => cases hs
  | pool a =>
      simp only [Coverage.step] at hs
      split at hs
      next hallow =>
        obtain ⟨p, hp, rfl⟩ := Option.map_eq_some_iff.mp hs
        have hl : a.Local := by
          cases a with
          | adopt => exact hallow
          | _ => trivial
        refine ⟨own, h.poolStep hl hok.1 hp (h.announced.poolStep h.pool hok.1 hok.2 hp) ?_⟩
        rintro g rfl
        exact hallow
      next => cases hs
  | notify f t =>
      simp only [Coverage.step] at hs
      split at hs
      next g hf hnone =>
        obtain ⟨p, hp, rfl⟩ := Option.map_eq_some_iff.mp hs
        exact ⟨own, h.poolStep (a := .regular t _ _) trivial trivial hp
          (h.announced.notify h.pool hf hp) (by simp)⟩
      next => cases hs
  | resume f =>
      simp only [Coverage.step] at hs
      split at hs
      next g sid hf hanswered =>
        obtain ⟨mem, hmem, rfl⟩ := Option.map_eq_some_iff.mp hs
        obtain ⟨hrep, g', hf', rfl⟩ := h.announced.answered f sid hanswered
        have ha := h.announced.setHandoff (f := f) (x := .none) (by simp) (by simp)
        refine h.memStep (a := .flu f) trivial hmem ha ?_ (by simp)
        rintro f' g'' heq hg''
        obtain rfl : f = f' := by simpa using heq
        rw [hf'] at hg''
        obtain rfl : g' = g'' := by simpa using hg''
        exact ⟨Function.update_self .., hrep⟩
      next => cases hs
  | snapshot => exact ⟨own, h.snapshot hs⟩
  | scan => exact h.scan hs
  | traverse => exact ⟨own, h.traverse hs⟩
  | classify => exact ⟨own, h.classify hs⟩

theorem of_start (h : Start cfg s) : ∃ own, Inv own s := by
  obtain ⟨own, hmem⟩ := memInv_of_start h.mem
  obtain ⟨bound, hl, -⟩ := h.mem.loaded
  have hh := h.handoff
  have hsearch := h.search
  refine ⟨own, hmem, poolInv_of_start h.pool, ⟨?_, ?_, ?_, ?_⟩, ?_, fun g => ?_, fun g => ?_⟩
  · simp [hh]
  · simp [hh]
  · simp [hl.idleFlush]
  · simp [hl.handed]
  · simp [hsearch]
  · simp [State.memRefs, hsearch]
  · simp [State.segRefs, hsearch]

end Inv

theorem inv_of_reachable (h : Reachable (Start cfg) (step cfg) Clear s) : ∃ own, Inv own s :=
  h.invariant (P := fun s => ∃ own, Inv own s) (fun _ => Inv.of_start)
    fun _ _ _ _ ⟨_, hi⟩ hok hs => hi.step hok hs

end VectorLsm.Coverage
