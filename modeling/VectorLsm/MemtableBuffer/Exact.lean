import VectorLsm.MemtableBuffer.Counted

/-! # Exact reference counts

Every count is that of the owner and of the searches and bulk deletes that hold the slot, as long
as no bulk delete ends by an error with a memtable referenced.
-/

namespace VectorLsm.MemtableBuffer

open Tally State Transition

variable {V : Type*} {s s' : State V} {a : Action V} {g : SlotIdx}

/-- The references of a slot are one for its owning index and one for each search and bulk delete
that holds it, so that a slot is free exactly if nobody owns or uses it. -/
structure Exact (s : State V) : Prop where
  counted : ∀ g, s.refCount g = s.owners g + s.users g
  owned : ∀ g, s.owners g ≤ 1
  free : ∀ g, s.refCount g = 0 ↔ s.owners g = 0 ∧ s.users g = 0

/-- The condition on an error: it finds a bulk delete without a reference. -/
def Unreferenced (s : State V) : Action V → Prop
  | .error t =>
      match s.tasks[t]? with
      | some (.bulkDelete _ pc) => pc.holds = []
      | _ => True
  | _ => True

/-- The condition on a step. -/
def Careful (s : State V) (a : Action V) : Prop := FreshRotation s a ∧ Unreferenced s a

instance (s : State V) (a : Action V) : Decidable (Unreferenced s a) :=
  decidable_of_bool
    (match a with
      | .error t =>
          match s.tasks[t]? with
          | some (.bulkDelete _ pc) => pc.holds = []
          | _ => true
      | _ => true) <| by
    unfold Unreferenced
    cases a with
    | error t =>
        dsimp only
        split <;> simp
    | _ => simp

instance (s : State V) (a : Action V) : Decidable (Careful s a) :=
  inferInstanceAs (Decidable (_ ∧ _))

theorem setTask_self {t : ℕ} {x : Task V} (ht : s.tasks[t]? = some x) : s.setTask t x = s := by
  rw [State.setTask, set_self ht]

/-- What setting up memtables in free slots does. -/
structure Placed (rel : Oid) (s u : State V) (ms : List (SlotIdx × ConcurrentMemTable V)) :
    Prop where
  tasks : u.tasks = s.tasks
  indexes : u.indexes = s.indexes
  lost : u.lost = s.lost
  nodup : (ms.map fun m => m.1).Nodup
  free : ∀ g ∈ ms.map fun m => m.1, s.refCount g = 0
  refCount : ∀ g, u.refCount g = s.refCount g + (ms.map fun m => m.1).count g
  others : ∀ g ∉ ms.map fun m => m.1, u.mt g = s.mt g
  names : ∀ m ∈ ms, (u.mt m.1).rel = rel ∧ (u.mt m.1).memtableId = m.2.memtableId ∧
    (u.mt m.1).flushClaimed = false

theorem placed {rel : Oid} {ms : List (SlotIdx × ConcurrentMemTable V)} {u : State V}
    (hs : ms.foldlM (place rel) s = some u) : Placed rel s u ms := by
  induction ms generalizing s with
  | nil =>
      obtain rfl : s = u := by simpa using hs
      exact ⟨rfl, rfl, rfl, List.nodup_nil, by simp, by simp, by simp, by simp⟩
  | cons m ms ih =>
      rw [List.foldlM_cons] at hs
      obtain ⟨v, hv, hu⟩ := Option.bind_eq_some_iff.mp hs
      have hp := ih hu
      simp only [place] at hv
      split at hv
      next hfree =>
        obtain rfl := Option.some.inj hv
        have hnot : m.1 ∉ ms.map fun m => m.1 := by
          intro hmem
          have := hp.free m.1 hmem
          simp at this
        constructor
        case tasks => simpa using hp.tasks
        case indexes => simpa using hp.indexes
        case lost => exact hp.lost
        case nodup => exact List.nodup_cons.mpr ⟨hnot, hp.nodup⟩
        case free =>
          intro g hg
          rcases List.mem_cons.mp hg with rfl | hg
          · exact hfree
          · have := hp.free g hg
            simp only [setMt_refCount, addRef_refCount] at this
            omega
        case refCount =>
          intro g
          rw [hp.refCount, setMt_refCount, addRef_refCount, List.map_cons]
          by_cases hg : g = m.1
          · subst hg
            simp only [if_true, List.count_cons_self]
            omega
          · simp [hg, Ne.symm hg]
        case others =>
          intro g hg
          obtain ⟨hne, hg⟩ : g ≠ m.1 ∧ g ∉ ms.map fun m => m.1 := by
            simpa only [List.map_cons, List.mem_cons, not_or] using hg
          rw [hp.others g hg]
          simp [hne]
        case names =>
          intro m' hm'
          rcases List.mem_cons.mp hm' with rfl | hm'
          · rw [hp.others m'.1 hnot]
            simp
          · exact hp.names m' hm'
      next => cases hv

theorem Loaded.index_owns (d : Loaded V) :
    d.index.owns = d.memtables.map fun m => m.1 := by
  obtain ⟨rel, capacity, growing, queue, covered, next⟩ := d
  cases growing <;> rfl

namespace Inv

/-- An index is set up in free slots. -/
theorem load (h : Inv s) {d : Loaded V} (hs : load s d = some s') : Inv s' := by
  simp only [MemtableBuffer.load] at hs
  split at hs
  next =>
    obtain ⟨u, hu, rfl⟩ := Option.map_eq_some_iff.mp hs
    have hp := placed hu
    have howns := d.index_owns
    have hfree : ∀ g ∈ d.index.owns, s.owners g = 0 ∧ s.users g = 0 := by
      intro g hg
      have := h.counted g
      have := hp.free g (howns ▸ hg)
      omega
    have hget : ∀ (n : ℕ) idx, (u.indexes ++ [d.index])[n]? = some idx →
        n < s.indexes.length ∧ s.indexes[n]? = some idx ∨
          n = s.indexes.length ∧ idx = d.index := by
      intro n idx hn
      rw [hp.indexes] at hn
      rcases lt_or_ge n s.indexes.length with hlt | hge
      · exact Or.inl ⟨hlt, by rwa [List.getElem?_append_left hlt] at hn⟩
      · rw [List.getElem?_append_right hge] at hn
        obtain ⟨hzero, rfl⟩ := List.getElem?_eq_some_iff.mp hn
        exact Or.inr ⟨by simp at hzero; omega, by simp⟩
    have hunowned : ∀ (n : ℕ) idx, s.indexes[n]? = some idx →
        ∀ g ∈ idx.owns, g ∉ d.index.owns := by
      intro n idx hn g hg hmem
      have hle := le_tally (fun idx => idx.owns.count g) hn
      have hpos := List.count_pos_iff.mpr hg
      have hzero := (hfree g hmem).1
      simp only [owners] at hzero
      omega
    have hunheld : ∀ (t : ℕ) x, s.tasks[t]? = some x → ∀ g,
        g ∈ x.owns ∨ g ∈ x.holds → g ∉ d.index.owns := by
      intro t x ht g hg hmem
      have howns := le_tally (fun x : Task V => x.owns.count g) ht
      have hholds := le_tally (fun x : Task V => x.holds.count g) ht
      have hzero := hfree g hmem
      simp only [owners, users] at hzero
      rcases hg with hg | hg <;> have hpos := List.count_pos_iff.mpr hg <;> omega
    have hmt : ∀ g, g ∉ d.index.owns → u.mt g = s.mt g := fun g hg =>
      hp.others g (howns ▸ hg)
    have hlen : (u.indexes ++ [d.index]).length = s.indexes.length + 1 := by simp [hp.indexes]
    have howners : ∀ g, ({ u with indexes := u.indexes ++ [d.index] } : State V).owners g =
        s.owners g + d.index.owns.count g := by
      intro g
      simp only [owners, hp.tasks, hp.indexes, tally_append, tally_cons, tally_nil]
      omega
    have husers : ∀ g, ({ u with indexes := u.indexes ++ [d.index] } : State V).users g =
        s.users g := by
      intro g
      simp only [users, hp.tasks]
    constructor
    case counted =>
      intro g
      have hcount := h.counted g
      have href := hp.refCount g
      have hlost : u.lost g = s.lost g := by rw [hp.lost]
      rw [howners, husers, howns]
      change u.refCount g = _ + _ + u.lost g
      omega
    case owned =>
      intro g
      rw [howners]
      by_cases hg : g ∈ d.index.owns
      · have := (hfree g hg).1
        have hnodup : d.index.owns.Nodup := howns ▸ hp.nodup
        have := List.nodup_iff_count_le_one.mp hnodup g
        omega
      · have := h.owned g
        rw [List.count_eq_zero.mpr hg]
        omega
    case rotating =>
      intro n idx hn
      change tally _ u.tasks = _
      rw [hp.tasks]
      rcases hget n idx hn with ⟨-, hn⟩ | ⟨rfl, rfl⟩
      · exact h.rotating n idx hn
      · have hgrowing : d.index.growingIdx ≠ .rotating := by
          simp only [Loaded.index]
          split <;> simp
        rw [if_neg hgrowing]
        refine (tally_eq_zero _).mpr fun x hx => ?_
        obtain ⟨t, ht, rfl⟩ := List.mem_iff_getElem.mp hx
        by_contra hpos
        have hindex : (s.tasks[t]).index = some s.indexes.length := by
          cases hx : s.tasks[t] <;> simp_all [Task.rotates, Task.index]
        exact absurd (h.known t _ _ (List.getElem?_eq_getElem ht) hindex) (lt_irrefl _)
    case known =>
      intro t x n ht hx
      rw [hlen]
      have := h.known t x n (hp.tasks ▸ ht) hx
      omega
    case related =>
      intro n idx hn g hg
      rcases hget n idx hn with ⟨-, hn⟩ | ⟨-, rfl⟩
      · change (u.mt g).rel = _
        rw [hmt g (hunowned n idx hn g hg)]
        exact h.related n idx hn g hg
      · rw [howns] at hg
        obtain ⟨m, hm, rfl⟩ := List.mem_map.mp hg
        exact (hp.names m hm).1
    case named =>
      intro t x n idx ht hx hn g hg
      have ht : s.tasks[t]? = some x := hp.tasks ▸ ht
      have hlt := h.known t x n ht hx
      rcases hget n idx hn with ⟨-, hn⟩ | ⟨rfl, -⟩
      · change (u.mt g).rel = _
        rw [hmt g (hunheld t x ht g (Or.inl (Task.named_subset hg)))]
        exact h.named t x n idx ht hx hn g hg
      · exact absurd hlt (lt_irrefl _)
    case checked =>
      intro t n idx c g id ht hn
      have ht : s.tasks[t]? = some (.bulkDelete n (.check c g id)) := hp.tasks ▸ ht
      have hlt := h.known t _ n ht rfl
      rcases hget n idx hn with ⟨-, hn⟩ | ⟨rfl, -⟩
      · change (u.mt g).rel = _ ∧ (u.mt g).memtableId = _
        rw [hmt g (hunheld t _ ht g (Or.inr (by simp [Task.holds, BulkDeletePc.holds])))]
        exact h.checked t n idx c g id ht hn
      · exact absurd hlt (lt_irrefl _)
    case fresh =>
      intro t n r cur new ht
      rw [husers]
      exact h.fresh t n r cur new (hp.tasks ▸ ht)
  next => cases hs

theorem exists_index (h : Inv s) {t n : ℕ} {x : Task V} (ht : s.tasks[t]? = some x)
    (hx : x.index = some n) : ∃ idx, s.indexes[n]? = some idx :=
  ⟨_, List.getElem?_eq_getElem (h.known t x n ht hx)⟩

/-- An idle task enters a call. -/
theorem call (h : Inv s) {t n : ℕ} {y : Task V} (hq : Quiet n .idle y)
    (hs : call s t n y = some s') : Inv s' := by
  simp only [MemtableBuffer.call] at hs
  split at hs
  next idx ht hn =>
    obtain rfl := Option.some.inj hs
    exact h.goto ht hn hq
  next => cases hs

/-- Every step keeps the invariant. -/
theorem step (h : Inv s) (ha : FreshRotation s a) (hs : step s a = some s') : Inv s' := by
  cases a with
  | load d => exact h.load hs
  | insert t n r =>
      refine h.call (.enter rfl rfl rfl rfl ?_ (by simp) (by simp)) hs
      simp [Task.rotates, InsertPc.rotating]
  | search t n => exact h.call (.enter rfl rfl rfl rfl rfl (by simp) (by simp)) hs
  | bulkDelete t n => exact h.call (.enter rfl rfl rfl rfl rfl (by simp) (by simp)) hs
  | flush t n => exact h.call (.enter rfl rfl rfl rfl rfl (by simp) (by simp)) hs
  | run t =>
      simp only [MemtableBuffer.step, runStep] at hs
      split at hs
      next n r pc ht =>
        obtain ⟨idx, hn, hs⟩ := Option.bind_eq_some_iff.mp hs
        refine h.insert ht hn ?_ hs
        rintro rfl
        simpa [FreshRotation, ht, hn] using ha
      next n pc ht =>
        obtain ⟨idx, hn, hs⟩ := Option.bind_eq_some_iff.mp hs
        exact h.search ht hn hs
      next n pc ht =>
        obtain ⟨idx, hn, hs⟩ := Option.bind_eq_some_iff.mp hs
        exact h.bulkDelete ht hn hs
      next n pc ht =>
        obtain ⟨idx, hn, hs⟩ := Option.bind_eq_some_iff.mp hs
        exact h.flush ht hn hs
      next => cases hs
  | alloc t g =>
      simp only [MemtableBuffer.step, allocStep] at hs
      split at hs
      next n r cur ht =>
        obtain ⟨idx, hn⟩ := h.exists_index ht rfl
        split at hs
        next hg =>
          obtain rfl := Option.some.inj hs
          exact h.alloc ht hn hg
        next => cases hs
      next => cases hs
  | claim t g =>
      simp only [MemtableBuffer.step, claimStep] at hs
      split at hs
      next n ht =>
        split at hs
        next idx hn =>
          split at hs
          next =>
            obtain rfl := Option.some.inj hs
            refine h.setMt ht hn (.flush rfl) ?_ ?_ <;> rfl
          next => cases hs
        next => cases hs
      next => cases hs
  | mask t i =>
      simp only [MemtableBuffer.step, maskStep] at hs
      split at hs
      next n c g ht =>
        obtain ⟨idx, hn⟩ := h.exists_index ht rfl
        split at hs
        next =>
          obtain rfl := Option.some.inj hs
          have hset : Inv ((s.setMt g ((s.mt g).mask i)).setTask t
              (.bulkDelete n (.scan c g))) := by
            refine h.setMt ht hn (.bulkDelete rfl (by simp)) ?_ ?_ <;> rfl
          rwa [setTask_self (by exact ht)] at hset
        next => cases hs
      next => cases hs
  | error t =>
      simp only [MemtableBuffer.step, errorStep] at hs
      split at hs
      next n ht =>
        obtain ⟨idx, hn⟩ := h.exists_index ht rfl
        obtain rfl := Option.some.inj hs
        exact h.goto ht hn (.idle (Or.inr rfl) rfl rfl rfl)
      next n held ht =>
        obtain ⟨idx, hn⟩ := h.exists_index ht rfl
        obtain rfl := Option.some.inj hs
        exact h.drop ht hn rfl (Or.inl rfl) rfl (fun _ => rfl) (List.Subset.refl _) rfl (by simp)
          (by simp)
      next n pc ht =>
        obtain ⟨idx, hn⟩ := h.exists_index ht rfl
        obtain rfl := Option.some.inj hs
        exact h.abort ht hn
      next n pc ht =>
        obtain ⟨idx, hn⟩ := h.exists_index ht rfl
        exact h.flushError ht hn hs
      next => cases hs
  | releaseError t deleted =>
      simp only [MemtableBuffer.step, releaseErrorStep] at hs
      split at hs
      next n r sid batch ht =>
        split at hs
        next idx hn =>
          obtain rfl := Option.some.inj hs
          refine h.setIndex ht hn (.idle (Or.inr rfl) rfl rfl ?_) rfl rfl rfl
          simp [Task.rotates, InsertPc.rotating]
        next => cases hs
      next => cases hs

end Inv

section Lost

variable {t n : ℕ} {idx : LSMIndex} {r : Row V}

theorem insertStep_lost {pc : InsertPc} (hs : insertStep s t n idx r pc = some s') :
    s'.lost = s.lost := by
  cases pc with
  | release batch => cases batch <;> exact Option.some.inj hs ▸ rfl
  | _ =>
      simp only [insertStep] at hs
      repeat' split at hs
      all_goals cases hs <;> rfl

theorem searchStep_lost {pc : SearchPc} (hs : searchStep s t n idx pc = some s') :
    s'.lost = s.lost := by
  cases pc with
  | snapshot =>
      simp only [searchStep] at hs
      split at hs <;> obtain rfl := Option.some.inj hs
      next g _ => exact foldl_addRef_lost (s := s) (g :: idx.memtableIdxs)
      next => rfl
  | searching held => cases held <;> exact Option.some.inj hs ▸ rfl

theorem abortBulkDelete_lost {pc : BulkDeletePc} (hpc : pc.holds = []) :
    (abortBulkDelete s t pc).lost = s.lost := by
  cases pc <;> first
    | rfl
    | cases hpc

theorem bulkDeleteStep_lost (h : Inv s) {pc : BulkDeletePc}
    (ht : s.tasks[t]? = some (.bulkDelete n pc)) (hn : s.indexes[n]? = some idx)
    (hs : bulkDeleteStep s t n idx pc = some s') : s'.lost = s.lost := by
  cases pc with
  | check c g id =>
      simp only [bulkDeleteStep, if_pos (h.checked t n idx c g id ht hn)] at hs
      exact Option.some.inj hs ▸ rfl
  | _ =>
      simp only [bulkDeleteStep] at hs
      repeat' split at hs
      all_goals cases hs <;> rfl

theorem abortFlush_lost {pc : FlushPc} (hs : abortFlush s t pc = some s') : s'.lost = s.lost := by
  cases pc <;> cases hs <;> rfl

theorem flushStep_lost {pc : FlushPc} (hs : flushStep s t n idx pc = some s') :
    s'.lost = s.lost := by
  cases pc with
  | waiting g =>
      simp only [flushStep] at hs
      split at hs
      next => exact abortFlush_lost hs
      next => split at hs <;> exact Option.some.inj hs ▸ rfl
  | _ =>
      simp only [flushStep] at hs
      repeat' split at hs
      all_goals cases hs <;> rfl

/-- No reference is lost but by an error of a bulk delete. -/
theorem step_lost (h : Inv s) (ha : Unreferenced s a) (hs : step s a = some s') :
    s'.lost = s.lost := by
  cases a with
  | load d =>
      simp only [step, load] at hs
      split at hs
      next =>
        obtain ⟨u, hu, rfl⟩ := Option.map_eq_some_iff.mp hs
        exact (placed hu).lost
      next => cases hs
  | run t =>
      simp only [step, runStep] at hs
      split at hs
      next n r pc ht =>
        obtain ⟨idx, -, hs⟩ := Option.bind_eq_some_iff.mp hs
        exact insertStep_lost hs
      next n pc ht =>
        obtain ⟨idx, -, hs⟩ := Option.bind_eq_some_iff.mp hs
        exact searchStep_lost hs
      next n pc ht =>
        obtain ⟨idx, hn, hs⟩ := Option.bind_eq_some_iff.mp hs
        exact bulkDeleteStep_lost h ht hn hs
      next n pc ht =>
        obtain ⟨idx, -, hs⟩ := Option.bind_eq_some_iff.mp hs
        exact flushStep_lost hs
      next => cases hs
  | error t =>
      simp only [step, errorStep] at hs
      split at hs
      next => exact Option.some.inj hs ▸ rfl
      next n held ht =>
        obtain rfl := Option.some.inj hs
        exact foldl_dropRef_lost (s := s) held
      next n pc ht =>
        obtain rfl := Option.some.inj hs
        exact abortBulkDelete_lost (by simpa [Unreferenced, ht] using ha)
      next => exact abortFlush_lost hs
      next => cases hs
  | insert t n r | search t n | bulkDelete t n | flush t n =>
      simp only [step, call] at hs
      split at hs
      next => exact Option.some.inj hs ▸ rfl
      next => cases hs
  | alloc t g | claim t g | mask t i | releaseError t deleted =>
      simp only [step, allocStep, claimStep, maskStep, releaseErrorStep] at hs
      repeat' split at hs
      all_goals cases hs <;> rfl

end Lost

namespace Inv

theorem start (h : Start s) : Inv s := by
  obtain ⟨hfree, hindexes, htasks, hlost⟩ := h
  have hidle : ∀ (t : ℕ) x, s.tasks[t]? = some x → x = .idle := fun t x ht =>
    htasks x (List.mem_of_getElem? ht)
  have hzero : ∀ f : Task V → ℕ, f .idle = 0 → tally f s.tasks = 0 := fun f hf =>
    (tally_eq_zero f).mpr fun x hx => htasks x hx ▸ hf
  constructor
  case counted =>
    intro g
    have howns := hzero (fun x => x.owns.count g) rfl
    have hholds := hzero (fun x => x.holds.count g) rfl
    simp [owners, users, hindexes, howns, hholds, hlost, State.refCount, hfree]
  case owned =>
    intro g
    have howns := hzero (fun x => x.owns.count g) rfl
    simp [owners, hindexes, howns]
  case rotating => simp [hindexes]
  case known =>
    intro t x n ht hx
    simp [hidle t x ht, Task.index] at hx
  case related => simp [hindexes]
  case named => simp [hindexes]
  case checked => simp [hindexes]
  case fresh =>
    intro t n r cur new ht
    cases hidle t _ ht

theorem exact (h : Inv s) (hlost : s.lost = fun _ => 0) : Exact s := by
  have hcount : ∀ g, s.refCount g = s.owners g + s.users g := by
    intro g
    have := h.counted g
    simpa [hlost] using this
  refine ⟨hcount, h.owned, fun g => ?_⟩
  rw [hcount]
  omega

end Inv

/-- The reference counts are exact in every run in which no error ends a bulk delete that holds a
reference and no rotation for a missing growing memtable finds one. -/
theorem refCount_exact (h : Reachable Start step Careful s) : Exact s := by
  obtain ⟨hi, hlost⟩ : Inv s ∧ s.lost = fun _ => 0 := by
    refine h.invariant (P := fun s => Inv s ∧ s.lost = fun _ => 0) (fun s hs => ?_) ?_
    · exact ⟨Inv.start hs, hs.2.2.2⟩
    · intro s a s' _ hi ha hs
      exact ⟨hi.1.step ha.1 hs, (step_lost hi.1 ha.2 hs).trans hi.2⟩
  exact hi.exact hlost

section Demo

/-- A memtable with room for one row. -/
def demoTable : ConcurrentMemTable ℕ where
  rel := 0
  memtableId := 4
  capacity := 1
  currentSize := 0
  readyCnt := 0
  isSealed := false
  flushClaimed := false
  maxReadyId := none
  rows := fun _ => ⟨0, 0⟩
  bitmap := fun _ => false
  ready := fun _ => false
  writer := fun _ => none

/-- Shared memory as it is set up, with three processes. -/
def demoStart : State ℕ where
  slots := fun _ => ⟨0, demoTable, 0, false⟩
  indexes := []
  tasks := [.idle, .idle, .idle]
  lost := fun _ => 0

theorem start_demoStart : Start demoStart := by simp [Start, demoStart]

def demoLoad : Action ℕ := .load ⟨7, 1, some (0, demoTable), [], [], 5⟩

/-- One insert fills the memtable, another rotates it, while a search and a bulk delete hold
it; it is flushed, and its slot is free when the last of them is done. -/
def demoHeld : List (Action ℕ) :=
  [demoLoad, .insert 0 0 ⟨11, 0⟩, .run 0, .run 0, .run 0, .run 0,
    .search 1 0, .run 1, .bulkDelete 2 0, .run 2, .run 2,
    .insert 0 0 ⟨12, 0⟩, .run 0, .run 0, .run 0, .alloc 0 1, .run 0, .run 0, .run 0, .run 0,
    .run 0, .run 0, .run 0, .mask 2 0, .run 2, .run 2,
    .flush 0 0, .claim 0 0, .run 0, .run 0, .run 0, .run 0, .run 0, .run 0, .run 0, .run 0,
    .run 1]

theorem meets_demoHeld : Meets Careful step demoStart demoHeld := by decide +kernel

/-- The counts of a run in which the slot of a flushed memtable is free again. -/
theorem refCount_exact_demoHeld : ∃ s, exec step demoStart demoHeld = some s ∧ Exact s ∧
    s.refCount 0 = 0 ∧ s.refCount 1 = 1 := by
  have hview : (exec step demoStart demoHeld).map (fun s => (s.refCount 0, s.refCount 1)) =
      some (0, 1) := by decide +kernel
  obtain ⟨s, hs, hview⟩ := Option.map_eq_some_iff.mp hview
  have hcounts := Prod.ext_iff.mp hview
  exact ⟨s, hs, refCount_exact ((Reachable.start start_demoStart).of_exec meets_demoHeld hs),
    hcounts⟩

/-- The callback of a bulk delete raises an error. -/
def demoCallback : List (Action ℕ) :=
  [demoLoad, .insert 0 0 ⟨11, 0⟩, .run 0, .run 0, .run 0, .run 0,
    .bulkDelete 2 0, .run 2, .run 2, .error 2]

/-- A bulk delete that ends by an error leaves its reference behind: the growing memtable has two
references, its owner and nobody. -/
theorem not_refCount_exact :
    ¬ ∀ s : State ℕ, Reachable Start step anyStep s → Exact s := by
  intro hall
  have hview : (exec step demoStart demoCallback).map
      (fun s => (s.refCount 0, s.owners 0, s.users 0)) = some (2, 1, 0) := by decide +kernel
  obtain ⟨s, hs, hview⟩ := Option.map_eq_some_iff.mp hview
  have hreach := (Reachable.start start_demoStart).of_exec (meets_anyStep demoCallback) hs
  have hcount := (hall s hreach).counted 0
  simp only [Prod.mk.injEq] at hview
  omega

end Demo

end VectorLsm.MemtableBuffer
