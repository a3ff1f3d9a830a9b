import VectorLsm.MemtableBuffer.Entries

/-! # The books of a new index

An index that is built or recovered starts with its books in order and leaves those of the others
alone.
-/

namespace VectorLsm.MemtableBuffer

open Tally State

variable {V : Type*} {s s' : State V} {d : Loaded V} {n m t : ℕ} {x : Task V} {idx : LSMIndex}
  {g : SlotIdx}

theorem Lives.owned (h : Lives s m g) : 0 < s.owners g := by
  rcases h with ⟨idx, hn, hg⟩ | ⟨t, x, ht, -, hg⟩
  · have hle := le_tally (fun idx => idx.owns.count g) hn
    have := List.count_pos_iff.mpr hg
    simp only [owners]
    omega
  · have hle := le_tally (fun x : Task V => x.owns.count g) ht
    have := List.count_pos_iff.mpr (Task.named_subset hg)
    simp only [owners]
    omega

/-- What a loaded index finds and leaves. -/
structure Opened (s s' : State V) (d : Loaded V) : Prop where
  fits : d.Fits
  tasks : s'.tasks = s.tasks
  indexes : s'.indexes = s.indexes ++ [d.index]
  known : ∀ (t : ℕ) (x : Task V) n, s.tasks[t]? = some x → x.index = some n →
    n ≠ s.indexes.length
  free : ∀ g ∈ d.index.owns, s.owners g = 0
  others : ∀ g, g ∉ d.index.owns → s'.mt g = s.mt g
  names : ∀ m ∈ d.memtables, (s'.mt m.1).memtableId = m.2.memtableId

theorem opened (hi : Inv s) (hs : load s d = some s') : Opened s s' d := by
  simp only [load] at hs
  split at hs
  next hfits =>
    obtain ⟨u, hu, rfl⟩ := Option.map_eq_some_iff.mp hs
    have hp := placed hu
    constructor
    case fits => exact hfits
    case tasks => exact hp.tasks
    case indexes => rw [← hp.indexes]
    case known => exact fun t x n ht hx => (hi.known t x n ht hx).ne
    case free =>
      intro g hg
      have := hi.counted g
      have := hp.free g (d.index_owns ▸ hg)
      omega
    case others => exact fun g hg => hp.others g (d.index_owns ▸ hg)
    case names => exact fun m hm => (hp.names m hm).2.1
  next => cases hs

namespace Opened

theorem index_new (h : Opened s s' d) : s'.indexes[s.indexes.length]? = some d.index := by
  simp [h.indexes]

theorem index_old (h : Opened s s' d) (hm : m ≠ s.indexes.length) :
    s'.indexes[m]? = s.indexes[m]? := by
  rw [h.indexes]
  rcases lt_or_ge m s.indexes.length with hlt | hge
  · rw [List.getElem?_append_left hlt]
  · rw [List.getElem?_eq_none hge, List.getElem?_eq_none]
    simp only [List.length_append, List.length_singleton]
    omega

theorem lives_old (h : Opened s s' d) (hm : m ≠ s.indexes.length) (g : SlotIdx) :
    Lives s' m g ↔ Lives s m g := by
  simp only [Lives, h.tasks, h.index_old hm]

theorem lives_new (h : Opened s s' d) (g : SlotIdx) :
    Lives s' s.indexes.length g ↔ g ∈ d.index.owns := by
  constructor
  · rintro (⟨idx, hn, hg⟩ | ⟨t, x, ht, hx, hg⟩)
    · obtain rfl : d.index = idx := Option.some.inj (h.index_new.symm.trans hn)
      exact hg
    · exact absurd rfl (h.known t x _ (h.tasks ▸ ht) hx)
  · exact fun hg => Or.inl ⟨_, h.index_new, hg⟩

theorem kept (h : Opened s s' d) (hg : Lives s m g) : s'.mt g = s.mt g :=
  h.others g fun hmem => absurd (h.free g hmem) hg.owned.ne'

/-- No call is about the new index. -/
theorem tally_eq_zero (h : Opened s s' d) {f : Task V → ℕ}
    (hf : ∀ x : Task V, x.index ≠ some s.indexes.length → f x = 0) : tally f s'.tasks = 0 := by
  rw [h.tasks]
  refine (Tally.tally_eq_zero f).mpr fun x hx => hf x fun hindex => ?_
  obtain ⟨t, ht⟩ := List.mem_iff_getElem?.mp hx
  exact h.known t x _ ht hindex rfl

theorem claims (h : Opened s s' d) (hc : Claims s) : Claims s' := by
  constructor
  case claimed =>
    intro g
    rw [h.tasks]
    by_cases hg : g ∈ d.index.owns
    · have hzero : tally (Task.claims g) s.tasks = 0 := by
        by_contra hne
        obtain ⟨t, x, ht, hx⟩ := exists_of_tally_pos _ (Nat.pos_of_ne_zero hne)
        cases x with
        | flush n pc =>
            have hlive : Lives s n g := hc.lives ht hx
            exact absurd (h.free g hg) hlive.owned.ne'
        | _ => exact absurd hx (lt_irrefl 0)
      omega
    · rw [h.others g hg]
      exact hc.claimed g
  case queued =>
    intro t n pc g ht hpc
    have ht : s.tasks[t]? = some (.flush n pc) := h.tasks ▸ ht
    rw [h.index_old (h.known t _ n ht rfl)]
    exact hc.queued t n pc g ht hpc

theorem still (h : Opened s s' d) (hm : m ≠ s.indexes.length) : Still s s' m := by
  constructor
  case lives => exact h.lives_old hm
  case names => exact fun g hg => by rw [h.kept hg]
  case batch => exact fun sid => by rw [h.tasks]
  case releases => rw [h.tasks]
  case tracked => exact fun g => by rw [h.tasks]
  case announced => exact fun t r cur new ht => ⟨t, h.tasks ▸ ht⟩

/-- The status array of the new index lists its memtables and what it has recorded. -/
theorem books (h : Opened s s' d) : Books s' s.indexes.length d.index := by
  obtain ⟨-, hcovered, hnodup, hbelow⟩ := h.fits
  obtain ⟨hids, hnodup', hdisjoint⟩ := List.nodup_append.mp hnodup
  have hmem : ∀ g, Lives s' s.indexes.length g → ∃ m ∈ d.memtables, m.1 = g := by
    intro g hg
    have hg := (h.lives_new g).mp hg
    rw [d.index_owns] at hg
    exact List.mem_map.mp hg
  constructor
  case accounted =>
    intro sid hsid
    have hsid : sid ∈ d.sids := hsid
    rcases List.mem_append.mp hsid with hsid | hsid
    · obtain ⟨m, hm, rfl⟩ := List.mem_map.mp hsid
      refine Or.inl ⟨m.1, (h.lives_new m.1).mpr ?_, h.names m hm⟩
      rw [d.index_owns]
      exact List.mem_map_of_mem hm
    · exact Or.inr ⟨hsid, List.not_mem_nil⟩
  case balanced =>
    intro sid
    have hzero : tally (fun x => (x.batch s.indexes.length).count sid) s'.tasks = 0 :=
      h.tally_eq_zero fun x hx => by rw [Task.batch_of_index hx, List.count_nil]
    rw [State.pending, hzero]
    rfl
  case once => exact hnodup'
  case releasing => exact h.tally_eq_zero fun x hx => Task.releases_of_index hx
  case short => exact hcovered
  case nodup => exact hnodup
  case gone => exact fun sid hsid => absurd hsid List.not_mem_nil
  case below => exact fun sid hsid => hbelow sid (List.mem_append_right _ hsid)
  case lives =>
    intro g hg
    obtain ⟨m, hm, rfl⟩ := hmem g hg
    rw [h.names m hm]
    exact hbelow _ (List.mem_append_left _ (List.mem_map_of_mem hm))
  case distinct =>
    intro g g' hg hg' heq
    obtain ⟨m, hm, rfl⟩ := hmem g hg
    obtain ⟨m', hm', rfl⟩ := hmem g' hg'
    rw [h.names m hm, h.names m' hm'] at heq
    rw [List.inj_on_of_nodup_map hids hm hm' heq]
  case tracked =>
    intro g hg hf
    obtain ⟨m, hm, rfl⟩ := hmem g hg
    rw [h.names m hm] at hf
    exact absurd rfl (hdisjoint _ (List.mem_map_of_mem hm) _ hf)
  case recorded => exact fun t g ht => absurd rfl (h.known t _ _ (h.tasks ▸ ht) rfl)
  case announced => exact fun t r cur new ht => absurd rfl (h.known t _ _ (h.tasks ▸ ht) rfl)

end Opened

/-- A built or recovered index has its books in order. -/
theorem Ledger.load (hl : Ledger s) (hi : Inv s) (hs : load s d = some s') : Ledger s' := by
  have h := opened hi hs
  constructor
  case claims => exact h.claims hl.claims
  case books =>
    intro n idx hn
    by_cases hne : n = s.indexes.length
    · subst hne
      obtain rfl : d.index = idx := Option.some.inj (h.index_new.symm.trans hn)
      exact h.books
    · rw [h.index_old hne] at hn
      exact (hl.books n idx hn).still hl.claims (h.still hne) (SameBooks.refl idx)

end VectorLsm.MemtableBuffer
