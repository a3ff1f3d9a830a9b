import VectorLsm.Lib.Prefix
import VectorLsm.Slots.Machine

/-! # What the log says of the slots

A slot and a row are logged together once, after the row was listed on the status pages of the
memtable.
-/

namespace VectorLsm.Slots

open Recovery

variable {wal wal' : List Record} {r : Record} {sid : SegmentId} {i j : ℕ} {t t' : Tid}

section Projections

@[simp] theorem listed_append : listed (wal ++ wal') sid = listed wal sid ++ listed wal' sid :=
  List.filterMap_append

@[simp] theorem added_append : added (wal ++ wal') sid = added wal sid ++ added wal' sid :=
  List.filterMap_append

@[simp] theorem heap_append : heap (wal ++ wal') = heap wal ++ heap wal' := List.filterMap_append

theorem pages_concat : pages (wal ++ [r]) = redoPages (pages wal) r := by
  simp [pages, List.foldl_append]

theorem mem_listed_singleton : t ∈ listed [r] sid ↔ r = .addStatus sid t := by
  cases r <;> simp [listed, eq_comm]

theorem mem_added_singleton : (i, t) ∈ added [r] sid ↔ r = .addToMemtable sid i t := by
  cases r <;> simp [added, eq_comm]

theorem mem_heap_singleton : t ∈ heap [r] ↔ r = .heapInsert t := by
  cases r <;> simp [heap, eq_comm]

theorem listed_take (n : ℕ) : listed (wal.take n) sid <+: listed wal sid :=
  (List.take_prefix n wal).filterMap _

theorem mem_added_of_take {n : ℕ} (h : (i, t) ∈ added (wal.take n) sid) : (i, t) ∈ added wal sid :=
  ((List.take_prefix n wal).filterMap _).subset h

theorem listed_getElem_of_take {n : ℕ} (h : (listed (wal.take n) sid)[j]? = some t) :
    (listed wal sid)[j]? = some t := by
  obtain ⟨l, hl⟩ := @listed_take wal sid n
  obtain ⟨hj, -⟩ := List.getElem?_eq_some_iff.mp h
  rw [← hl, List.getElem?_append_left hj]
  exact h

end Projections

/-- The record may come next in the log. -/
def Fits (wal : List Record) : Record → Prop
  | .indexCreate => wal = []
  | .updateMaxSid sid => ∀ x ∈ (pages wal).memtables, x ≤ sid
  | .statusRegister sid => sid ≤ (pages wal).maxMemtableSid
  | .registerMemtable sid => listed wal sid = []
  | .addStatus sid t => sid ∈ (pages wal).memtables ∧ t ∈ heap wal
  | .addToMemtable sid i t => t ∈ listed wal sid ∧ ∀ j t', (j, t') ∈ added wal sid → j ≠ i ∧ t' ≠ t
  | .heapInsert _ | .heapPrune _ => True

/-- What is known of a log. -/
structure Logged (wal : List Record) : Prop where
  /-- A row is listed before its slot is logged. -/
  listed_of_added : ∀ sid i t, (i, t) ∈ added wal sid → t ∈ listed wal sid
  row_unique : ∀ sid i t t', (i, t) ∈ added wal sid → (i, t') ∈ added wal sid → t = t'
  slot_unique : ∀ sid i j t, (i, t) ∈ added wal sid → (j, t) ∈ added wal sid → i = j
  heap_of_listed : ∀ sid t, t ∈ listed wal sid → t ∈ heap wal
  registered_of_listed : ∀ sid t, t ∈ listed wal sid → sid ∈ (pages wal).memtables
  le_max : ∀ sid ∈ (pages wal).memtables, sid ≤ (pages wal).maxMemtableSid
  created : ∀ sid, wal.getLast? = some (.registerMemtable sid) → listed wal sid = []

namespace Logged

theorem nil : Logged [] := by
  constructor <;> simp [added, listed, pages]

theorem concat (h : Logged wal) (hr : Fits wal r) : Logged (wal ++ [r]) where
  listed_of_added := by
    intro sid i t ht
    rw [added_append, List.mem_append, mem_added_singleton] at ht
    rw [listed_append, List.mem_append]
    rcases ht with ht | rfl
    · exact Or.inl (h.listed_of_added sid i t ht)
    · exact Or.inl hr.1
  row_unique := by
    intro sid i t t' ht ht'
    rw [added_append, List.mem_append, mem_added_singleton] at ht ht'
    rcases ht with ht | rfl <;> rcases ht' with ht' | ht'
    · exact h.row_unique sid i t t' ht ht'
    · subst ht'
      exact absurd rfl (hr.2 i t ht).1
    · exact absurd rfl (hr.2 i t' ht').1
    · cases ht'
      rfl
  slot_unique := by
    intro sid i j t ht ht'
    rw [added_append, List.mem_append, mem_added_singleton] at ht ht'
    rcases ht with ht | rfl <;> rcases ht' with ht' | ht'
    · exact h.slot_unique sid i j t ht ht'
    · subst ht'
      exact absurd rfl (hr.2 i t ht).2
    · exact absurd rfl (hr.2 j t ht').2
    · cases ht'
      rfl
  heap_of_listed := by
    intro sid t ht
    rw [listed_append, List.mem_append, mem_listed_singleton] at ht
    rw [heap_append, List.mem_append]
    rcases ht with ht | rfl
    · exact Or.inl (h.heap_of_listed sid t ht)
    · exact Or.inl hr.2
  registered_of_listed := by
    intro sid t ht
    rw [listed_append, List.mem_append, mem_listed_singleton] at ht
    rw [pages_concat]
    rcases ht with ht | rfl
    · have hmem := h.registered_of_listed sid t ht
      cases r with
      | indexCreate =>
          obtain rfl : wal = [] := hr
          cases ht
      | statusRegister sid' => exact List.mem_append_left _ hmem
      | _ => exact hmem
    · exact hr.1
  le_max := by
    intro sid hs
    rw [pages_concat] at hs ⊢
    cases r with
    | indexCreate => cases hs
    | updateMaxSid sid' => exact hr sid hs
    | statusRegister sid' =>
        rcases List.mem_append.mp hs with hs | hs
        · exact h.le_max sid hs
        · obtain rfl := List.mem_singleton.mp hs
          exact hr
    | _ => exact h.le_max sid hs
  created := by
    intro sid hs
    rw [List.getLast?_append_of_ne_nil _ (List.cons_ne_nil _ _)] at hs
    obtain rfl : r = .registerMemtable sid := Option.some.inj hs
    rw [listed_append]
    exact List.append_eq_nil_iff.mpr ⟨hr, rfl⟩

theorem added_of_listed_nil (h : Logged wal) (hl : listed wal sid = []) :
    (i, t) ∉ added wal sid := by
  intro ht
  have hmem := h.listed_of_added sid i t ht
  rw [hl] at hmem
  cases hmem

theorem listed_nil (h : Logged wal) (hs : sid ∉ (pages wal).memtables) : listed wal sid = [] := by
  by_contra hne
  obtain ⟨t, ht⟩ := List.exists_mem_of_ne_nil _ hne
  exact hs (h.registered_of_listed sid t ht)

end Logged

/-- A recovery that reads the status pages of `pre` finds each row in the heap and at its logged
slot, in a memtable that has room. -/
def Exact (pre wal : List Record) (cap : ℕ) : Prop :=
  ∀ sid ∈ (pages pre).memtables, (listed pre sid).length ≤ cap ∧
    ∀ p ∈ (listed pre sid).zipIdx, inHeap pre p.1 = true ∧ (p.2, p.1) ∈ added wal sid

instance (pre wal : List Record) (cap : ℕ) : Decidable (Exact pre wal cap) := by
  unfold Exact
  infer_instance

section Rebuild

variable {pre : List Record} {cap : ℕ} {growing : Option SegmentId} {tids : List Tid}

/-- The rows are in the order in which they were appended. -/
theorem foldl_append_fresh : (tids.foldl Table.append (.fresh cap)).capacity = cap ∧
    (tids.foldl Table.append (.fresh cap)).currentSize = tids.length ∧
    ∀ i, (tids.foldl Table.append (.fresh cap)).tids i = tids[i]? := by
  induction tids using List.reverseRecOn with
  | nil => exact ⟨rfl, rfl, fun _ => rfl⟩
  | append_singleton tids t ih =>
      obtain ⟨hc, hs, ht⟩ := ih
      rw [List.foldl_append, List.foldl_cons, List.foldl_nil]
      refine ⟨hc, ?_, fun i => ?_⟩
      · rw [Table.append_currentSize, hs, List.length_append, List.length_singleton]
      · rw [Table.append_tids, hs, List.getElem?_append]
        split
        next hlt => rw [Function.update_of_ne hlt.ne, ht]
        next hge =>
          rcases eq_or_ne i tids.length with rfl | hne
          · simp
          · rw [Function.update_of_ne hne, ht, List.getElem?_eq_none (not_lt.mp hge),
              List.getElem?_eq_none]
            rw [List.length_singleton]
            omega

theorem Exact.at (h : Exact pre wal cap) (hl : (listed pre sid)[i]? = some t)
    (hs : sid ∈ (pages pre).memtables) : inHeap pre t = true ∧ (i, t) ∈ added wal sid :=
  (h sid hs).2 (t, i) (List.mem_zipIdx_iff_getElem?.mpr hl)

/-- An exact recovery leaves no row out. -/
theorem rebuildTables_spec (h : Exact pre wal cap) (hpre : Logged pre) :
    (State.rebuildTables pre cap growing sid).capacity = cap ∧
      (State.rebuildTables pre cap growing sid).currentSize = (listed pre sid).length ∧
      ∀ i, (State.rebuildTables pre cap growing sid).tids i = (listed pre sid)[i]? := by
  have hfilter : (listed pre sid).filter (inHeap pre) = listed pre sid := by
    rw [List.filter_eq_self]
    intro t ht
    obtain ⟨i, hi⟩ := List.mem_iff_getElem?.mp ht
    exact (h.at hi (hpre.registered_of_listed sid t ht)).1
  unfold State.rebuildTables Table.rebuild
  rw [hfilter]
  exact foldl_append_fresh

end Rebuild

end VectorLsm.Slots
