import VectorLsm.MemtableBuffer.Machine

/-! # Owners and users of a slot

An index owns the slots of its growing memtable and of its queue, and those in the hands of a
rotation or of a flush that has taken one off the queue. Searches and bulk deletes use the slots
they have referenced. `Inv` says that the reference counts are made up of these.
-/

namespace VectorLsm

def GrowingIdx.slots : GrowingIdx → List SlotIdx
  | .slot g => [g]
  | _ => []

namespace MemtableBuffer

open Tally State

variable {V : Type*}

/-- The slots an index refers to. -/
def LSMIndex.owns (idx : LSMIndex) : List SlotIdx := idx.growingIdx.slots ++ idx.memtableIdxs

/-- The index a call is about. -/
def Task.index : Task V → Option ℕ
  | .idle => none
  | .insert n _ _ | .search n _ | .bulkDelete n _ | .flush n _ => some n

/-- The slots of its index that a call has in its hands. -/
def InsertPc.owns : InsertPc → List SlotIdx
  | .allocate cur => cur.toList
  | .register cur new | .announce cur new => new :: cur.toList
  | .enqueue cur new => [new, cur]
  | .install new => [new]
  | _ => []

def FlushPc.owns : FlushPc → List SlotIdx
  | .unlinked g => [g]
  | _ => []

def Task.owns : Task V → List SlotIdx
  | .insert _ _ pc => pc.owns
  | .flush _ pc => pc.owns
  | _ => []

def SearchPc.holds : SearchPc → List SlotIdx
  | .searching held => held
  | .snapshot => []

def BulkDeletePc.holds : BulkDeletePc → List SlotIdx
  | .check _ g _ | .lock _ g | .scan _ g | .unref _ g => [g]
  | _ => []

/-- The slots a call has referenced. -/
def Task.holds : Task V → List SlotIdx
  | .search _ pc => pc.holds
  | .bulkDelete _ pc => pc.holds
  | _ => []

/-- The memtables in the hands of a rotation that carry the name of its index. -/
def InsertPc.named : InsertPc → List SlotIdx
  | .allocate cur | .register cur _ => cur.toList
  | .announce cur new => new :: cur.toList
  | .enqueue cur new => [new, cur]
  | .install new => [new]
  | _ => []

def Task.named : Task V → List SlotIdx
  | .insert _ _ pc => pc.named
  | _ => []

/-- The call is a rotation that has set the growing index to `ROTATING`. -/
def InsertPc.rotating : InsertPc → Bool
  | .allocate _ | .register _ _ | .announce _ _ | .enqueue _ _ | .install _ => true
  | _ => false

def Task.rotates (n : ℕ) : Task V → ℕ
  | .insert m _ pc => if m = n ∧ pc.rotating then 1 else 0
  | _ => 0

namespace State

variable (s : State V) (g : SlotIdx)

/-- How often the indexes, and the calls for them, own the slot. -/
def owners : ℕ :=
  tally (fun idx => idx.owns.count g) s.indexes + tally (fun x => x.owns.count g) s.tasks

/-- The searches and bulk deletes that hold the slot. -/
def users : ℕ := tally (fun x => x.holds.count g) s.tasks

end State

/-- What holds in every reachable state, references forgotten by an error included. -/
structure Inv (s : State V) : Prop where
  counted : ∀ g, s.refCount g = s.owners g + s.users g + s.lost g
  owned : ∀ g, s.owners g ≤ 1
  rotating : ∀ n idx, s.indexes[n]? = some idx →
    tally (Task.rotates n) s.tasks = if idx.growingIdx = .rotating then 1 else 0
  known : ∀ (t : ℕ) x n, s.tasks[t]? = some x → x.index = some n → n < s.indexes.length
  related : ∀ (n : ℕ) idx, s.indexes[n]? = some idx →
    ∀ g ∈ idx.owns, (s.mt g).rel = idx.rel
  named : ∀ (t : ℕ) x (n : ℕ) idx, s.tasks[t]? = some x → x.index = some n →
    s.indexes[n]? = some idx → ∀ g ∈ x.named, (s.mt g).rel = idx.rel
  checked : ∀ (t n : ℕ) idx c g id, s.tasks[t]? = some (.bulkDelete n (.check c g id)) →
    s.indexes[n]? = some idx → (s.mt g).rel = idx.rel ∧ (s.mt g).memtableId = id
  fresh : ∀ (t n : ℕ) r cur new, s.tasks[t]? = some (.insert n r (.register cur new)) →
    s.users new = 0

section Change

variable {s s' : State V} {t n : ℕ} {x y : Task V} {idx idx' : LSMIndex}

/-- A step of the call `t` on the index `n`: nothing else is written but slots. -/
structure Local (s s' : State V) (t n : ℕ) (x y : Task V) (idx idx' : LSMIndex) : Prop where
  task : s.tasks[t]? = some x
  index : s.indexes[n]? = some idx
  tasks : s'.tasks = s.tasks.set t y
  indexes : s'.indexes = s.indexes.set n idx'
  before : x.index = none ∨ x.index = some n
  after : y.index = none ∨ y.index = some n

namespace Local

theorem task_iff (h : Local s s' t n x y idx idx') {u : ℕ} {z : Task V} :
    s'.tasks[u]? = some z ↔ u = t ∧ z = y ∨ u ≠ t ∧ s.tasks[u]? = some z := by
  rw [h.tasks]
  exact getElem?_set_iff h.task

theorem index_iff (h : Local s s' t n x y idx idx') {m : ℕ} {d : LSMIndex} :
    s'.indexes[m]? = some d ↔ m = n ∧ d = idx' ∨ m ≠ n ∧ s.indexes[m]? = some d := by
  rw [h.indexes]
  exact getElem?_set_iff h.index

end Local

/-- What a step of the call `t` on the index `n` does, as far as owners and users go. -/
structure Change (s s' : State V) (t n : ℕ) (x y : Task V) (idx idx' : LSMIndex) : Prop where
  task : s.tasks[t]? = some x
  index : s.indexes[n]? = some idx
  tasks : s'.tasks = s.tasks.set t y
  indexes : s'.indexes = s.indexes.set n idx'
  before : x.index = none ∨ x.index = some n
  after : y.index = none ∨ y.index = some n
  count : ∀ g, s'.refCount g + (x.owns.count g + idx.owns.count g + x.holds.count g + s.lost g) =
    s.refCount g + (y.owns.count g + idx'.owns.count g + y.holds.count g + s'.lost g)
  owns : ∀ g, y.owns.count g + idx'.owns.count g ≤ x.owns.count g + idx.owns.count g ∨
    s.refCount g = 0 ∧ y.owns.count g + idx'.owns.count g ≤ 1
  rotates : y.rotates n + (if idx.growingIdx = .rotating then 1 else 0) =
    x.rotates n + if idx'.growingIdx = .rotating then 1 else 0
  rel : idx'.rel = idx.rel
  holds : ∀ g, y.holds.count g ≤ x.holds.count g ∨ g ∈ idx.owns
  /-- A memtable keeps its names, unless the call has it in its hands and nobody uses it. -/
  names : ∀ g, ((s'.mt g).rel = (s.mt g).rel ∧ (s'.mt g).memtableId = (s.mt g).memtableId) ∨
    g ∈ x.owns ∧ s.users g = 0
  related : ∀ g ∈ idx'.owns, (s'.mt g).rel = idx.rel
  named : ∀ g ∈ y.named, (s'.mt g).rel = idx.rel
  checked : ∀ m c g id, y = .bulkDelete m (.check c g id) →
    (s'.mt g).rel = idx.rel ∧ (s'.mt g).memtableId = id
  fresh : ∀ m r cur new, y = .insert m r (.register cur new) → s.users new = 0

theorem Task.rotates_of_index {m : ℕ} (hx : x.index = none ∨ x.index = some n) (hm : m ≠ n) :
    x.rotates m = 0 := by
  cases x <;> simp_all [Task.index, Task.rotates, Ne.symm]

namespace Change

theorem toLocal (h : Change s s' t n x y idx idx') : Local s s' t n x y idx idx' :=
  ⟨h.task, h.index, h.tasks, h.indexes, h.before, h.after⟩

theorem owners (h : Change s s' t n x y idx idx') (g : SlotIdx) :
    s'.owners g + (x.owns.count g + idx.owns.count g) =
      s.owners g + (y.owns.count g + idx'.owns.count g) := by
  have htasks := tally_set (fun x : Task V => x.owns.count g) h.task y
  have hindexes := tally_set (fun idx => idx.owns.count g) h.index idx'
  simp only [State.owners, h.tasks, h.indexes]
  omega

theorem users (h : Change s s' t n x y idx idx') (g : SlotIdx) :
    s'.users g + x.holds.count g = s.users g + y.holds.count g := by
  have htasks := tally_set (fun x : Task V => x.holds.count g) h.task y
  simp only [State.users, h.tasks]
  omega

end Change

namespace Inv

theorem index_owned (h : Inv s) {m : ℕ} {d : LSMIndex} (hd : s.indexes[m]? = some d)
    (g : SlotIdx) :
    d.owns.count g + tally (fun x => x.owns.count g) s.tasks ≤ 1 := by
  have := le_tally (fun idx => idx.owns.count g) hd
  have := h.owned g
  simp only [State.owners] at this
  omega

/-- A slot in the hands of one call is in no index and in the hands of no other call. -/
theorem not_owned (h : Inv s) (ht : s.tasks[t]? = some x) {g : SlotIdx} (hg : g ∈ x.owns) :
    (∀ (m : ℕ) d, s.indexes[m]? = some d → g ∉ d.owns) ∧
      ∀ (u : ℕ) z, s.tasks[u]? = some z → u ≠ t → g ∉ z.owns := by
  have hpos := List.count_pos_iff.mpr hg
  have howned := h.owned g
  simp only [State.owners] at howned
  constructor
  · intro m d hd hgd
    have hd := le_tally (fun idx => idx.owns.count g) hd
    have hx := le_tally (fun x => x.owns.count g) ht
    have := List.count_pos_iff.mpr hgd
    omega
  · intro u z hu hne hgz
    have := add_le_tally (fun x => x.owns.count g) hu ht hne
    have := List.count_pos_iff.mpr hgz
    omega

end Inv

theorem Task.named_subset {g : SlotIdx} (hg : g ∈ x.named) : g ∈ x.owns := by
  cases x with
  | insert n r pc => cases pc <;> simp_all [Task.named, Task.owns, InsertPc.named, InsertPc.owns]
  | _ => simp [Task.named] at hg

namespace Inv

/-- A step of one call keeps the invariant. -/
theorem change (h : Inv s) (hc : Change s s' t n x y idx idx') : Inv s' := by
  have hnames : ∀ g,
      ((s'.mt g).rel = (s.mt g).rel ∧ (s'.mt g).memtableId = (s.mt g).memtableId) ∨
      s.users g = 0 ∧ (∀ (m : ℕ) d, s.indexes[m]? = some d → g ∉ d.owns) ∧
        ∀ (u : ℕ) z, s.tasks[u]? = some z → u ≠ t → g ∉ z.owns := fun g =>
    (hc.names g).imp_right fun hg => ⟨hg.2, h.not_owned hc.task hg.1⟩
  have hlen : s'.indexes.length = s.indexes.length := by simp [hc.indexes]
  have hn : n < s.indexes.length := (List.getElem?_eq_some_iff.mp hc.index).1
  constructor
  case counted =>
    intro g
    have := h.counted g
    have := hc.count g
    have := hc.owners g
    have := hc.users g
    omega
  case owned =>
    intro g
    have hcount := h.counted g
    have hmoved := hc.owners g
    have hle := h.owned g
    rcases hc.owns g with hg | ⟨hzero, hg⟩ <;> omega
  case rotating =>
    intro m d hd
    rw [hc.tasks]
    have htasks := tally_set (Task.rotates m) hc.task y
    rcases hc.toLocal.index_iff.mp hd with ⟨rfl, rfl⟩ | ⟨hm, hd⟩
    · have := h.rotating m idx hc.index
      have := hc.rotates
      omega
    · have := h.rotating m d hd
      rw [Task.rotates_of_index hc.before hm, Task.rotates_of_index hc.after hm] at htasks
      omega
  case known =>
    intro u z m hu hm
    rw [hlen]
    rcases hc.toLocal.task_iff.mp hu with ⟨-, rfl⟩ | ⟨-, hu⟩
    · rcases hc.after with hy | hy
      · simp [hy] at hm
      · obtain rfl : n = m := by simpa [hy] using hm
        exact hn
    · exact h.known u z m hu hm
  case related =>
    intro m d hd g hg
    rcases hc.toLocal.index_iff.mp hd with ⟨-, rfl⟩ | ⟨-, hd⟩
    · rw [hc.rel]
      exact hc.related g hg
    · rcases hnames g with hsame | ⟨-, hidx, -⟩
      · rw [hsame.1]
        exact h.related m d hd g hg
      · exact absurd hg (hidx m d hd)
  case named =>
    intro u z m d hu hz hd g hg
    have hrel : ∃ d', s.indexes[m]? = some d' ∧ d.rel = d'.rel := by
      rcases hc.toLocal.index_iff.mp hd with ⟨rfl, rfl⟩ | ⟨-, hd⟩
      · exact ⟨idx, hc.index, hc.rel⟩
      · exact ⟨d, hd, rfl⟩
    obtain ⟨d', hd', hrel⟩ := hrel
    rw [hrel]
    rcases hc.toLocal.task_iff.mp hu with ⟨-, rfl⟩ | ⟨hne, hu⟩
    · rcases hc.after with hy | hy
      · simp [hy] at hz
      · obtain rfl : n = m := by simpa [hy] using hz
        obtain rfl : idx = d' := Option.some.inj (hc.index.symm.trans hd')
        exact hc.named g hg
    · rcases hnames g with hsame | ⟨-, -, hother⟩
      · rw [hsame.1]
        exact h.named u z m d' hu hz hd' g hg
      · exact absurd (Task.named_subset hg) (hother u z hu hne)
  case checked =>
    intro u m d c g id hu hd
    have hrel : ∃ d', s.indexes[m]? = some d' ∧ d.rel = d'.rel := by
      rcases hc.toLocal.index_iff.mp hd with ⟨rfl, rfl⟩ | ⟨-, hd⟩
      · exact ⟨idx, hc.index, hc.rel⟩
      · exact ⟨d, hd, rfl⟩
    obtain ⟨d', hd', hrel⟩ := hrel
    rw [hrel]
    rcases hc.toLocal.task_iff.mp hu with ⟨-, hy⟩ | ⟨hne, hu⟩
    · have hafter := hc.after
      rw [← hy] at hafter
      obtain rfl : m = n := by simpa [Task.index] using hafter
      obtain rfl : idx = d' := Option.some.inj (hc.index.symm.trans hd')
      exact hc.checked m c g id hy.symm
    · rcases hnames g with hsame | ⟨hzero, -, -⟩
      · rw [hsame.1, hsame.2]
        exact h.checked u m d' c g id hu hd'
      · have hle := le_tally (fun x : Task V => x.holds.count g) hu
        have hone : (Task.bulkDelete m (.check c g id) : Task V).holds.count g = 1 := by
          simp [Task.holds, BulkDeletePc.holds]
        simp only [State.users] at hzero
        omega
  case fresh =>
    intro u m r cur new hu
    have husers := hc.users new
    have hhand : ∀ {v : ℕ} {z : Task V}, s.tasks[v]? = some z → new ∈ z.owns →
        new ∉ idx.owns := fun hv hz => (h.not_owned hv hz).1 n idx hc.index
    rcases hc.toLocal.task_iff.mp hu with ⟨-, hy⟩ | ⟨hne, hu⟩
    · have := hc.fresh m r cur new hy.symm
      have hholds : y.holds = [] := by rw [← hy]; rfl
      simp only [hholds, List.count_nil] at husers
      omega
    · have hzero := h.fresh u m r cur new hu
      rcases hc.holds new with hle | hidx
      · omega
      · exact absurd hidx (hhand hu (by simp [Task.owns, InsertPc.owns]))

end Inv

end Change

end MemtableBuffer

end VectorLsm
