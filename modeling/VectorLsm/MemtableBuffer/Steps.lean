import VectorLsm.MemtableBuffer.Owners

/-! # The steps of the buffer

Each step of an insert, a search, a bulk delete or a flush is a change of owners and users that
the counts of the slots follow.
-/

namespace VectorLsm.MemtableBuffer

open Tally State

variable {V : Type*} {s s' : State V} {t n : ℕ} {x y : Task V} {idx idx' : LSMIndex} {r : Row V}
  {g : SlotIdx}

/-- The condition on a rotation without `need_enqueue`: the growing index is no slot. -/
def FreshRotation (s : State V) : Action V → Prop
  | .run t =>
      match s.tasks[t]? with
      | some (.insert n _ (.rotate false)) =>
          match s.indexes[n]? with
          | some idx => idx.growingIdx.slots = []
          | none => True
      | _ => True
  | _ => True

instance (s : State V) (a : Action V) : Decidable (FreshRotation s a) := by
  cases a with
  | run t =>
      unfold FreshRotation
      dsimp only
      split
      next n r _ => cases s.indexes[n]? <;> infer_instance
      next => infer_instance
  | _ => exact .isTrue trivial

section Foldl

variable (held : List SlotIdx)

@[simp] theorem foldl_addRef_refCount :
    (held.foldl addRef s).refCount g = s.refCount g + held.count g := by
  induction held generalizing s with
  | nil => rfl
  | cons a held ih =>
      rw [List.foldl_cons, ih, addRef_refCount]
      by_cases hg : g = a
      · subst hg
        simp only [if_true, List.count_cons_self]
        omega
      · simp [hg, Ne.symm hg]

@[simp] theorem foldl_addRef_mt : (held.foldl addRef s).mt g = s.mt g := by
  induction held generalizing s with
  | nil => rfl
  | cons a held ih => rw [List.foldl_cons, ih, addRef_mt]

@[simp] theorem foldl_addRef_tasks : (held.foldl addRef s).tasks = s.tasks := by
  induction held generalizing s with
  | nil => rfl
  | cons a held ih => rw [List.foldl_cons, ih, addRef_tasks]

@[simp] theorem foldl_addRef_indexes : (held.foldl addRef s).indexes = s.indexes := by
  induction held generalizing s with
  | nil => rfl
  | cons a held ih => rw [List.foldl_cons, ih, addRef_indexes]

@[simp] theorem foldl_addRef_lost : (held.foldl addRef s).lost = s.lost := by
  induction held generalizing s with
  | nil => rfl
  | cons a held ih =>
      rw [List.foldl_cons, ih]
      rfl

@[simp] theorem foldl_dropRef_refCount :
    (held.foldl dropRef s).refCount g = s.refCount g - held.count g := by
  induction held generalizing s with
  | nil => rfl
  | cons a held ih =>
      rw [List.foldl_cons, ih, dropRef_refCount]
      by_cases hg : g = a
      · subst hg
        simp only [if_true, List.count_cons_self]
        omega
      · simp [hg, Ne.symm hg]

@[simp] theorem foldl_dropRef_mt : (held.foldl dropRef s).mt g = s.mt g := by
  induction held generalizing s with
  | nil => rfl
  | cons a held ih => rw [List.foldl_cons, ih, dropRef_mt]

@[simp] theorem foldl_dropRef_tasks : (held.foldl dropRef s).tasks = s.tasks := by
  induction held generalizing s with
  | nil => rfl
  | cons a held ih => rw [List.foldl_cons, ih, dropRef_tasks]

@[simp] theorem foldl_dropRef_indexes : (held.foldl dropRef s).indexes = s.indexes := by
  induction held generalizing s with
  | nil => rfl
  | cons a held ih => rw [List.foldl_cons, ih, dropRef_indexes]

@[simp] theorem foldl_dropRef_lost : (held.foldl dropRef s).lost = s.lost := by
  induction held generalizing s with
  | nil => rfl
  | cons a held ih =>
      rw [List.foldl_cons, ih]
      rfl

end Foldl

namespace Inv

/-- What a call has referenced or in its hands is counted. -/
theorem le_refCount (h : Inv s) (ht : s.tasks[t]? = some x) (g : SlotIdx) :
    x.owns.count g + x.holds.count g ≤ s.refCount g := by
  have hc := h.counted g
  have howns := le_tally (fun x : Task V => x.owns.count g) ht
  have hholds := le_tally (fun x : Task V => x.holds.count g) ht
  simp only [owners, users] at hc
  omega

end Inv

/-- The call goes on to a point where it owns, holds and rotates the same. -/
structure Quiet (n : ℕ) (x y : Task V) : Prop where
  before : x.index = none ∨ x.index = some n
  after : y.index = none ∨ y.index = some n
  owns : y.owns = x.owns
  holds : y.holds = x.holds
  named : y.named ⊆ x.named
  rotates : y.rotates n = x.rotates n
  checked : ∀ m c g id, y ≠ .bulkDelete m (.check c g id)
  fresh : ∀ m r cur new, y ≠ .insert m r (.register cur new)

namespace Quiet

theorem insert {pc pc' : InsertPc} (howns : pc'.owns = pc.owns) (hnamed : pc'.named ⊆ pc.named)
    (hrotating : pc'.rotating = pc.rotating) (hfresh : ∀ cur new, pc' ≠ .register cur new) :
    Quiet n (.insert n r pc) (.insert n r pc') where
  before := Or.inr rfl
  after := Or.inr rfl
  owns := howns
  holds := rfl
  named := hnamed
  rotates := by simp [Task.rotates, hrotating]
  checked := by simp
  fresh := by
    rintro m r' cur new ⟨⟩
    exact hfresh cur new rfl

theorem bulkDelete {pc pc' : BulkDeletePc} (hholds : pc'.holds = pc.holds)
    (hcheck : ∀ c g id, pc' ≠ .check c g id) :
    Quiet (V := V) n (.bulkDelete n pc) (.bulkDelete n pc') where
  before := Or.inr rfl
  after := Or.inr rfl
  owns := rfl
  holds := hholds
  named := List.Subset.refl _
  rotates := rfl
  checked := by
    rintro m c g id ⟨⟩
    exact hcheck c g id rfl
  fresh := by simp

theorem flush {pc pc' : FlushPc} (howns : pc'.owns = pc.owns) :
    Quiet (V := V) n (.flush n pc) (.flush n pc') where
  before := Or.inr rfl
  after := Or.inr rfl
  owns := howns
  holds := rfl
  named := List.Subset.refl _
  rotates := rfl
  checked := by simp
  fresh := by simp

/-- The call ends with nothing left. -/
theorem idle (hx : x.index = none ∨ x.index = some n) (howns : x.owns = [])
    (hholds : x.holds = []) (hrotates : x.rotates n = 0) : Quiet n x .idle where
  before := hx
  after := Or.inl rfl
  owns := howns.symm
  holds := hholds.symm
  named := List.nil_subset _
  rotates := hrotates.symm
  checked := by simp
  fresh := by simp

/-- A call is entered. -/
theorem enter (hy : y.index = some n) (howns : y.owns = []) (hholds : y.holds = [])
    (hnamed : y.named = []) (hrotates : y.rotates n = 0)
    (hcheck : ∀ m c g id, y ≠ .bulkDelete m (.check c g id))
    (hfresh : ∀ m r cur new, y ≠ .insert m r (.register cur new)) : Quiet n .idle y where
  before := Or.inl rfl
  after := Or.inr hy
  owns := howns
  holds := hholds
  named := by simp [hnamed]
  rotates := hrotates
  checked := hcheck
  fresh := hfresh

end Quiet

namespace Inv

/-- A step that no owner and no user has a part in. -/
theorem quiet (h : Inv s) (ht : s.tasks[t]? = some x) (hn : s.indexes[n]? = some idx)
    (hq : Quiet n x y) (htasks : s'.tasks = s.tasks.set t y)
    (hindexes : s'.indexes = s.indexes.set n idx') (hlost : s'.lost = s.lost)
    (href : ∀ g, s'.refCount g = s.refCount g)
    (hnames : ∀ g, (s'.mt g).rel = (s.mt g).rel ∧ (s'.mt g).memtableId = (s.mt g).memtableId)
    (hgrowing : idx'.growingIdx = idx.growingIdx) (hqueue : idx'.memtableIdxs = idx.memtableIdxs)
    (hrel : idx'.rel = idx.rel) : Inv s' := by
  have hidx : idx'.owns = idx.owns := by simp only [LSMIndex.owns, hgrowing, hqueue]
  have hxn : ∀ g ∈ x.named, x.index = some n := by
    intro g hg
    rcases hq.before with hx | hx
    · cases x <;> simp_all [Task.index, Task.named]
    · exact hx
  refine h.change ⟨ht, hn, htasks, hindexes, hq.before, hq.after, ?count, ?owns, ?rotates, hrel,
    ?holds, ?names, ?related, ?named, ?checked, ?fresh⟩
  case count =>
    intro g
    rw [href, hq.owns, hq.holds, hidx, hlost]
  case owns => exact fun g => Or.inl (by rw [hq.owns, hidx])
  case rotates => rw [hq.rotates, hgrowing]
  case holds => exact fun g => Or.inl (by rw [hq.holds])
  case names => exact fun g => Or.inl (hnames g)
  case related =>
    intro g hg
    rw [(hnames g).1]
    exact h.related n idx hn g (hidx ▸ hg)
  case named =>
    intro g hg
    have hx := hq.named hg
    rw [(hnames g).1]
    exact h.named t x n idx ht (hxn g hx) hn g hx
  case checked => exact fun m c g id hy => absurd hy (hq.checked m c g id)
  case fresh => exact fun m r cur new hy => absurd hy (hq.fresh m r cur new)

/-- The call goes on and nothing else changes. -/
theorem goto (h : Inv s) (ht : s.tasks[t]? = some x) (hn : s.indexes[n]? = some idx)
    (hq : Quiet n x y) : Inv (s.setTask t y) :=
  h.quiet ht hn hq rfl (set_self hn).symm rfl (fun _ => rfl) (fun _ => ⟨rfl, rfl⟩) rfl rfl rfl

/-- The call goes on and changes what the index records besides its memtables. -/
theorem setIndex (h : Inv s) (ht : s.tasks[t]? = some x) (hn : s.indexes[n]? = some idx)
    (hq : Quiet n x y) (hgrowing : idx'.growingIdx = idx.growingIdx)
    (hqueue : idx'.memtableIdxs = idx.memtableIdxs) (hrel : idx'.rel = idx.rel) :
    Inv ((s.setIndex n idx').setTask t y) :=
  h.quiet ht hn hq rfl rfl rfl (fun _ => rfl) (fun _ => ⟨rfl, rfl⟩) hgrowing hqueue hrel

/-- The call goes on and changes a memtable that keeps its names. -/
theorem setMt {m : ConcurrentMemTable V} (h : Inv s) (ht : s.tasks[t]? = some x)
    (hn : s.indexes[n]? = some idx) (hq : Quiet n x y) (hrel : m.rel = (s.mt g).rel)
    (hid : m.memtableId = (s.mt g).memtableId) : Inv ((s.setMt g m).setTask t y) := by
  refine h.quiet ht hn hq rfl (set_self hn).symm rfl (fun _ => by simp) ?_ rfl rfl rfl
  intro g'
  by_cases hg : g' = g
  · simp [hg, hrel, hid]
  · simp [hg]

/-- The call goes on and changes the lock of a memtable. -/
theorem setSlot {b : MemtableBufferSlot V} (h : Inv s) (ht : s.tasks[t]? = some x)
    (hn : s.indexes[n]? = some idx) (hq : Quiet n x y) (href : b.refCount = s.refCount g)
    (hmt : b.mt = s.mt g) : Inv ((s.setSlot g b).setTask t y) := by
  refine h.quiet ht hn hq rfl (set_self hn).symm rfl ?_ ?_ rfl rfl rfl
  · exact fun g' => setSlot_refCount_of g' href
  · intro g'
    have hsame : ((s.setSlot g b).setTask t y).mt g' = s.mt g' := setSlot_mt_of g' hmt
    rw [hsame]
    exact ⟨rfl, rfl⟩

end Inv

end VectorLsm.MemtableBuffer
