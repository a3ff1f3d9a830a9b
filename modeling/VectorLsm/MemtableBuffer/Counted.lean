import VectorLsm.MemtableBuffer.Steps

/-! # The calls keep the counts

What an insert with its rotation, a search, a bulk delete and a flush do to owners and users at
each of their steps, and at an error.
-/

namespace VectorLsm.MemtableBuffer

open Tally State Transition

variable {V : Type*} {s s' : State V} {t n : ℕ} {x y : Task V} {idx idx' : LSMIndex} {r : Row V}
  {g : SlotIdx}

namespace Inv

/-- While a rotation is under way the index has no growing slot. -/
theorem growing_of_rotating (h : Inv s) {pc : InsertPc}
    (ht : s.tasks[t]? = some (.insert n r pc)) (hn : s.indexes[n]? = some idx)
    (hpc : pc.rotating = true) : idx.growingIdx = .rotating := by
  have hle := le_tally (Task.rotates n) ht
  have hone : Task.rotates n (.insert n r pc) = 1 := by simp [Task.rotates, hpc]
  have hrot := h.rotating n idx hn
  by_contra hne
  rw [if_neg hne] at hrot
  omega

/-- The rotation takes the growing memtable out of the index. -/
theorem rotate (h : Inv s) (ht : s.tasks[t]? = some (.insert n r (.rotate true)))
    (hn : s.indexes[n]? = some idx) (hg : idx.growingIdx = .slot g) (id : SegmentId) :
    Inv ((s.setIndex n { idx with growingIdx := .rotating, growingId := id }).setTask t
      (.insert n r (.allocate (some g)))) := by
  have howns : idx.owns = g :: idx.memtableIdxs := by simp [LSMIndex.owns, hg, GrowingIdx.slots]
  have hnew : ({ idx with growingIdx := .rotating, growingId := id } : LSMIndex).owns =
      idx.memtableIdxs := rfl
  refine h.change ⟨ht, hn, rfl, rfl, Or.inr rfl, Or.inr rfl, ?count, ?owns, ?rotates, rfl,
    ?holds, ?names, ?related, ?named, by simp, by simp⟩
  case count =>
    intro g'
    simp [howns, hnew, Task.owns, Task.holds, InsertPc.owns, List.count_cons]
    omega
  case owns =>
    intro g'
    left
    simp [howns, hnew, Task.owns, InsertPc.owns, List.count_cons]
    omega
  case rotates => simp [Task.rotates, InsertPc.rotating, hg]
  case holds => exact fun g' => Or.inl le_rfl
  case names => exact fun g' => Or.inl ⟨rfl, rfl⟩
  case related =>
    intro g' hg'
    exact h.related n idx hn g' (howns ▸ List.mem_cons_of_mem _ hg')
  case named =>
    intro g' hg'
    obtain rfl : g' = g := by simpa [Task.named, InsertPc.named] using hg'
    exact h.related n idx hn g' (by simp [howns])

/-- A rotation for an index without a growing memtable. -/
theorem rotateInvalid (h : Inv s) (ht : s.tasks[t]? = some (.insert n r (.rotate false)))
    (hn : s.indexes[n]? = some idx) (hg : idx.growingIdx = .invalid) :
    Inv ((s.setIndex n { idx with growingIdx := .rotating }).setTask t
      (.insert n r (.allocate none))) := by
  have howns : ({ idx with growingIdx := .rotating } : LSMIndex).owns = idx.owns := by
    simp [LSMIndex.owns, hg, GrowingIdx.slots]
  refine h.change ⟨ht, hn, rfl, rfl, Or.inr rfl, Or.inr rfl, ?count, ?owns, ?rotates, rfl,
    ?holds, ?names, ?related, ?named, by simp, by simp⟩
  case count => simp [howns, Task.owns, Task.holds, InsertPc.owns]
  case owns => simp [howns, Task.owns, InsertPc.owns]
  case rotates => simp [Task.rotates, InsertPc.rotating, hg]
  case holds => exact fun g' => Or.inl le_rfl
  case names => exact fun g' => Or.inl ⟨rfl, rfl⟩
  case related => exact fun g' hg' => h.related n idx hn g' (howns ▸ hg')
  case named => simp [Task.named, InsertPc.named]

/-- The memtable of a rotation gets its names. -/
theorem register (h : Inv s) {cur : Option SlotIdx} {new : SlotIdx}
    (ht : s.tasks[t]? = some (.insert n r (.register cur new))) (hn : s.indexes[n]? = some idx)
    {m : ConcurrentMemTable V} (hm : m.rel = idx.rel) (next : SegmentId) :
    Inv (((s.setMt new m).setIndex n { idx with nextSegmentId := next }).setTask t
      (.insert n r (.announce cur new))) := by
  have hnew : new ∈ (Task.insert n r (.register cur new)).owns := by
    simp [Task.owns, InsertPc.owns]
  have hidx := (h.not_owned ht hnew).1 n idx hn
  have hcur : ∀ g ∈ cur, g ≠ new := by
    rintro g hg rfl
    obtain rfl : cur = some g := hg
    have hle := le_tally (fun x : Task V => x.owns.count g) ht
    have htwo : (Task.insert n r (.register (some g) g)).owns.count g = 2 := by
      simp [Task.owns, InsertPc.owns]
    have howned := h.owned g
    simp only [State.owners] at howned
    omega
  refine h.change ⟨ht, hn, rfl, rfl, Or.inr rfl, Or.inr rfl, ?count, ?owns, ?rotates, rfl,
    ?holds, ?names, ?related, ?named, by simp, by simp⟩
  case count =>
    intro g'
    simp [LSMIndex.owns, Task.owns, Task.holds, InsertPc.owns]
  case owns =>
    intro g'
    simp [LSMIndex.owns, Task.owns, InsertPc.owns]
  case rotates => simp [Task.rotates, InsertPc.rotating]
  case holds => exact fun g' => Or.inl le_rfl
  case names =>
    intro g'
    by_cases hg : g' = new
    · exact Or.inr ⟨hg ▸ hnew, hg ▸ h.fresh t n r cur new ht⟩
    · simp [hg]
  case related =>
    intro g' hg'
    have hne : g' ≠ new := fun heq => hidx (heq ▸ hg')
    simpa [hne] using h.related n idx hn g' hg'
  case named =>
    intro g' hg'
    by_cases hg : g' = new
    · simp [hg, hm]
    · have hg' : g' ∈ cur.toList := by simpa [Task.named, InsertPc.named, hg] using hg'
      simpa [hg] using h.named t _ n idx ht rfl hn g' hg'

/-- The sealed memtable of a rotation enters the queue. -/
theorem enqueue (h : Inv s) {cur new : SlotIdx}
    (ht : s.tasks[t]? = some (.insert n r (.enqueue cur new))) (hn : s.indexes[n]? = some idx) :
    Inv ((s.setIndex n { idx with memtableIdxs := idx.memtableIdxs ++ [cur] }).setTask t
      (.insert n r (.install new))) := by
  have howns : ({ idx with memtableIdxs := idx.memtableIdxs ++ [cur] } : LSMIndex).owns =
      idx.owns ++ [cur] := by simp [LSMIndex.owns]
  have hnamed := h.named t _ n idx ht rfl hn
  refine h.change ⟨ht, hn, rfl, rfl, Or.inr rfl, Or.inr rfl, ?count, ?owns, ?rotates, rfl,
    ?holds, ?names, ?related, ?named, by simp, by simp⟩
  case count =>
    intro g'
    simp [howns, Task.owns, Task.holds, InsertPc.owns, List.count_cons]
    omega
  case owns =>
    intro g'
    left
    simp [howns, Task.owns, InsertPc.owns, List.count_cons]
    omega
  case rotates => simp [Task.rotates, InsertPc.rotating]
  case holds => exact fun g' => Or.inl le_rfl
  case names => exact fun g' => Or.inl ⟨rfl, rfl⟩
  case related =>
    intro g' hg'
    rw [howns] at hg'
    rcases List.mem_append.mp hg' with hg' | hg'
    · exact h.related n idx hn g' hg'
    · obtain rfl : g' = cur := by simpa using hg'
      exact hnamed g' (by simp [Task.named, InsertPc.named])
  case named =>
    intro g' hg'
    obtain rfl : g' = new := by simpa [Task.named, InsertPc.named] using hg'
    exact hnamed g' (by simp [Task.named, InsertPc.named])

/-- The new memtable of a rotation becomes the growing one. -/
theorem install (h : Inv s) {new : SlotIdx}
    (ht : s.tasks[t]? = some (.insert n r (.install new))) (hn : s.indexes[n]? = some idx)
    (id : SegmentId) :
    Inv ((s.setIndex n { idx with growingIdx := .slot new, growingId := id }).setTask t
      (.insert n r .loop)) := by
  have hg := h.growing_of_rotating ht hn rfl
  have howns : ({ idx with growingIdx := .slot new, growingId := id } : LSMIndex).owns =
      new :: idx.owns := by simp [LSMIndex.owns, hg, GrowingIdx.slots]
  refine h.change ⟨ht, hn, rfl, rfl, Or.inr rfl, Or.inr rfl, ?count, ?owns, ?rotates, rfl,
    ?holds, ?names, ?related, ?named, by simp, by simp⟩
  case count =>
    intro g'
    simp [howns, Task.owns, Task.holds, InsertPc.owns, List.count_cons]
    omega
  case owns =>
    intro g'
    left
    simp [howns, Task.owns, InsertPc.owns, List.count_cons]
    omega
  case rotates => simp [Task.rotates, InsertPc.rotating, hg]
  case holds => exact fun g' => Or.inl le_rfl
  case names => exact fun g' => Or.inl ⟨rfl, rfl⟩
  case related =>
    intro g' hg'
    rw [howns] at hg'
    rcases List.mem_cons.mp hg' with rfl | hg'
    · exact h.named t _ n idx ht rfl hn g' (by simp [Task.named, InsertPc.named])
    · exact h.related n idx hn g' hg'
  case named => simp [Task.named, InsertPc.named]

/-- A free slot is taken. -/
theorem alloc (h : Inv s) {cur : Option SlotIdx}
    (ht : s.tasks[t]? = some (.insert n r (.allocate cur))) (hn : s.indexes[n]? = some idx)
    (hg : s.refCount g = 0) :
    Inv ((s.addRef g).setTask t (.insert n r (.register cur g))) := by
  have hcount := h.counted g
  have hmoved : ∀ g', (Task.insert n r (.register cur g)).owns.count g' =
      (Task.insert n r (.allocate cur)).owns.count g' + if g' = g then 1 else 0 := by
    intro g'
    by_cases hg' : g' = g
    · subst hg'
      simp [Task.owns, InsertPc.owns]
    · simp [Task.owns, InsertPc.owns, hg', Ne.symm hg']
  refine h.change ⟨ht, hn, rfl, (set_self hn).symm, Or.inr rfl, Or.inr rfl, ?count, ?owns,
    ?rotates, rfl, ?holds, ?names, ?related, ?named, by simp, ?fresh⟩
  case count =>
    intro g'
    simp [hmoved, Task.holds]
    omega
  case owns =>
    intro g'
    rw [hmoved]
    by_cases hg' : g' = g
    · subst hg'
      right
      have := le_tally (fun x : Task V => x.owns.count g') ht
      have := le_tally (fun idx => idx.owns.count g') hn
      simp only [State.owners] at hcount
      simp only [if_true]
      omega
    · simp [hg']
  case rotates => simp [Task.rotates, InsertPc.rotating]
  case holds => exact fun g' => Or.inl le_rfl
  case names =>
    intro g'
    simp
  case related => simpa using h.related n idx hn
  case named =>
    intro g' hg'
    simpa using h.named t _ n idx ht rfl hn g' hg'
  case fresh =>
    rintro m r' cur' new ⟨⟩
    omega

/-- One step of an insert. -/
theorem insert (h : Inv s) {pc : InsertPc} (ht : s.tasks[t]? = some (.insert n r pc))
    (hn : s.indexes[n]? = some idx) (hfresh : pc = .rotate false → idx.growingIdx.slots = [])
    (hs : insertStep s t n idx r pc = some s') : Inv s' := by
  cases pc with
  | enter =>
      obtain rfl := Option.some.inj hs
      apply h.goto ht hn
      split <;> exact .insert rfl (List.nil_subset _) rfl (by simp)
  | claim =>
      simp only [insertStep] at hs
      split at hs
      next =>
        obtain rfl := Option.some.inj hs
        exact h.goto ht hn (.insert rfl (List.nil_subset _) rfl (by simp))
      next =>
        obtain rfl := Option.some.inj hs
        exact h.setIndex ht hn (.insert rfl (List.nil_subset _) rfl (by simp)) rfl rfl rfl
  | lock =>
      simp only [insertStep] at hs
      split at hs
      next => cases hs
      next =>
        obtain rfl := Option.some.inj hs
        exact h.setIndex ht hn (.insert rfl (List.nil_subset _) rfl (by simp)) rfl rfl rfl
  | release batch =>
      cases batch <;> obtain rfl := Option.some.inj hs <;>
        exact h.setIndex ht hn (.insert rfl (List.nil_subset _) rfl (by simp)) rfl rfl rfl
  | clear =>
      obtain rfl := Option.some.inj hs
      exact h.setIndex ht hn (.insert rfl (List.nil_subset _) rfl (by simp)) rfl rfl rfl
  | loop =>
      simp only [insertStep] at hs
      split at hs
      next => exact Option.some.inj hs ▸ h
      next =>
        obtain rfl := Option.some.inj hs
        exact h.goto ht hn (.insert rfl (List.nil_subset _) rfl (by simp))
      next g _ =>
        split at hs
        next =>
          obtain rfl := Option.some.inj hs
          exact h.goto ht hn (.insert rfl (List.nil_subset _) rfl (by simp))
        next =>
          split at hs <;> obtain rfl := Option.some.inj hs <;>
            refine h.setMt ht hn (.insert rfl (List.nil_subset _) rfl (by simp)) ?_ ?_ <;> rfl
  | write g i =>
      obtain rfl := Option.some.inj hs
      refine h.setMt ht hn (.insert rfl (List.nil_subset _) rfl (by simp)) ?_ ?_ <;> rfl
  | publish g i =>
      obtain rfl := Option.some.inj hs
      refine h.setMt ht hn (.idle (Or.inr rfl) rfl rfl ?_) ?_ ?_
      · simp [Task.rotates, InsertPc.rotating]
      · rfl
      · rfl
  | rotate needEnqueue =>
      simp only [insertStep] at hs
      split at hs
      next =>
        obtain rfl := Option.some.inj hs
        exact h.goto ht hn (.insert rfl (List.nil_subset _) rfl (by simp))
      next => cases hs
      next g hg =>
        split at hs
        next =>
          obtain rfl := Option.some.inj hs
          exact h.rotate ht hn hg _
        next =>
          obtain rfl := Option.some.inj hs
          exact h.goto ht hn (.insert rfl (List.nil_subset _) rfl (by simp))
      next hne =>
        obtain rfl := Option.some.inj hs
        have hslots := hfresh rfl
        cases hg : idx.growingIdx with
        | invalid => exact h.rotateInvalid ht hn hg
        | rotating => exact absurd hg hne
        | slot g => simp [hg, GrowingIdx.slots] at hslots
  | wait =>
      simp only [insertStep] at hs
      split at hs
      next => exact Option.some.inj hs ▸ h
      next =>
        obtain rfl := Option.some.inj hs
        exact h.goto ht hn (.insert rfl (List.nil_subset _) rfl (by simp))
  | allocate cur => cases hs
  | register cur new =>
      obtain rfl := Option.some.inj hs
      exact h.register ht hn rfl _
  | announce cur new =>
      obtain rfl := Option.some.inj hs
      refine h.setIndex ht hn ?_ rfl rfl rfl
      cases cur <;> exact .insert rfl (List.Subset.refl _) rfl (by simp)
  | enqueue cur new =>
      simp only [insertStep] at hs
      split at hs
      next =>
        obtain rfl := Option.some.inj hs
        exact h.enqueue ht hn
      next => exact Option.some.inj hs ▸ h
  | install new =>
      obtain rfl := Option.some.inj hs
      exact h.install ht hn _

/-- A search references the growing memtable and the queue. -/
theorem snapshot (h : Inv s) (ht : s.tasks[t]? = some (.search n .snapshot))
    (hn : s.indexes[n]? = some idx) :
    Inv ((idx.owns.foldl addRef s).setTask t (.search n (.searching idx.owns))) := by
  refine h.change (y := .search n (.searching idx.owns)) ⟨ht, hn, ?tasks, ?indexes, Or.inr rfl,
    Or.inr rfl, ?count, ?owns, rfl, rfl, ?holds, ?names, ?related, ?named, by simp, by simp⟩
  case tasks => simp
  case indexes => simp [set_self hn]
  case count =>
    intro g'
    simp [Task.owns, Task.holds, SearchPc.holds]
    omega
  case owns => exact fun g' => Or.inl le_rfl
  case holds =>
    intro g'
    by_cases hg : g' ∈ idx.owns
    · exact Or.inr hg
    · simp [Task.holds, SearchPc.holds, List.count_eq_zero.mpr hg]
  case names => simp
  case related => simpa using h.related n idx hn
  case named => simp [Task.named]

/-- A call drops references that it holds. -/
theorem drop (h : Inv s) (ht : s.tasks[t]? = some x) (hn : s.indexes[n]? = some idx)
    {held : List SlotIdx} (hx : x.index = some n) (hy : y.index = none ∨ y.index = some n)
    (howns : y.owns = x.owns) (hholds : ∀ g, x.holds.count g = held.count g + y.holds.count g)
    (hnamed : y.named ⊆ x.named) (hrotates : y.rotates n = x.rotates n)
    (hcheck : ∀ m c g id, y ≠ .bulkDelete m (.check c g id))
    (hfresh : ∀ m r cur new, y ≠ .insert m r (.register cur new)) :
    Inv ((held.foldl dropRef s).setTask t y) := by
  refine h.change ⟨ht, hn, ?tasks, ?indexes, Or.inr hx, hy, ?count, ?owns, ?rotates, rfl,
    ?holds, ?names, ?related, ?named, ?checked, ?fresh⟩
  case tasks => simp
  case indexes => simp [set_self hn]
  case count =>
    intro g
    have := h.le_refCount ht g
    have := hholds g
    simp only [setTask_refCount, foldl_dropRef_refCount, setTask_lost, foldl_dropRef_lost, howns]
    omega
  case owns => exact fun g => Or.inl (by rw [howns])
  case rotates => rw [hrotates]
  case holds => exact fun g => Or.inl (by have := hholds g; omega)
  case names => simp
  case related => simpa using h.related n idx hn
  case named =>
    intro g hg
    simpa using h.named t x n idx ht hx hn g (hnamed hg)
  case checked => exact fun m c g id hy => absurd hy (hcheck m c g id)
  case fresh => exact fun m r cur new hy => absurd hy (hfresh m r cur new)

/-- One step of a search. -/
theorem search (h : Inv s) {pc : SearchPc} (ht : s.tasks[t]? = some (.search n pc))
    (hn : s.indexes[n]? = some idx) (hs : searchStep s t n idx pc = some s') : Inv s' := by
  cases pc with
  | snapshot =>
      simp only [searchStep] at hs
      split at hs
      next g hg =>
        obtain rfl := Option.some.inj hs
        have howns : idx.owns = g :: idx.memtableIdxs := by
          simp [LSMIndex.owns, hg, GrowingIdx.slots]
        rw [← howns]
        exact h.snapshot ht hn
      next => exact Option.some.inj hs ▸ h
  | searching held =>
      cases held with
      | nil =>
          obtain rfl := Option.some.inj hs
          exact h.goto ht hn (.idle (Or.inr rfl) rfl rfl rfl)
      | cons g held =>
          obtain rfl := Option.some.inj hs
          have hdrop : Inv (([g].foldl dropRef s).setTask t (.search n (.searching held))) := by
            refine h.drop ht hn rfl (Or.inr rfl) rfl ?_ (List.Subset.refl _) rfl (by simp) (by simp)
            intro g'
            simp [Task.holds, SearchPc.holds, List.count_cons]
            omega
          exact hdrop

/-- A bulk delete references a memtable of its index. -/
theorem reference (h : Inv s) {pc pc' : BulkDeletePc} (ht : s.tasks[t]? = some (.bulkDelete n pc))
    (hn : s.indexes[n]? = some idx) (hg : g ∈ idx.owns) (hpc : pc.holds = [])
    (hpc' : pc'.holds = [g]) (hcheck : ∀ c g' id, pc' = .check c g' id →
      g' = g ∧ (s.mt g).memtableId = id) :
    Inv ((s.addRef g).setTask t (.bulkDelete n pc')) := by
  refine h.change ⟨ht, hn, rfl, (set_self hn).symm, Or.inr rfl, Or.inr rfl, ?count, ?owns, rfl,
    rfl, ?holds, ?names, ?related, ?named, ?checked, by simp⟩
  case count =>
    intro g'
    by_cases hg' : g' = g
    · subst hg'
      simp [Task.owns, Task.holds, hpc, hpc']
      omega
    · simp [Task.owns, Task.holds, hpc, hpc', hg', Ne.symm hg']
  case owns => exact fun g' => Or.inl le_rfl
  case holds =>
    intro g'
    by_cases hg' : g' = g
    · exact Or.inr (hg' ▸ hg)
    · simp [Task.holds, hpc', Ne.symm hg']
  case names => simp
  case related => simpa using h.related n idx hn
  case named => simp [Task.named]
  case checked =>
    rintro m c g' id ⟨⟩
    obtain ⟨rfl, hid⟩ := hcheck c g' id rfl
    simpa using ⟨h.related n idx hn g' hg, hid⟩

/-- An error ends a bulk delete; the reference it holds is lost. -/
theorem abort (h : Inv s) {pc : BulkDeletePc} (ht : s.tasks[t]? = some (.bulkDelete n pc))
    (hn : s.indexes[n]? = some idx) : Inv (abortBulkDelete s t pc) := by
  have hlose : ∀ (u : State V) (g : SlotIdx), u.tasks = s.tasks → u.indexes = s.indexes →
      u.lost = s.lost → (∀ g', u.refCount g' = s.refCount g') →
      (∀ g', u.mt g' = s.mt g') → pc.holds = [g] → Inv ((u.lose g).setTask t .idle) := by
    intro u g htasks hindexes hlost href hmt hpc
    refine h.change (y := .idle) ⟨ht, hn, ?tasks, ?indexes, Or.inr rfl, Or.inl rfl, ?count,
      ?owns, rfl, rfl, ?holds, ?names, ?related, ?named, by simp, by simp⟩
    case tasks => simp [htasks]
    case indexes => simp [hindexes, set_self hn]
    case count =>
      intro g'
      simp [href, Task.owns, Task.holds, hpc, hlost, Function.update_apply, List.count_cons]
      grind
    case owns => exact fun g' => Or.inl le_rfl
    case holds => exact fun g' => Or.inl (by simp [Task.holds])
    case names => simp [hmt]
    case related => simpa [hmt] using h.related n idx hn
    case named => simp [Task.named]
  cases pc with
  | check c g id => exact hlose s g rfl rfl rfl (fun _ => rfl) (fun _ => rfl) rfl
  | lock c g => exact hlose s g rfl rfl rfl (fun _ => rfl) (fun _ => rfl) rfl
  | unref c g => exact hlose s g rfl rfl rfl (fun _ => rfl) (fun _ => rfl) rfl
  | scan c g => exact hlose (s.setExclusive g false) g rfl rfl rfl (by simp) (by simp) rfl
  | growing | record c g | next c | segments =>
      exact h.goto ht hn (.idle (Or.inr rfl) rfl rfl rfl)

/-- One step of a bulk delete. -/
theorem bulkDelete (h : Inv s) {pc : BulkDeletePc} (ht : s.tasks[t]? = some (.bulkDelete n pc))
    (hn : s.indexes[n]? = some idx) (hs : bulkDeleteStep s t n idx pc = some s') : Inv s' := by
  cases pc with
  | growing =>
      simp only [bulkDeleteStep] at hs
      split at hs
      next g hg =>
        obtain rfl := Option.some.inj hs
        exact h.reference ht hn (by simp [LSMIndex.owns, hg, GrowingIdx.slots]) rfl rfl (by simp)
      next =>
        obtain rfl := Option.some.inj hs
        exact h.goto ht hn (.bulkDelete rfl (by simp))
  | check c g id =>
      simp only [bulkDeleteStep] at hs
      split at hs
      next =>
        obtain rfl := Option.some.inj hs
        exact h.goto ht hn (.bulkDelete rfl (by simp))
      next hne => exact absurd (h.checked t n idx c g id ht hn) hne
  | lock c g =>
      simp only [bulkDeleteStep] at hs
      split at hs
      next =>
        obtain rfl := Option.some.inj hs
        refine h.setSlot ht hn (.bulkDelete rfl (by simp)) ?_ ?_ <;> rfl
      next => cases hs
  | scan c g =>
      obtain rfl := Option.some.inj hs
      refine h.setSlot ht hn (.bulkDelete rfl (by simp)) ?_ ?_ <;> rfl
  | unref c g =>
      obtain rfl := Option.some.inj hs
      have hdrop : Inv (([g].foldl dropRef s).setTask t (.bulkDelete n (.record c g))) :=
        h.drop ht hn rfl (Or.inr rfl) rfl (fun _ => rfl) (List.Subset.refl _) rfl (by simp)
          (by simp)
      exact hdrop
  | record c g =>
      obtain rfl := Option.some.inj hs
      exact h.goto ht hn (.bulkDelete rfl (by simp))
  | next c =>
      simp only [bulkDeleteStep] at hs
      split at hs
      next =>
        obtain rfl := Option.some.inj hs
        exact h.goto ht hn (.bulkDelete rfl (by simp))
      next g hg =>
        obtain rfl := Option.some.inj hs
        have hqueue : g ∈ idx.memtableIdxs := by simpa using List.mem_of_find?_eq_some hg
        refine h.reference ht hn (by simp [LSMIndex.owns, hqueue]) rfl rfl ?_
        rintro c' g' id ⟨⟩
        exact ⟨rfl, rfl⟩
  | segments =>
      obtain rfl := Option.some.inj hs
      exact h.goto ht hn (.idle (Or.inr rfl) rfl rfl rfl)

/-- An error ends a flush worker. -/
theorem flushError (h : Inv s) {pc : FlushPc} (ht : s.tasks[t]? = some (.flush n pc))
    (hn : s.indexes[n]? = some idx) (hs : abortFlush s t pc = some s') : Inv s' := by
  cases pc with
  | claim | claimed g =>
      obtain rfl := Option.some.inj hs
      exact h.goto ht hn (.idle (Or.inr rfl) rfl rfl rfl)
  | waiting g | settled g | written g | registered g =>
      obtain rfl := Option.some.inj hs
      refine h.setSlot ht hn (.idle (Or.inr rfl) rfl rfl rfl) ?_ ?_ <;> rfl
  | tracked g | unlinked g | released g => cases hs

/-- A flush takes its memtable off the queue. -/
theorem unlink (h : Inv s) (ht : s.tasks[t]? = some (.flush n (.tracked g)))
    (hn : s.indexes[n]? = some idx) (hg : g ∈ idx.memtableIdxs) :
    Inv ((s.setIndex n { idx with memtableIdxs := idx.memtableIdxs.erase g }).setTask t
      (.flush n (.unlinked g))) := by
  have hcount : ∀ g', [g].count g' +
      ({ idx with memtableIdxs := idx.memtableIdxs.erase g } : LSMIndex).owns.count g' =
      idx.owns.count g' := by
    intro g'
    simp only [LSMIndex.owns, List.count_append]
    by_cases hg' : g' = g
    · subst hg'
      have := List.count_pos_iff.mpr hg
      simp only [List.count_singleton_self, List.count_erase_self]
      omega
    · rw [List.count_erase_of_ne hg']
      simp [Ne.symm hg']
  refine h.change ⟨ht, hn, rfl, rfl, Or.inr rfl, Or.inr rfl, ?count, ?owns, rfl, rfl,
    ?holds, ?names, ?related, ?named, by simp, by simp⟩
  case count =>
    intro g'
    have := hcount g'
    simp only [setTask_refCount, setIndex_refCount, setTask_lost, setIndex_lost, Task.owns,
      Task.holds, FlushPc.owns, List.count_nil]
    omega
  case owns =>
    intro g'
    have := hcount g'
    simp only [Task.owns, FlushPc.owns, List.count_nil]
    omega
  case holds => exact fun g' => Or.inl le_rfl
  case names => exact fun g' => Or.inl ⟨rfl, rfl⟩
  case related =>
    intro g' hg'
    have := hcount g'
    have := List.count_pos_iff.mpr hg'
    exact h.related n idx hn g' (List.count_pos_iff.mp (by omega))
  case named => simp [Task.named]

/-- A flush gives up the reference of the index. -/
theorem release (h : Inv s) (ht : s.tasks[t]? = some (.flush n (.unlinked g)))
    (hn : s.indexes[n]? = some idx) :
    Inv ((s.dropRef g).setTask t (.flush n (.released g))) := by
  refine h.change ⟨ht, hn, rfl, (set_self hn).symm, Or.inr rfl, Or.inr rfl, ?count, ?owns, rfl,
    rfl, ?holds, ?names, ?related, ?named, by simp, by simp⟩
  case count =>
    intro g'
    have hle := h.le_refCount ht g'
    by_cases hg : g' = g
    · subst hg
      simp [Task.owns, Task.holds, FlushPc.owns] at hle ⊢
      omega
    · simp [Task.owns, Task.holds, FlushPc.owns, hg, Ne.symm hg]
  case owns =>
    intro g'
    left
    simp [Task.owns, FlushPc.owns]
  case holds => exact fun g' => Or.inl le_rfl
  case names => simp
  case related => simpa using h.related n idx hn
  case named => simp [Task.named]

/-- One step of a flush. -/
theorem flush (h : Inv s) {pc : FlushPc} (ht : s.tasks[t]? = some (.flush n pc))
    (hn : s.indexes[n]? = some idx) (hs : flushStep s t n idx pc = some s') : Inv s' := by
  cases pc with
  | claim =>
      obtain rfl := Option.some.inj hs
      exact h.goto ht hn (.idle (Or.inr rfl) rfl rfl rfl)
  | claimed g =>
      simp only [flushStep] at hs
      split at hs
      next => cases hs
      next =>
        obtain rfl := Option.some.inj hs
        refine h.setSlot ht hn (.flush rfl) ?_ ?_ <;> rfl
  | waiting g =>
      simp only [flushStep] at hs
      split at hs
      next => exact h.flushError ht hn hs
      next =>
        split at hs
        next =>
          obtain rfl := Option.some.inj hs
          exact h.goto ht hn (.flush rfl)
        next => exact Option.some.inj hs ▸ h
  | settled g | written g =>
      obtain rfl := Option.some.inj hs
      exact h.goto ht hn (.flush rfl)
  | registered g =>
      simp only [flushStep] at hs
      split at hs
      next => cases hs
      next =>
        obtain rfl := Option.some.inj hs
        exact h.setIndex ht hn (.flush rfl) rfl rfl rfl
  | tracked g =>
      simp only [flushStep] at hs
      split at hs
      next hg =>
        obtain rfl := Option.some.inj hs
        exact h.unlink ht hn hg
      next =>
        obtain rfl := Option.some.inj hs
        refine h.setSlot ht hn (.idle (Or.inr rfl) rfl rfl rfl) ?_ ?_ <;> rfl
  | unlinked g =>
      obtain rfl := Option.some.inj hs
      exact h.release ht hn
  | released g =>
      obtain rfl := Option.some.inj hs
      refine h.setSlot ht hn (.idle (Or.inr rfl) rfl rfl rfl) ?_ ?_ <;> rfl

end Inv

end VectorLsm.MemtableBuffer
