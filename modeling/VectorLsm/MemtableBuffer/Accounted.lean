import VectorLsm.MemtableBuffer.Opened

/-! # The status array is accounted for

Every sid of the status array is that of a live memtable or of a flushed one that is still to be
released, as long as the array of flushed memtables has room and no release raises an error.
-/

namespace VectorLsm.MemtableBuffer

open Tally State Transition

variable {V : Type*} {s s' : State V} {a : Action V} {t n : ℕ} {x y : Task V}
  {idx idx' : LSMIndex} {r : Row V} {g : SlotIdx}

/-- The sids of the status array of an index are those of its live memtables and of flushed ones
recorded as not released; every flushed sid is recorded or released, and only once; a call is at
work behind `releasing_in_progress`. -/
structure Accounted (s : State V) (n : ℕ) (idx : LSMIndex) : Prop where
  listed : ∀ sid ∈ idx.statusSids, (∃ g, Lives s n g ∧ (s.mt g).memtableId = sid) ∨
    0 < s.pending n idx sid
  released : ∀ sid, idx.flushed.count sid = s.pending n idx sid + idx.released.count sid
  once : idx.flushed.Nodup
  flag : idx.releasingInProgress = true →
    ∃ (t : ℕ) (x : Task V), s.tasks[t]? = some x ∧ 0 < x.releases n

theorem Books.accounted_of (h : Books s n idx) : Accounted s n idx where
  listed sid hsid := by
    refine (h.accounted sid hsid).imp_right ?_
    rintro ⟨hf, hr⟩
    have hcount := h.balanced sid
    rw [List.count_eq_zero.mpr hr] at hcount
    have := List.count_pos_iff.mpr hf
    omega
  released := h.balanced
  once := h.once
  flag hflag := by
    have hone := h.releasing
    rw [if_pos hflag] at hone
    exact exists_of_tally_pos _ (by omega)

/-- The condition on a flush and on a release: the array of flushed memtables has room, and
`ReleaseStatusMemtable` raises no error. -/
def Recording (s : State V) : Action V → Prop
  | .run t =>
      match s.tasks[t]? with
      | some (.flush n (.registered _)) =>
          match s.indexes[n]? with
          | some idx => idx.flushedNotReleased.length < memtableNum
          | none => True
      | _ => True
  | .releaseError _ _ => False
  | _ => True

/-- The condition on a step. -/
def Tidy (s : State V) (a : Action V) : Prop := FreshRotation s a ∧ Recording s a

instance (s : State V) (a : Action V) : Decidable (Recording s a) :=
  decidable_of_bool
    (match a with
      | .run t =>
          match s.tasks[t]? with
          | some (.flush n (.registered _)) =>
              (s.indexes[n]?).all fun idx => idx.flushedNotReleased.length < memtableNum
          | _ => true
      | .releaseError _ _ => false
      | _ => true) <| by
    unfold Recording
    cases a with
    | run t =>
        dsimp only
        split
        next n g _ => cases s.indexes[n]? <;> simp
        next => simp
    | _ => simp

instance (s : State V) (a : Action V) : Decidable (Tidy s a) :=
  inferInstanceAs (Decidable (_ ∧ _))

namespace Bookless

theorem insert {pc pc' : InsertPc}
    (hbatch : (Task.insert n r pc').batch n = (Task.insert n r pc).batch n)
    (hreleases : pc'.releases = pc.releases) (hannounce : ∀ cur new, pc' ≠ .announce cur new) :
    Bookless n (.insert n r pc) (.insert n r pc') where
  batch := hbatch
  releases := by simp [Task.releases, hreleases]
  tracked := by simp
  announced := by
    rintro r cur new ⟨⟩
    exact hannounce cur new rfl
  claims _ := le_rfl

theorem search (pc pc' : SearchPc) : Bookless (V := V) n (.search n pc) (.search n pc') :=
  ⟨rfl, rfl, by simp, by simp, fun _ => le_rfl⟩

theorem bulkDelete (pc pc' : BulkDeletePc) :
    Bookless (V := V) n (.bulkDelete n pc) (.bulkDelete n pc') :=
  ⟨rfl, rfl, by simp, by simp, fun _ => le_rfl⟩

theorem flush {pc pc' : FlushPc} (hclaims : ∀ g, pc'.claims g ≤ pc.claims g)
    (htracked : ∀ g, pc' = .tracked g ↔ pc = .tracked g) :
    Bookless (V := V) n (.flush n pc) (.flush n pc') :=
  ⟨rfl, rfl, by simpa using htracked, by simp, hclaims⟩

theorem idle (hbatch : x.batch n = []) (hreleases : x.releases n = 0)
    (htracked : ∀ g, x ≠ .flush n (.tracked g)) : Bookless n x .idle :=
  ⟨hbatch.symm, hreleases.symm, by simpa using htracked, by simp, fun _ => Nat.zero_le _⟩

end Bookless

namespace Ledger

/-- The call goes on, with slots written that keep their names and claims. -/
theorem goto (hl : Ledger s) (hi : Inv s) (ht : s.tasks[t]? = some x)
    (hn : s.indexes[n]? = some idx) (hbefore : x.index = none ∨ x.index = some n)
    (hafter : y.index = none ∨ y.index = some n) (hq : Bookless n x y)
    (hnamed : y.named = x.named) (htasks : s'.tasks = s.tasks.set t y)
    (hindexes : s'.indexes = s.indexes)
    (hmt : ∀ g, (s'.mt g).memtableId = (s.mt g).memtableId ∧
      (s'.mt g).flushClaimed = (s.mt g).flushClaimed) : Ledger s' :=
  hl.quiet hi ⟨ht, hn, htasks, hindexes.trans (set_self hn).symm, hbefore, hafter⟩ hq
    (SameBooks.refl idx) (fun g => (hmt g).1) (fun g => (hmt g).2) (fun g => by rw [hnamed])
    (List.Subset.refl _)

/-- The call goes on and nothing else changes. -/
theorem move (hl : Ledger s) (hi : Inv s) (ht : s.tasks[t]? = some x)
    (hn : s.indexes[n]? = some idx) (hbefore : x.index = none ∨ x.index = some n)
    (hafter : y.index = none ∨ y.index = some n) (hq : Bookless n x y)
    (hnamed : y.named = x.named) : Ledger (s.setTask t y) :=
  hl.goto hi ht hn hbefore hafter hq hnamed rfl rfl fun _ => ⟨rfl, rfl⟩

/-- A memtable is written that keeps its sid and its claim. -/
theorem setMt (hl : Ledger s) (hi : Inv s) {m : ConcurrentMemTable V}
    (ht : s.tasks[t]? = some x) (hn : s.indexes[n]? = some idx)
    (hbefore : x.index = none ∨ x.index = some n) (hafter : y.index = none ∨ y.index = some n)
    (hq : Bookless n x y) (hnamed : y.named = x.named) (hid : m.memtableId = (s.mt g).memtableId)
    (hflag : m.flushClaimed = (s.mt g).flushClaimed) :
    Ledger ((s.setMt g m).setTask t y) := by
  refine hl.goto hi ht hn hbefore hafter hq hnamed rfl rfl fun g' => ?_
  rw [setTask_mt, setMt_mt]
  split
  next heq => rw [heq]; exact ⟨hid, hflag⟩
  next => exact ⟨rfl, rfl⟩

/-- One step of an insert. -/
theorem insert (hl : Ledger s) (hi : Inv s) {pc : InsertPc}
    (ht : s.tasks[t]? = some (.insert n r pc)) (hn : s.indexes[n]? = some idx)
    (hfresh : pc = .rotate false → idx.growingIdx.slots = [])
    (hs : insertStep s t n idx r pc = some s') : Ledger s' := by
  have hgoto : ∀ {pc' : InsertPc},
      (Task.insert n r pc').batch n = (Task.insert n r pc).batch n →
      pc'.releases = pc.releases → (∀ cur new, pc' ≠ .announce cur new) →
      pc'.named = pc.named → Ledger (s.setTask t (.insert n r pc')) :=
    fun hbatch hreleases hannounce hnamed =>
      hl.move hi ht hn (Or.inr rfl) (Or.inr rfl) (.insert hbatch hreleases hannounce) hnamed
  cases pc with
  | enter =>
      obtain rfl := Option.some.inj hs
      split <;> exact hgoto rfl rfl (by simp) rfl
  | claim =>
      simp only [insertStep] at hs
      split at hs
      next =>
        obtain rfl := Option.some.inj hs
        exact hgoto rfl rfl (by simp) rfl
      next hflag =>
        obtain rfl := Option.some.inj hs
        exact hl.claimRelease hi ht hn (by simpa using hflag)
  | lock =>
      simp only [insertStep] at hs
      split at hs
      next => cases hs
      next =>
        obtain rfl := Option.some.inj hs
        exact hl.takeBatch hi ht hn
  | release batch =>
      cases batch with
      | nil =>
          obtain rfl := Option.some.inj hs
          exact hl.unlockRelease hi ht hn
      | cons sid batch =>
          obtain rfl := Option.some.inj hs
          exact hl.releaseOne hi ht hn
  | clear =>
      obtain rfl := Option.some.inj hs
      exact hl.clearRelease hi ht hn
  | loop =>
      simp only [insertStep] at hs
      split at hs
      next => exact Option.some.inj hs ▸ hl
      next =>
        obtain rfl := Option.some.inj hs
        exact hgoto rfl rfl (by simp) rfl
      next =>
        split at hs
        next =>
          obtain rfl := Option.some.inj hs
          exact hgoto rfl rfl (by simp) rfl
        next =>
          split at hs <;> obtain rfl := Option.some.inj hs <;>
            refine hl.setMt hi ht hn (Or.inr rfl) (Or.inr rfl) (.insert rfl rfl (by simp)) rfl
              ?_ ?_ <;> rfl
  | write g i =>
      obtain rfl := Option.some.inj hs
      refine hl.setMt hi ht hn (Or.inr rfl) (Or.inr rfl) (.insert rfl rfl (by simp)) rfl ?_ ?_ <;>
        rfl
  | publish g i =>
      obtain rfl := Option.some.inj hs
      refine hl.setMt hi ht hn (Or.inr rfl) (Or.inl rfl) (.idle rfl ?_ (by simp)) rfl ?_ ?_
      · simp [Task.releases, InsertPc.releases]
      · rfl
      · rfl
  | rotate needEnqueue =>
      simp only [insertStep] at hs
      split at hs
      next =>
        obtain rfl := Option.some.inj hs
        exact hgoto rfl rfl (by simp) rfl
      next => cases hs
      next g hg =>
        split at hs
        next =>
          obtain rfl := Option.some.inj hs
          refine hl.quiet hi ⟨ht, hn, rfl, rfl, Or.inr rfl, Or.inr rfl⟩
            (.insert rfl rfl (by simp)) ⟨rfl, rfl, rfl, rfl, rfl, rfl⟩ (fun _ => rfl)
            (fun _ => rfl) (fun g' => ?_) (List.Subset.refl _)
          simp [LSMIndex.owns, Task.named, InsertPc.named, hg, GrowingIdx.slots, or_comm]
        next =>
          obtain rfl := Option.some.inj hs
          exact hgoto rfl rfl (by simp) rfl
      next =>
        obtain rfl := Option.some.inj hs
        refine hl.quiet hi ⟨ht, hn, rfl, rfl, Or.inr rfl, Or.inr rfl⟩
          (.insert rfl rfl (by simp)) ⟨rfl, rfl, rfl, rfl, rfl, rfl⟩ (fun _ => rfl)
          (fun _ => rfl) (fun g' => ?_) (List.Subset.refl _)
        have hslots := hfresh rfl
        have hnone : GrowingIdx.rotating.slots = [] := rfl
        simp [LSMIndex.owns, Task.named, InsertPc.named, hslots, hnone]
  | wait =>
      simp only [insertStep] at hs
      split at hs
      next => exact Option.some.inj hs ▸ hl
      next =>
        obtain rfl := Option.some.inj hs
        exact hgoto rfl rfl (by simp) rfl
  | allocate cur => cases hs
  | register cur new =>
      obtain rfl := Option.some.inj hs
      exact hl.register hi ht hn rfl
  | announce cur new =>
      obtain rfl := Option.some.inj hs
      exact hl.announce hi ht hn (by cases cur <;> rfl)
  | enqueue cur new =>
      simp only [insertStep] at hs
      split at hs
      next =>
        obtain rfl := Option.some.inj hs
        refine hl.quiet hi ⟨ht, hn, rfl, rfl, Or.inr rfl, Or.inr rfl⟩
          (.insert rfl rfl (by simp)) ⟨rfl, rfl, rfl, rfl, rfl, rfl⟩ (fun _ => rfl)
          (fun _ => rfl) (fun g' => ?_) (List.subset_append_left _ _)
        simp only [LSMIndex.owns, Task.named, InsertPc.named, List.mem_append, List.mem_cons,
          List.not_mem_nil, or_false]
        tauto
      next => exact Option.some.inj hs ▸ hl
  | install new =>
      obtain rfl := Option.some.inj hs
      have hg := hi.growing_of_rotating ht hn rfl
      refine hl.quiet hi ⟨ht, hn, rfl, rfl, Or.inr rfl, Or.inr rfl⟩
        (.insert rfl rfl (by simp)) ⟨rfl, rfl, rfl, rfl, rfl, rfl⟩ (fun _ => rfl)
        (fun _ => rfl) (fun g' => ?_) (List.Subset.refl _)
      simp [LSMIndex.owns, Task.named, InsertPc.named, hg, GrowingIdx.slots, or_comm]

/-- The lock of a memtable is written. -/
theorem setLock (hl : Ledger s) (hi : Inv s) {b : MemtableBufferSlot V}
    (ht : s.tasks[t]? = some x) (hn : s.indexes[n]? = some idx)
    (hbefore : x.index = none ∨ x.index = some n) (hafter : y.index = none ∨ y.index = some n)
    (hq : Bookless n x y) (hnamed : y.named = x.named) (hmt : b.mt = s.mt g) :
    Ledger ((s.setSlot g b).setTask t y) := by
  refine hl.goto hi ht hn hbefore hafter hq hnamed rfl rfl fun g' => ?_
  rw [setTask_mt, setSlot_mt_of g' hmt]
  exact ⟨rfl, rfl⟩

/-- An error ends a flush worker. -/
theorem flushError (hl : Ledger s) (hi : Inv s) {pc : FlushPc}
    (ht : s.tasks[t]? = some (.flush n pc)) (hn : s.indexes[n]? = some idx)
    (hs : abortFlush s t pc = some s') : Ledger s' := by
  cases pc with
  | claim | claimed g =>
      obtain rfl := Option.some.inj hs
      exact hl.move hi ht hn (Or.inr rfl) (Or.inl rfl) (.idle rfl rfl (by simp)) rfl
  | waiting g | settled g | written g | registered g =>
      obtain rfl := Option.some.inj hs
      exact hl.setLock hi ht hn (Or.inr rfl) (Or.inl rfl) (.idle rfl rfl (by simp)) rfl rfl
  | tracked g | unlinked g | released g => cases hs

/-- One step of a flush. -/
theorem flush (hl : Ledger s) (hi : Inv s) {pc : FlushPc}
    (ht : s.tasks[t]? = some (.flush n pc)) (hn : s.indexes[n]? = some idx)
    (hroom : ∀ g, pc = .registered g → idx.flushedNotReleased.length < memtableNum)
    (hs : flushStep s t n idx pc = some s') : Ledger s' := by
  cases pc with
  | claim =>
      obtain rfl := Option.some.inj hs
      exact hl.move hi ht hn (Or.inr rfl) (Or.inl rfl) (.idle rfl rfl (by simp)) rfl
  | claimed g =>
      simp only [flushStep] at hs
      split at hs
      next => cases hs
      next =>
        obtain rfl := Option.some.inj hs
        exact hl.setLock hi ht hn (Or.inr rfl) (Or.inr rfl)
          (.flush (fun _ => le_rfl) (by simp)) rfl rfl
  | waiting g =>
      simp only [flushStep] at hs
      split at hs
      next => exact hl.flushError hi ht hn hs
      next =>
        split at hs
        next =>
          obtain rfl := Option.some.inj hs
          exact hl.move hi ht hn (Or.inr rfl) (Or.inr rfl)
            (.flush (fun _ => le_rfl) (by simp)) rfl
        next => exact Option.some.inj hs ▸ hl
  | settled g | written g =>
      obtain rfl := Option.some.inj hs
      exact hl.move hi ht hn (Or.inr rfl) (Or.inr rfl)
        (.flush (fun _ => le_rfl) (by simp)) rfl
  | registered g =>
      have hroom := hroom g rfl
      simp only [flushStep, if_pos hroom] at hs
      split at hs
      next => cases hs
      next =>
        obtain rfl := Option.some.inj hs
        exact hl.record hi ht hn hroom
  | tracked g =>
      obtain ⟨d, hd, hq⟩ := hl.claims.queued t n _ g ht (by simp [FlushPc.claims])
      obtain rfl : idx = d := Option.some.inj (hn.symm.trans hd)
      simp only [flushStep, if_pos hq] at hs
      obtain rfl := Option.some.inj hs
      exact hl.unlink hi ht hn
  | unlinked g =>
      obtain rfl := Option.some.inj hs
      exact hl.setLock hi ht hn (Or.inr rfl) (Or.inr rfl)
        (.flush (fun _ => le_rfl) (by simp)) rfl rfl
  | released g =>
      obtain rfl := Option.some.inj hs
      exact hl.setLock hi ht hn (Or.inr rfl) (Or.inl rfl) (.idle rfl rfl (by simp)) rfl rfl

/-- One step of a search. -/
theorem search (hl : Ledger s) (hi : Inv s) {pc : SearchPc}
    (ht : s.tasks[t]? = some (.search n pc)) (hn : s.indexes[n]? = some idx)
    (hs : searchStep s t n idx pc = some s') : Ledger s' := by
  cases pc with
  | snapshot =>
      simp only [searchStep] at hs
      split at hs
      next g hg =>
        obtain rfl := Option.some.inj hs
        refine hl.goto hi ht hn (Or.inr rfl) (Or.inr rfl)
          (.search _ (.searching (g :: idx.memtableIdxs))) rfl ?_ ?_ fun g' => ?_
        · rw [setTask_tasks, foldl_addRef_tasks]
        · rw [setTask_indexes, foldl_addRef_indexes]
        · rw [setTask_mt, foldl_addRef_mt]
          exact ⟨rfl, rfl⟩
      next => exact Option.some.inj hs ▸ hl
  | searching held =>
      cases held with
      | nil =>
          obtain rfl := Option.some.inj hs
          exact hl.move hi ht hn (Or.inr rfl) (Or.inl rfl) (.idle rfl rfl (by simp)) rfl
      | cons g held =>
          obtain rfl := Option.some.inj hs
          exact hl.setLock hi ht hn (Or.inr rfl) (Or.inr rfl) (.search _ _) rfl rfl

/-- An error ends a bulk delete. -/
theorem abort (hl : Ledger s) (hi : Inv s) {pc : BulkDeletePc}
    (ht : s.tasks[t]? = some (.bulkDelete n pc)) (hn : s.indexes[n]? = some idx) :
    Ledger (abortBulkDelete s t pc) := by
  have hlose : ∀ u : State V, u.tasks = s.tasks.set t .idle → u.indexes = s.indexes →
      (∀ g, u.mt g = s.mt g) → Ledger u := fun u htasks hindexes hmt =>
    hl.goto hi ht hn (Or.inr rfl) (Or.inl rfl) (.idle rfl rfl (by simp)) rfl htasks hindexes
      fun g => by rw [hmt]; exact ⟨rfl, rfl⟩
  cases pc with
  | scan c g => exact hlose _ rfl rfl fun g' => setExclusive_mt s g g' false
  | _ => exact hlose _ rfl rfl fun _ => rfl

/-- One step of a bulk delete. -/
theorem bulkDelete (hl : Ledger s) (hi : Inv s) {pc : BulkDeletePc}
    (ht : s.tasks[t]? = some (.bulkDelete n pc)) (hn : s.indexes[n]? = some idx)
    (hs : bulkDeleteStep s t n idx pc = some s') : Ledger s' := by
  have hgoto : ∀ pc', Ledger (s.setTask t (.bulkDelete n pc')) := fun pc' =>
    hl.move hi ht hn (Or.inr rfl) (Or.inr rfl) (.bulkDelete _ _) rfl
  have hlock : ∀ pc' g b, b.mt = s.mt g →
      Ledger ((s.setSlot g b).setTask t (.bulkDelete n pc')) := fun pc' g b hb =>
    hl.setLock hi ht hn (Or.inr rfl) (Or.inr rfl) (.bulkDelete _ _) rfl hb
  cases pc with
  | growing =>
      simp only [bulkDeleteStep] at hs
      split at hs
      next => exact Option.some.inj hs ▸ hlock _ _ _ rfl
      next => exact Option.some.inj hs ▸ hgoto _
  | check c g id =>
      simp only [bulkDeleteStep] at hs
      split at hs
      next => exact Option.some.inj hs ▸ hgoto _
      next => exact Option.some.inj hs ▸ hl.abort hi ht hn
  | lock c g =>
      simp only [bulkDeleteStep] at hs
      split at hs
      next => exact Option.some.inj hs ▸ hlock _ _ _ rfl
      next => cases hs
  | scan c g | unref c g => exact Option.some.inj hs ▸ hlock _ _ _ rfl
  | record c g => exact Option.some.inj hs ▸ hgoto _
  | next c =>
      simp only [bulkDeleteStep] at hs
      split at hs
      next => exact Option.some.inj hs ▸ hgoto _
      next => exact Option.some.inj hs ▸ hlock _ _ _ rfl
  | segments =>
      obtain rfl := Option.some.inj hs
      exact hl.move hi ht hn (Or.inr rfl) (Or.inl rfl) (.idle rfl rfl (by simp)) rfl

/-- An idle task enters a call. -/
theorem call (hl : Ledger s) (hi : Inv s) (hy : y.index = some n) (hq : Bookless n .idle y)
    (hnamed : y.named = []) (hs : call s t n y = some s') : Ledger s' := by
  simp only [MemtableBuffer.call] at hs
  split at hs
  next idx ht hn =>
    obtain rfl := Option.some.inj hs
    exact hl.move hi ht hn (Or.inl rfl) (Or.inr hy) hq hnamed
  next => cases hs

/-- Every step keeps the books. -/
theorem step (hl : Ledger s) (hi : Inv s) (ha : Tidy s a) (hs : step s a = some s') :
    Ledger s' := by
  cases a with
  | load d => exact hl.load hi hs
  | insert t n r =>
      refine hl.call (y := .insert n r .enter) hi rfl
        ⟨rfl, ?_, by simp, by simp, fun _ => le_rfl⟩ rfl hs
      simp [Task.releases, InsertPc.releases]
  | search t n =>
      exact hl.call (y := .search n .snapshot) hi rfl
        ⟨rfl, rfl, by simp, by simp, fun _ => le_rfl⟩ rfl hs
  | bulkDelete t n =>
      exact hl.call (y := .bulkDelete n .growing) hi rfl
        ⟨rfl, rfl, by simp, by simp, fun _ => le_rfl⟩ rfl hs
  | flush t n =>
      exact hl.call (y := .flush n .claim) hi rfl
        ⟨rfl, rfl, by simp, by simp, fun _ => le_rfl⟩ rfl hs
  | run t =>
      simp only [MemtableBuffer.step, runStep] at hs
      split at hs
      next n r pc ht =>
        obtain ⟨idx, hn, hs⟩ := Option.bind_eq_some_iff.mp hs
        refine hl.insert hi ht hn ?_ hs
        rintro rfl
        simpa [FreshRotation, ht, hn] using ha.1
      next n pc ht =>
        obtain ⟨idx, hn, hs⟩ := Option.bind_eq_some_iff.mp hs
        exact hl.search hi ht hn hs
      next n pc ht =>
        obtain ⟨idx, hn, hs⟩ := Option.bind_eq_some_iff.mp hs
        exact hl.bulkDelete hi ht hn hs
      next n pc ht =>
        obtain ⟨idx, hn, hs⟩ := Option.bind_eq_some_iff.mp hs
        refine hl.flush hi ht hn ?_ hs
        rintro g rfl
        simpa [Recording, ht, hn] using ha.2
      next => cases hs
  | alloc t g =>
      simp only [MemtableBuffer.step, allocStep] at hs
      split at hs
      next n r cur ht =>
        obtain ⟨idx, hn⟩ := hi.exists_index ht rfl
        split at hs
        next =>
          obtain rfl := Option.some.inj hs
          exact hl.setLock hi ht hn (Or.inr rfl) (Or.inr rfl) (.insert rfl rfl (by simp)) rfl rfl
        next => cases hs
      next => cases hs
  | claim t g =>
      simp only [MemtableBuffer.step, claimStep] at hs
      split at hs
      next n ht =>
        split at hs
        next idx hn =>
          split at hs
          next hg =>
            obtain rfl := Option.some.inj hs
            exact hl.claim hi ht hn hg.1 hg.2
          next => cases hs
        next => cases hs
      next => cases hs
  | mask t i =>
      simp only [MemtableBuffer.step, maskStep] at hs
      split at hs
      next n c g ht =>
        obtain ⟨idx, hn⟩ := hi.exists_index ht rfl
        split at hs
        next =>
          obtain rfl := Option.some.inj hs
          have hset : Ledger ((s.setMt g ((s.mt g).mask i)).setTask t
              (.bulkDelete n (.scan c g))) := by
            refine hl.setMt hi ht hn (Or.inr rfl) (Or.inr rfl) (.bulkDelete _ _) rfl ?_ ?_ <;> rfl
          rwa [setTask_self (by exact ht)] at hset
        next => cases hs
      next => cases hs
  | error t =>
      simp only [MemtableBuffer.step, errorStep] at hs
      split at hs
      next n ht =>
        obtain ⟨idx, hn⟩ := hi.exists_index ht rfl
        obtain rfl := Option.some.inj hs
        exact hl.move hi ht hn (Or.inr rfl) (Or.inl rfl) (.idle rfl rfl (by simp)) rfl
      next n held ht =>
        obtain ⟨idx, hn⟩ := hi.exists_index ht rfl
        obtain rfl := Option.some.inj hs
        refine hl.goto (y := .idle) hi ht hn (Or.inr rfl) (Or.inl rfl) (.idle rfl rfl (by simp))
          rfl ?_ ?_ fun g' => ?_
        · rw [setTask_tasks, foldl_dropRef_tasks]
        · rw [setTask_indexes, foldl_dropRef_indexes]
        · rw [setTask_mt, foldl_dropRef_mt]
          exact ⟨rfl, rfl⟩
      next n pc ht =>
        obtain ⟨idx, hn⟩ := hi.exists_index ht rfl
        obtain rfl := Option.some.inj hs
        exact hl.abort hi ht hn
      next n pc ht =>
        obtain ⟨idx, hn⟩ := hi.exists_index ht rfl
        exact hl.flushError hi ht hn hs
      next => cases hs
  | releaseError t deleted => exact absurd ha.2 id

theorem start (h : Start s) : Ledger s := by
  obtain ⟨-, hindexes, htasks, -⟩ := h
  have hidle : ∀ (t : ℕ) x, s.tasks[t]? = some x → x = .idle := fun t x ht =>
    htasks x (List.mem_of_getElem? ht)
  constructor
  case claims =>
    constructor
    case claimed =>
      intro g
      have hzero : tally (Task.claims g) s.tasks = 0 :=
        (tally_eq_zero _).mpr fun x hx => htasks x hx ▸ rfl
      omega
    case queued =>
      intro t n pc g ht
      cases hidle t _ ht
  case books => simp [hindexes]

end Ledger

/-- The status array is accounted for in every run in which flushes find room to record their
sids, no release raises an error and no rotation for a missing growing memtable finds one. -/
theorem status_accounted (h : Reachable Start step Tidy s) :
    ∀ (n : ℕ) idx, s.indexes[n]? = some idx → Accounted s n idx := by
  obtain ⟨-, hl⟩ : Inv s ∧ Ledger s := by
    refine h.invariant (P := fun s => Inv s ∧ Ledger s)
      (fun s hs => ⟨.start hs, .start hs⟩) ?_
    intro s a s' _ hi ha hs
    exact ⟨hi.1.step ha.1 hs, hi.2.step hi.1 ha hs⟩
  exact fun n idx hn => (hl.books n idx hn).accounted_of

section Demo

/-- A memtable is filled, rotated and flushed; the next insert releases it. -/
def demoRelease : List (Action ℕ) :=
  [demoLoad, .insert 0 0 ⟨11, 0⟩, .run 0, .run 0, .run 0, .run 0,
    .insert 0 0 ⟨12, 0⟩, .run 0, .run 0, .run 0, .alloc 0 1, .run 0, .run 0, .run 0, .run 0,
    .run 0, .run 0, .run 0,
    .flush 1 0, .claim 1 0, .run 1, .run 1, .run 1, .run 1, .run 1, .run 1, .run 1, .run 1,
    .insert 2 0 ⟨13, 0⟩, .run 2, .run 2, .run 2, .run 2, .run 2]

theorem meets_demoRelease : Meets Tidy step demoStart demoRelease := by decide +kernel

/-- A run in which a flushed sid is recorded, released and gone from the status array. -/
theorem status_accounted_demoRelease : ∃ s idx, exec step demoStart demoRelease = some s ∧
    s.indexes[0]? = some idx ∧ Accounted s 0 idx ∧ idx.statusSids = [5] ∧
    idx.released = [4] := by
  have hview : (exec step demoStart demoRelease).map (fun s => s.indexes[0]?.map fun idx =>
      (idx.statusSids, idx.released)) = some (some ([5], [4])) := by decide +kernel
  obtain ⟨s, hs, hview⟩ := Option.map_eq_some_iff.mp hview
  obtain ⟨idx, hn, hview⟩ := Option.map_eq_some_iff.mp hview
  have hsids := Prod.ext_iff.mp hview
  exact ⟨s, idx, hs, hn,
    status_accounted ((Reachable.start start_demoStart).of_exec meets_demoRelease hs) 0 idx hn,
    hsids⟩

/-- `ReleaseStatusMemtable` raises an error before it has deleted the entry. -/
def demoFailedRelease : List (Action ℕ) :=
  demoRelease.take 32 ++ [.releaseError 2 false]

/-- A failed release leaves its sid in the status array, forgotten, and
`releasing_in_progress` set with nobody at work. -/
theorem not_status_accounted : ¬ ∀ s : State ℕ, Reachable Start step anyStep s →
    ∀ (n : ℕ) idx, s.indexes[n]? = some idx → Accounted s n idx := by
  intro hall
  have hview : (exec step demoStart demoFailedRelease).map (fun s =>
      (s.indexes[0]?.map fun idx => (idx.releasingInProgress, idx.flushed.count 4,
        s.pending 0 idx 4 + idx.released.count 4))) = some (some (true, 1, 0)) := by
    decide +kernel
  obtain ⟨s, hs, hview⟩ := Option.map_eq_some_iff.mp hview
  obtain ⟨idx, hn, hview⟩ := Option.map_eq_some_iff.mp hview
  have hreach := (Reachable.start start_demoStart).of_exec (meets_anyStep demoFailedRelease) hs
  have hcount := (hall s hreach 0 idx hn).released 4
  simp only [Prod.mk.injEq] at hview
  omega

end Demo

end VectorLsm.MemtableBuffer
