import VectorLsm.MemtableBuffer.Exact

/-! # The books of the status pages

A sid in the memtable array of the status pages stands for a live memtable or for one whose flush
is recorded and whose release is still to come. `Books` says so for one index, with what a flush
and a release find when they write it; `Claims` says that a memtable has one flush at most.
-/

namespace VectorLsm.MemtableBuffer

open Tally State

variable {V : Type*}

/-- The flush has claimed the memtable and not taken it off the queue. -/
def FlushPc.claims (g : SlotIdx) : FlushPc → ℕ
  | .claimed h | .waiting h | .settled h | .written h | .registered h | .tracked h =>
      if h = g then 1 else 0
  | _ => 0

def Task.claims (g : SlotIdx) : Task V → ℕ
  | .flush _ pc => pc.claims g
  | _ => 0

/-- The sids that a call for the index `n` is about to release. -/
def Task.batch (n : ℕ) : Task V → List SegmentId
  | .insert m _ (.release batch) => if m = n then batch else []
  | _ => []

def InsertPc.releases : InsertPc → Bool
  | .lock | .release _ | .clear => true
  | _ => false

/-- The call for the index `n` has set `releasing_in_progress`. -/
def Task.releases (n : ℕ) : Task V → ℕ
  | .insert m _ pc => if m = n ∧ pc.releases then 1 else 0
  | _ => 0

/-- A memtable of the index `n` that is growing, queued or in rotation. -/
def Lives (s : State V) (n : ℕ) (g : SlotIdx) : Prop :=
  (∃ idx, s.indexes[n]? = some idx ∧ g ∈ idx.owns) ∨
    ∃ (t : ℕ) (x : Task V), s.tasks[t]? = some x ∧ x.index = some n ∧ g ∈ x.named

/-- How often a sid is recorded as flushed and not released: in the array or in the batch of a
call that is releasing. -/
def State.pending (s : State V) (n : ℕ) (idx : LSMIndex) (sid : SegmentId) : ℕ :=
  idx.flushedNotReleased.count sid + tally (fun x => (x.batch n).count sid) s.tasks

structure Claims (s : State V) : Prop where
  claimed : ∀ g, tally (Task.claims g) s.tasks ≤ if (s.mt g).flushClaimed then 1 else 0
  queued : ∀ (t n : ℕ) pc g, s.tasks[t]? = some (.flush n pc) → 0 < pc.claims g →
    ∃ idx, s.indexes[n]? = some idx ∧ g ∈ idx.memtableIdxs

structure Books (s : State V) (n : ℕ) (idx : LSMIndex) : Prop where
  accounted : ∀ sid ∈ idx.statusSids, (∃ g, Lives s n g ∧ (s.mt g).memtableId = sid) ∨
    sid ∈ idx.flushed ∧ sid ∉ idx.released
  balanced : ∀ sid, idx.flushed.count sid = s.pending n idx sid + idx.released.count sid
  once : idx.flushed.Nodup
  releasing : tally (Task.releases n) s.tasks = if idx.releasingInProgress then 1 else 0
  short : idx.flushedNotReleased.length ≤ memtableNum
  nodup : idx.statusSids.Nodup
  gone : ∀ sid ∈ idx.released, sid ∉ idx.statusSids
  below : ∀ sid ∈ idx.flushed, sid < idx.nextSegmentId
  lives : ∀ g, Lives s n g → (s.mt g).memtableId < idx.nextSegmentId
  distinct : ∀ g g', Lives s n g → Lives s n g' →
    (s.mt g).memtableId = (s.mt g').memtableId → g = g'
  tracked : ∀ g, Lives s n g → (s.mt g).memtableId ∈ idx.flushed →
    ∃ t : ℕ, s.tasks[t]? = some (.flush n (.tracked g))
  recorded : ∀ (t : ℕ) g, s.tasks[t]? = some (.flush n (.tracked g)) →
    (s.mt g).memtableId ∈ idx.flushed
  announced : ∀ (t : ℕ) r cur new, s.tasks[t]? = some (.insert n r (.announce cur new)) →
    (s.mt new).memtableId ∉ idx.statusSids

structure Ledger (s : State V) : Prop where
  claims : Claims s
  books : ∀ (n : ℕ) idx, s.indexes[n]? = some idx → Books s n idx

variable {s s' : State V} {t n m : ℕ} {x y : Task V} {idx idx' d : LSMIndex} {g : SlotIdx}

/-- The memtables and calls of the index `m` are as they were, as far as its books go. -/
structure Still (s s' : State V) (m : ℕ) : Prop where
  lives : ∀ g, Lives s' m g ↔ Lives s m g
  names : ∀ g, Lives s m g → (s'.mt g).memtableId = (s.mt g).memtableId
  batch : ∀ sid, tally (fun x => (x.batch m).count sid) s'.tasks =
    tally (fun x => (x.batch m).count sid) s.tasks
  releases : tally (Task.releases m) s'.tasks = tally (Task.releases m) s.tasks
  tracked : ∀ g, (∃ t : ℕ, s'.tasks[t]? = some (.flush m (.tracked g))) ↔
    ∃ t : ℕ, s.tasks[t]? = some (.flush m (.tracked g))
  announced : ∀ (t : ℕ) r cur new, s'.tasks[t]? = some (.insert m r (.announce cur new)) →
    ∃ t : ℕ, s.tasks[t]? = some (.insert m r (.announce cur new))

/-- What the books of an index are about. -/
structure SameBooks (idx idx' : LSMIndex) : Prop where
  statusSids : idx'.statusSids = idx.statusSids
  flushed : idx'.flushed = idx.flushed
  released : idx'.released = idx.released
  flushedNotReleased : idx'.flushedNotReleased = idx.flushedNotReleased
  releasingInProgress : idx'.releasingInProgress = idx.releasingInProgress
  nextSegmentId : idx'.nextSegmentId = idx.nextSegmentId

theorem SameBooks.refl (idx : LSMIndex) : SameBooks idx idx := ⟨rfl, rfl, rfl, rfl, rfl, rfl⟩

/-- A memtable that a flush has claimed is in the queue. -/
theorem Claims.lives (hc : Claims s) {pc : FlushPc} (ht : s.tasks[t]? = some (.flush n pc))
    (hpc : 0 < pc.claims g) : Lives s n g := by
  obtain ⟨idx, hn, hg⟩ := hc.queued t n pc g ht hpc
  exact Or.inl ⟨idx, hn, by simp [LSMIndex.owns, hg]⟩

theorem Books.still (hb : Books s m d) (hc : Claims s) (h : Still s s' m)
    (hd : SameBooks d idx') : Books s' m idx' := by
  have hpending : ∀ sid, s'.pending m idx' sid = s.pending m d sid := by
    intro sid
    rw [State.pending, hd.flushedNotReleased, h.batch]
    rfl
  constructor
  case accounted =>
    intro sid hsid
    rw [hd.flushed, hd.released]
    refine (hb.accounted sid (hd.statusSids ▸ hsid)).imp_left ?_
    rintro ⟨g, hg, rfl⟩
    exact ⟨g, (h.lives g).mpr hg, h.names g hg⟩
  case balanced =>
    intro sid
    rw [hd.flushed, hd.released, hpending]
    exact hb.balanced sid
  case once => exact hd.flushed ▸ hb.once
  case releasing =>
    rw [h.releases, hd.releasingInProgress]
    exact hb.releasing
  case short => exact hd.flushedNotReleased ▸ hb.short
  case nodup => exact hd.statusSids ▸ hb.nodup
  case gone =>
    intro sid hsid
    rw [hd.statusSids]
    exact hb.gone sid (hd.released ▸ hsid)
  case below =>
    intro sid hsid
    rw [hd.nextSegmentId]
    exact hb.below sid (hd.flushed ▸ hsid)
  case lives =>
    intro g hg
    have hg := (h.lives g).mp hg
    rw [h.names g hg, hd.nextSegmentId]
    exact hb.lives g hg
  case distinct =>
    intro g g' hg hg' heq
    have hg := (h.lives g).mp hg
    have hg' := (h.lives g').mp hg'
    rw [h.names g hg, h.names g' hg'] at heq
    exact hb.distinct g g' hg hg' heq
  case tracked =>
    intro g hg hid
    have hg := (h.lives g).mp hg
    rw [h.names g hg, hd.flushed] at hid
    exact (h.tracked g).mpr (hb.tracked g hg hid)
  case recorded =>
    intro t g ht
    obtain ⟨u, hu⟩ := (h.tracked g).mp ⟨t, ht⟩
    rw [h.names g (hc.lives hu (by simp [FlushPc.claims])), hd.flushed]
    exact hb.recorded u g hu
  case announced =>
    intro t r cur new ht
    obtain ⟨u, hu⟩ := h.announced t r cur new ht
    have hlive : Lives s m new := Or.inr ⟨u, _, hu, rfl, by simp [Task.named, InsertPc.named]⟩
    rw [h.names new hlive, hd.statusSids]
    exact hb.announced u r cur new hu

/-- A rotation of another call for the index `n` has the memtable in its hands. -/
def Elsewhere (s : State V) (n t : ℕ) (g : SlotIdx) : Prop :=
  ∃ (u : ℕ) (z : Task V),
    u ≠ t ∧ s.tasks[u]? = some z ∧ z.index = some n ∧ g ∈ z.named

theorem Task.index_of_named (hx : x.index = none ∨ x.index = some n) (hg : g ∈ x.named) :
    x.index = some n := by
  rcases hx with hx | hx
  · cases x <;> simp_all [Task.index, Task.named]
  · exact hx

namespace Local

variable (h : Local s s' t n x y idx idx')

include h

theorem tally_eq (f : Task V → ℕ) : tally f s'.tasks + f x = tally f s.tasks + f y := by
  rw [h.tasks]
  exact tally_set f h.task y

theorem pending (sid : SegmentId) :
    s'.pending n idx' sid + ((x.batch n).count sid + idx.flushedNotReleased.count sid) =
      s.pending n idx sid + ((y.batch n).count sid + idx'.flushedNotReleased.count sid) := by
  have := h.tally_eq fun x => (x.batch n).count sid
  simp only [State.pending]
  omega

theorem pending_eq (hbatch : y.batch n = x.batch n)
    (hsame : idx'.flushedNotReleased = idx.flushedNotReleased) (sid : SegmentId) :
    s'.pending n idx' sid = s.pending n idx sid := by
  have := h.pending sid
  rw [hbatch, hsame] at this
  omega

theorem lives_before (g : SlotIdx) :
    Lives s n g ↔ Elsewhere s n t g ∨ g ∈ idx.owns ∨ g ∈ x.named := by
  constructor
  · rintro (⟨d, hd, hg⟩ | ⟨u, z, hu, hz, hg⟩)
    · obtain rfl : idx = d := Option.some.inj (h.index.symm.trans hd)
      exact Or.inr (Or.inl hg)
    · by_cases hut : u = t
      · subst hut
        obtain rfl : x = z := Option.some.inj (h.task.symm.trans hu)
        exact Or.inr (Or.inr hg)
      · exact Or.inl ⟨u, z, hut, hu, hz, hg⟩
  · rintro (⟨u, z, -, hu, hz, hg⟩ | hg | hg)
    · exact Or.inr ⟨u, z, hu, hz, hg⟩
    · exact Or.inl ⟨idx, h.index, hg⟩
    · exact Or.inr ⟨t, x, h.task, Task.index_of_named h.before hg, hg⟩

theorem lives_after (g : SlotIdx) :
    Lives s' n g ↔ Elsewhere s n t g ∨ g ∈ idx'.owns ∨ g ∈ y.named := by
  constructor
  · rintro (⟨d, hd, hg⟩ | ⟨u, z, hu, hz, hg⟩)
    · rcases h.index_iff.mp hd with ⟨-, rfl⟩ | ⟨hne, -⟩
      · exact Or.inr (Or.inl hg)
      · exact absurd rfl hne
    · rcases h.task_iff.mp hu with ⟨-, rfl⟩ | ⟨hut, hu⟩
      · exact Or.inr (Or.inr hg)
      · exact Or.inl ⟨u, z, hut, hu, hz, hg⟩
  · rintro (⟨u, z, hut, hu, hz, hg⟩ | hg | hg)
    · exact Or.inr ⟨u, z, h.task_iff.mpr (Or.inr ⟨hut, hu⟩), hz, hg⟩
    · exact Or.inl ⟨idx', h.index_iff.mpr (Or.inl ⟨rfl, rfl⟩), hg⟩
    · exact Or.inr ⟨t, y, h.task_iff.mpr (Or.inl ⟨rfl, rfl⟩),
        Task.index_of_named h.after hg, hg⟩

theorem lives_of_ne (hm : m ≠ n) (g : SlotIdx) : Lives s' m g ↔ Lives s m g := by
  have hne : ∀ z : Task V, (z.index = none ∨ z.index = some n) → z.index ≠ some m := by
    rintro z (hz | hz) heq
    · simp [hz] at heq
    · exact hm (Option.some.inj (heq.symm.trans hz))
  constructor
  · rintro (⟨d, hd, hg⟩ | ⟨u, z, hu, hz, hg⟩)
    · rcases h.index_iff.mp hd with ⟨heq, -⟩ | ⟨-, hd⟩
      · exact absurd heq hm
      · exact Or.inl ⟨d, hd, hg⟩
    · rcases h.task_iff.mp hu with ⟨-, rfl⟩ | ⟨-, hu⟩
      · exact absurd hz (hne _ h.after)
      · exact Or.inr ⟨u, z, hu, hz, hg⟩
  · rintro (⟨d, hd, hg⟩ | ⟨u, z, hu, hz, hg⟩)
    · exact Or.inl ⟨d, h.index_iff.mpr (Or.inr ⟨hm, hd⟩), hg⟩
    · by_cases hut : u = t
      · subst hut
        obtain rfl : x = z := Option.some.inj (h.task.symm.trans hu)
        exact absurd hz (hne _ h.before)
      · exact Or.inr ⟨u, z, h.task_iff.mpr (Or.inr ⟨hut, hu⟩), hz, hg⟩

end Local

/-- The call for the index `n` goes on without an entry in its books. -/
structure Bookless (n : ℕ) (x y : Task V) : Prop where
  batch : y.batch n = x.batch n
  releases : y.releases n = x.releases n
  tracked : ∀ g, y = .flush n (.tracked g) ↔ x = .flush n (.tracked g)
  announced : ∀ r cur new, y ≠ .insert n r (.announce cur new)
  claims : ∀ g, y.claims g ≤ x.claims g

theorem Task.batch_of_index (hx : x.index ≠ some m) : x.batch m = [] := by
  cases x with
  | insert k r pc => cases pc <;> simp_all [Task.index, Task.batch]
  | _ => rfl

theorem Task.releases_of_index (hx : x.index ≠ some m) : x.releases m = 0 := by
  cases x <;> simp_all [Task.index, Task.releases]

namespace Local

/-- The books of another index do not notice. -/
theorem still_of_ne (h : Local s s' t n x y idx idx') (hi : Inv s) (hm : m ≠ n)
    (hid : ∀ g, (s'.mt g).memtableId = (s.mt g).memtableId ∨ g ∈ x.owns) : Still s s' m := by
  have hne : ∀ z : Task V, (z.index = none ∨ z.index = some n) → z.index ≠ some m := by
    rintro z (hz | hz) heq
    · simp [hz] at heq
    · exact hm (Option.some.inj (heq.symm.trans hz))
  constructor
  case lives => exact h.lives_of_ne hm
  case names =>
    intro g hg
    refine (hid g).resolve_right fun hx => ?_
    obtain ⟨hidx, hother⟩ := hi.not_owned h.task hx
    rcases hg with ⟨d, hd, hg⟩ | ⟨u, z, hu, hz, hg⟩
    · exact hidx m d hd hg
    · by_cases hut : u = t
      · subst hut
        obtain rfl : x = z := Option.some.inj (h.task.symm.trans hu)
        exact hne _ h.before hz
      · exact hother u z hu hut (Task.named_subset hg)
  case batch =>
    intro sid
    have := h.tally_eq fun x => (x.batch m).count sid
    rw [Task.batch_of_index (hne x h.before), Task.batch_of_index (hne y h.after)] at this
    simpa using this
  case releases =>
    have := h.tally_eq (Task.releases m)
    rw [Task.releases_of_index (hne x h.before), Task.releases_of_index (hne y h.after)] at this
    simpa using this
  case tracked =>
    intro g
    constructor
    · rintro ⟨u, hu⟩
      rcases h.task_iff.mp hu with ⟨-, hy⟩ | ⟨-, hu⟩
      · exact absurd (by rw [← hy]; rfl) (hne y h.after)
      · exact ⟨u, hu⟩
    · rintro ⟨u, hu⟩
      by_cases hut : u = t
      · subst hut
        have hx := Option.some.inj (h.task.symm.trans hu)
        exact absurd (by rw [hx]; rfl) (hne x h.before)
      · exact ⟨u, h.task_iff.mpr (Or.inr ⟨hut, hu⟩)⟩
  case announced =>
    intro u r cur new hu
    rcases h.task_iff.mp hu with ⟨-, hy⟩ | ⟨-, hu⟩
    · exact absurd (by rw [← hy]; rfl) (hne y h.after)
    · exact ⟨u, hu⟩

/-- The books of the index of the call do not notice either. -/
theorem still (h : Local s s' t n x y idx idx') (hq : Bookless n x y)
    (hid : ∀ g, (s'.mt g).memtableId = (s.mt g).memtableId)
    (hlives : ∀ g, g ∈ idx'.owns ∨ g ∈ y.named ↔ g ∈ idx.owns ∨ g ∈ x.named) :
    Still s s' n := by
  constructor
  case lives =>
    intro g
    rw [h.lives_after, h.lives_before, hlives]
  case names => exact fun g _ => hid g
  case batch =>
    intro sid
    have := h.tally_eq fun x => (x.batch n).count sid
    rw [hq.batch] at this
    omega
  case releases =>
    have := h.tally_eq (Task.releases n)
    rw [hq.releases] at this
    omega
  case tracked =>
    intro g
    constructor
    · rintro ⟨u, hu⟩
      rcases h.task_iff.mp hu with ⟨rfl, hy⟩ | ⟨-, hu⟩
      · exact ⟨u, ((hq.tracked g).mp hy.symm) ▸ h.task⟩
      · exact ⟨u, hu⟩
    · rintro ⟨u, hu⟩
      by_cases hut : u = t
      · subst hut
        have hx := Option.some.inj (h.task.symm.trans hu)
        exact ⟨u, h.task_iff.mpr (Or.inl ⟨rfl, ((hq.tracked g).mpr hx).symm⟩)⟩
      · exact ⟨u, h.task_iff.mpr (Or.inr ⟨hut, hu⟩)⟩
  case announced =>
    intro u r cur new hu
    rcases h.task_iff.mp hu with ⟨-, hy⟩ | ⟨-, hu⟩
    · exact absurd hy.symm (hq.announced r cur new)
    · exact ⟨u, hu⟩

/-- A call that claims no more keeps the claims. -/
theorem claims (h : Local s s' t n x y idx idx') (hc : Claims s)
    (hclaims : ∀ g, y.claims g ≤ x.claims g)
    (hflag : ∀ g, (s'.mt g).flushClaimed = (s.mt g).flushClaimed ∨
      tally (Task.claims g) s.tasks = 0)
    (hqueue : ∀ g, g ∈ idx.memtableIdxs → g ∈ idx'.memtableIdxs ∨
      x.claims g = 1 ∧ y.claims g = 0) : Claims s' := by
  have hsum := fun g => h.tally_eq (Task.claims g)
  constructor
  case claimed =>
    intro g
    have := hsum g
    have := hclaims g
    have hold := hc.claimed g
    rcases hflag g with hsame | hzero
    · rw [hsame]
      omega
    · omega
  case queued =>
    intro u m pc g hu hpc
    have hmem : ∀ (v : ℕ) pc, s.tasks[v]? = some (.flush m pc) → 0 < pc.claims g →
        (v = t → 0 < y.claims g) → ∃ d, s'.indexes[m]? = some d ∧ g ∈ d.memtableIdxs := by
      intro v pc hv hpc hy
      obtain ⟨d, hd, hg⟩ := hc.queued v m pc g hv hpc
      by_cases hmn : m = n
      · subst hmn
        obtain rfl : idx = d := Option.some.inj (h.index.symm.trans hd)
        refine ⟨idx', h.index_iff.mpr (Or.inl ⟨rfl, rfl⟩), (hqueue g hg).resolve_right ?_⟩
        rintro ⟨hx, hzero⟩
        by_cases hvt : v = t
        · have := hy hvt
          omega
        · have hle := add_le_tally (Task.claims g) hv h.task hvt
          have hone := hc.claimed g
          have hpc : 0 < Task.claims g (.flush m pc : Task V) := hpc
          split at hone <;> omega
      · exact ⟨d, h.index_iff.mpr (Or.inr ⟨hmn, hd⟩), hg⟩
    rcases h.task_iff.mp hu with ⟨rfl, hy⟩ | ⟨hut, hu⟩
    · have hy' : 0 < y.claims g := by rw [← hy]; exact hpc
      have hx := hclaims g
      have hidx := h.before
      cases hxt : x with
      | flush k pc' =>
          have hk : k = m := by
            have hafter := h.after
            rw [hxt] at hidx
            rw [← hy] at hafter
            simp only [Task.index, reduceCtorEq, Option.some.injEq, false_or] at hidx hafter
            omega
          subst hk
          rw [hxt] at hx
          exact hmem u pc' (hxt ▸ h.task) (hy'.trans_le hx) fun _ => hy'
      | _ =>
          rw [hxt] at hx
          exact absurd hx (Nat.not_le.mpr hy')
    · exact hmem u pc hu hpc fun heq => absurd heq hut

end Local

namespace Ledger

/-- A step without an entry in the books. -/
theorem quiet (hl : Ledger s) (hi : Inv s) (h : Local s s' t n x y idx idx')
    (hq : Bookless n x y) (hd : SameBooks idx idx')
    (hid : ∀ g, (s'.mt g).memtableId = (s.mt g).memtableId)
    (hflag : ∀ g, (s'.mt g).flushClaimed = (s.mt g).flushClaimed)
    (hlives : ∀ g, g ∈ idx'.owns ∨ g ∈ y.named ↔ g ∈ idx.owns ∨ g ∈ x.named)
    (hqueue : idx.memtableIdxs ⊆ idx'.memtableIdxs) : Ledger s' where
  claims := h.claims hl.claims hq.claims (fun g => Or.inl (hflag g)) fun _ hg =>
    Or.inl (hqueue hg)
  books m d hm := by
    rcases h.index_iff.mp hm with ⟨rfl, rfl⟩ | ⟨hne, hm⟩
    · exact (hl.books m idx h.index).still hl.claims (h.still hq hid hlives) hd
    · exact (hl.books m d hm).still hl.claims
        (h.still_of_ne hi hne fun g => Or.inl (hid g)) (SameBooks.refl d)

end Ledger

end VectorLsm.MemtableBuffer
