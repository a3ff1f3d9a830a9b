import VectorLsm.Coverage.Invariant

/-! # What a search reaches

A row that was published before the snapshot is in a memtable of the snapshot, or its memtable has
been handed off and the pool has its id. From then on neither can get away: the memtables of the
snapshot are referenced, and the ids of the pool stay in the ranges of its list.
-/

namespace VectorLsm.Coverage

open Transition Pool FlushedSegmentPool ConcurrentMemTable

variable {V : Type*} {cfg : Config} {own : SlotIdx → Memtable.Owner} {s s' s₀ s₁ : State V}
  {r : Row V} {sid : SegmentId}

/-- The row is in a published slot, where a search of the memtable finds it. -/
def Shows (m : ConcurrentMemTable V) (r : Row V) : Prop :=
  ∃ i < m.validSize, m.ready i = true ∧ m.rows i = r

theorem Shows.aged {m m' : ConcurrentMemTable V} (h : Shows m r) (ha : Memtable.Aged m m') :
    Shows m' r := by
  obtain ⟨i, hi, hready, hrow⟩ := h
  exact ⟨i, hi.trans_le ha.validSize, ha.ready i hready, (ha.rows i (.inl hready)).2.trans hrow⟩

/-- The index has the row: its insert has returned, or it is published in a memtable that is
listed or has been handed off. -/
def Published (mem : Memtable.State V) (r : Row V) : Prop :=
  (∃ t, mem.ins t = .returned r) ∨
  (∃ g, (mem.growingIdx = .slot g ∨ g ∈ mem.memtableIdxs) ∧ Shows (mem.mt g) r) ∨
  ∃ m ∈ mem.handedOff, Shows m r

/-- The search list of a search that has looked at all its memtables and segments. -/
def Call.finished (c : Call V) : Option (List SegmentSearchInfo) :=
  match c.todo, c.walk with
  | [], .filtering [] toSearch => some toSearch
  | _, _ => none

/-- A segment of the search list has the id in its range. -/
def Listed (toSearch : List SegmentSearchInfo) (sid : SegmentId) : Prop :=
  ∃ i ∈ toSearch, i.startSid ≤ sid ∧ sid ≤ i.endSid

/-- A memtable of the snapshot showed the row, or the memtable it was in has been handed off and a
segment of the search list has its id. -/
def Reached (mem₀ : Memtable.State V) (c : Call V) (toSearch : List SegmentSearchInfo)
    (r : Row V) : Prop :=
  (∃ m ∈ c.scanned, Shows m r) ∨
    ∃ m ∈ mem₀.handedOff, Shows m r ∧ Listed toSearch m.memtableId

/-- The worker has the id in its list, or will find it there. -/
def Walk.Finds (pool : FlushedSegmentPool) (sid : SegmentId) : Walk → Prop
  | .sent => Represented pool sid
  | .filtering todo toSearch => (∃ g ∈ todo, pool.Covers g sid) ∨ Listed toSearch sid

/-- What a search under way has still to find, or has found. -/
structure Tracks (rows : Row V → Prop) (sids : SegmentId → Prop) (s : State V) (c : Call V) :
    Prop where
  shown : ∀ r, rows r → (∃ m ∈ c.scanned, Shows m r) ∨ ∃ g ∈ c.todo, Shows (s.mem.mt g) r
  found : ∀ sid, sids sid → c.walk.Finds s.pool.pool sid
  apart : ∀ sid, sids sid → c.snapshot.covers sid = false

section Steps

variable {rows : Row V → Prop} {sids : SegmentId → Prop} {c : Call V}

theorem Walk.Finds.step {w : Walk} {a : Pool.Action} {p : Pool.State} (h : Inv own s)
    (hw : w.Finds s.pool.pool sid) (ha : Steady s.pool a)
    (hs : Pool.step cfg.pool s.pool a = some p)
    (hheld : ∀ todo toSearch, w = .filtering todo toSearch → ∀ g ∈ todo, 0 < s.pool.held g) :
    w.Finds p.pool sid := by
  cases w with
  | sent => exact represented_step h.pool.sound h.pool.claims h.pool.isLocal ha hs hw
  | filtering todo toSearch =>
      rcases hw with ⟨g, hg, hc⟩ | hw
      · exact .inl ⟨g, hg, (covers_of_held h.pool.sound (hheld todo toSearch rfl g hg) hs).2 hc⟩
      · exact .inr hw

/-- The segments still to be looked at are referenced. -/
theorem Inv.held (h : Inv own s) (hc : s.search = some c) {todo : List ℕ}
    {toSearch : List SegmentSearchInfo} (hw : c.walk = .filtering todo toSearch) {g : ℕ}
    (hg : g ∈ todo) : 0 < s.pool.held g := by
  have hle := h.segRefs g
  rw [segRefs_eq hc hw] at hle
  exact (List.count_pos_iff.mpr hg).trans_le hle

/-- The memtables go on; those of the snapshot are still the tenants of their slots. -/
theorem Tracks.memStep (h : Tracks rows sids s c) (hi : Inv own s) (hc : s.search = some c)
    {a : Memtable.Action V} {mem : Memtable.State V} {handoff : ℕ → Handoff}
    (hs : Memtable.step cfg.memtable s.mem a = some mem) :
    Tracks rows sids ({ s with handoff := handoff }.setMem mem) c := by
  obtain ⟨own', ht, -⟩ := Memtable.step_trans own hs
  refine ⟨fun r hr => ?_, h.found, h.apart⟩
  rcases h.shown r hr with hscanned | ⟨g, hg, hshows⟩
  · exact .inl hscanned
  · have haged := ht.aged hi.mem.inv hi.mem.unwritten (hi.tenants c hc g hg)
    exact .inr ⟨g, hg, hshows.aged haged.1⟩

theorem Tracks.poolStep (h : Tracks rows sids s c) (hi : Inv own s) (hc : s.search = some c)
    {a : Pool.Action} {p : Pool.State} {handoff : ℕ → Handoff} (ha : Steady s.pool a)
    (hs : Pool.step cfg.pool s.pool a = some p) :
    Tracks rows sids { s with pool := p, handoff := handoff } c :=
  ⟨h.shown, fun sid hsid => (h.found sid hsid).step hi ha hs
    fun _ _ hw _ hg => hi.held hc hw hg, h.apart⟩

theorem Tracks.scan (h : Tracks rows sids s c) (hi : Inv own s) (hc : s.search = some c)
    (hs : step cfg s .scan = some s') : ∃ c', s'.search = some c' ∧ Tracks rows sids s' c' := by
  simp only [step] at hs
  split at hs
  next sn g todo scanned walk hc' =>
    obtain rfl : c = _ := Option.some.inj (hc.symm.trans hc')
    obtain ⟨mem, hunref, rfl⟩ := Option.map_eq_some_iff.mp hs
    refine ⟨_, rfl, fun r hr => ?_, h.found, h.apart⟩
    rcases h.shown r hr with ⟨m, hm, hshows⟩ | ⟨g', hg', hshows⟩
    · exact .inl ⟨m, List.mem_cons_of_mem _ hm, hshows⟩
    rcases List.mem_cons.mp hg' with rfl | hg'
    · exact .inl ⟨_, List.mem_cons_self, hshows⟩
    · obtain ⟨own', ht, -⟩ := Memtable.step_trans own hunref
      have haged := ht.aged hi.mem.inv hi.mem.unwritten
        (hi.tenants _ hc g' (List.mem_cons_of_mem _ hg'))
      exact .inr ⟨g', hg', hshows.aged haged.1⟩
  next => cases hs

theorem Tracks.traverse (h : Tracks rows sids s c) (hi : Inv own s) (hc : s.search = some c)
    (hs : step cfg s .traverse = some s') :
    ∃ c', s'.search = some c' ∧ Tracks rows sids s' c' := by
  simp only [step] at hs
  split at hs
  next sn mts scanned hc' =>
    obtain rfl : c = _ := Option.some.inj (hc.symm.trans hc')
    obtain ⟨p, hp, rfl⟩ := Option.map_eq_some_iff.mp hs
    obtain rfl := Option.some.inj hp
    obtain ⟨l, hl⟩ := hi.pool.sound
    refine ⟨_, rfl, h.shown, fun sid hsid => .inl ?_, h.apart⟩
    obtain ⟨g, hg, hcov⟩ : Represented s.pool.pool sid := h.found sid hsid
    rw [hl.members] at hg
    refine ⟨g, ?_, hcov⟩
    rw [hl.linked.membersToTail, List.mem_filter]
    exact ⟨hg, hl.used g hg⟩
  next => cases hs

/-- A segment that is passed over has no id of its own. -/
theorem covers_of_fullyCovered {sn : Snapshot} {seg : FlushedSegment} (h : sn.fullyCovered seg)
    (hlo : seg.segmentIdStart ≤ sid) (hhi : sid ≤ seg.segmentIdEnd) : sn.covers sid = true := by
  refine List.all_eq_true.mp h sid ?_
  rw [List.mem_range'_1]
  exact ⟨hlo, by lia⟩

theorem Tracks.classify (h : Tracks rows sids s c) (hi : Inv own s) (hc : s.search = some c)
    (hs : step cfg s .classify = some s') :
    ∃ c', s'.search = some c' ∧ Tracks rows sids s' c' := by
  simp only [step] at hs
  split at hs
  next sn mts scanned g todo toSearch hc' =>
    obtain rfl : c = _ := Option.some.inj (hc.symm.trans hc')
    simp only [classifyStep] at hs
    split at hs
    next hfull =>
      obtain ⟨p, hp, rfl⟩ := Option.map_eq_some_iff.mp hs
      refine ⟨_, rfl, h.shown, fun sid hsid => ?_, h.apart⟩
      rcases h.found sid hsid with ⟨g', hg', hcov⟩ | hlisted
      · rcases List.mem_cons.mp hg' with rfl | hg'
        · -- an id of a segment that is passed over is one of the snapshot
          have hcovers := covers_of_fullyCovered hfull hcov.1 hcov.2
          rw [h.apart sid hsid] at hcovers
          cases hcovers
        · have hheld := hi.held hc rfl (List.mem_cons_of_mem g hg')
          exact .inl ⟨g', hg', (covers_of_held hi.pool.sound hheld hp).2 hcov⟩
      · exact .inr hlisted
    next =>
      obtain rfl := Option.some.inj hs
      refine ⟨_, rfl, h.shown, fun sid hsid => ?_, h.apart⟩
      rcases h.found sid hsid with ⟨g', hg', hcov⟩ | ⟨i, hi', hrange⟩
      · rcases List.mem_cons.mp hg' with rfl | hg'
        · exact .inr ⟨_, List.mem_append_right _ List.mem_cons_self, hcov⟩
        · exact .inl ⟨g', hg', hcov⟩
      · exact .inr ⟨i, List.mem_append_left _ hi', hrange⟩
  next => cases hs

theorem Tracks.step {a : Action V} (h : Tracks rows sids s c) (hi : Inv own s)
    (hc : s.search = some c) (hok : Clear s a) (hs : Coverage.step cfg s a = some s') :
    ∃ c', s'.search = some c' ∧ Tracks rows sids s' c' := by
  cases a with
  | mem a =>
      simp only [Coverage.step] at hs
      split at hs
      · obtain ⟨mem, hmem, rfl⟩ := Option.map_eq_some_iff.mp hs
        exact ⟨c, hc, h.memStep hi hc hmem⟩
      · cases hs
  | pool a =>
      simp only [Coverage.step] at hs
      split at hs
      · obtain ⟨p, hp, rfl⟩ := Option.map_eq_some_iff.mp hs
        exact ⟨c, hc, h.poolStep hi hc hok.1 hp⟩
      · cases hs
  | notify f t =>
      simp only [Coverage.step] at hs
      split at hs
      · obtain ⟨p, hp, rfl⟩ := Option.map_eq_some_iff.mp hs
        exact ⟨c, hc, h.poolStep (a := .regular t _ _) hi hc trivial hp⟩
      · cases hs
  | resume f =>
      simp only [Coverage.step] at hs
      split at hs
      · obtain ⟨mem, hmem, rfl⟩ := Option.map_eq_some_iff.mp hs
        exact ⟨c, hc, h.memStep hi hc hmem⟩
      · cases hs
  | snapshot => simp [Coverage.step, hc] at hs
  | scan => exact h.scan hi hc hs
  | traverse => exact h.traverse hi hc hs
  | classify => exact h.classify hi hc hs

theorem Tracks.exec {as : List (Action V)} (h : Tracks rows sids s c) (hi : Inv own s)
    (hc : s.search = some c) (hm : Meets Clear (Coverage.step cfg) s as)
    (hs : Transition.exec (Coverage.step cfg) s as = some s') :
    ∃ c', s'.search = some c' ∧ Tracks rows sids s' c' := by
  induction as generalizing s own c with
  | nil =>
      obtain rfl := Option.some.inj hs
      exact ⟨c, hc, h⟩
  | cons a as ih =>
      obtain ⟨u, hu, hs⟩ := Option.bind_eq_some_iff.mp hs
      obtain ⟨hok, hm⟩ := hm
      rw [hu] at hm
      obtain ⟨own', hi'⟩ := hi.step hok hu
      obtain ⟨c', hc', h'⟩ := h.step hi hc hok hu
      exact ih h' hi' hc' hm hs

end Steps

section Snapshot

/-- While there is a growing memtable no rotation is under way: a live memtable with a row is
the growing one or queued. -/
theorem listed_of_live {mem : Memtable.State V} {g₀ g : SlotIdx} (hi : MemInv own mem)
    (hgrow : mem.growingIdx = .slot g₀) (hg : (own g).Live) (hshows : Shows (mem.mt g) r) :
    mem.growingIdx = .slot g ∨ g ∈ mem.memtableIdxs := by
  cases ho : own g with
  | growing => exact .inl ((hi.inv.places.growing g).1 ho)
  | queued => exact .inr ((hi.inv.places.queued g).1 ho)
  | rotation t =>
      have hout := (hi.inv.places.rotation t g).1 ho
      have hrot := hi.inv.locks.rotating t (by cases hpc : mem.ins t <;> simp_all)
      rw [hgrow] at hrot
      cases hrot
  | fresh u =>
      obtain ⟨i, hlt, -⟩ := hshows
      simp [validSize, hi.inv.slots.fresh u g ho] at hlt
  | orphan => exact absurd ho (hi.noOrphan g)
  | nobody | building _ | unlinked _ => simp [ho] at hg

/-- Every row the index has is in a listed memtable or in one handed off. -/
theorem Published.cases {mem : Memtable.State V} {g₀ : SlotIdx} (h : Published mem r)
    (hi : MemInv own mem) (hgrow : mem.growingIdx = .slot g₀) :
    (∃ g, (mem.growingIdx = .slot g ∨ g ∈ mem.memtableIdxs) ∧ Shows (mem.mt g) r) ∨
      ∃ m ∈ mem.handedOff, Shows m r := by
  rcases h with ⟨t, ht⟩ | h | h
  · rcases hi.inv.kept t r ht with ⟨g, i, hg, hh⟩ | ⟨m, hm, i, hh⟩
    · have hshows : Shows (mem.mt g) r := ⟨i, hh.valid, hh.ready, hh.row⟩
      exact .inl ⟨g, listed_of_live hi hgrow hg hshows, hshows⟩
    · exact .inr ⟨m, hm, i, hh.valid, hh.ready, hh.row⟩
  · exact .inl h
  · exact .inr h

/-- The ids of a snapshot are those of the listed memtables. -/
theorem covers_take {mem : Memtable.State V} {g : SlotIdx} (hgrow : mem.growingIdx = .slot g)
    (h : (Snapshot.take mem g).covers sid = true) :
    ∃ g', (mem.growingIdx = .slot g' ∨ g' ∈ mem.memtableIdxs) ∧ (mem.mt g').memtableId = sid := by
  rcases Bool.or_eq_true_iff.mp h with hid | hid
  · exact ⟨g, .inl hgrow, (of_decide_eq_true hid).symm⟩
  · obtain ⟨id, hmem, hid⟩ := List.any_eq_true.mp hid
    obtain ⟨g', hg', rfl⟩ := List.mem_map.mp hmem
    exact ⟨g', .inr hg', of_decide_eq_true hid⟩

theorem live_of_listed {mem : Memtable.State V} {g : SlotIdx} (hi : MemInv own mem)
    (h : mem.growingIdx = .slot g ∨ g ∈ mem.memtableIdxs) : (own g).Live := by
  rcases h with h | h
  · simp [(hi.inv.places.growing g).2 h]
  · simp [(hi.inv.places.queued g).2 h]

/-- What the search has to find when it has its snapshot. -/
theorem tracks_of_snapshot (hi : Inv own s₀) (hs : step cfg s₀ .snapshot = some s₁) :
    ∃ g c, s₀.mem.growingIdx = .slot g ∧ s₁.search = some c ∧ c.snapshot = .take s₀.mem g ∧
      Tracks (fun r => ∃ g, (s₀.mem.growingIdx = .slot g ∨ g ∈ s₀.mem.memtableIdxs) ∧
          Shows (s₀.mem.mt g) r)
        (fun sid => Represented s₀.pool.pool sid ∧ c.snapshot.covers sid = false) s₁ c := by
  simp only [step] at hs
  split at hs
  next g _ hgrow =>
    obtain ⟨mem, hacq, rfl⟩ := Option.map_eq_some_iff.mp hs
    obtain ⟨-, -, hmt, -⟩ := acquireAll_spec hi.mem hi.announced hacq
    refine ⟨g, _, hgrow, rfl, rfl, ?_, fun sid h => h.1, fun sid h => h.2⟩
    rintro r ⟨g', hg', hshows⟩
    refine .inr ⟨g', ?_, ?_⟩
    · rcases hg' with hg' | hg'
      · rw [hgrow] at hg'
        cases hg'
        exact List.mem_cons_self
      · exact List.mem_cons_of_mem _ hg'
    · change Shows (mem.mt g') r
      rwa [hmt]
  next => cases hs

end Snapshot

section Demo

/-- The index build has written segment 3, and the first memtable has room for two rows. -/
def demoConfig : Config where
  memtable := Memtable.demoConfig
  pool := Pool.demoConfig

def demoStart (mem : Memtable.State Unit) : State Unit where
  mem := mem
  pool := {
    pool := .loadAll Pool.demoConfig false [Pool.demoFile 3 3]
    pc := Function.update (fun _ => .idle) 0 .idle
    upgrades := []
    held := fun _ => 0
    dropping := fun _ => 0
    retired := fun _ => false }
  handoff := fun _ => .none
  search := none

/-- An insert up to its return. -/
def demoInsert : List (Action Unit) := Memtable.oneInsert.map .mem

def demoSearch : List (Action Unit) := [.traverse, .scan, .classify]

/-- The condition on a step that is none of the pool; it can be evaluated. -/
def ClearMem (s : State V) : Action V → Prop
  | .mem a => Memtable.EntersEmpty s.mem a
  | .pool _ => False
  | _ => True

instance (s : State V) (a : Action V) : Decidable (ClearMem s a) := by
  unfold ClearMem
  split <;> infer_instance

theorem ClearMem.clear {a : Action V} (h : ClearMem s a) : Clear s a := by
  cases a with
  | pool => exact h.elim
  | mem => exact h
  | _ => trivial

end Demo

end VectorLsm.Coverage
