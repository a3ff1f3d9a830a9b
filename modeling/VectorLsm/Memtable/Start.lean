import VectorLsm.Memtable.Rows

/-! # Start states

What `build_lsm_index` and the memtable part of `recover_lsm_index_internal` leave: at most
one growing memtable, sealed ones in the queue, and no call in progress.
-/

namespace VectorLsm.Memtable

open ConcurrentMemTable

variable {V : Type*}

/-- The fetch-and-add, row copy and publish of one recovered row. -/
def recoverRow (m : ConcurrentMemTable V) (r : Row V) : ConcurrentMemTable V :=
  { m.bump with rows := Function.update m.rows m.currentSize r }.publishSlotRelease m.currentSize

/-- A state with no memtable, over a buffer in which other indexes hold slots. -/
def State.empty (slots : SlotIdx → MemtableBufferSlot V) : State V where
  slots := slots
  growingIdx := .invalid
  growingId := 0
  memtableIdxs := []
  nextSegmentId := startSegmentId + 1
  mtShared := ∅
  ins := fun _ => .idle
  flu := fun _ => .idle
  handedOff := []

/-- `register_and_set_memtable` takes the first free slot. -/
def firstFree (s : State V) : Option SlotIdx :=
  (List.finRange memtableBufSize).find? fun g => (s.slots g).refCount = 0

/-- `allocate_new_growing_memtable`, which waits (`none`) while the buffer is full. -/
def allocate (cfg : Config) (s : State V) (sid : SegmentId) : Option (State V × SlotIdx) :=
  (firstFree s).map fun g =>
    (s.setSlot g { s.slots g with
      refCount := 1, mt := (s.mt g).register cfg.rel sid cfg.capacity }, g)

/-- `build_lsm_index` after the segment of the build is on disk. -/
def buildLsmIndex (cfg : Config) (slots : SlotIdx → MemtableBufferSlot V) : Option (State V) :=
  let s := State.empty slots
  (allocate cfg s s.nextSegmentId).map fun (s', g) =>
    s'.allocId.setGrowing (.slot g) s.nextSegmentId

/-- What recovery reads from the status pages, the segment directory and the heap. -/
structure StatusPages (V : Type*) where
  growingSid : SegmentId
  /-- The unreleased memtables, ascending. -/
  sids : List SegmentId
  /-- `files[file_count - 1].end_sid`. -/
  lastFlushed : SegmentId
  /-- The rows on the list of a memtable whose heap tuples can be fetched. -/
  rows : SegmentId → List (Row V)

/-- One round of the loop over unreleased memtables; `none` is `elog(ERROR)` or a full buffer. -/
def recoverMemtable (cfg : Config) (pages : StatusPages V) (s : State V) (sid : SegmentId) :
    Option (State V) :=
  if sid ≤ pages.lastFlushed then some s
  else
    (allocate cfg s sid).bind fun (s', g) =>
      let m := (pages.rows sid).foldl recoverRow (s'.mt g)
      if sid = pages.growingSid then
        some (((s'.setMt g m).setGrowing (.slot g) sid).setNextId (sid + 1))
      else if s'.memtableIdxs.length < memtableNum then
        some ((s'.setMt g m.setSealed).setQueue (s'.memtableIdxs ++ [g]))
      else none

/-- The memtable part of `recover_lsm_index_internal`. Without a growing memtable the index
is left with `MT_IDX_INVALID`. -/
def recoverLsmIndex (cfg : Config) (pages : StatusPages V)
    (slots : SlotIdx → MemtableBufferSlot V) : Option (State V) :=
  (pages.sids.foldlM (recoverMemtable cfg pages) (State.empty slots)).bind fun s =>
    if s.growingIdx = .invalid then
      pages.sids.getLast?.map fun sid => s.setNextId (sid + 1)
    else some s

/-- The slots in use before the index is registered are other indexes'. -/
def Unregistered (slots : SlotIdx → MemtableBufferSlot V) : Prop :=
  ∀ g, (slots g).readers = 0 ∧ ((slots g).foreign ↔ 0 < (slots g).refCount)

/-- Segment ids are allocated in order and the growing memtable is the last registered. -/
structure StatusPages.Ordered (pages : StatusPages V) : Prop where
  ascending : pages.sids.Pairwise (· < ·)
  growing : ∀ sid ∈ pages.sids, sid ≤ pages.growingSid

/-- The states from which inserts run. -/
inductive Start (cfg : Config) : State V → Prop where
  | build {slots s} (hu : Unregistered slots) (h : buildLsmIndex cfg slots = some s) : Start cfg s
  | recover {slots pages s} (hu : Unregistered slots) (hp : pages.Ordered)
      (h : recoverLsmIndex cfg pages slots = some s) : Start cfg s

/-- A memtable filled by recovery: published from slot 0 on, by no insert. -/
structure Filled (m : ConcurrentMemTable V) : Prop where
  count : m.readyCnt = m.currentSize
  ready : ∀ i < m.currentSize, m.ready i
  free : ∀ i, m.currentSize ≤ i → i < m.capacity → m.ready i = false
  writer : ∀ i, m.writer i = none

namespace Filled

variable {m : ConcurrentMemTable V}

theorem register (m : ConcurrentMemTable V) (rel : Oid) (sid : SegmentId) (cap : ℕ) :
    Filled (m.register rel sid cap) where
  count := rfl
  ready i hi := absurd hi (Nat.not_lt_zero i)
  free _ _ hi := by
    simp only [register_capacity] at hi
    simp [hi]
  writer _ := rfl

theorem recoverRow (h : Filled m) (r : Row V) : Filled (recoverRow m r) where
  count := congrArg (· + 1) h.count
  ready i hi := by
    by_cases hm : i = m.currentSize
    · simp [Memtable.recoverRow, hm]
    · have hi : i < m.currentSize + 1 := hi
      simpa [Memtable.recoverRow, hm] using h.ready i (by omega)
  free i hi hc := by
    have hi : m.currentSize + 1 ≤ i := hi
    have hm : i ≠ m.currentSize := by omega
    simpa [Memtable.recoverRow, hm] using h.free i (by omega) hc
  writer := h.writer

theorem foldl (h : Filled m) (rs : List (Row V)) : Filled (rs.foldl Memtable.recoverRow m) := by
  induction rs generalizing m with
  | nil => exact h
  | cons r rs ih => exact ih (h.recoverRow r)

theorem setSealed (h : Filled m) : Filled m.setSealed := ⟨h.count, h.ready, h.free, h.writer⟩

/-- Recovery can fill a table beyond a capacity that was lowered since. -/
theorem counted (h : Filled m) : Counted m where
  ready := by
    by_cases hc : m.currentSize ≤ m.capacity
    · left
      have hv : m.validSize = m.currentSize := min_eq_left hc
      have hall : m.readyIn = Finset.range m.currentSize := by
        rw [readyIn, hv, Finset.filter_eq_self]
        exact fun i hi => h.ready i (Finset.mem_range.mp hi)
      rw [hall, Finset.card_range, h.count]
    · right
      rw [h.count]
      omega
  free := h.free

end Filled

theorem foldl_recoverRow_memtableId (m : ConcurrentMemTable V) (rs : List (Row V)) :
    (rs.foldl recoverRow m).memtableId = m.memtableId := by
  induction rs generalizing m with
  | nil => rfl
  | cons r rs ih => exact ih _

/-- The memtables of an index with no call in progress, with ids below `bound`. -/
structure Loaded (s : State V) (bound : SegmentId) : Prop where
  idle : ∀ t, s.ins t = .idle
  idleFlush : ∀ f, s.flu f = .idle
  shared : s.mtShared = ∅
  handed : s.handedOff = []
  growing : s.growingIdx ≠ .rotating
  nodup : s.memtableIdxs.Nodup
  apart : ∀ g, s.growingIdx = .slot g → g ∉ s.memtableIdxs
  present : ∀ g, s.growingIdx = .slot g ∨ g ∈ s.memtableIdxs →
    0 < (s.slots g).refCount ∧ (s.slots g).foreign = false ∧ Filled (s.mt g) ∧
      (s.mt g).memtableId < bound
  names : ∀ g g', (s.growingIdx = .slot g ∨ g ∈ s.memtableIdxs) →
    (s.growingIdx = .slot g' ∨ g' ∈ s.memtableIdxs) →
    (s.mt g).memtableId = (s.mt g').memtableId → g = g'
  readers : ∀ g, (s.slots g).readers = 0
  foreign : ∀ g, (s.slots g).foreign → 0 < (s.slots g).refCount

theorem loaded_empty {slots : SlotIdx → MemtableBufferSlot V} (hu : Unregistered slots) :
    Loaded (State.empty slots) 0 := by
  constructor <;> simp [State.empty]
  · exact fun g => (hu g).1
  · exact fun g => (hu g).2.1

theorem allocate_eq {cfg : Config} {s s' : State V} {sid : SegmentId} {g : SlotIdx}
    (h : allocate cfg s sid = some (s', g)) :
    (s.slots g).refCount = 0 ∧ s' = s.setSlot g { s.slots g with
      refCount := 1, mt := (s.mt g).register cfg.rel sid cfg.capacity } := by
  obtain ⟨g', hg, heq⟩ := Option.map_eq_some_iff.mp h
  obtain ⟨rfl, rfl⟩ := Prod.mk.inj heq
  exact ⟨by simpa using List.find?_some hg, rfl⟩

/-- A filled memtable in a free slot joins the loaded ones. -/
theorem Loaded.add {s s' : State V} {bound : SegmentId} (hl : Loaded s bound) {g : SlotIdx}
    {m : ConcurrentMemTable V} (hfree : (s.slots g).refCount = 0) (hb : bound ≤ m.memtableId)
    (hm : Filled m) {idx : GrowingIdx} {idxs : List SlotIdx} {id next : SegmentId}
    (hin : (idx = .slot g ∧ s.growingIdx = .invalid ∧ idxs = s.memtableIdxs) ∨
      (idx = s.growingIdx ∧ idxs = s.memtableIdxs ++ [g]))
    (hs : s' = (((s.setSlot g { s.slots g with refCount := 1, mt := m }).setGrowing idx id).setQueue
      idxs).setNextId next) : Loaded s' (m.memtableId + 1) := by
  subst hs
  have hg : ¬(s.growingIdx = .slot g ∨ g ∈ s.memtableIdxs) := fun h => by
    have := (hl.present g h).1
    omega
  have hforeign : (s.slots g).foreign = false := by
    by_contra h
    have := hl.foreign g (by simpa using h)
    omega
  have hmem : ∀ g', idx = .slot g' ∨ g' ∈ idxs ↔
      g' = g ∨ s.growingIdx = .slot g' ∨ g' ∈ s.memtableIdxs := by
    intro g'
    rcases hin with ⟨rfl, hi, rfl⟩ | ⟨rfl, rfl⟩
    · simp [hi, eq_comm]
    · simp only [List.mem_append, List.mem_singleton]
      tauto
  have hnodup : idxs.Nodup ∧ ∀ g', idx = .slot g' → g' ∉ idxs := by
    have hap := hl.apart
    rcases hin with ⟨rfl, hi, rfl⟩ | ⟨rfl, rfl⟩
    · exact ⟨hl.nodup, by simp_all⟩
    · exact ⟨List.nodup_append.mpr ⟨hl.nodup, List.nodup_singleton g, by grind⟩, by grind⟩
  have hpr := hl.present
  have hna := hl.names
  have hre := hl.readers
  have hfo := hl.foreign
  constructor
  case present =>
    intro g' hg'
    rcases (hmem g').1 hg' with rfl | h'
    · simpa [hforeign] using hm
    · have hne : g' ≠ g := by rintro rfl; exact hg h'
      obtain ⟨h1, h2, h3, h4⟩ := hpr g' h'
      refine ⟨?_, ?_, ?_, ?_⟩
      · simpa [hne] using h1
      · simpa [hne] using h2
      · simpa [hne] using h3
      · simp only [State.setNextId_mt, State.setQueue_mt, State.setGrowing_mt, State.setSlot_mt,
          if_neg hne]
        lia
  case names => grind
  case readers => grind [Function.update_apply]
  case foreign => grind [Function.update_apply]
  case growing => rcases hin with ⟨rfl, -⟩ | ⟨rfl, -⟩ <;> simp [hl.growing]
  case nodup => exact hnodup.1
  case apart => exact hnodup.2
  case idle => exact hl.idle
  case idleFlush => exact hl.idleFlush
  case shared => exact hl.shared
  case handed => exact hl.handed

theorem loaded_build {cfg : Config} {slots : SlotIdx → MemtableBufferSlot V} {s : State V}
    (hu : Unregistered slots) (h : buildLsmIndex cfg slots = some s) :
    ∃ bound, Loaded s bound ∧ bound ≤ s.nextSegmentId := by
  obtain ⟨⟨s', g⟩, ha, rfl⟩ := Option.map_eq_some_iff.mp h
  obtain ⟨hfree, rfl⟩ := allocate_eq ha
  exact ⟨_, (loaded_empty hu).add hfree (Nat.zero_le _) (Filled.register _ _ _ _)
    (.inl ⟨rfl, rfl, rfl⟩) rfl, le_rfl⟩

section Recover

variable {cfg : Config} {pages : StatusPages V} {s s' : State V}

/-- The state of the recovery loop: ids below `bound` are dealt with, and a growing memtable
is the last. -/
structure Recovering (pages : StatusPages V) (s : State V) (bound : SegmentId) : Prop where
  loaded : Loaded s bound
  last : s.growingIdx ≠ .invalid → pages.growingSid < bound ∧ bound ≤ s.nextSegmentId

theorem Recovering.step {bound sid : SegmentId} (hr : Recovering pages s bound)
    (hb : bound ≤ sid) (hg : sid ≤ pages.growingSid)
    (h : recoverMemtable cfg pages s sid = some s') :
    ∃ bound' ≤ sid + 1, Recovering pages s' bound' := by
  unfold recoverMemtable at h
  split at h
  · cases h
    exact ⟨bound, hb.trans (Nat.le_succ _), hr⟩
  · obtain ⟨⟨u, g⟩, ha, h⟩ := Option.bind_eq_some_iff.mp h
    obtain ⟨hfree, rfl⟩ := allocate_eq ha
    have hinv : s.growingIdx = .invalid := by
      by_contra hne
      have := hr.last hne
      lia
    have hfill := (Filled.register (s.mt g) cfg.rel sid cfg.capacity).foldl (pages.rows sid)
    have hid := foldl_recoverRow_memtableId ((s.mt g).register cfg.rel sid cfg.capacity)
      (pages.rows sid)
    simp only [State.setSlot_mt, if_true, State.setSlot_setMt] at h
    split at h
    case isTrue hgrow =>
      cases h
      refine ⟨_, le_of_eq (congrArg (· + 1) hid), hr.loaded.add hfree (hid ▸ hb) hfill
        (.inl ⟨rfl, hinv, rfl⟩) rfl, fun _ => ⟨?_, ?_⟩⟩
      · rw [hid, ← hgrow]
        exact Nat.lt_succ_self sid
      · rw [hid]
        exact le_rfl
    case isFalse =>
      split at h <;> cases h
      have hid' := hid
      rw [← setSealed_memtableId] at hid'
      refine ⟨_, le_of_eq (congrArg (· + 1) hid'), hr.loaded.add hfree (hid' ▸ hb)
        hfill.setSealed (.inr ⟨rfl, rfl⟩) rfl, fun hne => absurd hinv hne⟩

theorem Recovering.foldlM {sids : List SegmentId} {bound n : SegmentId}
    (hr : Recovering pages s bound) (hasc : sids.Pairwise (· < ·))
    (hb : ∀ sid ∈ sids, bound ≤ sid) (hg : ∀ sid ∈ sids, sid ≤ pages.growingSid)
    (hn : bound ≤ n + 1) (hle : ∀ sid ∈ sids, sid ≤ n)
    (h : sids.foldlM (recoverMemtable cfg pages) s = some s') :
    ∃ bound' ≤ n + 1, Recovering pages s' bound' := by
  induction sids generalizing s bound with
  | nil =>
      cases h
      exact ⟨bound, hn, hr⟩
  | cons sid sids ih =>
      obtain ⟨u, hu, h⟩ := Option.bind_eq_some_iff.mp h
      obtain ⟨b, hbs, hru⟩ := hr.step (hb sid List.mem_cons_self) (hg sid List.mem_cons_self) hu
      obtain ⟨hlt, hasc⟩ := List.pairwise_cons.mp hasc
      exact ih hru hasc (fun x hx => hbs.trans (hlt x hx))
        (fun x hx => hg x (List.mem_cons_of_mem _ hx))
        (hbs.trans (Nat.succ_le_succ (hle sid List.mem_cons_self)))
        (fun x hx => hle x (List.mem_cons_of_mem _ hx)) h

theorem loaded_recover {slots : SlotIdx → MemtableBufferSlot V} (hu : Unregistered slots)
    (hp : pages.Ordered) (h : recoverLsmIndex cfg pages slots = some s) :
    ∃ bound, Loaded s bound ∧ bound ≤ s.nextSegmentId := by
  obtain ⟨u, hfold, h⟩ := Option.bind_eq_some_iff.mp h
  have hr : Recovering pages (State.empty slots) 0 :=
    ⟨loaded_empty hu, fun hne => absurd rfl hne⟩
  split at h
  case isTrue hinv =>
    obtain ⟨last, hlast, rfl⟩ := Option.map_eq_some_iff.mp h
    have hle : ∀ sid ∈ pages.sids, sid ≤ last := by
      obtain ⟨ys, hys⟩ := List.getLast?_eq_some_iff.mp hlast
      have hasc := hp.ascending
      rw [hys, List.pairwise_append] at hasc
      intro sid hs
      rw [hys, List.mem_append, List.mem_singleton] at hs
      rcases hs with hs | rfl
      · exact (hasc.2.2 sid hs last (List.mem_singleton_self _)).le
      · exact le_rfl
    obtain ⟨b, hb, hru⟩ := hr.foldlM hp.ascending (fun _ _ => Nat.zero_le _) hp.growing
      (Nat.zero_le _) hle hfold
    obtain ⟨l1, l2, l3, l4, l5, l6, l7, l8, l9, l10, l11⟩ := hru.loaded
    exact ⟨b, ⟨l1, l2, l3, l4, l5, l6, l7, l8, l9, l10, l11⟩, hb⟩
  case isFalse hne =>
    cases h
    obtain ⟨b, -, hru⟩ := hr.foldlM hp.ascending (fun _ _ => Nat.zero_le _) hp.growing
      (Nat.zero_le _) hp.growing hfold
    exact ⟨b, hru.loaded, (hru.last hne).2⟩

end Recover

theorem Start.loaded {cfg : Config} {s : State V} (h : Start cfg s) :
    ∃ bound, Loaded s bound ∧ bound ≤ s.nextSegmentId := by
  cases h with
  | build hu h => exact loaded_build hu h
  | recover hu hp h => exact loaded_recover hu hp h

end VectorLsm.Memtable
