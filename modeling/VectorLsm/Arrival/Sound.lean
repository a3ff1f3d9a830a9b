import VectorLsm.Arrival.Installed

/-! # The pool of a standby follows that of the primary

The primary's segments are the maximal ones of what its log announces. In a loaded standby the
pool holds the maximal ones of what has arrived, whatever the order, and what the pool does not
hold is in a memtable; so with all announced segments it is the primary's.
-/

namespace VectorLsm.Arrival

open Transition Replay FlushedSegmentPool SegmentFileInfo

/-! ## The primary -/

section Latest

variable {wal rs : List Record} {pool pre post : List SegmentFileInfo} {i p : SegmentFileInfo}
  {lo hi : ℕ}

/-- Each segment is announced, and no later version of its range is. -/
structure Latest (wal : List Record) (pool : List SegmentFileInfo) : Prop where
  announced : ∀ p ∈ pool, p ∈ announced wal
  newest : ∀ p ∈ pool, ∀ j ∈ Replay.announced wal, j.range = p.range → j.version ≤ p.version

/-- Segments that follow each other are apart. -/
theorem not_within (h : Contiguous lo (pre ++ i :: post) hi) (hp : p ∈ pre ++ post) :
    ¬ i.Within p := by
  obtain ⟨mid, hpre, hs, hle, hpost⟩ := Contiguous.append_iff.mp h
  rintro ⟨h₁, h₂⟩
  rcases List.mem_append.mp hp with hp | hp
  · have := hpre.mem hp
    lia
  · have := hpost.mem hp
    lia

theorem range_ne (h : Contiguous lo (pre ++ i :: post) hi) (hp : p ∈ pre ++ post) :
    i.range ≠ p.range := by
  intro hr
  obtain ⟨h₁, h₂⟩ := Prod.mk.inj hr
  exact not_within h hp ⟨h₁.ge, h₂.le⟩

theorem Latest.log (h : Latest wal pool) (ha : Replay.announced rs = []) :
    Latest (wal ++ rs) pool := by
  have hann : Replay.announced (wal ++ rs) = Replay.announced wal := by
    rw [announced_append, ha, List.append_nil]
  exact ⟨hann ▸ h.announced, hann ▸ h.newest⟩

/-- A new version takes its place between others. -/
theorem Latest.enter (h : Latest wal pool) (ha : Replay.announced rs = [i])
    (hc : Contiguous lo (pre ++ i :: post) hi) (hsub : ∀ p ∈ pre ++ post, p ∈ pool)
    (hnew : ∀ j ∈ Replay.announced wal, j.range = i.range → j.version ≤ i.version) :
    Latest (wal ++ rs) (pre ++ i :: post) := by
  have hann : Replay.announced (wal ++ rs) = Replay.announced wal ++ [i] := by
    rw [announced_append, ha]
  have hcases : ∀ p ∈ pre ++ i :: post, p = i ∨ p ∈ pre ++ post := by
    intro p hp
    simp only [List.mem_append, List.mem_cons] at hp ⊢
    tauto
  refine ⟨fun p hp => ?_, fun p hp j hmem hr => ?_⟩
  · rw [hann]
    rcases hcases p hp with rfl | hp
    · exact List.mem_append_right _ (List.mem_singleton_self p)
    · exact List.mem_append_left _ (h.announced p (hsub p hp))
  · rw [hann] at hmem
    rcases List.mem_append.mp hmem with hj | hj
    · rcases hcases p hp with rfl | hp
      · exact hnew j hj hr
      · exact h.newest p (hsub p hp) j hj hr
    · obtain rfl := List.mem_singleton.mp hj
      rcases hcases p hp with rfl | hp
      · exact le_rfl
      · exact absurd hr (range_ne hc hp)

theorem version_le_newVersion {s : Replay.State} {lo hi : SegmentId} {j : SegmentFileInfo}
    (hj : j ∈ Replay.announced s.wal) (hr : j.range = (lo, hi)) :
    j.version ≤ (s.newVersion lo hi).version := by
  have hmem : j.version ∈ versionsOf (Replay.announced s.wal) (lo, hi) :=
    List.mem_map_of_mem (List.mem_filter.mpr ⟨hj, decide_eq_true hr⟩)
  exact (le_foldr_max hmem).trans (Nat.le_succ _)

end Latest

variable {cfg : Config} {s s' : State} {b b' : Replay.State} {i j : SegmentFileInfo}
  {sid : SegmentId} {free : Bool}

/-- A step of the primary, seen from the standby. -/
structure Aside (b b' : Replay.State) : Prop where
  wal : ∃ rs, b'.wal = b.wal ++ rs
  replayed : b'.replayed = b.replayed
  fetched : b'.fetched = b.fetched
  mts : b'.mts = b.mts
  writable : b'.writable = b.writable
  queryable : b'.queryable = b.queryable

theorem Aside.redone (h : Aside b b') (hr : b.replayed ≤ b.wal.length) :
    b'.redone false = b.redone false := by
  obtain ⟨rs, hw⟩ := h.wal
  unfold Replay.State.redone
  rw [hw, h.replayed, if_neg Bool.false_ne_true, Nat.add_zero,
    List.take_append_of_le_length hr]

/-- What a rebuild or a merge puts into the list. -/
theorem latest_compact (h : Latest b.wal b.pool) {k : ℕ} {mid post : List SegmentFileInfo}
    (hd : b.pool.drop k = mid ++ post)
    (hp : Primary { b.log [.segment i] with pool := b.pool.take k ++ i :: post })
    (hnew : ∀ j ∈ announced b.wal, j.range = i.range → j.version ≤ i.version) :
    Latest (b.wal ++ [.segment i]) (b.pool.take k ++ i :: post) := by
  obtain ⟨m, ht, -⟩ := hp.tiled
  refine h.enter rfl ht (fun p hp => ?_) hnew
  rw [← List.take_append_drop k b.pool, hd]
  simp only [List.mem_append] at hp ⊢
  tauto

/-- A step of the primary keeps the latest versions; the others that are left are recoveries. -/
theorem other_cases {a : Replay.Action} (ho : Other a = true) (hinv : Replay.Inv b)
    (hl : Latest b.wal b.pool) (hs : Replay.step b a = some b') :
    Aside b b' ∧ Latest b'.wal b'.pool ∨
      b.writable = false ∧ ∃ mts, b' = { b with writable := true, mts := mts } := by
  cases a with
  | build =>
      have hp : Primary b' := .build hs
      left
      dsimp only [Replay.step] at hs
      unfold Replay.State.build at hs
      split at hs
      next hw =>
        obtain rfl := Option.some.inj hs
        obtain ⟨m, ht, -⟩ := hp.tiled
        refine ⟨⟨⟨_, rfl⟩, rfl, rfl, rfl, rfl, rfl⟩, ?_⟩
        have ht : Contiguous _ ([] ++ _ :: []) m := ht
        exact hl.enter rfl ht (fun p hp => by cases hp) fun j hj => version_le_newVersion hj
      next => cases hs
  | rotate =>
      left
      dsimp only [Replay.step] at hs
      unfold Replay.State.rotate at hs
      split at hs
      next =>
        obtain rfl := Option.some.inj hs
        exact ⟨⟨⟨_, rfl⟩, rfl, rfl, rfl, rfl, rfl⟩, hl.log rfl⟩
      next => cases hs
  | flush =>
      have hp : Primary b' := hinv.primary.flush hs
      left
      dsimp only [Replay.step] at hs
      unfold Replay.State.flush at hs
      split at hs
      next =>
        obtain rfl := Option.some.inj hs
        obtain ⟨m, ht, -⟩ := hp.tiled
        refine ⟨⟨⟨_, rfl⟩, rfl, rfl, rfl, rfl, rfl⟩, ?_⟩
        refine hl.enter rfl ht (fun p hp => ?_) fun j hj => version_le_newVersion hj
        rwa [List.append_nil] at hp
      next => cases hs
  | release =>
      left
      dsimp only [Replay.step] at hs
      unfold Replay.State.release at hs
      split at hs
      next =>
        obtain rfl := Option.some.inj hs
        exact ⟨⟨⟨_, rfl⟩, rfl, rfl, rfl, rfl, rfl⟩, hl.log rfl⟩
      next => cases hs
  | rebuild k =>
      have hp : Primary b' := hinv.primary.rebuild hs
      left
      dsimp only [Replay.step] at hs
      unfold Replay.State.rebuild at hs
      split at hs
      next a rest hd =>
        obtain rfl := Option.some.inj hs
        have hd : b.pool.drop k = [a] ++ rest := hd
        exact ⟨⟨⟨_, rfl⟩, rfl, rfl, rfl, rfl, rfl⟩,
          latest_compact hl hd hp fun j hj => version_le_newVersion hj⟩
      next => cases hs
  | merge k =>
      have hp : Primary b' := hinv.primary.merge hs
      left
      dsimp only [Replay.step] at hs
      unfold Replay.State.merge at hs
      split at hs
      next a c rest hd =>
        obtain rfl := Option.some.inj hs
        have hd : b.pool.drop k = [a, c] ++ rest := hd
        exact ⟨⟨⟨_, rfl⟩, rfl, rfl, rfl, rfl, rfl⟩,
          latest_compact hl hd hp fun j hj => version_le_newVersion hj⟩
      next => cases hs
  | vacuum sid =>
      left
      dsimp only [Replay.step] at hs
      unfold Replay.State.vacuum at hs
      split at hs
      next =>
        obtain rfl := Option.some.inj hs
        exact ⟨⟨⟨_, rfl⟩, rfl, rfl, rfl, rfl, rfl⟩, hl.log rfl⟩
      next => cases hs
  | recover ahead =>
      right
      dsimp only [Replay.step] at hs
      unfold Replay.State.recover at hs
      split at hs
      next => cases hs
      next hw =>
        split at hs
        next => cases hs
        next =>
          obtain rfl := Option.some.inj hs
          exact ⟨Bool.eq_false_iff.mpr hw, _, rfl⟩
  | _ => cases ho

/-! ## The standby -/

/-- What holds of a loaded index. -/
structure Loaded (s : State) : Prop where
  wellOrdered : ∃ l, s.segments.WellOrdered l
  frontier : ∃ arrived : Set SegmentFileInfo, Frontier {b | b ∈ view s.segments} arrived ∧
    (∀ i ∈ arrived, i ∈ s.base.fetched) ∧
    ∀ i ∈ announced (s.base.redone false), i ∈ s.pending ∨ i ∈ s.failed ∨ i ∈ arrived
  represented : ∀ sid, sid = startSegmentId ∨ sid ∈ registered (s.base.redone false) →
    sid ∈ s.base.mts.tables ∨ Held s.segments sid

structure Inv (s : State) : Prop where
  base : Replay.Inv s.base
  latest : Latest s.base.wal s.base.pool
  pending : ∀ i ∈ s.pending, i ∈ announced s.base.wal
  queued : ∀ i ∈ announced (s.base.redone false),
    i ∈ s.pending ∨ i ∈ s.failed ∨ i ∈ s.base.fetched
  writable : s.filled = true → s.base.writable = true
  loaded : s.filled = true → Loaded s

theorem filled_of_queryable (hq : s.base.queryable = true) : s.filled = true := by
  rw [State.filled, hq, Bool.true_or]

theorem inv_init (h : Init s) : Inv s := by
  subst h
  exact {
    base := Replay.Init.inv rfl
    latest := ⟨fun _ hp => (List.not_mem_nil hp).elim, fun _ hp => (List.not_mem_nil hp).elim⟩
    pending := fun _ hp => (List.not_mem_nil hp).elim
    queued := fun _ hp => (List.not_mem_nil hp).elim
    writable := fun hq => absurd hq Bool.false_ne_true
    loaded := fun hq => absurd hq Bool.false_ne_true }

/-- A step of the primary is out of the standby's sight. -/
theorem Inv.aside (h : Inv s) (hb : Replay.Inv b') (ha : Aside s.base b')
    (hl : Latest b'.wal b'.pool) : Inv { s with base := b' } := by
  have hred := ha.redone h.base.replayed
  have hfilled : State.filled { s with base := b' } = s.filled :=
    congrArg (· || s.loading) ha.queryable
  obtain ⟨rs, hw⟩ := ha.wal
  exact {
    base := hb
    latest := hl
    pending := fun i hi => by
      rw [hw, announced_append]
      exact List.mem_append_left _ (h.pending i hi)
    queued := fun i hi => by
      rw [hred] at hi
      rw [ha.fetched]
      exact h.queued i hi
    writable := fun hq => by
      rw [hfilled] at hq
      rw [ha.writable]
      exact h.writable hq
    loaded := fun hq => by
      rw [hfilled] at hq
      obtain ⟨hwf, ⟨arrived, hf, hsub, hall⟩, hrep⟩ := h.loaded hq
      refine ⟨hwf, ⟨arrived, hf, fun i hi => ?_, fun i hi => ?_⟩, fun sid hs => ?_⟩
      · rw [ha.fetched]
        exact hsub i hi
      · rw [hred] at hi
        exact hall i hi
      · rw [hred] at hs
        rw [ha.mts]
        exact hrep sid hs }

theorem Inv.other (h : Inv s) {a : Replay.Action} (ho : Other a = true) (hok : Keeping s.base a)
    (hs : Replay.step s.base a = some b') : Inv { s with base := b' } := by
  have hb := h.base.step hok hs
  rcases other_cases ho h.base h.latest hs with ⟨ha, hl⟩ | ⟨hw, mts, rfl⟩
  · exact h.aside hb ha hl
  · have hq : ¬ s.filled = true := fun hq =>
      Bool.false_ne_true (hw.symm.trans (h.writable hq))
    exact {
      base := hb
      latest := h.latest
      pending := h.pending
      queued := h.queued
      writable := fun _ => rfl
      loaded := fun hq' => absurd hq' hq }

/-! ### The redo -/

section Redo

variable {r : Record}

/-- The memtables after the redo of a record. -/
def applyMemtables (m : Memtables) (free : Bool) : Record → Memtables
  | .registerMemtable sid => m.register sid free
  | _ => m

/-- What the redo of a record changes. -/
structure Redone (b : Replay.State) (free : Bool) (r : Record) (b' : Replay.State) : Prop where
  record : b.wal[b.replayed]? = some r
  wal : b'.wal = b.wal
  pool : b'.pool = b.pool
  fetched : b'.fetched = b.fetched
  queryable : b'.queryable = b.queryable
  writable : b.writable = true → b'.writable = true
  mts : b.writable = true → b'.mts = applyMemtables b.mts free r
  replayed : b'.redone false = b.redone false ++ [r] ∨
    b'.redone false = b.redone false ∧ ∃ sid, r = .vacuumTombstones sid

theorem redone_succ (hr : b.wal[b.replayed]? = some r) (hw : b'.wal = b.wal)
    (hn : b'.replayed = b.replayed + 1) : b'.redone false = b.redone false ++ [r] := by
  rw [← redone_true hr]
  unfold Replay.State.redone
  rw [hw, hn]
  rfl

theorem redone_of_redo (hs : b.redo free = some b') : ∃ r, Redone b free r b' := by
  unfold Replay.State.redo at hs
  split at hs
  · cases hs
  next r hr =>
    refine ⟨r, ?_⟩
    split at hs
    next hw =>
      obtain rfl := Option.some.inj hs
      cases r with
      | vacuumTombstones sid =>
          unfold Replay.State.apply
          dsimp only
          split
          · exact ⟨hr, rfl, rfl, rfl, rfl, fun h => h, fun _ => rfl,
              Or.inl (redone_succ hr rfl rfl)⟩
          · exact ⟨hr, rfl, rfl, rfl, rfl, fun h => h, fun _ => rfl, Or.inr ⟨rfl, sid, rfl⟩⟩
      | _ => exact ⟨hr, rfl, rfl, rfl, rfl, fun h => h, fun _ => rfl,
          Or.inl (redone_succ hr rfl rfl)⟩
    next hw =>
      split at hs
      · obtain rfl := Option.some.inj hs
        exact ⟨hr, rfl, rfl, rfl, rfl, fun h => absurd h hw, fun h => absurd h hw,
          Or.inl (redone_succ hr rfl rfl)⟩
      · obtain rfl := Option.some.inj hs
        exact ⟨hr, rfl, rfl, rfl, rfl, fun h => absurd h hw, fun h => absurd h hw,
          Or.inl (redone_succ hr rfl rfl)⟩

theorem Redone.announced (h : Redone b free r b') (hi : i ∈ announced (b'.redone false)) :
    i ∈ Replay.announced (b.redone false) ∨ r = .segment i := by
  rcases h.replayed with hred | ⟨hred, -⟩
  · rw [hred, announced_append, List.mem_append] at hi
    refine hi.imp_right fun hi => ?_
    cases r with
    | segment j => rw [List.mem_singleton.mp hi]
    | _ => cases hi
  · rw [hred] at hi
    exact Or.inl hi

theorem Redone.registered (h : Redone b free r b') (hs : sid ∈ registered (b'.redone false)) :
    sid ∈ Replay.registered (b.redone false) ∨ r = .registerMemtable sid := by
  rcases h.replayed with hred | ⟨hred, -⟩
  · rw [hred, registered_append, List.mem_append] at hs
    refine hs.imp_right fun hs => ?_
    cases r with
    | registerMemtable x => rw [List.mem_singleton.mp hs]
    | _ => cases hs
  · rw [hred] at hs
    exact Or.inl hs

theorem note_cases (o : Option Record) : s.note o = s ∨
    ∃ i, o = some (.segment i) ∧ s.note o = { s with pending := i :: s.pending } := by
  unfold State.note
  split
  next i =>
    unfold State.enqueue
    split_ifs
    · exact Or.inl rfl
    · exact Or.inr ⟨i, rfl, rfl⟩
    · exact Or.inl rfl
  next => exact Or.inl rfl

theorem note_segments (o : Option Record) : (s.note o).segments = s.segments := by
  rcases note_cases (s := s) o with hn | ⟨i, -, hn⟩ <;> rw [hn]

theorem note_loading (o : Option Record) : (s.note o).loading = s.loading := by
  rcases note_cases (s := s) o with hn | ⟨i, -, hn⟩ <;> rw [hn]

theorem mem_note_pending {o : Option Record} (h : j ∈ (s.note o).pending) :
    j ∈ s.pending ∨ o = some (.segment j) := by
  rcases note_cases (s := s) o with hn | ⟨i, ho, hn⟩
  · exact Or.inl (hn ▸ h)
  · rw [hn] at h
    rcases List.mem_cons.mp h with rfl | h
    · exact Or.inr ho
    · exact Or.inl h

/-- The entry is there afterwards. -/
theorem note_self (hw : s.base.writable = true) : j ∈ (s.note (some (.segment j))).pending ∨
    j ∈ (s.note (some (.segment j))).failed := by
  rw [State.note, if_pos hw, State.enqueue]
  split_ifs with hj
  · exact hj
  · exact Or.inl List.mem_cons_self

/-- What is queued or given up stays. -/
theorem note_keeps (o : Option Record) {P : Prop} (h : j ∈ s.pending ∨ j ∈ s.failed ∨ P) :
    j ∈ (s.note o).pending ∨ j ∈ (s.note o).failed ∨ P := by
  rcases note_cases (s := s) o with hn | ⟨i, -, hn⟩
  · rwa [hn]
  · rw [hn]
    exact h.imp_left (List.mem_cons_of_mem i)

/-- The memtables of the redone log are there afterwards, or in the pool. -/
theorem Redone.represented (h : Redone s.base free r b') (hw : s.base.writable = true)
    (hq : s.filled = true) (hl : Loaded s) (hok : Keeping s.base (.redo free))
    (hfits : Fits s free (some r))
    (hsid : sid = startSegmentId ∨ sid ∈ Replay.registered (b'.redone false)) :
    sid ∈ b'.mts.tables ∨ Held s.segments sid := by
  have hmts := h.mts hw
  cases r with
  | registerMemtable x =>
      have hroom : Room s.base x free := by
        unfold Keeping at hok
        rw [h.record] at hok
        exact hok hw
      have hkeep : ∀ y ∈ s.base.mts.tables, y ∈ b'.mts.tables := by
        intro y hy
        rw [hmts]
        exact mem_tables_register (fun hn hf => (hroom hn).2 hf) hy
      have hold : sid = startSegmentId ∨ sid ∈ Replay.registered (s.base.redone false) →
          sid ∈ b'.mts.tables ∨ Held s.segments sid := fun hs =>
        (hl.represented sid hs).imp_left (hkeep sid)
      rcases hsid with hs | hs
      · exact hold (Or.inl hs)
      rcases h.registered hs with hs | hs
      · exact hold (Or.inr hs)
      · obtain rfl : x = sid := Record.registerMemtable.inj hs
        by_cases hx : x ∈ s.base.mts.tables
        · exact Or.inl (hkeep x hx)
        · refine (hfits hq hx).imp_left fun hfree => ?_
          rw [hmts]
          exact self_mem_tables_register fun hn => ⟨hfree, (hroom hn).2 hfree⟩
  | _ =>
      rw [hmts]
      refine hl.represented sid (hsid.imp_right fun hs => ?_)
      rcases h.registered hs with hs | hs
      · exact hs
      · cases hs

theorem Inv.redo (h : Inv s) (hok : Keeping s.base (.redo free))
    (hfits : Fits s free s.base.wal[s.base.replayed]?) (hs : s.base.redo free = some b') :
    Inv { s.note s.base.wal[s.base.replayed]? with base := b' } := by
  obtain ⟨r, hd⟩ := redone_of_redo hs
  have hb := h.base.redo hok hs
  rw [hd.record] at hfits ⊢
  have hfilled : State.filled { s.note (some r) with base := b' } = s.filled := by
    rw [State.filled, State.filled, ← hd.queryable, note_loading]
  have hin : ∀ {j}, r = .segment j → j ∈ announced s.base.wal := by
    rintro j rfl
    have hlt := List.mem_of_getElem? hd.record
    exact List.mem_filterMap.mpr ⟨_, hlt, rfl⟩
  have hall : ∀ {P : Prop} {j}, (j ∈ announced (s.base.redone false) → j ∈ s.pending ∨
      j ∈ s.failed ∨ P) → j ∈ announced (b'.redone false) →
        j ∈ (s.note (some r)).pending ∨ j ∈ (s.note (some r)).failed ∨ P := by
    intro P j hold hj
    rcases hd.announced hj with hj | rfl
    · exact note_keeps _ (hold hj)
    · exact (note_self hfits).imp_right Or.inl
  exact {
    base := hb
    latest := by
      rw [hd.wal, hd.pool]
      exact h.latest
    pending := fun j hj => by
      rw [hd.wal]
      rcases mem_note_pending hj with hj | hj
      · exact h.pending j hj
      · exact hin (Option.some.inj hj)
    queued := fun j hj => by
      rw [hd.fetched]
      exact hall (h.queued j) hj
    writable := fun hq => by
      rw [hfilled] at hq
      exact hd.writable (h.writable hq)
    loaded := fun hq => by
      rw [hfilled] at hq
      have hl := h.loaded hq
      obtain ⟨arrived, hf, hsub, hent⟩ := hl.frontier
      refine ⟨?_, ⟨arrived, ?_, fun j hj => ?_, fun j hj => hall (hent j) hj⟩, fun sid hsid => ?_⟩
      · exact note_segments (s := s) (some r) ▸ hl.wellOrdered
      · exact note_segments (s := s) (some r) ▸ hf
      · rw [hd.fetched]
        exact hsub j hj
      · rw [note_segments]
        exact hd.represented (h.writable hq) hq hl hok hfits hsid }

end Redo

/-! ### The queue -/

theorem inv_pulled (h : Replay.Inv b) (hi : i ∈ announced b.wal)
    (hfits : ((b.fetched ++ [i]).map (·.range)).dedup.length ≤ scanTableSize) :
    Replay.Inv { b with fetched := b.fetched ++ [i] } := by
  have hann : ∀ e ∈ b.fetched ++ [i], e ∈ announced b.wal := by
    intro e he
    rcases List.mem_append.mp he with he | he
    · exact h.fetched e he
    · rwa [List.mem_singleton.mp he]
  have hscan : Scannable (b.fetched ++ [i]) := {
    nonempty := fun e he => (h.primary.named.ranges e (hann e he)).1
    laminar := fun e he e' he' => h.primary.laminar e (hann e he) e' (hann e' he')
    fits := hfits }
  refine { h with fetched := hann, fits := hfits, represented := fun hh sid hs => ?_ }
  refine (h.represented hh sid hs).imp_right fun hd => ?_
  obtain ⟨e, he, hlo, hhi⟩ := OnDisk.exists_mem hd
  obtain ⟨m, hm, hw⟩ := Recovery.exists_scan_within hscan (List.mem_append_left [i] he)
  exact ⟨m, hm, hw.1.trans hlo, hhi.trans hw.2⟩

theorem Inv.pull (h : Inv s) (hi : i ∈ s.pending) (hok : Keeping s.base (.fetch i)) :
    Inv { s with base := { s.base with fetched := s.base.fetched ++ [i] } } where
  base := inv_pulled h.base (h.pending i hi) hok
  latest := h.latest
  pending := h.pending
  queued j hj := (h.queued j hj).imp_right fun h => h.imp_right (List.mem_append_left [i])
  writable := h.writable
  loaded hq := by
    obtain ⟨hwf, ⟨arrived, hf, hsub, hall⟩, hrep⟩ := h.loaded hq
    exact ⟨hwf, ⟨arrived, hf, fun j hj => List.mem_append_left [i] (hsub j hj), hall⟩, hrep⟩

/-- All but the marked entry stays as it was. -/
theorem mark_keeps (i : SegmentFileInfo) {P : Prop} (h : j ∈ s.pending ∨ j ∈ s.failed ∨ P) :
    j = i ∨ j ∈ (s.mark i).pending ∨ j ∈ s.failed ∨ P := by
  by_cases hj : j = i
  · exact Or.inl hj
  · exact Or.inr (h.imp_left fun h => List.mem_filter.mpr ⟨h, decide_eq_true hj⟩)

theorem Inv.fail (h : Inv s) : Inv { s.mark i with failed := i :: s.failed } := by
  have hall : ∀ {P : Prop} {j}, j ∈ s.pending ∨ j ∈ s.failed ∨ P →
      j ∈ (s.mark i).pending ∨ j ∈ i :: s.failed ∨ P := by
    intro P j hj
    rcases mark_keeps i hj with rfl | hj
    · exact Or.inr (Or.inl List.mem_cons_self)
    · exact hj.imp_right fun h => h.imp_left (List.mem_cons_of_mem i)
  exact {
    base := h.base
    latest := h.latest
    pending := fun j hj => h.pending j (List.mem_of_mem_filter hj)
    queued := fun j hj => hall (h.queued j hj)
    writable := h.writable
    loaded := fun hq => by
      obtain ⟨hwf, ⟨arrived, hf, hsub, hent⟩, hrep⟩ := h.loaded hq
      exact ⟨hwf, ⟨arrived, hf, hsub, fun j hj => hall (hent j hj)⟩, hrep⟩ }

/-! ### The adoption -/

theorem mem_memtableCover {m : Memtables} : sid ∈ memtableCover m i ↔
    sid ∈ m.tables ∧ i.startSid ≤ sid ∧ sid ≤ i.endSid := by
  rw [memtableCover, List.mem_mergeSort, List.mem_filter, decide_eq_true_iff]

theorem view_restored {pool out : FlushedSegmentPool} (h : Restored pool out) :
    view out = view pool := by
  rw [view, view, h.members]
  exact List.map_congr_left fun g hg => congrArg FlushedSegment.info (h.unchanged g hg)

theorem wellOrdered_restored {pool out : FlushedSegmentPool} {l : List ℕ}
    (h : pool.WellOrdered l) (hr : Restored pool out) : out.WellOrdered l :=
  h.congr (fun g hg => hr.unchanged g (h.linked.members.symm ▸ hg)) hr.ends.1 hr.ends.2

/-- The ids of a segment whose announcement is redone are there. -/
theorem Inv.represented_of_announced (h : Inv s) (hl : Loaded s)
    (hi : i ∈ announced (s.base.redone false)) (hlo : i.startSid ≤ sid) (hhi : sid ≤ i.endSid) :
    sid ∈ s.base.mts.tables ∨ Held s.segments sid := by
  have hcut := h.base.primary.log s.base.replayed (Nat.zero_le _) h.base.replayed
  exact hl.represented sid ((hcut.ranges i hi).2 sid hlo hhi)

/-- An adoption into a loaded pool. -/
theorem Inv.loaded_adopt (cfg : Config) (h : Inv s) (hq : s.base.queryable = true)
    (hi : i ∈ s.pending) (hfetched : i ∈ s.base.fetched) (hr : s.segments.reserve ≠ none) :
    Loaded ((s.adopt cfg i).mark i) := by
  have hl := h.loaded (filled_of_queryable hq)
  obtain ⟨l, hwf⟩ := hl.wellOrdered
  obtain ⟨arrived, hf, hsub, hent⟩ := hl.frontier
  have hann := h.pending i hi
  have ha := (h.base.primary.named.ranges i hann).1
  have hlam : ∀ b ∈ view s.segments, Laminar b (incoming (adoption s.base.mts i)) := fun b hb =>
    h.base.primary.laminar b (h.base.fetched b (hsub b (hf.subset hb))) i hann
  by_cases hd : s.segments.Displaceable (adoption s.base.mts i)
  · obtain ⟨hadopted, slot, hout⟩ := displaced_adopt cfg.pool (m := some (cfg.metadata i)) hwf ha
      hlam hr (fun _ => ⟨rfl, rfl⟩) hd
    have hstate : s.adopt cfg i = { s.release i with segments := (s.outcome cfg i).2 } := by
      have houtcome : (s.outcome cfg i).1 = .adopted := hadopted
      rw [State.adopt, if_pos hq, if_pos houtcome]
    have hview := fun b => mem_view_of_displaced (b := b) hwf ha hd hout
    have hself : i ∈ view (s.outcome cfg i).2 := (hview i).mpr (Or.inl rfl)
    rw [hstate]
    refine ⟨hout.wellOrdered, ⟨insert i arrived, ?_, ?_, fun j hj => ?_⟩, fun sid hs => ?_⟩
    · have hset : {b | b ∈ view (s.outcome cfg i).2} =
          insert i {b ∈ {b | b ∈ view s.segments} | ¬ b ≤ i} := Set.ext hview
      exact hset ▸ hf.enter (not_le_of_displaceable hwf ha hd)
    · rintro j (rfl | hj)
      · exact hfetched
      · exact hsub j hj
    · rcases mark_keeps i (hent j hj) with rfl | hj
      · exact Or.inr (Or.inr (Set.mem_insert j arrived))
      · exact hj.imp_right fun h => h.imp_right (Set.mem_insert_of_mem i)
    · rcases hl.represented sid hs with ht | ⟨b, hb, hlo, hhi⟩
      · rcases mem_tables_releaseCovered (i := i) ht with ht | hc
        · exact Or.inl ht
        · exact Or.inr ⟨i, hself, hc⟩
      · right
        by_cases hle : b ≤ i
        · exact ⟨i, hself, hle.1.1.trans hlo, hhi.trans hle.1.2⟩
        · exact ⟨b, (hview b).mpr (Or.inr ⟨hb, hle⟩), hlo, hhi⟩
  · obtain ⟨hstale, hrest⟩ := hwf.adopt_stale cfg.pool (some (cfg.metadata i)) ha hd
    have hstate : s.adopt cfg i = { s with segments := (s.outcome cfg i).2 } := by
      have hne : (s.outcome cfg i).1 ≠ .adopted := fun he =>
        DpvAdoptionOutcome.noConfusion (he.symm.trans hstale)
      rw [State.adopt, if_pos hq, if_neg hne]
    have hview : view (s.outcome cfg i).2 = view s.segments := view_restored hrest
    rw [hstate]
    refine ⟨⟨l, wellOrdered_restored hwf hrest⟩, ?_, fun sid hs => ?_⟩
    · change ∃ arrived : Set SegmentFileInfo,
        Frontier {b | b ∈ view (s.outcome cfg i).2} arrived ∧ _
      rw [hview]
      by_cases hno : ∀ b ∈ view s.segments, ¬ i ≤ b
      · -- Its ids are not all there, so the redo has not come to its announcement again.
        have hearly : i ∉ announced (s.base.redone false) := by
          refine fun hred => hd (displaceable_of_not_le hlam hno fun sid hlo hhi => ?_)
          exact (h.represented_of_announced hl hred hlo hhi).imp_left fun ht =>
            mem_memtableCover.mpr ⟨ht, hlo, hhi⟩
        refine ⟨arrived, hf, hsub, fun j hj => ?_⟩
        exact (mark_keeps i (hent j hj)).resolve_left (ne_of_mem_of_not_mem hj hearly)
      · obtain ⟨b, hb, hle⟩ := not_forall₂.mp hno
        refine ⟨insert i arrived, hf.skip hb (not_not.mp hle), ?_, fun j hj => ?_⟩
        · rintro j (rfl | hj)
          · exact hfetched
          · exact hsub j hj
        · rcases mark_keeps i (hent j hj) with rfl | hj
          · exact Or.inr (Or.inr (Set.mem_insert j arrived))
          · exact hj.imp_right fun h => h.imp_right (Set.mem_insert_of_mem i)
    · refine (hl.represented sid hs).imp_right fun hheld => ?_
      rw [Held] at hheld ⊢
      exact hview.symm ▸ hheld

theorem Inv.adopt (cfg : Config) (h : Inv s) (hi : i ∈ s.pending) (hf : i ∈ s.base.fetched)
    (hok : s.loading = false ∧ (s.base.queryable = true → s.segments.reserve ≠ none)) :
    Inv ((s.adopt cfg i).mark i) := by
  have hpending : (s.adopt cfg i).pending = s.pending ∧ (s.adopt cfg i).failed = s.failed := by
    unfold State.adopt
    split_ifs <;> exact ⟨rfl, rfl⟩
  have hloading : (s.adopt cfg i).loading = s.loading := by
    unfold State.adopt
    split_ifs <;> rfl
  have hbase : (s.adopt cfg i).base = s.base ∨
      (s.adopt cfg i).base = { s.base with mts := s.base.mts.releaseCovered i } := by
    unfold State.adopt
    split_ifs
    · exact Or.inr rfl
    · exact Or.inl rfl
    · exact Or.inr rfl
    · exact Or.inl rfl
  have hfilled : ((s.adopt cfg i).mark i).filled = s.base.queryable := by
    have hq : (s.adopt cfg i).base.queryable = s.base.queryable := by
      rcases hbase with hb | hb <;> rw [hb]
    change ((s.adopt cfg i).base.queryable || (s.adopt cfg i).loading) = _
    rw [hq, hloading, hok.1, Bool.or_false]
  have hqueued : ∀ j ∈ announced (s.base.redone false), j ∈ ((s.adopt cfg i).mark i).pending ∨
      j ∈ ((s.adopt cfg i).mark i).failed ∨ j ∈ s.base.fetched := by
    intro j hj
    have hmark := mark_keeps (s := s.adopt cfg i) (j := j) i
      (P := j ∈ s.base.fetched) (by rw [hpending.1, hpending.2]; exact h.queued j hj)
    rcases hmark with rfl | hmark
    · exact Or.inr (Or.inr hf)
    · exact hmark
  have hsub : ∀ j ∈ ((s.adopt cfg i).mark i).pending, j ∈ s.pending := fun j hj =>
    hpending.1 ▸ List.mem_of_mem_filter hj
  have hloaded : s.base.queryable = true → Loaded ((s.adopt cfg i).mark i) := fun hq =>
    h.loaded_adopt cfg hq hi hf (hok.2 hq)
  have hwritable : s.base.queryable = true → s.base.writable = true := fun hq =>
    h.writable (filled_of_queryable hq)
  rcases hbase with hb | hb
  · exact {
      base := hb.symm ▸ h.base
      latest := hb.symm ▸ h.latest
      pending := fun j hj => hb.symm ▸ h.pending j (hsub j hj)
      queued := hb.symm ▸ hqueued
      writable := fun hq => hb.symm ▸ hwritable (hfilled.symm.trans hq)
      loaded := fun hq => hloaded (hfilled.symm.trans hq) }
  · exact {
      base := hb.symm ▸ h.base.adopt hf
      latest := hb.symm ▸ h.latest
      pending := fun j hj => hb.symm ▸ h.pending j (hsub j hj)
      queued := hb.symm ▸ hqueued
      writable := fun hq => hb.symm ▸ hwritable (hfilled.symm.trans hq)
      loaded := fun hq => hloaded (hfilled.symm.trans hq) }

/-! ### The load -/

section Scan

variable {dir : List SegmentFileInfo}

theorem nonempty_of_mem_scan (h : Scannable dir) (hi : i ∈ scanSegmentMetadataFiles dir) :
    i.startSid ≤ i.endSid := by
  obtain ⟨e, he, hr⟩ := List.mem_map.mp (range_mem_of_mem_scan hi)
  obtain ⟨h₁, h₂⟩ := Prod.mk.inj hr
  exact h₁ ▸ h₂ ▸ h.nonempty e he

theorem length_scan_le (h : Scannable dir) :
    (scanSegmentMetadataFiles dir).length ≤ scanTableSize := by
  have hnodup : ((scanSegmentMetadataFiles dir).map (·.range)).Nodup := by
    refine List.pairwise_map.mpr (h.scan_pairwise.imp_of_mem fun {a b} ha hb hlt hr => ?_)
    have hn := nonempty_of_mem_scan h ha
    obtain ⟨h₁, -⟩ := Prod.mk.inj hr
    lia
  have hsub : (scanSegmentMetadataFiles dir).map (·.range) ⊆ (dir.map (·.range)).dedup := by
    intro r hr
    obtain ⟨e, he, rfl⟩ := List.mem_map.mp hr
    exact List.mem_dedup.mpr (range_mem_of_mem_scan he)
  have hle := (List.subperm_of_subset hnodup hsub).length_le
  rw [List.length_map] at hle
  exact hle.trans h.fits

/-- The highest version of a range that is there is that of a file. -/
theorem exists_version (hi : i ∈ dir) : ∃ e ∈ dir, e.range = i.range ∧
    e.version = (versionsOf dir i.range).foldr max 0 := by
  have hne : versionsOf dir i.range ≠ [] := by
    refine List.ne_nil_of_mem (a := i.version) (List.mem_map_of_mem ?_)
    exact List.mem_filter.mpr ⟨hi, decide_eq_true rfl⟩
  have hmax : ∀ vs : List ℕ, vs ≠ [] → vs.foldr max 0 ∈ vs := by
    intro vs
    induction vs with
    | nil => exact fun h => absurd rfl h
    | cons v vs ih =>
        intro _
        rw [List.foldr_cons]
        rcases le_total (vs.foldr max 0) v with hle | hle
        · rw [max_eq_left hle]
          exact List.mem_cons_self
        · rw [max_eq_right hle]
          rcases eq_or_ne vs [] with rfl | hvs
          · rw [Nat.le_zero.mp hle]
            exact List.mem_cons_self
          · exact List.mem_cons_of_mem v (ih hvs)
  obtain ⟨e, he, hv⟩ := List.mem_map.mp (hmax _ hne)
  obtain ⟨hed, hr⟩ := List.mem_filter.mp he
  exact ⟨e, hed, of_decide_eq_true hr, hv⟩

/-- The scan returns what is maximal among the files. -/
theorem frontier_scan (h : Scannable dir) :
    Frontier {b | b ∈ scanSegmentMetadataFiles dir} {b | b ∈ dir} where
  subset := by
    intro b hb
    obtain ⟨hr, hv, -⟩ := h.mem_scan.mp hb
    obtain ⟨e, he, her⟩ := List.mem_map.mp hr
    obtain ⟨e', he', hr', hv'⟩ := exists_version he
    rw [her] at hr' hv'
    exact ext_range hr' (hv'.trans hv.symm) ▸ he'
  antichain := by
    intro a ha b hb hne hle
    obtain ⟨ra, va, ma⟩ := h.mem_scan.mp ha
    obtain ⟨rb, vb, -⟩ := h.mem_scan.mp hb
    obtain ⟨e, he, hre⟩ := List.mem_map.mp rb
    have hw : a.Within e := by
      obtain ⟨h₁, h₂⟩ := Prod.mk.inj hre
      exact ⟨h₁ ▸ hle.1.1, h₂ ▸ hle.1.2⟩
    have hr : a.range = b.range := (ma e he hw).symm.trans hre
    refine hne (ext_range hr ?_)
    rw [va, vb, hr]
  below := by
    intro a ha
    obtain ⟨m, hm, hw⟩ := Recovery.exists_scan_within h ha
    refine ⟨m, hm, hw, fun hr => ?_⟩
    rw [(h.mem_scan.mp hm).2.1, ← hr]
    exact le_foldr_max (List.mem_map_of_mem (List.mem_filter.mpr ⟨ha, decide_eq_true rfl⟩))

end Scan

theorem Inv.load (cfg : Config) (h : Inv s) (hw : s.base.writable = true)
    (hstart : s.base.OnDisk startSegmentId) :
    Inv { s with loading := true, segments := s.load cfg } := by
  have hscan := h.base.scannable
  have hroom : ([] : List ℕ).length + (s.base.files.map cfg.metadata).length ≤
      maxSegmentsCount := by
    rw [List.length_nil, Nat.zero_add, List.length_map]
    exact length_scan_le hscan
  have hne : ∀ md ∈ s.base.files.map cfg.metadata, md.startSid ≤ md.endSid := by
    intro md hmd
    obtain ⟨i, hi, rfl⟩ := List.mem_map.mp hmd
    exact nonempty_of_mem_scan hscan hi
  obtain ⟨l, hfill⟩ := filled_initial.loadAll cfg.pool cfg.useMmap _ hroom
    (fun i hi => (List.not_mem_nil hi).elim) (List.pairwise_map.mpr hscan.scan_pairwise) hne
  have hview : view (s.load cfg) = s.base.files := by
    refine hfill.view_eq.trans ?_
    rw [List.nil_append, List.map_map]
    exact List.map_id _
  refine {
    base := h.base
    latest := h.latest
    pending := h.pending
    queued := h.queued
    writable := fun _ => hw
    loaded := fun _ => ⟨⟨l, hfill.wellOrdered⟩, ⟨{b | b ∈ s.base.fetched}, ?_, fun i hi => hi,
      h.queued⟩, fun sid hsid => ?_⟩ }
  · change Frontier {b | b ∈ view (s.load cfg)} _
    rw [hview]
    exact frontier_scan hscan
  · have hheld : s.base.OnDisk sid → Held (s.load cfg) sid := by
      intro hd
      rw [Held, hview]
      exact hd
    rcases hsid with rfl | hsid
    · exact Or.inr (hheld hstart)
    · exact (h.base.represented hw sid hsid).imp_right hheld

theorem Inv.publish (h : Inv s) (hb : Replay.Inv b') (hloading : s.loading = true)
    (hs : s.base.publish = some b') : Inv { s with base := b', loading := false } := by
  have hfilled : s.filled = true := by rw [State.filled, hloading, Bool.or_true]
  have hl := h.loaded hfilled
  unfold Replay.State.publish at hs
  split at hs
  next =>
    obtain rfl := Option.some.inj hs
    exact {
      base := hb
      latest := h.latest
      pending := h.pending
      queued := h.queued
      writable := fun _ => h.writable hfilled
      loaded := fun _ => ⟨hl.wellOrdered, hl.frontier, hl.represented⟩ }
  next => cases hs

theorem Inv.restart (h : Inv s) {n : ℕ} (hb : Replay.Inv b')
    (hs : Replay.step s.base (.restart n) = some b') :
    Inv { s with base := b', loading := false, segments := .initial } := by
  dsimp only [Replay.step] at hs
  split at hs
  next hn =>
    obtain rfl := Option.some.inj hs
    have htake : ∀ j ∈ announced (s.base.wal.take n), j ∈ announced (s.base.redone false) := by
      intro j hj
      have hred : s.base.wal.take n = (s.base.redone false).take n := by
        unfold Replay.State.redone
        rw [if_neg Bool.false_ne_true, Nat.add_zero, List.take_take, Nat.min_eq_left hn]
      rw [hred] at hj
      exact mem_announced_of_take hj
    exact {
      base := hb
      latest := h.latest
      pending := h.pending
      queued := fun j hj => h.queued j (htake j hj)
      writable := fun hq => absurd hq Bool.false_ne_true
      loaded := fun hq => absurd hq Bool.false_ne_true }
  next => cases hs

theorem Inv.step {a : Action} (h : Inv s) (hok : Roomy s a) (hs : step cfg s a = some s') :
    Inv s' := by
  cases a with
  | other a =>
      dsimp only [Arrival.step] at hs
      split at hs
      next ho =>
        obtain ⟨b', hb, rfl⟩ := Option.map_eq_some_iff.mp hs
        exact h.other ho hok hb
      next => cases hs
  | redo free =>
      obtain ⟨b', hb, rfl⟩ := Option.map_eq_some_iff.mp hs
      exact h.redo hok.1 hok.2 hb
  | pull i =>
      dsimp only [Arrival.step] at hs
      split at hs
      next hi =>
        obtain rfl := Option.some.inj hs
        exact h.pull hi hok
      next => cases hs
  | fail i =>
      dsimp only [Arrival.step] at hs
      split at hs
      next =>
        obtain rfl := Option.some.inj hs
        exact h.fail
      next => cases hs
  | adopt i =>
      dsimp only [Arrival.step] at hs
      split at hs
      next hi =>
        obtain rfl := Option.some.inj hs
        exact h.adopt cfg hi.1 hi.2 hok
      next => cases hs
  | load =>
      dsimp only [Arrival.step] at hs
      split at hs
      next hl =>
        obtain rfl := Option.some.inj hs
        exact h.load cfg hl.1 hl.2.2
      next => cases hs
  | publish =>
      dsimp only [Arrival.step] at hs
      split at hs
      next hl =>
        obtain ⟨b', hb, rfl⟩ := Option.map_eq_some_iff.mp hs
        exact h.publish (h.base.step (a := .publish) trivial hb) hl hb
      next => cases hs
  | restart n =>
      obtain ⟨b', hb, rfl⟩ := Option.map_eq_some_iff.mp hs
      exact h.restart (h.base.step (a := .restart n) trivial hb) hb

theorem inv_of_reachable (h : Reachable Init (step cfg) Roomy s) : Inv s :=
  h.invariant (P := Inv) (fun _ h => inv_init h) fun _ _ _ _ h hok hs => h.step hok hs

/-! ## What a loaded standby has -/

section Run

/-- A run in which a segment is loaded, and the merge of it with the next one arrives before that
one. -/
def mergedFirst : List Action :=
  [.other .build] ++ List.replicate 4 (.redo true) ++
    [.pull ⟨3, 3, 1⟩, .adopt ⟨3, 3, 1⟩, .load, .publish, .other .rotate, .other .flush,
      .other (.merge 0)] ++ List.replicate 4 (.redo true) ++ [.pull ⟨3, 4, 1⟩, .adopt ⟨3, 4, 1⟩]

def plain : Config where
  pool := ⟨1, fun _ _ => false⟩
  useMmap := false
  validRows _ := 1
  indexType _ := .hnsw
  deleteCount _ := 0

def unbuilt : State := ⟨Replay.initial, false, .initial, [], []⟩

end Run

/-- The primary's segments are what no announced one is above. -/
theorem Inv.frontier_primary (h : Inv s) :
    Frontier {p | p ∈ s.base.pool} {i | i ∈ announced s.base.wal} where
  subset := h.latest.announced
  antichain := by
    intro p hp q hq hne hle
    obtain ⟨m, ht, -⟩ := h.base.primary.tiled
    obtain ⟨pre, post, hpool⟩ := List.append_of_mem hp
    change q ∈ s.base.pool at hq
    rw [hpool] at ht hq
    rw [List.mem_append, List.mem_cons] at hq
    refine not_within ht (List.mem_append.mpr ?_) hle.1
    exact hq.imp_right fun h => h.resolve_left hne.symm
  below := by
    intro i hi
    obtain ⟨p, hp, hw⟩ := h.base.primary.within i hi
    exact ⟨p, hp, hw, h.latest.newest p hp i hi⟩

theorem ascending_pool (h : Inv s) :
    s.base.pool.Pairwise fun a b => a.startSid < b.startSid := by
  obtain ⟨m, ht, -⟩ := h.base.primary.tiled
  generalize s.base.pool = is, startSegmentId = lo at ht
  induction is generalizing lo with
  | nil => exact .nil
  | cons i is ih =>
      obtain ⟨-, hle, ht⟩ := ht
      refine List.pairwise_cons.mpr ⟨fun b hb => ?_, ih _ ht⟩
      exact (Nat.lt_succ_of_le hle).trans_le (ht.mem hb).1

theorem ascending_view {pool : FlushedSegmentPool} {l : List ℕ} (h : pool.WellOrdered l) :
    (view pool).Pairwise fun a b => a.startSid < b.startSid := by
  rw [view, h.linked.members]
  refine List.pairwise_map.mpr (h.sorted.imp_of_mem fun ha _ hlt => ?_)
  exact (h.nonempty _ ha).trans_lt hlt

end VectorLsm.Arrival
