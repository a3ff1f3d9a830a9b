import VectorLsm.Slots.Log

/-! # The slots of the primary

While the index is in memory, a slot of a memtable is ready if and only if it was logged.
-/

namespace VectorLsm.Slots

open Recovery Replay

variable {wal : List Record} {r : Record} {x : Index} {inserts : Tid → Option InsertPc}
  {sid : SegmentId} {i : ℕ} {t t' : Tid} {o : Option InsertPc}

/-- The inserts that are under way. -/
structure Inserting (wal : List Record) (inserts : Tid → Option InsertPc) : Prop where
  heap : ∀ t pc, inserts t = some pc → t ∈ heap wal
  listed : ∀ t sid i, inserts t = some (.listed sid i) → t ∈ listed wal sid
  unlogged : ∀ t pc, inserts t = some pc → ∀ sid i, (i, t) ∉ added wal sid

namespace Inserting

theorem log (h : Inserting wal inserts)
    (hr : ∀ sid i t, r = .addToMemtable sid i t → inserts t = none) :
    Inserting (wal ++ [r]) inserts where
  heap t pc ht := by
    rw [heap_append]
    exact List.mem_append_left _ (h.heap t pc ht)
  listed t sid i ht := by
    rw [listed_append]
    exact List.mem_append_left _ (h.listed t sid i ht)
  unlogged t pc ht sid i hi := by
    rw [added_append, List.mem_append, mem_added_singleton] at hi
    rcases hi with hi | hi
    · exact h.unlogged t pc ht sid i hi
    · rw [hr sid i t hi] at ht
      cases ht

theorem set (h : Inserting wal inserts)
    (ho : ∀ pc ∈ o, t ∈ Slots.heap wal ∧ (∀ sid i, pc = .listed sid i → t ∈ Slots.listed wal sid) ∧
      ∀ sid i, (i, t) ∉ added wal sid) :
    Inserting wal (Function.update inserts t o) where
  heap u pc hu := by
    rcases eq_or_ne u t with rfl | hne
    · rw [Function.update_self] at hu
      exact (ho pc hu).1
    · rw [Function.update_of_ne hne] at hu
      exact h.heap u pc hu
  listed u sid i hu := by
    rcases eq_or_ne u t with rfl | hne
    · rw [Function.update_self] at hu
      exact (ho _ hu).2.1 sid i rfl
    · rw [Function.update_of_ne hne] at hu
      exact h.listed u sid i hu
  unlogged u pc hu := by
    rcases eq_or_ne u t with rfl | hne
    · rw [Function.update_self] at hu
      exact (ho pc hu).2.2
    · rw [Function.update_of_ne hne] at hu
      exact h.unlogged u pc hu

end Inserting

/-- The insert has a slot of the memtable. -/
def Holds (inserts : Tid → Option InsertPc) (t : Tid) (sid : SegmentId) (i : ℕ) : Prop :=
  (inserts t).bind InsertPc.slot? = some (sid, i)

theorem holds_update {u : Tid} : Holds (Function.update inserts t o) u sid i ↔
    if u = t then o.bind InsertPc.slot? = some (sid, i) else Holds inserts u sid i := by
  unfold Holds
  split
  next heq => rw [heq, Function.update_self]
  next hne => rw [Function.update_of_ne hne]

/-- What is known of the memtable of a rotation. -/
def Rotating (wal : List Record) (inserts : Tid → Option InsertPc) (q : Rotation) : Prop :=
  match q.pc with
  | .allocated => ∀ sid ∈ (pages wal).memtables, sid < q.sid
  | .maxLogged =>
      (∀ sid ∈ (pages wal).memtables, sid < q.sid) ∧ q.sid ≤ (pages wal).maxMemtableSid
  | .listed =>
      q.sid ∈ (pages wal).memtables ∧ listed wal q.sid = [] ∧ ∀ t i, ¬ Holds inserts t q.sid i
  | .registered => q.sid ∈ (pages wal).memtables

theorem Rotating.mono {wal' : List Record} {inserts' : Tid → Option InsertPc} {q : Rotation}
    (h : Rotating wal inserts q) (hp : pages wal' = pages wal)
    (hl : q.pc = .listed → listed wal q.sid = [] → listed wal' q.sid = [])
    (hh : ∀ u i, Holds inserts' u q.sid i → Holds inserts u q.sid i) :
    Rotating wal' inserts' q := by
  unfold Rotating at h ⊢
  cases hpc : q.pc with
  | listed =>
      simp only [hpc] at h ⊢
      rw [hp]
      exact ⟨h.1, hl hpc h.2.1, fun u i hu => h.2.2 u i (hh u i hu)⟩
  | _ => simpa only [hpc, hp] using h

/-- The index of the primary. -/
structure Primary (wal : List Record) (x : Index) (inserts : Tid → Option InsertPc) : Prop where
  slots : ∀ sid i t, (x.tables sid).tids i = some t ↔ (i, t) ∈ added wal sid
  within : ∀ sid i t, (i, t) ∈ added wal sid →
    i < (x.tables sid).currentSize ∧ i < (x.tables sid).capacity
  reserved : ∀ t sid i, Holds inserts t sid i →
    i < (x.tables sid).currentSize ∧ i < (x.tables sid).capacity ∧
      (∀ t', (i, t') ∉ added wal sid) ∧ sid ∈ (pages wal).memtables
  distinct : ∀ t t' sid i, Holds inserts t sid i → Holds inserts t' sid i → t = t'
  below : ∀ sid ∈ (pages wal).memtables, sid < x.nextSegmentId
  growing : ∀ sid ∈ x.growing, sid ∈ (pages wal).memtables
  rotating : ∀ q ∈ x.rotating, x.growing = none ∧ q.sid < x.nextSegmentId ∧ Rotating wal inserts q

namespace Primary

/-- A slot that is ready is one that a scan goes through. -/
theorem populated_iff (h : Primary wal x inserts) :
    (x.tables sid).Populated i t ↔ (i, t) ∈ added wal sid := by
  constructor
  · exact fun hp => (h.slots sid i t).mp hp.2
  · intro ha
    obtain ⟨hsize, hcap⟩ := h.within sid i t ha
    exact ⟨lt_min hsize hcap, (h.slots sid i t).mpr ha⟩

theorem log (h : Primary wal x inserts) (ha : ∀ sid, added [r] sid = [])
    (hp : (redoPages (pages wal) r).memtables = (pages wal).memtables)
    (hq : ∀ q ∈ x.rotating, Rotating (wal ++ [r]) inserts q) : Primary (wal ++ [r]) x inserts := by
  have hadd : ∀ sid, added (wal ++ [r]) sid = added wal sid := by
    intro sid
    rw [added_append, ha, List.append_nil]
  have hpages : (pages (wal ++ [r])).memtables = (pages wal).memtables := by rw [pages_concat, hp]
  constructor
  case slots => simpa only [hadd] using h.slots
  case within => simpa only [hadd] using h.within
  case reserved => simpa only [hadd, hpages] using h.reserved
  case distinct => exact h.distinct
  case below => simpa only [hpages] using h.below
  case growing => simpa only [hpages] using h.growing
  case rotating => exact fun q hm => ⟨(h.rotating q hm).1, (h.rotating q hm).2.1, hq q hm⟩

/-- An insert goes on with its slot, or without one. -/
theorem set (h : Primary wal x inserts)
    (ho : ∀ sid i, o.bind InsertPc.slot? = some (sid, i) → Holds inserts t sid i) :
    Primary wal x (Function.update inserts t o) := by
  have hold : ∀ u sid i, Holds (Function.update inserts t o) u sid i → Holds inserts u sid i := by
    intro u sid i hu
    rw [holds_update] at hu
    split at hu
    next heq =>
      rw [heq]
      exact ho sid i hu
    next => exact hu
  constructor
  case slots => exact h.slots
  case within => exact h.within
  case reserved => exact fun u sid i hu => h.reserved u sid i (hold u sid i hu)
  case distinct =>
    exact fun u u' sid i hu hu' => h.distinct u u' sid i (hold _ _ _ hu) (hold _ _ _ hu')
  case below => exact h.below
  case growing => exact h.growing
  case rotating =>
    intro q hq
    obtain ⟨hg, hn, hr⟩ := h.rotating q hq
    exact ⟨hg, hn, hr.mono rfl (fun _ hl => hl) fun u i => hold u q.sid i⟩

/-- Tables that are ready in the same slots, and no smaller. -/
theorem grow (h : Primary wal x inserts) {tables : SegmentId → Table}
    (ht : ∀ sid, (tables sid).tids = (x.tables sid).tids ∧
      (tables sid).capacity = (x.tables sid).capacity ∧
      (x.tables sid).currentSize ≤ (tables sid).currentSize) :
    Primary wal { x with tables := tables } inserts where
  slots sid i t := by
    rw [(ht sid).1]
    exact h.slots sid i t
  within sid i t hi := by
    obtain ⟨-, hc, hs⟩ := ht sid
    have := h.within sid i t hi
    dsimp only
    omega
  reserved t sid i hi := by
    obtain ⟨-, hc, hs⟩ := ht sid
    obtain ⟨h₁, h₂, h₃⟩ := h.reserved t sid i hi
    dsimp only
    exact ⟨by omega, by omega, h₃⟩
  distinct := h.distinct
  below := h.below
  growing := h.growing
  rotating := h.rotating

theorem grow_update {T : Table} (htids : T.tids = (x.tables sid).tids)
    (hcap : T.capacity = (x.tables sid).capacity)
    (hsize : (x.tables sid).currentSize ≤ T.currentSize) (u : SegmentId) :
    (Function.update x.tables sid T u).tids = (x.tables u).tids ∧
      (Function.update x.tables sid T u).capacity = (x.tables u).capacity ∧
      (x.tables u).currentSize ≤ (Function.update x.tables sid T u).currentSize := by
  rcases eq_or_ne u sid with rfl | hne
  · rw [Function.update_self]
    exact ⟨htids, hcap, hsize⟩
  · rw [Function.update_of_ne hne]
    exact ⟨rfl, rfl, le_rfl⟩

/-- The next slot of the growing memtable is nobody's. -/
theorem reserve (h : Primary wal x inserts) (hg : x.growing = some sid)
    (hlt : (x.tables sid).currentSize < (x.tables sid).capacity) :
    Primary wal { x with tables := Function.update x.tables sid (x.tables sid).bump }
      (Function.update inserts t (some (.reserved sid (x.tables sid).currentSize))) := by
  have hgrow := h.grow (@grow_update x sid (x.tables sid).bump rfl rfl (Nat.le_succ _))
  have hold : ∀ u sid' i,
      Holds (Function.update inserts t (some (.reserved sid (x.tables sid).currentSize))) u sid' i →
        (u = t ∧ sid' = sid ∧ i = (x.tables sid).currentSize) ∨ Holds inserts u sid' i := by
    intro u sid' i hu
    rw [holds_update] at hu
    split at hu
    next heq =>
      cases hu
      exact Or.inl ⟨heq, rfl, rfl⟩
    next => exact Or.inr hu
  -- A slot that is held is below the counter.
  have hfree : ∀ u, ¬ Holds inserts u sid (x.tables sid).currentSize := fun u hu =>
    lt_irrefl _ (h.reserved u sid _ hu).1
  constructor
  case slots => exact hgrow.slots
  case within => exact hgrow.within
  case below => exact h.below
  case growing => exact h.growing
  case reserved =>
    intro u sid' i hu
    rcases hold u sid' i hu with ⟨-, rfl, rfl⟩ | hu
    · dsimp only
      rw [Function.update_self]
      refine ⟨Nat.lt_succ_self _, hlt, fun t' ht' => ?_, h.growing sid' hg⟩
      exact lt_irrefl _ (h.within sid' _ t' ht').1
    · exact hgrow.reserved u sid' i hu
  case distinct =>
    intro u u' sid' i hu hu'
    rcases hold u sid' i hu with ⟨rfl, rfl, rfl⟩ | h₁
    · rcases hold u' _ _ hu' with h₂ | h₂
      · exact h₂.1.symm
      · exact absurd h₂ (hfree u')
    · rcases hold u' sid' i hu' with ⟨-, rfl, rfl⟩ | h₂
      · exact absurd h₁ (hfree u)
      · exact h.distinct u u' sid' i h₁ h₂
  case rotating =>
    intro q hq
    have hnone := (h.rotating q hq).1
    rw [hg] at hnone
    cases hnone

/-- The slot of an insert is logged and ready. -/
theorem publish (h : Primary wal x inserts) (ht : Holds inserts t sid i) :
    Primary (wal ++ [.addToMemtable sid i t])
      { x with tables := Function.update x.tables sid ((x.tables sid).publish i t) }
      (Function.update inserts t none) := by
  obtain ⟨hi, hcap, hfree, -⟩ := h.reserved t sid i ht
  have hadd : ∀ sid' j u, (j, u) ∈ added (wal ++ [.addToMemtable sid i t]) sid' ↔
      (j, u) ∈ added wal sid' ∨ sid' = sid ∧ j = i ∧ u = t := by
    intro sid' j u
    rw [added_append, List.mem_append, mem_added_singleton, Record.addToMemtable.injEq]
    tauto
  have hold : ∀ u sid' j, Holds (Function.update inserts t none) u sid' j →
      u ≠ t ∧ Holds inserts u sid' j := by
    intro u sid' j hu
    rw [holds_update] at hu
    split at hu
    next => cases hu
    next hne => exact ⟨hne, hu⟩
  have htab : ∀ sid', (Function.update x.tables sid ((x.tables sid).publish i t) sid').currentSize =
      (x.tables sid').currentSize ∧
      (Function.update x.tables sid ((x.tables sid).publish i t) sid').capacity =
        (x.tables sid').capacity := by
    intro sid'
    rcases eq_or_ne sid' sid with rfl | hne
    · rw [Function.update_self]
      exact ⟨rfl, rfl⟩
    · rw [Function.update_of_ne hne]
      exact ⟨rfl, rfl⟩
  have hpages : pages (wal ++ [.addToMemtable sid i t]) = pages wal := pages_concat
  constructor
  case slots =>
    intro sid' j u
    rw [hadd]
    dsimp only
    rcases eq_or_ne sid' sid with rfl | hne
    · rw [Function.update_self, Table.publish_tids]
      rcases eq_or_ne j i with rfl | hj
      · rw [Function.update_self, Option.some.injEq]
        constructor
        · rintro rfl
          exact Or.inr ⟨rfl, rfl, rfl⟩
        · rintro (hu | ⟨-, -, rfl⟩)
          · exact absurd hu (hfree u)
          · rfl
      · rw [Function.update_of_ne hj, h.slots]
        simp [hj]
    · rw [Function.update_of_ne hne, h.slots]
      simp [hne]
  case within =>
    intro sid' j u hu
    dsimp only
    rw [(htab sid').1, (htab sid').2]
    rcases (hadd sid' j u).mp hu with hu | ⟨rfl, rfl, rfl⟩
    · exact h.within sid' j u hu
    · exact ⟨hi, hcap⟩
  case reserved =>
    intro u sid' j hu
    obtain ⟨hne, hu₁⟩ := hold u sid' j hu
    obtain ⟨h₁, h₂, h₃, h₄⟩ := h.reserved u sid' j hu₁
    dsimp only
    rw [(htab sid').1, (htab sid').2, hpages]
    refine ⟨h₁, h₂, fun u' hu' => ?_, h₄⟩
    rcases (hadd sid' j u').mp hu' with hu' | ⟨rfl, rfl, rfl⟩
    · exact h₃ u' hu'
    · exact hne (h.distinct u u' sid' j hu₁ ht)
  case distinct =>
    exact fun u u' sid' j hu hu' => h.distinct u u' sid' j (hold _ _ _ hu).2 (hold _ _ _ hu').2
  case below => simpa only [hpages] using h.below
  case growing => simpa only [hpages] using h.growing
  case rotating =>
    intro q hq
    obtain ⟨hg, hn, hr⟩ := h.rotating q hq
    refine ⟨hg, hn, hr.mono hpages (fun _ hl' => ?_) fun u j hu => (hold u _ j hu).2⟩
    rw [listed_append, hl']
    rfl

section Logging

/-- A record about the heap. -/
theorem logHeap (h : Primary wal x inserts) (hr : r = .heapInsert t ∨ r = .heapPrune t) :
    Primary (wal ++ [r]) x inserts := by
  have hpages : pages (wal ++ [r]) = pages wal := by
    rw [pages_concat]
    rcases hr with rfl | rfl <;> rfl
  refine h.log ?_ ?_ fun q hq => (h.rotating q hq).2.2.mono hpages (fun _ hl => ?_) fun _ _ => id
  · rcases hr with rfl | rfl <;> exact fun _ => rfl
  · rcases hr with rfl | rfl <;> rfl
  · rw [listed_append, hl]
    rcases hr with rfl | rfl <;> rfl

/-- No insert lists its row in a memtable that is being registered. -/
theorem logStatus (h : Primary wal x inserts) (ht : Holds inserts t sid i) :
    Primary (wal ++ [.addStatus sid t]) x inserts := by
  have hpages : pages (wal ++ [.addStatus sid t]) = pages wal := pages_concat
  refine h.log (fun _ => rfl) rfl fun q hq => ?_
  obtain ⟨-, -, hr⟩ := h.rotating q hq
  refine hr.mono hpages (fun hpc hl => ?_) fun _ _ => id
  unfold Rotating at hr
  simp only [hpc] at hr
  have hne : sid ≠ q.sid := by
    rintro rfl
    exact hr.2.2 t i ht
  rw [listed_append, hl]
  simp [listed, hne]

end Logging

section Rotate

variable {q : Rotation}

/-- A new memtable, with an id above all that are registered. -/
theorem allocate (h : Primary wal x inserts) (hlog : Logged wal) (cap : ℕ) :
    Primary wal { x with
      growing := none
      rotating := some ⟨x.growing, x.nextSegmentId, .allocated⟩
      nextSegmentId := x.nextSegmentId + 1
      tables := Function.update x.tables x.nextSegmentId (.fresh cap) } inserts := by
  have hnew : x.nextSegmentId ∉ (pages wal).memtables := fun hs => lt_irrefl _ (h.below _ hs)
  have hnone : ∀ i t, (i, t) ∉ added wal x.nextSegmentId := fun _ _ =>
    hlog.added_of_listed_nil (hlog.listed_nil hnew)
  constructor
  case slots =>
    intro sid i t
    dsimp only
    rcases eq_or_ne sid x.nextSegmentId with rfl | hne
    · rw [Function.update_self]
      exact iff_of_false nofun (hnone i t)
    · rw [Function.update_of_ne hne]
      exact h.slots sid i t
  case within =>
    intro sid i t ht
    dsimp only
    rcases eq_or_ne sid x.nextSegmentId with rfl | hne
    · exact absurd ht (hnone i t)
    · rw [Function.update_of_ne hne]
      exact h.within sid i t ht
  case reserved =>
    intro t sid i ht
    have hres := h.reserved t sid i ht
    have hne : sid ≠ x.nextSegmentId := by
      rintro rfl
      exact hnew hres.2.2.2
    dsimp only
    rw [Function.update_of_ne hne]
    exact hres
  case distinct => exact h.distinct
  case below => exact fun sid hs => (h.below sid hs).trans (Nat.lt_succ_self _)
  case growing => rintro sid ⟨⟩
  case rotating =>
    rintro q ⟨⟩
    exact ⟨rfl, Nat.lt_succ_self _, h.below⟩

/-- The rotation goes on after a record that registers nothing. -/
theorem rotateLog (h : Primary wal x inserts) (hq : x.rotating = some q) {q' : Rotation}
    (hsid : q'.sid = q.sid) (ha : ∀ sid, added [r] sid = [])
    (hp : (redoPages (pages wal) r).memtables = (pages wal).memtables)
    (hr : Rotating (wal ++ [r]) inserts q') :
    Primary (wal ++ [r]) { x with rotating := some q' } inserts := by
  obtain ⟨hg, hn, -⟩ := h.rotating q hq
  have h' : Primary wal { x with rotating := none } inserts :=
    { h with rotating := nofun }
  have hlog := h'.log ha hp nofun
  constructor
  case slots => exact hlog.slots
  case within => exact hlog.within
  case reserved => exact hlog.reserved
  case distinct => exact h.distinct
  case below => exact hlog.below
  case growing => exact hlog.growing
  case rotating =>
    rintro _ ⟨⟩
    refine ⟨hg, ?_, hr⟩
    rw [hsid]
    exact hn

theorem rotateMax (h : Primary wal x inserts) {cur : Option SegmentId}
    (hq : x.rotating = some ⟨cur, sid, .allocated⟩) :
    Primary (wal ++ [.updateMaxSid sid]) { x with rotating := some ⟨cur, sid, .maxLogged⟩ }
      inserts := by
  have hr : ∀ sid' ∈ (pages wal).memtables, sid' < sid := (h.rotating _ hq).2.2
  refine h.rotateLog hq rfl (fun _ => rfl) rfl ?_
  unfold Rotating
  rw [pages_concat]
  exact ⟨hr, le_rfl⟩

theorem rotateRegister (h : Primary wal x inserts) (hlog : Logged wal) {cur : Option SegmentId}
    (hq : x.rotating = some ⟨cur, sid, .maxLogged⟩) :
    Primary (wal ++ [.statusRegister sid]) { x with rotating := some ⟨cur, sid, .listed⟩ }
      inserts := by
  obtain ⟨hg, hn, hr⟩ := h.rotating _ hq
  have hlt : ∀ sid' ∈ (pages wal).memtables, sid' < sid := hr.1
  have hnew : sid ∉ (pages wal).memtables := fun hs => lt_irrefl _ (hlt sid hs)
  have hadd : ∀ sid', added (wal ++ [.statusRegister sid]) sid' = added wal sid' := by
    intro sid'
    rw [added_append]
    exact List.append_nil _
  have hmem : (pages (wal ++ [.statusRegister sid])).memtables =
      (pages wal).memtables ++ [sid] := by
    rw [pages_concat]
    rfl
  constructor
  case slots => simpa only [hadd] using h.slots
  case within => simpa only [hadd] using h.within
  case reserved =>
    intro t sid' i ht
    obtain ⟨h₁, h₂, h₃, h₄⟩ := h.reserved t sid' i ht
    rw [hadd, hmem]
    exact ⟨h₁, h₂, h₃, List.mem_append_left _ h₄⟩
  case distinct => exact h.distinct
  case below =>
    intro sid' hs
    rw [hmem, List.mem_append, List.mem_singleton] at hs
    rcases hs with hs | rfl
    · exact h.below sid' hs
    · exact hn
  case growing =>
    intro sid' hs
    rw [hmem]
    exact List.mem_append_left _ (h.growing sid' hs)
  case rotating =>
    rintro _ ⟨⟩
    refine ⟨hg, hn, ?_⟩
    unfold Rotating
    dsimp only
    rw [hmem, listed_append, hlog.listed_nil hnew]
    exact ⟨by simp, rfl, fun t i ht => hnew (h.reserved t sid i ht).2.2.2⟩

theorem rotateAnnounce (h : Primary wal x inserts) {cur : Option SegmentId}
    (hq : x.rotating = some ⟨cur, sid, .listed⟩) :
    Primary (wal ++ [.registerMemtable sid]) { x with rotating := some ⟨cur, sid, .registered⟩ }
      inserts := by
  have hr : sid ∈ (pages wal).memtables := (h.rotating _ hq).2.2.1
  refine h.rotateLog hq rfl (fun _ => rfl) rfl ?_
  unfold Rotating
  rw [pages_concat]
  exact hr

theorem rotateDone (h : Primary wal x inserts) {cur : Option SegmentId}
    (hq : x.rotating = some ⟨cur, sid, .registered⟩) (l : List SegmentId) :
    Primary wal { x with growing := some sid, sealed := l, rotating := none } inserts := by
  have hr : sid ∈ (pages wal).memtables := (h.rotating _ hq).2.2
  constructor
  case slots => exact h.slots
  case within => exact h.within
  case reserved => exact h.reserved
  case distinct => exact h.distinct
  case below => exact h.below
  case growing =>
    rintro _ ⟨⟩
    exact hr
  case rotating => exact nofun

end Rotate

section Recover

variable {l : LSMIndex} {files : List SegmentFileInfo} {st : StatusPages}

/-- The new ids of a recovered index, and its growing memtable. -/
theorem recovered (h : recoverLsmIndexInternal st files = some l)
    (hmax : ∀ sid ∈ st.memtables, sid ≤ st.maxMemtableSid) :
    (∀ sid ∈ st.memtables, sid < l.nextSegmentId) ∧
      ∀ sid ∈ (Memtables.ofRecovered l).growing, sid ∈ st.memtables := by
  obtain ⟨f, -, top, -, htop, rfl⟩ := recover_spec h
  constructor
  · intro sid hs
    have h₁ := hmax sid hs
    have h₂ := htop sid hs
    unfold rebuilt
    dsimp only
    split <;> lia
  · intro sid hs
    unfold rebuilt Memtables.ofRecovered at hs
    dsimp only at hs
    split at hs
    next heq =>
      split at heq
      next hc =>
        cases heq
        cases hs
        exact hc.2
      next => cases heq
    next => cases hs

/-- An exact recovery has each row in its logged slot. -/
theorem recover {cap : ℕ} (hlog : Logged wal) (he : Exact wal wal cap)
    (hi : ∀ t sid i, ¬ Holds inserts t sid i)
    (h : recoverLsmIndexInternal (pages wal) files = some l) :
    Primary wal ⟨(Memtables.ofRecovered l).growing, (Memtables.ofRecovered l).sealed, none,
      l.nextSegmentId, State.rebuildTables wal cap (Memtables.ofRecovered l).growing⟩ inserts := by
  obtain ⟨hnext, hgrow⟩ := recovered h hlog.le_max
  have hslot : ∀ sid i t, (listed wal sid)[i]? = some t ↔ (i, t) ∈ added wal sid := by
    intro sid i t
    constructor
    · intro hl
      exact (he.at hl (hlog.registered_of_listed sid t (List.mem_of_getElem? hl))).2
    · intro ha
      have hmem := hlog.listed_of_added sid i t ha
      obtain ⟨j, hj⟩ := List.mem_iff_getElem?.mp hmem
      have hj' := (he.at hj (hlog.registered_of_listed sid t hmem)).2
      rw [hlog.slot_unique sid i j t ha hj']
      exact hj
  constructor
  case slots =>
    intro sid i t
    rw [(rebuildTables_spec he hlog).2.2]
    exact hslot sid i t
  case within =>
    intro sid i t ha
    obtain ⟨hc, hs, -⟩ :=
      @rebuildTables_spec wal sid wal cap (Memtables.ofRecovered l).growing he hlog
    have hlt : i < (listed wal sid).length :=
      (List.getElem?_eq_some_iff.mp ((hslot sid i t).mpr ha)).1
    have hreg := hlog.registered_of_listed sid t (hlog.listed_of_added sid i t ha)
    dsimp only
    rw [hc, hs]
    exact ⟨hlt, hlt.trans_le (he sid hreg).1⟩
  case reserved => exact fun t sid i ht => absurd ht (hi t sid i)
  case distinct => exact fun t _ sid i ht => absurd ht (hi t sid i)
  case below => exact hnext
  case growing => exact hgrow
  case rotating => exact nofun

end Recover

end Primary

end VectorLsm.Slots
