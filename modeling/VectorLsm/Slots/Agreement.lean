import VectorLsm.Slots.Follows

/-! # Slots on the primary and on the standby

A tombstone names a row by the slot of its memtable. It hits the same row on both sides as long
as each recovery finds the rows of the status pages in the heap and in the order of their slots.
-/

namespace VectorLsm.Slots

open Transition Recovery Replay

/-- A logged slot is within the memtable of the standby. -/
def Within (y : StandbyIndex) : Record → Prop
  | .addToMemtable sid i _ => sid ∈ y.mts.tables → i < (y.tables sid).capacity
  | _ => True

instance (y : StandbyIndex) : DecidablePred (Within y)
  | .addToMemtable _ _ _ => inferInstanceAs (Decidable (_ → _))
  | .indexCreate | .updateMaxSid _ | .statusRegister _ | .registerMemtable _ | .addStatus _ _
  | .heapInsert _ | .heapPrune _ => .isTrue trivial

/-- The condition: what a recovery reads is exact, and what is redone is within its memtable. -/
def Slotting (s : State) : Action → Prop
  | .recover => Exact s.wal s.wal s.capacity
  | .recoverStandby => Exact s.redone s.wal s.standbyCapacity
  | .redo _ => ∀ y ∈ s.standby, ∀ r ∈ s.wal[s.replayed]?, Within y r
  | _ => True

instance (s : State) (a : Action) : Decidable (Slotting s a) := by
  cases a <;> unfold Slotting <;> infer_instance

/-- The memtable has the same rows in the same slots on both sides, and each row that was inserted
in just one of them. -/
structure SameSlots (wal : List Record) (sid : SegmentId) (T T' : Table) : Prop where
  same : ∀ i t, T.Populated i t ↔ T'.Populated i t
  once : ∀ i t, (i, t) ∈ added wal sid → (∃! j, T.Populated j t) ∧ ∃! j, T'.Populated j t

variable {wal pre : List Record} {r : Record} {y : StandbyIndex} {sid : SegmentId} {i : ℕ} {t : Tid}
  {free : Bool} {cap : ℕ}

structure Inv (s : State) : Prop where
  log : Log.Cuts Logged 0 s.wal
  inserting : Inserting s.wal s.inserts
  primary : ∀ x ∈ s.index, Primary s.wal x s.inserts
  /-- A slot is reserved while the index is in memory. -/
  idle : s.index = none → ∀ t sid i, ¬ Holds s.inserts t sid i
  replayed : s.replayed ≤ s.durable
  durable : s.durable ≤ s.wal.length
  standby : ∀ y ∈ s.standby, Follows s.redone y
  logged : s.index ≠ none → ∀ y ∈ s.standby, ∀ sid ∈ y.mts.tables, ∀ i t,
    (y.tables sid).tids i = some t → (i, t) ∈ added s.wal sid

namespace Inv

variable {s s' : State}

theorem self (h : Inv s) : Logged s.wal := h.log.self (Nat.zero_le _)

theorem redone_append {wal' : List Record} (h : Inv s) :
    (s.wal ++ wal').take s.replayed = s.redone :=
  List.take_append_of_le_length (h.replayed.trans h.durable)

/-- A step of the primary that keeps the log, up to a record that fits. -/
theorem extend (h : Inv s) {wal' : List Record} {index' : Option Index}
    {inserts' : Tid → Option InsertPc} (hlog : Log.Cuts Logged 0 (s.wal ++ wal'))
    (hins : Inserting (s.wal ++ wal') inserts') (hnone : s.index = none → index' = none)
    (hp : ∀ x ∈ index', Primary (s.wal ++ wal') x inserts')
    (hidle : index' = none → ∀ t sid i, ¬ Holds inserts' t sid i) :
    Inv { s with wal := s.wal ++ wal', index := index', inserts := inserts' } where
  log := hlog
  inserting := hins
  primary := hp
  idle := hidle
  replayed := h.replayed
  durable := by
    dsimp only
    rw [List.length_append]
    exact h.durable.trans (Nat.le_add_right _ _)
  standby := by
    intro y hy
    unfold State.redone
    dsimp only
    rw [h.redone_append]
    exact h.standby y hy
  logged := by
    intro hx y hy sid hs i t ht
    rw [added_append]
    exact List.mem_append_left _ (h.logged (fun hi => hx (hnone hi)) y hy sid hs i t ht)

/-- The same for one record and an index in memory. -/
theorem append (h : Inv s) {x x' : Index} {inserts' : Tid → Option InsertPc} (hx : s.index = some x)
    (hr : Fits s.wal r) (hins : Inserting (s.wal ++ [r]) inserts')
    (hp : Primary (s.wal ++ [r]) x' inserts') :
    Inv { s with wal := s.wal ++ [r], index := some x', inserts := inserts' } := by
  refine h.extend (h.log.concat (h.self.concat hr)) hins (fun hi => ?_) ?_ nofun
  · rw [hx] at hi
    cases hi
  · rintro _ ⟨⟩
    exact hp

/-- The same without a record. -/
theorem update (h : Inv s) {x x' : Index} {inserts' : Tid → Option InsertPc} (hx : s.index = some x)
    (hins : Inserting s.wal inserts') (hp : Primary s.wal x' inserts') :
    Inv { s with index := some x', inserts := inserts' } := by
  have hnil : s.wal ++ [] = s.wal := List.append_nil _
  have h' := @extend s h [] (some x') inserts' (hnil.symm ▸ h.log) (hnil.symm ▸ hins)
    (fun hi => by rw [hx] at hi; cases hi) (by rintro _ ⟨⟩; exact hnil.symm ▸ hp) nofun
  rwa [hnil] at h'

/-- Without a log nothing is under way, and the standby has no row. -/
theorem unbuilt (h : Inv s) (hw : s.wal = []) : s.replayed = 0 ∧ (∀ t, s.inserts t = none) ∧
    ∀ y ∈ s.standby, ∀ sid ∈ y.mts.tables, ∀ i, (y.tables sid).tids i = none := by
  refine ⟨?_, fun t => ?_, fun y hy sid hs i => ?_⟩
  · have hle := h.replayed.trans h.durable
    rw [hw] at hle
    exact Nat.le_zero.mp hle
  · by_contra hne
    obtain ⟨pc, hpc⟩ := Option.ne_none_iff_exists'.mp hne
    have hmem := h.inserting.heap t pc hpc
    rw [hw] at hmem
    cases hmem
  · have hred : s.redone = [] := by rw [State.redone, hw, List.take_nil]
    by_contra hne
    obtain ⟨t, ht⟩ := Option.ne_none_iff_exists'.mp hne
    rcases (h.standby y hy).source sid hs i t ht with ha | hl
    · rw [hred] at ha
      cases ha
    · rw [hred] at hl
      cases hl

theorem build (h : Inv s) (hs : s.build = some s') : Inv s' := by
  unfold State.build at hs
  split at hs
  next hw =>
    obtain rfl := Option.some.inj hs
    obtain ⟨hzero, hnone, hrows⟩ := h.unbuilt hw
    have h₁ : Logged [.indexCreate] := Logged.nil.concat (r := .indexCreate) rfl
    have h₂ := h₁.concat (r := .updateMaxSid (startSegmentId + 1)) (by rintro x ⟨⟩)
    have h₃ := h₂.concat (r := .statusRegister (startSegmentId + 1)) (le_refl (startSegmentId + 1))
    have h₄ := h₃.concat (r := .registerMemtable (startSegmentId + 1)) rfl
    have hnil : Log.Cuts Logged 0 [] := .nil .nil
    have hheld : ∀ t sid i, ¬ Holds s.inserts t sid i := by
      intro t sid i ht
      unfold Holds at ht
      rw [hnone t] at ht
      cases ht
    constructor
    case log => exact (((hnil.concat h₁).concat h₂).concat h₃).concat h₄
    case inserting =>
      constructor <;> intro t
      · exact fun pc ht => absurd ht (by simp [hnone t])
      · exact fun sid i ht => absurd ht (by simp [hnone t])
      · exact fun pc ht => absurd ht (by simp [hnone t])
    case primary =>
      rintro _ ⟨⟩
      constructor
      case slots => exact fun sid i t => iff_of_false nofun (List.not_mem_nil)
      case within => exact fun sid i t ht => absurd ht List.not_mem_nil
      case reserved => exact fun t sid i ht => absurd ht (hheld t sid i)
      case distinct => exact fun t _ sid i ht => absurd ht (hheld t sid i)
      case below =>
        intro sid hs
        obtain rfl := List.mem_singleton.mp hs
        exact Nat.lt_succ_self _
      case growing =>
        rintro _ ⟨⟩
        exact List.mem_singleton_self _
      case rotating => exact nofun
    case idle => exact nofun
    case replayed =>
      dsimp only
      rw [hzero]
      exact Nat.zero_le _
    case durable => exact le_rfl
    case standby =>
      intro y hy
      unfold State.redone
      dsimp only
      rw [hzero]
      constructor
      · exact fun sid _ i t ha => absurd ha List.not_mem_nil
      · intro sid hs i t ht
        rw [hrows y hy sid hs i] at ht
        cases ht
    case logged =>
      intro _ y hy sid hs i t ht
      rw [hrows y hy sid hs i] at ht
      cases ht
  next => cases hs

theorem heapInsert (h : Inv s) (hs : s.heapInsert t = some s') : Inv s' := by
  unfold State.heapInsert at hs
  split at hs
  next hc =>
    obtain rfl := Option.some.inj hs
    obtain ⟨-, hnew⟩ := hc
    have hself : Logged (s.wal ++ [.heapInsert t]) := h.self.concat (r := .heapInsert t) trivial
    have hold : Inserting (s.wal ++ [.heapInsert t]) s.inserts := h.inserting.log nofun
    have hins : Inserting (s.wal ++ [.heapInsert t])
        (Function.update s.inserts t (some .inHeap)) := by
      refine hold.set ?_
      rintro pc ⟨⟩
      refine ⟨?_, nofun, fun sid i ha => ?_⟩
      · rw [heap_append, List.mem_append]
        exact Or.inr (List.mem_singleton_self t)
      · rw [added_append, List.mem_append] at ha
        rcases ha with ha | ha
        · exact hnew (h.self.heap_of_listed sid t (h.self.listed_of_added sid i t ha))
        · cases ha
    refine h.extend (h.log.concat hself) hins id (fun x hx => ?_) fun hi u sid i hu => ?_
    · exact ((h.primary x hx).logHeap (Or.inl rfl)).set (by rintro _ _ ⟨⟩)
    · rw [holds_update] at hu
      split at hu
      · cases hu
      · exact h.idle hi u sid i hu
  next => cases hs

theorem prune (h : Inv s) (hs : step s (.prune t) = some s') : Inv s' := by
  dsimp only [Slots.step] at hs
  split at hs
  next =>
    obtain rfl := Option.some.inj hs
    have hself : Logged (s.wal ++ [.heapPrune t]) := h.self.concat (r := .heapPrune t) trivial
    exact h.extend (h.log.concat hself) (h.inserting.log nofun) id
      (fun x hx => (h.primary x hx).logHeap (Or.inr rfl)) h.idle
  next => cases hs

theorem fail (h : Inv s) : Inv (s.setInsert t none) := by
  have hnil : s.wal ++ [] = s.wal := List.append_nil _
  have hins : Inserting s.wal (Function.update s.inserts t none) := h.inserting.set nofun
  have h' := @extend s h [] s.index (Function.update s.inserts t none) (hnil.symm ▸ h.log)
    (hnil.symm ▸ hins) id (fun x hx => hnil.symm ▸ (h.primary x hx).set nofun)
    fun hi u sid i hu => by
      rw [holds_update] at hu
      split at hu
      · cases hu
      · exact h.idle hi u sid i hu
  rwa [hnil] at h'

theorem reserve (h : Inv s) (hs : s.reserve t = some s') : Inv s' := by
  unfold State.reserve at hs
  split at hs
  next x ht hx =>
    have hp := h.primary x hx
    split at hs
    next sid hg =>
      dsimp only at hs
      split_ifs at hs with _ hlt
      · -- The insert has its slot.
        obtain rfl := Option.some.inj hs
        refine h.update hx (h.inserting.set ?_) (hp.reserve hg hlt)
        rintro _ ⟨⟩
        exact ⟨h.inserting.heap t _ ht, nofun, h.inserting.unlogged t _ ht⟩
      · obtain rfl := Option.some.inj hs
        refine h.update hx h.inserting (hp.grow ?_)
        exact @Primary.grow_update x sid ((x.tables sid).bump.setSealed true) rfl rfl
          (Nat.le_succ _)
    next => cases hs
  next => cases hs

theorem addStatus (h : Inv s) (hs : s.addStatus t = some s') : Inv s' := by
  unfold State.addStatus at hs
  split at hs
  next sid i ht =>
    obtain rfl := Option.some.inj hs
    have hheld : Holds s.inserts t sid i := by
      unfold Holds
      rw [ht]
      rfl
    obtain ⟨x, hx⟩ : ∃ x, s.index = some x :=
      Option.ne_none_iff_exists'.mp fun hi => h.idle hi t sid i hheld
    have hp := h.primary x hx
    have hheap := h.inserting.heap t _ ht
    have hold : Inserting (s.wal ++ [.addStatus sid t]) s.inserts := h.inserting.log nofun
    have hins : Inserting (s.wal ++ [.addStatus sid t])
        (Function.update s.inserts t (some (.listed sid i))) := by
      refine hold.set ?_
      rintro _ ⟨⟩
      refine ⟨?_, ?_, hold.unlogged t _ ht⟩
      · rw [heap_append]
        exact List.mem_append_left _ hheap
      · rintro _ _ ⟨⟩
        rw [listed_append, List.mem_append, mem_listed_singleton]
        exact Or.inr rfl
    have hp' : Primary (s.wal ++ [.addStatus sid t]) x
        (Function.update s.inserts t (some (.listed sid i))) := by
      refine (hp.logStatus hheld).set ?_
      rintro _ _ ⟨⟩
      exact hheld
    have hreg := (hp.reserved t sid i hheld).2.2.2
    have h' := h.append hx (r := .addStatus sid t) ⟨hreg, hheap⟩ hins hp'
    rwa [← hx] at h'
  next => cases hs

theorem addToMemtable (h : Inv s) (hs : s.addToMemtable t = some s') : Inv s' := by
  unfold State.addToMemtable at hs
  split at hs
  next sid i x ht hx =>
    obtain rfl := Option.some.inj hs
    have hp := h.primary x hx
    have hheld : Holds s.inserts t sid i := by
      unfold Holds
      rw [ht]
      rfl
    have hfree := (hp.reserved t sid i hheld).2.2.1
    have hins : Inserting (s.wal ++ [.addToMemtable sid i t])
        (Function.update s.inserts t none) := by
      refine Inserting.log (h.inserting.set nofun) ?_
      rintro _ _ u ⟨⟩
      exact Function.update_self ..
    refine h.append hx ⟨h.inserting.listed t sid i ht, ?_⟩ hins (hp.publish hheld)
    intro j u hu
    constructor
    · rintro rfl
      exact hfree u hu
    · rintro rfl
      exact h.inserting.unlogged u _ ht sid j hu
  next => cases hs

theorem rotate (h : Inv s) (hs : s.rotate = some s') : Inv s' := by
  unfold State.rotate at hs
  split at hs
  next => cases hs
  next x hx =>
    have hp := h.primary x hx
    split at hs
    next hq =>
      split at hs
      next =>
        obtain rfl := Option.some.inj hs
        exact h.update hx h.inserting (hp.allocate h.self s.capacity)
      next => cases hs
    next cur sid hq =>
      obtain rfl := Option.some.inj hs
      have hlt : ∀ sid' ∈ (pages s.wal).memtables, sid' < sid := (hp.rotating _ hq).2.2
      exact h.append hx (r := .updateMaxSid sid) (fun sid' hs => (hlt sid' hs).le)
        (h.inserting.log nofun) (hp.rotateMax hq)
    next cur sid hq =>
      obtain rfl := Option.some.inj hs
      have hr : Rotating s.wal s.inserts ⟨cur, sid, .maxLogged⟩ := (hp.rotating _ hq).2.2
      exact h.append hx (r := .statusRegister sid) hr.2 (h.inserting.log nofun)
        (hp.rotateRegister h.self hq)
    next cur sid hq =>
      obtain rfl := Option.some.inj hs
      have hr : Rotating s.wal s.inserts ⟨cur, sid, .listed⟩ := (hp.rotating _ hq).2.2
      exact h.append hx (r := .registerMemtable sid) hr.2.1 (h.inserting.log nofun)
        (hp.rotateAnnounce hq)
    next cur sid hq =>
      split at hs
      next =>
        obtain rfl := Option.some.inj hs
        exact h.update hx h.inserting (hp.rotateDone hq _)
      next => cases hs

theorem crash (h : Inv s) {n : ℕ} (hs : step s (.crash n cap) = some s') : Inv s' := by
  dsimp only [Slots.step] at hs
  split at hs
  next hn =>
    obtain rfl := Option.some.inj hs
    obtain ⟨hdur, hlen⟩ := hn
    constructor
    case log => exact h.log.take n
    case inserting => constructor <;> exact nofun
    case primary => exact nofun
    case idle => exact fun _ t sid i => nofun
    case replayed => exact h.replayed.trans hdur
    case durable => simp [hlen]
    case standby =>
      intro y hy
      unfold State.redone
      dsimp only
      rw [List.take_take, min_eq_left (h.replayed.trans hdur)]
      exact h.standby y hy
    case logged => exact fun hi => absurd rfl hi
  next => cases hs

/-- What the standby has was logged, or is listed in a place that is its logged slot. -/
theorem recover (h : Inv s) (hok : Exact s.wal s.wal s.capacity) (hs : s.recover = some s') :
    Inv s' := by
  unfold State.recover at hs
  split at hs
  next l hi hl =>
    obtain rfl := Option.some.inj hs
    constructor
    case log => exact h.log
    case inserting => exact h.inserting
    case primary =>
      rintro _ ⟨⟩
      exact Primary.recover h.self hok (h.idle hi) hl
    case idle => exact nofun
    case replayed => exact h.replayed
    case durable => exact h.durable
    case standby => exact h.standby
    case logged =>
      intro _ y hy sid hs i t ht
      rcases (h.standby y hy).source sid hs i t ht with ha | hl
      · exact mem_added_of_take ha
      · have hl' : (listed s.wal sid)[i]? = some t := listed_getElem_of_take hl
        have hreg := h.self.registered_of_listed sid t (List.mem_of_getElem? hl')
        exact (hok.at hl' hreg).2
  next => cases hs

theorem redone_logged (h : Inv s) : Logged s.redone :=
  h.log s.replayed (Nat.zero_le _) (h.replayed.trans h.durable)

theorem recoverStandby (h : Inv s) (hok : Exact s.redone s.wal s.standbyCapacity)
    (hs : s.recoverStandby = some s') : Inv s' := by
  unfold State.recoverStandby at hs
  dsimp only at hs
  split at hs
  next l hy hl =>
    obtain rfl := Option.some.inj hs
    constructor
    case log => exact h.log
    case inserting => exact h.inserting
    case primary => exact h.primary
    case idle => exact h.idle
    case replayed => exact h.replayed
    case durable => exact h.durable
    case standby =>
      rintro _ ⟨⟩
      exact .recover h.redone_logged h.self hok (fun _ _ _ => mem_added_of_take) _
    case logged =>
      rintro _ _ ⟨⟩ sid - i t ht
      rw [(rebuildTables_spec hok h.redone_logged).2.2] at ht
      have hreg := h.redone_logged.registered_of_listed sid t (List.mem_of_getElem? ht)
      exact (hok.at ht hreg).2
  next => cases hs

theorem follows_redoIndex (h : Inv s) (hy : s.standby = some y) (hr : s.wal[s.replayed]? = some r)
    (hok : Slotting s (.redo free)) : Follows (s.redone ++ [r]) (s.redoIndex y free r) := by
  have hf := h.standby y hy
  have hnext : Logged (s.redone ++ [r]) := by
    have hcut := h.log (s.replayed + 1) (Nat.zero_le _) (List.getElem?_eq_some_iff.mp hr).1
    rwa [List.take_add_one, hr] at hcut
  unfold State.redoIndex
  cases r with
  | registerMemtable sid =>
      dsimp only
      split
      next => exact hf.skip nofun
      next =>
        have hl := hnext.created sid (by simp)
        rw [listed_append] at hl
        exact hf.register h.redone_logged (List.append_eq_nil_iff.mp hl).1
  | addToMemtable sid i t =>
      dsimp only
      split
      next hsid => exact hf.add hnext (hok y hy _ hr hsid)
      next hsid =>
        refine hf.skip ?_
        rintro _ _ _ ⟨⟩
        exact hsid
  | _ => exact hf.skip nofun

/-- A redo gives a slot to a row only as the log says. -/
theorem tids_redoIndex (hs : sid ∈ (s.redoIndex y free r).mts.tables)
    (ht : ((s.redoIndex y free r).tables sid).tids i = some t) :
    (sid ∈ y.mts.tables ∧ (y.tables sid).tids i = some t) ∨ r = .addToMemtable sid i t := by
  unfold State.redoIndex at hs ht
  cases r with
  | registerMemtable sid' =>
      dsimp only at hs ht
      split at hs
      next hc =>
        rw [if_pos hc] at ht
        exact Or.inl ⟨hs, ht⟩
      next hc =>
        rw [if_neg hc] at ht
        dsimp only at hs ht
        rcases eq_or_ne sid sid' with rfl | hne
        · rw [Function.update_self] at ht
          cases ht
        · rw [Function.update_of_ne hne] at ht
          exact Or.inl ⟨(mem_of_tables_register hs).resolve_left hne, ht⟩
  | addToMemtable sid' i' t' =>
      dsimp only at hs ht
      split at hs
      next hc =>
        rw [if_pos hc] at ht
        dsimp only at hs ht
        rcases eq_or_ne sid sid' with rfl | hne
        · rw [Function.update_self, Table.redoAdd] at ht
          split at ht
          next =>
            rcases eq_or_ne i i' with rfl | hi
            · obtain rfl : t' = t := by simpa using ht
              exact Or.inr rfl
            · exact Or.inl ⟨hs, by simpa [Function.update_of_ne hi] using ht⟩
          next => exact Or.inl ⟨hs, ht⟩
        · rw [Function.update_of_ne hne] at ht
          exact Or.inl ⟨hs, ht⟩
      next hc =>
        rw [if_neg hc] at ht
        exact Or.inl ⟨hs, ht⟩
  | _ => exact Or.inl ⟨hs, ht⟩

/-- A standby that has redone one more record. -/
theorem advance (h : Inv s) (hlt : s.replayed < s.durable) {o : Option StandbyIndex}
    (ho : ∀ y ∈ o, Follows (s.wal.take (s.replayed + 1)) y)
    (hl : s.index ≠ none → ∀ y ∈ o, ∀ sid ∈ y.mts.tables, ∀ i t,
      (y.tables sid).tids i = some t → (i, t) ∈ added s.wal sid) :
    Inv { s with standby := o, replayed := s.replayed + 1 } where
  log := h.log
  inserting := h.inserting
  primary := h.primary
  idle := h.idle
  replayed := hlt
  durable := h.durable
  standby := ho
  logged := hl

theorem redo (h : Inv s) (hok : Slotting s (.redo free)) (hs : s.redo free = some s') : Inv s' := by
  unfold State.redo at hs
  split at hs
  next hlt =>
    split at hs
    next r y hr hy =>
      obtain rfl := Option.some.inj hs
      have htake : s.wal.take (s.replayed + 1) = s.redone ++ [r] := by
        rw [List.take_add_one, hr]
        rfl
      refine h.advance hlt ?_ fun hx => ?_
      · rintro _ ⟨⟩
        rw [htake]
        exact h.follows_redoIndex hy hr hok
      · rintro _ ⟨⟩ sid hsid i t ht
        rcases tids_redoIndex hsid ht with ⟨hsid, ht⟩ | rfl
        · exact h.logged hx y hy sid hsid i t ht
        · have hmem : Record.addToMemtable sid i t ∈ s.wal := List.mem_of_getElem? hr
          unfold added
          rw [List.mem_filterMap]
          exact ⟨_, hmem, by simp⟩
    next r hr hy =>
      split at hs
      next =>
        obtain rfl := Option.some.inj hs
        refine h.advance hlt ?_ fun _ => ?_
        · rintro _ ⟨⟩
          constructor <;> rintro sid ⟨⟩
        · rintro _ ⟨⟩ sid ⟨⟩
      next =>
        obtain rfl := Option.some.inj hs
        refine h.advance hlt ?_ fun _ => ?_
        · rw [hy]
          exact nofun
        · rw [hy]
          exact nofun
    next => cases hs
  next => cases hs

theorem restart (h : Inv s) {n : ℕ} (hs : step s (.restart n cap) = some s') : Inv s' := by
  dsimp only [Slots.step] at hs
  split at hs
  next hn =>
    obtain rfl := Option.some.inj hs
    constructor
    case log => exact h.log
    case inserting => exact h.inserting
    case primary => exact h.primary
    case idle => exact h.idle
    case replayed => exact hn.trans h.replayed
    case durable => exact h.durable
    case standby => exact nofun
    case logged => exact fun _ => nofun
  next => cases hs

theorem flushWal (h : Inv s) {n : ℕ} (hs : step s (.flushWal n) = some s') : Inv s' := by
  dsimp only [Slots.step] at hs
  split at hs
  next hn =>
    obtain rfl := Option.some.inj hs
    exact { h with replayed := h.replayed.trans hn.1, durable := hn.2 }
  next => cases hs

theorem step (h : Inv s) {a : Action} (hok : Slotting s a) (hs : step s a = some s') : Inv s' := by
  cases a with
  | build => exact h.build hs
  | heapInsert tid => exact h.heapInsert hs
  | reserve tid => exact h.reserve hs
  | addStatus tid => exact h.addStatus hs
  | addToMemtable tid => exact h.addToMemtable hs
  | fail tid =>
      obtain rfl := Option.some.inj hs
      exact h.fail
  | prune tid => exact h.prune hs
  | rotate => exact h.rotate hs
  | flushWal n => exact h.flushWal hs
  | crash n cap => exact h.crash hs
  | recover => exact h.recover hok hs
  | redo free => exact h.redo hok hs
  | fetch =>
      dsimp only [Slots.step] at hs
      split at hs
      next =>
        obtain rfl := Option.some.inj hs
        exact { h with }
      next => cases hs
  | restart n cap => exact h.restart hs
  | recoverStandby => exact h.recoverStandby hok hs

/-- Where the standby has redone the whole log, both sides have the logged slots. -/
theorem sameSlots (h : Inv s) {x : Index} (hx : s.index = some x) (hy : s.standby = some y)
    (hr : s.replayed = s.wal.length) (hs : sid ∈ y.mts.tables) :
    SameSlots s.wal sid (x.tables sid) (y.tables sid) := by
  have hp := h.primary x hx
  have hf := h.standby y hy
  have hred : s.redone = s.wal := by rw [State.redone, hr, List.take_length]
  rw [hred] at hf
  have hstandby : ∀ i t, (y.tables sid).Populated i t ↔ (i, t) ∈ added s.wal sid := by
    intro i t
    constructor
    · exact fun hpop => h.logged (by simp [hx]) y hy sid hs i t hpop.2
    · exact hf.populated sid hs i t
  constructor
  · intro i t
    rw [hp.populated_iff, hstandby]
  · intro i t ha
    simp only [hp.populated_iff, hstandby]
    exact ⟨⟨i, ha, fun j hj => h.self.slot_unique sid j i t hj ha⟩,
      ⟨i, ha, fun j hj => h.self.slot_unique sid j i t hj ha⟩⟩

end Inv

theorem Init.inv {s : State} (h : Init s) : Inv s := by
  obtain ⟨cap, standbyCap, rfl⟩ := h
  constructor
  case log => exact .nil .nil
  case inserting => constructor <;> exact nofun
  case primary => exact nofun
  case idle => exact fun _ t sid i => nofun
  case replayed => exact le_rfl
  case durable => exact le_rfl
  case standby => exact nofun
  case logged => exact fun _ => nofun

section Runs

variable {s : State} {x : Index}

/-- Where each recovery finds the rows in the heap and in the order of their slots, the memtables
of a standby that has redone the log have the slots of the primary. -/
theorem slots_agree (h : Reachable Init step Slotting s) (hx : s.index = some x)
    (hy : s.standby = some y) (hr : s.replayed = s.wal.length) (_hlive : sid ∈ x.live)
    (hs : sid ∈ y.mts.tables) : SameSlots s.wal sid (x.tables sid) (y.tables sid) := by
  have hinv : Inv s := h.invariant (fun s hs => hs.inv) fun s a s' _ hi hok hs => hi.step hok hs
  exact hinv.sameSlots hx hy hr hs

/-- A build that the standby redoes. -/
def buildAndRedo : List Action := [.build, .redo true, .redo true, .redo true, .redo true, .fetch]

/-- Two inserts side by side; the second is on the status pages first if `swapped`. -/
def insertTwo (swapped : Bool) : List Action :=
  [.heapInsert 10, .heapInsert 11, .reserve 10, .reserve 11] ++
    (if swapped then [.addStatus 11, .addStatus 10] else [.addStatus 10, .addStatus 11]) ++
    [.addToMemtable 11, .addToMemtable 10, .flushWal 10]

/-- A crash, a restart after the first slot was logged, and a redo of what was recovered. -/
def crashAndRestart : List Action :=
  List.replicate 6 (.redo true) ++
    [.crash 10 2, .recover, .restart 9 2, .recoverStandby, .redo true]

theorem slots_agree_redone : ∃ (s : State) (x : Index) (y : StandbyIndex), s.index = some x ∧
    s.standby = some y ∧ added s.wal 4 = [(1, 11), (0, 10)] ∧
      SameSlots s.wal 4 (x.tables 4) (y.tables 4) := by
  have hm : Meets Slotting step (initial 2 2)
      (buildAndRedo ++ insertTwo false ++ crashAndRestart) := by
    decide +kernel
  have hs : (exec step (initial 2 2) (buildAndRedo ++ insertTwo false ++ crashAndRestart)).map
      (fun s => (s.index.map (·.live), s.standby.map (·.mts.tables),
        decide (added s.wal 4 = [(1, 11), (0, 10)]), decide (s.replayed = s.wal.length))) =
        some (some [4], some [4], true, true) := by
    decide +kernel
  obtain ⟨s, he, hv⟩ := Option.map_eq_some_iff.mp hs
  simp only [Prod.mk.injEq, decide_eq_true_eq, Option.map_eq_some_iff] at hv
  obtain ⟨⟨x, hx, hlive⟩, ⟨y, hy, htables⟩, hadd, hr⟩ := hv
  have h₀ : Reachable Init step Slotting (initial 2 2) := .start ⟨2, 2, rfl⟩
  have hx₄ : 4 ∈ x.live := hlive ▸ List.mem_singleton_self 4
  have hy₄ : 4 ∈ y.mts.tables := htables ▸ List.mem_singleton_self 4
  exact ⟨s, x, y, hx, hy, hadd, slots_agree (h₀.of_exec hm he) hx hy hr hx₄ hy₄⟩

/-- Two inserts list their rows in the other order than they took their slots; the primary crashes
and goes by the status pages. -/
theorem not_slots_agree : ¬ ∀ (s : State) (x : Index) (y : StandbyIndex) (sid : SegmentId),
    Reachable Init step anyStep s → s.index = some x → s.standby = some y →
    s.replayed = s.wal.length → sid ∈ x.live → sid ∈ y.mts.tables →
      SameSlots s.wal sid (x.tables sid) (y.tables sid) := by
  intro h
  have hs : (exec step (initial 2 2) (buildAndRedo ++ insertTwo true ++
      List.replicate 6 (.redo true) ++ [.crash 10 2, .recover])).map
      (fun s => (s.index.map (fun x => (x.live, decide ((x.tables 4).Populated 0 11))),
        s.standby.map (fun y => (y.mts.tables, decide ((y.tables 4).Populated 0 11))),
        decide (s.replayed = s.wal.length))) =
        some (some ([4], true), some ([4], false), true) := by
    decide +kernel
  obtain ⟨s, he, hv⟩ := Option.map_eq_some_iff.mp hs
  simp only [Prod.mk.injEq, decide_eq_true_eq, decide_eq_false_iff_not,
    Option.map_eq_some_iff] at hv
  obtain ⟨⟨x, hx, hlive, hpop⟩, ⟨y, hy, htables, hnot⟩, hr⟩ := hv
  have h₀ : Reachable Init step anyStep (initial 2 2) := .start ⟨2, 2, rfl⟩
  have hx₄ : 4 ∈ x.live := hlive ▸ List.mem_singleton_self 4
  have hy₄ : 4 ∈ y.mts.tables := htables ▸ List.mem_singleton_self 4
  have hsame := h s x y 4 (h₀.of_exec (meets_anyStep _) he) hx hy hr hx₄ hy₄
  exact hnot ((hsame.same 0 11).mp hpop)

end Runs

end VectorLsm.Slots
