import VectorLsm.StatusLists.Bounded

/-! # Refilling a memtable

A recovery that has found too few of the rows on a chain is followed by inserts until the
memtable is full, and the chain gets the tid of each of them.
-/

namespace VectorLsm.StatusLists

open Recovery (LSMIndex recoverLsmIndexInternal recover_spec rebuilt)
open Layout (memtableMaxCapacity)
open Transition

/-- The steps of an insert that nobody comes between. -/
def insertRow (tid : Tid) : List Action := [.reserve tid, .add 0, .publish 0]

/-- The state after an insert. -/
def State.inserted (s : State) (sid : SegmentId) (tid : Tid) (m : Memtable) : State :=
  (s.log (.add sid tid)).setMt sid
    (some { m with currentSize := m.currentSize + 1, readyCnt := m.readyCnt + 1 })

/-- The growing memtable is open and no insert is on its way. -/
structure Open (s : State) (sid : SegmentId) (m : Memtable) (tids : List Tid) : Prop where
  growing : ∃ l, s.index = some l ∧ l.growing = .slot sid
  memtable : s.mt sid = some m
  unsealed : m.isSealed = false
  none : s.inserts = []
  chain : s.pages.getStatusMemtableTids sid = some tids

section Fill

variable {capByBytes n : ℕ} {s s' : State} {sid : SegmentId} {tid : Tid} {m : Memtable}
  {tids : List Tid}

theorem find?_modifyChain {f : List Tid → List Tid} {es : List (SegmentId × List Tid)} :
    ((modifyChain sid f es).find? fun e => e.1 = sid).map (·.2) =
      ((es.find? fun e => e.1 = sid).map (·.2)).map f := by
  induction es with
  | nil => rfl
  | cons e es ih =>
      unfold modifyChain
      by_cases he : e.1 = sid
      · simp [he]
      · rw [if_neg he, List.find?_cons_of_neg (by simpa using he),
          List.find?_cons_of_neg (by simpa using he), ih]

theorem Open.exec_insert (h : Open s sid m tids) (hlt : m.currentSize < m.capacity) :
    exec (step capByBytes) s (insertRow tid) = some (s.inserted sid tid m) := by
  obtain ⟨l, hl, hg⟩ := h.growing
  have hreserve : step capByBytes s (.reserve tid) =
      some ((s.setMt sid (some { m with currentSize := m.currentSize + 1 })).setInserts
        [⟨sid, tid, false⟩]) := by
    simp [step, hl, hg, h.memtable, State.reserve, h.unsealed, hlt, h.none]
  rw [insertRow, exec_cons, hreserve, Option.bind_some]
  have hchain := h.chain
  simp [step, State.addToStatusMemtable, State.publish, State.inserted, hchain, State.setInserts,
    State.setMt, State.log, h.none, Function.update_idem]

theorem Open.inserted (h : Open s sid m tids) : Open (s.inserted sid tid m) sid
    { m with currentSize := m.currentSize + 1, readyCnt := m.readyCnt + 1 } (tids ++ [tid]) where
  growing := h.growing
  memtable := Function.update_self ..
  unsealed := h.unsealed
  none := h.none
  chain := by
    have hchain := h.chain
    unfold StatusPages.getStatusMemtableTids at hchain ⊢
    exact find?_modifyChain.trans (congrArg _ hchain)

/-- Each slot that is left puts one more tid on the chain. -/
theorem Open.fill (h : Open s sid m tids) (hn : m.currentSize + n ≤ m.capacity) (tid : Tid) :
    ∃ as s' m' tids', exec (step capByBytes) s as = some s' ∧ Open s' sid m' tids' ∧
      tids'.length = tids.length + n := by
  induction n generalizing s m tids with
  | zero => exact ⟨[], s, m, tids, rfl, h, rfl⟩
  | succ n ih =>
      obtain ⟨as, s', m', tids', hrun, hopen, hlen⟩ := ih (@Open.inserted s sid tid m tids h) (by
        dsimp only
        omega)
      refine ⟨insertRow tid ++ as, s', m', tids', ?_, hopen, ?_⟩
      · rw [exec_append, h.exec_insert (by omega), Option.bind_some, hrun]
      · rw [hlen, List.length_append, List.length_singleton]
        omega

theorem not_bounded (h : Open s sid m tids) (hlen : memtableMaxCapacity < tids.length) :
    ¬ Bounded s :=
  fun hb => absurd (hb _ (mem_of_getStatusMemtableTids h.chain)) (Nat.not_le.mpr hlen)

/-- A recovery leaves the growing memtable open. -/
theorem Inv.open_recover {fetch : Tid → Bool} {cap : ℕ} (h : Inv s) (hdown : s.index = none)
    (hr : s.recover capByBytes fetch cap = some s')
    (htids : s.pages.getStatusMemtableTids s.pages.maxMemtableSid = some tids)
    (hlast : ∀ last ∈ (scanSegmentMetadataFiles s.dir).getLast?,
      last.endSid < s.pages.maxMemtableSid) :
    Open s' s.pages.maxMemtableSid
      (State.construct (min capByBytes cap) fetch false tids) tids := by
  unfold State.recover at hr
  dsimp only at hr
  split at hr
  case h_2 => cases hr
  case h_1 last l hlast' hrec =>
    obtain rfl := Option.some.inj hr
    obtain ⟨f, hf, top, -, -, rfl⟩ := recover_spec hrec
    obtain rfl := Option.some.inj (hf.symm.trans hlast')
    have hlt := hlast f hlast'
    have hin : s.pages.maxMemtableSid ∈ s.pages.sids :=
      List.mem_map_of_mem (f := (·.1)) (mem_of_getStatusMemtableTids htids)
    refine ⟨⟨_, rfl, ?_⟩, ?_, rfl, h.down hdown, htids⟩
    · unfold rebuilt
      exact if_pos ⟨hlt, hin⟩
    · simp only [State.constructAll]
      rw [if_pos hlt, htids]
      simp

/-- After a recovery that does not meet the condition, inserts alone make a chain too long. -/
theorem Inv.exceeds (h : Inv s) {fetch : Tid → Bool} {cap : ℕ}
    (hs : StatusLists.step capByBytes s (.recover fetch cap) = some s')
    (hmet : ¬ Met capByBytes s (.recover fetch cap)) :
    ∃ as u, exec (StatusLists.step capByBytes) s' as = some u ∧ ¬ Bounded u := by
  simp only [StatusLists.step] at hs
  split at hs
  case isFalse => cases hs
  case isTrue hc =>
    simp only [Met, not_forall, Nat.not_le] at hmet
    obtain ⟨tids, htids, hlast, hlong⟩ := hmet
    have hopen := h.open_recover hc.1 hs htids hlast
    rcases Nat.le_total (min capByBytes cap) (tids.filter fetch).length with hfull | hroom
    · refine ⟨[], s', rfl, not_bounded hopen ?_⟩
      omega
    · obtain ⟨as, u, m, tids', hrun, hopen', hlen⟩ := @Open.fill capByBytes
        (min capByBytes cap - (tids.filter fetch).length) _ _ _ _ hopen (by
          simp only [State.construct]
          omega) 0
      exact ⟨as, u, hrun, not_bounded hopen' (by omega)⟩

end Fill

/-! ## Every run -/

section Runs

variable {capByBytes : ℕ} {s : State}

theorem reachable_inv (h : Reachable (Start capByBytes) (step capByBytes) (Met capByBytes) s) :
    Inv s :=
  h.invariant (fun _ hs => hs.inv) fun _ _ _ _ hinv hmet hs => hinv.step hmet hs

/-- In every run whose recoveries meet the condition all chains fit the array. A recovery that
does not meet it can be followed by inserts that make one too long. -/
theorem status_lists_bounded
    (h : Reachable (Start capByBytes) (step capByBytes) (Met capByBytes) s) :
    Bounded s ∧ ∀ fetch cap s', step capByBytes s (.recover fetch cap) = some s' →
      ¬ Met capByBytes s (.recover fetch cap) →
        ∃ as u, exec (step capByBytes) s' as = some u ∧ ¬ Bounded u :=
  have hinv := reachable_inv h
  ⟨hinv.ok.short, fun _ _ _ hs hmet => hinv.exceeds hs hmet⟩

end Runs

section Demo

/-- Rows of 512 bytes. -/
def demoCapByBytes : ℕ := 262144

/-- A row is inserted and the server crashes. -/
def demoCrash : List Action := insertRow 7 ++ [.crash 0]

/-- The state after the crash. -/
def demoDown : State where
  pages := ⟨4, [(4, [7])]⟩
  earlier := []
  dir := [⟨3, 3, 0⟩]
  memtableCapacity := memtableMaxCapacity
  index := none
  mt := fun _ => none
  inserts := []

theorem exec_demoCrash :
    exec (step demoCapByBytes) (start demoCapByBytes memtableMaxCapacity) demoCrash =
      some demoDown := by
  have hopen : Open (start demoCapByBytes memtableMaxCapacity) 4
      ⟨memtableMaxCapacity, 0, 0, false⟩ [] := ⟨⟨_, rfl, rfl⟩, rfl, rfl, rfl, rfl⟩
  rw [demoCrash, exec_append, hopen.exec_insert (by decide), Option.bind_some]
  rfl

theorem start_demo : Start demoCapByBytes (start demoCapByBytes memtableMaxCapacity) :=
  ⟨memtableMaxCapacity, by decide, le_rfl, rfl⟩

/-- Only recoveries have a condition. -/
theorem meets_of_forall {as : List Action} {s : State} (h : ∀ a ∈ as, ∀ s, Met demoCapByBytes s a) :
    Meets (Met demoCapByBytes) (step demoCapByBytes) s as := by
  induction as generalizing s with
  | nil => trivial
  | cons a as ih =>
      refine ⟨h a List.mem_cons_self s, ?_⟩
      cases step demoCapByBytes s a with
      | none => trivial
      | some s' => exact ih fun b hb => h b (List.mem_cons_of_mem a hb)

theorem reachable_demoDown :
    Reachable (Start demoCapByBytes) (step demoCapByBytes) (Met demoCapByBytes) demoDown := by
  refine (Reachable.start start_demo).of_exec (meets_of_forall fun a ha s => ?_) exec_demoCrash
  rcases List.mem_append.mp ha with ha | ha
  · rcases List.mem_cons.mp ha with rfl | ha
    · trivial
    · rcases List.mem_cons.mp ha with rfl | ha
      · trivial
      · rw [List.mem_singleton.mp ha]
        trivial
  · rw [List.mem_singleton.mp ha]
    trivial

/-- What a recovery has to do with the row. -/
theorem met_demo_iff {fetch : Tid → Bool} :
    Met demoCapByBytes demoDown (.recover fetch memtableMaxCapacity) ↔ fetch 7 = true := by
  have hlast : ∀ last ∈ (scanSegmentMetadataFiles demoDown.dir).getLast?, last.endSid < 4 := by
    intro last hlast
    obtain rfl : (⟨3, 3, 0⟩ : SegmentFileInfo) = last := Option.some.inj hlast
    decide
  have hmin : min demoCapByBytes memtableMaxCapacity = memtableMaxCapacity := by decide
  constructor
  · intro h
    have hlong := h [7] rfl hlast
    by_contra hno
    rw [hmin, List.filter_cons_of_neg hno, List.filter_nil] at hlong
    exact absurd hlong (by decide)
  · intro hyes tids htids _
    obtain rfl : [7] = tids := Option.some.inj htids
    rw [hmin, List.filter_cons_of_pos hyes, List.filter_nil]
    decide

/-- The heap has lost the row, and the memtable is filled again. -/
theorem not_status_lists_bounded : ¬ ∀ s,
    Reachable (Start demoCapByBytes) (step demoCapByBytes) anyStep s → Bounded s := by
  intro hall
  obtain ⟨s', hs'⟩ : ∃ s', step demoCapByBytes demoDown
      (.recover (fun _ => false) memtableMaxCapacity) = some s' := ⟨_, rfl⟩
  have hdown : Reachable (Start demoCapByBytes) (step demoCapByBytes) anyStep demoDown :=
    reachable_demoDown.mono fun _ _ _ => trivial
  obtain ⟨as, u, hrun, hlong⟩ := (reachable_inv reachable_demoDown).exceeds hs' fun h =>
    Bool.false_ne_true (met_demo_iff.mp h)
  exact hlong (hall u ((hdown.next trivial hs').of_exec (meets_anyStep _) hrun))

/-- With the row still in the heap. -/
theorem status_lists_bounded_demoRecover : ∃ s, step demoCapByBytes demoDown
    (.recover (fun _ => true) memtableMaxCapacity) = some s ∧ Bounded s := by
  obtain ⟨s', hs'⟩ : ∃ s', step demoCapByBytes demoDown
      (.recover (fun _ => true) memtableMaxCapacity) = some s' := ⟨_, rfl⟩
  exact ⟨s', hs', (status_lists_bounded (reachable_demoDown.next (met_demo_iff.mpr rfl) hs')).1⟩

end Demo

end VectorLsm.StatusLists
