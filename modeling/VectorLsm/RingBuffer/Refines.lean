import VectorLsm.RingBuffer.Machine

/-! # The memory is a queue and mailboxes

With queries and results that fit their slots the bytes behave as a queue of bounded length and a
mailbox for each process, in every run. With longer ones they do not.
-/

namespace VectorLsm.RingBuffer

open Codec Layout Maintenance Blob

variable {cfg : Config} {m m' : ℕ → UInt8} {p p' : UInt32} {b b' : Mailbox}
  {pairs : List DistancePair} {dist id n lo hi dim topk : ℕ}

/-! ## Pairs -/

theorem writePairs_cons {x : DistancePair} :
    writePairs m dist id (x :: pairs) =
      writePairs (int64.poke (uint32.poke m dist x.distance) id x.id) (dist + 4) (id + 8) pairs :=
  rfl

theorem readPairs_succ :
    readPairs m dist id (n + 1) =
      ⟨uint32.peek m dist, int64.peek m id⟩ :: readPairs m (dist + 4) (id + 8) n := rfl

/-- Bytes that belong to neither array are left alone. -/
theorem writePairs_apply {a : ℕ} (h : id + 8 * pairs.length ≤ dist)
    (ha : a < id ∨ id + 8 * pairs.length ≤ a ∧ a < dist ∨ dist + 4 * pairs.length ≤ a) :
    writePairs m dist id pairs a = m a := by
  induction pairs generalizing m dist id with
  | nil => rfl
  | cons x xs ih =>
      rw [List.length_cons] at h ha
      have hdist : uint32.poke m dist x.distance a = m a := by
        refine uint32.within_poke a ?_
        change a < dist ∨ dist + 4 ≤ a
        omega
      have hid : int64.poke (uint32.poke m dist x.distance) id x.id a = m a := by
        refine (int64.within_poke a ?_).trans hdist
        change a < id ∨ id + 8 ≤ a
        omega
      rw [writePairs_cons, ih (by omega) (by omega), hid]

theorem within_writePairs (h : id + 8 * pairs.length ≤ dist) :
    Within m (writePairs m dist id pairs) id (dist + 4 * pairs.length) := fun _ ha =>
  writePairs_apply h (ha.imp_right .inr)

theorem readPairs_congr {lo hi : ℕ} (hd : lo ≤ dist ∧ dist + 4 * n ≤ hi)
    (hi' : lo ≤ id ∧ id + 8 * n ≤ hi) (h : ∀ a, lo ≤ a → a < hi → m' a = m a) :
    readPairs m' dist id n = readPairs m dist id n := by
  induction n generalizing dist id with
  | zero => rfl
  | succ n ih =>
      have hdist : uint32.peek m' dist = uint32.peek m dist :=
        uint32.peek_congr fun a hlo hhi => h a (by omega) (by change a < dist + 4 at hhi; omega)
      have hid : int64.peek m' id = int64.peek m id :=
        int64.peek_congr fun a hlo hhi => h a (by omega) (by change a < id + 8 at hhi; omega)
      rw [readPairs_succ, readPairs_succ, hdist, hid, ih (by omega) (by omega)]

/-- What is read are the pairs that were written. -/
theorem readPairs_writePairs (h : id + 8 * pairs.length ≤ dist) :
    readPairs (writePairs m dist id pairs) dist id pairs.length = pairs := by
  induction pairs generalizing m dist id with
  | nil => rfl
  | cons x xs ih =>
      rw [List.length_cons] at h
      have hle : id + 8 + 8 * xs.length ≤ dist + 4 := by omega
      have hdist : uint32.peek (writePairs m dist id (x :: xs)) dist = x.distance := by
        have hrest : ∀ a, dist ≤ a → a < dist + uint32.size →
            writePairs m dist id (x :: xs) a =
              int64.poke (uint32.poke m dist x.distance) id x.id a := fun a hlo hhi =>
          writePairs_apply hle (.inr (.inl ⟨by omega, hhi⟩))
        have hpoke : id + int64.size ≤ dist := by
          change id + 8 ≤ dist
          omega
        rw [uint32.peek_congr hrest, uint32.peek_of_within int64.within_poke (.inr hpoke),
          peek_poke]
      have hid : int64.peek (writePairs m dist id (x :: xs)) id = x.id := by
        rw [writePairs_cons, int64.peek_of_within (within_writePairs hle) (.inl le_rfl), peek_poke]
      rw [List.length_cons, readPairs_succ, hdist, hid, writePairs_cons]
      exact congrArg _ (ih hle)

/-! ## Mailboxes -/

theorem vsSearchResultIdAt_eq {r : ℕ} : vsSearchResultIdAt r = r + 24 := rfl

theorem vsSearchResultDistAt_eq {r : ℕ} : vsSearchResultDistAt r n = r + 24 + n * 8 := rfl

theorem searchResultStride_eq : searchResultStride = 24 + 12 * maxTopk := rfl

/-- The arrays of a result that fits lie in its slot, behind the fields. -/
theorem arrays_in_slot {r : ℕ} (h : n ≤ maxTopk) :
    vsSearchResultIdAt r + 8 * n ≤ vsSearchResultDistAt r n ∧
      vsSearchResultDistAt r n + 4 * n ≤ r + searchResultStride ∧
      r + 24 ≤ vsSearchResultIdAt r := by
  rw [vsSearchResultIdAt_eq, vsSearchResultDistAt_eq, searchResultStride_eq]
  omega

/-- A result slot holds what is kept for a process. -/
structure Box (m : ℕ → UInt8) (p : UInt32) (b : Mailbox) : Prop where
  status : (VectorSearchResultData.codec.peek m (vsSearchResultAt p)).status = b.status
  resultCount : (VectorSearchResultData.codec.peek m (vsSearchResultAt p)).resultCount.toNat =
    b.pairs.length
  maintStatus : (VectorSearchResultData.codec.peek m (vsSearchResultAt p)).maintStatus =
    b.maintStatus
  maintDone : (VectorSearchResultData.codec.peek m (vsSearchResultAt p)).maintDone = b.maintDone
  le : b.pairs.length ≤ maxTopk
  pairs : readPairs m (vsSearchResultDistAt (vsSearchResultAt p) b.pairs.length)
    (vsSearchResultIdAt (vsSearchResultAt p)) b.pairs.length = b.pairs

theorem vsSearchResultAt_apart (h : p ≠ p') :
    vsSearchResultAt p' + searchResultStride ≤ vsSearchResultAt p ∨
      vsSearchResultAt p + searchResultStride ≤ vsSearchResultAt p' := by
  have hne : p.toNat ≠ p'.toNat := fun heq => h (UInt32.toNat_inj.mp heq)
  unfold vsSearchResultAt
  rcases Nat.lt_or_gt_of_ne hne with hlt | hgt
  · exact .inr (by rw [← Nat.succ_mul]; exact Nat.mul_le_mul_right _ hlt)
  · exact .inl (by rw [← Nat.succ_mul]; exact Nat.mul_le_mul_right _ hgt)

/-- What happens in one result slot is not seen in another. -/
theorem Box.of_within (hb : Box m p' b) (h : p ≠ p')
    (hm : Within m m' (vsSearchResultAt p) (vsSearchResultAt p + searchResultStride)) :
    Box m' p' b := by
  obtain ⟨hid, hdist, hfields⟩ := @arrays_in_slot _ (vsSearchResultAt p') hb.le
  have hsame : ∀ a, vsSearchResultAt p' ≤ a → a < vsSearchResultAt p' + searchResultStride →
      m' a = m a := fun a hlo hhi => hm a ((vsSearchResultAt_apart h).imp (by omega) (by omega))
  have hdata : VectorSearchResultData.codec.peek m' (vsSearchResultAt p') =
      VectorSearchResultData.codec.peek m (vsSearchResultAt p') :=
    VectorSearchResultData.codec.peek_congr fun a hlo hhi =>
      hsame a hlo (by rw [size_resultData] at hhi; omega)
  refine ⟨hdata ▸ hb.status, hdata ▸ hb.resultCount, hdata ▸ hb.maintStatus,
    hdata ▸ hb.maintDone, hb.le, ?_⟩
  rw [readPairs_congr (by omega) (by omega) hsame, hb.pairs]

section SetResult

variable {f : VectorSearchResultData → VectorSearchResultData}

theorem within_setResult :
    Within m (setResult m p f) (vsSearchResultAt p) (vsSearchResultAt p + searchResultStride) :=
  VectorSearchResultData.codec.within_poke.mono le_rfl
    (Nat.add_le_add_left (by rw [size_resultData, searchResultStride_eq]; omega) _)

theorem peek_setResult :
    VectorSearchResultData.codec.peek (setResult m p f) (vsSearchResultAt p) =
      f (VectorSearchResultData.codec.peek m (vsSearchResultAt p)) :=
  peek_poke _

/-- The fields of a slot may change without its pairs. -/
theorem Box.setResult (hb : Box m p b) (b' : Mailbox)
    (hf : ∀ r : VectorSearchResultData, r.status = b.status → r.maintStatus = b.maintStatus →
      r.maintDone = b.maintDone → (f r).status = b'.status ∧ (f r).resultCount = r.resultCount ∧
        (f r).maintStatus = b'.maintStatus ∧ (f r).maintDone = b'.maintDone)
    (hpairs : b'.pairs = b.pairs) : Box (setResult m p f) p b' := by
  obtain ⟨hid, hdist, hfields⟩ := @arrays_in_slot _ (vsSearchResultAt p) hb.le
  obtain ⟨hstatus, hcount, hmaint, hdone⟩ := hf _ hb.status hb.maintStatus hb.maintDone
  refine ⟨(congrArg _ peek_setResult).trans hstatus, ?_, (congrArg _ peek_setResult).trans hmaint,
    (congrArg _ peek_setResult).trans hdone, hpairs ▸ hb.le, ?_⟩
  · rw [peek_setResult, hcount, hb.resultCount, hpairs]
  · have hsame : ∀ a, vsSearchResultAt p + 24 ≤ a → a < vsSearchResultAt p + searchResultStride →
        RingBuffer.setResult m p f a = m a := fun a hlo _ =>
      VectorSearchResultData.codec.within_poke a (.inr (by rwa [size_resultData]))
    rw [hpairs, readPairs_congr (by omega) (by omega) hsame, hb.pairs]

end SetResult

theorem toNat_ofNat_length (h : pairs.length < 2 ^ 32) :
    (UInt32.ofNat pairs.length).toNat = pairs.length := by
  rw [UInt32.toNat_ofNat']
  exact Nat.mod_eq_of_lt h

/-- The count that is written is the count that the addresses are computed with. -/
theorem writeResult_eq (h : pairs.length < 2 ^ 32) :
    writeResult m p pairs =
      setResult (writePairs
          (setResult m p fun r => { r with resultCount := .ofNat pairs.length })
          (vsSearchResultDistAt (vsSearchResultAt p) pairs.length)
          (vsSearchResultIdAt (vsSearchResultAt p)) pairs)
        p fun r => { r with status := 1 } := by
  rw [writeResult]
  simp only [peek_setResult, toNat_ofNat_length h]

theorem within_writeResult (h : pairs.length ≤ maxTopk) :
    Within m (writeResult m p pairs) (vsSearchResultAt p)
      (vsSearchResultAt p + searchResultStride) := by
  obtain ⟨hid, hdist, hfields⟩ := @arrays_in_slot _ (vsSearchResultAt p) h
  rw [writeResult_eq (h.trans_lt (by decide))]
  exact (within_setResult.trans ((within_writePairs hid).mono (by omega) hdist)).trans
    within_setResult

/-- A slot holds the result that was written to it, and its other fields. -/
theorem Box.writeResult (hb : Box m p b) (h : pairs.length ≤ maxTopk) :
    Box (writeResult m p pairs) p { b with pairs := pairs, status := 1 } := by
  obtain ⟨hid, hdist, hfields⟩ := @arrays_in_slot _ (vsSearchResultAt p) h
  -- the arrays leave the fields alone
  have hdata : VectorSearchResultData.codec.peek (writePairs
      (RingBuffer.setResult m p fun r => { r with resultCount := .ofNat pairs.length })
      (vsSearchResultDistAt (vsSearchResultAt p) pairs.length)
      (vsSearchResultIdAt (vsSearchResultAt p)) pairs) (vsSearchResultAt p) =
      { VectorSearchResultData.codec.peek m (vsSearchResultAt p) with
        resultCount := .ofNat pairs.length } := by
    rw [VectorSearchResultData.codec.peek_of_within (within_writePairs hid) (.inl hfields),
      peek_setResult]
  have hwritten : Box (writePairs
      (RingBuffer.setResult m p fun r => { r with resultCount := .ofNat pairs.length })
      (vsSearchResultDistAt (vsSearchResultAt p) pairs.length)
      (vsSearchResultIdAt (vsSearchResultAt p)) pairs) p { b with pairs := pairs } := by
    refine ⟨?_, ?_, ?_, ?_, h, readPairs_writePairs hid⟩ <;> rw [hdata]
    · exact hb.status
    · exact toNat_ofNat_length (h.trans_lt (by decide))
    · exact hb.maintStatus
    · exact hb.maintDone
  rw [writeResult_eq (h.trans_lt (by decide))]
  exact hwritten.setResult _ (fun r _ hmaint hdone => ⟨rfl, rfl, hmaint, hdone⟩) rfl

theorem getResult_eq (hb : Box m p b) :
    getResult m p = if b.status = 1 then some b.pairs else none := by
  simp only [getResult, hb.status, hb.resultCount, hb.pairs]

theorem getMaintDone_eq (hb : Box m p b) :
    getMaintDone m p = if b.maintDone ≠ 0 then some b.maintStatus else none := by
  simp only [getMaintDone, hb.maintDone, hb.maintStatus]

/-- One mailbox changes with its slot. -/
theorem boxes_update {mailbox : UInt32 → Mailbox} (h : ∀ p, Box m p (mailbox p))
    (hm : Within m m' (vsSearchResultAt p) (vsSearchResultAt p + searchResultStride))
    (hb : Box m' p b) : ∀ p', Box m' p' (Function.update mailbox p b p') := by
  intro p'
  rcases eq_or_ne p' p with rfl | hne
  · rwa [Function.update_self]
  · rw [Function.update_of_ne hne]
    exact (h p').of_within hne.symm hm

/-! ## Runs -/

/-- The memory stands for a queue and mailboxes. -/
structure Refines (cfg : Config) (s : Shmem) (a : Mail) : Prop where
  queue : Ring.Holds taskSlots cfg.ringSize s.tasks s.head s.tail s.count a.queue
  boxes : ∀ p, Box s.results p (a.mailbox p)

variable {s : Shmem} {a : Mail}

theorem refines_init : Refines cfg .init .init where
  queue := Ring.holds_nil (Nat.zero_lt_two.trans_le cfg.two_le)
  boxes _ := ⟨rfl, rfl, rfl, rfl, Nat.zero_le _, rfl⟩

/-- A task goes to the slot at the tail, when the ring has room. -/
theorem Refines.enqueue (h : Refines cfg s a) (t : Task) (ht : t.dim ≤ maxDim)
    (hroom : s.count ≠ cfg.ringSize) {results : ℕ → UInt8} {mailbox : UInt32 → Mailbox}
    (hb : ∀ p, Box results p (mailbox p)) :
    Refines cfg
      { (s.getRingBufferSlot cfg).2 with tasks := s.tasks.write s.tail t, results := results }
      ⟨a.queue ++ [t], mailbox⟩ :=
  ⟨h.queue.enqueue ht hroom, hb⟩

/-- Only result slots change. -/
theorem Refines.results (h : Refines cfg s a) {results : ℕ → UInt8}
    {mailbox : UInt32 → Mailbox} (hb : ∀ p, Box results p (mailbox p)) :
    Refines cfg { s with results := results } ⟨a.queue, mailbox⟩ :=
  ⟨h.queue, hb⟩

/-- The bytes do what the queue and the mailboxes do, and answer what they answer. -/
theorem Refines.step (h : Refines cfg s a) {act : Action} (hact : act.AtMost maxDim maxTopk) :
    (s.step cfg act).1 = (a.step cfg act).1 ∧
      Refines cfg (s.step cfg act).2 (a.step cfg act).2 := by
  cases act with
  | send p query =>
      have hboxes := boxes_update h.boxes within_setResult
        ((h.boxes p).setResult { a.mailbox p with status := 0 }
          (f := fun r => { r with status := 0 })
          (fun r _ hmaint hdone => ⟨rfl, rfl, hmaint, hdone⟩) rfl)
      simp only [Shmem.step, Shmem.vectorSearchSend, Mail.step, Mail.enqueue, ← h.queue.full_iff]
      split
      · exact ⟨rfl, h⟩
      next hroom => exact ⟨rfl, h.enqueue (.search p query) hact hroom hboxes⟩
  | submit p type dsmSize handle =>
      have hboxes := boxes_update h.boxes within_setResult
        ((h.boxes p).setResult
          { a.mailbox p with
            maintStatus := if type = .segmentUpdate then 0 else (a.mailbox p).maintStatus
            maintDone := 0 }
          (f := fun r => { r with
            maintStatus := if type = .segmentUpdate then 0 else r.maintStatus, maintDone := 0 })
          (fun r hstatus hmaint _ => ⟨hstatus, rfl, by rw [hmaint], rfl⟩) rfl)
      simp only [Shmem.step, Shmem.submitMaintenance, Shmem.getRingBufferSlot, Mail.step,
        Mail.enqueue, Mail.modify, ← h.queue.full_iff]
      split
      · exact ⟨rfl, h.results hboxes⟩
      next hroom =>
        exact ⟨rfl, h.enqueue (.maintenance type dsmSize handle) (Nat.zero_le _) hroom hboxes⟩
  | turn =>
      obtain ⟨hqueue, hboxes⟩ := h
      obtain ⟨queue, mailbox⟩ := a
      simp only [Shmem.step, Shmem.workerTurn, Mail.step, hqueue.empty_iff]
      cases queue with
      | nil => exact ⟨rfl, hqueue, hboxes⟩
      | cons t queue =>
          exact ⟨congrArg Answer.handled hqueue.front, hqueue.dequeue, hboxes⟩
  | writeResult p pairs =>
      have hfit : pairs.length ≤ maxTopk := hact
      have hboxes := boxes_update h.boxes (within_writeResult hfit)
        ((h.boxes p).writeResult hfit)
      exact ⟨rfl, h.results hboxes⟩
  | getResult p => exact ⟨congrArg Answer.result (getResult_eq (h.boxes p)), h⟩
  | setMaintDone p status =>
      have hboxes := boxes_update h.boxes within_setResult
        ((h.boxes p).setResult
          { a.mailbox p with
            maintStatus := status.getD (a.mailbox p).maintStatus, maintDone := 1 }
          (f := fun r => { r with maintStatus := status.getD r.maintStatus, maintDone := 1 })
          (fun r hstatus hmaint _ => ⟨hstatus, rfl, congrArg status.getD hmaint, rfl⟩) rfl)
      exact ⟨rfl, h.results hboxes⟩
  | getMaintDone p => exact ⟨congrArg Answer.maintStatus (getMaintDone_eq (h.boxes p)), h⟩

theorem Refines.answers (h : Refines cfg s a) {as : List Action}
    (has : ∀ act ∈ as, act.AtMost maxDim maxTopk) :
    Shmem.answers cfg s as = Mail.answers cfg a as := by
  induction as generalizing s a with
  | nil => rfl
  | cons act as ih =>
      obtain ⟨hanswer, hnext⟩ := h.step (has act List.mem_cons_self)
      rw [Shmem.answers, Mail.answers, hanswer,
        ih hnext fun act hact => has act (List.mem_cons_of_mem _ hact)]

/-! ## What does not fit -/

theorem getElem?_readPairs {k : ℕ} (h : k < n) :
    (readPairs m dist id n)[k]?.map DistancePair.distance =
      some (uint32.peek m (dist + 4 * k)) := by
  induction k generalizing dist id n with
  | zero =>
      obtain ⟨n, rfl⟩ := Nat.exists_eq_succ_of_ne_zero h.ne'
      rfl
  | succ k ih =>
      obtain ⟨n, rfl⟩ := Nat.exists_eq_succ_of_ne_zero (Nat.ne_zero_of_lt h)
      rw [Nat.succ_eq_add_one, readPairs_succ, List.getElem?_cons_succ,
        ih (Nat.lt_of_succ_lt_succ h), Nat.mul_succ, Nat.add_assoc, Nat.add_comm 4]

theorem peek_writePairs {k : ℕ} (h : id + 8 * pairs.length ≤ dist) (hk : k < pairs.length) :
    pairs[k]?.map DistancePair.distance =
      some (uint32.peek (writePairs m dist id pairs) (dist + 4 * k)) := by
  rw [← getElem?_readPairs hk, readPairs_writePairs h]

theorem peekAll_of_handleTask {tasks : TaskMemory} {slot : ℕ} {query : Query}
    (h : tasks.handleTask slot = some (.search p query)) :
    ∃ n, uint32.peekAll tasks.searchTasks (vsSearchTaskVectorAt slot) n = query.vector := by
  rw [TaskMemory.handleTask] at h
  dsimp only at h
  split at h
  · simp only [Option.some.injEq, Task.search.injEq, Query.ext_iff] at h
    exact ⟨_, h.2.2.1⟩
  · obtain ⟨type, hof, htask⟩ := Option.map_eq_some_iff.mp h
    cases htask

/-- The data of the next task lies over the end of a query that is too long. -/
theorem getElem?_of_handleTask {tasks : TaskMemory} {query query' : Query}
    (h : ((tasks.writeSearch 0 p query).writeSearch 1 p' query').handleTask 0 =
      some (.search p query))
    (hlong : maxDim < query.vector.length) (hempty : query'.vector = []) :
    query.vector[maxDim]? = some p' := by
  obtain ⟨tasks', htasks'⟩ : ∃ t, t = (tasks.writeSearch 0 p query).writeSearch 1 p' query' :=
    ⟨_, rfl⟩
  rw [← htasks'] at h
  obtain ⟨n, hn⟩ := peekAll_of_handleTask h
  have hlen : n = query.vector.length := by rw [← hn, length_peekAll]
  have hfirst : uint32.peek tasks'.searchTasks (vsSearchTaskAt 1) = p' := by
    have hdata : (VectorSearchTaskData.codec.peek tasks'.searchTasks
        (vsSearchTaskAt 1)).backendPgprocno = p' := by
      rw [htasks', TaskMemory.writeSearch, hempty]
      exact congrArg VectorSearchTaskData.backendPgprocno (peek_poke _)
    exact (uint32.peek_prod_fst _).symm.trans hdata
  have haddr : vsSearchTaskVectorAt 0 + maxDim * uint32.size = vsSearchTaskAt 1 := rfl
  rw [← hn, uint32.getElem?_peekAll (hlen ▸ hlong), haddr, hfirst]

/-- The last distances of a result that is too long lie over the status of the next slot. -/
theorem getResult_of_long (hlen : pairs.length = maxTopk + 1)
    (hone : ∀ x ∈ pairs, x.distance = 1) : getResult (writeResult m 0 pairs) 1 ≠ none := by
  have hlt : pairs.length < 2 ^ 32 := hlen ▸ by decide
  have hid : vsSearchResultIdAt (vsSearchResultAt 0) + 8 * pairs.length ≤
      vsSearchResultDistAt (vsSearchResultAt 0) pairs.length := by
    rw [vsSearchResultIdAt_eq, vsSearchResultDistAt_eq]
    omega
  have hstatus : uint32.peek (writeResult m 0 pairs) (vsSearchResultAt 1) = 1 := by
    rw [writeResult_eq hlt, setResult,
      uint32.peek_of_within VectorSearchResultData.codec.within_poke (.inr (by decide))]
    have haddr : vsSearchResultAt 1 =
        vsSearchResultDistAt (vsSearchResultAt 0) pairs.length + 4 * 998 := by
      rw [hlen]
      rfl
    have hlast : 998 < pairs.length := by
      rw [hlen]
      decide
    obtain ⟨x, hx, hdist⟩ := Option.map_eq_some_iff.mp (peek_writePairs
      (m := setResult m 0 fun r => { r with resultCount := .ofNat pairs.length }) hid hlast)
    rw [haddr, ← hdist]
    exact hone x (List.mem_of_getElem? hx)
  have hdata : (VectorSearchResultData.codec.peek (writeResult m 0 pairs)
      (vsSearchResultAt 1)).status = 1 := (uint32.peek_prod_fst _).trans hstatus
  rw [getResult]
  simp [hdata]

/-- A query of zeros. -/
def zeroQuery (dim : ℕ) : Query where
  indexRelid := 0
  vector := List.replicate dim 0
  topk := 0
  efsNprobe := 0
  snapshot := ⟨0, 0, fun _ => 0, 0, fun _ => 0⟩

/-- Two searches and a turn of the worker, the first query too long. -/
theorem dim_le_of_answers
    (h : ∀ as : List Action, (∀ act ∈ as, act.AtMost dim topk) →
      Shmem.answers cfg .init as = Mail.answers cfg .init as) : dim ≤ maxDim := by
  by_contra hdim
  have hring : cfg.ringSize = cfg.maxBackends := rfl
  have htwo := cfg.two_le
  obtain ⟨query, hquery⟩ : ∃ query, query = zeroQuery (maxDim + 1) := ⟨_, rfl⟩
  have hlen : query.vector.length = maxDim + 1 := by rw [hquery]; exact List.length_replicate
  have hrun := h [.send 0 query, .send 1 (zeroQuery 0), .turn] fun act hact => by
    simp only [List.mem_cons, List.not_mem_nil, or_false] at hact
    rcases hact with rfl | rfl | rfl
    · change query.vector.length ≤ dim
      omega
    · exact Nat.zero_le _
    · trivial
  have hone : 1 ≠ cfg.ringSize := by omega
  have hzero : 0 ≠ cfg.ringSize := by omega
  have hslot : 1 % cfg.ringSize = 1 := Nat.mod_eq_of_lt (by omega)
  simp only [Shmem.answers, Shmem.step, Shmem.vectorSearchSend, Shmem.workerTurn, Shmem.init,
    Shmem.getRingBufferSlot, Mail.answers, Mail.step, Mail.enqueue, Mail.modify, Mail.init,
    List.length_nil, List.nil_append, List.length_singleton, List.singleton_append, hzero,
    hone, hslot, Nat.zero_add, Nat.reduceAdd, OfNat.ofNat_ne_zero, if_false,
    List.cons.injEq, true_and, and_true, Answer.handled.injEq] at hrun
  have hlast := getElem?_of_handleTask hrun (by omega) rfl
  have hzeros : query.vector[maxDim]? = some 0 := by
    rw [hquery]
    exact List.getElem?_replicate_of_lt (Nat.lt_succ_self maxDim)
  rw [hzeros] at hlast
  exact absurd (Option.some.inj hlast) (by decide)

/-- A result that is too long, and a look at the next slot. -/
theorem topk_le_of_answers
    (h : ∀ as : List Action, (∀ act ∈ as, act.AtMost dim topk) →
      Shmem.answers cfg .init as = Mail.answers cfg .init as) : topk ≤ maxTopk := by
  by_contra htopk
  obtain ⟨pairs, hpairs⟩ : ∃ pairs, pairs = List.replicate (maxTopk + 1) (⟨1, 0⟩ : DistancePair) :=
    ⟨_, rfl⟩
  have hlen : pairs.length = maxTopk + 1 := by rw [hpairs, List.length_replicate]
  have hrun := h [.writeResult 0 pairs, .getResult 1] fun act hact => by
    simp only [List.mem_cons, List.not_mem_nil, or_false] at hact
    rcases hact with rfl | rfl
    · change pairs.length ≤ topk
      omega
    · trivial
  simp only [Shmem.answers, Shmem.step, Mail.answers, Mail.step, List.cons.injEq, true_and,
    and_true, Answer.result.injEq] at hrun
  refine getResult_of_long hlen (fun x hx => ?_) hrun
  rw [hpairs] at hx
  rw [List.eq_of_mem_replicate hx]

/-- The answers are those of a queue and mailboxes in every run exactly if neither queries nor
results are longer than their slots allow. -/
theorem answers_eq_iff (cfg : Config) (dim topk : ℕ) :
    (∀ as : List Action, (∀ act ∈ as, act.AtMost dim topk) →
      Shmem.answers cfg .init as = Mail.answers cfg .init as) ↔
      dim ≤ maxDim ∧ topk ≤ maxTopk := by
  constructor
  · intro h
    exact ⟨dim_le_of_answers h, topk_le_of_answers h⟩
  · rintro ⟨hdim, htopk⟩ as has
    refine refines_init.answers fun act hact => ?_
    have hfits := has act hact
    cases act with
    | send p query => exact hfits.trans hdim
    | writeResult p pairs => exact hfits.trans htopk
    | _ => trivial

end VectorLsm.RingBuffer
