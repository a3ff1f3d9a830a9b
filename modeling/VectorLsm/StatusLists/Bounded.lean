import VectorLsm.StatusLists.Machine

/-! # The length of the chains

The tids on a chain, the inserts on their way to it and the slots its memtable has left add up to
at most the capacity. A recovery that drops rows gives slots back, and the chain keeps the tids.
-/

namespace VectorLsm.StatusLists

open Recovery (LSMIndex Growing Rotation recoverLsmIndexInternal recover_spec rebuilt)
open Layout (memtableMaxCapacity)
open Transition

/-- The slots a memtable can still give out. -/
def Memtable.left (m : Memtable) : ℕ := if m.isSealed then 0 else m.capacity - m.currentSize

/-- The inserts that have not come to the chain of `sid` yet. -/
def waiting (is : List Insert) (sid : SegmentId) : ℕ :=
  is.countP fun i => decide (i.sid = sid) && !i.added

/-- The tids the chain of `sid` may still get. -/
def State.room (s : State) (sid : SegmentId) : ℕ :=
  (s.mt sid).elim 0 Memtable.left + waiting s.inserts sid

/-- Pages that no recovery reads past its array. -/
structure StatusPages.Ok (p : StatusPages) : Prop where
  short : ∀ e ∈ p.memtables, e.2.length ≤ memtableMaxCapacity
  nodup : p.sids.Nodup
  le : ∀ e ∈ p.memtables, e.1 ≤ p.maxMemtableSid

/-- The new memtable of a rotation is not listed yet. -/
def Unlisted (s : State) (l : LSMIndex) (sid : SegmentId) : Prop :=
  l.nextSegmentId = sid + 1 ∧ sid ∉ s.pages.sids

/-- An index in use. -/
structure Live (s : State) (l : LSMIndex) : Prop where
  capacity : s.memtableCapacity ≤ memtableMaxCapacity
  chains : ∀ e ∈ s.pages.memtables, e.2.length + s.room e.1 ≤ memtableMaxCapacity
  room_le : ∀ sid, s.room sid ≤ memtableMaxCapacity
  listed : ∀ e ∈ s.pages.memtables, e.1 < l.nextSegmentId
  unused : ∀ sid, l.nextSegmentId ≤ sid → s.room sid = 0
  allocated : ∀ cur sid, l.growing = .rotating cur (.allocated sid) → Unlisted s l sid
  maxLogged : ∀ cur sid, l.growing = .rotating cur (.maxLogged sid) →
    Unlisted s l sid ∧ s.pages.maxMemtableSid = sid

structure Inv (s : State) : Prop where
  views : ∀ p ∈ s.pages :: s.earlier, p.Ok
  live : ∀ l ∈ s.index, Live s l
  down : s.index = none → s.inserts = []

section Pages

variable {p : StatusPages} {sid : SegmentId} {tid : Tid} {f : List Tid → List Tid}
  {es : List (SegmentId × List Tid)} {e : SegmentId × List Tid} {r : Record}

@[simp] theorem modifyChain_sids : (modifyChain sid f es).map (·.1) = es.map (·.1) := by
  induction es with
  | nil => rfl
  | cons e es ih =>
      unfold modifyChain
      split
      case isTrue => rfl
      case isFalse => rw [List.map_cons, List.map_cons, ih]

theorem mem_modifyChain (h : e ∈ modifyChain sid f es) :
    e ∈ es ∨ ∃ tids, (sid, tids) ∈ es ∧ e = (sid, f tids) := by
  induction es with
  | nil => cases h
  | cons e' es ih =>
      unfold modifyChain at h
      split at h
      case isTrue he =>
        rcases List.mem_cons.mp h with rfl | h
        · exact .inr ⟨e'.2, he ▸ List.mem_cons_self, he ▸ rfl⟩
        · exact .inl (List.mem_cons_of_mem _ h)
      case isFalse he =>
        rcases List.mem_cons.mp h with rfl | h
        · exact .inl List.mem_cons_self
        · exact (ih h).imp (List.mem_cons_of_mem _) fun ⟨tids, hmem, heq⟩ =>
            ⟨tids, List.mem_cons_of_mem _ hmem, heq⟩

theorem find?_of_mem (h : (es.map (·.1)).Nodup) (he : e ∈ es) :
    es.find? (fun x => x.1 = e.1) = some e := by
  induction es with
  | nil => cases he
  | cons x es ih =>
      rw [List.map_cons, List.nodup_cons] at h
      rcases List.mem_cons.mp he with rfl | he
      · exact List.find?_cons_of_pos (by simp)
      · have hne : ¬ x.1 = e.1 := fun hx => h.1 (hx ▸ List.mem_map_of_mem he)
        rw [List.find?_cons_of_neg (by simpa using hne), ih h.2 he]

/-- With distinct ids, the chain of a listed memtable is the one that is found. -/
theorem getStatusMemtableTids_of_mem (h : p.sids.Nodup) (he : e ∈ p.memtables) :
    p.getStatusMemtableTids e.1 = some e.2 := by
  rw [StatusPages.getStatusMemtableTids, find?_of_mem h he, Option.map_some]

theorem mem_of_getStatusMemtableTids {tids : List Tid}
    (h : p.getStatusMemtableTids sid = some tids) : (sid, tids) ∈ p.memtables := by
  obtain ⟨e, he, rfl⟩ := Option.map_eq_some_iff.mp h
  have hsid : e.1 = sid := by simpa using List.find?_some he
  exact hsid ▸ List.mem_of_find?_eq_some he

theorem getStatusMemtableTids_eq_none (h : sid ∉ p.sids) : p.getStatusMemtableTids sid = none := by
  rw [StatusPages.getStatusMemtableTids, Option.map_eq_none_iff, List.find?_eq_none]
  intro e he hsid
  exact h (List.mem_map.mpr ⟨e, he, by simpa using hsid⟩)

namespace StatusPages.Ok

theorem updateMaxSid (h : p.Ok) (hle : ∀ e ∈ p.memtables, e.1 ≤ sid) :
    (p.redo (.updateMaxSid sid)).Ok := ⟨h.short, h.nodup, hle⟩

theorem registerMemtable (h : p.Ok) (hnew : sid ∉ p.sids) (hle : sid ≤ p.maxMemtableSid) :
    (p.redo (.registerMemtable sid)).Ok where
  short := by
    intro e he
    rcases List.mem_append.mp he with he | he
    · exact h.short e he
    · rw [List.mem_singleton.mp he]
      exact Nat.zero_le _
  nodup := by
    have hsids : (p.redo (.registerMemtable sid)).sids = p.sids ++ [sid] := by
      simp [redo, sids]
    rw [hsids, List.nodup_append]
    refine ⟨h.nodup, List.nodup_singleton sid, fun x hx y hy => ?_⟩
    rw [List.mem_singleton.mp hy]
    rintro rfl
    exact hnew hx
  le := by
    intro e he
    rcases List.mem_append.mp he with he | he
    · exact h.le e he
    · rw [List.mem_singleton.mp he]
      exact hle

theorem releaseMemtable (h : p.Ok) : (p.redo (.releaseMemtable sid)).Ok where
  short := fun e he => h.short e (List.mem_of_mem_eraseP he)
  nodup := h.nodup.sublist ((List.eraseP_sublist).map _)
  le := fun e he => h.le e (List.mem_of_mem_eraseP he)

theorem modify (h : p.Ok) (hf : ∀ tids, (sid, tids) ∈ p.memtables →
    (f tids).length ≤ memtableMaxCapacity) :
    Ok { p with memtables := modifyChain sid f p.memtables } where
  short := by
    intro e he
    rcases mem_modifyChain he with he | ⟨tids, hmem, rfl⟩
    · exact h.short e he
    · exact hf tids hmem
  nodup := by
    have hnodup := h.nodup
    unfold sids at hnodup ⊢
    rwa [modifyChain_sids]
  le := by
    intro e he
    rcases mem_modifyChain he with he | ⟨tids, hmem, rfl⟩
    · exact h.le e he
    · exact h.le (sid, tids) hmem

end StatusPages.Ok

end Pages

section Steps

variable {capByBytes n k : ℕ} {s s' : State} {l l' : LSMIndex} {sid : SegmentId} {tid : Tid}
  {m : Memtable} {i : Insert} {is is' : List Insert}

theorem waiting_mono (h : is'.Sublist is) : waiting is' sid ≤ waiting is sid := h.countP_le

theorem waiting_append : waiting (is ++ [⟨sid, tid, false⟩]) n =
    waiting is n + if sid = n then 1 else 0 := by
  simp [waiting, List.countP_append, List.countP_singleton]

/-- An insert that has come to the chain waits no more. -/
theorem waiting_set (h : is[k]? = some i) (hi : i.added = false) (sid : SegmentId) :
    waiting (is.set k { i with added := true }) sid + (if i.sid = sid then 1 else 0) =
      waiting is sid := by
  induction is generalizing k with
  | nil => cases h
  | cons x is ih =>
      cases k with
      | zero =>
          obtain rfl := Option.some.inj h
          simp only [waiting, List.set_cons_zero, List.countP_cons, hi]
          split <;> simp_all
      | succ k =>
          have hrec := ih h
          simp only [waiting, List.set_cons_succ, List.countP_cons] at hrec ⊢
          omega

/-- A change of the memtables or of the inserts that leaves no chain more room. -/
theorem Live.shrink (h : Live s l) (hpages : s'.pages = s.pages)
    (hcap : s'.memtableCapacity = s.memtableCapacity) (hroom : ∀ sid, s'.room sid ≤ s.room sid)
    (hnext : l'.nextSegmentId = l.nextSegmentId)
    (halloc : ∀ cur sid, l'.growing = .rotating cur (.allocated sid) → l'.growing = l.growing)
    (hmax : ∀ cur sid, l'.growing = .rotating cur (.maxLogged sid) → l'.growing = l.growing) :
    Live s' l' where
  capacity := hcap ▸ h.capacity
  chains := by
    intro e he
    rw [hpages] at he
    exact (Nat.add_le_add_left (hroom e.1) _).trans (h.chains e he)
  room_le := fun sid => (hroom sid).trans (h.room_le sid)
  listed := by
    intro e he
    rw [hpages] at he
    exact hnext ▸ h.listed e he
  unused := by
    intro sid hsid
    exact Nat.le_zero.mp ((hroom sid).trans (h.unused sid (hnext ▸ hsid)).le)
  allocated := by
    intro cur sid hg
    have := h.allocated cur sid ((halloc cur sid hg).symm.trans hg)
    exact ⟨hnext.trans this.1, hpages ▸ this.2⟩
  maxLogged := by
    intro cur sid hg
    obtain ⟨⟨hn, hnew⟩, hm⟩ := h.maxLogged cur sid ((hmax cur sid hg).symm.trans hg)
    exact ⟨⟨hnext.trans hn, hpages ▸ hnew⟩, by rw [hpages, hm]⟩

/-- The pages stay as they are. -/
theorem Inv.live_step (h : Inv s) (hpages : s'.pages = s.pages) (hearlier : s'.earlier = s.earlier)
    (hindex : s'.index = some l) (hl : Live s' l) : Inv s' where
  views := by
    rw [hpages, hearlier]
    exact h.views
  live := by
    intro l' hl'
    rw [hindex] at hl'
    obtain rfl := Option.some.inj hl'
    exact hl
  down := by
    intro hn
    rw [hindex] at hn
    cases hn

/-- A record is written. -/
theorem Inv.log_step (h : Inv s) {r : Record} (hpages : s'.pages = s.pages.redo r)
    (hearlier : s'.earlier = s.pages :: s.earlier) (hok : (s.pages.redo r).Ok)
    (hindex : s'.index = some l) (hl : Live s' l) : Inv s' where
  views := by
    rw [hpages, hearlier]
    exact List.forall_mem_cons.mpr ⟨hok, h.views⟩
  live := by
    intro l' hl'
    rw [hindex] at hl'
    obtain rfl := Option.some.inj hl'
    exact hl
  down := by
    intro hn
    rw [hindex] at hn
    cases hn

theorem Inv.ok (h : Inv s) : s.pages.Ok := h.views s.pages List.mem_cons_self

theorem room_update (s : State) (o : Option Memtable) (is : List Insert) (x : SegmentId) :
    ((s.setMt sid o).setInserts is).room x =
      (if x = sid then o.elim 0 Memtable.left else (s.mt x).elim 0 Memtable.left) +
        waiting is x := by
  rw [State.room, State.setInserts_mt, State.setInserts_inserts, State.setMt_mt,
    Function.update_apply]
  split <;> rfl

theorem Inv.reserve (h : Inv s) (hs : s.index = some l) (hm : s.mt sid = some m) :
    Inv (s.reserve sid tid m) := by
  unfold State.reserve
  split
  case isTrue => exact h
  case isFalse hopen =>
    have hleft : m.left = m.capacity - m.currentSize := if_neg hopen
    have hl := h.live l hs
    split
    case isTrue hlt =>
      refine h.live_step rfl rfl hs (hl.shrink rfl rfl (fun x => ?_) rfl (fun _ _ _ => rfl)
        fun _ _ _ => rfl)
      rw [room_update, State.room, waiting_append]
      by_cases hx : x = sid
      · subst hx
        rw [if_pos rfl, if_pos rfl, hm, Option.elim_some, Option.elim_some, hleft]
        simp only [Memtable.left, if_neg hopen]
        omega
      · rw [if_neg hx, if_neg (Ne.symm hx)]
        exact le_rfl
    case isFalse hge =>
      refine h.live_step rfl rfl hs (hl.shrink rfl rfl (fun x => ?_) rfl (fun _ _ _ => rfl)
        fun _ _ _ => rfl)
      rw [State.room, State.setMt_mt, Function.update_apply]
      split
      case isTrue hx => simp [Memtable.left, State.room]
      case isFalse => exact le_rfl

theorem Inv.add (h : Inv s) (hs : s.index = some l) (hk : s.inserts[k]? = some i)
    (hi : i.added = false) : Inv (s.addToStatusMemtable k i) := by
  have hl := h.live l hs
  unfold State.addToStatusMemtable
  split
  case h_1 =>
    refine h.live_step rfl rfl hs (hl.shrink rfl rfl (fun x => ?_) rfl (fun _ _ _ => rfl)
      fun _ _ _ => rfl)
    exact Nat.add_le_add_left (waiting_mono (List.eraseIdx_sublist ..)) _
  case h_2 =>
    -- the tid that comes to the chain is one that was waiting for it
    have hroom (x : SegmentId) : ((s.log (.add i.sid i.tid)).setInserts
        (s.inserts.set k { i with added := true })).room x + (if i.sid = x then 1 else 0) =
          s.room x := by
      rw [State.room, State.room, Nat.add_assoc, State.setInserts_inserts, waiting_set hk hi]
      rfl
    have hshort : ∀ tids, (i.sid, tids) ∈ s.pages.memtables →
        (tids ++ [i.tid]).length + ((s.log (.add i.sid i.tid)).setInserts
          (s.inserts.set k { i with added := true })).room i.sid ≤ memtableMaxCapacity := by
      intro tids htids
      have hchain : tids.length + s.room i.sid ≤ memtableMaxCapacity := hl.chains _ htids
      have hself := hroom i.sid
      rw [if_pos rfl] at hself
      rw [List.length_append, List.length_singleton]
      omega
    have hle (x : SegmentId) := Nat.le_of_add_right_le (hroom x).le
    have hsids : ((s.pages.redo (.add i.sid i.tid)).sids) = s.pages.sids := modifyChain_sids
    have hok : (s.pages.redo (.add i.sid i.tid)).Ok := h.ok.modify fun tids htids =>
      (Nat.le_add_right ..).trans (hshort tids htids)
    refine h.log_step (r := .add i.sid i.tid) rfl rfl hok hs ⟨hl.capacity, fun e he => ?_,
      fun x => (hle x).trans (hl.room_le x), fun e he => ?_,
      fun x hx => Nat.le_zero.mp ((hle x).trans (hl.unused x hx).le),
      fun cur sid hg => ?_, fun cur sid hg => ?_⟩
    · rcases mem_modifyChain he with he | ⟨tids, hmem, rfl⟩
      · exact (Nat.add_le_add_left (hle e.1) _).trans (hl.chains e he)
      · exact hshort tids hmem
    · rcases mem_modifyChain he with he | ⟨tids, hmem, rfl⟩
      · exact hl.listed e he
      · exact hl.listed (i.sid, tids) hmem
    · exact ⟨(hl.allocated cur sid hg).1, fun h => (hl.allocated cur sid hg).2 (hsids ▸ h)⟩
    · obtain ⟨⟨hn, hnew⟩, hmax⟩ := hl.maxLogged cur sid hg
      exact ⟨⟨hn, fun h => hnew (hsids ▸ h)⟩, hmax⟩

/-- An insert leaves the list, and the memtables give out no more slots than before. -/
theorem Inv.leave (h : Inv s) (hs : s.index = some l) {mt : SegmentId → Option Memtable}
    (hmt : ∀ sid, (mt sid).elim 0 Memtable.left = (s.mt sid).elim 0 Memtable.left) :
    Inv { s with mt := mt, inserts := s.inserts.eraseIdx k } :=
  h.live_step rfl rfl hs ((h.live l hs).shrink rfl rfl (fun x =>
    Nat.add_le_add (hmt x).le (waiting_mono (List.eraseIdx_sublist ..))) rfl (fun _ _ _ => rfl)
    fun _ _ _ => rfl)

theorem Inv.publish (h : Inv s) (hs : s.index = some l) : Inv (s.publish k i) := by
  refine h.leave hs fun x => ?_
  rw [State.setMt_mt, Function.update_apply]
  split
  case isTrue hx =>
    rw [hx]
    cases hm : s.mt i.sid with
    | none => rfl
    | some m => rfl
  case isFalse => rfl

/-- The chains a record leaves are no longer than before. -/
theorem Live.shorten (h : Live s l) {p : StatusPages} {es : List StatusPages}
    (hmem : ∀ e ∈ p.memtables, ∃ e' ∈ s.pages.memtables, e.1 = e'.1 ∧ e.2.length ≤ e'.2.length)
    (hmax : p.maxMemtableSid = s.pages.maxMemtableSid)
    (hnext : l'.nextSegmentId = l.nextSegmentId) (hgrow : l'.growing = l.growing) :
    Live { s with pages := p, earlier := es, index := some l' } l' := by
  have hsids : ∀ sid ∈ p.sids, sid ∈ s.pages.sids := by
    intro sid hsid
    obtain ⟨e, he, rfl⟩ := List.mem_map.mp hsid
    obtain ⟨e', he', heq, -⟩ := hmem e he
    exact List.mem_map.mpr ⟨e', he', heq.symm⟩
  refine ⟨h.capacity, fun e he => ?_, h.room_le, fun e he => ?_, hnext ▸ h.unused,
    fun cur sid hg => ?_, fun cur sid hg => ?_⟩
  · obtain ⟨e', he', heq, hlen⟩ := hmem e he
    rw [heq]
    exact (Nat.add_le_add_right hlen _).trans (h.chains e' he')
  · obtain ⟨e', he', heq, -⟩ := hmem e he
    rw [heq, hnext]
    exact h.listed e' he'
  · obtain ⟨hn, hnew⟩ := h.allocated cur sid (hgrow ▸ hg)
    exact ⟨hnext.trans hn, fun h => hnew (hsids sid h)⟩
  · obtain ⟨⟨hn, hnew⟩, hm⟩ := h.maxLogged cur sid (hgrow ▸ hg)
    exact ⟨⟨hnext.trans hn, fun h => hnew (hsids sid h)⟩, hmax.trans hm⟩

theorem Inv.release (h : Inv s) (hs : s.index = some l) (hr : s.release l = some s') : Inv s' := by
  unfold State.release at hr
  split at hr
  case h_1 => cases hr
  case h_2 sid sids _ =>
    obtain rfl := Option.some.inj hr
    refine h.log_step (r := .releaseMemtable sid) rfl rfl h.ok.releaseMemtable rfl
      ((h.live l hs).shorten (fun e he => ?_) rfl rfl rfl)
    exact ⟨e, List.mem_of_mem_eraseP he, rfl, le_rfl⟩

theorem Inv.vacuum (h : Inv s) (hs : s.index = some l) : Inv (s.log (.remove sid tid)) := by
  have hshort (tids : List Tid) : (tids.erase tid).length ≤ tids.length := List.length_erase_le
  have hok : (s.pages.redo (.remove sid tid)).Ok :=
    h.ok.modify fun tids htids => (hshort tids).trans (h.ok.short (sid, tids) htids)
  have hlive : Live { s with
      pages := s.pages.redo (.remove sid tid)
      earlier := s.pages :: s.earlier
      index := some l } l := by
    refine (h.live l hs).shorten (fun e he => ?_) rfl rfl rfl
    rcases mem_modifyChain he with he | ⟨tids, hmem, rfl⟩
    · exact ⟨e, he, rfl, le_rfl⟩
    · exact ⟨(sid, tids), hmem, rfl, hshort tids⟩
  rw [← hs] at hlive
  exact h.log_step (r := .remove sid tid) rfl rfl hok hs hlive

theorem Inv.flush (h : Inv s) (hs : s.index = some l) (hf : s.flush l = some s') : Inv s' := by
  unfold State.flush at hf
  split at hf
  case h_1 => cases hf
  case h_2 sid sids _ =>
    split at hf
    case h_1 => cases hf
    case h_2 m _ =>
      split at hf
      case isFalse => cases hf
      case isTrue =>
        obtain rfl := Option.some.inj hf
        refine h.live_step rfl rfl rfl ((h.live l hs).shrink rfl rfl (fun x => ?_) rfl
          (fun _ _ _ => rfl) fun _ _ _ => rfl)
        refine Nat.add_le_add_right ?_ _
        rw [State.setIndex_mt, State.setMt_mt, Function.update_apply]
        split
        case isTrue => exact Nat.zero_le _
        case isFalse => exact le_rfl

theorem Inv.rotate (h : Inv s) (hs : s.index = some l) (hr : s.rotate capByBytes l = some s') :
    Inv s' := by
  have hl := h.live l hs
  unfold State.rotate at hr
  split at hr
  case h_1 =>
    obtain rfl := Option.some.inj hr
    exact h.live_step rfl rfl rfl (hl.shrink rfl rfl (fun _ => le_rfl) rfl nofun nofun)
  case h_2 =>
    split at hr
    case isTrue =>
      obtain rfl := Option.some.inj hr
      exact h.live_step rfl rfl rfl (hl.shrink rfl rfl (fun _ => le_rfl) rfl nofun nofun)
    case isFalse => cases hr
  case h_3 cur hg =>
    obtain rfl := Option.some.inj hr
    have hzero := hl.unused l.nextSegmentId le_rfl
    have hroom (x : SegmentId) : ((s.setMt l.nextSegmentId
        (some ⟨s.capacity capByBytes, 0, 0, false⟩)).setInserts s.inserts).room x =
          if x = l.nextSegmentId then s.capacity capByBytes else s.room x := by
      rw [room_update]
      split
      case isTrue hx =>
        subst hx
        have hwait : waiting s.inserts l.nextSegmentId = 0 :=
          Nat.eq_zero_of_le_zero ((Nat.le_add_left ..).trans hzero.le)
        rw [hwait]
        rfl
      case isFalse => rfl
    have hcap : s.capacity capByBytes ≤ memtableMaxCapacity :=
      (Nat.min_le_right ..).trans hl.capacity
    have hnew : l.nextSegmentId ∉ s.pages.sids := by
      intro hmem
      obtain ⟨e, he, heq⟩ := List.mem_map.mp hmem
      exact absurd (hl.listed e he) (heq ▸ Nat.lt_irrefl _)
    refine h.live_step rfl rfl rfl ⟨hl.capacity, fun e he => ?_, fun x => ?_,
      fun e he => Nat.lt_succ_of_lt (hl.listed e he), fun x hx => ?_, fun cur sid hg => ?_, nofun⟩
    · have hne : e.1 ≠ l.nextSegmentId := Nat.ne_of_lt (hl.listed e he)
      exact ((congrArg _ ((hroom e.1).trans (if_neg hne))).le).trans (hl.chains e he)
    · refine (hroom x).le.trans ?_
      split
      case isTrue => exact hcap
      case isFalse => exact hl.room_le x
    · have hne : x ≠ l.nextSegmentId := Nat.ne_of_gt hx
      exact ((hroom x).trans (if_neg hne)).trans (hl.unused x (Nat.le_of_succ_le hx))
    · cases hg
      exact ⟨rfl, hnew⟩
  case h_4 cur sid hg =>
    obtain rfl := Option.some.inj hr
    obtain ⟨hn, hnew⟩ := hl.allocated cur sid hg
    have hle : ∀ e ∈ s.pages.memtables, e.1 ≤ sid := fun e he =>
      Nat.le_of_lt_add_one (hn ▸ hl.listed e he)
    refine h.log_step (r := .updateMaxSid sid) rfl rfl (h.ok.updateMaxSid hle) rfl
      ⟨hl.capacity, hl.chains, hl.room_le, hl.listed, hl.unused, nofun, fun cur x hg => ?_⟩
    cases hg
    exact ⟨⟨hn, hnew⟩, rfl⟩
  case h_5 cur sid hg =>
    obtain rfl := Option.some.inj hr
    obtain ⟨⟨hn, hnew⟩, hmax⟩ := hl.maxLogged cur sid hg
    refine h.log_step (r := .registerMemtable sid) rfl rfl (h.ok.registerMemtable hnew hmax.ge) rfl
      ⟨hl.capacity, fun e he => ?_, hl.room_le, fun e he => ?_, hl.unused, nofun, nofun⟩
    · rcases List.mem_append.mp he with he | he
      · exact hl.chains e he
      · rw [List.mem_singleton.mp he]
        exact (Nat.zero_add _).le.trans (hl.room_le sid)
    · rcases List.mem_append.mp he with he | he
      · exact hl.listed e he
      · rw [List.mem_singleton.mp he]
        exact hn ▸ Nat.lt_succ_self sid
  case h_6 =>
    split at hr
    case isTrue =>
      obtain rfl := Option.some.inj hr
      exact h.live_step rfl rfl rfl (hl.shrink rfl rfl (fun _ => le_rfl) rfl nofun nofun)
    case isFalse => cases hr
  case h_7 =>
    obtain rfl := Option.some.inj hr
    exact h.live_step rfl rfl rfl (hl.shrink rfl rfl (fun _ => le_rfl) rfl nofun nofun)

/-- The slots that the recovery leaves the memtable of a chain. -/
theorem left_construct {cap : ℕ} {fetch : Tid → Bool} {isSealed : Bool} {tids : List Tid} :
    (State.construct cap fetch isSealed tids).left =
      if isSealed then 0 else cap - (tids.filter fetch).length := rfl

/-- Only the growing memtable is given slots back. -/
theorem left_constructAll {cap : ℕ} {fetch : Tid → Bool} {last : SegmentFileInfo}
    (hpos : 0 < (s.constructAll cap fetch last sid).elim 0 Memtable.left) :
    last.endSid < sid ∧ sid = s.pages.maxMemtableSid ∧
      ∃ tids, s.pages.getStatusMemtableTids sid = some tids ∧
        (s.constructAll cap fetch last sid).elim 0 Memtable.left =
          cap - (tids.filter fetch).length := by
  unfold State.constructAll at hpos ⊢
  split at hpos
  case isFalse => exact absurd hpos (Nat.lt_irrefl 0)
  case isTrue hlt =>
    cases htids : s.pages.getStatusMemtableTids sid with
    | none =>
        rw [htids] at hpos
        exact absurd hpos (Nat.lt_irrefl 0)
    | some tids =>
        rw [htids, Option.map_some, Option.elim_some, left_construct] at hpos
        by_cases hmax : sid = s.pages.maxMemtableSid
        · refine ⟨hlt, hmax, tids, rfl, ?_⟩
          rw [if_pos hlt, Option.map_some, Option.elim_some, left_construct]
          simp [hmax]
        · simp [hmax] at hpos

theorem lt_nextSegmentId {last top : SegmentId} {st : Recovery.StatusPages}
    (htop : top ≤ st.maxMemtableSid) : top < (rebuilt st last top).nextSegmentId := by
  unfold rebuilt
  dsimp only
  split
  case isTrue => exact Nat.lt_succ_of_le htop
  case isFalse => exact Nat.lt_succ_self top

theorem Inv.recover {fetch : Tid → Bool} {cap : ℕ} (h : Inv s) (hdown : s.index = none)
    (hcap : cap ≤ memtableMaxCapacity) (hmet : Met capByBytes s (.recover fetch cap))
    (hr : s.recover capByBytes fetch cap = some s') : Inv s' := by
  unfold State.recover at hr
  dsimp only at hr
  split at hr
  case h_2 => cases hr
  case h_1 last l hlast hrec =>
    obtain rfl := Option.some.inj hr
    obtain ⟨f, hf, top, htop, hle, rfl⟩ := recover_spec hrec
    obtain rfl := Option.some.inj (hf.symm.trans hlast)
    have hroom (x : SegmentId) : State.room { s with
          memtableCapacity := cap
          index := some (rebuilt s.pages.array f.endSid top)
          mt := s.constructAll (min capByBytes cap) fetch f } x =
        (s.constructAll (min capByBytes cap) fetch f x).elim 0 Memtable.left := by
      rw [State.room, h.down hdown]
      rfl
    have hmem : ∀ sid ∈ s.pages.sids, sid < (rebuilt s.pages.array f.endSid top).nextSegmentId := by
      intro sid hsid
      obtain ⟨e, he, rfl⟩ := List.mem_map.mp htop
      exact (hle sid hsid).trans_lt (lt_nextSegmentId (h.ok.le e he))
    have hgrow (cur : Option SegmentId) (pc : Rotation) :
        (rebuilt s.pages.array f.endSid top).growing ≠ .rotating cur pc := by
      unfold rebuilt
      dsimp only
      split <;> nofun
    refine h.live_step rfl rfl rfl ⟨hcap, fun e he => ?_, fun x => ?_, fun e he => ?_,
      fun x hx => ?_, fun cur sid hg => absurd hg (hgrow cur _),
      fun cur sid hg => absurd hg (hgrow cur _)⟩
    · rw [hroom]
      rcases Nat.eq_zero_or_pos ((s.constructAll (min capByBytes cap) fetch f e.1).elim 0
        Memtable.left) with hzero | hpos
      · rw [hzero]
        exact h.ok.short e he
      obtain ⟨hlt, hmax, tids, htids, hleft⟩ := left_constructAll hpos
      rw [hleft]
      obtain rfl := Option.some.inj
        ((getStatusMemtableTids_of_mem h.ok.nodup he).symm.trans htids)
      refine hmet e.2 (hmax ▸ htids) fun last hlast' => ?_
      obtain rfl := Option.some.inj (hlast'.symm.trans hlast)
      exact hmax ▸ hlt
    · rw [hroom]
      rcases Nat.eq_zero_or_pos ((s.constructAll (min capByBytes cap) fetch f x).elim 0
        Memtable.left) with hzero | hpos
      · exact hzero.le.trans (Nat.zero_le _)
      obtain ⟨-, -, tids, -, hleft⟩ := left_constructAll hpos
      rw [hleft]
      exact (Nat.sub_le ..).trans ((Nat.min_le_right ..).trans hcap)
    · exact hmem e.1 (List.mem_map_of_mem he)
    · rw [hroom]
      by_contra hne
      obtain ⟨-, -, tids, htids, -⟩ := left_constructAll (Nat.pos_of_ne_zero hne)
      have hin := List.mem_map_of_mem (f := (·.1)) (mem_of_getStatusMemtableTids htids)
      exact absurd (hmem x hin) (Nat.not_lt.mpr hx)

theorem Inv.crash {p : StatusPages} (h : Inv s) (hp : (s.pages :: s.earlier)[k]? = some p) :
    Inv { s with
      pages := p, earlier := [], index := none, mt := fun _ => none, inserts := [] } where
  views := by
    intro q hq
    rw [List.mem_singleton.mp hq]
    exact h.views p (List.mem_of_getElem? hp)
  live := nofun
  down := fun _ => rfl

theorem Inv.index_of_insert (h : Inv s) (hk : s.inserts[k]? = some i) : ∃ l, s.index = some l := by
  cases hs : s.index with
  | none =>
      rw [h.down hs] at hk
      cases hk
  | some l => exact ⟨l, rfl⟩

theorem Inv.fail (h : Inv s) (k : ℕ) : Inv (s.setInserts (s.inserts.eraseIdx k)) := by
  cases hs : s.index with
  | none =>
      refine ⟨h.views, fun l hl => ?_, fun _ => by rw [State.setInserts_inserts, h.down hs]; rfl⟩
      rw [State.setInserts_index, hs] at hl
      cases hl
  | some l => exact h.leave hs fun _ => rfl

theorem Inv.writeFile (h : Inv s) (i : SegmentFileInfo) : Inv (s.addFile i) where
  views := h.views
  live := fun l hl => (h.live l hl).shrink rfl rfl (fun _ => le_rfl) rfl (fun _ _ _ => rfl)
    fun _ _ _ => rfl
  down := h.down

theorem Inv.flushWal (h : Inv s) (n : ℕ) : Inv { s with earlier := s.earlier.take n } where
  views := by
    intro p hp
    rcases List.mem_cons.mp hp with rfl | hp
    · exact h.ok
    · exact h.views p (List.mem_cons_of_mem _ (List.mem_of_mem_take hp))
  live := fun l hl => (h.live l hl).shrink rfl rfl (fun _ => le_rfl) rfl (fun _ _ _ => rfl)
    fun _ _ _ => rfl
  down := h.down

theorem Inv.step {a : Action} (h : Inv s) (hmet : Met capByBytes s a)
    (hs : step capByBytes s a = some s') : Inv s' := by
  cases a with
  | reserve tid =>
      obtain ⟨l, hl, hs⟩ := Option.bind_eq_some_iff.mp hs
      split at hs
      case h_1 sid _ =>
        obtain ⟨m, hm, rfl⟩ := Option.map_eq_some_iff.mp hs
        exact h.reserve hl hm
      case h_2 => cases hs
  | add k =>
      simp only [StatusLists.step] at hs
      split at hs
      case h_1 i hk =>
        split at hs
        case isTrue => cases hs
        case isFalse hi =>
          obtain rfl := Option.some.inj hs
          obtain ⟨l, hl⟩ := h.index_of_insert hk
          exact h.add hl hk (Bool.eq_false_of_not_eq_true hi)
      case h_2 => cases hs
  | publish k =>
      simp only [StatusLists.step] at hs
      split at hs
      case h_1 i hk =>
        split at hs
        case isTrue =>
          obtain rfl := Option.some.inj hs
          obtain ⟨l, hl⟩ := h.index_of_insert hk
          exact h.publish hl
        case isFalse => cases hs
      case h_2 => cases hs
  | fail k =>
      obtain rfl := Option.some.inj hs
      exact h.fail k
  | rotate =>
      obtain ⟨l, hl, hs⟩ := Option.bind_eq_some_iff.mp hs
      exact h.rotate hl hs
  | flush =>
      obtain ⟨l, hl, hs⟩ := Option.bind_eq_some_iff.mp hs
      exact h.flush hl hs
  | release =>
      obtain ⟨l, hl, hs⟩ := Option.bind_eq_some_iff.mp hs
      exact h.release hl hs
  | vacuum sid tid =>
      obtain ⟨l, hl, rfl⟩ := Option.map_eq_some_iff.mp hs
      exact h.vacuum hl
  | writeFile i =>
      obtain rfl := Option.some.inj hs
      exact h.writeFile i
  | flushWal n =>
      obtain rfl := Option.some.inj hs
      exact h.flushWal n
  | crash n =>
      simp only [StatusLists.step] at hs
      split at hs
      case h_1 p hp =>
        obtain rfl := Option.some.inj hs
        exact h.crash hp
      case h_2 => cases hs
  | recover fetch cap =>
      simp only [StatusLists.step] at hs
      split at hs
      case isTrue hc => exact h.recover hc.1 hc.2.2 hmet hs
      case isFalse => cases hs

theorem Start.inv (h : Start capByBytes s) : Inv s := by
  obtain ⟨cap, -, hcap, rfl⟩ := h
  have hmt (x : SegmentId) : (start capByBytes cap).room x ≤
      if x = startSegmentId + 1 then cap else 0 := by
    rw [State.room]
    simp only [start, Function.update_apply]
    split
    case isTrue => exact Nat.min_le_right ..
    case isFalse => exact le_rfl
  have hmem : ∀ e ∈ (start capByBytes cap).pages.memtables, e = (startSegmentId + 1, []) :=
    fun e he => List.mem_singleton.mp he
  refine ⟨fun p hp => ?_, fun l hl => ?_, nofun⟩
  · rw [List.mem_singleton.mp hp]
    refine ⟨fun e he => ?_, List.nodup_singleton _, fun e he => ?_⟩
    · rw [hmem e he]
      exact Nat.zero_le _
    · rw [hmem e he]
      exact le_rfl
  · obtain rfl := Option.some.inj hl
    refine ⟨hcap, fun e he => ?_, fun x => ?_, fun e he => ?_, fun x hx => ?_, nofun, nofun⟩
    · rw [hmem e he]
      exact (Nat.zero_add _).le.trans ((hmt _).trans ((if_pos rfl).le.trans hcap))
    · refine (hmt x).trans ?_
      split
      case isTrue => exact hcap
      case isFalse => exact Nat.zero_le _
    · rw [hmem e he]
      exact Nat.lt_succ_self _
    · exact Nat.le_zero.mp ((hmt x).trans (if_neg (Nat.ne_of_gt hx)).le)

end Steps

end VectorLsm.StatusLists
