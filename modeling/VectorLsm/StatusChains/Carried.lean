import VectorLsm.StatusChains.Shape
import VectorLsm.StatusLists.Bounded

/-! # The tids on the chains

Every call does to the pages what the status lists say it does: the memtables in the array are
the ones listed, and the tuples on the pages of a chain are the tids of its memtable.
-/

namespace VectorLsm.StatusChains

open Linked
open StatusLists (StatusPages modifyChain modifyChain_sids)

/-- The chains carry what the calls were for. -/
structure Carries (st : Store) (v : Layout) (lists : StatusPages) : Prop where
  sids : ((st.entries v.array).map (·.sid)).Perm lists.sids
  tids : ∀ sid ∈ lists.sids, ∃ tids, lists.getStatusMemtableTids sid = some tids ∧
    ((v.chain sid).flatMap st.tuples).Perm tids

section Lists

variable {p : StatusPages} {sid sid' : SegmentId} {tid : Tid} {f : List Tid → List Tid}
  {es : List (SegmentId × List Tid)}

theorem find?_modifyChain :
    ((modifyChain sid f es).find? fun e => e.1 = sid').map (·.2) =
      ((es.find? fun e => e.1 = sid').map (·.2)).map (if sid' = sid then f else id) := by
  induction es with
  | nil => rfl
  | cons e es ih =>
      rw [modifyChain]
      split
      case isTrue he =>
        rcases eq_or_ne sid' sid with rfl | hne
        · simp [he]
        · simp [he, hne, hne.symm]
      case isFalse he =>
        rcases eq_or_ne e.1 sid' with rfl | hne
        · simp [he]
        · simpa [hne] using ih

theorem getStatusMemtableTids_add : (p.redo (.add sid tid)).getStatusMemtableTids sid' =
    (p.getStatusMemtableTids sid').map (if sid' = sid then (· ++ [tid]) else id) :=
  find?_modifyChain

theorem getStatusMemtableTids_remove : (p.redo (.remove sid tid)).getStatusMemtableTids sid' =
    (p.getStatusMemtableTids sid').map (if sid' = sid then (·.erase tid) else id) :=
  find?_modifyChain

theorem getStatusMemtableTids_registerMemtable (h : sid ∉ p.sids) :
    (p.redo (.registerMemtable sid)).getStatusMemtableTids sid' =
      if sid' = sid then some [] else p.getStatusMemtableTids sid' := by
  rw [StatusPages.getStatusMemtableTids, StatusPages.redo, List.find?_append]
  rcases eq_or_ne sid' sid with rfl | hne
  · have hnone : p.memtables.find? (fun e => e.1 = sid') = none := by
      rw [List.find?_eq_none]
      intro e he hsid
      exact h (List.mem_map.mpr ⟨e, he, by simpa using hsid⟩)
    simp [hnone]
  · simp [hne, hne.symm, StatusPages.getStatusMemtableTids]

theorem getStatusMemtableTids_releaseMemtable (h : sid' ≠ sid) :
    (p.redo (.releaseMemtable sid)).getStatusMemtableTids sid' = p.getStatusMemtableTids sid' := by
  rw [StatusPages.getStatusMemtableTids, StatusPages.redo, StatusPages.getStatusMemtableTids]
  congr 1
  induction p.memtables with
  | nil => rfl
  | cons e es ih =>
      rcases eq_or_ne e.1 sid with he | he
      · simp [he, h.symm]
      · rcases eq_or_ne e.1 sid' with rfl | he'
        · simp [h]
        · simpa [he, he'] using ih

@[simp] theorem sids_add : (p.redo (.add sid tid)).sids = p.sids := modifyChain_sids

@[simp] theorem sids_remove : (p.redo (.remove sid tid)).sids = p.sids := modifyChain_sids

@[simp] theorem sids_registerMemtable :
    (p.redo (.registerMemtable sid)).sids = p.sids ++ [sid] := by
  simp [StatusPages.redo, StatusPages.sids]

@[simp] theorem sids_releaseMemtable :
    (p.redo (.releaseMemtable sid)).sids = p.sids.erase sid := by
  rw [StatusPages.sids, StatusPages.redo, StatusPages.sids]
  induction p.memtables with
  | nil => rfl
  | cons e es ih =>
      rcases eq_or_ne e.1 sid with he | he
      · simp [he]
      · simpa [he, List.erase_cons] using ih

end Lists

section Carries

variable {st st' : Store} {v v' : Layout} {b new : BlockNumber} {sid : SegmentId}
  {lists lists' : StatusPages} {tid : Tid}

theorem Carries.listed_iff (h : Carries st v lists) :
    st.Listed v.array sid ↔ sid ∈ lists.sids := by
  rw [← h.sids.mem_iff, List.mem_map]
  rfl

theorem Carries.nodup (h : Carries st v lists) (hs : Shape st v) : lists.sids.Nodup :=
  h.sids.nodup_iff.mp hs.sids

theorem Carries.congr (h : Carries st v lists) (hl : lists'.memtables = lists.memtables)
    (hs : ((st'.entries v'.array).map (·.sid)).Perm ((st.entries v.array).map (·.sid)))
    (ht : ∀ sid, st.Listed v.array sid →
      (v'.chain sid).flatMap st'.tuples = (v.chain sid).flatMap st.tuples) :
    Carries st' v' lists' where
  sids := by
    rw [StatusPages.sids, hl]
    exact hs.trans h.sids
  tids := by
    intro sid hsid
    rw [StatusPages.sids, hl] at hsid
    rw [StatusPages.getStatusMemtableTids, hl, ht sid (h.listed_iff.mpr hsid)]
    exact h.tids sid hsid

/-- The page that is taken was on no chain of a memtable. -/
theorem Carries.taken (h : Carries st v lists) (ht : Taken st st' v v' new) :
    Carries st' v' lists := by
  have hne : ∀ o, ∀ c ∈ v'.pages o, c ≠ new := fun o c hc => ne_of_mem_of_not_mem hc (ht.unowned o)
  refine h.congr rfl ?_ fun sid _ => ?_
  · have he : st'.entries v'.array = st.entries v'.array :=
      Store.entries_congr fun c hc => congrArg Page.memtables (ht.other c (hne .array c hc))
    rw [he, ht.array]
  · rw [← ht.chain]
    exact List.flatMap_congr fun c hc =>
      congrArg Page.tuples (ht.other c (hne (.memtable sid) c hc))

theorem Carries.push (h : Carries st v lists) {o : Owner} (ho : o ≠ .free)
    (hpage : st.page new = statusInitPage) : Carries (st.setNext b new) (v.push new o) lists := by
  have hmem : st.memtables new = [] := by simp [Store.memtables, hpage, statusInitPage]
  have htup : st.tuples new = [] := by simp [Store.tuples, hpage, statusInitPage]
  cases o with
  | array =>
      refine h.congr rfl ?_ fun sid _ => ?_
      · simp [Store.entries, Layout.push, hmem]
      · simp [Layout.push]
  | free => exact absurd rfl ho
  | memtable sid' =>
      refine h.congr rfl ?_ fun sid _ => ?_
      · simp [Store.entries, Layout.push]
      · rcases eq_or_ne sid sid' with rfl | hne
        · simp [Layout.push, htup]
        · simp [Layout.push, hne]

theorem Carries.register (h : Carries st v lists) (hs : Shape st v) (hb : b ∈ v.array)
    (hpage : st.page new = statusInitPage) (hsid : ¬ st.Listed v.array sid) :
    Carries (st.setMemtables b (st.memtables b ++ [StatusMemtable.mk (some new) (some new) sid]))
      (v.setChain sid [new]) (lists.redo (.registerMemtable sid)) where
  sids := by
    have hperm := st.entries_push hs.array.nodup hb
      (StatusMemtable.mk (some new) (some new) sid)
    rw [sids_registerMemtable]
    refine (hperm.map (·.sid)).trans ?_
    exact (h.sids.cons sid).trans (List.perm_append_singleton sid _).symm
  tids := by
    have htup : st.tuples new = [] := by simp [Store.tuples, hpage, statusInitPage]
    have hnot : sid ∉ lists.sids := fun hmem => hsid (h.listed_iff.mpr hmem)
    intro sid' hsid'
    rw [getStatusMemtableTids_registerMemtable hnot]
    rcases eq_or_ne sid' sid with rfl | hne
    · exact ⟨[], by simp, by simp [htup]⟩
    · have hmem : sid' ∈ lists.sids := by simpa [hne] using hsid'
      simpa [hne] using h.tids sid' hmem

/-- The tuples of one page of a chain change. -/
theorem Carries.setTuples (h : Carries st v lists) (hs : Shape st v) (hsid : st.Listed v.array sid)
    (hb : b ∈ v.chain sid) {tids' : List Tid} {f : List Tid → List Tid}
    (hsids : lists'.sids = lists.sids)
    (hget : ∀ sid', lists'.getStatusMemtableTids sid' =
      (lists.getStatusMemtableTids sid').map (if sid' = sid then f else id))
    (hf : ∀ tids rest, tids.Perm (st.tuples b ++ rest) → (tids' ++ rest).Perm (f tids)) :
    Carries (st.setTuples b tids') v lists' where
  sids := by
    rw [Store.entries, Store.memtables_setTuples, hsids]
    exact h.sids
  tids := by
    rw [hsids]
    intro sid' hsid'
    obtain ⟨tids, hl, hperm⟩ := h.tids sid' hsid'
    rw [hget, hl]
    rcases eq_or_ne sid' sid with rfl | hne
    · obtain ⟨mt, hmt, rfl⟩ := hsid
      obtain ⟨rest, hold, hnew⟩ := flatMap_perm st.tuples
        (Function.update st.tuples b tids') (hs.chain mt hmt).nodup hb
        (fun c hc => Function.update_of_ne hc _ _)
      rw [Function.update_self] at hnew
      refine ⟨f tids, by simp, ?_⟩
      rw [Store.tuples_setTuples]
      exact hnew.trans (hf tids rest (hperm.symm.trans hold))
    · refine ⟨tids, by simp [hne], ?_⟩
      have hnot : ∀ c ∈ v.chain sid', c ≠ b := by
        rintro c hc rfl
        have ho := hs.disjoint (.memtable sid') (.memtable sid) c hc hb
        exact hne (Owner.memtable.inj ho)
      rw [Store.tuples_setTuples,
        List.flatMap_congr fun c hc => Function.update_of_ne (hnot c hc) _ _]
      exact hperm

theorem Carries.add (h : Carries st v lists) (hs : Shape st v) (hsid : st.Listed v.array sid)
    (hb : b ∈ v.chain sid) :
    Carries (st.setTuples b (st.tuples b ++ [tid])) v (lists.redo (.add sid tid)) := by
  refine h.setTuples hs hsid hb sids_add (fun _ => getStatusMemtableTids_add) ?_
  intro tids rest hperm
  rw [List.append_assoc]
  refine List.perm_middle.trans ?_
  exact (hperm.symm.cons tid).trans (List.perm_append_singleton tid tids).symm

theorem Carries.remove (h : Carries st v lists) (hs : Shape st v) (hsid : st.Listed v.array sid)
    (hb : b ∈ v.chain sid) (ht : tid ∈ st.tuples b) :
    Carries (st.setTuples b ((st.tuples b).erase tid)) v (lists.redo (.remove sid tid)) := by
  refine h.setTuples hs hsid hb sids_remove (fun _ => getStatusMemtableTids_remove) ?_
  intro tids rest hperm
  rw [← List.erase_append_left rest ht]
  exact (hperm.erase tid).symm

theorem Carries.setInsertPage (h : Carries st v lists) (hs : Shape st v) (hb : b ∈ v.array)
    {off : ℕ} {mt : StatusMemtable} (hmt : (st.memtables b)[off]? = some mt)
    (page : Option BlockNumber) :
    Carries (st.setMemtables b ((st.memtables b).set off { mt with memtableInsertPage := page }))
      v lists := by
  obtain ⟨rest, hold, hnew⟩ := st.entries_set hs.array.nodup hb hmt
    { mt with memtableInsertPage := page }
  refine h.congr rfl ?_ fun sid _ => ?_
  · exact (hnew.map (·.sid)).trans (hold.map (·.sid)).symm
  · rw [Store.tuples_setMemtables]

theorem Carries.release (h : Carries st v lists) (hs : Shape st v) (hb : b ∈ v.array) {off : ℕ}
    {mt : StatusMemtable} (hmt : (st.memtables b)[off]? = some mt)
    (hf : st.freePages mt (v.chain mt.sid).getLast? = some st') :
    Carries (st'.setMemtables b ((st'.memtables b).eraseIdx off)) (v.release mt.sid)
      (lists.redo (.releaseMemtable mt.sid)) := by
  have hmem : mt ∈ st.entries v.array := Store.mem_entries.mpr ⟨b, hb, List.mem_of_getElem? hmt⟩
  obtain ⟨-, -, -, hmts, htup, -⟩ := hs.freePages hmem hf
  have hentries : st'.entries v.array = st.entries v.array :=
    Store.entries_congr fun c _ => by rw [hmts]
  have hperm := st'.entries_eraseIdx hs.array.nodup hb (hmts ▸ hmt)
  rw [hentries] at hperm
  constructor
  · have hsids := (hperm.map (·.sid)).symm.trans h.sids
    rw [sids_releaseMemtable]
    refine List.Perm.trans ?_ (hsids.erase mt.sid)
    simp [Layout.release]
  · intro sid hsid
    rw [sids_releaseMemtable, (h.nodup hs).mem_erase_iff] at hsid
    obtain ⟨hne, hsid⟩ := hsid
    rw [getStatusMemtableTids_releaseMemtable hne, Store.tuples_setMemtables, htup]
    have hchain : (v.release mt.sid).chain sid = v.chain sid := Function.update_of_ne hne _ _
    rw [hchain]
    exact h.tids sid hsid

end Carries

end VectorLsm.StatusChains
