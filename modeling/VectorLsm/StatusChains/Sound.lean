import VectorLsm.Lib.Transition
import VectorLsm.StatusChains.Invariant

/-! # Soundness of the chains

The calls keep the lists of pages apart as long as no offset has gone stale: a memtable whose
insert page is written is still where it was found, and a memtable is not released between the
lookup and the tuple of an insert.
-/

namespace VectorLsm.StatusChains

open Transition

/-- Array, free pages and chains are lists of their own, insert pages and free tail are where they
are said to be, and the chains carry the tids that were added and not removed. -/
def Sound (st : Store) (lists : StatusLists.StatusPages) : Prop :=
  ∃ v, Shape st v ∧ Carries st v lists

section Runs

variable {β : Type*} {s s' : State β} {v : Layout} {a : β × Act}

/-- The sections that find things as the call left them. -/
def Admits (s : State β) : Pc → Prop
  | .registering sid _ | .registeringAt sid _ => sid ∉ s.registered
  | .updating sid info _ =>
      ((s.store.memtables info.blkno)[info.offno]?).map (·.sid) = some sid
  | .releasing sid blkno =>
      (s.store.find sid blkno).isSome → ∀ j, (s.pc j).addsTo sid = false
  | _ => True

def Clear (s : State β) (a : β × Act) : Prop := a.2 = .turn → Admits s (s.pc a.1)

instance Admits.decidable [Fintype β] (s : State β) : ∀ pc, Decidable (Admits s pc)
  | .idle | .finding _ _ _ | .adding _ _ _ _ _ | .addingAt _ _ _ _ _ | .seeking _ _ _
  | .removing _ _ _ _ => .isTrue trivial
  | .registering sid _ | .registeringAt sid _ => inferInstanceAs (Decidable (sid ∉ s.registered))
  | .updating sid info _ => inferInstanceAs (Decidable
      (((s.store.memtables info.blkno)[info.offno]?).map (·.sid) = some sid))
  | .releasing sid blkno => inferInstanceAs (Decidable
      ((s.store.find sid blkno).isSome → ∀ j, (s.pc j).addsTo sid = false))

instance Clear.decidable [Fintype β] (s : State β) (a : β × Act) : Decidable (Clear s a) :=
  inferInstanceAs (Decidable (a.2 = .turn → Admits s (s.pc a.1)))

theorem Inv.init (h : Init s) : Inv s ⟨[statusMemtableArrayBlkno], [], fun _ => []⟩ := by
  obtain ⟨hpage, hnb, hhead, htail, -, -, hpc, -, hlists⟩ := h
  have hmts : s.store.memtables statusMemtableArrayBlkno = [] := congrArg Page.memtables hpage
  have hnext : s.store.next statusMemtableArrayBlkno = none := congrArg Page.nextblkno hpage
  have hentries : s.store.entries [statusMemtableArrayBlkno] = [] := by
    simp [Store.entries, hmts]
  constructor
  · constructor
    · exact Linked.path_singleton.mpr hnext
    · exact hhead
    · simp [hentries]
    · simp [hentries]
    · exact htail
    · simp [hentries]
    · intro o o' b hb hb'
      cases o <;> cases o' <;> simp_all [Layout.pages]
    · intro o b hb
      cases o with
      | array =>
          obtain rfl := List.mem_singleton.mp hb
          rw [hnb]
          decide
      | free => cases hb
      | memtable sid => cases hb
  · constructor
    · simp [hentries, hlists, StatusLists.StatusPages.sids]
    · simp [hlists, StatusLists.StatusPages.sids]
  · simp [hlists, StatusLists.StatusPages.sids]
  · intro i
    rw [hpc i]
    trivial

variable [DecidableEq β]

theorem Inv.step {cfg : Config} (h : Inv s v) (hok : Clear s a)
    (hs : StatusChains.step cfg s a = some s') : ∃ v', Inv s' v' := by
  obtain ⟨i, act⟩ := a
  cases act with
  | call c =>
      simp only [StatusChains.step] at hs
      split at hs
      case isTrue =>
        obtain rfl := Option.some.inj hs
        exact ⟨v, h.begin c⟩
      case isFalse => cases hs
  | error =>
      obtain rfl := Option.some.inj hs
      refine ⟨v, h.stay rfl rfl rfl rfl (fun j hj b hb => ?_) trivial⟩
      simpa [hj] using hb
  | turn =>
      have hl := h.located i
      have hadm : Admits s (s.pc i) := hok rfl
      simp only [StatusChains.step, State.turn] at hs
      generalize s.pc i = pc at hs hl hadm
      cases pc with
      | idle => cases hs
      | registering sid blkno => exact h.register hl hadm hs
      | registeringAt sid blkno => exact h.registerItem hl hadm hs
      | finding sid tid blkno => exact ⟨v, h.findMemtableInsertPage hl hs⟩
      | adding sid tid info page orig => exact h.add hl.1 hl.2.1 hl.2.2 hs
      | addingAt sid tid info page orig =>
          obtain rfl := Option.some.inj hs
          exact ⟨v, h.addItem hl.1 hl.2.1 hl.2.2⟩
      | updating sid info page =>
          exact ⟨v, h.statusUpdateInsertPage hl.1 hl.2.2 hadm hs⟩
      | seeking sid tid blkno => exact ⟨v, h.seek hl hs⟩
      | removing sid tid array page => exact ⟨v, h.remove hl hs⟩
      | releasing sid blkno => exact h.release hl hadm hs

/-- In a run without stale offsets the chains stay sound. -/
theorem chains_sound (cfg : Config) (h : Reachable Init (step cfg) Clear s) :
    Sound s.store s.lists := by
  obtain ⟨v, hv⟩ := h.invariant (P := fun s => ∃ v, Inv s v) (fun _ hi => ⟨_, Inv.init hi⟩)
    fun _ _ _ _ ⟨_, hi⟩ hok hs => hi.step hok hs
  exact ⟨v, hv.shape, hv.carries⟩

end Runs

section Demo

/-- Two backends, arrays of three memtables a page and one tuple a page. -/
def demoStart : State (Fin 2) where
  store := ⟨fun _ => statusInitPage, 3, none, none, 0⟩
  exclusive := fun _ => none
  shared := fun _ => []
  pc := fun _ => .idle
  registered := []
  lists := ⟨0, []⟩

theorem init_demoStart : Init demoStart :=
  ⟨rfl, rfl, rfl, rfl, rfl, fun _ => ⟨rfl, rfl⟩, fun _ => rfl, rfl, rfl⟩

def demoRegister (sid : SegmentId) : List (Fin 2 × Act) :=
  [(0, .call (.registerStatusMemtable sid)), (0, .turn)]

/-- Three memtables, and an insert that has put a second page on the chain of the second one. -/
def demoAdds : List (Fin 2 × Act) :=
  demoRegister 4 ++ demoRegister 5 ++ demoRegister 6 ++
    [(0, .call (.addToStatusMemtable 5 7)), (0, .turn), (0, .turn),
      (0, .call (.addToStatusMemtable 5 8)), (0, .turn), (0, .turn), (0, .turn)]

def demoRelease : List (Fin 2 × Act) :=
  [(1, .call (.releaseStatusMemtable 4)), (1, .turn)]

/-- The release of the first memtable moves the entries of the other two, and the insert page
goes into the entry of the third. -/
theorem not_chains_sound : ¬ ∀ (β : Type) [DecidableEq β] (cfg : Config) (s : State β),
    Reachable Init (step cfg) anyStep s → Sound s.store s.lists := by
  intro hall
  obtain ⟨s, hs, hmts, hn₂, hn₅⟩ : ∃ s,
      exec (step ⟨3, 1⟩) demoStart (demoAdds ++ demoRelease ++ [(0, .turn)]) = some s ∧
        s.store.memtables 2 = [⟨some 4, some 4, 5⟩, ⟨some 5, some 6, 6⟩] ∧
        s.store.next 2 = none ∧ s.store.next 5 = none :=
    ⟨_, rfl, rfl, rfl, rfl⟩
  obtain ⟨v, hv, -⟩ := hall (Fin 2) ⟨3, 1⟩ s
    ((Reachable.start init_demoStart).of_exec (meets_anyStep _) hs)
  have harray : v.array = [2] := hv.array.unique (Linked.path_singleton.mpr hn₂)
  have hmt : StatusMemtable.mk (some 5) (some 6) 6 ∈ s.store.entries v.array := by
    simp [Store.entries, harray, hmts]
  have hchain : v.chain 6 = [5] := (hv.chain _ hmt).unique (Linked.path_singleton.mpr hn₅)
  obtain ⟨b, hb, hi⟩ := hv.insert _ hmt
  rw [hchain] at hb
  obtain rfl := List.mem_singleton.mp hb
  cases hi

/-- The same insert writes its page before the release. -/
theorem chains_sound_demo : ∃ s,
    exec (step ⟨3, 1⟩) demoStart (demoAdds ++ [(0, .turn)] ++ demoRelease) = some s ∧
      s.store.memtables 2 = [⟨some 4, some 6, 5⟩, ⟨some 5, some 5, 6⟩] ∧
      s.store.freePageHead = some 3 ∧ s.store.freePageTail = some 3 ∧
      s.lists.memtables = [(5, [7, 8]), (6, [])] ∧ Sound s.store s.lists := by
  obtain ⟨s, hs, hmts, hhead, htail, hlists, hmeets⟩ : ∃ s,
      exec (step ⟨3, 1⟩) demoStart (demoAdds ++ [(0, .turn)] ++ demoRelease) = some s ∧
        s.store.memtables 2 = [⟨some 4, some 6, 5⟩, ⟨some 5, some 5, 6⟩] ∧
        s.store.freePageHead = some 3 ∧ s.store.freePageTail = some 3 ∧
        s.lists.memtables = [(5, [7, 8]), (6, [])] ∧
        Meets Clear (step ⟨3, 1⟩) demoStart (demoAdds ++ [(0, .turn)] ++ demoRelease) :=
    ⟨_, rfl, rfl, rfl, rfl, rfl, by decide⟩
  exact ⟨s, hs, hmts, hhead, htail, hlists,
    chains_sound ⟨3, 1⟩ ((Reachable.start init_demoStart).of_exec hmeets hs)⟩

end Demo

end VectorLsm.StatusChains
