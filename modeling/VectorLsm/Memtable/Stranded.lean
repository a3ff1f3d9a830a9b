import VectorLsm.Memtable.Failures

/-! # Rotations that fail

A rotation takes the memtable it replaces off the growing place and marks the place `ROTATING`
before it allocates; both are undone by nothing but its own last steps.
-/

namespace VectorLsm.Failures

open ConcurrentMemTable Memtable Memtable.State Transition

variable {V : Type*}

/-- The growing place is `ROTATING` and no rotation is under way. -/
def Stuck (s : Memtable.State V) : Prop :=
  s.growingIdx = .rotating ∧ ∀ t, (s.ins t).rotating = false

/-- A slot is referenced, and not only by snapshots, with its memtable neither growing nor queued
nor in the hands of a rotation or a flush. -/
structure Stranded (s : Memtable.State V) (g : SlotIdx) : Prop where
  foreign : (s.slots g).foreign = false
  referenced : (s.slots g).readers < (s.slots g).refCount
  growing : s.growingIdx ≠ .slot g
  queued : g ∉ s.memtableIdxs
  rotations : ∀ t, (s.ins t).outgoing ≠ some g ∧ (s.ins t).building ≠ some g ∧
    (s.ins t).fresh ≠ some g
  flushes : ∀ f, (s.flu f).unlinkedSlot ≠ some g

/-- Rotations leave the index usable. -/
structure State.Usable (x : State V) : Prop where
  proceeds : ¬ Stuck x.base
  owned : ∀ g, ¬ Stranded x.base g
  kept : ∀ t r, x.base.ins t = .returned r → ∃ m i, HasMemtable x.base m ∧ Holds m t r i

/-- No error is raised in a rotation past the sentinel, and no rotation without `need_enqueue`
enters on a growing memtable. -/
def NoneStrands (x : State V) : Action V → Prop
  | .act a => EntersEmpty x.base a
  | .fail t => (x.base.ins t).rotating = false
  | .acquire _ | .unref _ => True

def State.Broken (x : State V) : Prop := Stuck x.base ∨ ∃ g, Stranded x.base g

/-- Besides the snapshots there is at most the reference of the owner. -/
def Referenced (own : SlotIdx → Owner) (s : Memtable.State V) : Prop :=
  ∀ g, (s.slots g).foreign = false →
    (s.slots g).refCount ≤ (s.slots g).readers + if own g = .nobody then 0 else 1

section Trans

variable {cfg : Config} {own own' : SlotIdx → Owner} {s s' : Memtable.State V} {t : ℕ}
  {added : List (SlotIdx × SegmentId × ℕ)}

theorem Referenced.trans (h : Trans cfg own s own' s') (hp : Places own s) (hr : Refs own s)
    (hrf : Referenced own s) : Referenced own' s' := by
  unfold Referenced at hrf ⊢
  obtain ⟨hro, hle, hread, hfo⟩ := hr
  cases h with
  | insert h => cases h <;> grind
  | rotate h =>
    cases h with
    | @rotateOut t r g _ h hx hs | @rotateOver t r g _ h hx hs =>
      have hown : own g = .growing := (hp.growing g).2 hs
      grind [Function.update_apply]
    | @register t r cur new pc h hpc =>
      have hown : own new = .building t := (hp.building t new).2 (by simp [h])
      grind [Function.update_apply]
    | @enqueue t r cur new h hx =>
      have hcur : own cur = .rotation t := (hp.rotation t cur).2 (by simp [h])
      grind [Function.update_apply]
    | @install t r new _ h hx =>
      have hown : own new = .fresh t := (hp.fresh t new).2 (by simp [h])
      grind [Function.update_apply]
    | _ => grind [Function.update_apply]
  | flush h =>
    cases h with
    | @handoff f g h hx hm =>
      have hown : own g = .queued := (hp.queued g).2 hm
      grind [Function.update_apply]
    | @release f g h =>
      have hown : own g = .unlinked f := (hp.unlinked f g).2 (by simp [h])
      grind [Function.update_apply]
    | _ => grind [Function.update_apply]
  | reader h => cases h <;> grind [Function.update_apply]

theorem Referenced.fail (h : FailTrans cfg t own s own' s' added) (hp : Places own s)
    (hrf : Referenced own s) : Referenced own' s' := by
  unfold Referenced at hrf ⊢
  cases h with
  | insert h => exact hrf
  | allocate h =>
    have hcur := own_allocate hp h
    grind
  | register h =>
    obtain ⟨hnew, hcur⟩ := own_register hp h
    grind [Function.update_apply]

/-- The stranded slots are those the history calls orphans. -/
theorem stranded_iff (hp : Places own s) (hr : Refs own s) (hrf : Referenced own s) (g : SlotIdx) :
    Stranded s g ↔ own g = .orphan := by
  obtain ⟨hg, hq, -, ho, hb, hf, hu⟩ := hp
  constructor
  · rintro ⟨hforeign, hlt, hng, hnq, hrot, hflu⟩
    have hle := hrf g hforeign
    cases hown : own g with
    | nobody =>
        simp only [hown, if_true] at hle
        omega
    | growing => exact absurd ((hg g).1 hown) hng
    | rotation t => exact absurd ((ho t g).1 hown) (hrot t).1
    | building t => exact absurd ((hb t g).1 hown) (hrot t).2.1
    | fresh t => exact absurd ((hf t g).1 hown) (hrot t).2.2
    | queued => exact absurd ((hq g).1 hown) hnq
    | unlinked f => exact absurd ((hu f g).1 hown) (hflu f)
    | orphan => rfl
  · intro hown
    obtain ⟨hlt, hforeign⟩ := hr.owned g (by simp [hown])
    have hnot : ∀ o, own g = o → o = .orphan := fun o ho => ho.symm.trans hown
    refine ⟨hforeign, hlt, fun h => ?_, fun h => ?_,
      fun t => ⟨fun h => ?_, fun h => ?_, fun h => ?_⟩, fun f h => ?_⟩
    · cases hnot _ ((hg g).2 h)
    · cases hnot _ ((hq g).2 h)
    · cases hnot _ ((ho t g).2 h)
    · cases hnot _ ((hb t g).2 h)
    · cases hnot _ ((hf t g).2 h)
    · cases hnot _ ((hu f g).2 h)

/-- A stranded slot stays stranded. -/
theorem orphan_trans (h : Trans cfg own s own' s') (hp : Places own s) (hr : Refs own s)
    {g : SlotIdx} (hg : own g = .orphan) : own' g = .orphan := by
  cases h with
  | insert h | reader h => exact hg
  | rotate h =>
    cases h with
    | rotateOut h hx hs | rotateOver h hx hs =>
      have hown := (hp.growing _).2 hs
      grind [Function.update_apply]
    | rotateInvalid h hx hs => exact hg
    | alloc h h0 =>
      have hown := hr.free h0
      grind [Function.update_apply]
    | @register t r cur new pc h hpc =>
      have hown : own new = .building t := (hp.building t new).2 (by simp [h])
      grind [Function.update_apply]
    | @enqueue t r cur new h hx =>
      have hcur : own cur = .rotation t := (hp.rotation t cur).2 (by simp [h])
      grind [Function.update_apply]
    | @install t r new _ h hx =>
      have hown : own new = .fresh t := (hp.fresh t new).2 (by simp [h])
      grind [Function.update_apply]
  | flush h =>
    cases h with
    | @handoff f g h hx hm =>
      have hown : own g = .queued := (hp.queued g).2 hm
      grind [Function.update_apply]
    | @release f g h =>
      have hown : own g = .unlinked f := (hp.unlinked f g).2 (by simp [h])
      grind [Function.update_apply]
    | _ => exact hg

theorem rotating_insert (h : InsertTrans s s') (t : ℕ) :
    (s'.ins t).rotating = (s.ins t).rotating := by
  cases h with
  | control h =>
    have hsame := h.rotating
    grind [Function.update_apply]
  | _ => grind [Function.update_apply]

/-- Steps without an error neither bring about nor end a rotation that nobody is at work on. -/
theorem stuck_trans (h : Trans cfg own s own' s') : Stuck s' ↔ Stuck s := by
  cases h with
  | insert h =>
    have hsame := rotating_insert h
    have hidx : s'.growingIdx = s.growingIdx := by cases h <;> rfl
    simp only [Stuck, hsame, hidx]
  | rotate h =>
    cases h with
    | @rotateOut t _ _ _ h hx hs | @rotateOver t _ _ _ h hx hs | @rotateInvalid t _ _ h hx hs =>
      refine iff_of_false (fun hst => ?_) fun hst => ?_
      · have := hst.2 t
        simp at this
      · rw [hst.1] at hs
        cases hs
    | @alloc t r cur g h h0 =>
      refine iff_of_false (fun hst => ?_) fun hst => ?_
      · have := hst.2 t
        simp at this
      · have := hst.2 t
        simp [h] at this
    | @register t r cur new pc h hpc =>
      refine iff_of_false (fun hst => ?_) fun hst => ?_
      · have := hst.2 t
        rcases hpc with ⟨rfl, -⟩ | ⟨c, rfl, -⟩ <;> simp at this
      · have := hst.2 t
        simp [h] at this
    | @enqueue t r cur new h hx =>
      refine iff_of_false (fun hst => ?_) fun hst => ?_
      · have := hst.2 t
        simp at this
      · have := hst.2 t
        simp [h] at this
    | @install t r new id h hx =>
      refine iff_of_false (fun hst => ?_) fun hst => ?_
      · cases hst.1
      · have := hst.2 t
        simp [h] at this
  | flush h => cases h <;> exact Iff.rfl
  | reader h => cases h <;> exact Iff.rfl

end Trans

section Step

variable {cfg : Config} {own : SlotIdx → Owner} {x x' : State V}

theorem Inv.broken_iff (hi : Inv own x) (hrf : Referenced own x.base) :
    x.Broken ↔ Stuck x.base ∨ ∃ g, own g = .orphan :=
  or_congr_right (exists_congr (stranded_iff hi.places hi.refs hrf))

/-- A rotation that enters over a growing memtable leaves it behind. -/
theorem Inv.stranded_over {a : Memtable.Action V} {s' : Memtable.State V} (hi : Inv own x)
    (hok : ¬ EntersEmpty x.base a) (h : Memtable.step cfg x.base a = some s') :
    ∃ g, Stranded s' g := by
  have hpl := hi.places
  unfold EntersEmpty at hok
  split at hok
  case h_2 => exact absurd trivial hok
  case h_1 t =>
  split at hok
  case h_2 => exact absurd trivial hok
  case h_1 r g hpc hgrow =>
    have hown : own g = .growing := (hpl.growing g).2 hgrow
    obtain ⟨hlt, hforeign⟩ := hi.refs.owned g (by simp [hown])
    simp only [Memtable.step, insertStep, hpc, hgrow] at h
    split at h <;> cases h
    have hnot : ∀ o, own g = o → o = .growing := fun o ho => ho.symm.trans hown
    refine ⟨g, hforeign, hlt, by simp, fun hq => ?_, fun u => ?_, fun f hf => ?_⟩
    · cases hnot _ ((hpl.queued g).2 hq)
    · by_cases hut : u = t
      · simp [hut]
      · simp only [setGrowing_ins, setIns_ins, Function.update_of_ne hut]
        refine ⟨fun h => ?_, fun h => ?_, fun h => ?_⟩
        · cases hnot _ ((hpl.rotation u g).2 h)
        · cases hnot _ ((hpl.building u g).2 h)
        · cases hnot _ ((hpl.fresh u g).2 h)
    · cases hnot _ ((hpl.unlinked f g).2 hf)

theorem Inv.broken_act {a : Memtable.Action V} (hi : Inv own x) (hrf : Referenced own x.base)
    (h : Failures.step cfg x (.act a) = some x') : ∃ own', Inv own' x' ∧
      Referenced own' x'.base ∧ (x'.Broken ↔ x.Broken ∨ ¬ NoneStrands x (.act a)) := by
  obtain ⟨s', hs, rfl, hread⟩ := step_act h
  obtain ⟨own', ht, hno⟩ := step_trans own hs
  have hi' : Inv own' (x.setBase s') :=
    hi.trans ht (hi.snapshots.trans ht hi.places hi.refs hread)
  have hrf' : Referenced own' s' := hrf.trans ht hi.places hi.refs
  have hok : NoneStrands x (.act a) ↔ EntersEmpty x.base a := Iff.rfl
  refine ⟨own', hi', hrf', ?_⟩
  constructor
  · intro hbroken
    by_contra hnot
    obtain ⟨hnb, hok⟩ := not_or.mp hnot
    rw [not_not] at hok
    rw [hi.broken_iff hrf] at hnb
    obtain ⟨hnst, hnor⟩ := not_or.mp hnb
    rcases (hi'.broken_iff hrf').mp hbroken with hst | ⟨g, hg⟩
    · exact hnst ((stuck_trans ht).mp hst)
    · exact hno hok (fun g hg => hnor ⟨g, hg⟩) g hg
  · rintro ((hst | ⟨g, hg⟩) | hover)
    · exact .inl ((stuck_trans ht).mpr hst)
    · have hg := (stranded_iff hi.places hi.refs hrf g).mp hg
      exact (hi'.broken_iff hrf').mpr (.inr ⟨g, orphan_trans ht hi.places hi.refs hg⟩)
    · exact .inr (hi.stranded_over hover hs)

/-- An error in a rotation leaves the growing place `ROTATING`. -/
theorem Inv.stuck_fail {t : ℕ} {own' : SlotIdx → Owner}
    {added : List (SlotIdx × SegmentId × ℕ)} (hi : Inv own x)
    (hrot : (x.base.ins t).rotating = true)
    (h : FailTrans cfg t own x.base own' x'.base added) : Stuck x'.base := by
  have hgrow := hi.locks.rotating t hrot
  have hothers : ∀ u, u ≠ t → (x.base.ins u).rotating = false := by
    intro u hut
    by_contra hu
    exact hut (hi.locks.single u t (by simpa using hu) hrot)
  generalize hb : x'.base = s' at h
  cases h with
  | insert hpend =>
    rw [(none_of_pending hpend).1] at hrot
    cases hrot
  | allocate hpc | register hpc =>
    refine ⟨by simpa using hgrow, fun u => ?_⟩
    by_cases hut : u = t
    · simp [hut]
    · simpa [hut] using hothers u hut

theorem Inv.broken_fail {t : ℕ} (hi : Inv own x) (hrf : Referenced own x.base)
    (h : Failures.step cfg x (.fail t) = some x') : ∃ own', Inv own' x' ∧
      Referenced own' x'.base ∧ (x'.Broken ↔ x.Broken ∨ ¬ NoneStrands x (.fail t)) := by
  obtain ⟨own', added, ht, hf, hr⟩ := failInsert_trans own h
  have hi' : Inv own' x' := hi.fail ht hf hr
  have hrf' : Referenced own' x'.base := hrf.fail ht hi.places
  have hok : NoneStrands x (.fail t) ↔ (x.base.ins t).rotating = false := Iff.rfl
  refine ⟨own', hi', hrf', ?_⟩
  rw [hok, Bool.not_eq_false]
  cases hrot : (x.base.ins t).rotating with
  | true => exact iff_of_true (.inl (hi.stuck_fail hrot ht)) (.inr rfl)
  | false =>
    rw [hi.broken_iff hrf, hi'.broken_iff hrf']
    generalize hb : x'.base = s' at ht
    cases ht with
    | insert hpend =>
      have hsame : ∀ u, ((leave x.base t).ins u).rotating = (x.base.ins u).rotating := by
        intro u
        by_cases hut : u = t
        · rw [leave_ins, if_pos hut, hut, hrot]
          rfl
        · rw [leave_ins, if_neg hut]
      simp only [Stuck, leave_growingIdx, hsame]
      tauto
    | allocate hpc | register hpc => simp [hpc] at hrot

theorem Inv.broken_setSlot {g : SlotIdx} {b : MemtableBufferSlot V} (hi : Inv own x)
    (hi' : Inv own x') (hrf : Referenced own x.base) (hb : x'.base = x.base.setSlot g b)
    (hrf' : Referenced own x'.base) : x'.Broken ↔ x.Broken := by
  rw [hi.broken_iff hrf, hi'.broken_iff hrf', hb]
  exact Iff.rfl

/-- A broken index stays broken, and a step breaks it just when it does not meet the condition. -/
theorem Inv.broken_step {a : Action V} (hi : Inv own x) (hrf : Referenced own x.base)
    (h : Failures.step cfg x a = some x') : ∃ own', Inv own' x' ∧
      Referenced own' x'.base ∧ (x'.Broken ↔ x.Broken ∨ ¬ NoneStrands x a) := by
  cases a with
  | act a => exact hi.broken_act hrf h
  | fail t => exact hi.broken_fail hrf h
  | acquire g =>
      have hi' := hi.acquire h
      obtain ⟨-, ht, -, -, hb⟩ := step_acquire h
      have hrf' := hrf.trans (Trans.reader ht : Trans cfg own x.base own x'.base) hi.places hi.refs
      exact ⟨own, hi', hrf', by simpa [NoneStrands] using hi.broken_setSlot hi' hrf hb hrf'⟩
  | unref r =>
      have hi' := hi.unref h
      obtain ⟨-, ht, -, -, hb⟩ := step_unref h
      have hrf' := hrf.trans (Trans.reader ht : Trans cfg own x.base own x'.base) hi.places hi.refs
      exact ⟨own, hi', hrf', by simpa [NoneStrands] using hi.broken_setSlot hi' hrf hb hrf'⟩

/-- Exactly the runs that meet the condition leave an index as whole as it was. -/
theorem Inv.broken_exec {as : List (Action V)} (hi : Inv own x) (hrf : Referenced own x.base)
    (h : exec (Failures.step cfg) x as = some x') : ∃ own', Inv own' x' ∧
      Referenced own' x'.base ∧
      (x'.Broken ↔ x.Broken ∨ ¬ Meets NoneStrands (Failures.step cfg) x as) := by
  induction as generalizing x own with
  | nil =>
      obtain rfl := Option.some.inj h
      exact ⟨own, hi, hrf, by simp [Meets]⟩
  | cons a as ih =>
      obtain ⟨y, hy, h⟩ := Option.bind_eq_some_iff.mp h
      obtain ⟨own', hi', hrf', hstep⟩ := hi.broken_step hrf hy
      obtain ⟨own'', hi'', hrf'', hrun⟩ := ih hi' hrf' h
      refine ⟨own'', hi'', hrf'', ?_⟩
      rw [hrun, hstep]
      simp only [Meets, hy]
      tauto

theorem Inv.usable_iff_broken (hi : Inv own x) (hrf : Referenced own x.base) :
    x.Usable ↔ ¬ x.Broken := by
  constructor
  · rintro hu (hst | ⟨g, hg⟩)
    · exact hu.proceeds hst
    · exact hu.owned g hg
  · intro hnb
    obtain ⟨hnst, hno⟩ := not_or.mp hnb
    rw [not_exists] at hno
    have horphan : NoOrphan own := fun g hg =>
      hno g ((stranded_iff hi.places hi.refs hrf g).mpr hg)
    refine ⟨hnst, hno, fun t r ht => ?_⟩
    rcases hi.kept t r ht with ⟨g, i, hg, h⟩ | ⟨m, hm, i, h⟩
    · exact ⟨_, i, .inl ⟨g, hi.places.holds_placed hi.slots horphan hg h, rfl⟩, h⟩
    · exact ⟨m, i, .inr hm, h⟩

end Step

section Start

variable {cfg : Config} {s : Memtable.State V}

theorem referenced_start (h : Start cfg s) : Referenced (startOwner s) s := by
  have ht := tidy_start h
  intro g hforeign
  have hheld := ht.held g
  have hfree := ht.free g hforeign
  unfold startOwner
  grind

theorem not_broken_begin (h : Start cfg s) : ¬ (begin s).Broken := by
  rw [(inv_begin h).broken_iff (referenced_start h)]
  obtain ⟨bound, hl, -⟩ := h.loaded
  rintro (hst | ⟨g, hg⟩)
  · exact hl.growing hst.1
  · exact noOrphan_startOwner s g hg

end Start

variable {cfg : Config} {s : Memtable.State V} {as : List (Action V)} {x : State V}

/-- A run leaves the index usable just when no error was raised in a rotation past the sentinel
and no rotation entered over a growing memtable. -/
theorem usable_iff (hs : Start cfg s) (hrun : exec (step cfg) (begin s) as = some x) :
    x.Usable ↔ Meets NoneStrands (step cfg) (begin s) as := by
  obtain ⟨own, hi, hrf, hiff⟩ := (inv_begin hs).broken_exec (referenced_start hs) hrun
  have h0 := not_broken_begin hs
  rw [hi.usable_iff_broken hrf, hiff]
  tauto

section Demo

instance (x : State V) : (a : Action V) → Decidable (NoneStrands x a)
  | .act a => inferInstanceAs (Decidable (EntersEmpty x.base a))
  | .fail t => inferInstanceAs (Decidable ((x.base.ins t).rotating = false))
  | .acquire _ | .unref _ => .isTrue trivial

/-- With room for one row, insert 1 returns and insert 2 rotates up to the allocated memtable. -/
def demoRotation : List (Action Unit) :=
  demoRun 1 6 ++ demoRun 2 6 ++ [.act (.alloc 2 1)]

/-- The rotation raises an error in `RegisterStatusMemtable`. -/
def demoRotationFails : List (Action Unit) := demoRotation ++ [.fail 2]

/-- The rotation ends and insert 2 returns. -/
def demoRotationEnds : List (Action Unit) :=
  demoRotation ++ List.replicate 9 (.act (.ins 2))

/-- After `demoRotationFails` the growing place is `ROTATING` with no rotation under way. -/
theorem not_usable : ¬ ∀ (cfg : Config) (s : Memtable.State Unit) (as : List (Action Unit))
    (x : State Unit), Start cfg s → exec (step cfg) (begin s) as = some x → x.Usable := by
  intro hall
  obtain ⟨s, hbuild, x, hrun, hidle, hgrow, h1, h2⟩ : ∃ s,
      buildLsmIndex ⟨1, 1⟩ (fun _ => zeroSlot demoRow) = some s ∧ ∃ x,
        exec (step ⟨1, 1⟩) (begin s) demoRotationFails = some x ∧ s.ins = (fun _ => .idle) ∧
        x.base.growingIdx = .rotating ∧ x.base.ins 1 = .returned demoRow ∧
        x.base.ins 2 = .idle :=
    ⟨_, rfl, _, rfl, rfl, rfl, rfl, rfl⟩
  have hnone : ∀ t, (x.base.ins t).rotating = false := by
    intro t
    by_cases ht : t = 1 ∨ t = 2
    · rcases ht with rfl | rfl
      · rw [h1]
        rfl
      · rw [h2]
        rfl
    · obtain ⟨hne1, hne2⟩ := not_or.mp ht
      have hout : ∀ a ∈ demoRotationFails, a.insert? ≠ some t := by
        simp [demoRotationFails, demoRotation, demoRun, Action.insert?, Memtable.Action.insert?,
          Ne.symm hne1, Ne.symm hne2]
      have hins : x.base.ins t = .idle := (exec_ins_of_ne hout hrun).trans (congrFun hidle t)
      rw [hins]
      rfl
  have hstart : Start ⟨1, 1⟩ s := .build (unregistered_zeroSlot _) hbuild
  exact (hall _ s _ x hstart hrun).proceeds ⟨hgrow, hnone⟩

theorem usable_iff_demoRotationEnds : ∃ s x,
    buildLsmIndex ⟨1, 1⟩ (fun _ => zeroSlot demoRow) = some s ∧
      exec (step ⟨1, 1⟩) (begin s) demoRotationEnds = some x ∧ x.base.growingIdx = .slot 1 ∧
      x.base.memtableIdxs = [0] ∧ x.Usable := by
  obtain ⟨s, hbuild, x, hrun, hgrow, hqueue, hmeets⟩ : ∃ s,
      buildLsmIndex ⟨1, 1⟩ (fun _ => zeroSlot demoRow) = some s ∧ ∃ x,
        exec (step ⟨1, 1⟩) (begin s) demoRotationEnds = some x ∧ x.base.growingIdx = .slot 1 ∧
        x.base.memtableIdxs = [0] ∧
        Meets NoneStrands (step ⟨1, 1⟩) (begin s) demoRotationEnds :=
    ⟨_, rfl, _, rfl, rfl, rfl, by decide⟩
  have hstart : Start ⟨1, 1⟩ s := .build (unregistered_zeroSlot _) hbuild
  exact ⟨s, x, hbuild, hrun, hgrow, hqueue, (usable_iff hstart hrun).mpr hmeets⟩

end Demo

end VectorLsm.Failures
