import VectorLsm.Lib.Transition
import VectorLsm.Memtable.Basic

/-! # The ready prefix

The slots of a memtable are published by any number of inserters, in any order. Each load, store
and compare-and-swap of `publish_slot_release` and `update_max_ready_id` is a step.
-/

namespace VectorLsm.ReadyPrefix

open ConcurrentMemTable Transition

variable {V : Type*}

/-- Where the publish of a slot stands. -/
inductive Pc where
  | idle
  /-- The ready flag is set. -/
  | count
  /-- Before `max_ready_id` is read. -/
  | read
  /-- `current_max` was `UINT32_MAX` and the slot is the first. -/
  | first
  /-- In the loop over the ready flags. -/
  | scan (currentMax newMax : ℕ)
  | swap (currentMax newMax : ℕ)
  | done
  deriving DecidableEq, Repr

/-- A memtable and the publishes of its slots. A slot is reserved by one inserter. -/
structure State (V : Type*) where
  mt : ConcurrentMemTable V
  pc : ℕ → Pc

namespace State

variable (s : State V)

@[simps] def setPc (i : ℕ) (pc : Pc) : State V := { s with pc := Function.update s.pc i pc }

@[simps] def setMt (mt : ConcurrentMemTable V) : State V := { s with mt := mt }

/-- The plain store to the ready flag. -/
@[simps] def storeReady (i : ℕ) : State V :=
  { s with mt := { s.mt with ready := Function.update s.mt.ready i true } }

@[simps] def addReadyCnt : State V :=
  { s with mt := { s.mt with readyCnt := s.mt.readyCnt + 1 } }

@[simps] def setMaxReadyId (m : ℕ) : State V :=
  { s with mt := { s.mt with maxReadyId := some m } }

end State

inductive Action where
  /-- `publish_slot_release` of a reserved slot begins. -/
  | publish (i : ℕ)
  | run (i : ℕ)
  deriving DecidableEq, Repr

/-- The next step of the publish of slot `i`. -/
def run (s : State V) (i : ℕ) : Option (State V) :=
  match s.pc i with
  | .idle | .done => none
  | .count => some (s.addReadyCnt.setPc i .read)
  | .read =>
      match s.mt.maxReadyId with
      | none => some (s.setPc i (if i = 0 then .first else .done))
      | some m => some (s.setPc i (if i = m + 1 then .scan m (m + 1) else .done))
  | .first =>
      match s.mt.maxReadyId with
      | none => some ((s.setMaxReadyId 0).setPc i .done)
      | some _ => some (s.setPc i .done)
  | .scan cur new =>
      if new < s.mt.capacity ∧ s.mt.ready new then some (s.setPc i (.scan cur (new + 1)))
      else if cur < new - 1 then some (s.setPc i (.swap cur (new - 1)))
      else some (s.setPc i .done)
  | .swap cur new =>
      match s.mt.maxReadyId with
      -- `UINT32_MAX` is not less than `new_max`.
      | none => some (s.setPc i .done)
      | some m =>
          if m = cur then some ((s.setMaxReadyId new).setPc i .done)
          else if m < new then some (s.setPc i (.swap m new))
          else some (s.setPc i .done)

def step (s : State V) : Action → Option (State V)
  | .publish i =>
      if s.pc i = .idle ∧ i < s.mt.capacity then some ((s.storeReady i).setPc i .count) else none
  | .run i => run s i

/-- A memtable as it is registered, no slot published yet. -/
def start (mt : ConcurrentMemTable V) (rel : Oid) (sid : SegmentId) (cap : ℕ) : State V :=
  ⟨mt.register rel sid cap, fun _ => .idle⟩

/-! ## What the watermark is for -/

/-- The number of slots up to the watermark. -/
def bound (mt : ConcurrentMemTable V) : ℕ :=
  match mt.maxReadyId with
  | none => 0
  | some m => m + 1

/-- All slots up to the watermark are published. -/
def Sound (s : State V) : Prop := ∀ m ∈ s.mt.maxReadyId, ∀ i ≤ m, s.mt.ready i = true

/-- No publish is in progress. -/
def Quiescent (s : State V) : Prop := ∀ i, s.pc i = .idle ∨ s.pc i = .done

/-- The watermark is the longest published prefix. -/
def Exact (s : State V) : Prop :=
  (∀ i < bound s.mt, s.mt.ready i = true) ∧ bound s.mt ≤ s.mt.capacity ∧
    (bound s.mt < s.mt.capacity → s.mt.ready (bound s.mt) = false)

/-- The watermark a compare-and-swap is about to store. -/
def swaps (s : State V) (i : ℕ) : Option ℕ :=
  match s.pc i, s.mt.maxReadyId with
  | .first, none => some 0
  | .swap cur new, some m => if m = cur then some new else none
  | _, _ => none

/-- The condition on a step: when it moves the watermark, the slot that comes next is not
published, or its publish has not read the watermark yet. -/
def NoneBehind (s : State V) : Action → Prop
  | .publish _ => True
  | .run i => ∀ m ∈ swaps s i, m + 1 < s.mt.capacity → s.mt.ready (m + 1) = true →
      s.pc (m + 1) = .count ∨ s.pc (m + 1) = .read

instance (s : State V) : (a : Action) → Decidable (NoneBehind s a)
  | .publish _ => .isTrue trivial
  | .run i => inferInstanceAs (Decidable (∀ m ∈ swaps s i, _))

/-! ## The invariant -/

/-- What the publish of slot `i` has found out. -/
def Knows (mt : ConcurrentMemTable V) (i : ℕ) : Pc → Prop
  | .first => i = 0 ∧ mt.maxReadyId = none
  | .scan cur new => i = cur + 1 ∧ mt.maxReadyId = some cur ∧ cur < new ∧ new ≤ mt.capacity ∧
      ∀ j < new, mt.ready j = true
  | .swap cur new => i = cur + 1 ∧ mt.maxReadyId = some cur ∧ cur < new ∧ new < mt.capacity ∧
      ∀ j ≤ new, mt.ready j = true
  | _ => True

structure Inv (s : State V) : Prop where
  begun : ∀ i < s.mt.capacity, s.mt.ready i = true ↔ s.pc i ≠ .idle
  inside : ∀ i, s.pc i ≠ .idle → i < s.mt.capacity
  bounded : bound s.mt ≤ s.mt.capacity
  published : ∀ i < bound s.mt, s.mt.ready i = true
  knows : ∀ i, Knows s.mt i (s.pc i)

/-- The next slot, if it is published, has a publish that is going to look at it. -/
def Held (s : State V) : Prop :=
  bound s.mt < s.mt.capacity → s.mt.ready (bound s.mt) = true → s.pc (bound s.mt) ≠ .done

section Steps

variable {s s' : State V} {mt mt' : ConcurrentMemTable V} {i j m : ℕ} {pc : Pc}

theorem bound_of_none (h : mt.maxReadyId = none) : bound mt = 0 := by
  rw [bound, h]

theorem bound_of_some (h : mt.maxReadyId = some m) : bound mt = m + 1 := by
  rw [bound, h]

/-- Only the publish of the next slot is going to move the watermark. -/
theorem Knows.congr (h : Knows mt i pc) (hi : i ≠ bound mt) : Knows mt' i pc := by
  cases pc with
  | idle | count | read | done => trivial
  | first =>
      obtain ⟨rfl, hm⟩ := h
      exact absurd (bound_of_none hm).symm hi
  | scan cur new =>
      obtain ⟨rfl, hm, -⟩ := h
      exact absurd (bound_of_some hm).symm hi
  | swap cur new =>
      obtain ⟨rfl, hm, -⟩ := h
      exact absurd (bound_of_some hm).symm hi

theorem Knows.mono (h : Knows mt i pc) (hmax : mt'.maxReadyId = mt.maxReadyId)
    (hcap : mt'.capacity = mt.capacity) (hready : ∀ j, mt.ready j = true → mt'.ready j = true) :
    Knows mt' i pc := by
  cases pc with
  | idle | count | read | done => trivial
  | first => exact ⟨h.1, hmax.trans h.2⟩
  | scan cur new =>
      obtain ⟨hi, hm, hlt, hle, hall⟩ := h
      exact ⟨hi, hmax.trans hm, hlt, hcap ▸ hle, fun j hj => hready j (hall j hj)⟩
  | swap cur new =>
      obtain ⟨hi, hm, hlt, hle, hall⟩ := h
      exact ⟨hi, hmax.trans hm, hlt, hcap ▸ hle, fun j hj => hready j (hall j hj)⟩

namespace Inv

theorem start (mt : ConcurrentMemTable V) (rel : Oid) (sid : SegmentId) (cap : ℕ) :
    Inv (start mt rel sid cap) where
  begun := by
    intro i hi
    have hcap : i < cap := hi
    simp [ReadyPrefix.start, hcap]
  inside := fun i hi => absurd rfl hi
  bounded := Nat.zero_le _
  published := fun i hi => absurd hi (Nat.not_lt_zero i)
  knows := fun _ => trivial

/-- A publish goes on, and the memtable stays as it is. -/
theorem setPc (h : Inv s) (hi : s.pc i ≠ .idle) (hpc : pc ≠ .idle) (hk : Knows s.mt i pc) :
    Inv (s.setPc i pc) where
  begun := by
    intro j hj
    rw [State.setPc_pc, Function.update_apply]
    split
    case isTrue hji =>
      subst hji
      simpa [hpc, hi] using h.begun j hj
    case isFalse => exact h.begun j hj
  inside := by
    intro j hj
    rw [State.setPc_pc, Function.update_apply] at hj
    split at hj
    case isTrue hji =>
      subst hji
      exact h.inside j hi
    case isFalse => exact h.inside j hj
  bounded := h.bounded
  published := h.published
  knows := by
    intro j
    rw [State.setPc_pc, Function.update_apply]
    split
    case isTrue hji =>
      subst hji
      exact hk
    case isFalse => exact h.knows j

theorem storeReady (h : Inv s) (hi : i < s.mt.capacity) :
    Inv ((s.storeReady i).setPc i .count) where
  begun := by
    intro j hj
    by_cases hji : j = i
    · subst hji
      simp
    · simpa [hji] using h.begun j hj
  inside := by
    intro j hj
    by_cases hji : j = i
    · exact hji ▸ hi
    · exact h.inside j (by simpa [hji] using hj)
  bounded := h.bounded
  published := by
    intro j hj
    by_cases hji : j = i
    · subst hji
      simp
    · simpa [hji] using h.published j hj
  knows := by
    intro j
    by_cases hji : j = i
    · subst hji
      simp [Knows]
    · have hk := h.knows j
      simp only [State.setPc_pc, Function.update_of_ne hji]
      refine hk.mono rfl rfl fun j' hj' => ?_
      by_cases hj : j' = i
      · subst hj
        simp
      · simpa [hj] using hj'

theorem addReadyCnt (h : Inv s) : Inv s.addReadyCnt :=
  ⟨h.begun, h.inside, h.bounded, h.published, h.knows⟩

/-- The publish of the next slot moves the watermark over slots that are published. -/
theorem advance (h : Inv s) (hi : i = bound s.mt) (hpc : s.pc i ≠ .idle)
    (hm : m < s.mt.capacity) (hall : ∀ j ≤ m, s.mt.ready j = true) :
    Inv ((s.setMaxReadyId m).setPc i .done) := by
  refine ⟨fun j hj => ?_, fun j hj => ?_, hm, fun j hj => hall j (Nat.lt_succ_iff.mp hj),
    fun j => ?_⟩
  · by_cases hji : j = i
    · subst hji
      simpa [hpc] using h.begun j hj
    · simpa [hji] using h.begun j hj
  · by_cases hji : j = i
    · exact hji ▸ h.inside i hpc
    · exact h.inside j (by simpa [hji] using hj)
  · by_cases hji : j = i
    · subst hji
      simp [Knows]
    · simp only [State.setPc_pc, Function.update_of_ne hji]
      exact (h.knows j).congr (hi ▸ hji)

/-- A publish that has read the watermark and still wants to move it is that of the next slot. -/
theorem eq_bound (h : Inv s) (hpc : s.pc i = pc) (hlook : pc = .first ∨
    (∃ cur new, pc = .scan cur new) ∨ ∃ cur new, pc = .swap cur new) : i = bound s.mt := by
  have hk := h.knows i
  rw [hpc] at hk
  rcases hlook with rfl | ⟨cur, new, rfl⟩ | ⟨cur, new, rfl⟩
  · rw [bound_of_none hk.2, hk.1]
  · rw [bound_of_some hk.2.1, hk.1]
  · rw [bound_of_some hk.2.1, hk.1]

theorem held_setPc (hi : s.pc i ≠ .done) (hpc : pc = .done → i ≠ bound s.mt) :
    Held (s.setPc i pc) ↔ Held s := by
  unfold Held
  simp only [State.setPc_mt, State.setPc_pc, Function.update_apply]
  split
  case isTrue hb =>
    subst hb
    exact iff_of_true (fun _ _ hd => hpc hd rfl) fun _ _ => hi
  case isFalse => rfl

theorem held_advance (h : Inv s) (hi : i = bound s.mt) (hpc : s.pc i ≠ .done) (hm : i ≤ m) :
    Held ((s.setMaxReadyId m).setPc i .done) ↔ Held s ∧
      (m + 1 < s.mt.capacity → s.mt.ready (m + 1) = true →
        s.pc (m + 1) = .count ∨ s.pc (m + 1) = .read) := by
  have hheld : Held s := fun _ _ => hi ▸ hpc
  have hne : m + 1 ≠ i := by omega
  have hbound : bound ((s.setMaxReadyId m).setPc i .done).mt = m + 1 := rfl
  have hpc' : ((s.setMaxReadyId m).setPc i .done).pc (m + 1) = s.pc (m + 1) :=
    Function.update_of_ne hne _ _
  refine Iff.trans ?_ (and_iff_right hheld).symm
  rw [Held, hbound, hpc']
  refine forall_congr' fun hcap => forall_congr' fun hready => ?_
  have hidle := (h.begun _ hcap).mp hready
  have hlook : ¬ m + 1 = bound s.mt := fun he => hne (he.trans hi.symm)
  cases hnext : s.pc (m + 1) with
  | idle => exact absurd hnext hidle
  | count | read => simp
  | first => exact absurd (h.eq_bound hnext (.inl rfl)) hlook
  | scan cur new => exact absurd (h.eq_bound hnext (.inr (.inl ⟨cur, new, rfl⟩))) hlook
  | swap cur new => exact absurd (h.eq_bound hnext (.inr (.inr ⟨cur, new, rfl⟩))) hlook
  | done => simp

/-- A step of a publish that leaves the memtable as it is. -/
theorem goes (h : Inv s) (hi : s.pc i ≠ .idle) (hd : s.pc i ≠ .done) (hpc : pc ≠ .idle)
    (hk : Knows s.mt i pc) (hlast : pc = .done → i ≠ bound s.mt) (hswap : swaps s i = none) :
    Inv (s.setPc i pc) ∧ (Held (s.setPc i pc) ↔ Held s ∧ NoneBehind s (.run i)) := by
  refine ⟨h.setPc hi hpc hk, ?_⟩
  have hnone : NoneBehind s (.run i) := fun m hm => by simp [hswap] at hm
  rw [held_setPc hd hlast]
  exact (and_iff_left hnone).symm

theorem moves (h : Inv s) (hi : i = bound s.mt) (hidle : s.pc i ≠ .idle) (hd : s.pc i ≠ .done)
    (hm : m < s.mt.capacity) (hall : ∀ j ≤ m, s.mt.ready j = true) (him : i ≤ m)
    (hswap : swaps s i = some m) :
    Inv ((s.setMaxReadyId m).setPc i .done) ∧
      (Held ((s.setMaxReadyId m).setPc i .done) ↔ Held s ∧ NoneBehind s (.run i)) := by
  refine ⟨h.advance hi hidle hm hall, ?_⟩
  rw [h.held_advance hi hd him]
  unfold NoneBehind
  simp only [hswap, Option.mem_some_iff, forall_eq']

theorem run (h : Inv s) (hs : ReadyPrefix.run s i = some s') :
    Inv s' ∧ (Held s' ↔ Held s ∧ NoneBehind s (.run i)) := by
  have hk := h.knows i
  unfold ReadyPrefix.run at hs
  split at hs
  case h_1 | h_2 => cases hs
  case h_3 hpc =>
    obtain rfl := Option.some.inj hs
    have hidle : s.addReadyCnt.pc i ≠ .idle := by simp [hpc]
    have hdone : s.addReadyCnt.pc i ≠ .done := by simp [hpc]
    have hswap : swaps s.addReadyCnt i = none := by simp [swaps, hpc]
    exact h.addReadyCnt.goes hidle hdone nofun trivial nofun hswap
  case h_4 hpc =>
    have hidle : s.pc i ≠ .idle := by simp [hpc]
    have hdone : s.pc i ≠ .done := by simp [hpc]
    have hswap : swaps s i = none := by simp [swaps, hpc]
    split at hs
    case h_1 hmax =>
      obtain rfl := Option.some.inj hs
      split
      case isTrue hi => exact h.goes hidle hdone nofun ⟨hi, hmax⟩ nofun hswap
      case isFalse hi =>
        exact h.goes hidle hdone nofun trivial (fun _ => by rwa [bound_of_none hmax]) hswap
    case h_2 m hmax =>
      obtain rfl := Option.some.inj hs
      split
      case isTrue hi =>
        refine h.goes hidle hdone nofun ⟨hi, hmax, Nat.lt_succ_self m, ?_, fun j hj => ?_⟩ nofun
          hswap
        · exact bound_of_some hmax ▸ h.bounded
        · exact h.published j (by rwa [bound_of_some hmax])
      case isFalse hi =>
        exact h.goes hidle hdone nofun trivial (fun _ => by rwa [bound_of_some hmax]) hswap
  case h_5 hpc =>
    rw [hpc] at hk
    obtain ⟨rfl, hmax⟩ := hk
    rw [hmax] at hs
    obtain rfl := Option.some.inj hs
    have hidle : s.pc 0 ≠ .idle := by simp [hpc]
    have hcap := h.inside 0 hidle
    refine h.moves (bound_of_none hmax).symm hidle (by simp [hpc]) hcap (fun j hj => ?_) le_rfl
      (by simp [swaps, hpc, hmax])
    obtain rfl := Nat.le_zero.mp hj
    exact (h.begun 0 hcap).mpr hidle
  case h_6 cur new hpc =>
    rw [hpc] at hk
    obtain ⟨rfl, hmax, hlt, hle, hall⟩ := hk
    have hidle : s.pc (cur + 1) ≠ .idle := by simp [hpc]
    have hdone : s.pc (cur + 1) ≠ .done := by simp [hpc]
    have hswap : swaps s (cur + 1) = none := by simp [swaps, hpc]
    split at hs
    case isTrue hnew =>
      obtain rfl := Option.some.inj hs
      refine h.goes hidle hdone nofun ⟨rfl, hmax, Nat.lt_succ_of_lt hlt, hnew.1, ?_⟩ nofun hswap
      intro j hj
      rcases Nat.lt_succ_iff_lt_or_eq.mp hj with hj | rfl
      · exact hall j hj
      · exact hnew.2
    case isFalse hnew =>
      -- the slot itself is published
      have hself : new ≠ cur + 1 := by
        rintro rfl
        have hcap := h.inside _ hidle
        exact hnew ⟨hcap, (h.begun _ hcap).mpr hidle⟩
      have hgt : cur < new - 1 := by omega
      rw [if_pos hgt] at hs
      obtain rfl := Option.some.inj hs
      exact h.goes hidle hdone nofun
        ⟨rfl, hmax, hgt, by omega, fun j hj => hall j (by omega)⟩ nofun hswap
  case h_7 cur new hpc =>
    rw [hpc] at hk
    obtain ⟨rfl, hmax, hlt, hcap, hall⟩ := hk
    rw [hmax] at hs
    dsimp only at hs
    rw [if_pos rfl] at hs
    obtain rfl := Option.some.inj hs
    exact h.moves (bound_of_some hmax).symm (by simp [hpc]) (by simp [hpc]) hcap hall hlt
      (by simp [swaps, hpc, hmax])

theorem step {a : Action} (h : Inv s) (hs : step s a = some s') :
    Inv s' ∧ (Held s' ↔ Held s ∧ NoneBehind s a) := by
  cases a with
  | publish i =>
      simp only [ReadyPrefix.step] at hs
      split at hs
      case isTrue hi =>
        obtain rfl := Option.some.inj hs
        refine ⟨h.storeReady hi.2, ?_⟩
        rw [and_iff_left (by trivial)]
        unfold Held
        by_cases hb : bound s.mt = i
        · refine iff_of_true (fun _ _ => ?_) fun _ _ => ?_
          · have hb' : bound ((s.storeReady i).setPc i .count).mt = i := hb
            rw [hb']
            simp
          · rw [hb, hi.1]
            nofun
        · have hb' : bound ((s.storeReady i).setPc i .count).mt = bound s.mt := rfl
          rw [hb']
          simp [hb]
      case isFalse => cases hs
  | run i => exact h.run hs

end Inv

/-- In every run from a state that meets the invariant. -/
theorem exec_held {as : List Action} (h : Inv s) (hs : exec step s as = some s') :
    Inv s' ∧ (Held s' ↔ Held s ∧ Meets NoneBehind step s as) := by
  induction as generalizing s with
  | nil =>
      obtain rfl := Option.some.inj hs
      exact ⟨h, by simp [Meets]⟩
  | cons a as ih =>
      obtain ⟨u, hu, hs⟩ := Option.bind_eq_some_iff.mp hs
      obtain ⟨hinv, hheld⟩ := h.step hu
      obtain ⟨hinv', hheld'⟩ := ih hinv hs
      refine ⟨hinv', hheld'.trans ?_⟩
      rw [hheld, and_assoc]
      simp [Meets, hu]

theorem Inv.sound (h : Inv s) : Sound s :=
  fun _ hm i hi => h.published i (by rw [bound_of_some hm]; exact Nat.lt_succ_of_le hi)

theorem Inv.exact_iff (h : Inv s) (hq : Quiescent s) : Exact s ↔ Held s := by
  constructor
  · rintro ⟨-, -, hlast⟩ hcap hready
    rw [hlast hcap] at hready
    cases hready
  · intro hheld
    refine ⟨h.published, h.bounded, fun hcap => ?_⟩
    by_contra hready
    have hready := Bool.eq_true_of_not_eq_false hready
    rcases hq (bound s.mt) with hpc | hpc
    · exact (h.begun _ hcap).mp hready hpc
    · exact hheld hcap hready hpc

end Steps

/-! ## A publish that nobody comes between -/

section Alone

variable {s : State V} {i cur m : ℕ}

theorem le_extendReady (ready : ℕ → Bool) (cap fuel m : ℕ) :
    m ≤ extendReady ready cap fuel m := by
  induction fuel generalizing m with
  | zero => exact le_rfl
  | succ fuel ih =>
      rw [extendReady]
      split
      · exact (Nat.le_succ m).trans (ih (m + 1))
      · exact le_rfl

theorem lt_extendReady {ready : ℕ → Bool} {cap : ℕ} (hcap : m + 1 < cap)
    (hready : ready (m + 1) = true) : m < extendReady ready cap cap m := by
  obtain ⟨cap', rfl⟩ := Nat.exists_eq_succ_of_ne_zero (Nat.ne_zero_of_lt hcap)
  rw [extendReady, if_pos ⟨hcap, hready⟩]
  exact le_extendReady ready _ cap' (m + 1)

/-- The loop over the ready flags. -/
theorem exec_scan {fuel : ℕ} (hpc : s.pc i = .scan cur (m + 1))
    (hfuel : s.mt.capacity ≤ m + fuel + 1) :
    ∃ n, exec step s (List.replicate n (.run i)) =
      some (s.setPc i (.scan cur (extendReady s.mt.ready s.mt.capacity fuel m + 1))) ∧
      ¬ (extendReady s.mt.ready s.mt.capacity fuel m + 1 < s.mt.capacity ∧
        s.mt.ready (extendReady s.mt.ready s.mt.capacity fuel m + 1) = true) := by
  have hself : s.setPc i (.scan cur (m + 1)) = s := by
    rw [State.setPc, ← hpc, Function.update_eq_self]
  induction fuel generalizing s m with
  | zero =>
      refine ⟨0, ?_, fun h => absurd h.1 (Nat.not_lt.mpr hfuel)⟩
      exact congrArg some hself.symm
  | succ fuel ih =>
      rw [extendReady]
      split
      case isTrue hready =>
        have hstep : step s (.run i) = some (s.setPc i (.scan cur (m + 1 + 1))) := by
          simp only [step, run, hpc]
          rw [if_pos hready]
        obtain ⟨n, hn, hend⟩ := ih (s := s.setPc i (.scan cur (m + 1 + 1))) (m := m + 1)
          (Function.update_self ..) (by simpa using by omega)
          (by simp [State.setPc, Function.update_idem])
        refine ⟨n + 1, ?_, hend⟩
        rw [List.replicate_succ, exec_cons, hstep, Option.bind_some, hn]
        simp [State.setPc, Function.update_idem]
      case isFalse hready => exact ⟨0, congrArg some hself.symm, hready⟩

/-- All of its steps together are `publishSlotRelease`. -/
theorem exec_publish (hpc : s.pc i = .idle) (hi : i < s.mt.capacity) :
    ∃ n, exec step s (.publish i :: List.replicate n (.run i)) =
      some ((s.setMt (s.mt.publishSlotRelease i)).setPc i .done) := by
  have hstore : step s (.publish i) = some ((s.storeReady i).setPc i .count) := by
    simp only [step]
    rw [if_pos ⟨hpc, hi⟩]
  obtain ⟨u, hu⟩ : ∃ u : State V, u = (s.setMt (s.mt.setReady i)).setPc i .read := ⟨_, rfl⟩
  have hcount : step ((s.storeReady i).setPc i .count) (.run i) = some u := by
    rw [hu]
    simp [step, run, State.setPc, State.storeReady, State.addReadyCnt, State.setMt, setReady]
  have hfirst (k : ℕ) : exec step s (.publish i :: List.replicate (k + 1) (.run i)) =
      exec step u (List.replicate k (.run i)) := by
    rw [exec_cons, hstore, Option.bind_some, List.replicate_succ, exec_cons, hcount,
      Option.bind_some]
  have hupc : u.pc i = .read := by simp [hu]
  have humax : u.mt.maxReadyId = s.mt.maxReadyId := by simp [hu, setReady]
  have hlast (x : Option ℕ) (hx : (s.mt.setReady i).updateMaxReadyId i = x) :
      State.setPc ⟨{ u.mt with maxReadyId := x }, u.pc⟩ i .done =
        (s.setMt (s.mt.publishSlotRelease i)).setPc i .done := by
    rw [publishSlotRelease, hx, hu]
    simp [State.setPc, State.setMt, Function.update_idem]
  have hkeep (hx : (s.mt.setReady i).updateMaxReadyId i = s.mt.maxReadyId) :
      u.setPc i .done = (s.setMt (s.mt.publishSlotRelease i)).setPc i .done := by
    rw [← hlast _ hx, ← humax]
  cases hmax : s.mt.maxReadyId with
  | none =>
      by_cases hi0 : i = 0
      · subst hi0
        have hread : step u (.run 0) = some (u.setPc 0 .first) := by
          simp [step, run, hupc, humax, hmax]
        have hswap : step (u.setPc 0 .first) (.run 0) =
            some ((u.setMaxReadyId 0).setPc 0 .done) := by
          simp [step, run, humax, hmax, State.setPc, State.setMaxReadyId, Function.update_idem]
        refine ⟨3, ?_⟩
        rw [hfirst, List.replicate_succ, exec_cons, hread, Option.bind_some, List.replicate_succ,
          exec_cons, hswap, Option.bind_some]
        exact congrArg some (hlast (some 0) (by simp [updateMaxReadyId, setReady, hmax]))
      · have hread : step u (.run i) = some (u.setPc i .done) := by
          simp [step, run, hupc, humax, hmax, hi0]
        refine ⟨2, ?_⟩
        rw [hfirst, List.replicate_succ, exec_cons, hread, Option.bind_some]
        exact congrArg some (hkeep (by simp [updateMaxReadyId, setReady, hmax, hi0]))
  | some m =>
      by_cases him : i = m + 1
      · subst him
        have hread : step u (.run (m + 1)) = some (u.setPc (m + 1) (.scan m (m + 1))) := by
          simp [step, run, hupc, humax, hmax]
        have hready : u.mt.ready = (s.mt.setReady (m + 1)).ready := by
          rw [hu]
          rfl
        have hcap : u.mt.capacity = s.mt.capacity := by
          rw [hu]
          rfl
        have hfuel : (u.setPc (m + 1) (.scan m (m + 1))).mt.capacity ≤ m + s.mt.capacity + 1 := by
          rw [State.setPc_mt, hcap]
          omega
        obtain ⟨n, hn, hend⟩ := exec_scan (Function.update_self ..) hfuel
        obtain ⟨e, he⟩ : ∃ e, extendReady u.mt.ready u.mt.capacity s.mt.capacity m = e :=
          ⟨_, rfl⟩
        have hgt : m < e := by
          rw [← he, hready, hcap]
          exact lt_extendReady hi (by simp [setReady])
        rw [State.setPc_mt, he] at hn hend
        have hpcs (pc pc' : Pc) : (u.setPc (m + 1) pc).setPc (m + 1) pc' = u.setPc (m + 1) pc' := by
          simp [State.setPc]
        rw [hpcs] at hn
        have hexit : step (u.setPc (m + 1) (.scan m (e + 1))) (.run (m + 1)) =
            some (u.setPc (m + 1) (.swap m e)) := by
          simp only [step, run, State.setPc_pc, Function.update_self, State.setPc_mt]
          rw [if_neg hend, Nat.add_sub_cancel, if_pos hgt, hpcs]
        have hswap : step (u.setPc (m + 1) (.swap m e)) (.run (m + 1)) =
            some ((u.setMaxReadyId e).setPc (m + 1) .done) := by
          simp [step, run, humax, hmax, State.setPc, State.setMaxReadyId]
        refine ⟨n + 2 + 2, ?_⟩
        rw [hfirst, List.replicate_succ, exec_cons, hread, Option.bind_some, List.replicate_add,
          exec_append, hn, Option.bind_some, List.replicate_succ, exec_cons, hexit,
          Option.bind_some, List.replicate_succ, exec_cons, hswap, Option.bind_some]
        refine congrArg some (hlast (some e) ?_)
        rw [← he, hready, hcap]
        simp [updateMaxReadyId, setReady, hmax]
      · have hread : step u (.run i) = some (u.setPc i .done) := by
          simp [step, run, hupc, humax, hmax, him]
        refine ⟨2, ?_⟩
        rw [hfirst, List.replicate_succ, exec_cons, hread, Option.bind_some]
        exact congrArg some (hkeep (by simp [updateMaxReadyId, setReady, hmax, him]))

end Alone

/-! ## Any order of publishes -/

section Runs

variable {mt : ConcurrentMemTable V} {rel : Oid} {sid : SegmentId} {cap : ℕ} {s : State V}
  {as : List Action}

/-- The watermark is sound at every moment, and when no publish is in progress it is exact if and
only if every step of the run has met the condition. -/
theorem sound_and_exact_iff (h : exec step (start mt rel sid cap) as = some s) :
    Sound s ∧ (Quiescent s → (Exact s ↔ Meets NoneBehind step (start mt rel sid cap) as)) := by
  obtain ⟨hinv, hheld⟩ := exec_held (Inv.start mt rel sid cap) h
  refine ⟨hinv.sound, fun hq => ?_⟩
  have hstart : Held (start mt rel sid cap) := fun _ _ => nofun
  rw [hinv.exact_iff hq, hheld, and_iff_right hstart]

end Runs

section Demo

def demoMemtable : ConcurrentMemTable Unit :=
  ⟨0, 0, 0, 0, 0, false, false, none, fun _ => ⟨0, ()⟩, fun _ => false, fun _ => false,
    fun _ => none⟩

def demoStart : State Unit := start demoMemtable 1 4 3

/-- The publish of a slot with `n` more steps. -/
def demoPublish (i n : ℕ) : List Action := .publish i :: List.replicate n (.run i)

/-- The third slot is published between the first and the second. -/
def demoCaughtUp : List Action := demoPublish 0 3 ++ demoPublish 2 2 ++ demoPublish 1 6

/-- The second slot is published before the first. -/
def demoBehind : List Action := demoPublish 1 2 ++ demoPublish 0 3

def demoView (s : State Unit) : Option ℕ × List Bool × List Pc :=
  (s.mt.maxReadyId, (List.range 3).map s.mt.ready, (List.range 3).map s.pc)

theorem demo_quiescent {as : List Action} {s : State Unit} (h : exec step demoStart as = some s)
    (hcap : s.mt.capacity = 3) (hpc : ∀ pc ∈ (List.range 3).map s.pc, pc = .idle ∨ pc = .done) :
    Quiescent s := by
  intro i
  by_cases hi : i < 3
  · exact hpc _ (List.mem_map_of_mem (List.mem_range.mpr hi))
  · have hinv := (exec_held (Inv.start _ _ _ _) h).1
    by_contra hne
    exact hi (hcap ▸ hinv.inside i fun hidle => hne (.inl hidle))

/-- Two slots are published, and the watermark stays at the first. -/
theorem not_sound_and_exact : ¬ ∀ (s : State Unit) (as : List Action),
    exec step demoStart as = some s → Sound s ∧ (Quiescent s → Exact s) := by
  intro hall
  have he : (exec step demoStart demoBehind).map (fun s => (demoView s, s.mt.capacity)) =
      some ((some 0, [true, true, false], [.done, .done, .idle]), 3) := by
    decide +kernel
  obtain ⟨s, hs, hv⟩ := Option.map_eq_some_iff.mp he
  simp only [demoView, Prod.mk.injEq] at hv
  obtain ⟨⟨hmax, hready, hpc⟩, hcap⟩ := hv
  have hq := demo_quiescent hs hcap (by rw [hpc]; decide)
  obtain ⟨-, -, hlast⟩ := (hall s demoBehind hs).2 hq
  rw [bound_of_some hmax, hcap] at hlast
  have hone : s.mt.ready 1 = true := by
    have hmem : (1, s.mt.ready 1) ∈ ((List.range 3).zip ((List.range 3).map s.mt.ready)) := by
      simp [List.range_succ]
    rw [hready] at hmem
    simpa [List.range_succ] using hmem
  rw [hlast (by decide)] at hone
  cases hone

theorem sound_and_exact_iff_demoCaughtUp : ∃ s, exec step demoStart demoCaughtUp = some s ∧
    s.mt.maxReadyId = some 2 ∧ Sound s ∧ Exact s := by
  have he : (exec step demoStart demoCaughtUp).map (fun s => (demoView s, s.mt.capacity)) =
      some ((some 2, [true, true, true], [.done, .done, .done]), 3) := by
    decide +kernel
  obtain ⟨s, hs, hv⟩ := Option.map_eq_some_iff.mp he
  simp only [demoView, Prod.mk.injEq] at hv
  obtain ⟨⟨hmax, hready, hpc⟩, hcap⟩ := hv
  obtain ⟨hsound, hexact⟩ := sound_and_exact_iff hs
  have hq := demo_quiescent hs hcap (by rw [hpc]; decide)
  have hm : Meets NoneBehind step demoStart demoCaughtUp := by decide +kernel
  exact ⟨s, hs, hmax, hsound, (hexact hq).mpr hm⟩

end Demo

end VectorLsm.ReadyPrefix
