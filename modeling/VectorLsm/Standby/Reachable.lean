import VectorLsm.Standby.Memtables

/-! # No memtable of a standby is dropped

Where there is room for each memtable that is registered, in the buffer and in the array of its
index, none is lost before a segment covers it.
-/

namespace VectorLsm.Standby

open Transition

variable {V : Type*}

/-- There is room: a free slot for a new memtable, a free entry for the one that is sealed; and
a row is redone within the capacity, in a slot that no other row was redone in. -/
def Room (s : State V) : Action V → Prop
  | .register rel sid =>
      s.findMemtableBySid rel sid = none →
        (Covered s rel sid ∨ s.loaded rel = true ∧ s.freeSlot.isSome) ∧
          (s.loaded rel = true → s.freeSlot.isSome →
            (s.lsm rel).growingIdx = .invalid ∨ (s.lsm rel).memtableIdxs.length < memtableNum)
  | .add rel sid i r =>
      Covered s rel sid ∨ s.loaded rel = true ∧
        (∀ g ∈ s.findMemtableBySid rel sid, i < (s.mt g).capacity) ∧
          ∀ e ∈ s.redone, e.1 = rel → e.2.1 = sid → e.2.2.1 = i → e.2.2.2 = r
  | _ => True

/-- How often a slot is held. -/
def heldCount (s : State V) (g : SlotIdx) : ℕ := (s.held.map (·.2)).count g

/-- Each memtable is in one place, and each reference is accounted for. -/
structure Sound (s : State V) : Prop where
  nodup : ∀ rel, (s.tables rel).Nodup
  disjoint : ∀ rel rel' g, g ∈ s.tables rel → g ∈ s.tables rel' → rel = rel'
  owned : ∀ rel g, g ∈ s.tables rel → (s.slots g).refCount = 1 + heldCount s g
  unowned : ∀ g, (∀ rel, g ∉ s.tables rel) → (s.slots g).refCount = heldCount s g
  ids : ∀ rel, ∀ g ∈ s.tables rel, ∀ h ∈ s.tables rel,
    (s.mt g).memtableId = (s.mt h).memtableId → g = h

/-- The memtable of a sid with what was redone of it. -/
def Present (s : State V) (rel : Oid) (sid : SegmentId) (g : SlotIdx) : Prop :=
  g ∈ s.tables rel ∧ (s.mt g).memtableId = sid ∧ ∀ i r, (rel, sid, i, r) ∈ s.redone →
    (s.mt g).rows i = r ∧ (s.mt g).ready i = true ∧ i < (s.mt g).validSize

structure Inv (s : State V) : Prop where
  sound : Sound s
  present : ∀ rel sid, (rel, sid) ∈ s.registered → ¬ Covered s rel sid →
    ∃ g, Present s rel sid g
  logged : ∀ rel sid i r, (rel, sid, i, r) ∈ s.redone → (rel, sid) ∈ s.registered

/-- A standby whose indexes hold some memtables, before it redoes any record. -/
structure Start (s : State V) : Prop where
  sound : Sound s
  present : ∀ rel sid, (rel, sid) ∈ s.registered → ¬ Covered s rel sid →
    ∃ g ∈ s.tables rel, (s.mt g).memtableId = sid
  redone : s.redone = []

variable {s s' : State V} {rel : Oid} {sid : SegmentId} {g : SlotIdx} {cap : Oid → ℕ} {i : ℕ}
  {r : Row V} {a : Action V}

section LSMIndex

variable {lsm : LSMIndex}

theorem tables_enqueue (h : lsm.memtableIdxs.length < memtableNum) (g : SlotIdx) :
    (lsm.enqueue g).tables.Perm (g :: lsm.tables) := by
  have hp : (lsm.memtableIdxs ++ [g]).Perm (g :: lsm.memtableIdxs) :=
    List.perm_append_singleton g _
  unfold LSMIndex.enqueue LSMIndex.tables
  rw [if_pos h]
  cases lsm.growingIdx with
  | slot k => exact (hp.cons k).trans (List.Perm.swap g k _)
  | _ => exact hp

theorem tables_wire (h : lsm.growingIdx = .invalid ∨ lsm.memtableIdxs.length < memtableNum)
    (g : SlotIdx) (sid : SegmentId) : (lsm.wire g sid).tables.Perm (g :: lsm.tables) := by
  unfold LSMIndex.wire
  split
  · cases hg : lsm.growingIdx with
    | slot prev =>
        have hlt := h.resolve_left (by simp [hg])
        have hp : (lsm.enqueue prev).memtableIdxs.Perm lsm.tables := by
          unfold LSMIndex.enqueue LSMIndex.tables
          rw [if_pos hlt, hg]
          exact List.perm_append_singleton prev _
        exact hp.cons g
    | _ =>
        unfold LSMIndex.tables
        rw [hg]
  · next hnot => exact tables_enqueue (h.resolve_left fun hg => hnot (Or.inr hg)) g

theorem tables_release (gone : SlotIdx → Bool) :
    (lsm.release gone).tables = lsm.tables.filter fun g => !gone g := by
  unfold LSMIndex.release LSMIndex.tables
  cases hg : lsm.growingIdx with
  | slot g =>
      by_cases hgone : gone g = true
      · simp [hgone]
      · simp [hgone]
  | _ => simp

end LSMIndex

section Find

theorem findMemtableBySid_eq_none (h : s.findMemtableBySid rel sid = none) :
    ∀ g ∈ s.tables rel, (s.mt g).memtableId ≠ sid := by
  intro g hg
  simpa using List.find?_eq_none.mp h g hg

theorem findMemtableBySid_eq_some (h : s.findMemtableBySid rel sid = some g) :
    g ∈ s.tables rel ∧ (s.mt g).memtableId = sid :=
  ⟨List.mem_of_find?_eq_some h, by simpa using List.find?_some h⟩

theorem Sound.find (h : Sound s) (hg : g ∈ s.tables rel) (hid : (s.mt g).memtableId = sid) :
    s.findMemtableBySid rel sid = some g := by
  cases hf : s.findMemtableBySid rel sid with
  | none => exact absurd hid (findMemtableBySid_eq_none hf g hg)
  | some k =>
      obtain ⟨hk, hkid⟩ := findMemtableBySid_eq_some hf
      rw [h.ids rel k hk g hg (hkid.trans hid.symm)]

theorem freeSlot_eq_some (h : s.freeSlot = some g) : (s.slots g).refCount = 0 := by
  simpa using List.find?_some h

/-- A slot without a reference belongs to nobody. -/
theorem Sound.not_mem_of_free (h : Sound s) (hg : (s.slots g).refCount = 0) (rel : Oid) :
    g ∉ s.tables rel := by
  intro hm
  have := h.owned rel g hm
  omega

end Find

/-- A memtable that reads as before: it may have been sealed. -/
structure Same (mt mt' : ConcurrentMemTable V) : Prop where
  id : mt'.memtableId = mt.memtableId
  rows : mt'.rows = mt.rows
  ready : mt'.ready = mt.ready
  size : mt'.validSize = mt.validSize

/-- What a registration does that finds room: slot `g` is the new memtable. -/
structure Allocated (s s' : State V) (rel : Oid) (sid : SegmentId) (g : SlotIdx) : Prop where
  tables : (s'.tables rel).Perm (g :: s.tables rel)
  others : ∀ rel', rel' ≠ rel → s'.tables rel' = s.tables rel'
  count : (s'.slots g).refCount = 1
  id : (s'.mt g).memtableId = sid
  counts : ∀ h, h ≠ g → (s'.slots h).refCount = (s.slots h).refCount
  same : ∀ h, h ≠ g → Same (s.mt h) (s'.mt h)
  free : (s.slots g).refCount = 0
  absent : ∀ h ∈ s.tables rel, (s.mt h).memtableId ≠ sid
  held : s'.held = s.held
  redone : s'.redone = s.redone
  adopted : s'.adopted = s.adopted

theorem same_setSealed (mt : ConcurrentMemTable V) : Same mt mt.setSealed := ⟨rfl, rfl, rfl, rfl⟩

theorem Same.refl (mt : ConcurrentMemTable V) : Same mt mt := ⟨rfl, rfl, rfl, rfl⟩

/-- Sealing a memtable leaves the allocation as it is. -/
theorem Allocated.setSealed (h : Allocated s s' rel sid g) (k : SlotIdx) :
    Allocated s (s'.setMt k (s'.mt k).setSealed) rel sid g where
  tables := h.tables
  others := h.others
  count := by
    rw [State.setMt_slots, Function.update_apply]
    split
    · next hk => exact hk ▸ h.count
    · exact h.count
  id := by
    unfold State.mt
    rw [State.setMt_slots, Function.update_apply]
    split
    · next hk => exact hk ▸ h.id
    · exact h.id
  counts := by
    intro k' hk'
    rw [State.setMt_slots, Function.update_apply]
    split
    · next hk => exact hk ▸ h.counts k' hk'
    · exact h.counts k' hk'
  same := by
    intro k' hk'
    obtain ⟨h₁, h₂, h₃, h₄⟩ := h.same k' hk'
    unfold State.mt
    rw [State.setMt_slots, Function.update_apply]
    split
    · next hk =>
      subst hk
      exact ⟨h₁, h₂, h₃, h₄⟩
    · exact ⟨h₁, h₂, h₃, h₄⟩
  free := h.free
  absent := h.absent
  held := h.held
  redone := h.redone
  adopted := h.adopted

theorem allocated_wire (hfree : (s.slots g).refCount = 0)
    (habsent : ∀ h ∈ s.tables rel, (s.mt h).memtableId ≠ sid)
    (hroom : (s.lsm rel).growingIdx = .invalid ∨
      (s.lsm rel).memtableIdxs.length < memtableNum) :
    Allocated s ((s.registerAndSetMemtable cap rel sid g).setLsm rel ((s.lsm rel).wire g sid))
      rel sid g where
  tables := by
    unfold State.tables
    rw [State.setLsm_lsm, Function.update_self]
    exact tables_wire hroom g sid
  others := by
    intro rel' hrel
    unfold State.tables
    rw [State.setLsm_lsm, Function.update_of_ne hrel]
    rfl
  count := by simp [State.registerAndSetMemtable]
  id := by simp [State.registerAndSetMemtable, State.mt]
  counts := by
    intro k hk
    simp [State.registerAndSetMemtable, hk]
  same := by
    intro k hk
    have he : ((s.registerAndSetMemtable cap rel sid g).setLsm rel
        ((s.lsm rel).wire g sid)).mt k = s.mt k := by
      simp [State.registerAndSetMemtable, State.mt, hk]
    exact he ▸ Same.refl _
  free := hfree
  absent := habsent
  held := rfl
  redone := rfl
  adopted := rfl

theorem registerMemtable_cases
    (hroom : s.loaded rel = true → s.freeSlot.isSome → s.findMemtableBySid rel sid = none →
      (s.lsm rel).growingIdx = .invalid ∨ (s.lsm rel).memtableIdxs.length < memtableNum) :
    s.registerMemtable cap rel sid = s ∧
        (s.loaded rel = false ∨ (s.findMemtableBySid rel sid).isSome ∨ s.freeSlot = none) ∨
      ∃ g, Allocated s (s.registerMemtable cap rel sid) rel sid g := by
  unfold State.registerMemtable
  split
  · exact Or.inl ⟨rfl, Or.inl ‹_›⟩
  · next hl =>
    split
    · exact Or.inl ⟨rfl, Or.inr (Or.inl ‹_›)⟩
    · next hf =>
      split
      · exact Or.inl ⟨rfl, Or.inr (Or.inr ‹_›)⟩
      · next g hg =>
        right
        have hfind : s.findMemtableBySid rel sid = none := by simpa using hf
        have hroom := hroom (by simpa using hl) (by simp [hg]) hfind
        have ha := @allocated_wire V s rel sid g cap (freeSlot_eq_some hg)
          (findMemtableBySid_eq_none hfind) hroom
        refine ⟨g, ?_⟩
        dsimp only
        split
        · exact ha
        · exact ha.setSealed _

theorem Allocated.mem_tables (ha : Allocated s s' rel sid g) {rel' : Oid} {k : SlotIdx} :
    k ∈ s'.tables rel' ↔ rel' = rel ∧ k = g ∨ k ∈ s.tables rel' := by
  rcases eq_or_ne rel' rel with rfl | hne
  · rw [ha.tables.mem_iff, List.mem_cons]
    simp
  · rw [ha.others rel' hne]
    simp [hne]

/-- A reference is added for the new memtable; the others are where they were. -/
theorem Allocated.sound (ha : Allocated s s' rel sid g) (h : Sound s) : Sound s' where
  nodup := by
    intro rel'
    rcases eq_or_ne rel' rel with rfl | hne
    · rw [ha.tables.nodup_iff, List.nodup_cons]
      exact ⟨h.not_mem_of_free ha.free rel', h.nodup rel'⟩
    · rw [ha.others rel' hne]
      exact h.nodup rel'
  disjoint := by
    intro r₁ r₂ k h₁ h₂
    rcases ha.mem_tables.mp h₁ with ⟨rfl, rfl⟩ | h₁
    · rcases ha.mem_tables.mp h₂ with ⟨rfl, -⟩ | h₂
      · rfl
      · exact absurd h₂ (h.not_mem_of_free ha.free r₂)
    · rcases ha.mem_tables.mp h₂ with ⟨rfl, rfl⟩ | h₂
      · exact absurd h₁ (h.not_mem_of_free ha.free r₁)
      · exact h.disjoint r₁ r₂ k h₁ h₂
  owned := by
    intro rel' k hk
    have hheld : heldCount s' k = heldCount s k := by rw [heldCount, ha.held, heldCount]
    rw [hheld]
    rcases ha.mem_tables.mp hk with ⟨rfl, rfl⟩ | hk
    · have hz := h.unowned k (h.not_mem_of_free ha.free)
      rw [ha.free] at hz
      rw [ha.count, ← hz]
    · have hkg : k ≠ g := by
        rintro rfl
        exact h.not_mem_of_free ha.free rel' hk
      rw [ha.counts k hkg]
      exact h.owned rel' k hk
  unowned := by
    intro k hk
    have hkg : k ≠ g := by
      rintro rfl
      exact hk rel (ha.mem_tables.mpr (Or.inl ⟨rfl, rfl⟩))
    rw [ha.counts k hkg, heldCount, ha.held]
    exact h.unowned k fun rel' hm => hk rel' (ha.mem_tables.mpr (Or.inr hm))
  ids := by
    have hid : ∀ {rel' k}, k ∈ s.tables rel' → (s'.mt k).memtableId = (s.mt k).memtableId := by
      intro rel' k hk
      refine (ha.same k ?_).id
      rintro rfl
      exact h.not_mem_of_free ha.free rel' hk
    intro rel' k hk l hl he
    rcases ha.mem_tables.mp hk with ⟨rfl, rfl⟩ | hk
    · rcases ha.mem_tables.mp hl with ⟨-, rfl⟩ | hl
      · rfl
      · rw [ha.id, hid hl] at he
        exact absurd he.symm (ha.absent l hl)
    · rcases ha.mem_tables.mp hl with ⟨rfl, rfl⟩ | hl
      · rw [ha.id, hid hk] at he
        exact absurd he (ha.absent k hk)
      · rw [hid hk, hid hl] at he
        exact h.ids rel' k hk l hl he

/-- The memtables that were there keep their rows. -/
theorem Allocated.present (ha : Allocated s s' rel sid g) (h : Sound s) {rel' : Oid}
    {sid' : SegmentId} {k : SlotIdx} (hk : Present s rel' sid' k) : Present s' rel' sid' k := by
  obtain ⟨hm, hid, hrows⟩ := hk
  have hkg : k ≠ g := by
    rintro rfl
    exact h.not_mem_of_free ha.free rel' hm
  obtain ⟨h₁, h₂, h₃, h₄⟩ := ha.same k hkg
  refine ⟨ha.mem_tables.mpr (Or.inr hm), h₁.trans hid, ?_⟩
  rw [ha.redone, h₂, h₃, h₄]
  exact hrows

theorem Inv.register (h : Inv s) (hok : Room s (.register rel sid)) :
    Inv { s.registerMemtable cap rel sid with registered := (rel, sid) :: s.registered } := by
  have hnew : ∀ {rel' sid'}, (rel', sid') ∈ (rel, sid) :: s.registered →
      (rel', sid') ∈ s.registered ∨
        rel' = rel ∧ sid' = sid ∧ ∀ i r, (rel, sid, i, r) ∉ s.redone := by
    intro rel' sid' hm
    by_cases hold : (rel', sid') ∈ s.registered
    · exact Or.inl hold
    · obtain ⟨rfl, rfl⟩ := Prod.mk.inj ((List.mem_cons.mp hm).resolve_right hold)
      exact Or.inr ⟨rfl, rfl, fun i r hir => hold (h.logged rel' sid' i r hir)⟩
  rcases @registerMemtable_cases V s rel sid cap fun hl hf hn => (hok hn).2 hl hf with
    ⟨he, hcase⟩ | ⟨g, ha⟩
  · rw [he]
    refine ⟨⟨h.sound.nodup, h.sound.disjoint, h.sound.owned, h.sound.unowned, h.sound.ids⟩, ?_, ?_⟩
    · intro rel' sid' hm hc
      rcases hnew hm with hold | ⟨rfl, rfl, hrows⟩
      · exact h.present rel' sid' hold hc
      · cases hf : s.findMemtableBySid rel' sid' with
        | none =>
            obtain ⟨hl, hfree⟩ := (hok hf).1.resolve_left hc
            rcases hcase with hcase | hcase | hcase
            · rw [hl] at hcase
              exact absurd hcase.symm Bool.false_ne_true
            · simp [hf] at hcase
            · simp [hcase] at hfree
        | some g =>
            obtain ⟨hg, hid⟩ := findMemtableBySid_eq_some hf
            exact ⟨g, hg, hid, fun i r hir => absurd hir (hrows i r)⟩
    · intro rel' sid' i r hir
      exact List.mem_cons_of_mem _ (h.logged rel' sid' i r hir)
  · have hs := ha.sound h.sound
    refine ⟨⟨hs.nodup, hs.disjoint, hs.owned, hs.unowned, hs.ids⟩, ?_, ?_⟩
    · intro rel' sid' hm hc
      have hc' : ¬ Covered s rel' sid' := fun hcov => hc (by
        unfold Covered at hcov ⊢
        rwa [show State.adopted _ = _ from ha.adopted])
      rcases hnew hm with hold | ⟨rfl, rfl, hrows⟩
      · obtain ⟨k, hk⟩ := h.present rel' sid' hold hc'
        exact ⟨k, ha.present h.sound hk⟩
      · refine ⟨g, ha.mem_tables.mpr (Or.inl ⟨rfl, rfl⟩), ha.id, fun i r hir => ?_⟩
        exact absurd (show _ ∈ s.redone from ha.redone ▸ hir) (hrows i r)
    · intro rel' sid' i r hir
      exact List.mem_cons_of_mem _ (h.logged rel' sid' i r (ha.redone ▸ hir))

section Row

theorem redoRow_validSize (mt : ConcurrentMemTable V) :
    mt.validSize ≤ (redoRow mt i r).validSize := by
  have hmax : mt.currentSize ≤ max mt.currentSize (i + 1) := Nat.le_max_left _ _
  exact min_le_min_right mt.capacity hmax

theorem lt_redoRow_validSize (mt : ConcurrentMemTable V) (hi : i < mt.capacity) :
    i < (redoRow mt i r).validSize := by
  have hmax : i < max mt.currentSize (i + 1) :=
    lt_of_lt_of_le (Nat.lt_succ_self i) (Nat.le_max_right _ _)
  exact lt_min hmax hi

end Row

/-- A row leaves every memtable where it is, and writes to the one of its sid. -/
theorem Sound.setRow (h : Sound s) (hg : g ∈ s.tables rel) :
    Sound (s.setMt g (redoRow (s.mt g) i r)) ∧ ∀ rel' sid' k, Present s rel' sid' k →
      (rel', sid') ≠ (rel, (s.mt g).memtableId) →
        Present (s.setMt g (redoRow (s.mt g) i r)) rel' sid' k := by
  have hid : ∀ k, ((s.setMt g (redoRow (s.mt g) i r)).mt k).memtableId = (s.mt k).memtableId := by
    intro k
    unfold State.mt
    rw [State.setMt_slots, Function.update_apply]
    split
    · next hk => exact hk ▸ rfl
    · rfl
  have hcount : ∀ k, ((s.setMt g (redoRow (s.mt g) i r)).slots k).refCount =
      (s.slots k).refCount := by
    intro k
    rw [State.setMt_slots, Function.update_apply]
    split
    · next hk => exact hk ▸ rfl
    · rfl
  constructor
  · refine ⟨h.nodup, h.disjoint, fun rel' k hk => ?_, fun k hk => ?_, fun rel' k hk l hl he => ?_⟩
    · exact (hcount k).trans (h.owned rel' k hk)
    · exact (hcount k).trans (h.unowned k hk)
    · rw [hid, hid] at he
      exact h.ids rel' k hk l hl he
  · rintro rel' sid' k ⟨hk, hkid, hrows⟩ hne
    have hkg : k ≠ g := by
      rintro rfl
      exact hne (by rw [h.disjoint rel' rel k hk hg, hkid])
    refine ⟨hk, (hid k).trans hkid, ?_⟩
    have he : (s.setMt g (redoRow (s.mt g) i r)).mt k = s.mt k := by simp [State.mt, hkg]
    rw [he]
    exact hrows

theorem Inv.add (h : Inv s) (hreg : (rel, sid) ∈ s.registered) (hok : Room s (.add rel sid i r)) :
    Inv { s.addToMemtable rel sid i r with redone := (rel, sid, i, r) :: s.redone } := by
  have hlogged : ∀ rel' sid' i' r', (rel', sid', i', r') ∈ (rel, sid, i, r) :: s.redone →
      (rel', sid') ∈ s.registered := by
    intro rel' sid' i' r' hm
    rcases List.mem_cons.mp hm with he | hm
    · cases he
      exact hreg
    · exact h.logged rel' sid' i' r' hm
  have hother : ∀ {t : State V} {rel' sid' k}, t.redone = s.redone → Present t rel' sid' k →
      (rel', sid') ≠ (rel, sid) →
        Present { t with redone := (rel, sid, i, r) :: s.redone } rel' sid' k := by
    rintro t rel' sid' k ht ⟨hk, hid, hrows⟩ hne
    refine ⟨hk, hid, fun i' r' hm => ?_⟩
    rcases List.mem_cons.mp hm with he | hm
    · cases he
      exact absurd rfl hne
    · exact hrows i' r' (ht ▸ hm)
  -- Where nothing is written the sid is covered.
  have hsame : Covered s rel sid → Inv { s with redone := (rel, sid, i, r) :: s.redone } := by
    intro hcov
    refine ⟨⟨h.sound.nodup, h.sound.disjoint, h.sound.owned, h.sound.unowned, h.sound.ids⟩, ?_,
      hlogged⟩
    intro rel' sid' hm hc
    obtain ⟨k, hk⟩ := h.present rel' sid' hm hc
    refine ⟨k, hother rfl hk ?_⟩
    rintro he
    cases he
    exact hc hcov
  unfold State.addToMemtable
  split
  · next hl =>
    refine hsame (hok.resolve_right ?_)
    rintro ⟨hl', -⟩
    rw [hl] at hl'
    exact Bool.false_ne_true hl'
  · split
    · next hf =>
      by_cases hcov : Covered s rel sid
      · exact hsame hcov
      · obtain ⟨k, hk, hid, -⟩ := h.present rel sid hreg hcov
        exact absurd hid (findMemtableBySid_eq_none hf k hk)
    · next g hf =>
      obtain ⟨hg, hid⟩ := findMemtableBySid_eq_some hf
      split
      · next hcap =>
        refine hsame (hok.resolve_right ?_)
        rintro ⟨-, hlt, -⟩
        exact absurd (hlt g hf) (not_lt.mpr hcap)
      · next hcap =>
        obtain ⟨hs, hpres⟩ := @Sound.setRow V s rel g i r h.sound hg
        refine ⟨⟨hs.nodup, hs.disjoint, hs.owned, hs.unowned, hs.ids⟩, ?_, hlogged⟩
        intro rel' sid' hm hc
        obtain ⟨k, hk⟩ := h.present rel' sid' hm hc
        by_cases hne : (rel', sid') = (rel, sid)
        · cases hne
          obtain ⟨hkt, hkid, hrows⟩ := hk
          obtain rfl : k = g := h.sound.ids rel k hkt g hg (hkid.trans hid.symm)
          obtain ⟨-, -, hslot⟩ := hok.resolve_left hc
          have he : (s.setMt k (redoRow (s.mt k) i r)).mt k = redoRow (s.mt k) i r := by
            simp [State.mt]
          refine ⟨k, hkt, ?_, ?_⟩
          · change ((s.setMt k (redoRow (s.mt k) i r)).mt k).memtableId = sid
            rw [he]
            exact hkid
          · intro i' r' hir
            change ((s.setMt k (redoRow (s.mt k) i r)).mt k).rows i' = r' ∧
              ((s.setMt k (redoRow (s.mt k) i r)).mt k).ready i' = true ∧
                i' < ((s.setMt k (redoRow (s.mt k) i r)).mt k).validSize
            rw [he]
            rcases eq_or_ne i' i with rfl | hi
            · have hr : r' = r := by
                rcases List.mem_cons.mp hir with he' | hir
                · cases he'
                  rfl
                · exact hslot _ hir rfl rfl rfl
              refine ⟨?_, ?_, lt_redoRow_validSize _ (not_le.mp hcap)⟩
              · simp [redoRow, hr]
              · simp [redoRow]
            · obtain ⟨h₁, h₂, h₃⟩ := hrows i' r' ((List.mem_cons.mp hir).resolve_left fun he' => by
                cases he'
                exact hi rfl)
              refine ⟨?_, ?_, lt_of_lt_of_le h₃ (redoRow_validSize _)⟩
              · simpa [redoRow, hi] using h₁
              · simpa [redoRow, hi] using h₂
        · exact ⟨k, hother rfl (hpres rel' sid' k hk (by rwa [hid])) hne⟩

theorem mem_release {gone : SlotIdx → Bool} {rel' : Oid} {k : SlotIdx} :
    k ∈ ((Function.update s.lsm rel ((s.lsm rel).release gone)) rel').tables ↔
      k ∈ s.tables rel' ∧ (rel' = rel → gone k = false) := by
  rw [Function.update_apply]
  split
  · next hr =>
    subst hr
    rw [tables_release, List.mem_filter]
    simp [State.tables]
  · next hr => simp [State.tables, hr]

theorem Inv.adopt (h : Inv s) (lo hi : SegmentId) :
    Inv { s.releaseCovered rel lo hi with adopted := (rel, lo, hi) :: s.adopted } := by
  set gone : SlotIdx → Bool :=
    fun g => decide (lo ≤ (s.mt g).memtableId ∧ (s.mt g).memtableId ≤ hi) with hgone
  have hmem : ∀ {rel' k}, k ∈ (s.releaseCovered rel lo hi).tables rel' ↔
      k ∈ s.tables rel' ∧ (rel' = rel → gone k = false) := mem_release
  have hcount : ∀ k, k ∈ s.tables rel ∧ gone k = true ∨
      ((s.tables rel).filter gone).count k = 0 := by
    intro k
    by_cases hk : k ∈ (s.tables rel).filter gone
    · exact Or.inl (List.mem_filter.mp hk)
    · exact Or.inr (List.count_eq_zero.mpr hk)
  have hrefs : ∀ k, (((s.releaseCovered rel lo hi).slots k).refCount) =
      (s.slots k).refCount - ((s.tables rel).filter gone).count k := fun _ => rfl
  refine ⟨⟨?_, ?_, ?_, ?_, ?_⟩, ?_, h.logged⟩
  · intro rel'
    change ((Function.update s.lsm rel _) rel').tables.Nodup
    rw [Function.update_apply]
    split
    · rw [tables_release]
      exact (h.sound.nodup rel).filter _
    · exact h.sound.nodup rel'
  · intro r₁ r₂ k h₁ h₂
    exact h.sound.disjoint r₁ r₂ k (hmem.mp h₁).1 (hmem.mp h₂).1
  · intro rel' k hk
    obtain ⟨hk, hg⟩ := hmem.mp hk
    have hzero : ((s.tables rel).filter gone).count k = 0 := by
      refine (hcount k).resolve_left ?_
      rintro ⟨hk', hgk⟩
      rw [hg (h.sound.disjoint rel' rel k hk hk')] at hgk
      exact absurd hgk Bool.false_ne_true
    change (s.slots k).refCount - _ = _
    rw [hzero, Nat.sub_zero]
    exact h.sound.owned rel' k hk
  · intro k hk
    change (s.slots k).refCount - _ = _
    by_cases hkr : k ∈ s.tables rel
    · have hgk : gone k = true := by
        by_contra hng
        exact hk rel (hmem.mpr ⟨hkr, fun _ => by simpa using hng⟩)
      have hone : ((s.tables rel).filter gone).count k = 1 :=
        List.count_eq_one_of_mem ((h.sound.nodup rel).filter _) (List.mem_filter.mpr ⟨hkr, hgk⟩)
      rw [hone, h.sound.owned rel k hkr, Nat.add_sub_cancel_left]
      rfl
    · have hzero : ((s.tables rel).filter gone).count k = 0 :=
        (hcount k).resolve_left fun hk' => hkr hk'.1
      rw [hzero, Nat.sub_zero]
      refine h.sound.unowned k fun rel' hm => hk rel' (hmem.mpr ⟨hm, ?_⟩)
      rintro rfl
      exact absurd hm hkr
  · intro rel' k hk l hl he
    exact h.sound.ids rel' k (hmem.mp hk).1 l (hmem.mp hl).1 he
  · intro rel' sid' hm hc
    have hc' : ¬ Covered s rel' sid' := by
      rintro ⟨a, ha, hcov⟩
      exact hc ⟨a, List.mem_cons_of_mem _ ha, hcov⟩
    obtain ⟨k, hk, hid, hrows⟩ := h.present rel' sid' hm hc'
    refine ⟨k, hmem.mpr ⟨hk, ?_⟩, hid, hrows⟩
    rintro rfl
    by_contra hgk
    have hin : lo ≤ (s.mt k).memtableId ∧ (s.mt k).memtableId ≤ hi := by simpa [hgone] using hgk
    rw [hid] at hin
    exact hc ⟨(rel', lo, hi), List.mem_cons_self, rfl, hin⟩

theorem Inv.read (h : Inv s) (t : ℕ) :
    Inv { s with
      slots := fun g => { s.slots g with
        refCount := (s.slots g).refCount + (s.tables rel).count g }
      held := (s.tables rel).map (fun g => (t, g)) ++ s.held } := by
  have hcount : ∀ k, ((((s.tables rel).map fun g => (t, g)) ++ s.held).map (·.2)).count k =
      (s.tables rel).count k + heldCount s k := by
    intro k
    rw [List.map_append, List.count_append, List.map_map]
    congr 2
    exact List.map_id _
  refine ⟨⟨h.sound.nodup, h.sound.disjoint, ?_, ?_, h.sound.ids⟩, h.present, h.logged⟩
  · intro rel' k hk
    have := h.sound.owned rel' k hk
    change (s.slots k).refCount + _ = 1 + List.count k _
    rw [hcount, this]
    omega
  · intro k hk
    have := h.sound.unowned k hk
    change (s.slots k).refCount + _ = List.count k _
    rw [hcount, this, Nat.add_comm]

theorem Inv.done (h : Inv s) {t : ℕ} (hm : (t, g) ∈ s.held) :
    Inv { s.setSlot g { s.slots g with refCount := (s.slots g).refCount - 1 } with
      held := s.held.erase (t, g) } := by
  set s' : State V := { s.setSlot g { s.slots g with refCount := (s.slots g).refCount - 1 } with
    held := s.held.erase (t, g) }
  have hcount : ∀ k, heldCount s k = heldCount s' k + if g = k then 1 else 0 := by
    intro k
    have hperm := (List.perm_cons_erase hm).map (·.2)
    rw [heldCount, hperm.count_eq, List.map_cons, List.count_cons]
    simp only [beq_iff_eq]
    rfl
  have href : ∀ k, (s'.slots k).refCount = (s.slots k).refCount - if g = k then 1 else 0 := by
    intro k
    change ((Function.update s.slots g _) k).refCount = _
    rcases eq_or_ne k g with rfl | hk
    · simp
    · simp [hk, hk.symm]
  have hmt : ∀ k, s'.mt k = s.mt k := by
    intro k
    change ((Function.update s.slots g _) k).mt = _
    rcases eq_or_ne k g with rfl | hk
    · simp [State.mt]
    · simp [State.mt, hk]
  refine ⟨⟨h.sound.nodup, h.sound.disjoint, ?_, ?_, ?_⟩, ?_, h.logged⟩
  · intro rel k hk
    have := h.sound.owned rel k hk
    rw [href, this, hcount]
    omega
  · intro k hk
    have := h.sound.unowned k hk
    rw [href, this, hcount]
    omega
  · intro rel k hk l hl he
    rw [hmt, hmt] at he
    exact h.sound.ids rel k hk l hl he
  · intro rel sid hm hc
    obtain ⟨k, hk, hid, hrows⟩ := h.present rel sid hm hc
    refine ⟨k, hk, ?_, ?_⟩
    · rw [hmt]
      exact hid
    · rw [hmt]
      exact hrows

theorem Inv.step (h : Inv s) (hok : Room s a) (hs : step cap s a = some s') : Inv s' := by
  cases a with
  | register rel sid =>
      cases hs
      exact h.register hok
  | add rel sid i r =>
      simp only [Standby.step] at hs
      split at hs <;> cases hs
      exact h.add ‹_› hok
  | adopt rel lo hi =>
      simp only [Standby.step] at hs
      split at hs <;> cases hs
      exact h.adopt lo hi
  | read t rel =>
      simp only [Standby.step] at hs
      split at hs <;> cases hs
      exact h.read t
  | done t g =>
      simp only [Standby.step] at hs
      split at hs <;> cases hs
      exact h.done ‹_›

theorem Start.inv (h : Start s) : Inv s where
  sound := h.sound
  present := by
    intro rel sid hm hc
    obtain ⟨g, hg, hid⟩ := h.present rel sid hm hc
    exact ⟨g, hg, hid, fun i r hir => by simp [h.redone] at hir⟩
  logged := by
    intro rel sid i r hir
    simp [h.redone] at hir

theorem Inv.notDropped (h : Inv s) : NotDropped s where
  reachable := h.present
  counted := by
    intro g hg
    by_cases hm : ∃ rel, g ∈ s.tables rel
    · exact Or.inl hm
    · right
      rw [h.sound.unowned g fun rel hr => hm ⟨rel, hr⟩] at hg
      obtain ⟨⟨t, g'⟩, hin, rfl⟩ := List.mem_map.mp (List.count_pos_iff.mp hg)
      exact ⟨t, hin⟩

/-- While there is room, no memtable is dropped. -/
theorem no_memtable_dropped (h : Reachable Start (step cap) Room s) : NotDropped s :=
  have inv : Inv s := h.invariant (fun _ h => h.inv) fun _ _ _ _ h hok hs => h.step hok hs
  inv.notDropped

instance (s : State ℕ) (a : Action ℕ) : Decidable (Room s a) := by
  cases a <;> unfold Room <;> infer_instance

/-- An empty standby. -/
def demoStandby : State ℕ where
  slots := fun _ => ⟨0, ⟨0, 0, 0, 0, 0, false, false, none, fun _ => ⟨0, 0⟩, fun _ => false,
    fun _ => false, fun _ => none⟩⟩
  lsm := fun _ => ⟨.invalid, 0, []⟩
  loaded := fun _ => true
  held := []
  registered := []
  adopted := []
  redone := []

theorem start_demoStandby : Start demoStandby where
  sound := by
    refine ⟨fun _ => List.nodup_nil, ?_, ?_, fun _ _ => rfl, ?_⟩
    · rintro rel rel' g ⟨⟩
    · rintro rel g ⟨⟩
    · rintro rel g ⟨⟩
  present := by rintro rel sid ⟨⟩
  redone := rfl

/-- The ids of the memtables found from an index. -/
def sids (s : State ℕ) (rel : Oid) : List SegmentId :=
  (s.tables rel).map fun g => (s.mt g).memtableId

/-- Three memtables are registered, the oldest is adopted under a search. -/
theorem no_memtable_dropped_adopted : ∃ s : State ℕ, sids s 1 = [6, 5] ∧ NotDropped s := by
  have hm : Meets Room (step fun _ => 100) demoStandby
      [.register 1 4, .add 1 4 0 ⟨7, 70⟩, .register 1 5, .read 2 1, .add 1 5 0 ⟨8, 80⟩,
        .register 1 6, .adopt 1 3 4] := by
    decide +kernel
  have hs : (exec (step fun _ => 100) demoStandby
      [.register 1 4, .add 1 4 0 ⟨7, 70⟩, .register 1 5, .read 2 1, .add 1 5 0 ⟨8, 80⟩,
        .register 1 6, .adopt 1 3 4]).map (fun s => sids s 1) = some [6, 5] := by
    decide +kernel
  obtain ⟨s, he, hv⟩ := Option.map_eq_some_iff.mp hs
  exact ⟨s, hv, no_memtable_dropped ((Reachable.start start_demoStandby).of_exec hm he)⟩

/-- Six memtables are registered before any segment is fetched: the fifth is sealed while the
array is full. -/
theorem not_no_memtable_dropped :
    ¬ ∀ s : State ℕ, Reachable Start (step fun _ => 100) anyStep s → NotDropped s := by
  intro h
  have hs : (exec (step fun _ => 100) demoStandby
      ((List.range' 4 6).map (Action.register 1))).map (fun s =>
        (sids s 1, decide ((1, 8) ∈ s.registered), s.adopted)) =
          some ([9, 4, 5, 6, 7], true, []) := by
    decide +kernel
  obtain ⟨s, he, hv⟩ := Option.map_eq_some_iff.mp hs
  simp only [Prod.mk.injEq, decide_eq_true_eq] at hv
  obtain ⟨hsids, hreg, had⟩ := hv
  have hr := (Reachable.start start_demoStandby).of_exec (meets_anyStep _) he
  obtain ⟨g, hg, hid, -⟩ := (h s hr).reachable 1 8 hreg (by simp [Covered, had])
  have hmem : 8 ∈ sids s 1 := List.mem_map.mpr ⟨g, hg, hid⟩
  rw [hsids] at hmem
  exact absurd hmem (by decide)

end VectorLsm.Standby
