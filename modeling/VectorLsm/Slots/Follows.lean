import VectorLsm.Slots.Primary

/-! # The slots of the standby

What the memtables of a standby hold was logged, or a recovery found it on the status pages.
-/

namespace VectorLsm.Slots

open Recovery Replay

variable {wal pre : List Record} {r : Record} {y : StandbyIndex} {sid : SegmentId} {i : ℕ} {t : Tid}
  {free : Bool} {cap : ℕ}

theorem mem_of_tables_register {m : Memtables} {x : SegmentId}
    (h : x ∈ (m.register sid free).tables) : x = sid ∨ x ∈ m.tables := by
  unfold Memtables.register Memtables.enqueue Memtables.tables at h
  unfold Memtables.tables
  cases hg : m.growing with
  | none =>
      simp only [hg] at h ⊢
      split_ifs at h <;> simp_all
  | some g =>
      simp only [hg] at h ⊢
      split_ifs at h <;> simp_all <;> tauto

/-- The memtables of the standby, against the log it has redone. -/
structure Follows (pre : List Record) (y : StandbyIndex) : Prop where
  populated : ∀ sid ∈ y.mts.tables, ∀ i t, (i, t) ∈ added pre sid → (y.tables sid).Populated i t
  source : ∀ sid ∈ y.mts.tables, ∀ i t, (y.tables sid).tids i = some t →
    (i, t) ∈ added pre sid ∨ (listed pre sid)[i]? = some t

namespace Follows

/-- A record that the standby has nothing to do for. -/
theorem skip (h : Follows pre y) (hr : ∀ sid i t, r = .addToMemtable sid i t → sid ∉ y.mts.tables) :
    Follows (pre ++ [r]) y where
  populated sid hs i t ha := by
    rw [added_append, List.mem_append, mem_added_singleton] at ha
    rcases ha with ha | ha
    · exact h.populated sid hs i t ha
    · exact absurd hs (hr sid i t ha)
  source sid hs i t ht := by
    rw [added_append, listed_append]
    rcases h.source sid hs i t ht with ha | hl
    · exact Or.inl (List.mem_append_left _ ha)
    · obtain ⟨hi, -⟩ := List.getElem?_eq_some_iff.mp hl
      exact Or.inr ((List.getElem?_append_left hi).trans hl)

/-- A new memtable, that nothing was logged for. -/
theorem register (h : Follows pre y) (hpre : Logged pre) (hl : listed pre sid = []) :
    Follows (pre ++ [.registerMemtable sid])
      ⟨y.mts.register sid free, Function.update y.tables sid (.fresh cap)⟩ := by
  have hskip := h.skip (r := .registerMemtable sid) nofun
  constructor
  case populated =>
    intro u hu i t ha
    dsimp only at hu ⊢
    rcases eq_or_ne u sid with rfl | hne
    · rw [added_append, List.mem_append] at ha
      rcases ha with ha | ha
      · exact absurd ha (hpre.added_of_listed_nil hl)
      · cases ha
    · rw [Function.update_of_ne hne]
      exact hskip.populated u ((mem_of_tables_register hu).resolve_left hne) i t ha
  case source =>
    intro u hu i t ht
    dsimp only at hu ht
    rcases eq_or_ne u sid with rfl | hne
    · rw [Function.update_self] at ht
      cases ht
    · rw [Function.update_of_ne hne] at ht
      exact hskip.source u ((mem_of_tables_register hu).resolve_left hne) i t ht

/-- The slot of a log record; the rows of other slots stay. -/
theorem add (h : Follows pre y) (hpre : Logged (pre ++ [.addToMemtable sid i t]))
    (hcap : i < (y.tables sid).capacity) :
    Follows (pre ++ [.addToMemtable sid i t])
      { y with tables := Function.update y.tables sid ((y.tables sid).redoAdd i t) } := by
  have hself : (i, t) ∈ added (pre ++ [.addToMemtable sid i t]) sid := by
    rw [added_append, List.mem_append, mem_added_singleton]
    exact Or.inr rfl
  have hadd : ∀ u j v, (j, v) ∈ added (pre ++ [.addToMemtable sid i t]) u →
      (j, v) ∈ added pre u ∨ u = sid ∧ j = i ∧ v = t := by
    intro u j v hv
    rw [added_append, List.mem_append, mem_added_singleton, Record.addToMemtable.injEq] at hv
    tauto
  have hmono : ∀ u j v, (j, v) ∈ added pre u ∨ (listed pre u)[j]? = some v →
      (j, v) ∈ added (pre ++ [.addToMemtable sid i t]) u ∨
        (listed (pre ++ [.addToMemtable sid i t]) u)[j]? = some v := by
    rintro u j v (hv | hv)
    · rw [added_append]
      exact Or.inl (List.mem_append_left _ hv)
    · obtain ⟨hj, -⟩ := List.getElem?_eq_some_iff.mp hv
      rw [listed_append]
      exact Or.inr ((List.getElem?_append_left hj).trans hv)
  unfold Table.redoAdd
  rw [if_pos hcap]
  constructor
  case populated =>
    intro u hu j v hv
    dsimp only
    rcases eq_or_ne u sid with rfl | hne
    · rw [Function.update_self]
      unfold Table.Populated
      rcases eq_or_ne j i with rfl | hj
      · -- The slot was logged for one row only.
        obtain rfl := hpre.row_unique u j v t hv hself
        exact ⟨lt_min (by simp) hcap, by simp⟩
      · have hv' := (hadd u j v hv).resolve_right fun h => hj h.2.1
        obtain ⟨hlt, htid⟩ := h.populated u hu j v hv'
        rw [lt_min_iff] at hlt ⊢
        exact ⟨⟨lt_max_of_lt_left hlt.1, hlt.2⟩, by simpa [Function.update_of_ne hj] using htid⟩
    · rw [Function.update_of_ne hne]
      exact h.populated u hu j v ((hadd u j v hv).resolve_right fun h => hne h.1)
  case source =>
    intro u hu j v hv
    dsimp only at hv
    rcases eq_or_ne u sid with rfl | hne
    · rw [Function.update_self] at hv
      rcases eq_or_ne j i with rfl | hj
      · obtain rfl : t = v := by simpa using hv
        exact Or.inl hself
      · exact hmono u j v (h.source u hu j v (by simpa [Function.update_of_ne hj] using hv))
    · rw [Function.update_of_ne hne] at hv
      exact hmono u j v (h.source u hu j v hv)

/-- A standby that recovers where the status pages are exact. -/
theorem recover (hpre : Logged pre) (hwal : Logged wal) (he : Exact pre wal cap)
    (hsub : ∀ sid i t, (i, t) ∈ added pre sid → (i, t) ∈ added wal sid) (m : Memtables) :
    Follows pre ⟨m, State.rebuildTables pre cap m.growing⟩ where
  populated sid _ i t ha := by
    obtain ⟨hc, hs, ht⟩ := @rebuildTables_spec wal sid pre cap m.growing he hpre
    have hmem := hpre.listed_of_added sid i t ha
    have hreg := hpre.registered_of_listed sid t hmem
    obtain ⟨j, hj⟩ := List.mem_iff_getElem?.mp hmem
    obtain rfl := hwal.slot_unique sid i j t (hsub sid i t ha) (he.at hj hreg).2
    have hlt : i < (listed pre sid).length := (List.getElem?_eq_some_iff.mp hj).1
    exact ⟨by rw [hc, hs]; exact lt_min hlt (hlt.trans_le (he sid hreg).1), by rw [ht, hj]⟩
  source sid _ i t ht := by
    rw [(rebuildTables_spec he hpre).2.2] at ht
    exact Or.inr ht

end Follows

end VectorLsm.Slots
