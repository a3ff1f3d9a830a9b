import Mathlib.Order.Antichain
import Mathlib.Order.Minimal

/-! # Keeping the maximal elements

Elements of a partial order arrive one after the other. A new one that lies below a kept one is
skipped; any other one is kept, in the place of those below it. Whatever the order of the arrivals,
what is kept are the maximal elements of all that have arrived.
-/

variable {α : Type*} [PartialOrder α]

/-- `kept` are elements that have arrived, none below another one, and all others are below them. -/
structure Frontier (kept arrived : Set α) : Prop where
  subset : kept ⊆ arrived
  antichain : IsAntichain (· ≤ ·) kept
  below : ∀ a ∈ arrived, ∃ b ∈ kept, a ≤ b

namespace Frontier

variable {kept arrived : Set α} {a b : α}

theorem empty : Frontier (∅ : Set α) ∅ := ⟨subset_rfl, by simp, fun _ ha => ha.elim⟩

/-- What is kept does not depend on the order of the arrivals. -/
theorem mem_iff (h : Frontier kept arrived) : a ∈ kept ↔ Maximal (· ∈ arrived) a := by
  constructor
  · intro ha
    refine ⟨h.subset ha, fun b hb hab => ?_⟩
    obtain ⟨c, hc, hbc⟩ := h.below b hb
    obtain rfl : a = c := h.antichain.eq ha hc (hab.trans hbc)
    exact hbc
  · rintro ⟨ha, hmax⟩
    obtain ⟨b, hb, hab⟩ := h.below a ha
    obtain rfl : a = b := le_antisymm hab (hmax (h.subset hb) hab)
    exact hb

theorem skip (h : Frontier kept arrived) (hb : b ∈ kept) (hab : a ≤ b) :
    Frontier kept (insert a arrived) where
  subset := h.subset.trans (Set.subset_insert a arrived)
  antichain := h.antichain
  below := by
    rintro c (rfl | hc)
    · exact ⟨b, hb, hab⟩
    · exact h.below c hc

theorem enter (h : Frontier kept arrived) (ha : ∀ b ∈ kept, ¬ a ≤ b) :
    Frontier (insert a {b ∈ kept | ¬ b ≤ a}) (insert a arrived) where
  subset := Set.insert_subset_insert fun _ hb => h.subset hb.1
  antichain := by
    refine (h.antichain.subset fun _ hb => hb.1).insert ?_ ?_
    · exact fun b hb _ => hb.2
    · exact fun b hb _ => ha b hb.1
  below := by
    rintro c (rfl | hc)
    · exact ⟨c, Set.mem_insert c _, le_rfl⟩
    · obtain ⟨b, hb, hcb⟩ := h.below c hc
      by_cases hba : b ≤ a
      · exact ⟨a, Set.mem_insert a _, hcb.trans hba⟩
      · exact ⟨b, Set.mem_insert_of_mem a ⟨hb, hba⟩, hcb⟩

/-- What of the arrivals need not arrive. -/
theorem mono {some : Set α} (h : Frontier kept arrived) (hk : kept ⊆ some) (hs : some ⊆ arrived) :
    Frontier kept some where
  subset := hk
  antichain := h.antichain
  below := fun a ha => h.below a (hs ha)

end Frontier
