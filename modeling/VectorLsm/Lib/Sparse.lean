import Mathlib.Data.List.Nodup
import Mathlib.Data.List.Perm.Subperm
import Mathlib.Data.List.Range
import Mathlib.Tactic.TypeStar

/-! # Sparse sequences

A sequence given by its entries at some of the indices, in ascending order. Two of them can be
gone through together, entry by entry; that visits what a walk over all indices would visit.
-/

namespace Sparse

variable {F α : Type*} {a b l : List (ℕ × F)} {e : ℕ × F} {i j k n : ℕ} {x y : F} {acc : α}

/-- By ascending index, below `n`. -/
structure Ascending (n : ℕ) (l : List (ℕ × F)) : Prop where
  sorted : l.Pairwise fun e e' => e.1 < e'.1
  lt : ∀ e ∈ l, e.1 < n

theorem Ascending.tail (h : Ascending n (e :: l)) : Ascending n l :=
  ⟨(List.pairwise_cons.mp h.sorted).2, fun e' he => h.lt e' (List.mem_cons_of_mem _ he)⟩

/-- What follows an entry is at later indices. -/
theorem Ascending.lt_of_mem (h : Ascending n (e :: l)) : ∀ e' ∈ l, e.1 < e'.1 :=
  (List.pairwise_cons.mp h.sorted).1

theorem Ascending.length_le (h : Ascending n l) : l.length ≤ n := by
  have hnodup : (l.map Prod.fst).Nodup :=
    List.pairwise_map.mpr (h.sorted.imp fun hlt => Nat.ne_of_lt hlt)
  have hsub : l.map Prod.fst ⊆ List.range n := by
    intro i hi
    obtain ⟨e, he, rfl⟩ := List.mem_map.mp hi
    exact List.mem_range.mpr (h.lt e he)
  have hle := (List.subperm_of_subset hnodup hsub).length_le
  rwa [List.length_map, List.length_range] at hle

/-- Entries have one ascending order. -/
theorem Ascending.eq_of_perm (h : Ascending n a) (hb : b.Pairwise fun e e' => e.1 ≤ e'.1)
    (hperm : b.Perm a) : b = a := by
  have hinj : ∀ e ∈ a, ∀ e' ∈ a, e.1 = e'.1 → e = e' := by
    have hnodup : (a.map Prod.fst).Nodup :=
      List.pairwise_map.mpr (h.sorted.imp fun hlt => Nat.ne_of_lt hlt)
    exact fun e he e' he' => List.inj_on_of_nodup_map hnodup he he'
  refine hperm.eq_of_pairwise (fun e e' he he' hle hle' => ?_) hb
    (h.sorted.imp fun hlt => Nat.le_of_lt hlt)
  exact hinj e (hperm.subset he) e' he' (Nat.le_antisymm hle hle')

/-- The entries start at `k` or later. -/
def From (k : ℕ) (l : List (ℕ × F)) : Prop := ∀ e ∈ l, k ≤ e.1

theorem From.zero : From 0 l := fun _ _ => Nat.zero_le _

theorem lookup_cons_self : ((i, x) :: l).lookup i = some x := by
  rw [List.lookup_cons, beq_self_eq_true]

theorem lookup_cons_of_ne (h : k ≠ i) : ((i, x) :: l).lookup k = l.lookup k := by
  rw [List.lookup_cons, beq_eq_false_iff_ne.mpr h]

/-- Before its first entry a sequence has none. -/
theorem lookup_eq_none (h : From (k + 1) l) : l.lookup k = none := by
  induction l with
  | nil => rfl
  | cons e l ih =>
      obtain ⟨i, x⟩ := e
      have hi : k + 1 ≤ i := h (i, x) List.mem_cons_self
      rw [lookup_cons_of_ne (by omega), ih fun e' he => h e' (List.mem_cons_of_mem _ he)]

/-- A sequence from `k` on has an entry there, or starts later. -/
theorem From.cases (h : From k l) (hs : Ascending n l) :
    (∃ x l', l = (k, x) :: l' ∧ From (k + 1) l' ∧ Ascending n l') ∨ From (k + 1) l := by
  cases l with
  | nil => exact .inr fun _ he => absurd he List.not_mem_nil
  | cons e l =>
      obtain ⟨i, x⟩ := e
      have hi : k ≤ i := h (i, x) List.mem_cons_self
      have hlt := hs.lt_of_mem
      rcases Nat.eq_or_lt_of_le hi with rfl | hgt
      · exact .inl ⟨x, l, rfl, hlt, hs.tail⟩
      · refine .inr fun e' he => ?_
        rcases List.mem_cons.mp he with rfl | he
        · exact hgt
        · exact hgt.trans (hlt e' he)

/-! ## Going through two sequences -/

section Merge

variable (both : α → F → F → α) (left right : α → F → α)

/-- Both sequences entry by entry. -/
def merge : α → List (ℕ × F) → List (ℕ × F) → α
  | acc, [], [] => acc
  | acc, [], (_, y) :: b => merge (right acc y) [] b
  | acc, (_, x) :: a, [] => merge (left acc x) a []
  | acc, (i, x) :: a, (j, y) :: b =>
      if i = j then merge (both acc x y) a b
      else if j < i then merge (right acc y) ((i, x) :: a) b
      else merge (left acc x) a ((j, y) :: b)
termination_by _ a b => a.length + b.length

/-- One index of a walk. -/
def visit (a b : List (ℕ × F)) (acc : α) (k : ℕ) : α :=
  match a.lookup k, b.lookup k with
  | some x, some y => both acc x y
  | some x, none => left acc x
  | none, some y => right acc y
  | none, none => acc

/-- A walk over the indices below `n`. -/
def walk (n : ℕ) (a b : List (ℕ × F)) (acc : α) : α :=
  (List.range n).foldl (visit both left right a b) acc

theorem merge_nil_left :
    merge both left right acc [] b = b.foldl (fun acc e => right acc e.2) acc := by
  induction b generalizing acc with
  | nil => rw [merge]; rfl
  | cons e b ih => rw [merge, ih]; rfl

theorem foldl_visit_congr {a' b' : List (ℕ × F)} {ks : List ℕ}
    (h : ∀ k ∈ ks, a.lookup k = a'.lookup k ∧ b.lookup k = b'.lookup k) :
    ks.foldl (visit both left right a b) acc = ks.foldl (visit both left right a' b') acc := by
  refine List.foldl_ext _ _ _ fun acc k hk => ?_
  obtain ⟨ha, hb⟩ := h k hk
  rw [visit, visit, ha, hb]

/-- Going through the entries from `k` on visits what a walk from `k` on visits. -/
theorem merge_eq_foldl (ha : Ascending (k + n) a) (hb : Ascending (k + n) b)
    (hka : From k a) (hkb : From k b) :
    merge both left right acc a b =
      (List.range' k n).foldl (visit both left right a b) acc := by
  induction n generalizing k a b acc with
  | zero =>
      have hnil : ∀ {l : List (ℕ × F)}, Ascending (k + 0) l → From k l → l = [] := by
        intro l hl hk
        rw [List.eq_nil_iff_forall_not_mem]
        intro e he
        exact absurd (hl.lt e he) (Nat.not_lt.mpr (hk e he))
      rw [hnil ha hka, hnil hb hkb, merge]
      rfl
  | succ n ih =>
      have hsucc : k + (n + 1) = k + 1 + n := by omega
      rw [hsucc] at ha hb
      rw [List.range'_succ, List.foldl_cons]
      have hskip : ∀ {l : List (ℕ × F)} {x : F}, ∀ j ∈ List.range' (k + 1) n,
          ((k, x) :: l).lookup j = l.lookup j := fun j hj =>
        lookup_cons_of_ne (by have := (List.mem_range'_1.mp hj).1; omega)
      rcases hka.cases ha with ⟨x, a, rfl, hka', ha'⟩ | hka'
      · rcases hkb.cases hb with ⟨y, b, rfl, hkb', hb'⟩ | hkb'
        · rw [merge, if_pos rfl, ih ha' hb' hka' hkb', visit, lookup_cons_self, lookup_cons_self]
          exact foldl_visit_congr _ _ _ fun j hj => ⟨(hskip j hj).symm, (hskip j hj).symm⟩
        · have hmerge : merge both left right acc ((k, x) :: a) b =
              merge both left right (left acc x) a b := by
            cases b with
            | nil => rw [merge]
            | cons e b =>
                obtain ⟨j, y⟩ := e
                have hj : k + 1 ≤ j := hkb' (j, y) List.mem_cons_self
                rw [merge, if_neg (by omega), if_neg (by omega)]
          rw [hmerge, ih ha' hb hka' hkb', visit, lookup_cons_self, lookup_eq_none hkb']
          exact foldl_visit_congr _ _ _ fun j hj => ⟨(hskip j hj).symm, rfl⟩
      · rcases hkb.cases hb with ⟨y, b, rfl, hkb', hb'⟩ | hkb'
        · have hmerge : merge both left right acc a ((k, y) :: b) =
              merge both left right (right acc y) a b := by
            cases a with
            | nil => rw [merge]
            | cons e a =>
                obtain ⟨i, x⟩ := e
                have hi : k + 1 ≤ i := hka' (i, x) List.mem_cons_self
                rw [merge, if_neg (by omega), if_pos (by omega)]
          rw [hmerge, ih ha hb' hka' hkb', visit, lookup_cons_self, lookup_eq_none hka']
          exact foldl_visit_congr _ _ _ fun j hj => ⟨rfl, (hskip j hj).symm⟩
        · rw [ih ha hb hka' hkb', visit, lookup_eq_none hka', lookup_eq_none hkb']

theorem merge_eq_walk (ha : Ascending n a) (hb : Ascending n b) :
    merge both left right acc a b = walk both left right n a b acc := by
  rw [← Nat.zero_add n] at ha hb
  rw [merge_eq_foldl both left right ha hb From.zero From.zero, walk, List.range_eq_range']

end Merge

end Sparse
