import Mathlib.Data.Finset.Card
import Mathlib.Data.Finset.Dedup
import Mathlib.Data.List.Dedup
import Mathlib.Order.Basic
import Mathlib.Order.Lattice

/-! # The k best of a collection

A list holds the k best of a source under a measure if it is in order, as long as the source
allows, and nothing it leaves out is better than what it has. The k best of two sources are found
from the k best of each; where names repeat, the k best names are found from the first
occurrences.
-/

namespace TopK

variable {α β ι : Type*} [LinearOrder β] (dist : α → β) (name : α → ι) {k : ℕ}
variable {src src' l l' w : List α} {x y : α}

def Ordered (l : List α) : Prop := l.Pairwise fun x y => dist x ≤ dist y

/-- `l` holds the `k` best of `src`. -/
structure Nearest (k : ℕ) (src l : List α) : Prop where
  ordered : Ordered dist l
  length_eq : l.length = min k src.length
  split : ∃ rest, src.Perm (l ++ rest) ∧ ∀ x ∈ l, ∀ y ∈ rest, dist x ≤ dist y

/-- Two lists merged in order; among ties `l` comes first. -/
def merged (l l' : List α) : List α := l.merge l' fun x y => decide (dist x ≤ dist y)

variable {dist name}

theorem Nearest.subset (h : Nearest dist k src l) (hx : x ∈ l) : x ∈ src := by
  obtain ⟨rest, hp, _⟩ := h.split
  exact hp.mem_iff.mpr (List.mem_append_left _ hx)

theorem Nearest.length_le (h : Nearest dist k src l) : l.length ≤ k :=
  h.length_eq ▸ min_le_left _ _

/-- What a list of the k best leaves out is no better than the `k` elements it has. -/
theorem Nearest.cases (h : Nearest dist k src l) (hy : y ∈ src) :
    y ∈ l ∨ l.length = k ∧ ∀ x ∈ l, dist x ≤ dist y := by
  obtain ⟨rest, hp, hr⟩ := h.split
  rcases List.mem_append.mp (hp.mem_iff.mp hy) with hl | hrest
  · exact Or.inl hl
  · right
    have hpos := List.length_pos_of_mem hrest
    have hlen := hp.length_eq
    rw [List.length_append] at hlen
    have := h.length_eq
    exact ⟨by omega, fun x hx => hr x hx y hrest⟩

theorem Nearest.self (ho : Ordered dist l) (hl : l.length ≤ k) : Nearest dist k l l where
  ordered := ho
  length_eq := (min_eq_right hl).symm
  split := ⟨[], by simp, by simp⟩

theorem Nearest.perm (h : Nearest dist k src l) (hp : src.Perm src') : Nearest dist k src' l where
  ordered := h.ordered
  length_eq := hp.length_eq ▸ h.length_eq
  split := by
    obtain ⟨rest, hs, hr⟩ := h.split
    exact ⟨rest, hp.symm.trans hs, hr⟩

theorem Ordered.filter_eq_nil (ho : Ordered dist (x :: w)) :
    ((x :: w).filter fun z => decide (dist z < dist x)) = [] := by
  rw [List.filter_eq_nil_iff]
  intro z hz
  rw [decide_eq_true_eq, not_lt]
  rcases List.mem_cons.mp hz with rfl | hz
  · exact le_rfl
  · exact List.rel_of_pairwise_cons ho hz

/-- Less than `k` elements of a list in order are better than one of its first `k`. -/
theorem Ordered.rank_lt (ho : Ordered dist w) (hx : x ∈ w.take k) :
    (w.filter fun z => decide (dist z < dist x)).length < k := by
  obtain ⟨s, t, hst⟩ := List.append_of_mem hx
  have hw : w = s ++ x :: (t ++ w.drop k) := by
    conv_lhs => rw [← List.take_append_drop k w, hst]
    simp
  have hs : s.length < k := by
    have := congrArg List.length hst
    rw [List.length_take, List.length_append, List.length_cons] at this
    omega
  rw [hw, Ordered, List.pairwise_append] at ho
  rw [hw, List.filter_append, Ordered.filter_eq_nil ho.2.1, List.append_nil]
  exact (List.length_filter_le _ _).trans_lt hs

/-- If `w` has `k` elements no worse than `y`, its first `k` are no worse than `y`. -/
theorem Ordered.le_of_subperm (ho : Ordered dist w) (hl : l.Subperm w) (hk : k ≤ l.length)
    (hy : ∀ z ∈ l, dist z ≤ dist y) (hx : x ∈ w.take k) : dist x ≤ dist y := by
  by_contra hlt
  rw [not_le] at hlt
  have hall : (l.filter fun z => decide (dist z < dist x)) = l := by
    rw [List.filter_eq_self]
    intro z hz
    exact decide_eq_true ((hy z hz).trans_lt hlt)
  have hle := (hl.filter fun z => decide (dist z < dist x)).length_le
  rw [hall] at hle
  exact absurd (ho.rank_lt hx) (not_lt.mpr (hk.trans hle))

theorem Ordered.take (ho : Ordered dist w) : Ordered dist (w.take k) :=
  List.Pairwise.sublist (List.take_sublist k w) ho

theorem Ordered.le_of_drop (ho : Ordered dist w) (hx : x ∈ w.take k) (hy : y ∈ w.drop k) :
    dist x ≤ dist y := by
  rw [← List.take_append_drop k w, Ordered, List.pairwise_append] at ho
  exact ho.2.2 x hx y hy

theorem ordered_merged (ho : Ordered dist l) (ho' : Ordered dist l') :
    Ordered dist (merged dist l l') := by
  have htrans (a b c : α) (hab : decide (dist a ≤ dist b) = true)
      (hbc : decide (dist b ≤ dist c) = true) : decide (dist a ≤ dist c) = true :=
    decide_eq_true ((of_decide_eq_true hab).trans (of_decide_eq_true hbc))
  have htotal (a b : α) : (decide (dist a ≤ dist b) || decide (dist b ≤ dist a)) = true := by
    simpa using le_total (dist a) (dist b)
  have := List.pairwise_merge htrans htotal l l' (by simpa [Ordered] using ho)
    (by simpa [Ordered] using ho')
  simpa [Ordered, merged] using this

@[simp] theorem merged_nil_left (l : List α) : merged dist [] l = l := List.nil_merge l

@[simp] theorem merged_nil_right (l : List α) : merged dist l [] = l := List.merge_right l

theorem merged_cons_cons (x y : α) (l l' : List α) : merged dist (x :: l) (y :: l') =
    if dist x ≤ dist y then x :: merged dist l (y :: l') else y :: merged dist (x :: l) l' := by
  rw [merged, List.cons_merge_cons]
  simp only [decide_eq_true_eq]
  rfl

theorem merged_perm : (merged dist l l').Perm (l ++ l') := List.merge_perm_append _

theorem mem_merged : x ∈ merged dist l l' ↔ x ∈ l ∨ x ∈ l' := by
  rw [merged_perm.mem_iff, List.mem_append]

theorem subperm_merged_left : l.Subperm (merged dist l l') :=
  (List.sublist_append_left l l').subperm.trans merged_perm.symm.subperm

theorem subperm_merged_right : l'.Subperm (merged dist l l') :=
  (List.sublist_append_right l l').subperm.trans merged_perm.symm.subperm

/-- The best of a sorted source come first. -/
theorem nearest_take (ho : Ordered dist w) (hp : src.Perm w) : Nearest dist k src (w.take k) where
  ordered := ho.take
  length_eq := by rw [List.length_take, hp.length_eq]
  split := ⟨w.drop k, by rwa [List.take_append_drop], fun _ hx _ hy => ho.le_of_drop hx hy⟩

theorem Nearest.map {γ : Type*} {dist' : γ → β} (f : α → γ) (h : Nearest dist k src l)
    (hf : ∀ x ∈ src, dist' (f x) = dist x) : Nearest dist' k (src.map f) (l.map f) := by
  obtain ⟨rest, hp, hr⟩ := h.split
  have hl (x : α) (hx : x ∈ l) : dist' (f x) = dist x := hf x (h.subset hx)
  refine ⟨?_, ?_, rest.map f, ?_, ?_⟩
  · rw [Ordered, List.pairwise_map]
    exact h.ordered.imp_of_mem fun hx hy hxy => by rwa [hl _ hx, hl _ hy]
  · rw [List.length_map, List.length_map, h.length_eq]
  · rw [← List.map_append]
    exact hp.map f
  · intro u hu v hv
    obtain ⟨x, hx, rfl⟩ := List.mem_map.mp hu
    obtain ⟨y, hy, rfl⟩ := List.mem_map.mp hv
    rw [hl x hx, hf y (hp.mem_iff.mpr (List.mem_append_right _ hy))]
    exact hr x hx y hy

/-- The best of a source are the best of every part of it that holds them. -/
theorem Nearest.filter (p : α → Bool) (h : Nearest dist k src l) (hl : ∀ x ∈ l, p x = true) :
    Nearest dist k (src.filter p) l := by
  obtain ⟨rest, hp, hr⟩ := h.split
  have hsplit : (src.filter p).Perm (l ++ rest.filter p) := by
    have := hp.filter p
    rwa [List.filter_append, List.filter_eq_self.mpr hl] at this
  refine ⟨h.ordered, ?_, rest.filter p, hsplit,
    fun x hx y hy => hr x hx y (List.mem_of_mem_filter hy)⟩
  have hlen := h.length_eq
  have hle := List.length_filter_le p rest
  rw [hp.length_eq, List.length_append] at hlen
  rw [hsplit.length_eq, List.length_append]
  omega

/-- The `k` best of two sources are found from `k` or more best of each. -/
theorem Nearest.merge {m m' : ℕ} (h : Nearest dist m src l) (h' : Nearest dist m' src' l')
    (hm : k ≤ m) (hm' : k ≤ m') : Nearest dist k (src ++ src') ((merged dist l l').take k) := by
  obtain ⟨rest, hp, hr⟩ := h.split
  obtain ⟨rest', hp', hr'⟩ := h'.split
  have ho := ordered_merged h.ordered h'.ordered
  refine ⟨ho.take, ?_, (merged dist l l').drop k ++ (rest ++ rest'), ?_, ?_⟩
  · rw [List.length_take, merged_perm.length_eq, List.length_append, List.length_append,
      h.length_eq, h'.length_eq]
    omega
  · have hswap : ((l ++ rest) ++ (l' ++ rest')).Perm ((l ++ l') ++ (rest ++ rest')) := by
      rw [List.append_assoc, List.append_assoc]
      refine List.Perm.append_left l ?_
      rw [← List.append_assoc, ← List.append_assoc]
      exact List.perm_append_comm.append_right rest'
    rw [← List.append_assoc ((merged dist l l').take k), List.take_append_drop]
    calc (src ++ src').Perm ((l ++ rest) ++ (l' ++ rest')) := hp.append hp'
      _ |>.Perm ((l ++ l') ++ (rest ++ rest')) := hswap
      _ |>.Perm (merged dist l l' ++ (rest ++ rest')) := merged_perm.symm.append_right _
  · intro x hx y hy
    rcases List.mem_append.mp hy with hdrop | hy
    · exact ho.le_of_drop hx hdrop
    · have hlen := h.length_eq
      have hlen' := h'.length_eq
      rw [hp.length_eq, List.length_append] at hlen
      rw [hp'.length_eq, List.length_append] at hlen'
      rcases List.mem_append.mp hy with hy | hy
      · have hpos := List.length_pos_of_mem hy
        exact ho.le_of_subperm subperm_merged_left (by omega) (fun z hz => hr z hz y hy) hx
      · have hpos := List.length_pos_of_mem hy
        exact ho.le_of_subperm subperm_merged_right (by omega) (fun z hz => hr' z hz y hy) hx

section Names

variable [DecidableEq ι] (dist name)

/-- The elements of a list whose name is neither among `seen` nor that of an earlier one. -/
def firsts : List ι → List α → List α
  | _, [] => []
  | seen, x :: l =>
      if name x ∈ seen then firsts seen l else x :: firsts (seen ++ [name x]) l

/-- `out` holds the `k` best names of `src`, each with its best element. -/
structure NearestNames (k : ℕ) (src out : List α) : Prop where
  ordered : Ordered dist out
  nodup : (out.map name).Nodup
  subset : ∀ x ∈ out, x ∈ src
  length_eq : out.length = min k (src.map name).toFinset.card
  best : ∀ y ∈ src, (∃ x ∈ out, name x = name y ∧ dist x ≤ dist y) ∨ ∀ x ∈ out, dist x ≤ dist y

variable {dist name} {seen : List ι}

theorem firsts_sublist (seen : List ι) (l : List α) : (firsts name seen l).Sublist l := by
  induction l generalizing seen with
  | nil => exact List.Sublist.slnil
  | cons x l ih =>
      unfold firsts
      split
      · exact (ih seen).cons x
      · exact (ih _).cons_cons x

theorem not_seen_of_mem_firsts (hx : x ∈ firsts name seen l) : name x ∉ seen := by
  induction l generalizing seen with
  | nil => simp [firsts] at hx
  | cons a l ih =>
      unfold firsts at hx
      split at hx
      · exact ih hx
      · rename_i ha
        rcases List.mem_cons.mp hx with rfl | hx
        · exact ha
        · exact fun h => ih hx (List.mem_append_left _ h)

theorem nodup_firsts (seen : List ι) (l : List α) : ((firsts name seen l).map name).Nodup := by
  induction l generalizing seen with
  | nil => simp [firsts]
  | cons x l ih =>
      unfold firsts
      split
      · exact ih seen
      · rw [List.map_cons, List.nodup_cons]
        refine ⟨fun h => ?_, ih _⟩
        obtain ⟨z, hz, hname⟩ := List.mem_map.mp h
        exact not_seen_of_mem_firsts hz (by simp [hname])

/-- Every name that is not seen yet has its best element among the first ones. -/
theorem exists_firsts (name : α → ι) (seen : List ι) (ho : Ordered dist l) (hy : y ∈ l)
    (hn : name y ∉ seen) :
    ∃ x ∈ firsts name seen l, name x = name y ∧ dist x ≤ dist y := by
  induction l generalizing seen with
  | nil => simp at hy
  | cons a l ih =>
      have hol : Ordered dist l := List.Pairwise.of_cons ho
      unfold firsts
      by_cases ha : name a ∈ seen
      · rw [if_pos ha]
        rcases List.mem_cons.mp hy with rfl | hy
        · exact absurd ha hn
        · exact ih seen hol hy hn
      · rw [if_neg ha]
        by_cases hay : name a = name y
        · refine ⟨a, List.mem_cons_self, hay, ?_⟩
          rcases List.mem_cons.mp hy with rfl | hy
          · exact le_rfl
          · exact List.rel_of_pairwise_cons ho hy
        · have hyl : y ∈ l := (List.mem_cons.mp hy).resolve_left fun h => hay (h ▸ rfl)
          have hseen : name y ∉ seen ++ [name a] := by
            rw [List.mem_append, List.mem_singleton]
            rintro (h | h)
            · exact hn h
            · exact hay h.symm
          obtain ⟨x, hx, hxy⟩ := ih _ hol hyl hseen
          exact ⟨x, List.mem_cons_of_mem _ hx, hxy⟩

theorem Ordered.firsts (name : α → ι) (seen : List ι) (ho : Ordered dist w) :
    Ordered dist (firsts name seen w) :=
  List.Pairwise.sublist (firsts_sublist seen w) ho

theorem toFinset_firsts (ho : Ordered dist w) :
    ((TopK.firsts name [] w).map name).toFinset = (w.map name).toFinset := by
  ext i
  simp only [List.mem_toFinset, List.mem_map]
  constructor
  · rintro ⟨x, hx, rfl⟩
    exact ⟨x, (firsts_sublist [] w).subset hx, rfl⟩
  · rintro ⟨y, hy, rfl⟩
    obtain ⟨x, hx, hname, _⟩ := exists_firsts name [] ho hy List.not_mem_nil
    exact ⟨x, hx, hname⟩

theorem length_firsts (ho : Ordered dist w) :
    (TopK.firsts name [] w).length = (w.map name).toFinset.card := by
  rw [← toFinset_firsts ho, List.toFinset_card_of_nodup (nodup_firsts [] w), List.length_map]

/-- `k` elements with distinct names that are no worse than `y` keep every worse one from the
`k` best names. -/
theorem Ordered.firsts_le (ho : Ordered dist w) (hl : ∀ z ∈ l, z ∈ w) (hn : (l.map name).Nodup)
    (hk : l.length = k) (hy : ∀ z ∈ l, dist z ≤ dist y)
    (hx : x ∈ (TopK.firsts name [] w).take k) : dist x ≤ dist y := by
  by_contra hlt
  rw [not_le] at hlt
  have hsub : l.map name ⊆
      ((TopK.firsts name [] w).filter fun z => decide (dist z < dist x)).map name := by
    intro i hi
    obtain ⟨z, hz, rfl⟩ := List.mem_map.mp hi
    obtain ⟨u, hu, hname, hle⟩ := exists_firsts name [] ho (hl z hz) List.not_mem_nil
    refine List.mem_map.mpr ⟨u, List.mem_filter.mpr ⟨hu, ?_⟩, hname⟩
    exact decide_eq_true ((hle.trans (hy z hz)).trans_lt hlt)
  have hle := (hn.subperm hsub).length_le
  rw [List.length_map, List.length_map, hk] at hle
  exact absurd ((ho.firsts name []).rank_lt hx) (not_lt.mpr hle)

theorem le_card_of_nodup {s : Finset ι} (hn : (l.map name).Nodup)
    (hs : ∀ x ∈ l, name x ∈ s) : l.length ≤ s.card := by
  rw [← List.length_map (f := name), ← List.toFinset_card_of_nodup hn]
  refine Finset.card_le_card fun i hi => ?_
  obtain ⟨x, hx, rfl⟩ := List.mem_map.mp (List.mem_toFinset.mp hi)
  exact hs x hx

/-- The `k` best names of two sources are found from the `k` best elements of each. -/
theorem Nearest.names (h : Nearest dist k src l) (h' : Nearest dist k src' l')
    (hn : (l.map name).Nodup) (hn' : (l'.map name).Nodup) :
    NearestNames dist name k (src ++ src') ((firsts name [] (merged dist l l')).take k) := by
  have ho := ordered_merged h.ordered h'.ordered
  have hmem (y : α) (hy : y ∈ src ++ src') : y ∈ merged dist l l' ∨
      ∃ m : List α, (∀ z ∈ m, z ∈ merged dist l l') ∧ (m.map name).Nodup ∧ m.length = k ∧
        ∀ z ∈ m, dist z ≤ dist y := by
    rcases List.mem_append.mp hy with hy | hy
    · rcases h.cases hy with hy | ⟨hk, hle⟩
      · exact Or.inl (mem_merged.mpr (Or.inl hy))
      · exact Or.inr ⟨l, fun z hz => mem_merged.mpr (Or.inl hz), hn, hk, hle⟩
    · rcases h'.cases hy with hy | ⟨hk, hle⟩
      · exact Or.inl (mem_merged.mpr (Or.inr hy))
      · exact Or.inr ⟨l', fun z hz => mem_merged.mpr (Or.inr hz), hn', hk, hle⟩
  have hsub (x : α) (hx : x ∈ merged dist l l') : x ∈ src ++ src' := by
    rcases mem_merged.mp hx with hx | hx
    · exact List.mem_append_left _ (h.subset hx)
    · exact List.mem_append_right _ (h'.subset hx)
  refine ⟨(ho.firsts name []).take, ?_, ?_, ?_, ?_⟩
  · exact (nodup_firsts [] _).sublist ((List.take_sublist _ _).map name)
  · intro x hx
    exact hsub x ((firsts_sublist [] _).subset (List.mem_of_mem_take hx))
  · have hset : ((merged dist l l').map name).toFinset ⊆ ((src ++ src').map name).toFinset := by
      intro i hi
      obtain ⟨x, hx, rfl⟩ := List.mem_map.mp (List.mem_toFinset.mp hi)
      exact List.mem_toFinset.mpr (List.mem_map_of_mem (hsub x hx))
    rw [List.length_take, length_firsts ho]
    by_cases hall : ∀ y ∈ src ++ src', y ∈ merged dist l l'
    · have heq : ((merged dist l l').map name).toFinset = ((src ++ src').map name).toFinset := by
        refine hset.antisymm fun i hi => ?_
        obtain ⟨y, hy, rfl⟩ := List.mem_map.mp (List.mem_toFinset.mp hi)
        exact List.mem_toFinset.mpr (List.mem_map_of_mem (hall y hy))
      rw [heq]
    · push Not at hall
      obtain ⟨y, hy, hnot⟩ := hall
      obtain ⟨m, hm, hmn, hmk, _⟩ := (hmem y hy).resolve_left hnot
      have hk : k ≤ ((merged dist l l').map name).toFinset.card := by
        rw [← hmk]
        exact le_card_of_nodup hmn fun x hx =>
          List.mem_toFinset.mpr (List.mem_map_of_mem (hm x hx))
      rw [min_eq_left hk, min_eq_left (hk.trans (Finset.card_le_card hset))]
  · intro y hy
    rcases hmem y hy with hy | ⟨m, hm, hmn, hmk, hle⟩
    · obtain ⟨x, hx, hname, hxy⟩ := exists_firsts name [] ho hy List.not_mem_nil
      rw [← List.take_append_drop k (TopK.firsts name [] (merged dist l l')),
        List.mem_append] at hx
      rcases hx with hx | hx
      · exact Or.inl ⟨x, hx, hname, hxy⟩
      · exact Or.inr fun z hz => ((ho.firsts name []).le_of_drop hz hx).trans hxy
    · exact Or.inr fun x hx => ho.firsts_le hm hmn hmk hle hx

end Names

end TopK
