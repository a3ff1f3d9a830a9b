import Mathlib.Data.List.Induction
import Mathlib.Data.Option.Basic

/-! # Doubly linked lists

Cells named by `α`, with two partial successor maps. `Seg` is the segment predicate: the cells
of `l` in order, entered from `p` and left to `q`. The list is the ghost content of the two
maps, and the operations below are stated by what they do to it.
-/

namespace Chain

variable {α : Type*} {next prev next' prev' : α → Option α} {p p' q q' : Option α}
  {l xs ys old : List α}

/-- The cells of `l` are linked both ways, the first one back to `p`, the last one on to `q`. -/
def Seg (next prev : α → Option α) : Option α → List α → Option α → Prop
  | _, [], _ => True
  | p, a :: l, q => prev a = p ∧ next a = l.head?.or q ∧ Seg next prev (some a) l q

@[simp] theorem seg_nil : Seg next prev p [] q := trivial

theorem seg_cons (a : α) : Seg next prev p (a :: l) q ↔
    prev a = p ∧ next a = l.head?.or q ∧ Seg next prev (some a) l q := Iff.rfl

theorem seg_append : Seg next prev p (xs ++ ys) q ↔
    Seg next prev p xs (ys.head?.or q) ∧ Seg next prev (xs.getLast?.or p) ys q := by
  induction xs generalizing p with
  | nil => simp
  | cons a xs ih =>
      have hlast : (a :: xs).getLast?.or p = xs.getLast?.or (some a) := by
        cases h : xs.getLast? <;> simp [List.getLast?_cons, h]
      rw [List.cons_append, seg_cons, seg_cons, ih, hlast, List.head?_append, Option.or_assoc]
      simp only [and_assoc]

theorem Seg.congr (hn : ∀ a ∈ l, next' a = next a) (hp : ∀ a ∈ l, prev' a = prev a)
    (h : Seg next prev p l q) : Seg next' prev' p l q := by
  induction l generalizing p with
  | nil => trivial
  | cons a l ih =>
      obtain ⟨h₁, h₂, h₃⟩ := h
      refine ⟨?_, ?_, ih ?_ ?_ h₃⟩
      · rw [hp a List.mem_cons_self, h₁]
      · rw [hn a List.mem_cons_self, h₂]
      · exact fun b hb => hn b (List.mem_cons_of_mem a hb)
      · exact fun b hb => hp b (List.mem_cons_of_mem a hb)

/-- The last cell is led elsewhere. -/
theorem Seg.set_next (hl : l.Nodup)
    (hlast : ∀ a, l.getLast? = some a → next' a = q')
    (hn : ∀ a ∈ l, l.getLast? ≠ some a → next' a = next a)
    (h : Seg next prev p l q) : Seg next' prev p l q' := by
  induction l generalizing p with
  | nil => trivial
  | cons a l ih =>
      obtain ⟨h₁, h₂, h₃⟩ := h
      obtain ⟨ha, hl⟩ := List.nodup_cons.mp hl
      cases l with
      | nil => exact ⟨h₁, by simpa using hlast a, trivial⟩
      | cons b l =>
          have hab : (b :: l).getLast? ≠ some a := fun h => ha (List.mem_of_getLast? h)
          refine ⟨h₁, ?_, ih hl ?_ ?_ h₃⟩
          · simpa [hn a List.mem_cons_self (by simpa using hab)] using h₂
          · exact fun c hc => hlast c (by simpa using hc)
          · exact fun c hc hne => hn c (List.mem_cons_of_mem a hc) (by simpa using hne)

/-- The first cell is led back elsewhere. -/
theorem Seg.set_prev (hl : l.Nodup)
    (hhead : ∀ a, l.head? = some a → prev' a = p')
    (hp : ∀ a ∈ l, l.head? ≠ some a → prev' a = prev a)
    (h : Seg next prev p l q) : Seg next prev' p' l q := by
  cases l with
  | nil => trivial
  | cons a l =>
      obtain ⟨-, h₂, h₃⟩ := h
      obtain ⟨ha, -⟩ := List.nodup_cons.mp hl
      refine ⟨hhead a rfl, h₂, h₃.congr (fun _ _ => rfl) ?_⟩
      intro b hb
      refine hp b (List.mem_cons_of_mem a hb) ?_
      rintro ⟨⟩
      exact ha hb

section Splice

variable [DecidableEq α] (new : α)

/-- The `next` map after `new` is wired between `p` and `q`. -/
def spliceNext (next : α → Option α) (p q : Option α) (a : α) : Option α :=
  if p = some a then some new else if a = new then q else next a

/-- The `prev` map after `new` is wired between `p` and `q`. -/
def splicePrev (prev : α → Option α) (p q : Option α) (a : α) : Option α :=
  if q = some a then some new else if a = new then p else prev a

/-- Wiring a new cell between the neighbours of a run of cells puts it in their place. -/
theorem Seg.splice (h : Seg next prev none (xs ++ old ++ ys) none)
    (hl : (xs ++ old ++ ys).Nodup) (hx : new ∉ xs) (hy : new ∉ ys) :
    Seg (spliceNext new next xs.getLast? ys.head?) (splicePrev new prev xs.getLast? ys.head?)
      none (xs ++ new :: ys) none := by
  have hxs : Seg next prev none xs ((old ++ ys).head?.or none) :=
    (seg_append.mp (List.append_assoc xs old ys ▸ h)).1
  have hys := (seg_append.mp h).2
  have hdisj : ∀ a ∈ xs, a ∉ ys := fun a ha hb =>
    (List.nodup_append.mp hl).2.2 a (List.mem_append_left old ha) a hb rfl
  have hnx : xs.Nodup := (List.nodup_append.mp (List.nodup_append.mp hl).1).1
  have hny : ys.Nodup := (List.nodup_append.mp hl).2.1
  have hlx : ∀ a ∈ ys, xs.getLast? ≠ some a := fun a ha h =>
    hdisj a (List.mem_of_getLast? h) ha
  have hhy : ∀ a ∈ xs, ys.head? ≠ some a := fun a ha h => hdisj a ha (List.mem_of_head? h)
  have hxn : xs.getLast? ≠ some new := fun h => hx (List.mem_of_getLast? h)
  have hyn : ys.head? ≠ some new := fun h => hy (List.mem_of_head? h)
  rw [seg_append, seg_cons]
  refine ⟨?_, ?_, ?_, ?_⟩
  · refine (hxs.set_next hnx ?_ ?_).congr (fun _ _ => rfl) ?_
    · intro a ha
      simp [spliceNext, ha]
    · intro a ha hne
      simp [spliceNext, hne, ne_of_mem_of_not_mem ha hx]
    · intro a ha
      simp [splicePrev, hhy a ha, ne_of_mem_of_not_mem ha hx]
  · simp [splicePrev, hyn]
  · simp [spliceNext, hxn]
  · refine (hys.set_prev hny ?_ ?_).congr ?_ (fun _ _ => rfl)
    · intro a ha
      simp [splicePrev, ha]
    · intro a ha hne
      simp [splicePrev, hne, ne_of_mem_of_not_mem ha hy]
    · intro a ha
      simp [spliceNext, hlx a ha, ne_of_mem_of_not_mem ha hy]

end Splice

section Walk

/-- The cells met by following `next` from `idx`, at most `fuel` of them. -/
def walk (next : α → Option α) : ℕ → Option α → List α
  | 0, _ => []
  | _ + 1, none => []
  | fuel + 1, some a => a :: walk next fuel (next a)

/-- The same walk, which also stops behind `tail`. -/
def walkTo [DecidableEq α] (next : α → Option α) (tail : Option α) : ℕ → Option α → List α
  | 0, _ => []
  | _ + 1, none => []
  | fuel + 1, some a => if tail = some a then [a] else a :: walkTo next tail fuel (next a)

/-- The first cell met by following `prev` from `idx` at which the walk stops. -/
def seekBack (prev : α → Option α) (stop : α → Bool) : ℕ → Option α → Option α
  | 0, _ => none
  | _ + 1, none => none
  | fuel + 1, some a => if stop a then some a else seekBack prev stop fuel (prev a)

theorem walk_eq {fuel : ℕ} (h : Seg next prev p l none) (hf : l.length ≤ fuel) :
    walk next fuel l.head? = l := by
  induction l generalizing p fuel with
  | nil => cases fuel <;> rfl
  | cons a l ih =>
      cases fuel with
      | zero => simp at hf
      | succ fuel =>
          obtain ⟨-, h₂, h₃⟩ := h
          rw [List.head?_cons, walk, h₂, Option.or_none, ih h₃ (by simpa using hf)]

theorem walkTo_eq [DecidableEq α] {fuel : ℕ} (h : Seg next prev p l none) (hl : l.Nodup)
    (hf : l.length ≤ fuel) : walkTo next l.getLast? fuel l.head? = l := by
  induction l generalizing p fuel with
  | nil => cases fuel <;> rfl
  | cons a l ih =>
      cases fuel with
      | zero => simp at hf
      | succ fuel =>
          obtain ⟨-, h₂, h₃⟩ := h
          obtain ⟨ha, hl⟩ := List.nodup_cons.mp hl
          cases l with
          | nil => simp [walkTo]
          | cons b l =>
              have hab : (b :: l).getLast? ≠ some a := fun h => ha (List.mem_of_getLast? h)
              have hlast : (a :: b :: l).getLast? = (b :: l).getLast? := by simp
              rw [List.head?_cons, walkTo, hlast, if_neg hab, h₂, Option.or_none,
                ih h₃ hl (by simpa using hf)]

/-- Where the cells that do not stop the walk are the last ones, it stops right before them. -/
theorem seekBack_eq {fuel : ℕ} (stop : α → Bool) (h : Seg next prev none (xs ++ ys) q)
    (hx : ∀ a, xs.getLast? = some a → stop a) (hy : ∀ a ∈ ys, ¬ stop a)
    (hf : (xs ++ ys).length ≤ fuel) :
    seekBack prev stop fuel (xs ++ ys).getLast? = xs.getLast? := by
  induction ys using List.reverseRecOn generalizing q fuel with
  | nil =>
      rw [List.append_nil] at hf ⊢
      cases hlast : xs.getLast? with
      | none => cases fuel <;> rfl
      | some a =>
          cases fuel with
          | zero => simp_all
          | succ fuel => rw [seekBack, if_pos (hx a hlast)]
  | append_singleton ys b ih =>
      cases fuel with
      | zero => simp at hf
      | succ fuel =>
          rw [← List.append_assoc] at h
          obtain ⟨hpre, hb, -⟩ := seg_append.mp h
          have hstop : ¬ stop b := hy b (by simp)
          rw [← List.append_assoc, List.getLast?_concat, seekBack, if_neg hstop, hb,
            Option.or_none]
          refine ih hpre (fun a ha => hy a (List.mem_append_left _ ha)) ?_
          simpa [← Nat.add_assoc] using hf

end Walk

end Chain
