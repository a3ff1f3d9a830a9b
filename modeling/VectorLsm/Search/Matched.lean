import Mathlib.Data.List.Nodup
import VectorLsm.Search.Machine

/-! # Results and the searches they are for

A result slot answers the search its process waits for as long as no earlier search of that
process is left in the ring or with the threads when the next one is sent.
-/

namespace VectorLsm.Search

open Transition

variable {D V I : Type} {cfg : Config D V I} {s s' : State D V I}

/-- The number of a search task. -/
def TaskSlot.req : TaskSlot V → Option ℕ
  | .search req _ _ => some req
  | .maintenance => none

def TaskSlot.procno : TaskSlot V → Option ℕ
  | .search _ p _ => some p
  | .maintenance => none

/-- What a backend used was computed for its own search: written by it, and the merge of the
hits of some segments for its query. -/
structure Matches (cfg : Config D V I) (c : Consumed D V) : Prop where
  countReq : c.resultCount.req = some c.req
  pairsReq : c.pairs.req = some c.req
  count : c.resultCount.value = c.pairs.value.length
  pairs : ∃ gs : List (Segment I),
    c.pairs.value = mergeAll cfg.le c.query.topk (gs.map (searchSegment cfg c.query))

/-- The condition on a step: a process that sends a search has no earlier one under way. -/
def Alone (s : State D V I) : Action V I → Prop
  | .send p _ => (∀ t ∈ s.ring, t.procno ≠ some p) ∧
      ∀ n < s.next, ∀ c ∈ s.contexts n, c.procno ≠ p
  | _ => True

instance (s : State D V I) (a : Action V I) : Decidable (Alone s a) := by
  cases a <;> unfold Alone <;> infer_instance

/-- Search `n` of process `p` is in the ring or with the threads. -/
def Outstanding (s : State D V I) (p n : ℕ) : Prop :=
  (∃ q, .search n p q ∈ s.ring) ∨ ∃ c, s.contexts n = some c ∧ c.procno = p

/-- The slot holds the whole result of search `n`. -/
def Complete (cfg : Config D V I) (r : ResultSlot D) (n : ℕ) (q : Query V) : Prop :=
  (∃ gs : List (Segment I),
    r.pairs = ⟨mergeAll cfg.le q.topk (gs.map (searchSegment cfg q)), some n⟩) ∧
    r.resultCount = ⟨r.pairs.value.length, some n⟩

/-- The threads of a context have searched for its query, and its last finisher has written what
its phase says. -/
structure Context.Sound (cfg : Config D V I) (c : Context D V I) (n : ℕ) (r : ResultSlot D) :
    Prop where
  searched : ∀ cell ∈ c.cells, ∀ ps, cell.pairs = some ps →
    ps = searchSegment cfg c.query cell.segment
  remaining : c.remainingCount = c.cells.countP fun cell => cell.pairs.isNone
  merged : c.phase ≠ .searching → c.remainingCount = 0
  counted : c.phase = .counted ∨ c.phase = .written →
    r.resultCount = ⟨(c.finalPairs cfg).length, some n⟩
  written : c.phase = .written → r.pairs = ⟨c.finalPairs cfg, some n⟩

/-- The search process `p` waits for is under way, or it is the last one done for `p`. -/
inductive Awaited (cfg : Config D V I) (s : State D V I) (p n : ℕ) (q : Query V) : Prop
  | running (h : Outstanding s p n) (hstatus : (s.results p).status = 0)
      (hring : ∀ q', .search n p q' ∈ s.ring → q' = q)
      (hctx : ∀ c, s.contexts n = some c → c.query = q)
  | done (h : ∀ m, ¬ Outstanding s p m) (hslot : Complete cfg (s.results p) n q)

structure Inv (cfg : Config D V I) (s : State D V I) : Prop where
  ringLt : ∀ n p q, .search n p q ∈ s.ring → n < s.next
  ctxLt : ∀ n c, s.contexts n = some c → n < s.next
  ringOnce : (s.ring.filterMap TaskSlot.req).Nodup
  apart : ∀ n p q, .search n p q ∈ s.ring → s.contexts n = none
  alone : ∀ p n m, Outstanding s p n → Outstanding s p m → n = m
  sound : ∀ n c, s.contexts n = some c → c.Sound cfg n (s.results c.procno)
  waiting : ∀ p n q, s.backends p = .waiting n q → Awaited cfg s p n q
  reading : ∀ p n q, s.backends p = .reading n q →
    (∀ m, ¬ Outstanding s p m) ∧ Complete cfg (s.results p) n q
  consumed : ∀ c ∈ s.consumed, Matches cfg c

namespace Context

variable {c : Context D V I} {n : ℕ} {r : ResultSlot D}

theorem Sound.finalPairs (h : c.Sound cfg n r) (hz : c.remainingCount = 0) :
    c.finalPairs cfg =
      mergeAll cfg.le c.query.topk
        ((c.cells.map Cell.segment).map (searchSegment cfg c.query)) := by
  have hnone : ∀ cell ∈ c.cells, ¬ cell.pairs.isNone = true := by
    have := h.remaining
    rw [hz, eq_comm, List.countP_eq_zero] at this
    exact this
  unfold Context.finalPairs
  rw [List.map_map]
  congr 1
  apply List.map_congr_left
  intro cell hcell
  cases hp : cell.pairs with
  | none => exact absurd (by simp [hp]) (hnone cell hcell)
  | some ps => simp [h.searched cell hcell ps hp]

theorem Sound.complete (h : c.Sound cfg n r) (hw : c.phase = .written) :
    Complete cfg r n c.query := by
  have hz := h.merged (by simp [hw])
  have hp := h.written hw
  refine ⟨⟨c.cells.map Cell.segment, ?_⟩, ?_⟩
  · rw [hp, h.finalPairs hz]
  · rw [h.counted (Or.inr hw), hp]

theorem sound_start (cfg : Config D V I) (p n : ℕ) (q : Query V) (gs : List (Segment I))
    (r : ResultSlot D) : (Context.start (D := D) p q gs).Sound cfg n r := by
  unfold Context.start
  constructor
  case searched =>
    intro cell hcell ps hps
    obtain ⟨g, -, rfl⟩ := List.mem_map.mp hcell
    simp at hps
  case remaining => simp [List.countP_map, Function.comp_def]
  case merged =>
    intro hph
    by_cases he : segmentsToSearch q gs = [] <;> simp_all
  case counted =>
    dsimp only
    split <;> simp
  case written =>
    dsimp only
    split <;> simp

/-- A thread that ends leaves one segment less to wait for. -/
theorem Sound.finish (h : c.Sound cfg n r) {i : ℕ} {cell : Cell D I} (hi : c.cells[i]? = some cell)
    (hcell : cell.pairs = none) : (c.finish cfg i cell).Sound cfg n r := by
  obtain ⟨hlt, hget⟩ := List.getElem?_eq_some_iff.mp hi
  have hpos : 0 < c.remainingCount := by
    rw [h.remaining, List.countP_pos_iff]
    exact ⟨cell, List.mem_of_getElem? hi, by simp [hcell]⟩
  have hcount : (c.cells.set i
      { cell with pairs := some (searchSegment cfg c.query cell.segment) }).countP
        (fun cell => cell.pairs.isNone) = c.remainingCount - 1 := by
    rw [List.countP_set hlt, hget, h.remaining]
    simp [hcell]
  unfold Context.finish
  constructor
  case searched =>
    intro x hx ps hps
    rcases List.mem_or_eq_of_mem_set hx with hx | rfl
    · exact h.searched x hx ps hps
    · exact (Option.some.inj hps).symm
  case remaining => exact hcount.symm
  case merged =>
    intro hph
    dsimp only at hph ⊢
    by_contra hne
    exact hph (if_neg hne)
  case counted =>
    dsimp only
    split <;> simp
  case written =>
    dsimp only
    split <;> simp

end Context

theorem outstanding_congr {s s' : State D V I} {p n : ℕ} (hring : s'.ring = s.ring)
    (hctx : s'.contexts = s.contexts) : Outstanding s' p n ↔ Outstanding s p n := by
  rw [Outstanding, Outstanding, hring, hctx]

/-- Awaiting a search looks at the ring, the contexts and one slot. -/
theorem Awaited.congr {p n : ℕ} {q : Query V} (h : Awaited cfg s p n q)
    (hring : s'.ring = s.ring) (hctx : s'.contexts = s.contexts)
    (hres : s'.results p = s.results p) : Awaited cfg s' p n q := by
  cases h with
  | running h hst hr hc =>
      refine .running ((outstanding_congr hring hctx).mpr h) (hres ▸ hst) ?_ ?_
      · rwa [hring]
      · rwa [hctx]
  | done h hslot =>
      exact .done (fun m hm => h m ((outstanding_congr hring hctx).mp hm)) (hres ▸ hslot)

namespace Inv

variable {p n : ℕ} {q : Query V} {c : Context D V I}

theorem init (h : Init s) : Inv cfg s := by
  obtain ⟨hring, hctx, -, hback, hcons⟩ := h
  have hout : ∀ p m, ¬ Outstanding s p m := by
    rintro p m (⟨q, hq⟩ | ⟨c, hc, -⟩)
    · simp [hring] at hq
    · simp [hctx] at hc
  constructor
  case alone => exact fun p n m hn => (hout p n hn).elim
  all_goals simp [hring, hctx, hback, hcons]

/-- A backend leaves its search, or moves on in it. -/
theorem setBackend (h : Inv cfg s) {b : Backend V}
    (hw : ∀ n q, b = .waiting n q → Awaited cfg s p n q)
    (hr : ∀ n q, b = .reading n q →
      (∀ m, ¬ Outstanding s p m) ∧ Complete cfg (s.results p) n q) :
    Inv cfg (s.setBackend p b) := by
  have hout : ∀ p' m, Outstanding (s.setBackend p b) p' m ↔ Outstanding s p' m := fun p' m =>
    outstanding_congr rfl rfl
  constructor
  case ringLt => exact h.ringLt
  case ctxLt => exact h.ctxLt
  case ringOnce => exact h.ringOnce
  case apart => exact h.apart
  case alone => simpa only [hout] using h.alone
  case sound => exact h.sound
  case waiting =>
    intro p' n q hb
    by_cases hp : p' = p
    · subst hp
      exact (hw n q (by simpa [State.setBackend] using hb)).congr rfl rfl rfl
    · exact (h.waiting p' n q (by simpa [State.setBackend, hp] using hb)).congr rfl rfl rfl
  case reading =>
    intro p' n q hb
    simp only [hout]
    by_cases hp : p' = p
    · subst hp
      exact hr n q (by simpa [State.setBackend] using hb)
    · exact h.reading p' n q (by simpa [State.setBackend, hp] using hb)
  case consumed => exact h.consumed

theorem not_outstanding (h : ∀ t ∈ s.ring, t.procno ≠ some p)
    (hc : ∀ n c, s.contexts n = some c → c.procno ≠ p) (m : ℕ) : ¬ Outstanding s p m := by
  rintro (⟨q, hq⟩ | ⟨c, hm, hp⟩)
  · exact h _ hq rfl
  · exact hc m c hm hp

/-- A process that is alone sends its next search. -/
theorem send (h : Inv cfg s) (hout : ∀ m, ¬ Outstanding s p m) : Inv cfg (s.send p q) := by
  have hmem : ∀ n p' q', .search n p' q' ∈ (s.send p q).ring ↔
      .search n p' q' ∈ s.ring ∨ (n = s.next ∧ p' = p ∧ q' = q) := by
    intro n p' q'
    simp [State.send]
  have hout' : ∀ p' m, Outstanding (s.send p q) p' m ↔
      Outstanding s p' m ∨ (p' = p ∧ m = s.next) := by
    intro p' m
    simp only [Outstanding, hmem]
    have hctx : (s.send p q).contexts = s.contexts := rfl
    rw [hctx]
    constructor
    · rintro (⟨q', hq | ⟨rfl, rfl, rfl⟩⟩ | hc)
      · exact Or.inl (Or.inl ⟨q', hq⟩)
      · exact Or.inr ⟨rfl, rfl⟩
      · exact Or.inl (Or.inr hc)
    · rintro ((⟨q', hq⟩ | hc) | ⟨rfl, rfl⟩)
      · exact Or.inl ⟨q', Or.inl hq⟩
      · exact Or.inr hc
      · exact Or.inl ⟨q, Or.inr ⟨rfl, rfl, rfl⟩⟩
  have hother : ∀ p', p' ≠ p → (s.send p q).results p' = s.results p' := by
    intro p' hp
    simp [State.send, hp]
  have hnone : ∀ n c, s.contexts n = some c → c.procno ≠ p := by
    rintro n c hc rfl
    exact hout n (Or.inr ⟨c, hc, rfl⟩)
  constructor
  case ringLt =>
    intro n p' q' hn
    rcases (hmem n p' q').mp hn with hn | ⟨rfl, -, -⟩
    · exact (h.ringLt n p' q' hn).trans (Nat.lt_succ_self _)
    · exact Nat.lt_succ_self _
  case ctxLt => exact fun n c hc => (h.ctxLt n c hc).trans (Nat.lt_succ_self _)
  case ringOnce =>
    have hnew : s.next ∉ s.ring.filterMap TaskSlot.req := by
      intro hn
      obtain ⟨t, ht, hreq⟩ := List.mem_filterMap.mp hn
      cases t with
      | search n p' q' =>
          obtain rfl := Option.some.inj hreq
          exact (h.ringLt _ p' q' ht).false
      | maintenance => cases hreq
    show ((s.ring ++ [_]).filterMap TaskSlot.req).Nodup
    rw [List.filterMap_append]
    exact h.ringOnce.append (by simp [TaskSlot.req]) (by simpa [TaskSlot.req] using hnew)
  case apart =>
    intro n p' q' hn
    rcases (hmem n p' q').mp hn with hn | ⟨rfl, -, -⟩
    · exact h.apart n p' q' hn
    · show s.contexts s.next = none
      by_contra hne
      obtain ⟨c, hc⟩ := Option.ne_none_iff_exists'.mp hne
      exact (h.ctxLt _ c hc).false
  case alone =>
    intro p' n m hn hm
    rcases (hout' p' n).mp hn with hn | ⟨rfl, rfl⟩ <;>
      rcases (hout' p' m).mp hm with hm | ⟨hp, rfl⟩
    · exact h.alone p' n m hn hm
    · exact absurd hn (hp ▸ hout n)
    · exact absurd hm (hout m)
    · rfl
  case sound =>
    intro n c hc
    rw [hother c.procno (hnone n c hc)]
    exact h.sound n c hc
  case waiting =>
    intro p' n q' hb
    by_cases hp : p' = p
    · subst hp
      obtain ⟨rfl, rfl⟩ : s.next = n ∧ q = q' := by simpa [State.send] using hb
      refine .running ((hout' p' _).mpr (Or.inr ⟨rfl, rfl⟩)) (by simp [State.send]) ?_ ?_
      · intro q' hq
        rcases (hmem _ p' q').mp hq with hq | ⟨-, -, rfl⟩
        · exact absurd (Or.inl ⟨q', hq⟩) (hout _)
        · rfl
      · intro c hc
        exact absurd (h.ctxLt _ c hc) (lt_irrefl _)
    · have hb : s.backends p' = .waiting n q' := by simpa [State.send, hp] using hb
      cases h.waiting p' n q' hb with
      | running ho hst hr hc =>
          refine .running ((hout' p' n).mpr (Or.inl ho)) ?_ ?_ hc
          · rwa [hother p' hp]
          · intro q'' hq
            rcases (hmem n p' q'').mp hq with hq | ⟨-, rfl, -⟩
            · exact hr q'' hq
            · exact absurd rfl hp
      | done ho hslot =>
          refine .done ?_ (by rwa [hother p' hp])
          intro m hm
          rcases (hout' p' m).mp hm with hm | ⟨hp', -⟩
          · exact ho m hm
          · exact hp hp'
  case reading =>
    intro p' n q' hb
    by_cases hp : p' = p
    · simp [State.send, hp] at hb
    · obtain ⟨ho, hslot⟩ := h.reading p' n q' (by simpa [State.send, hp] using hb)
      refine ⟨?_, by rwa [hother p' hp]⟩
      intro m hm
      rcases (hout' p' m).mp hm with hm | ⟨hp', -⟩
      · exact ho m hm
      · exact hp hp'
  case consumed => exact h.consumed

/-- A maintenance task enters or leaves the ring. -/
theorem setRing (h : Inv cfg s) {ring : List (TaskSlot V)}
    (hmem : ∀ n p q, .search n p q ∈ ring ↔ .search n p q ∈ s.ring)
    (honce : ring.filterMap TaskSlot.req = s.ring.filterMap TaskSlot.req) :
    Inv cfg { s with ring := ring } := by
  have hout : ∀ p m, Outstanding { s with ring := ring } p m ↔ Outstanding s p m := by
    intro p m
    simp [Outstanding, hmem]
  constructor
  case ringLt => simpa only [hmem] using h.ringLt
  case ctxLt => exact h.ctxLt
  case ringOnce => simpa only [honce] using h.ringOnce
  case apart => simpa only [hmem] using h.apart
  case alone => simpa only [hout] using h.alone
  case sound => exact h.sound
  case waiting =>
    intro p n q hb
    cases h.waiting p n q hb with
    | running ho hst hr hc =>
        exact .running ((hout p n).mpr ho) hst (fun q' hq => hr q' ((hmem n p q').mp hq)) hc
    | done ho hslot => exact .done (fun m hm => ho m ((hout p m).mp hm)) hslot
  case reading => simpa only [hout] using h.reading
  case consumed => exact h.consumed

/-- The worker turns the head of the ring into a context. -/
theorem dispatch (h : Inv cfg s) {ring : List (TaskSlot V)} (hr : s.ring = .search n p q :: ring)
    (gs : List (Segment I)) :
    Inv cfg ({ s with ring := ring }.setContext n (some (.start p q gs))) := by
  set s' := ({ s with ring := ring } : State D V I).setContext n (some (.start p q gs)) with hs'
  have hhead : .search n p q ∈ s.ring := by simp [hr]
  have hnone := h.apart n p q hhead
  have hsub : ∀ t ∈ ring, t ∈ s.ring := fun t ht => by simp [hr, ht]
  have honce : n ∉ ring.filterMap TaskSlot.req ∧ (ring.filterMap TaskSlot.req).Nodup := by
    have := h.ringOnce
    rw [hr] at this
    exact List.nodup_cons.mp this
  have hfresh : ∀ p' q', .search n p' q' ∉ ring := fun p' q' hmem =>
    honce.1 (List.mem_filterMap.mpr ⟨_, hmem, rfl⟩)
  have hctx : ∀ m c, s'.contexts m = some c ↔
      (m = n ∧ c = .start p q gs) ∨ (m ≠ n ∧ s.contexts m = some c) := by
    intro m c
    by_cases hm : m = n
    · subst hm
      simp [hs', State.setContext, eq_comm]
    · simp [hs', State.setContext, hm]
  have hout : ∀ p' m, Outstanding s' p' m ↔ Outstanding s p' m := by
    intro p' m
    constructor
    · rintro (⟨q', hq⟩ | ⟨c, hc, rfl⟩)
      · exact Or.inl ⟨q', hsub _ hq⟩
      · rcases (hctx m c).mp hc with ⟨rfl, rfl⟩ | ⟨-, hc⟩
        · exact Or.inl ⟨q, hhead⟩
        · exact Or.inr ⟨c, hc, rfl⟩
    · rintro (⟨q', hq⟩ | ⟨c, hc, rfl⟩)
      · rw [hr, List.mem_cons] at hq
        rcases hq with hq | hq
        · obtain ⟨rfl, rfl, rfl⟩ : m = n ∧ p' = p ∧ q' = q := by simpa using hq
          exact Or.inr ⟨_, (hctx m _).mpr (Or.inl ⟨rfl, rfl⟩), rfl⟩
        · exact Or.inl ⟨q', hq⟩
      · have hm : m ≠ n := by
          rintro rfl
          simp [hnone] at hc
        exact Or.inr ⟨c, (hctx m c).mpr (Or.inr ⟨hm, hc⟩), rfl⟩
  constructor
  case ringLt => exact fun m p' q' hm => h.ringLt m p' q' (hsub _ hm)
  case ctxLt =>
    intro m c hc
    rcases (hctx m c).mp hc with ⟨rfl, -⟩ | ⟨-, hc⟩
    · exact h.ringLt m p q hhead
    · exact h.ctxLt m c hc
  case ringOnce => exact honce.2
  case apart =>
    intro m p' q' hm
    have hmn : m ≠ n := by
      rintro rfl
      exact hfresh p' q' hm
    show Function.update s.contexts n _ m = none
    rw [Function.update_of_ne hmn]
    exact h.apart m p' q' (hsub _ hm)
  case alone => simpa only [hout] using h.alone
  case sound =>
    intro m c hc
    rcases (hctx m c).mp hc with ⟨rfl, rfl⟩ | ⟨-, hc⟩
    · exact Context.sound_start cfg p m q gs _
    · exact h.sound m c hc
  case waiting =>
    intro p' m q' hb
    cases h.waiting p' m q' hb with
    | running ho hst hring hc =>
        refine .running ((hout p' m).mpr ho) hst (fun q'' hq => hring q'' (hsub _ hq)) ?_
        intro c hc'
        rcases (hctx m c).mp hc' with ⟨rfl, rfl⟩ | ⟨-, hc'⟩
        · have hp : p' = p := by
            rcases ho with ⟨q'', hq⟩ | ⟨c, hc'', -⟩
            · have hq' := hq
              rw [hr, List.mem_cons] at hq'
              rcases hq' with hq' | hq'
              · exact (by simpa using hq' : p' = p ∧ q'' = q).1
              · exact absurd hq' (hfresh p' q'')
            · simp [hnone] at hc''
          exact hring q (hp ▸ hhead)
        · exact hc c hc'
    | done ho hslot => exact .done (fun m' hm => ho m' ((hout p' m').mp hm)) hslot
  case reading =>
    intro p' m q' hb
    obtain ⟨ho, hslot⟩ := h.reading p' m q' hb
    exact ⟨fun m' hm => ho m' ((hout p' m').mp hm), hslot⟩
  case consumed => exact h.consumed

/-- A context goes on, and may write the parts of the slot that its process does not read yet. -/
theorem setContext (h : Inv cfg s) (hc : s.contexts n = some c) {c' : Context D V I}
    {r : ResultSlot D} (hp : c'.procno = c.procno) (hq : c'.query = c.query)
    (hst : r.status = (s.results c.procno).status) (hs : c'.Sound cfg n r) :
    Inv cfg ((s.setResult c.procno r).setContext n (some c')) := by
  set s' := (s.setResult c.procno r).setContext n (some c') with hs'
  have hctx : ∀ m d, s'.contexts m = some d ↔
      (m = n ∧ d = c') ∨ (m ≠ n ∧ s.contexts m = some d) := by
    intro m d
    by_cases hm : m = n
    · subst hm
      simp [hs', State.setContext, eq_comm]
    · simp [hs', State.setContext, State.setResult, hm]
  have hres : ∀ p', s'.results p' = if p' = c.procno then r else s.results p' := by
    intro p'
    by_cases hp' : p' = c.procno <;> simp [hs', State.setContext, State.setResult, hp']
  have hmine : Outstanding s c.procno n := Or.inr ⟨c, hc, rfl⟩
  have hout : ∀ p' m, Outstanding s' p' m ↔ Outstanding s p' m := by
    intro p' m
    refine or_congr Iff.rfl ⟨?_, ?_⟩
    · rintro ⟨d, hd, rfl⟩
      rcases (hctx m d).mp hd with ⟨rfl, rfl⟩ | ⟨-, hd⟩
      · exact ⟨c, hc, hp.symm⟩
      · exact ⟨d, hd, rfl⟩
    · rintro ⟨d, hd, rfl⟩
      by_cases hm : m = n
      · subst hm
        obtain rfl := Option.some.inj (hc.symm.trans hd)
        exact ⟨c', (hctx m c').mpr (Or.inl ⟨rfl, rfl⟩), hp⟩
      · exact ⟨d, (hctx m d).mpr (Or.inr ⟨hm, hd⟩), rfl⟩
  constructor
  case ringLt => exact h.ringLt
  case ctxLt =>
    intro m d hd
    rcases (hctx m d).mp hd with ⟨rfl, -⟩ | ⟨-, hd⟩
    · exact h.ctxLt m c hc
    · exact h.ctxLt m d hd
  case ringOnce => exact h.ringOnce
  case apart =>
    intro m p' q' hm
    have hmn : m ≠ n := by
      rintro rfl
      simp [h.apart m p' q' hm] at hc
    show Function.update s.contexts n _ m = none
    rw [Function.update_of_ne hmn]
    exact h.apart m p' q' hm
  case alone => simpa only [hout] using h.alone
  case sound =>
    intro m d hd
    rcases (hctx m d).mp hd with ⟨rfl, rfl⟩ | ⟨hm, hd⟩
    · rwa [hres, if_pos hp]
    · have hdp : d.procno ≠ c.procno := fun he =>
        hm (h.alone c.procno m n (Or.inr ⟨d, hd, he⟩) hmine)
      rw [hres, if_neg hdp]
      exact h.sound m d hd
  case waiting =>
    intro p' m q' hb
    cases h.waiting p' m q' hb with
    | running ho hst' hring hq' =>
        refine .running ((hout p' m).mpr ho) ?_ hring ?_
        · rw [hres]
          by_cases hp' : p' = c.procno
          · rw [if_pos hp', hst, ← hp', hst']
          · rw [if_neg hp', hst']
        · intro d hd
          rcases (hctx m d).mp hd with ⟨rfl, rfl⟩ | ⟨-, hd⟩
          · exact hq.trans (hq' c hc)
          · exact hq' d hd
    | done ho hslot =>
        have hp' : p' ≠ c.procno := by
          rintro rfl
          exact ho n hmine
        refine .done (fun m' hm => ho m' ((hout p' m').mp hm)) ?_
        rwa [hres, if_neg hp']
  case reading =>
    intro p' m q' hb
    obtain ⟨ho, hslot⟩ := h.reading p' m q' hb
    have hp' : p' ≠ c.procno := by
      rintro rfl
      exact ho n hmine
    refine ⟨fun m' hm => ho m' ((hout p' m').mp hm), ?_⟩
    rwa [hres, if_neg hp']
  case consumed => exact h.consumed

/-- The last finisher publishes the slot and frees its context. -/
theorem publish (h : Inv cfg s) (hc : s.contexts n = some c) (hph : c.phase = .written) :
    Inv cfg ((s.setResult c.procno { s.results c.procno with status := 1 }).setContext n none) := by
  set s' := (s.setResult c.procno { s.results c.procno with status := 1 }).setContext n none
    with hs'
  have hctx : ∀ m d, s'.contexts m = some d ↔ m ≠ n ∧ s.contexts m = some d := by
    intro m d
    by_cases hm : m = n
    · subst hm
      simp [hs', State.setContext]
    · simp [hs', State.setContext, State.setResult, hm]
  have hres : ∀ p', p' ≠ c.procno → s'.results p' = s.results p' := by
    intro p' hp'
    simp [hs', State.setContext, State.setResult, hp']
  have hmine : Outstanding s c.procno n := Or.inr ⟨c, hc, rfl⟩
  have hout : ∀ p' m, Outstanding s' p' m → Outstanding s p' m ∧ m ≠ n := by
    rintro p' m (⟨q', hq⟩ | ⟨d, hd, hp⟩)
    · refine ⟨Or.inl ⟨q', hq⟩, ?_⟩
      rintro rfl
      simp [h.apart m p' q' hq] at hc
    · obtain ⟨hm, hd⟩ := (hctx m d).mp hd
      exact ⟨Or.inr ⟨d, hd, hp⟩, hm⟩
  have hgone : ∀ m, ¬ Outstanding s' c.procno m := by
    intro m hm
    obtain ⟨hm, hmn⟩ := hout _ m hm
    exact hmn (h.alone _ m n hm hmine)
  have hkeep : ∀ p' m, p' ≠ c.procno → Outstanding s p' m → Outstanding s' p' m := by
    rintro p' m hp' (⟨q', hq⟩ | ⟨d, hd, rfl⟩)
    · exact Or.inl ⟨q', hq⟩
    · refine Or.inr ⟨d, (hctx m d).mpr ⟨?_, hd⟩, rfl⟩
      rintro rfl
      obtain rfl := Option.some.inj (hc.symm.trans hd)
      exact hp' rfl
  constructor
  case ringLt => exact h.ringLt
  case ctxLt => exact fun m d hd => h.ctxLt m d ((hctx m d).mp hd).2
  case ringOnce => exact h.ringOnce
  case apart =>
    intro m p' q' hm
    show Function.update s.contexts n none m = none
    by_cases hmn : m = n
    · simp [hmn]
    · rw [Function.update_of_ne hmn]
      exact h.apart m p' q' hm
  case alone =>
    exact fun p' m k hm hk => h.alone p' m k (hout p' m hm).1 (hout p' k hk).1
  case sound =>
    intro m d hd
    obtain ⟨hm, hd⟩ := (hctx m d).mp hd
    have hdp : d.procno ≠ c.procno := fun he =>
      hm (h.alone c.procno m n (Or.inr ⟨d, hd, he⟩) hmine)
    rw [hres d.procno hdp]
    exact h.sound m d hd
  case waiting =>
    intro p' m q' hb
    cases h.waiting p' m q' hb with
    | running ho hst hring hq =>
        by_cases hp' : p' = c.procno
        · subst hp'
          obtain rfl := h.alone _ m n ho hmine
          have hslot := (h.sound m c hc).complete hph
          rw [hq c hc] at hslot
          refine .done hgone ?_
          simpa [hs', State.setContext, State.setResult, Complete] using hslot
        · refine .running (hkeep p' m hp' ho) (by rwa [hres p' hp']) hring ?_
          exact fun d hd => hq d ((hctx m d).mp hd).2
    | done ho hslot =>
        have hp' : p' ≠ c.procno := by
          rintro rfl
          exact ho n hmine
        exact .done (fun m' hm => ho m' (hout p' m' hm).1) (by rwa [hres p' hp'])
  case reading =>
    intro p' m q' hb
    obtain ⟨ho, hslot⟩ := h.reading p' m q' hb
    have hp' : p' ≠ c.procno := by
      rintro rfl
      exact ho n hmine
    exact ⟨fun m' hm => ho m' (hout p' m' hm).1, by rwa [hres p' hp']⟩
  case consumed => exact h.consumed

end Inv

end VectorLsm.Search
