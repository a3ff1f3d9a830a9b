import Mathlib.Data.List.Pairwise
import VectorLsm.Pool.WellFormed

/-! # What an adoption displaces

`dpv_pool_adopt` from its reservation to its return, with no other thread at work. The walk asks
of a segment only that it does not reach past the end of the range, so a segment that begins
before the range and ends inside it is displaced too.
-/

namespace VectorLsm

inductive DpvAdoptionOutcome where
  | adopted
  | staleDiscard
  deriving DecidableEq, Repr

namespace FlushedSegmentPool

section Adopt

variable (cfg : PoolConfig) (pool : FlushedSegmentPool)

/-- Step 3.7: the slot is appended, or takes the place of the predecessors. -/
def installCase (kind : AdoptCase) (snaps : List PredSnap) (slot : ℕ) : FlushedSegmentPool :=
  match kind with
  | .append => pool.register cfg slot
  | _ => pool.replaceN cfg (snaps.map PredSnap.segIdx) slot

/-- The rounds of decision and validation, and the discard of a slot that was not installed. -/
def adoptRounds (a : Adoption) (slot : ℕ) : ℕ → DpvAdoptionOutcome × FlushedSegmentPool
  | 0 => (.staleDiscard, pool.discard slot)
  | rounds + 1 =>
      if (pool.decideCase a).1 = .stale then (.staleDiscard, pool.discard slot)
      else if ∀ p ∈ (pool.decideCase a).2, pool.Holds p then
        (.adopted, pool.installCase cfg (pool.decideCase a).1 (pool.decideCase a).2 slot)
      else adoptRounds a slot rounds

/-- Phase 2: the segment is read into the slot. -/
def loadInto (slot : ℕ) (version : ℕ) (m : Option SegmentMetadata) : FlushedSegmentPool :=
  pool.setSeg slot { (pool.seg slot).load m false with version := version }

/-- `dpv_pool_adopt` on a loaded index; `m` is what the metadata file says, if it can be read. -/
def adopt (a : Adoption) (m : Option SegmentMetadata) :
    DpvAdoptionOutcome × FlushedSegmentPool :=
  match pool.reserve with
  | none => (.staleDiscard, pool)
  | some (slot, pool) =>
      (pool.loadInto slot a.version m).adoptRounds cfg a slot Pool.maxAdoptRetries

end Adopt

/-- The list of a well-formed pool: slots in service and referenced, whose ranges ascend and are
disjoint. -/
structure WellOrdered (pool : FlushedSegmentPool) (l : List ℕ) : Prop where
  linked : pool.Linked l
  used : ∀ g ∈ l, (pool.seg g).inUsed = true
  referenced : ∀ g ∈ l, 1 ≤ (pool.seg g).refCount
  nonempty : ∀ g ∈ l, (pool.seg g).segmentIdStart ≤ (pool.seg g).segmentIdEnd
  sorted : l.Pairwise fun a b => (pool.seg a).segmentIdEnd < (pool.seg b).segmentIdStart

/-- The id is in the range of the slot. -/
def Covers (pool : FlushedSegmentPool) (g : ℕ) (sid : SegmentId) : Prop :=
  (pool.seg g).segmentIdStart ≤ sid ∧ sid ≤ (pool.seg g).segmentIdEnd

instance (pool : FlushedSegmentPool) (g : ℕ) (sid : SegmentId) : Decidable (pool.Covers g sid) :=
  inferInstanceAs (Decidable (_ ∧ _))

/-- The segment of `a` is in the list in `slot`, in the place of members inside its range that
with the memtables represented every id of it, and nothing else has changed. -/
structure Displaced (pool : FlushedSegmentPool) (a : Adoption) (out : FlushedSegmentPool)
    (slot : ℕ) : Prop where
  fresh : slot ∉ pool.members
  linked : slot ∈ out.members
  range : (out.seg slot).segmentIdStart = a.startSid ∧ (out.seg slot).segmentIdEnd = a.endSid
  version : (out.seg slot).version = a.version
  others : ∀ g ∈ out.members, g ≠ slot → g ∈ pool.members
  unchanged : ∀ g ∈ out.members, g ≠ slot →
    out.seg g = { pool.seg g with nextIdx := out.next g, prevIdx := out.prev g }
  inside : ∀ g ∈ pool.members, g ∉ out.members →
    a.startSid ≤ (pool.seg g).segmentIdStart ∧ (pool.seg g).segmentIdEnd ≤ a.endSid
  represented : ∀ sid, a.startSid ≤ sid → sid ≤ a.endSid →
    sid ∈ a.memtableCover ∨ ∃ g ∈ pool.members, g ∉ out.members ∧ pool.Covers g sid
  wellOrdered : ∃ l, out.WellOrdered l

/-- The list is as before, and the next reservation finds the slot this one found. -/
structure Restored (pool out : FlushedSegmentPool) : Prop where
  members : out.members = pool.members
  ends : out.headIdx = pool.headIdx ∧ out.tailIdx = pool.tailIdx
  unchanged : ∀ g ∈ pool.members, out.seg g = pool.seg g
  inUsed : ∀ g, (out.seg g).inUsed = (pool.seg g).inUsed
  free : out.reserve.map Prod.fst = pool.reserve.map Prod.fst

/-- The adoption displaces only what it covers, or nothing. -/
def AdoptsCovered (cfg : PoolConfig) (pool : FlushedSegmentPool) (a : Adoption)
    (m : Option SegmentMetadata) : Prop :=
  ((pool.adopt cfg a m).1 = .adopted →
    ∃ slot, Displaced pool a (pool.adopt cfg a m).2 slot) ∧
  ((pool.adopt cfg a m).1 = .staleDiscard → Restored pool (pool.adopt cfg a m).2)

/-- The members that meet the range do not reach past its end, and with the memtables they
represent every id of it. -/
def Tiled (pool : FlushedSegmentPool) (a : Adoption) : Prop :=
  (∀ g ∈ pool.members, (pool.seg g).segmentIdStart ≤ a.endSid →
    a.startSid ≤ (pool.seg g).segmentIdEnd → (pool.seg g).segmentIdEnd ≤ a.endSid) ∧
  ∀ sid, a.startSid ≤ sid → sid ≤ a.endSid →
    sid ∈ a.memtableCover ∨ ∃ g ∈ pool.members, pool.Covers g sid

/-- The pool has a lower version of the segment, or no member around it and a tiling of its
range. -/
def Displaceable (pool : FlushedSegmentPool) (a : Adoption) : Prop :=
  (∃ g ∈ pool.members, (pool.seg g).segmentIdStart = a.startSid ∧
    (pool.seg g).segmentIdEnd = a.endSid ∧ (pool.seg g).version < a.version) ∨
  (¬ ∃ g ∈ pool.members, (pool.seg g).segmentIdStart ≤ a.startSid ∧
    a.endSid ≤ (pool.seg g).segmentIdEnd) ∧ pool.Tiled a

/-- A member begins before the range and ends inside it. -/
def Straddled (pool : FlushedSegmentPool) (a : Adoption) : Prop :=
  ∃ g ∈ pool.members, (pool.seg g).segmentIdStart < a.startSid ∧
    a.startSid ≤ (pool.seg g).segmentIdEnd

instance (pool : FlushedSegmentPool) (a : Adoption) : Decidable (pool.Straddled a) :=
  inferInstanceAs (Decidable (∃ g ∈ pool.members, _))

variable {cfg : PoolConfig} {pool out : FlushedSegmentPool} {a : Adoption}
  {m : Option SegmentMetadata} {l xs olds ys : List ℕ} {slot g : ℕ} {lo hi sid : SegmentId}

/-- The members before the range of `a`, those that meet it, and those after it. -/
structure Parts (pool : FlushedSegmentPool) (a : Adoption) (xs olds ys : List ℕ) : Prop where
  before : ∀ g ∈ xs, (pool.seg g).segmentIdEnd < a.startSid
  meets : ∀ g ∈ olds, a.startSid ≤ (pool.seg g).segmentIdEnd ∧
    (pool.seg g).segmentIdStart ≤ a.endSid
  after : ∀ g ∈ ys, a.endSid < (pool.seg g).segmentIdStart

section Walk

theorem exists_parts
    (hs : l.Pairwise fun g g' => (pool.seg g).segmentIdEnd < (pool.seg g').segmentIdStart)
    (hn : ∀ g ∈ l, (pool.seg g).segmentIdStart ≤ (pool.seg g).segmentIdEnd) :
    ∃ xs olds ys, l = xs ++ olds ++ ys ∧ Parts pool a xs olds ys := by
  induction l with
  | nil => exact ⟨[], [], [], rfl, by simp, by simp, by simp⟩
  | cons g l ih =>
      obtain ⟨hg, hs⟩ := List.pairwise_cons.mp hs
      have hgn := hn g List.mem_cons_self
      obtain ⟨xs, olds, ys, rfl, hp⟩ := ih hs fun b hb => hn b (List.mem_cons_of_mem g hb)
      rcases lt_or_ge (pool.seg g).segmentIdEnd a.startSid with hlt | hge
      · refine ⟨g :: xs, olds, ys, rfl, ?_, hp.meets, hp.after⟩
        rintro b (_ | ⟨_, hb⟩)
        · exact hlt
        · exact hp.before b hb
      -- What follows a segment that does not end before the range does not either.
      obtain rfl : xs = [] := by
        refine List.eq_nil_iff_forall_not_mem.mpr fun b hb => ?_
        have h₁ := hp.before b hb
        have h₂ := hg b (by simp [hb])
        have h₃ := hn b (by simp [hb])
        lia
      rcases lt_or_ge a.endSid (pool.seg g).segmentIdStart with hlt | hle
      · obtain rfl : olds = [] := by
          refine List.eq_nil_iff_forall_not_mem.mpr fun b hb => ?_
          have h₁ := (hp.meets b hb).2
          have h₂ := hg b (by simp [hb])
          lia
        refine ⟨[], [], g :: ys, rfl, by simp, by simp, ?_⟩
        rintro b (_ | ⟨_, hb⟩)
        · exact hlt
        · exact hp.after b hb
      · refine ⟨[], g :: olds, ys, rfl, by simp, ?_, hp.after⟩
        rintro b (_ | ⟨_, hb⟩)
        · exact ⟨hge, hle⟩
        · exact hp.meets b hb

theorem inCover_iff {cover : List SegmentId} :
    inCover cover lo hi = true ↔ ∀ sid, lo ≤ sid → sid < hi → sid ∈ cover := by
  simp only [inCover, List.all_eq_true, List.mem_range'_1, List.contains_iff_mem]
  refine ⟨fun h sid h₁ h₂ => h sid ⟨h₁, ?_⟩, fun h sid hs => h sid hs.1 ?_⟩
  · lia
  · lia

/-- The walk passes over the members before the range; its test for having come back to the
head never fires. -/
theorem tileWalk_before {snaps : List PredSnap} {head : ℕ}
    (hx : ∀ g ∈ xs, (pool.seg g).segmentIdEnd < a.startSid)
    (hhead : pool.headIdx = some head) (hout : head ∉ (xs ++ ys).tail) :
    pool.tileWalk a (xs ++ ys) lo snaps = pool.tileWalk a ys lo snaps := by
  induction xs with
  | nil => rfl
  | cons g xs ih =>
      have hne : (xs ++ ys).head? ≠ pool.headIdx := by
        intro heq
        rw [hhead] at heq
        exact hout (List.mem_of_head? heq)
      rw [List.cons_append, tileWalk, if_pos (hx g List.mem_cons_self), if_neg hne]
      exact ih (fun b hb => hx b (List.mem_cons_of_mem g hb)) fun hm =>
        hout (List.mem_of_mem_tail hm)

/-- The rest of the range from `lo` on is tiled by `olds` and the memtables. -/
def TiledFrom (pool : FlushedSegmentPool) (a : Adoption) (olds : List ℕ) (lo : SegmentId) :
    Prop :=
  (∀ g ∈ olds, (pool.seg g).segmentIdEnd ≤ a.endSid) ∧
  ∀ sid, lo ≤ sid → sid ≤ a.endSid → sid ∈ a.memtableCover ∨ ∃ g ∈ olds, pool.Covers g sid

theorem tiledFrom_nil : TiledFrom pool a [] lo ↔
    inCover a.memtableCover lo (a.endSid + 1) = true := by
  rw [inCover_iff]
  constructor
  · intro h sid h₁ h₂
    simpa using h.2 sid h₁ (by lia)
  · exact fun h => ⟨by simp, fun sid h₁ h₂ => Or.inl (h sid h₁ (by lia))⟩

/-- The first of the segments ends the gap before it, and the rest is tiled behind it. -/
theorem tiledFrom_cons (hlo : lo ≤ (pool.seg g).segmentIdEnd)
    (hge : (pool.seg g).segmentIdStart ≤ a.endSid)
    (hsorted : ∀ b ∈ olds, (pool.seg g).segmentIdEnd < (pool.seg b).segmentIdStart)
    (hn : (pool.seg g).segmentIdStart ≤ (pool.seg g).segmentIdEnd) :
    TiledFrom pool a (g :: olds) lo ↔ (pool.seg g).segmentIdEnd ≤ a.endSid ∧
      inCover a.memtableCover lo (pool.seg g).segmentIdStart = true ∧
      TiledFrom pool a olds ((pool.seg g).segmentIdEnd + 1) := by
  rw [inCover_iff]
  constructor
  · rintro ⟨hend, hcov⟩
    refine ⟨hend g List.mem_cons_self, fun sid h₁ h₂ => ?_,
      fun b hb => hend b (List.mem_cons_of_mem g hb), fun sid h₁ h₂ => ?_⟩
    · rcases hcov sid h₁ (by lia) with hc | ⟨b, hb, hlow, -⟩
      · exact hc
      rcases List.mem_cons.mp hb with rfl | hb
      · lia
      · have := hsorted b hb
        lia
    · rcases hcov sid (by lia) h₂ with hc | ⟨b, hb, hlow, hup⟩
      · exact Or.inl hc
      rcases List.mem_cons.mp hb with rfl | hb
      · lia
      · exact Or.inr ⟨b, hb, hlow, hup⟩
  · rintro ⟨hend, hgap, hrest, hcov⟩
    refine ⟨by simpa using ⟨hend, hrest⟩, fun sid h₁ h₂ => ?_⟩
    rcases Nat.lt_or_ge sid (pool.seg g).segmentIdStart with hlt | hge'
    · exact Or.inl (hgap sid h₁ hlt)
    rcases Nat.lt_or_ge (pool.seg g).segmentIdEnd sid with hlt | hle
    · rcases hcov sid hlt h₂ with hc | ⟨b, hb, hbs⟩
      · exact Or.inl hc
      · exact Or.inr ⟨b, List.mem_cons_of_mem g hb, hbs⟩
    · exact Or.inr ⟨g, List.mem_cons_self, hge', hle⟩

/-- Where the walk gets to, and what it has collected there. -/
theorem tileWalk_meets {snaps : List PredSnap} (ha : a.startSid ≤ a.endSid)
    (hs : (olds ++ ys).Pairwise fun g g' =>
      (pool.seg g).segmentIdEnd < (pool.seg g').segmentIdStart)
    (hn : ∀ g ∈ olds ++ ys, (pool.seg g).segmentIdStart ≤ (pool.seg g).segmentIdEnd)
    (hmeets : ∀ g ∈ olds, a.startSid ≤ (pool.seg g).segmentIdEnd ∧
      (pool.seg g).segmentIdStart ≤ a.endSid)
    (hafter : ∀ g ∈ ys, a.endSid < (pool.seg g).segmentIdStart)
    (hlo : ∀ g ∈ olds, lo ≤ (pool.seg g).segmentIdEnd)
    (hlen : snaps.length + olds.length ≤ maxSegmentsCount) :
    (TiledFrom pool a olds lo → ∃ hi, pool.tileWalk a (olds ++ ys) lo snaps =
      some (hi, snaps ++ olds.map pool.snap) ∧
        inCover a.memtableCover hi (a.endSid + 1) = true) ∧
    (¬ TiledFrom pool a olds lo → ∀ x, pool.tileWalk a (olds ++ ys) lo snaps = some x →
      inCover a.memtableCover x.1 (a.endSid + 1) = false) := by
  induction olds generalizing lo snaps with
  | nil =>
      have hwalk : pool.tileWalk a ([] ++ ys) lo snaps = some (lo, snaps) := by
        cases ys with
        | nil => rfl
        | cons g ys =>
            have h₁ := hafter g List.mem_cons_self
            have h₂ := hn g List.mem_cons_self
            rw [List.nil_append, tileWalk, if_neg (by lia), if_pos h₁]
      rw [tiledFrom_nil, hwalk]
      refine ⟨fun h => ⟨lo, by simp, h⟩, fun h x hx => ?_⟩
      obtain rfl := Option.some.inj hx
      simpa using h
  | cons g olds ih =>
      obtain ⟨hg, hs⟩ := List.pairwise_cons.mp hs
      obtain ⟨hge, hle⟩ := hmeets g List.mem_cons_self
      have hlen' : snaps.length < maxSegmentsCount := by
        rw [List.length_cons] at hlen
        lia
      rw [tiledFrom_cons (hlo g List.mem_cons_self) hle
        (fun b hb => hg b (List.mem_append_left ys hb)) (hn g List.mem_cons_self)]
      rw [List.cons_append, tileWalk, if_neg (by lia), if_neg (by lia)]
      by_cases hend : a.endSid < (pool.seg g).segmentIdEnd
      · rw [if_pos hend]
        exact ⟨fun h => by lia, fun _ x hx => by cases hx⟩
      rw [if_neg hend]
      cases hgap : inCover a.memtableCover lo (pool.seg g).segmentIdStart with
      | false => exact ⟨fun h => by simp at h, fun _ x hx => by simp at hx⟩
      | true =>
          obtain ⟨hyes, hno⟩ := @ih ((pool.seg g).segmentIdEnd + 1) (snaps ++ [pool.snap g]) hs
            (fun b hb => hn b (List.mem_cons_of_mem g hb))
            (fun b hb => hmeets b (List.mem_cons_of_mem g hb))
            (fun b hb => by
              have h₁ := hg b (List.mem_append_left ys hb)
              have h₂ := hn b (List.mem_cons_of_mem g (List.mem_append_left ys hb))
              lia)
            (by simpa [Nat.add_assoc, Nat.add_comm 1] using hlen)
          rw [if_neg (by simp), if_neg (by lia)]
          rw [List.append_assoc, List.singleton_append, ← List.map_cons] at hyes
          refine ⟨fun h => hyes h.2.2, fun h x hx => hno (fun ht => h ⟨?_, rfl, ht⟩) x hx⟩
          exact Nat.le_of_not_lt hend

end Walk

section Decision

theorem WellOrdered.eq_of_covers (h : pool.WellOrdered l) {g g' : ℕ} (hg : g ∈ l) (hg' : g' ∈ l)
    (hc : pool.Covers g sid) (hc' : pool.Covers g' sid) : g = g' := by
  by_contra hne
  have : Std.Symm fun g g' => (pool.seg g).segmentIdEnd < (pool.seg g').segmentIdStart ∨
      (pool.seg g').segmentIdEnd < (pool.seg g).segmentIdStart := ⟨fun _ _ => Or.symm⟩
  have hpair : l.Pairwise fun g g' => (pool.seg g).segmentIdEnd < (pool.seg g').segmentIdStart ∨
      (pool.seg g').segmentIdEnd < (pool.seg g).segmentIdStart := h.sorted.imp Or.inl
  have hapart := hpair.forall hg hg' hne
  unfold Covers at hc hc'
  lia

theorem WellOrdered.findSegmentBySids (h : pool.WellOrdered l) (lo hi : SegmentId) :
    (∀ g, pool.findSegmentBySids lo hi = some g → g ∈ l ∧
      (pool.seg g).segmentIdStart = lo ∧ (pool.seg g).segmentIdEnd = hi) ∧
    (pool.findSegmentBySids lo hi = none → ∀ g ∈ l,
      ¬ ((pool.seg g).segmentIdStart = lo ∧ (pool.seg g).segmentIdEnd = hi)) := by
  unfold FlushedSegmentPool.findSegmentBySids
  rw [h.linked.membersToTail]
  refine ⟨fun g hf => ?_, fun hf g hg => ?_⟩
  · have := List.find?_some hf
    simp only [Bool.and_eq_true, decide_eq_true_eq] at this
    exact ⟨List.mem_of_find?_eq_some hf, this.1.2, this.2⟩
  · simpa [h.used g hg] using List.find?_eq_none.mp hf g hg

theorem WellOrdered.findStrictlyContaining (h : pool.WellOrdered l) (lo hi : SegmentId) :
    (∀ g, pool.findStrictlyContaining lo hi = some g → g ∈ l ∧
      (pool.seg g).segmentIdStart ≤ lo ∧ hi ≤ (pool.seg g).segmentIdEnd) ∧
    (pool.findStrictlyContaining lo hi = none → ∀ g ∈ l, (pool.seg g).segmentIdStart ≤ lo →
      hi ≤ (pool.seg g).segmentIdEnd →
        (pool.seg g).segmentIdStart = lo ∧ (pool.seg g).segmentIdEnd = hi) := by
  unfold FlushedSegmentPool.findStrictlyContaining
  rw [h.linked.membersToTail]
  refine ⟨fun g hf => ?_, fun hf g hg h₁ h₂ => ?_⟩
  · have := List.find?_some hf
    simp only [Bool.and_eq_true, decide_eq_true_eq] at this
    exact ⟨List.mem_of_find?_eq_some hf, this.1.1.2, this.1.2⟩
  · simpa [h.used g hg, h₁, h₂] using List.find?_eq_none.mp hf g hg

/-- The decision takes the place of `olds`, which with the memtables tile the range. -/
structure Takes (pool : FlushedSegmentPool) (a : Adoption) (olds : List ℕ) (kind : AdoptCase) :
    Prop where
  eq : pool.decideCase a = (kind, olds.map pool.snap)
  live : kind ≠ .stale
  append : kind = .append ↔ olds = []
  tiled : TiledFrom pool a olds a.startSid

theorem Parts.mem_olds (hp : Parts pool a xs olds ys) (hg : g ∈ xs ++ olds ++ ys)
    (h₁ : a.startSid ≤ (pool.seg g).segmentIdEnd) (h₂ : (pool.seg g).segmentIdStart ≤ a.endSid) :
    g ∈ olds := by
  rcases List.mem_append.mp hg with hg | hg
  · rcases List.mem_append.mp hg with hg | hg
    · have := hp.before g hg
      lia
    · exact hg
  · have := hp.after g hg
    lia

theorem WellOrdered.tiled_iff (h : pool.WellOrdered (xs ++ olds ++ ys))
    (hp : Parts pool a xs olds ys) : pool.Tiled a ↔ TiledFrom pool a olds a.startSid := by
  unfold Tiled TiledFrom
  rw [h.linked.members]
  constructor
  · rintro ⟨hend, hcov⟩
    refine ⟨fun g hg => hend g (by simp [hg]) (hp.meets g hg).2 (hp.meets g hg).1, ?_⟩
    intro sid h₁ h₂
    rcases hcov sid h₁ h₂ with hc | ⟨g, hg, hlow, hup⟩
    · exact Or.inl hc
    · exact Or.inr ⟨g, hp.mem_olds hg (by lia) (by lia), hlow, hup⟩
  · rintro ⟨hend, hcov⟩
    refine ⟨fun g hg h₂ h₁ => hend g (hp.mem_olds hg h₁ h₂), fun sid h₁ h₂ => ?_⟩
    rcases hcov sid h₁ h₂ with hc | ⟨g, hg, hgs⟩
    · exact Or.inl hc
    · exact Or.inr ⟨g, by simp [hg], hgs⟩

theorem WellOrdered.tileWalk_eq (h : pool.WellOrdered (xs ++ olds ++ ys))
    (hp : Parts pool a xs olds ys) :
    pool.tileWalk a (xs ++ olds ++ ys) a.startSid [] =
      pool.tileWalk a (olds ++ ys) a.startSid [] := by
  rcases xs with _ | ⟨g, xs⟩
  · rfl
  · rw [List.append_assoc]
    refine tileWalk_before hp.before (h.linked.head.trans rfl) ?_
    simpa [List.append_assoc] using (List.nodup_cons.mp h.linked.nodup).1

/-- With no member around the range the decision is that of the walk. -/
theorem WellOrdered.takes_of_tiled (h : pool.WellOrdered (xs ++ olds ++ ys))
    (ha : a.startSid ≤ a.endSid) (hp : Parts pool a xs olds ys)
    (hf : pool.findSegmentBySids a.startSid a.endSid = none)
    (hc : pool.findStrictlyContaining a.startSid a.endSid = none) :
    (pool.Tiled a → ∃ kind, Takes pool a olds kind) ∧
    (¬ pool.Tiled a → (pool.decideCase a).1 = .stale) := by
  have hsub : (olds ++ ys).Sublist (xs ++ olds ++ ys) := by simp
  have hlen := (h.linked.length_le.trans' (hsub.length_le)).trans' (by simp :
    olds.length ≤ (olds ++ ys).length)
  obtain ⟨hyes, hno⟩ := @tileWalk_meets pool a olds ys a.startSid [] ha (h.sorted.sublist hsub)
    (fun g hg => h.nonempty g (hsub.subset hg)) hp.meets hp.after (fun g hg => (hp.meets g hg).1)
    (by simpa using hlen)
  have hnone : pool.tileWalk a (olds ++ ys) a.startSid [] = none →
      pool.decideCase a = (.stale, []) := by
    intro hwalk
    rw [decideCase, hf, hc, h.linked.members, h.tileWalk_eq hp]
    simp [hwalk]
  have hsome : ∀ x, pool.tileWalk a (olds ++ ys) a.startSid [] = some x →
      pool.decideCase a =
        if !inCover a.memtableCover x.1 (a.endSid + 1) then (.stale, [])
        else if x.2 = [] then (.append, []) else (.tile, x.2) := by
    intro x hwalk
    rw [decideCase, hf, hc, h.linked.members, h.tileWalk_eq hp]
    simp [hwalk]
  rw [h.tiled_iff hp]
  constructor
  · intro ht
    obtain ⟨hi, hwalk, hcover⟩ := hyes ht
    rw [List.nil_append] at hwalk
    have heq := hsome _ hwalk
    rcases eq_or_ne olds [] with rfl | hne
    · exact ⟨.append, by simpa [hcover] using heq, by simp, by simp, ht⟩
    · exact ⟨.tile, by simpa [hcover, hne] using heq, by simp, by simp [hne], ht⟩
  · intro ht
    cases hwalk : pool.tileWalk a (olds ++ ys) a.startSid [] with
    | none => rw [hnone hwalk]
    | some x =>
        rw [hsome x hwalk]
        simp [hno ht x hwalk]

/-- The decision: a segment that can be displaced is, and any other adoption is stale. -/
theorem WellOrdered.decideCase (h : pool.WellOrdered (xs ++ olds ++ ys))
    (ha : a.startSid ≤ a.endSid) (hp : Parts pool a xs olds ys) :
    (pool.Displaceable a → ∃ kind, Takes pool a olds kind) ∧
    (¬ pool.Displaceable a → (pool.decideCase a).1 = .stale) := by
  unfold Displaceable
  rw [h.linked.members]
  obtain ⟨hfound, hnone⟩ := h.findSegmentBySids a.startSid a.endSid
  obtain ⟨haround, hnaround⟩ := h.findStrictlyContaining a.startSid a.endSid
  cases hf : pool.findSegmentBySids a.startSid a.endSid with
  | some g =>
      obtain ⟨hg, hstart, hend⟩ := hfound g hf
      -- The segment of the range itself is all the range meets.
      have hall : ∀ b ∈ olds, b = g := by
        intro b hb
        obtain ⟨h₁, h₂⟩ := hp.meets b hb
        have h₃ := h.nonempty b (by simp [hb])
        have hmax : pool.Covers b (max (pool.seg b).segmentIdStart a.startSid) :=
          ⟨by lia, by lia⟩
        exact h.eq_of_covers (by simp [hb]) hg hmax ⟨by lia, by lia⟩
      have holds : olds = [g] := by
        have hmem : g ∈ olds := hp.mem_olds hg (by lia) (by lia)
        have hnd : olds.Nodup := (List.nodup_append.mp (List.nodup_append.mp h.linked.nodup).1).2.1
        rcases olds with _ | ⟨b, olds⟩
        · simp at hmem
        obtain rfl := hall b List.mem_cons_self
        refine congrArg _ (List.eq_nil_iff_forall_not_mem.mpr fun c hcb => ?_)
        obtain rfl := hall c (List.mem_cons_of_mem b hcb)
        exact (List.nodup_cons.mp hnd).1 hcb
      by_cases hv : (pool.seg g).version < a.version
      · have heq : pool.decideCase a = (.exact, [pool.snap g]) := by
          rw [FlushedSegmentPool.decideCase, hf]
          simp [h.used g hg, hv]
        refine ⟨fun _ => ⟨.exact, by rw [heq, holds]; rfl, by simp, by simp [holds], ?_⟩, ?_⟩
        · refine ⟨fun b hb => ?_, fun sid h₁ h₂ => Or.inr ⟨g, by simp [holds], by lia, by lia⟩⟩
          rw [hall b hb, hend]
        · exact fun hd => absurd (Or.inl ⟨g, hg, hstart, hend, hv⟩) hd
      · have heq : pool.decideCase a = (.stale, []) := by
          rw [FlushedSegmentPool.decideCase, hf]
          simp [hv]
        refine ⟨fun hd => ?_, fun _ => by rw [heq]⟩
        rcases hd with ⟨b, hb, hbs, hbe, hbv⟩ | ⟨hd, -⟩
        · obtain rfl := hall b (hp.mem_olds hb (by lia) (by lia))
          exact absurd hbv hv
        · exact absurd ⟨g, hg, by lia, by lia⟩ hd
  | none =>
      cases hc : pool.findStrictlyContaining a.startSid a.endSid with
      | some g =>
          obtain ⟨hg, hlow, hup⟩ := haround g hc
          refine ⟨fun hd => ?_, fun _ => ?_⟩
          · rcases hd with ⟨b, hb, hbs, hbe, -⟩ | ⟨hd, -⟩
            · exact absurd ⟨hbs, hbe⟩ (hnone hf b hb)
            · exact absurd ⟨g, hg, hlow, hup⟩ hd
          · rw [FlushedSegmentPool.decideCase, hf, hc]
            rfl
      | none =>
          obtain ⟨hyes, hno⟩ := h.takes_of_tiled ha hp hf hc
          refine ⟨fun hd => ?_, fun hd => hno fun ht => hd (Or.inr ⟨?_, ht⟩)⟩
          · rcases hd with ⟨b, hb, hbs, hbe, -⟩ | ⟨-, ht⟩
            · exact absurd ⟨hbs, hbe⟩ (hnone hf b hb)
            · exact hyes ht
          · rintro ⟨b, hb, hlow, hup⟩
            exact hnone hf b hb (hnaround hc b hb hlow hup)

end Decision

section Installation

variable {kind : AdoptCase} {pool' : FlushedSegmentPool}

/-- What leaves the members alone leaves the pool well-formed. -/
theorem WellOrdered.congr (h : pool.WellOrdered l) (hs : ∀ g ∈ l, out.seg g = pool.seg g)
    (hh : out.headIdx = pool.headIdx) (ht : out.tailIdx = pool.tailIdx) : out.WellOrdered l where
  linked := h.linked.congr (fun g hg => congrArg FlushedSegment.nextIdx (hs g hg))
    (fun g hg => congrArg FlushedSegment.prevIdx (hs g hg)) hh ht
  used g hg := by rw [hs g hg]; exact h.used g hg
  referenced g hg := by rw [hs g hg]; exact h.referenced g hg
  nonempty g hg := by rw [hs g hg]; exact h.nonempty g hg
  sorted := h.sorted.imp_of_mem fun {b b'} hb hb' hlt => by rwa [hs b hb, hs b' hb']

theorem installCase_append (snaps : List PredSnap) :
    pool.installCase cfg .append snaps slot = pool.register cfg slot := rfl

theorem installCase_replace (hk : kind ≠ .append) :
    pool.installCase cfg kind (olds.map pool.snap) slot = pool.replaceN cfg olds slot := by
  have holds : (olds.map pool.snap).map PredSnap.segIdx = olds := by
    rw [List.map_map]
    exact List.map_id olds
  cases kind with
  | append => exact absurd rfl hk
  | _ =>
      change pool.replaceN cfg ((olds.map pool.snap).map PredSnap.segIdx) slot = _
      rw [holds]

theorem installCase_linked (h : pool.Linked (xs ++ olds ++ ys)) (hi : slot ∉ xs ++ olds ++ ys)
    (hb : slot < maxSegmentsCount) (hk : kind = .append ↔ olds = [])
    (hplace : olds = [] → (∀ g, xs.getLast? = some g →
        (pool.seg g).segmentIdStart ≤ (pool.seg slot).segmentIdStart) ∧
      ∀ g ∈ ys, (pool.seg slot).segmentIdStart < (pool.seg g).segmentIdStart) :
    (pool.installCase cfg kind (olds.map pool.snap) slot).Linked (xs ++ slot :: ys) := by
  by_cases hkind : kind = .append
  · obtain rfl := hk.mp hkind
    rw [hkind, installCase_append]
    rw [List.append_nil] at h hi
    exact h.register hi hb (hplace rfl).1 (hplace rfl).2
  · rw [installCase_replace hkind]
    exact h.replaceN (fun hnil => hkind (hk.mpr hnil)) hi hb

theorem installCase_seg (hnd : olds.Nodup) (hk : kind = .append ↔ olds = []) (hg : g ∉ olds) :
    (pool.installCase cfg kind (olds.map pool.snap) slot).seg g =
      { pool.seg g with
        refCount := if g = slot then 1 else (pool.seg g).refCount
        nextIdx := (pool.installCase cfg kind (olds.map pool.snap) slot).next g
        prevIdx := (pool.installCase cfg kind (olds.map pool.snap) slot).prev g } := by
  by_cases hkind : kind = .append
  · rw [hkind, installCase_append, register_next, register_prev, register_seg]
  · rw [installCase_replace hkind]
    have hne : olds ≠ [] := fun hnil => hkind (hk.mpr hnil)
    obtain ⟨hs, -, -⟩ := replaceN_spec cfg pool slot hnd
      (List.head?_eq_some_head hne) (List.getLast?_eq_some_getLast hne)
    rw [next, prev, hs g, dropped, if_neg hg]

/-- The slot is outside the list, and the members are as before. -/
theorem WellOrdered.loaded (h : pool.WellOrdered l) (hr : pool.reserve = some (slot, pool'))
    (version : ℕ) (m : Option SegmentMetadata) :
    slot ∉ l ∧ slot < maxSegmentsCount ∧ (pool'.loadInto slot version m).WellOrdered l ∧
      (∀ g, g ≠ slot → (pool'.loadInto slot version m).seg g = pool.seg g) ∧
      (pool'.loadInto slot version m).seg slot =
        { (pool.seg slot).load m false with inUsed := true, version := version } := by
  obtain ⟨hfree, hb, rfl⟩ := reserve_eq hr
  have hout : slot ∉ l := by
    intro hm
    simp [h.used slot hm] at hfree
  have hseg : ∀ g, g ≠ slot → (((pool.setSeg slot { pool.seg slot with
      inUsed := true }).setInsertIdx (slot + 1)).loadInto slot version m).seg g = pool.seg g := by
    intro g hg
    simp [loadInto, hg]
  refine ⟨hout, hb, ?_, hseg, ?_⟩
  · exact h.congr (fun g hg => hseg g (ne_of_mem_of_not_mem hg hout)) rfl rfl
  · cases m with
    | none => simp [loadInto, FlushedSegment.load]
    | some m => simp [loadInto, FlushedSegment.load]

theorem insertIdx_rewind (h : slot < pool.insertIdx) : (pool.rewind slot).insertIdx = slot := by
  rw [rewind, if_pos h]
  rfl

/-- A reserved slot that is discarded leaves the pool as it was. -/
theorem WellOrdered.restored (h : pool.WellOrdered l) (hr : pool.reserve = some (slot, pool'))
    (version : ℕ) (m : Option SegmentMetadata) :
    Restored pool ((pool'.loadInto slot version m).discard slot) := by
  obtain ⟨hout, hb, hwf, hseg, -⟩ := h.loaded hr version m
  have hdis : ∀ g, g ≠ slot →
      ((pool'.loadInto slot version m).discard slot).seg g = pool.seg g := by
    intro g hg
    simp [discard, hg, hseg g hg]
  have hslot : (((pool'.loadInto slot version m).discard slot).seg slot).inUsed = false := by
    simp [discard]
  have hends : ((pool'.loadInto slot version m).discard slot).headIdx = pool.headIdx ∧
      ((pool'.loadInto slot version m).discard slot).tailIdx = pool.tailIdx := by
    obtain ⟨-, -, rfl⟩ := reserve_eq hr
    simp [discard, loadInto]
  have hmem : ∀ g ∈ l, ((pool'.loadInto slot version m).discard slot).seg g = pool.seg g :=
    fun g hg => hdis g (ne_of_mem_of_not_mem hg hout)
  refine ⟨?_, hends, ?_, fun g => ?_, ?_⟩
  · rw [(h.congr hmem hends.1 hends.2).linked.members, h.linked.members]
  · rwa [h.linked.members]
  · rcases eq_or_ne g slot with rfl | hg
    · rw [hslot, (reserve_eq hr).1]
    · rw [hdis g hg]
  · have hinsert : ((pool'.loadInto slot version m).discard slot).insertIdx = slot := by
      obtain ⟨-, -, rfl⟩ := reserve_eq hr
      exact insertIdx_rewind (Nat.lt_succ_self slot)
    obtain ⟨n, hn⟩ : ∃ n, maxSegmentsCount - slot = n + 1 := ⟨maxSegmentsCount - slot - 1, by lia⟩
    rw [hr, FlushedSegmentPool.reserve, hinsert, hn, List.range'_succ]
    simp [hslot]

end Installation

section Outcome

variable {kind : AdoptCase} {pool' pool₂ : FlushedSegmentPool}

/-- The reads into the slot bring the range of the incoming segment. -/
def Loads (pool : FlushedSegmentPool) (a : Adoption) (m : Option SegmentMetadata) (slot : ℕ) :
    Prop :=
  ((pool.seg slot).load m false).segmentIdStart = a.startSid ∧
    ((pool.seg slot).load m false).segmentIdEnd = a.endSid

instance (pool : FlushedSegmentPool) (a : Adoption) (m : Option SegmentMetadata) (slot : ℕ) :
    Decidable (Loads pool a m slot) := inferInstanceAs (Decidable (_ ∧ _))

theorem adoptRounds_stale (rounds : ℕ) (hs : (pool.decideCase a).1 = .stale) :
    pool.adoptRounds cfg a slot (rounds + 1) = (.staleDiscard, pool.discard slot) := by
  rw [adoptRounds, if_pos hs]

/-- With nobody else at work the first validation succeeds. -/
theorem adoptRounds_takes (rounds : ℕ) (ht : Takes pool a olds kind)
    (hu : ∀ g ∈ olds, (pool.seg g).inUsed = true) :
    pool.adoptRounds cfg a slot (rounds + 1) =
      (.adopted, pool.installCase cfg kind (olds.map pool.snap) slot) := by
  have hholds : ∀ p ∈ olds.map pool.snap, pool.Holds p := by
    intro p hp
    obtain ⟨g, hg, rfl⟩ := List.mem_map.mp hp
    exact ⟨hu g hg, rfl⟩
  rw [adoptRounds, ht.eq, if_neg ht.live, if_pos hholds]

theorem displaceable_congr (hm : pool₂.members = pool.members)
    (hs : ∀ g ∈ pool.members, pool₂.seg g = pool.seg g) :
    pool₂.Displaceable a ↔ pool.Displaceable a := by
  have hseg : ∀ P : ℕ → FlushedSegment → Prop,
      (∃ g ∈ pool.members, P g (pool₂.seg g)) ↔ ∃ g ∈ pool.members, P g (pool.seg g) :=
    fun P => exists_congr fun g => and_congr_right fun hg => by rw [hs g hg]
  unfold Displaceable Tiled
  rw [hm]
  refine or_congr (hseg fun _ seg => seg.segmentIdStart = a.startSid ∧
    seg.segmentIdEnd = a.endSid ∧ seg.version < a.version) (and_congr (not_congr ?_)
      (and_congr ?_ ?_))
  · exact hseg fun _ seg => seg.segmentIdStart ≤ a.startSid ∧ a.endSid ≤ seg.segmentIdEnd
  · exact forall₂_congr fun g hg => by rw [hs g hg]
  · exact forall₃_congr fun sid _ _ => or_congr_right (hseg fun _ seg =>
      seg.segmentIdStart ≤ sid ∧ sid ≤ seg.segmentIdEnd)

/-- An adoption that cannot displace anything leaves the pool as it was. -/
theorem WellOrdered.adopt_stale (cfg : PoolConfig) (m : Option SegmentMetadata)
    (h : pool.WellOrdered l) (ha : a.startSid ≤ a.endSid) (hd : ¬ pool.Displaceable a) :
    (pool.adopt cfg a m).1 = .staleDiscard ∧ Restored pool (pool.adopt cfg a m).2 := by
  unfold adopt
  cases hr : pool.reserve with
  | none => exact ⟨rfl, rfl, ⟨rfl, rfl⟩, fun _ _ => rfl, fun _ => rfl, rfl⟩
  | some r =>
      obtain ⟨slot, pool'⟩ := r
      obtain ⟨hout, -, hwf, hseg, -⟩ := h.loaded hr a.version m
      obtain ⟨xs, olds, ys, rfl, hp⟩ := exists_parts (a := a) hwf.sorted hwf.nonempty
      have hdec := (hwf.decideCase ha hp).2
      rw [displaceable_congr (hwf.linked.members.trans h.linked.members.symm)
        fun g hg => hseg g (ne_of_mem_of_not_mem hg (by rwa [h.linked.members]))] at hdec
      dsimp only
      rw [adoptRounds_stale _ (hdec hd)]
      exact ⟨rfl, h.restored hr a.version m⟩

/-- What an adoption installs, in the pool as it stands after the segment is loaded. -/
structure Installs (pool : FlushedSegmentPool) (a : Adoption) (xs olds ys : List ℕ) (slot : ℕ)
    (kind : AdoptCase) : Prop where
  wellOrdered : pool.WellOrdered (xs ++ olds ++ ys)
  parts : Parts pool a xs olds ys
  fresh : slot ∉ xs ++ olds ++ ys
  bound : slot < maxSegmentsCount
  append : kind = .append ↔ olds = []
  tiled : TiledFrom pool a olds a.startSid

theorem Parts.congr (hp : Parts pool a xs olds ys)
    (hs : ∀ g ∈ xs ++ olds ++ ys, out.seg g = pool.seg g) : Parts out a xs olds ys := by
  refine ⟨fun g hg => ?_, fun g hg => ?_, fun g hg => ?_⟩
  · rw [hs g (by simp [hg])]
    exact hp.before g hg
  · rw [hs g (by simp [hg])]
    exact hp.meets g hg
  · rw [hs g (by simp [hg])]
    exact hp.after g hg

theorem WellOrdered.adopt_displaceable (cfg : PoolConfig) (m : Option SegmentMetadata)
    (h : pool.WellOrdered (xs ++ olds ++ ys)) (ha : a.startSid ≤ a.endSid)
    (hp : Parts pool a xs olds ys) (hr : pool.reserve = some (slot, pool'))
    (hd : pool.Displaceable a) :
    ∃ kind, Installs (pool'.loadInto slot a.version m) a xs olds ys slot kind ∧
      pool.adopt cfg a m = (.adopted, (pool'.loadInto slot a.version m).installCase cfg kind
        (olds.map (pool'.loadInto slot a.version m).snap) slot) := by
  obtain ⟨hout, hb, hwf, hseg, -⟩ := h.loaded hr a.version m
  have hmem : ∀ g ∈ xs ++ olds ++ ys,
      (pool'.loadInto slot a.version m).seg g = pool.seg g :=
    fun g hg => hseg g (ne_of_mem_of_not_mem hg hout)
  have hp₂ := hp.congr hmem
  have hdec := (hwf.decideCase ha hp₂).1
  rw [displaceable_congr (hwf.linked.members.trans h.linked.members.symm)
    fun g hg => hmem g (by rwa [h.linked.members] at hg)] at hdec
  obtain ⟨kind, ht⟩ := hdec hd
  refine ⟨kind, ⟨hwf, hp₂, hout, hb, ht.append, ht.tiled⟩, ?_⟩
  unfold adopt
  rw [hr]
  exact adoptRounds_takes _ ht fun g hg => hwf.used g (by simp [hg])

namespace Installs

theorem nodup (h : Installs pool a xs olds ys slot kind) : olds.Nodup :=
  (List.nodup_append.mp (List.nodup_append.mp h.wellOrdered.linked.nodup).1).2.1

theorem not_mem_olds (h : Installs pool a xs olds ys slot kind) (hg : g ∈ xs ++ slot :: ys) :
    g ∉ olds := by
  have hnd := h.wellOrdered.linked.nodup
  have hfresh := h.fresh
  simp only [List.append_assoc, List.nodup_append, List.mem_append] at hnd
  simp only [List.mem_append, not_or] at hfresh
  intro hgo
  rcases List.mem_append.mp hg with hg | hg
  · exact hnd.2.2 g hg g (Or.inl hgo) rfl
  rcases List.mem_cons.mp hg with rfl | hg
  · exact hfresh.1.2 hgo
  · exact hnd.2.1.2.2 g hgo g hg rfl

theorem seg (h : Installs pool a xs olds ys slot kind) (hg : g ∈ xs ++ slot :: ys) :
    (pool.installCase cfg kind (olds.map pool.snap) slot).seg g =
      { pool.seg g with
        refCount := if g = slot then 1 else (pool.seg g).refCount
        nextIdx := (pool.installCase cfg kind (olds.map pool.snap) slot).next g
        prevIdx := (pool.installCase cfg kind (olds.map pool.snap) slot).prev g } :=
  installCase_seg h.nodup h.append (h.not_mem_olds hg)

/-- Whatever was loaded, the slot is linked and `olds` are not. -/
theorem exists_linked (cfg : PoolConfig) (h : Installs pool a xs olds ys slot kind) :
    ∃ xs' ys', xs' ++ ys' = xs ++ ys ∧
      (pool.installCase cfg kind (olds.map pool.snap) slot).Linked (xs' ++ slot :: ys') := by
  rcases eq_or_ne olds [] with rfl | hne
  · obtain ⟨xs', ys', hsplit, hx, hy⟩ := Pool.split_last (p := fun g =>
      (pool.seg slot).segmentIdStart < (pool.seg g).segmentIdStart) (xs ++ ys)
    have heq : xs ++ [] ++ ys = xs' ++ [] ++ ys' := by simpa using hsplit
    exact ⟨xs', ys', hsplit.symm, installCase_linked (heq ▸ h.wellOrdered.linked)
      (heq ▸ h.fresh) h.bound h.append fun _ => ⟨fun g hg => Nat.le_of_not_lt (hx g hg), hy⟩⟩
  · exact ⟨xs, ys, rfl, installCase_linked h.wellOrdered.linked h.fresh h.bound h.append
      fun hnil => absurd hnil hne⟩

/-- A segment with the range that was asked for is linked in its place. -/
theorem linked (h : Installs pool a xs olds ys slot kind)
    (hrange : (pool.seg slot).segmentIdStart = a.startSid) (ha : a.startSid ≤ a.endSid) :
    (pool.installCase cfg kind (olds.map pool.snap) slot).Linked (xs ++ slot :: ys) := by
  refine installCase_linked h.wellOrdered.linked h.fresh h.bound h.append fun _ => ⟨?_, ?_⟩
  · intro g hg
    have h₁ := h.parts.before g (List.mem_of_getLast? hg)
    have h₂ := h.wellOrdered.nonempty g (by simp [List.mem_of_getLast? hg])
    lia
  · intro g hg
    have := h.parts.after g hg
    lia

theorem installed_wellOrdered (cfg : PoolConfig) (h : Installs pool a xs olds ys slot kind)
    (hrange : (pool.seg slot).segmentIdStart = a.startSid ∧
      (pool.seg slot).segmentIdEnd = a.endSid) (ha : a.startSid ≤ a.endSid)
    (hu : (pool.seg slot).inUsed = true) :
    (pool.installCase cfg kind (olds.map pool.snap) slot).WellOrdered (xs ++ slot :: ys) := by
  have hold : ∀ g ∈ xs ++ slot :: ys, g = slot ∨ g ∈ xs ++ olds ++ ys := by
    intro g hg
    rcases List.mem_append.mp hg with hg | hg
    · exact Or.inr (by simp [hg])
    · rcases List.mem_cons.mp hg with rfl | hg
      · exact Or.inl rfl
      · exact Or.inr (by simp [hg])
  refine ⟨h.linked hrange.1 ha, fun g hg => ?_, fun g hg => ?_, fun g hg => ?_, ?_⟩
  · rw [h.seg hg]
    rcases hold g hg with rfl | hgl
    · exact hu
    · exact h.wellOrdered.used g hgl
  · rw [h.seg hg]
    dsimp only
    split
    next => exact le_rfl
    next hne => exact h.wellOrdered.referenced g ((hold g hg).resolve_left hne)
  · rw [h.seg hg]
    rcases hold g hg with rfl | hgl
    · change (pool.seg g).segmentIdStart ≤ (pool.seg g).segmentIdEnd
      lia
    · exact h.wellOrdered.nonempty g hgl
  · have hpair : (xs ++ slot :: ys).Pairwise fun g g' =>
        (pool.seg g).segmentIdEnd < (pool.seg g').segmentIdStart := by
      obtain ⟨hxo, hys, hxoy⟩ := List.pairwise_append.mp h.wellOrdered.sorted
      obtain ⟨hxs, -, -⟩ := List.pairwise_append.mp hxo
      rw [List.pairwise_append, List.pairwise_cons, hrange.2]
      refine ⟨hxs, ⟨h.parts.after, hys⟩, fun g hg g' hg' => ?_⟩
      rcases List.mem_cons.mp hg' with rfl | hg'
      · rw [hrange.1]
        exact h.parts.before g hg
      · exact hxoy g (by simp [hg]) g' hg'
    refine hpair.imp_of_mem fun {g g'} hg hg' hlt => ?_
    rw [h.seg hg, h.seg hg']
    exact hlt

end Installs

/-- An adoption of what can be displaced, with the range it was asked for loaded and no member
across its left end, displaces what it covers. -/
theorem WellOrdered.displaced (h : pool.WellOrdered (xs ++ olds ++ ys))
    (hi : Installs pool₂ a xs olds ys slot kind) (ha : a.startSid ≤ a.endSid)
    (hseg : ∀ g, g ≠ slot → pool₂.seg g = pool.seg g)
    (hslot : pool₂.seg slot =
      { (pool.seg slot).load m false with inUsed := true, version := a.version })
    (hload : Loads pool a m slot) (hs : ¬ pool.Straddled a) :
    Displaced pool a (pool₂.installCase cfg kind (olds.map pool₂.snap) slot) slot := by
  have hrange : (pool₂.seg slot).segmentIdStart = a.startSid ∧
      (pool₂.seg slot).segmentIdEnd = a.endSid := by
    rw [hslot]
    exact hload
  have hwf := hi.installed_wellOrdered cfg hrange ha (by rw [hslot])
  have hnew : slot ∈ xs ++ slot :: ys := by simp
  have hold : ∀ g ∈ xs ++ slot :: ys, g ≠ slot → g ∈ xs ++ olds ++ ys := by
    intro g hg hne
    simp only [List.mem_append, List.mem_cons] at hg ⊢
    tauto
  have hout : ∀ g ∈ xs ++ olds ++ ys, g ∉ xs ++ slot :: ys → g ∈ olds := by
    intro g hg hno
    simp only [List.mem_append, List.mem_cons] at hg hno
    tauto
  refine ⟨?_, ?_, ?_, ?_, ?_, ?_, ?_, ?_, ⟨_, hwf⟩⟩
  · rw [h.linked.members]
    exact hi.fresh
  · rw [hwf.linked.members]
    exact hnew
  · rw [hi.seg hnew]
    exact hrange
  · rw [hi.seg hnew, hslot]
  · rw [hwf.linked.members, h.linked.members]
    exact hold
  · rw [hwf.linked.members]
    intro g hg hne
    rw [hi.seg hg, if_neg hne, hseg g hne]
  · rw [hwf.linked.members, h.linked.members]
    intro g hg hno
    have hgo := hout g hg hno
    have hne : g ≠ slot := fun he => hno (he ▸ hnew)
    rw [← hseg g hne]
    refine ⟨?_, hi.tiled.1 g hgo⟩
    by_contra hlt
    have hmeets := hi.parts.meets g hgo
    rw [hseg g hne] at hlt hmeets
    exact hs ⟨g, by rwa [h.linked.members], Nat.lt_of_not_le hlt, hmeets.1⟩
  · intro sid h₁ h₂
    rw [hwf.linked.members, h.linked.members]
    rcases hi.tiled.2 sid h₁ h₂ with hc | ⟨g, hgo, hgs⟩
    · exact Or.inl hc
    have hno : g ∉ xs ++ slot :: ys := fun hg => hi.not_mem_olds hg hgo
    refine Or.inr ⟨g, by simp [hgo], hno, ?_⟩
    unfold Covers at hgs ⊢
    rwa [hseg g fun he => hno (he ▸ hnew)] at hgs

/-- What an adoption that displaced only what it covers says of its input. -/
theorem WellOrdered.of_displaced {slot' : ℕ} (h : pool.WellOrdered (xs ++ olds ++ ys))
    (hi : Installs pool₂ a xs olds ys slot kind) (ha : a.startSid ≤ a.endSid)
    (hp : Parts pool a xs olds ys)
    (hslot : pool₂.seg slot =
      { (pool.seg slot).load m false with inUsed := true, version := a.version })
    (hd : Displaced pool a (pool₂.installCase cfg kind (olds.map pool₂.snap) slot) slot') :
    Loads pool a m slot ∧ ¬ pool.Straddled a := by
  obtain ⟨xs', ys', hsplit, hlink⟩ := hi.exists_linked cfg
  have hmem : ∀ g, g ∈ xs' ++ slot :: ys' ↔ g = slot ∨ g ∈ xs ++ ys := by
    intro g
    rw [← hsplit]
    simp only [List.mem_append, List.mem_cons]
    tauto
  constructor
  · have hnew := hd.linked
    have hfresh := hd.fresh
    rw [hlink.members, hmem] at hnew
    rw [h.linked.members] at hfresh
    obtain rfl : slot' = slot := hnew.resolve_right fun hm =>
      hfresh (by simp only [List.mem_append] at hm ⊢; tauto)
    have hrange := hd.range
    rw [hi.seg (by simp), hslot] at hrange
    exact hrange
  · rintro ⟨g, hg, hlt, hle⟩
    rw [h.linked.members] at hg
    have hgo := hp.mem_olds hg hle (by lia)
    have hno : g ∉ xs' ++ slot :: ys' := by
      rw [hmem]
      rintro (rfl | hm)
      · exact hi.fresh hg
      · refine hi.not_mem_olds (List.mem_append.mpr ?_) hgo
        rcases List.mem_append.mp hm with hm | hm
        · exact Or.inl hm
        · exact Or.inr (List.mem_cons_of_mem slot hm)
    have hin := hd.inside g (by rwa [h.linked.members]) (by rwa [hlink.members])
    lia

end Outcome

section Alone

open Pool Transition

theorem exec_discard (cfg : PoolConfig) (m : Option SegmentMetadata) {s : State} {t : ℕ}
    (hs : step cfg s (.run t m) = some (s.goto t (.adoptDiscard slot))) :
    ∃ s', exec (step cfg) s (List.replicate 2 (.run t m)) = some s' ∧ s'.pc t = .idle ∧
      s'.pool = s.pool.discard slot := by
  have hstep : step cfg (s.goto t (.adoptDiscard slot)) (.run t m) =
      some (((s.goto t (.adoptDiscard slot)).setPool (s.pool.discard slot)).goto t .idle) := by
    change runStep cfg (s.goto t (.adoptDiscard slot)) t m = _
    rw [runStep, State.goto_pc, Function.update_self]
    rfl
  refine ⟨((s.goto t (.adoptDiscard slot)).setPool (s.pool.discard slot)).goto t .idle, ?_,
    by simp, rfl⟩
  rw [List.replicate_succ, exec_cons, hs, Option.bind_some, List.replicate_succ, exec_cons, hstep]
  rfl

theorem exec_install (cfg : PoolConfig) (m : Option SegmentMetadata) {s : State} {t : ℕ}
    {kind : AdoptCase} {snaps : List PredSnap} (hpc : s.pc t = .adoptInstall slot kind snaps) :
    ∃ s', exec (step cfg) s (List.replicate 1 (.run t m)) = some s' ∧ s'.pc t = .idle ∧
      s'.pool = s.pool.installCase cfg kind snaps slot := by
  have hrun : step cfg s (.run t m) = runStep cfg s t m := rfl
  rw [List.replicate_succ, exec_cons, hrun, runStep, hpc]
  cases kind with
  | append => exact ⟨s.register cfg t slot, rfl, by simp [State.register], rfl⟩
  | _ =>
      exact ⟨s.replace cfg t (snaps.map PredSnap.segIdx) slot, rfl, by simp [State.replace], rfl⟩

/-- The rounds are those of a thread nobody comes between. -/
theorem exec_adoptRounds (cfg : PoolConfig) (m : Option SegmentMetadata) {s : State}
    {t rounds retry : ℕ} (hpc : s.pc t = .adoptDecide a slot retry)
    (hr : retry + rounds = maxAdoptRetries) :
    ∃ n s', exec (step cfg) s (List.replicate n (.run t m)) = some s' ∧ s'.pc t = .idle ∧
      s'.pool = (s.pool.adoptRounds cfg a slot rounds).2 := by
  have hrun : step cfg s (.run t m) = runStep cfg s t m := rfl
  induction rounds generalizing s retry with
  | zero =>
      have hstep : step cfg s (.run t m) = some (s.goto t (.adoptDiscard slot)) := by
        rw [hrun, runStep, hpc]
        exact if_pos (by lia)
      obtain ⟨s', hs', hpc', hpool⟩ := exec_discard cfg m hstep
      exact ⟨2, s', hs', hpc', hpool⟩
  | succ rounds ih =>
      cases hdec : s.pool.decideCase a with
      | mk kind snaps =>
      have hstale : kind = .stale →
          step cfg s (.run t m) = some (s.goto t (.adoptDiscard slot)) := by
        rintro rfl
        rw [hrun, runStep, hpc]
        dsimp only
        rw [if_neg (by lia)]
        exact hdec ▸ rfl
      have hround : kind ≠ .stale → step cfg s (.run t m) =
          some (s.goto t (.adoptValidate a slot retry kind snaps)) := by
        intro hk
        rw [hrun, runStep, hpc]
        dsimp only
        rw [if_neg (by lia), hdec]
        cases kind with
        | stale => exact absurd rfl hk
        | _ => exact rfl
      by_cases hk : kind = .stale
      · rw [adoptRounds, hdec, if_pos hk]
        obtain ⟨s', hs', hpc', hpool⟩ := exec_discard cfg m (hstale hk)
        exact ⟨2, s', hs', hpc', hpool⟩
      rw [adoptRounds, hdec, if_neg hk]
      have hstep := hround hk
      have hvalidate : step cfg (s.goto t (.adoptValidate a slot retry kind snaps)) (.run t m) =
          if ∀ p ∈ snaps, s.pool.Holds p then
            some ((s.goto t (.adoptValidate a slot retry kind snaps)).goto t
              (.adoptInstall slot kind snaps))
          else some ((s.goto t (.adoptValidate a slot retry kind snaps)).goto t
            (.adoptDecide a slot (retry + 1))) := by
        change runStep cfg (s.goto t (.adoptValidate a slot retry kind snaps)) t m = _
        rw [runStep, State.goto_pc, Function.update_self]
        rfl
      by_cases hh : ∀ p ∈ snaps, s.pool.Holds p
      · rw [if_pos hh] at hvalidate ⊢
        obtain ⟨s', hs', hpc', hpool⟩ := @exec_install slot cfg m
          ((s.goto t (.adoptValidate a slot retry kind snaps)).goto t
            (.adoptInstall slot kind snaps)) t kind snaps (by simp)
        refine ⟨1 + 1 + 1, s', ?_, hpc', hpool⟩
        rw [List.replicate_succ, exec_cons, hstep, Option.bind_some, List.replicate_succ, exec_cons,
          hvalidate]
        exact hs'
      · rw [if_neg hh] at hvalidate ⊢
        obtain ⟨n, s', hs', hpc', hpool⟩ := @ih
          ((s.goto t (.adoptValidate a slot retry kind snaps)).goto t
            (.adoptDecide a slot (retry + 1))) (retry + 1) (by simp) (by lia) rfl
        refine ⟨n + 1 + 1, s', ?_, hpc', hpool⟩
        rw [List.replicate_succ, exec_cons, hstep, Option.bind_some, List.replicate_succ, exec_cons,
          hvalidate]
        exact hs'

/-- `adopt` is what a thread of the pool does that nobody comes between. -/
theorem exec_adopt (cfg : PoolConfig) {s : State} {t : ℕ} (hpc : s.pc t = .adoptReserve a)
    (hm : FileOf a.startSid a.endSid m) :
    ∃ n s', exec (step cfg) s (List.replicate n (.run t m)) = some s' ∧ s'.pc t = .idle ∧
      s'.pool = (s.pool.adopt cfg a m).2 := by
  have hrun : ∀ s : State, step cfg s (.run t m) = runStep cfg s t m := fun _ => rfl
  have hstep : step cfg s (.run t m) =
      some (s.reserve t (fun slot => .adoptLoad a slot) (s.goto t .idle)) := by
    rw [hrun, runStep, hpc]
  unfold adopt
  cases hr : s.pool.reserve with
  | none =>
      refine ⟨1, s.goto t .idle, ?_, by simp, rfl⟩
      rw [List.replicate_succ, exec_cons, hstep, State.reserve, hr]
      rfl
  | some r =>
      obtain ⟨slot, pool'⟩ := r
      obtain ⟨s₁, hs₁⟩ : ∃ s₁, s.reserve t (fun slot => .adoptLoad a slot) (s.goto t .idle) = s₁ :=
        ⟨_, rfl⟩
      have hpc₁ : s₁.pc t = .adoptLoad a slot := by
        rw [← hs₁, State.reserve, hr]
        simp
      have hpool₁ : s₁.pool = pool' := by
        rw [← hs₁, State.reserve, hr]
        rfl
      have hload : step cfg s₁ (.run t m) =
          some ((s₁.setPool (pool'.loadInto slot a.version m)).goto t (.adoptDecide a slot 0)) := by
        rw [hrun, runStep, hpc₁, ← hpool₁]
        exact if_pos hm
      obtain ⟨n, s', hs', hpc', hpool⟩ := @exec_adoptRounds a slot cfg m
        ((s₁.setPool (pool'.loadInto slot a.version m)).goto t (.adoptDecide a slot 0)) t
        maxAdoptRetries 0 (by simp) (Nat.zero_add _)
      refine ⟨n + 1 + 1, s', ?_, hpc', hpool⟩
      rw [List.replicate_succ, exec_cons, hstep, Option.bind_some, hs₁, List.replicate_succ,
        exec_cons, hload]
      exact hs'

end Alone

/-- An adoption displaces only what it covers unless it installs what it was not asked for, or
a member crosses the left end of its range. -/
theorem adoptsCovered_iff (cfg : PoolConfig) (m : Option SegmentMetadata)
    (h : pool.WellOrdered l) (ha : a.startSid ≤ a.endSid) :
    AdoptsCovered cfg pool a m ↔ ∀ slot pool', pool.reserve = some (slot, pool') →
      pool.Displaceable a → Loads pool a m slot ∧ ¬ pool.Straddled a := by
  obtain ⟨xs, olds, ys, rfl, hp⟩ := exists_parts (a := a) h.sorted h.nonempty
  by_cases hd : pool.Displaceable a
  · cases hr : pool.reserve with
    | none =>
        have heq : pool.adopt cfg a m = (.staleDiscard, pool) := by
          unfold adopt
          rw [hr]
        refine iff_of_true ?_ fun slot pool' he => by cases he
        rw [AdoptsCovered, heq]
        exact ⟨nofun, fun _ => ⟨rfl, ⟨rfl, rfl⟩, fun _ _ => rfl, fun _ => rfl, rfl⟩⟩
    | some r =>
        obtain ⟨slot, pool'⟩ := r
        obtain ⟨-, -, -, hseg, hslot⟩ := h.loaded hr a.version m
        obtain ⟨kind, hi, heq⟩ := h.adopt_displaceable cfg m ha hp hr hd
        rw [AdoptsCovered, heq]
        constructor
        · rintro ⟨hc, -⟩ slot₁ pool₁ he -
          obtain ⟨rfl, rfl⟩ := Prod.mk.injEq .. ▸ Option.some.inj he
          obtain ⟨slot', hdis⟩ := hc rfl
          exact h.of_displaced hi ha hp hslot hdis
        · intro hc
          obtain ⟨hload, hs⟩ := hc slot pool' rfl hd
          exact ⟨fun _ => ⟨slot, h.displaced hi ha hseg hslot hload hs⟩, nofun⟩
  · obtain ⟨hstale, hrest⟩ := h.adopt_stale cfg m ha hd
    refine ⟨fun _ slot pool' _ hd' => absurd hd' hd, fun _ => ?_⟩
    refine ⟨fun hadopted => ?_, fun _ => hrest⟩
    rw [hstale] at hadopted
    cases hadopted

section Demo

open Pool

theorem WellOrdered.of_inv {reserved : ℕ → Option ℕ} {held : ℕ → ℕ} {retired : ℕ → Bool}
    (h : Inv pool reserved held retired l) : pool.WellOrdered l where
  linked := h.linked
  used := h.used
  referenced g hg := by
    rw [h.counts g, if_pos hg]
    lia
  nonempty := h.nonempty
  sorted := h.sorted

theorem wellOrdered_loadAll (cfg : PoolConfig) (useMmap : Bool) (files : List SegmentMetadata)
    (hf : files.Pairwise fun a b => a.endSid < b.startSid)
    (hm : ∀ m ∈ files, m.startSid ≤ m.endSid) :
    ∃ l, (loadAll cfg useMmap files).WellOrdered l := by
  obtain ⟨l, h⟩ := inv_loadAll cfg useMmap inv_initial (by simp) hf hm
  exact ⟨l, .of_inv h⟩

/-- The segment 2-5 is adopted into a pool that has 1-3; a memtable stands for 4 and for 5. The
segment 1-3 goes, and with it the rows of 1. -/
theorem not_adoptsCovered : ¬ ∀ cfg pool l a m, WellOrdered pool l → a.startSid ≤ a.endSid →
    FileOf a.startSid a.endSid (some m) → AdoptsCovered cfg pool a (some m) := by
  intro h
  obtain ⟨l, hl⟩ := wellOrdered_loadAll demoConfig false [demoFile 1 3]
    (by simp) (by simp [demoFile])
  have hc := (h demoConfig _ l ⟨2, 5, 1, [4, 5]⟩ (demoFile 2 5) hl (by decide) (by decide)).1
    (by decide +kernel)
  obtain ⟨slot, hd⟩ := hc
  have hin := hd.inside 0 (by decide +kernel) (by decide +kernel)
  exact absurd hin.1 (by decide +kernel)

/-- The segment 4-5 takes the place of 4 beside a memtable of 5, and 1-3 stays. -/
theorem adoptsCovered_demo :
    ((loadAll demoConfig false [demoFile 1 3, demoFile 4 4]).adopt demoConfig ⟨4, 5, 1, [5]⟩
      (some (demoFile 4 5))).1 = .adopted ∧
    AdoptsCovered demoConfig (loadAll demoConfig false [demoFile 1 3, demoFile 4 4])
      ⟨4, 5, 1, [5]⟩ (some (demoFile 4 5)) := by
  obtain ⟨l, hl⟩ := wellOrdered_loadAll demoConfig false [demoFile 1 3, demoFile 4 4]
    (by simp [demoFile]) (by simp [demoFile])
  refine ⟨by decide +kernel, (adoptsCovered_iff demoConfig _ hl (by decide)).mpr ?_⟩
  intro slot pool' hr _
  have hslot := congrArg (Option.map Prod.fst) hr
  obtain rfl : 2 = slot := Option.some.inj (Eq.trans (by decide +kernel) hslot)
  exact ⟨by decide +kernel, by decide +kernel⟩

end Demo

end FlushedSegmentPool

end VectorLsm
