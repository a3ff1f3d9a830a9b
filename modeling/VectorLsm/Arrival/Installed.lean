import VectorLsm.Arrival.Machine
import VectorLsm.Lib.Frontier

/-! # What an adoption leaves of a pool

Segments are ordered by range, and those of one range by version. Where ranges are nested or
disjoint, an adoption that finds its ids in memtables or in the pool takes the place of what is
below the new segment, unless the pool has something above it. A load links the files it is given,
in their order.
-/

namespace VectorLsm

open SegmentFileInfo

/-- Within a range, and not a later version of the same one. -/
instance : PartialOrder SegmentFileInfo where
  le i j := i.Within j ∧ (i.range = j.range → i.version ≤ j.version)
  le_refl _ := ⟨⟨le_rfl, le_rfl⟩, fun _ => le_rfl⟩
  le_trans i j k hij hjk := by
    refine ⟨⟨hjk.1.1.trans hij.1.1, hij.1.2.trans hjk.1.2⟩, fun hr => ?_⟩
    obtain ⟨h₁, h₂⟩ := Prod.mk.inj hr
    have hj : i.range = j.range := Prod.ext
      (Nat.le_antisymm (h₁.trans_le hjk.1.1) hij.1.1)
      (Nat.le_antisymm hij.1.2 (hjk.1.2.trans_eq h₂.symm))
    exact (hij.2 hj).trans (hjk.2 (hj.symm.trans hr))
  le_antisymm i j hij hji := by
    have hr : i.range = j.range := Prod.ext
      (Nat.le_antisymm hji.1.1 hij.1.1) (Nat.le_antisymm hij.1.2 hji.1.2)
    exact ext_range hr (Nat.le_antisymm (hij.2 hr) (hji.2 hr.symm))

namespace Arrival

open FlushedSegmentPool

variable {cfg : PoolConfig} {pool pool' out : FlushedSegmentPool} {a : Adoption}
  {m : Option SegmentMetadata} {l : List ℕ} {slot g : ℕ} {b : SegmentFileInfo}

/-- The segment that is adopted. -/
@[simps] def incoming (a : Adoption) : SegmentFileInfo := ⟨a.startSid, a.endSid, a.version⟩

theorem mem_view : b ∈ view pool ↔ ∃ g ∈ pool.members, (pool.seg g).info = b := List.mem_map

/-- Members with an id in common are the same. -/
theorem eq_of_meet (h : pool.WellOrdered l) {g g' : ℕ} (hg : g ∈ pool.members)
    (hg' : g' ∈ pool.members) (sid : SegmentId) (hs : pool.Covers g sid)
    (hs' : pool.Covers g' sid) : g = g' := by
  rw [h.linked.members] at hg hg'
  exact h.eq_of_covers hg hg' hs hs'

theorem nonempty_of_mem (h : pool.WellOrdered l) (hg : g ∈ pool.members) :
    (pool.seg g).segmentIdStart ≤ (pool.seg g).segmentIdEnd := by
  rw [h.linked.members] at hg
  exact h.nonempty g hg

/-- What can be displaced is not below anything in the pool. -/
theorem not_le_of_displaceable (h : pool.WellOrdered l) (ha : a.startSid ≤ a.endSid)
    (hd : pool.Displaceable a) : ∀ b ∈ view pool, ¬ incoming a ≤ b := by
  intro b hb hle
  obtain ⟨g, hg, rfl⟩ := mem_view.mp hb
  obtain ⟨⟨hlo, hhi⟩, hv⟩ := hle
  rcases hd with ⟨g', hg', hs, he, hlt⟩ | ⟨hno, -⟩
  · obtain rfl : g = g' := eq_of_meet h hg hg' a.startSid
      ⟨hlo, ha.trans hhi⟩ ⟨hs.le, ha.trans he.ge⟩
    exact absurd (hv (Prod.ext hs.symm he.symm)) (Nat.not_le.mpr hlt)
  · exact hno ⟨g, hg, hlo, hhi⟩

/-- A member across the left end of the range would be nested in it. -/
theorem not_straddled (h : pool.WellOrdered l) (ha : a.startSid ≤ a.endSid)
    (hlam : ∀ b ∈ view pool, Laminar b (incoming a)) (hd : pool.Displaceable a) :
    ¬ pool.Straddled a := by
  rintro ⟨g, hg, hlt, hle⟩
  have hb := hlam _ (mem_view.mpr ⟨g, hg, rfl⟩)
  have haround : a.endSid ≤ (pool.seg g).segmentIdEnd := by
    rcases hb with hb | hb | hb | hb
    · exact absurd hb (Nat.not_lt.mpr hle)
    · exact absurd (hb.trans hlt) (Nat.not_lt.mpr ha)
    · exact absurd hb.1 (Nat.not_le.mpr hlt)
    · exact hb.2
  rcases hd with ⟨g', hg', hs, he, -⟩ | ⟨hno, -⟩
  · obtain rfl : g = g' := eq_of_meet h hg hg' a.startSid
      ⟨hlt.le, hle⟩ ⟨hs.le, ha.trans he.ge⟩
    exact absurd hs hlt.ne
  · exact hno ⟨g, hg, hlt.le, haround⟩

/-- What is not below anything in the pool, and has its ids in memtables or in the pool, can be
displaced. -/
theorem displaceable_of_not_le
    (hlam : ∀ b ∈ view pool, Laminar b (incoming a)) (hno : ∀ b ∈ view pool, ¬ incoming a ≤ b)
    (hrep : ∀ sid, a.startSid ≤ sid → sid ≤ a.endSid → sid ∈ a.memtableCover ∨ Held pool sid) :
    pool.Displaceable a := by
  by_cases hsame : ∃ g ∈ pool.members, (pool.seg g).segmentIdStart = a.startSid ∧
      (pool.seg g).segmentIdEnd = a.endSid
  · obtain ⟨g, hg, hs, he⟩ := hsame
    refine Or.inl ⟨g, hg, hs, he, Nat.lt_of_not_le fun hv => ?_⟩
    exact hno _ (mem_view.mpr ⟨g, hg, rfl⟩) ⟨⟨hs.le, he.ge⟩, fun _ => hv⟩
  have haround : ¬ ∃ g ∈ pool.members, (pool.seg g).segmentIdStart ≤ a.startSid ∧
      a.endSid ≤ (pool.seg g).segmentIdEnd := by
    rintro ⟨g, hg, hlo, hhi⟩
    refine hno _ (mem_view.mpr ⟨g, hg, rfl⟩) ⟨⟨hlo, hhi⟩, fun hr => ?_⟩
    obtain ⟨h₁, h₂⟩ := Prod.mk.inj hr
    exact absurd ⟨g, hg, h₁.symm, h₂.symm⟩ hsame
  refine Or.inr ⟨haround, fun g hg hlo hhi => ?_, fun sid hlo hhi => ?_⟩
  · rcases hlam _ (mem_view.mpr ⟨g, hg, rfl⟩) with hb | hb | hb | hb
    · exact absurd hb (Nat.not_lt.mpr hhi)
    · exact absurd hb (Nat.not_lt.mpr hlo)
    · exact hb.2
    · exact absurd ⟨g, hg, hb⟩ haround
  · refine (hrep sid hlo hhi).imp_right fun ⟨b, hb, hs⟩ => ?_
    obtain ⟨g, hg, rfl⟩ := mem_view.mp hb
    exact ⟨g, hg, hs⟩

/-- The segments of a pool whose members below a new one were displaced by it. -/
theorem mem_view_of_displaced (h : pool.WellOrdered l) (ha : a.startSid ≤ a.endSid)
    (hd : pool.Displaceable a) (hout : Displaced pool a out slot) :
    b ∈ view out ↔ b = incoming a ∨ b ∈ view pool ∧ ¬ b ≤ incoming a := by
  have hslot : (out.seg slot).info = incoming a := by
    obtain ⟨⟨h₁, h₂⟩, h₃⟩ := And.intro hout.range hout.version
    rw [FlushedSegment.info, h₁, h₂, h₃, incoming]
  obtain ⟨l', hl'⟩ := hout.wellOrdered
  have hinfo : ∀ g ∈ out.members, g ≠ slot → (out.seg g).info = (pool.seg g).info := by
    intro g hg hne
    rw [hout.unchanged g hg hne]
    rfl
  constructor
  · intro hb
    obtain ⟨g, hg, rfl⟩ := mem_view.mp hb
    by_cases hne : g = slot
    · exact Or.inl (hne ▸ hslot)
    · refine Or.inr ⟨mem_view.mpr ⟨g, hout.others g hg hne, (hinfo g hg hne).symm⟩, ?_⟩
      -- It would meet the new segment.
      rintro ⟨⟨hlo, hhi⟩, -⟩
      have hn := nonempty_of_mem hl' hg
      refine hne (eq_of_meet hl' hg hout.linked (out.seg g).segmentIdStart
        ⟨le_rfl, hn⟩ ⟨?_, ?_⟩)
      · rw [hout.range.1]
        exact hlo
      · rw [hout.range.2]
        exact hn.trans hhi
  · rintro (rfl | ⟨hb, hno⟩)
    · exact mem_view.mpr ⟨slot, hout.linked, hslot⟩
    · obtain ⟨g, hg, rfl⟩ := mem_view.mp hb
      by_cases hgo : g ∈ out.members
      · have hne : g ≠ slot := fun he => hout.fresh (he ▸ hg)
        exact mem_view.mpr ⟨g, hgo, hinfo g hgo hne⟩
      · have hin := hout.inside g hg hgo
        refine absurd ⟨hin, fun hr => ?_⟩ hno
        obtain ⟨h₁, h₂⟩ := Prod.mk.inj hr
        -- Of its own range it has a lower version.
        rcases hd with ⟨g', hg', hs, he, hlt⟩ | ⟨haround, -⟩
        · obtain rfl : g = g' := eq_of_meet h hg hg' a.startSid
            ⟨h₁.le, ha.trans h₂.ge⟩ ⟨hs.le, ha.trans he.ge⟩
          exact hlt.le
        · exact absurd ⟨g, hg, h₁.le, h₂.ge⟩ haround

/-- An adoption of what can be displaced, in a pool of nested or disjoint ranges. -/
theorem displaced_adopt (cfg : PoolConfig) (h : pool.WellOrdered l) (ha : a.startSid ≤ a.endSid)
    (hlam : ∀ b ∈ view pool, Laminar b (incoming a)) (hr : pool.reserve ≠ none)
    (hload : ∀ slot, Loads pool a m slot) (hd : pool.Displaceable a) :
    (pool.adopt cfg a m).1 = .adopted ∧ ∃ slot, Displaced pool a (pool.adopt cfg a m).2 slot := by
  obtain ⟨⟨slot, pool'⟩, hr⟩ := Option.ne_none_iff_exists'.mp hr
  obtain ⟨xs, olds, ys, rfl, hp⟩ := exists_parts (a := a) h.sorted h.nonempty
  obtain ⟨-, -, -, hseg, hslot⟩ := h.loaded hr a.version m
  obtain ⟨kind, hi, heq⟩ := h.adopt_displaceable cfg m ha hp hr hd
  rw [heq]
  exact ⟨rfl, slot, h.displaced hi ha hseg hslot (hload slot) (not_straddled h ha hlam hd)⟩

/-! ## A load -/

section Load

variable {is : List SegmentFileInfo} {md : SegmentMetadata}

/-- The first slots hold `is`, and no slot behind them is in use. -/
structure Filled (pool : FlushedSegmentPool) (l : List ℕ) (is : List SegmentFileInfo) : Prop where
  wellOrdered : pool.WellOrdered l
  infos : l.map (fun g => (pool.seg g).info) = is
  insertIdx : pool.insertIdx = l.length
  free : ∀ g, l.length ≤ g → (pool.seg g).inUsed = false

theorem Filled.view_eq (h : Filled pool l is) : view pool = is := by
  rw [view, h.wellOrdered.linked.members, h.infos]

theorem filled_initial : Filled .initial [] [] where
  wellOrdered := ⟨.initial, by simp, by simp, by simp, .nil⟩
  infos := rfl
  insertIdx := rfl
  free _ _ := rfl

theorem Filled.reserve (h : Filled pool l is) (hroom : l.length < maxSegmentsCount) :
    ∃ pool', pool.reserve = some (l.length, pool') := by
  obtain ⟨n, hn⟩ : ∃ n, maxSegmentsCount - l.length = n + 1 :=
    ⟨maxSegmentsCount - l.length - 1, by lia⟩
  have hfind : (List.range' l.length (n + 1)).find? (fun idx => !(pool.seg idx).inUsed) =
      some l.length := by
    rw [List.range'_succ]
    exact List.find?_cons_of_pos (by simp [h.free l.length le_rfl])
  rw [FlushedSegmentPool.reserve, h.insertIdx, hn, hfind]
  exact ⟨_, rfl⟩

/-- A file behind the members is linked in the next slot. -/
theorem Filled.loadOne (cfg : PoolConfig) (useMmap : Bool) (h : Filled pool l is)
    (hroom : l.length < maxSegmentsCount) (hlast : ∀ i ∈ is, i.endSid < md.startSid)
    (hne : md.startSid ≤ md.endSid) :
    Filled (pool.loadOne cfg useMmap md) (l ++ [l.length])
      (is ++ [⟨md.startSid, md.endSid, md.version⟩]) := by
  obtain ⟨pool', hr⟩ := h.reserve hroom
  obtain ⟨-, -, hpool⟩ := reserve_eq hr
  have hlt : ∀ g ∈ l, g ≠ l.length := by
    rintro g hg rfl
    exact absurd (h.wellOrdered.used _ hg) (by rw [h.free _ le_rfl]; exact Bool.false_ne_true)
  set loaded := pool'.setSeg l.length ((pool'.seg l.length).load (some md) useMmap) with hloaded
  have hseg : ∀ g, g ≠ l.length → loaded.seg g = pool.seg g := by
    intro g hg
    simp [hloaded, hpool, hg]
  have hslot : (loaded.seg l.length).info = ⟨md.startSid, md.endSid, md.version⟩ ∧
      (loaded.seg l.length).inUsed = true := by
    simp [hloaded, FlushedSegment.load, FlushedSegment.info]
  have hwf : loaded.WellOrdered l := by
    refine h.wellOrdered.congr (fun g hg => hseg g (hlt g hg)) ?_ ?_ <;>
      rw [hloaded, hpool] <;> rfl
  have hend : ∀ g ∈ l, (loaded.seg g).segmentIdEnd < md.startSid := by
    intro g hg
    rw [hseg g (hlt g hg)]
    exact hlast _ (h.infos ▸ List.mem_map_of_mem (f := fun g => (pool.seg g).info) hg)
  -- The load appends as an adoption of the file over memtables would.
  have hi : Installs loaded ⟨md.startSid, md.endSid, md.version,
      List.range' md.startSid (md.endSid + 1 - md.startSid)⟩ l [] [] l.length .append := {
    wellOrdered := by
      rw [List.append_nil, List.append_nil]
      exact hwf
    parts := ⟨hend, by simp, by simp⟩
    fresh := by
      rw [List.append_nil, List.append_nil]
      exact fun hm => hlt _ hm rfl
    bound := hroom
    append := ⟨fun _ => rfl, fun _ => rfl⟩
    tiled := by
      refine ⟨by simp, fun sid hlo hhi => Or.inl (List.mem_range'_1.mpr ⟨hlo, ?_⟩)⟩
      dsimp only at hlo hhi
      lia }
  have hout : pool.loadOne cfg useMmap md =
      loaded.installCase cfg .append (([] : List ℕ).map loaded.snap) l.length := by
    rw [FlushedSegmentPool.loadOne, hr]
    rfl
  have hrange : (loaded.seg l.length).segmentIdStart = md.startSid ∧
      (loaded.seg l.length).segmentIdEnd = md.endSid :=
    ⟨congrArg SegmentFileInfo.startSid hslot.1, congrArg SegmentFileInfo.endSid hslot.1⟩
  have hreg : ∀ g, ((pool.loadOne cfg useMmap md).seg g).info = (loaded.seg g).info ∧
      ((pool.loadOne cfg useMmap md).seg g).inUsed = (loaded.seg g).inUsed := by
    intro g
    rw [hout, installCase_seg List.nodup_nil ⟨fun _ => rfl, fun _ => rfl⟩ List.not_mem_nil]
    exact ⟨rfl, rfl⟩
  refine ⟨hout ▸ hi.installed_wellOrdered cfg hrange hne hslot.2, ?_, ?_, fun g hg => ?_⟩
  · rw [List.map_append, List.map_singleton, (hreg l.length).1, hslot.1, ← h.infos]
    refine congrArg (· ++ _) (List.map_congr_left fun g hg => ?_)
    rw [(hreg g).1, hseg g (hlt g hg)]
  · rw [hout, List.length_append, List.length_singleton]
    change loaded.insertIdx = l.length + 1
    rw [hloaded, hpool]
    rfl
  · rw [List.length_append, List.length_singleton] at hg
    rw [(hreg g).2, hseg g (by lia)]
    exact h.free g (by lia)

theorem Filled.loadAll (cfg : PoolConfig) (useMmap : Bool) (files : List SegmentMetadata)
    (h : Filled pool l is)
    (hroom : l.length + files.length ≤ maxSegmentsCount)
    (hlast : ∀ i ∈ is, ∀ md ∈ files, i.endSid < md.startSid)
    (hsorted : files.Pairwise fun a b => a.endSid < b.startSid)
    (hne : ∀ md ∈ files, md.startSid ≤ md.endSid) :
    ∃ l', Filled (files.foldl (fun pool md => pool.loadOne cfg useMmap md) pool) l'
      (is ++ files.map fun md => ⟨md.startSid, md.endSid, md.version⟩) := by
  induction files generalizing pool l is with
  | nil => exact ⟨l, by rwa [List.map_nil, List.append_nil]⟩
  | cons md files ih =>
      obtain ⟨hmd, hsorted⟩ := List.pairwise_cons.mp hsorted
      rw [List.length_cons] at hroom
      have hone := h.loadOne cfg useMmap (by lia)
        (fun i hi => hlast i hi md List.mem_cons_self) (hne md List.mem_cons_self)
      have hall := ih hone (by rw [List.length_append, List.length_singleton]; lia) ?_ hsorted
        fun md' hmd' => hne md' (List.mem_cons_of_mem md hmd')
      · rwa [List.append_assoc] at hall
      · intro i hi md' hmd'
        rcases List.mem_append.mp hi with hi | hi
        · exact hlast i hi md' (List.mem_cons_of_mem md hmd')
        · rw [List.mem_singleton.mp hi]
          exact hmd md' hmd'

end Load

end Arrival

end VectorLsm
