import VectorLsm.Vacuum.Claims

/-! # Files and members

Each member of the pool has its files on disk, and every file belongs to a member, as the latest
version of the range or inside it; only a compaction between its two last steps is ahead of the
pool. So the scan returns the files of the members, or those of such a compaction.
-/

namespace VectorLsm

namespace Disk

variable {d : Disk} {f g : SegmentFile} {i j : SegmentFileInfo} {bitmap : ℕ → Bool} {n : ℕ}

theorem load_eq_some (hn : (d.map (·.info)).Nodup) : d.load i = some f ↔ f ∈ d ∧ f.info = i := by
  constructor
  · intro h
    exact ⟨List.mem_of_find?_eq_some h, by simpa using List.find?_some h⟩
  · rintro ⟨hf, rfl⟩
    have hs : (d.load f.info).isSome := by
      rw [load, List.find?_isSome]
      exact ⟨f, hf, by simp⟩
    obtain ⟨g, hg⟩ := Option.isSome_iff_exists.mp hs
    have hgi : g.info = f.info := by simpa using List.find?_some hg
    rw [hg, List.inj_on_of_nodup_map hn (List.mem_of_find?_eq_some hg) hf hgi]

theorem writeBitmap_info (d : Disk) (i : SegmentFileInfo) (bitmap : ℕ → Bool) (n : ℕ) :
    (d.writeBitmap i bitmap n).map (·.info) = d.map (·.info) := by
  rw [writeBitmap, List.map_map]
  refine List.map_congr_left fun f _ => ?_
  dsimp only [Function.comp_apply]
  split <;> rfl

theorem mem_writeBitmap : g ∈ d.writeBitmap i bitmap n ↔
    ∃ f ∈ d, (if f.info = i then f.setBitmap bitmap n else f) = g := List.mem_map

theorem latestVersion_eq_of {lo hi : SegmentId} (hf : f ∈ d) (hr : f.info.range = (lo, hi))
    (hle : ∀ g ∈ d, g.info.range = (lo, hi) → g.version ≤ f.version) :
    d.latestVersion lo hi = f.version := by
  obtain ⟨rfl, rfl⟩ := Prod.mk.injEq .. ▸ hr
  refine le_antisymm ?_ (le_latestVersion hf)
  have hall : ∀ v ∈ (d.filter fun g => g.startSid = f.info.startSid ∧
      g.endSid = f.info.endSid).map (·.version), v ≤ f.version := by
    intro v hv
    obtain ⟨g, hg, rfl⟩ := List.mem_map.mp hv
    obtain ⟨hg, hgr⟩ := List.mem_filter.mp hg
    obtain ⟨h₁, h₂⟩ : g.startSid = f.info.startSid ∧ g.endSid = f.info.endSid := by
      simpa using hgr
    exact hle g hg (Prod.ext h₁ h₂)
  unfold latestVersion
  generalize (d.filter _).map _ = vs at hall
  induction vs with
  | nil => exact Nat.zero_le _
  | cons v vs ih =>
      refine max_le (hall v List.mem_cons_self) (ih fun w hw => hall w (List.mem_cons_of_mem v hw))

end Disk

namespace OnDisk

open SegmentFileInfo

section MapM

variable {α β γ : Type*} {g : α → Option β} {l : List α} {r : List β}

theorem mapM_cons_eq_some {a : α} : (a :: l).mapM g = some r ↔
    ∃ b r', g a = some b ∧ l.mapM g = some r' ∧ r = b :: r' := by
  rw [List.mapM_cons]
  constructor
  · intro h
    obtain ⟨b, hb, h⟩ := Option.bind_eq_some_iff.mp h
    obtain ⟨r', hr, h⟩ := Option.bind_eq_some_iff.mp h
    exact ⟨b, r', hb, hr, (Option.some.inj h).symm⟩
  · rintro ⟨b, r', hb, hr, rfl⟩
    rw [hb, hr]
    rfl

theorem mem_of_mapM (h : l.mapM g = some r) {b : β} (hb : b ∈ r) : ∃ a ∈ l, g a = some b := by
  induction l generalizing r with
  | nil =>
      obtain rfl : r = [] := by simpa using h.symm
      cases hb
  | cons a l ih =>
      obtain ⟨b', r', hb', hr, rfl⟩ := mapM_cons_eq_some.mp h
      rcases List.mem_cons.mp hb with rfl | hb
      · exact ⟨a, List.mem_cons_self, hb'⟩
      · obtain ⟨a', ha', hab⟩ := ih hr hb
        exact ⟨a', List.mem_cons_of_mem a ha', hab⟩

theorem map_of_mapM (h : l.mapM g = some r) {j : α → γ} {k : β → γ}
    (hk : ∀ a ∈ l, ∀ b, g a = some b → k b = j a) : r.map k = l.map j := by
  induction l generalizing r with
  | nil =>
      obtain rfl : r = [] := by simpa using h.symm
      rfl
  | cons a l ih =>
      obtain ⟨b, r', hb, hr, rfl⟩ := mapM_cons_eq_some.mp h
      rw [List.map_cons, List.map_cons, hk a List.mem_cons_self b hb,
        ih hr fun a' ha' => hk a' (List.mem_cons_of_mem a ha')]

end MapM

variable {disk : Disk} {pool : List PoolSegment} {nextUid t : ℕ} {comp : ℕ → CompactionPc}
  {pc : CompactionPc} {p q : PoolSegment} {f new : SegmentFile}

/-- Files read at some time: only bits were set on disk since. -/
structure Read (disk : Disk) (olds : List SegmentRef) (files : List SegmentFile) : Prop where
  info : files.map (·.info) = olds.map (·.info)
  later : ∀ f ∈ files, ∃ g ∈ disk, g.info = f.info ∧ g.mapping = f.mapping ∧
    g.offsets = f.offsets ∧ ∀ k, f.bitmap k = true → g.bitmap k = true

structure Files (disk : Disk) (pool : List PoolSegment) (comp : ℕ → CompactionPc) : Prop where
  nodup : (disk.map (·.info)).Nodup
  sound : ∀ f ∈ disk, f.Sound
  laminar : ∀ f ∈ disk, ∀ g ∈ disk, Laminar f.info g.info
  member : ∀ p ∈ pool, ∃ f ∈ disk, f.info = p.info ∧ f.mapping = p.file.mapping
  covered : ∀ f ∈ disk,
    (∃ p ∈ pool, f.info.Within p.info ∧
      (f.info.range = p.info.range → f.version ≤ p.info.version)) ∨
      ∃ t new, (comp t).onDisk? = some new ∧ f.info = new.info
  onDisk : ∀ t new, (comp t).onDisk? = some new →
    ∃ f ∈ disk, f.info = new.info ∧ f.mapping = new.mapping
  latest : ∀ t new, (comp t).onDisk? = some new → ∀ f ∈ disk, f.info.range = new.info.range →
    f.version ≤ new.version
  newer : ∀ t new, (comp t).onDisk? = some new → ∀ p ∈ pool, p.info.range = new.info.range →
    p.info.version < new.version
  hull : ∀ t new, (comp t).new? = some new → new.Sound ∧ Hull (comp t).olds new
  loaded : ∀ t olds files n, comp t = .loaded olds files n → Read disk olds files

theorem CompactionPc.new?_of_onDisk? (h : pc.onDisk? = some new) : pc.new? = some new := by
  cases pc <;> first | exact h | cases h

namespace Files

theorem hull_of_onDisk (h : Files disk pool comp) (ht : (comp t).onDisk? = some new) :
    Hull (comp t).olds new := (h.hull t new (CompactionPc.new?_of_onDisk? ht)).2

/-- Only its own members are the ones a compaction is ahead of. -/
theorem uid_mem_of_range (h : Files disk pool comp) (hc : Claims pool nextUid comp)
    (ht : (comp t).onDisk? = some new) (hp : p ∈ pool) (hr : p.info.range = new.info.range) :
    p.uid ∈ uids (comp t).olds := by
  rcases hc.hull_cases rfl (h.hull_of_onDisk ht) hp with ⟨hu, -⟩ | ⟨-, ho⟩
  · exact hu
  · obtain ⟨h₁, h₂⟩ := Prod.mk.injEq .. ▸ hr
    have hlt := hc.range p hp
    have h₁ : p.info.startSid = new.startSid := h₁
    have h₂ : p.info.endSid = new.endSid := h₂
    lia

/-- No compaction is ahead of the member. -/
def Settled (comp : ℕ → CompactionPc) (p : PoolSegment) : Prop :=
  ∀ t new, (comp t).onDisk? = some new → p.uid ∉ uids (comp t).olds

theorem version_le (h : Files disk pool comp) (hc : Claims pool nextUid comp) (hp : p ∈ pool)
    (hs : Settled comp p) (hf : f ∈ disk) (hr : f.info.range = p.info.range) :
    f.version ≤ p.info.version := by
  rcases h.covered f hf with ⟨q, hq, hw, hv⟩ | ⟨t, new, ht, hi⟩
  · obtain ⟨h₁, h₂⟩ := Prod.mk.injEq .. ▸ hr
    obtain rfl : p = q := by
      have := hc.range p hp
      obtain ⟨hw₁, hw₂⟩ := hw
      exact hc.eq_of_overlap hp hq (by lia) (by lia)
    exact hv hr
  · rw [hi] at hr
    exact absurd (h.uid_mem_of_range hc ht hp hr.symm) (hs t new ht)

/-- The files `find_latest_segment_version` leads to are those of the member. -/
theorem loadLatest (h : Files disk pool comp) (hc : Claims pool nextUid comp) (hp : p ∈ pool)
    (hs : Settled comp p) : ∃ f ∈ disk, f.info = p.info ∧ f.mapping = p.file.mapping ∧
      disk.loadLatest p.info.startSid p.info.endSid = some f := by
  obtain ⟨f, hf, hi, hm⟩ := h.member p hp
  refine ⟨f, hf, hi, hm, ?_⟩
  have hv : disk.latestVersion p.info.startSid p.info.endSid = f.version := by
    refine Disk.latestVersion_eq_of hf (by rw [hi]; rfl) fun g hg hr => ?_
    have hfv : f.version = p.info.version := congrArg SegmentFileInfo.version hi
    rw [hfv]
    exact h.version_le hc hp hs hg hr
  rw [Disk.loadLatest, hv, Disk.load_eq_some h.nodup]
  exact ⟨hf, by rw [← hi]; rfl⟩

section Steps

/-- A step of a task that writes nothing. -/
theorem same (h : Files disk pool comp)
    (hn : ∀ new, pc.new? = some new → new.Sound ∧ Hull pc.olds new)
    (hd : pc.onDisk? = (comp t).onDisk?)
    (hl : ∀ olds files n, pc = .loaded olds files n → Read disk olds files) :
    Files disk pool (Function.update comp t pc) := by
  have hdl : ∀ t', (Function.update comp t pc t').onDisk? = (comp t').onDisk? := by
    intro t'
    rw [Function.update_apply]
    split
    next he => rw [hd, he]
    next => rfl
  constructor
  case nodup => exact h.nodup
  case sound => exact h.sound
  case laminar => exact h.laminar
  case member => exact h.member
  case covered => simpa only [hdl] using h.covered
  case onDisk => simpa only [hdl] using h.onDisk
  case latest => simpa only [hdl] using h.latest
  case newer => simpa only [hdl] using h.newer
  case hull =>
    intro t' new
    rw [Function.update_apply]
    split
    · exact hn new
    · exact h.hull t' new
  case loaded =>
    intro t' olds files n
    rw [Function.update_apply]
    split
    · exact hl olds files n
    · exact h.loaded t' olds files n

/-- Members change in what is not on disk. -/
theorem map (h : Files disk pool comp) {g : PoolSegment → PoolSegment}
    (hi : ∀ p, (g p).info = p.info) (hm : ∀ p, (g p).file.mapping = p.file.mapping) :
    Files disk (pool.map g) comp := by
  have hex : ∀ {P : PoolSegment → Prop}, (∀ p, P (g p) ↔ P p) →
      ((∃ p ∈ pool.map g, P p) ↔ ∃ p ∈ pool, P p) := by
    intro P hP
    simp only [List.mem_map]
    constructor
    · rintro ⟨-, ⟨p, hp, rfl⟩, hgp⟩
      exact ⟨p, hp, (hP p).mp hgp⟩
    · rintro ⟨p, hp, hpp⟩
      exact ⟨g p, ⟨p, hp, rfl⟩, (hP p).mpr hpp⟩
  constructor
  case nodup => exact h.nodup
  case sound => exact h.sound
  case laminar => exact h.laminar
  case member =>
    intro q hq
    obtain ⟨p, hp, rfl⟩ := List.mem_map.mp hq
    rw [hi, hm]
    exact h.member p hp
  case covered =>
    intro f hf
    rw [hex fun p => by rw [hi]]
    exact h.covered f hf
  case onDisk => exact h.onDisk
  case latest => exact h.latest
  case newer =>
    intro t new ht q hq
    obtain ⟨p, hp, rfl⟩ := List.mem_map.mp hq
    rw [hi]
    exact h.newer t new ht p hp
  case hull => exact h.hull
  case loaded => exact h.loaded

theorem writeBitmap (h : Files disk pool comp) {i : SegmentFileInfo} {bitmap : ℕ → Bool} {n : ℕ}
    (hb : ∀ f ∈ disk, f.info = i → ∀ k, f.bitmap k = true → bitmap k = true) :
    Files (disk.writeBitmap i bitmap n) pool comp := by
  have hfwd : ∀ f ∈ disk, ∃ g ∈ disk.writeBitmap i bitmap n, g.info = f.info ∧
      g.mapping = f.mapping ∧ g.offsets = f.offsets ∧
        ∀ k, f.bitmap k = true → g.bitmap k = true := by
    intro f hf
    refine ⟨_, Disk.mem_writeBitmap.mpr ⟨f, hf, rfl⟩, ?_⟩
    split
    next hi => exact ⟨rfl, rfl, rfl, hb f hf hi⟩
    next => exact ⟨rfl, rfl, rfl, fun _ => id⟩
  have hback : ∀ g ∈ disk.writeBitmap i bitmap n, ∃ f ∈ disk, f.info = g.info ∧
      f.version = g.version ∧ (f.Sound → g.Sound) := by
    intro g hg
    obtain ⟨f, hf, rfl⟩ := Disk.mem_writeBitmap.mp hg
    refine ⟨f, hf, ?_⟩
    split
    · exact ⟨rfl, rfl, fun hs => hs.setBitmap _ _⟩
    · exact ⟨rfl, rfl, id⟩
  constructor
  case nodup =>
    rw [Disk.writeBitmap_info]
    exact h.nodup
  case sound =>
    intro g hg
    obtain ⟨f, hf, -, -, hs⟩ := hback g hg
    exact hs (h.sound f hf)
  case laminar =>
    intro g hg g' hg'
    obtain ⟨f, hf, hi, -⟩ := hback g hg
    obtain ⟨f', hf', hi', -⟩ := hback g' hg'
    rw [← hi, ← hi']
    exact h.laminar f hf f' hf'
  case member =>
    intro p hp
    obtain ⟨f, hf, hi, hm⟩ := h.member p hp
    obtain ⟨g, hg, hgi, hgm, -⟩ := hfwd f hf
    exact ⟨g, hg, hgi.trans hi, hgm.trans hm⟩
  case covered =>
    intro g hg
    obtain ⟨f, hf, hi, hv, -⟩ := hback g hg
    rw [← hi, ← hv]
    exact h.covered f hf
  case onDisk =>
    intro t new ht
    obtain ⟨f, hf, hi, hm⟩ := h.onDisk t new ht
    obtain ⟨g, hg, hgi, hgm, -⟩ := hfwd f hf
    exact ⟨g, hg, hgi.trans hi, hgm.trans hm⟩
  case latest =>
    intro t new ht g hg
    obtain ⟨f, hf, hi, hv, -⟩ := hback g hg
    rw [← hi, ← hv]
    exact h.latest t new ht f hf
  case newer => exact h.newer
  case hull => exact h.hull
  case loaded =>
    intro t olds files n ht
    obtain ⟨hinfo, hfiles⟩ := h.loaded t olds files n ht
    refine ⟨hinfo, fun f hf => ?_⟩
    obtain ⟨g, hg, hgi, hgm, hgo, hgb⟩ := hfiles f hf
    obtain ⟨g', hg', hi', hm', ho', hb'⟩ := hfwd g hg
    exact ⟨g', hg', hi'.trans hgi, hm'.trans hgm, ho'.trans hgo, fun k hk => hb' k (hgb k hk)⟩

theorem settled_of_claimed {olds : List SegmentRef} (hc : Claims pool nextUid comp)
    (ht : comp t = .claimed olds) {o : SegmentRef} (ho : o ∈ olds) (hp : p.uid = o.uid) :
    Settled comp p := by
  intro t' new ht' hu
  have hin : p.uid ∈ uids ((comp t).olds ++ (comp t).gone) := by
    rw [ht, hp]
    exact mem_uids.mpr ⟨o, List.mem_append_left _ ho, rfl⟩
  obtain rfl := hc.disjoint t t' p.uid hin (by
    rw [uids, List.map_append]
    exact List.mem_append_left _ hu)
  rw [ht] at ht'
  cases ht'

theorem load {olds : List SegmentRef} {files : List SegmentFile} (h : Files disk pool comp)
    (hc : Claims pool nextUid comp) (ht : comp t = .claimed olds)
    (hf : (olds.mapM fun o => disk.loadLatest o.info.startSid o.info.endSid) = some files) :
    Files disk pool (Function.update comp t (.loaded olds files 0)) := by
  have hread : ∀ o ∈ olds, ∀ f, disk.loadLatest o.info.startSid o.info.endSid = some f →
      f ∈ disk ∧ f.info = o.info := by
    intro o ho f hof
    obtain ⟨p, hp, rfl⟩ := hc.exists_member (t := t) (by rwa [ht])
    obtain ⟨g, hg, hi, -, hl⟩ := h.loadLatest hc hp (settled_of_claimed hc ht ho rfl)
    obtain rfl := Option.some.inj (hl.symm.trans hof)
    exact ⟨hg, hi⟩
  refine h.same (by simp [CompactionPc.new?]) (by simp [CompactionPc.onDisk?, ht]) ?_
  rintro _ _ _ ⟨⟩
  refine ⟨map_of_mapM hf fun o ho f hof => (hread o ho f hof).2, fun f hf' => ?_⟩
  obtain ⟨o, ho, hof⟩ := mem_of_mapM hf hf'
  exact ⟨f, (hread o ho f hof).1, rfl, rfl, rfl, fun _ => id⟩

theorem publish {olds : List SegmentRef} (h : Files disk pool comp)
    (hc : Claims pool nextUid comp) (ht : comp t = .reloaded olds new) (new' : SegmentFile)
    (hnew : new' = { new with version := disk.latestVersion new.startSid new.endSid + 1 }) :
    Files (new' :: disk) pool (Function.update comp t (.published olds new')) := by
  have hsh := h.hull t new (by rw [ht]; rfl)
  have hr : new'.info.range = new.info.range := by rw [hnew]; rfl
  have hm : new'.mapping = new.mapping := by rw [hnew]
  have hs : new'.Sound := by
    rw [hnew]
    exact ⟨hsh.1.range, hsh.1.tiles, hsh.1.rows⟩
  have hh : Hull olds new' := by
    have := hsh.2
    rw [ht] at this
    rw [hnew]
    exact ⟨this.range, this.first, this.last⟩
  have hht : Hull (comp t).olds new' := by rwa [ht]
  have hver : ∀ f ∈ disk, f.info.range = new'.info.range → f.version < new'.version := by
    intro f hf hfr
    rw [hr] at hfr
    obtain ⟨h₁, h₂⟩ := Prod.mk.injEq .. ▸ hfr
    have := Disk.le_latestVersion hf
    have h₁ : f.startSid = new.startSid := h₁
    have h₂ : f.endSid = new.endSid := h₂
    rw [h₁, h₂] at this
    rw [hnew]
    exact Nat.lt_succ_of_le this
  -- Another compaction that is ahead of the pool lies beside this one.
  have hother : ∀ t' new'', (comp t').onDisk? = some new'' →
      new'.endSid < new''.startSid ∨ new''.endSid < new'.startSid := by
    intro t' new'' ht'
    refine hc.hull_apart hht (h.hull_of_onDisk ht') ?_
    rintro rfl
    rw [ht] at ht'
    cases ht'
  have hside : ∀ f ∈ disk, f.info.Within new'.info ∨
      f.endSid < new'.startSid ∨ new'.endSid < f.startSid := by
    intro f hf
    rcases h.covered f hf with ⟨p, hp, hw, -⟩ | ⟨t', new'', ht', hi⟩
    · rcases hc.hull_cases rfl hht hp with ⟨-, hwp⟩ | ⟨-, hout⟩
      · exact Or.inl ⟨hwp.1.trans hw.1, hw.2.trans hwp.2⟩
      · have h₁ : p.info.startSid ≤ f.startSid := hw.1
        have h₂ : f.endSid ≤ p.info.endSid := hw.2
        exact Or.inr (by lia)
    · have hi₁ : f.startSid = new''.startSid := congrArg SegmentFileInfo.startSid hi
      have hi₂ : f.endSid = new''.endSid := congrArg SegmentFileInfo.endSid hi
      rw [hi₁, hi₂]
      exact Or.inr ((hother t' new'' ht').symm)
  have hne : ∀ t' new'', (comp t').onDisk? = some new'' → new''.info.range ≠ new'.info.range := by
    intro t' new'' ht' he
    obtain ⟨h₁, h₂⟩ := Prod.mk.injEq .. ▸ he
    have h₁ : new''.startSid = new'.startSid := h₁
    have h₂ : new''.endSid = new'.endSid := h₂
    have := hs.range
    have := hother t' new'' ht'
    lia
  have hup : ∀ t' new'', (Function.update comp t (.published olds new') t').onDisk? = some new'' →
      new'' = new' ∨ (comp t').onDisk? = some new'' := by
    intro t' new''
    rw [Function.update_apply]
    split
    · intro he
      exact Or.inl (Option.some.inj he).symm
    · exact Or.inr
  constructor
  case nodup =>
    rw [List.map_cons, List.nodup_cons]
    refine ⟨fun hin => ?_, h.nodup⟩
    obtain ⟨f, hf, hfi⟩ := List.mem_map.mp hin
    have hlt := hver f hf (by rw [hfi])
    have hv : f.version = new'.version := congrArg SegmentFileInfo.version hfi
    exact absurd hv hlt.ne
  case sound => exact List.forall_mem_cons.mpr ⟨hs, h.sound⟩
  case laminar =>
    have hlam : ∀ f ∈ disk, Laminar new'.info f.info ∧ Laminar f.info new'.info := by
      intro f hf
      have := hside f hf
      unfold Laminar
      constructor
      · rcases this with hw | hl | hl
        · exact Or.inr (Or.inr (Or.inr hw))
        · exact Or.inr (Or.inl hl)
        · exact Or.inl hl
      · rcases this with hw | hl | hl
        · exact Or.inr (Or.inr (Or.inl hw))
        · exact Or.inl hl
        · exact Or.inr (Or.inl hl)
    intro f hf g hg
    rcases List.mem_cons.mp hf with rfl | hf' <;> rcases List.mem_cons.mp hg with rfl | hg'
    · exact Or.inr (Or.inr (Or.inl ⟨le_rfl, le_rfl⟩))
    · exact (hlam g hg').1
    · exact (hlam f hf').2
    · exact h.laminar f hf' g hg'
  case member =>
    intro p hp
    obtain ⟨f, hf, hfp⟩ := h.member p hp
    exact ⟨f, List.mem_cons_of_mem _ hf, hfp⟩
  case covered =>
    intro f hf
    rcases List.mem_cons.mp hf with rfl | hf
    · exact Or.inr ⟨t, f, by rw [Function.update_self]; rfl, rfl⟩
    · rcases h.covered f hf with hp | ⟨t', new'', ht', hi⟩
      · exact Or.inl hp
      · refine Or.inr ⟨t', new'', ?_, hi⟩
        rw [Function.update_of_ne]
        · exact ht'
        · rintro rfl
          rw [ht] at ht'
          cases ht'
  case onDisk =>
    intro t' new'' ht'
    rcases hup t' new'' ht' with rfl | ht'
    · exact ⟨new'', List.mem_cons_self, rfl, rfl⟩
    · obtain ⟨f, hf, hfi⟩ := h.onDisk t' new'' ht'
      exact ⟨f, List.mem_cons_of_mem _ hf, hfi⟩
  case latest =>
    intro t' new'' ht' f hf hfr
    rcases List.mem_cons.mp hf with rfl | hf'
    · rcases hup t' new'' ht' with rfl | ht'
      · exact le_rfl
      · exact absurd hfr.symm (hne t' new'' ht')
    · rcases hup t' new'' ht' with rfl | ht'
      · exact (hver f hf' hfr).le
      · exact h.latest t' new'' ht' f hf' hfr
  case newer =>
    intro t' new'' ht' p hp hpr
    rcases hup t' new'' ht' with rfl | ht'
    · obtain ⟨f, hf, hfi, -⟩ := h.member p hp
      have hlt := hver f hf (by rw [hfi, hpr])
      have hv : f.version = p.info.version := congrArg SegmentFileInfo.version hfi
      rwa [hv] at hlt
    · exact h.newer t' new'' ht' p hp hpr
  case hull =>
    intro t' new''
    rw [Function.update_apply]
    split
    · intro he
      obtain rfl : new' = new'' := Option.some.inj he
      exact ⟨hs, hh⟩
    · exact h.hull t' new''
  case loaded =>
    intro t' olds' files n
    rw [Function.update_apply]
    split
    · rintro ⟨⟩
    · intro ht'
      obtain ⟨hi, hl⟩ := h.loaded t' olds' files n ht'
      refine ⟨hi, fun f hf => ?_⟩
      obtain ⟨g, hg, hgf⟩ := hl f hf
      exact ⟨g, List.mem_cons_of_mem _ hg, hgf⟩

theorem install {olds : List SegmentRef} (h : Files disk pool comp)
    (hc : Claims pool nextUid comp) (ht : comp t = .published olds new) :
    Files disk (replace (uids olds) ⟨nextUid, new, false⟩ pool)
      (Function.update comp t (.installed olds)) := by
  have hd : (comp t).onDisk? = some new := by rw [ht]; rfl
  have hh : Hull olds new := by
    have := h.hull_of_onDisk hd
    rwa [ht] at this
  obtain ⟨a, ps, c, rfl, hps, he, hrep, hout⟩ :=
    hc.exists_run (by rw [ht]; rfl) hh.ne_nil ⟨nextUid, new, false⟩
  rw [hrep]
  have hmem : ∀ p, p ∈ a ++ (⟨nextUid, new, false⟩ : PoolSegment) :: c →
      p = ⟨nextUid, new, false⟩ ∨ p ∈ a ++ ps ++ c := by
    intro p
    simp only [List.mem_append, List.mem_cons]
    tauto
  have hself : (⟨nextUid, new, false⟩ : PoolSegment) ∈ a ++ ⟨nextUid, new, false⟩ :: c := by simp
  have hup : ∀ t' new', (Function.update comp t (.installed olds) t').onDisk? = some new' →
      t' ≠ t ∧ (comp t').onDisk? = some new' := by
    intro t' new'
    rw [Function.update_apply]
    split
    · intro he
      cases he
    next hne => exact fun ht' => ⟨hne, ht'⟩
  constructor
  case nodup => exact h.nodup
  case sound => exact h.sound
  case laminar => exact h.laminar
  case member =>
    intro p hp
    rcases hmem p hp with rfl | hp
    · exact h.onDisk t new hd
    · exact h.member p hp
  case covered =>
    intro f hf
    rcases h.covered f hf with ⟨p, hp, hw, hv⟩ | ⟨t', new', ht', hi⟩
    · refine Or.inl ?_
      rcases hc.hull_cases rfl (h.hull_of_onDisk hd) hp with ⟨-, hwp⟩ | ⟨hno, -⟩
      · exact ⟨_, hself, ⟨hwp.1.trans hw.1, hw.2.trans hwp.2⟩, h.latest t new hd f hf⟩
      · refine ⟨p, ?_, hw, hv⟩
        have hnp : p ∉ ps := by
          intro hp'
          refine hno ?_
          rw [ht]
          exact mem_uids.mpr ⟨p.ref, he ▸ List.mem_map_of_mem hp', rfl⟩
        simp only [List.mem_append, List.mem_cons] at hp ⊢
        tauto
    · rcases eq_or_ne t' t with rfl | hne
      · obtain rfl := Option.some.inj (hd.symm.trans ht')
        refine Or.inl ⟨_, hself, ?_, fun _ => ?_⟩
        · rw [hi]
          exact ⟨le_rfl, le_rfl⟩
        · exact (congrArg SegmentFileInfo.version hi).le
      · exact Or.inr ⟨t', new', by rwa [Function.update_of_ne hne], hi⟩
  case onDisk => exact fun t' new' ht' => h.onDisk t' new' (hup t' new' ht').2
  case latest => exact fun t' new' ht' => h.latest t' new' (hup t' new' ht').2
  case newer =>
    intro t' new' ht' p hp hpr
    obtain ⟨hne, ht'⟩ := hup t' new' ht'
    rcases hmem p hp with rfl | hp
    · obtain ⟨h₁, h₂⟩ := Prod.mk.injEq .. ▸ hpr
      have h₁ : new.startSid = new'.startSid := h₁
      have h₂ : new.endSid = new'.endSid := h₂
      have := hh.range
      have := hc.hull_apart (h.hull_of_onDisk hd) (h.hull_of_onDisk ht') hne.symm
      lia
    · exact h.newer t' new' ht' p hp hpr
  case hull =>
    intro t' new'
    rw [Function.update_apply]
    split
    · intro he
      cases he
    · exact h.hull t' new'
  case loaded =>
    intro t' olds' files n
    rw [Function.update_apply]
    split
    · rintro ⟨⟩
    · exact h.loaded t' olds' files n

end Steps

section Scan

variable {i j : SegmentFileInfo}

theorem scannable (h : Files disk pool comp)
    (hfit : (disk.map (·.info.range)).dedup.length ≤ scanTableSize) :
    Scannable (disk.map (·.info)) where
  nonempty := by
    intro e he
    obtain ⟨f, hf, rfl⟩ := List.mem_map.mp he
    exact (h.sound f hf).range
  laminar := by
    intro e he e' he'
    obtain ⟨f, hf, rfl⟩ := List.mem_map.mp he
    obtain ⟨f', hf', rfl⟩ := List.mem_map.mp he'
    exact h.laminar f hf f' hf'
  fits := by
    rw [List.map_map]
    exact hfit

theorem range_eq_of_within (hij : i.Within j) (hji : j.Within i) : i.range = j.range :=
  Prod.ext (le_antisymm hji.1 hij.1) (le_antisymm hij.2 hji.2)

theorem mem_scan (hs : Scannable (disk.map (·.info))) : i ∈ disk.scan ↔
    (∃ f ∈ disk, f.info.range = i.range) ∧ i.version = disk.latestVersion i.startSid i.endSid ∧
      ∀ f ∈ disk, i.Within f.info → f.info.range = i.range := by
  rw [Disk.scan, hs.mem_scan, Disk.latestVersion_eq]
  simp only [List.map_map, List.mem_map, Function.comp_apply, forall_exists_index, and_imp,
    forall_apply_eq_imp_iff₂]
  rfl

theorem latestVersion_of_settled (h : Files disk pool comp) (hc : Claims pool nextUid comp)
    (hp : p ∈ pool) (hst : Settled comp p) :
    disk.latestVersion p.info.startSid p.info.endSid = p.info.version := by
  obtain ⟨g, hg, hgi, -⟩ := h.member p hp
  have hgv : g.version = p.info.version := congrArg SegmentFileInfo.version hgi
  rw [← hgv]
  refine Disk.latestVersion_eq_of hg (by rw [hgi]; rfl) fun f hf hr => ?_
  rw [hgv]
  exact h.version_le hc hp hst hf hr

theorem latestVersion_of_onDisk (h : Files disk pool comp) (ht : (comp t).onDisk? = some new) :
    disk.latestVersion new.startSid new.endSid = new.version := by
  obtain ⟨g, hg, hgi, -⟩ := h.onDisk t new ht
  have hgv : g.version = new.version := congrArg SegmentFileInfo.version hgi
  rw [← hgv]
  refine Disk.latestVersion_eq_of hg (by rw [hgi]; rfl) fun f hf hr => ?_
  rw [hgv]
  exact h.latest t new ht f hf hr

/-- What the scan returns belongs to a member or to a compaction that is ahead of the pool. -/
theorem mem_scan_cases (h : Files disk pool comp) (hc : Claims pool nextUid comp)
    (hs : Scannable (disk.map (·.info))) (hi : i ∈ disk.scan) :
    (∃ p ∈ pool, Settled comp p ∧ i = p.info) ∨
      ∃ t new, (comp t).onDisk? = some new ∧ i = new.info := by
  obtain ⟨⟨f, hf, hfi⟩, hv, hmax⟩ := (mem_scan hs).mp hi
  obtain ⟨hlo, hhi⟩ := Prod.mk.injEq .. ▸ hfi
  have hnew : ∀ t new, (comp t).onDisk? = some new → new.info.range = i.range → i = new.info := by
    intro t new ht hr
    refine ext_range hr.symm ?_
    obtain ⟨h₁, h₂⟩ := Prod.mk.injEq .. ▸ hr
    rw [hv, ← h₁, ← h₂]
    exact h.latestVersion_of_onDisk ht
  rcases h.covered f hf with ⟨p, hp, hw, -⟩ | ⟨t, new, ht, hfn⟩
  · have hwi : i.Within p.info := ⟨hlo ▸ hw.1, hhi ▸ hw.2⟩
    obtain ⟨g, hg, hgi, -⟩ := h.member p hp
    have hpr : p.info.range = i.range := by
      rw [← hgi]
      exact hmax g hg (by rwa [hgi])
    by_cases hst : Settled comp p
    · refine Or.inl ⟨p, hp, hst, ext_range hpr.symm ?_⟩
      obtain ⟨h₁, h₂⟩ := Prod.mk.injEq .. ▸ hpr
      rw [hv, ← h₁, ← h₂]
      exact h.latestVersion_of_settled hc hp hst
    · obtain ⟨t, new, ht, hu⟩ :
          ∃ t new, (comp t).onDisk? = some new ∧ p.uid ∈ uids (comp t).olds := by
        simpa [Settled] using hst
      refine Or.inr ⟨t, new, ht, hnew t new ht ?_⟩
      obtain ⟨N, hN, hNi, -⟩ := h.onDisk t new ht
      rcases hc.hull_cases rfl (h.hull_of_onDisk ht) hp with ⟨-, hwn⟩ | ⟨hno, -⟩
      · rw [← hNi]
        refine hmax N hN ?_
        rw [hNi]
        exact ⟨hwn.1.trans hwi.1, hwi.2.trans hwn.2⟩
      · exact absurd hu hno
  · exact Or.inr ⟨t, new, ht, hnew t new ht (by rw [← hfn, hfi])⟩

theorem onDisk_mem_scan (h : Files disk pool comp) (hc : Claims pool nextUid comp)
    (hs : Scannable (disk.map (·.info))) (ht : (comp t).onDisk? = some new) :
    new.info ∈ disk.scan := by
  obtain ⟨N, hN, hNi, -⟩ := h.onDisk t new ht
  refine (mem_scan hs).mpr ⟨⟨N, hN, by rw [hNi]⟩, (h.latestVersion_of_onDisk ht).symm, ?_⟩
  intro f hf hw
  have hh := h.hull_of_onDisk ht
  rcases h.covered f hf with ⟨q, hq, hwq, -⟩ | ⟨t', new', ht', hi⟩
  · -- The file is inside one of the slots the compaction replaces.
    have hwn : q.info.Within new.info := by
      rcases hc.hull_cases rfl hh hq with ⟨-, hwn⟩ | ⟨-, hout⟩
      · exact hwn
      · have h₁ : f.startSid ≤ new.startSid := hw.1
        have h₂ : new.endSid ≤ f.endSid := hw.2
        have h₃ : q.info.startSid ≤ f.startSid := hwq.1
        have h₄ : f.endSid ≤ q.info.endSid := hwq.2
        have := hh.range
        lia
    exact range_eq_of_within ⟨hwn.1.trans hwq.1, hwq.2.trans hwn.2⟩ hw
  · rcases eq_or_ne t t' with rfl | hne
    · obtain rfl := Option.some.inj (ht.symm.trans ht')
      rw [hi]
    · have h₁ : f.startSid = new'.startSid := congrArg SegmentFileInfo.startSid hi
      have h₂ : f.endSid = new'.endSid := congrArg SegmentFileInfo.endSid hi
      have h₃ : f.startSid ≤ new.startSid := hw.1
      have h₄ : new.endSid ≤ f.endSid := hw.2
      have := hh.range
      have := hc.hull_apart hh (h.hull_of_onDisk ht') hne
      lia

theorem member_mem_scan (h : Files disk pool comp) (hc : Claims pool nextUid comp)
    (hs : Scannable (disk.map (·.info))) (hp : p ∈ pool) (hst : Settled comp p) :
    p.info ∈ disk.scan := by
  obtain ⟨g, hg, hgi, -⟩ := h.member p hp
  refine (mem_scan hs).mpr ⟨⟨g, hg, by rw [hgi]⟩, (h.latestVersion_of_settled hc hp hst).symm, ?_⟩
  intro f hf hw
  have hr := hc.range p hp
  rcases h.covered f hf with ⟨q, hq, hwq, -⟩ | ⟨t, new, ht, hi⟩
  · obtain rfl : p = q := by
      have h₁ := hw.1.trans' hwq.1
      have h₂ := hw.2.trans hwq.2
      exact hc.eq_of_overlap hp hq (by lia) (by lia)
    exact range_eq_of_within hwq hw
  · rcases hc.hull_cases rfl (h.hull_of_onDisk ht) hp with ⟨hu, -⟩ | ⟨-, hout⟩
    · exact absurd hu (hst t new ht)
    · rw [hi] at hw
      have h₁ : new.startSid ≤ p.info.startSid := hw.1
      have h₂ : p.info.endSid ≤ new.endSid := hw.2
      lia

/-- The retry finds an entry, and it holds the whole range of the file retried. -/
theorem covering_eq_some (h : Files disk pool comp) (hc : Claims pool nextUid comp)
    (hs : Scannable (disk.map (·.info))) (hf : f ∈ disk) :
    ∃ j ∈ disk.scan, f.info.Within j ∧ covering disk.scan f.startSid = some j := by
  have hex : ∃ j ∈ disk.scan, f.info.Within j := by
    rcases h.covered f hf with ⟨p, hp, hw, -⟩ | ⟨t, new, ht, hi⟩
    · by_cases hst : Settled comp p
      · exact ⟨_, h.member_mem_scan hc hs hp hst, hw⟩
      · obtain ⟨t, new, ht, hu⟩ :
            ∃ t new, (comp t).onDisk? = some new ∧ p.uid ∈ uids (comp t).olds := by
          simpa [Settled] using hst
        refine ⟨_, h.onDisk_mem_scan hc hs ht, ?_⟩
        rcases hc.hull_cases rfl (h.hull_of_onDisk ht) hp with ⟨-, hwn⟩ | ⟨hno, -⟩
        · exact ⟨hwn.1.trans hw.1, hw.2.trans hwn.2⟩
        · exact absurd hu hno
    · exact ⟨_, h.onDisk_mem_scan hc hs ht, by rw [hi]; exact ⟨le_rfl, le_rfl⟩⟩
  obtain ⟨j, hj, hw⟩ := hex
  refine ⟨j, hj, hw, ?_⟩
  have hlo : j.startSid ≤ f.startSid := hw.1
  have hhi : f.endSid ≤ j.endSid := hw.2
  have hr := (h.sound f hf).range
  have hin : (covering disk.scan f.startSid).isSome := by
    rw [covering, List.find?_isSome]
    exact ⟨j, hj, by simpa using ⟨hlo, by lia⟩⟩
  obtain ⟨k, hk⟩ := Option.isSome_iff_exists.mp hin
  have hkm : k ∈ disk.scan := List.mem_of_find?_eq_some hk
  have hks : k.startSid ≤ f.startSid ∧ f.startSid ≤ k.endSid := by simpa using List.find?_some hk
  obtain ⟨a, ha, rfl⟩ := List.mem_iff_getElem.mp hj
  obtain ⟨b, hb, rfl⟩ := List.mem_iff_getElem.mp hkm
  have hpw := List.pairwise_iff_getElem.mp hs.scan_pairwise
  rcases lt_trichotomy a b with hlt | rfl | hlt
  · have : disk.scan[a].endSid < disk.scan[b].startSid := hpw a b ha hb hlt
    lia
  · exact hk
  · have : disk.scan[b].endSid < disk.scan[a].startSid := hpw b a hb ha hlt
    lia

end Scan

end Files

end OnDisk

end VectorLsm
