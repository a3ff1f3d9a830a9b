import VectorLsm.Standby.Replay

/-! # What a primary logs

The segments of a primary follow each other without a gap, and its memtables follow them. So a
log names no segment id but that of the build and those it has registered before, and the ranges
it announces are nested or disjoint.
-/

namespace VectorLsm.Replay

open SegmentFileInfo

/-- Ranges that follow each other from `lo` up to, but not including, `hi`. -/
def Contiguous : ℕ → List SegmentFileInfo → ℕ → Prop
  | lo, [], hi => lo = hi
  | lo, i :: is, hi => i.startSid = lo ∧ i.startSid ≤ i.endSid ∧ Contiguous (i.endSid + 1) is hi

namespace Contiguous

variable {lo mid hi : ℕ} {is is' : List SegmentFileInfo} {i : SegmentFileInfo}

theorem le (h : Contiguous lo is hi) : lo ≤ hi := by
  induction is generalizing lo with
  | nil => exact le_of_eq h
  | cons i is ih =>
      obtain ⟨rfl, hle, ht⟩ := h
      exact (Nat.le_succ_of_le hle).trans (ih ht)

theorem append_iff : Contiguous lo (is ++ is') hi ↔
    ∃ mid, Contiguous lo is mid ∧ Contiguous mid is' hi := by
  induction is generalizing lo with
  | nil =>
      constructor
      · exact fun h => ⟨lo, rfl, h⟩
      · rintro ⟨mid, rfl, h⟩
        exact h
  | cons i is ih =>
      constructor
      · rintro ⟨hs, hle, ht⟩
        obtain ⟨mid, h, h'⟩ := ih.mp ht
        exact ⟨mid, ⟨hs, hle, h⟩, h'⟩
      · rintro ⟨mid, ⟨hs, hle, h⟩, h'⟩
        exact ⟨hs, hle, ih.mpr ⟨mid, h, h'⟩⟩

theorem mem (h : Contiguous lo is hi) (hi' : i ∈ is) :
    lo ≤ i.startSid ∧ i.startSid ≤ i.endSid ∧ i.endSid < hi := by
  induction is generalizing lo with
  | nil => cases hi'
  | cons a is ih =>
      obtain ⟨rfl, hle, ht⟩ := h
      rcases List.mem_cons.mp hi' with rfl | hm
      · exact ⟨le_rfl, hle, ht.le⟩
      · obtain ⟨h₁, h₂, h₃⟩ := ih ht hm
        exact ⟨hle.trans ((Nat.le_succ _).trans h₁), h₂, h₃⟩

end Contiguous

section Logs

variable {wal wal' : List Record} {r : Record} {sid : SegmentId} {i : SegmentFileInfo}

theorem registered_append : registered (wal ++ wal') = registered wal ++ registered wal' :=
  List.filterMap_append

theorem announced_append : announced (wal ++ wal') = announced wal ++ announced wal' :=
  List.filterMap_append

theorem mem_registered_append (h : sid ∈ registered wal) : sid ∈ registered (wal ++ wal') := by
  rw [registered_append]
  exact List.mem_append_left _ h

theorem mem_registered_of_take {n : ℕ} (h : sid ∈ registered (wal.take n)) :
    sid ∈ registered wal := by
  rw [← List.take_append_drop n wal]
  exact mem_registered_append h

theorem mem_announced_of_take {n : ℕ} (h : i ∈ announced (wal.take n)) : i ∈ announced wal := by
  rw [← List.take_append_drop n wal, announced_append]
  exact List.mem_append_left _ h

/-- A log names ids that it has registered, apart from that of the first segment. -/
structure Named (wal : List Record) : Prop where
  ranges : ∀ i ∈ announced wal, i.startSid ≤ i.endSid ∧
    ∀ sid, i.startSid ≤ sid → sid ≤ i.endSid → sid = startSegmentId ∨ sid ∈ registered wal
  tombstones : ∀ sid, .vacuumTombstones sid ∈ wal → sid = startSegmentId ∨ sid ∈ registered wal
  created : ∀ wal', wal = wal' ++ [.indexCreate] → registered wal' = []

/-- What a record has to meet so that the log names known ids only. -/
def Names (wal : List Record) : Record → Prop
  | .indexCreate => registered wal = []
  | .segment i => i.startSid ≤ i.endSid ∧
      ∀ sid, i.startSid ≤ sid → sid ≤ i.endSid → sid = startSegmentId ∨ sid ∈ registered wal
  | .vacuumTombstones sid => sid = startSegmentId ∨ sid ∈ registered wal
  | _ => True

theorem Named.nil : Named [] where
  ranges := by rintro i ⟨⟩
  tombstones := by rintro sid ⟨⟩
  created := by
    intro wal' h
    simp at h

theorem Named.concat (h : Named wal) (hr : Names wal r) : Named (wal ++ [r]) where
  ranges := by
    intro i hi
    rw [announced_append, List.mem_append] at hi
    rcases hi with hi | hi
    · obtain ⟨hle, hsid⟩ := h.ranges i hi
      exact ⟨hle, fun sid h₁ h₂ => (hsid sid h₁ h₂).imp_right mem_registered_append⟩
    · cases r with
      | segment j =>
          obtain rfl := List.mem_singleton.mp hi
          exact ⟨hr.1, fun sid h₁ h₂ => (hr.2 sid h₁ h₂).imp_right mem_registered_append⟩
      | _ => cases hi
  tombstones := by
    intro sid hs
    rcases List.mem_append.mp hs with hs | hs
    · exact (h.tombstones sid hs).imp_right mem_registered_append
    · obtain rfl := List.mem_singleton.mp hs
      exact Or.imp_right mem_registered_append hr
  created := by
    intro wal' hw
    obtain ⟨rfl, hr'⟩ := List.append_inj' hw rfl
    obtain rfl := (List.cons.inj hr').1
    exact hr

end Logs

/-- The primary's side. -/
structure PrimaryInv (wal : List Record) (next : SegmentId) (live : List SegmentId)
    (pool : List SegmentFileInfo) : Prop where
  log : Log.Cuts Named 0 wal
  laminar : ∀ i ∈ announced wal, ∀ j ∈ announced wal, Laminar i j
  within : ∀ i ∈ announced wal, ∃ p ∈ pool, i.Within p
  known : ∀ sid, sid ∈ registered wal ↔ startSegmentId < sid ∧ sid < next
  tiled : ∃ m, Contiguous startSegmentId pool m ∧ live = List.range' m (next - m)
  unbuilt : wal = [] → pool = [] ∧ live = []
  built : wal ≠ [] → live ≠ []
  unflushed : ∀ sid ∈ live, sid ∈ registered wal

section Primary

variable {wal : List Record} {next m : SegmentId} {live : List SegmentId}
  {pool : List SegmentFileInfo} {i : SegmentFileInfo} {sid : SegmentId}

theorem PrimaryInv.named (h : PrimaryInv wal next live pool) : Named wal :=
  h.log.self (Nat.zero_le _)

/-- The memtables come after the segments. -/
theorem PrimaryInv.lt_next (h : PrimaryInv wal next live pool) (hw : wal ≠ [])
    (hl : live = List.range' m (next - m)) : m < next := by
  by_contra hle
  have hz : next - m = 0 := Nat.sub_eq_zero_of_le (not_lt.mp hle)
  rw [hz] at hl
  exact h.built hw hl

/-- The ids up to the memtables. -/
theorem PrimaryInv.known_of_lt (h : PrimaryInv wal next live pool) (hw : wal ≠ [])
    (hl : live = List.range' m (next - m)) (hlo : startSegmentId ≤ sid) (hhi : sid < m) :
    sid = startSegmentId ∨ sid ∈ registered wal := by
  have hm := h.lt_next hw hl
  rcases eq_or_lt_of_le hlo with heq | hlt
  · exact Or.inl heq.symm
  · exact Or.inr ((h.known sid).mpr ⟨hlt, by lia⟩)

theorem PrimaryInv.empty : PrimaryInv [] 0 [] [] where
  log := .nil .nil
  laminar := by rintro i ⟨⟩
  within := by rintro i ⟨⟩
  known := by
    intro sid
    simp [registered]
  tiled := ⟨startSegmentId, rfl, rfl⟩
  unbuilt := fun _ => ⟨rfl, rfl⟩
  built := fun h => absurd rfl h
  unflushed := by rintro sid ⟨⟩

/-- A record that announces nothing and registers nothing. -/
theorem PrimaryInv.logOther (h : PrimaryInv wal next live pool) {r : Record} (hr : Names wal r)
    (ha : announced [r] = []) (hn : registered [r] = []) (hw : wal ≠ []) :
    PrimaryInv (wal ++ [r]) next live pool := by
  have hann : announced (wal ++ [r]) = announced wal := by
    rw [announced_append, ha, List.append_nil]
  have hreg : registered (wal ++ [r]) = registered wal := by
    rw [registered_append, hn, List.append_nil]
  exact {
    log := h.log.concat (h.named.concat hr)
    laminar := by
      rw [hann]
      exact h.laminar
    within := by
      rw [hann]
      exact h.within
    known := by
      rw [hreg]
      exact h.known
    tiled := h.tiled
    unbuilt := fun he => by simp at he
    built := fun _ => h.built hw
    unflushed := by
      rw [hreg]
      exact h.unflushed }

/-- The next memtable. -/
theorem PrimaryInv.register (h : PrimaryInv wal next live pool) (hw : wal ≠ []) :
    PrimaryInv (wal ++ [.registerMemtable next]) (next + 1) (live ++ [next]) pool := by
  have hann : announced (wal ++ [.registerMemtable next]) = announced wal := by
    rw [announced_append]
    exact List.append_nil _
  have hreg : registered (wal ++ [.registerMemtable next]) = registered wal ++ [next] :=
    registered_append
  have hstart : startSegmentId < next := by
    obtain ⟨sid, hs⟩ := List.exists_mem_of_ne_nil live (h.built hw)
    obtain ⟨hlo, hhi⟩ := (h.known sid).mp (h.unflushed sid hs)
    exact hlo.trans hhi
  exact {
    log := h.log.concat (h.named.concat trivial)
    laminar := by
      rw [hann]
      exact h.laminar
    within := by
      rw [hann]
      exact h.within
    known := by
      intro sid
      rw [hreg, List.mem_append, h.known, List.mem_singleton]
      lia
    tiled := by
      obtain ⟨m, ht, hl⟩ := h.tiled
      have hm := h.lt_next hw hl
      refine ⟨m, ht, ?_⟩
      have hlen : next + 1 - m = next - m + 1 := by lia
      have hend : m + (next - m) = next := by lia
      rw [hlen, List.range'_1_concat, ← hl, hend]
    unbuilt := fun he => by simp at he
    built := fun _ => by simp
    unflushed := by
      intro sid hs
      rw [hreg, List.mem_append]
      exact (List.mem_append.mp hs).imp_left (h.unflushed sid) }

/-- A segment takes the place of some that follow each other, or comes after all. -/
theorem PrimaryInv.replace (h : PrimaryInv wal next live pool) {live' : List SegmentId}
    {pre mid post : List SegmentFileInfo} {m₁ m₂ : SegmentId}
    (hp : ∀ p ∈ pool, p ∈ pre ++ post ∨ p ∈ mid) (hpre : Contiguous startSegmentId pre m₁)
    (hmid : ∀ p ∈ mid, m₁ ≤ p.startSid ∧ p.endSid < m₂) (hpost : Contiguous m₂ post m)
    (hi : i.startSid = m₁ ∧ i.startSid ≤ i.endSid ∧ i.endSid + 1 = m₂)
    (hsid : ∀ sid, i.startSid ≤ sid → sid ≤ i.endSid →
      sid = startSegmentId ∨ sid ∈ registered wal)
    (hlive : live' = List.range' m (next - m)) (hne : live' ≠ [])
    (hsub : ∀ sid ∈ live', sid ∈ live) :
    PrimaryInv (wal ++ [.segment i]) next live' (pre ++ i :: post) := by
  obtain ⟨h₁, hle, h₂⟩ := hi
  have hann : announced (wal ++ [.segment i]) = announced wal ++ [i] := announced_append
  have hreg : registered (wal ++ [.segment i]) = registered wal := by
    rw [registered_append]
    exact List.append_nil _
  -- An old range is within the new one, or lies to one side of it.
  have hside : ∀ e ∈ announced wal, e.Within i ∨
      ∃ p ∈ pre ++ post, e.Within p ∧ (p.endSid < i.startSid ∨ i.endSid < p.startSid) := by
    intro e he
    obtain ⟨p, hpm, hwp⟩ := h.within e he
    rcases hp p hpm with hpm | hpm
    · refine Or.inr ⟨p, hpm, hwp, ?_⟩
      rcases List.mem_append.mp hpm with hpm | hpm
      · have := (hpre.mem hpm).2.2
        exact Or.inl (by lia)
      · have := (hpost.mem hpm).1
        exact Or.inr (by lia)
    · have := hmid p hpm
      left
      unfold Within at *
      lia
  have hlam : ∀ e ∈ announced wal, Laminar e i ∧ Laminar i e := by
    intro e he
    rcases hside e he with hwe | ⟨p, -, hwe, hp⟩
    · exact ⟨Or.inr (Or.inr (Or.inl hwe)), Or.inr (Or.inr (Or.inr hwe))⟩
    · have := (h.named.ranges e he).1
      unfold Laminar Within at *
      lia
  have hnew : i ∈ pre ++ i :: post := List.mem_append_right _ List.mem_cons_self
  exact {
    log := h.log.concat (h.named.concat (r := .segment i) ⟨hle, hsid⟩)
    laminar := by
      intro a ha b hb
      rw [hann, List.mem_append, List.mem_singleton] at ha hb
      rcases ha with ha | rfl <;> rcases hb with hb | rfl
      · exact h.laminar a ha b hb
      · exact (hlam a ha).1
      · exact (hlam b hb).2
      · exact Or.inr (Or.inr (Or.inl ⟨le_rfl, le_rfl⟩))
    within := by
      intro e he
      rw [hann, List.mem_append, List.mem_singleton] at he
      rcases he with he | rfl
      · rcases hside e he with hwe | ⟨p, hpm, hwe, -⟩
        · exact ⟨i, hnew, hwe⟩
        · refine ⟨p, ?_, hwe⟩
          rcases List.mem_append.mp hpm with hpm | hpm
          · exact List.mem_append_left _ hpm
          · exact List.mem_append_right _ (List.mem_cons_of_mem i hpm)
      · exact ⟨e, hnew, le_rfl, le_rfl⟩
    known := by
      rw [hreg]
      exact h.known
    tiled := ⟨m, Contiguous.append_iff.mpr ⟨m₁, hpre, h₁, hle, h₂ ▸ hpost⟩, hlive⟩
    unbuilt := fun he => by simp at he
    built := fun _ => hne
    unflushed := fun sid hs => by
      rw [hreg]
      exact h.unflushed sid (hsub sid hs) }

/-- The first records, with the first segment and the first memtable. -/
theorem PrimaryInv.start (hi : i.startSid = startSegmentId ∧ i.endSid = startSegmentId) :
    PrimaryInv [.indexCreate, .segment i, .updateMaxSid (startSegmentId + 1),
      .registerMemtable (startSegmentId + 1)] (startSegmentId + 2) [startSegmentId + 1] [i] := by
  obtain ⟨hi₁, hi₂⟩ := hi
  have hle : i.startSid ≤ i.endSid := by rw [hi₁, hi₂]
  have h₁ : Named [Record.indexCreate] := Named.nil.concat (r := .indexCreate) rfl
  have h₂ : Named [.indexCreate, .segment i] := h₁.concat (r := .segment i) ⟨hle, by
    intro sid hlo hhi
    rw [hi₁] at hlo
    rw [hi₂] at hhi
    exact Or.inl (le_antisymm hhi hlo)⟩
  have h₃ := h₂.concat (r := .updateMaxSid (startSegmentId + 1)) trivial
  have h₄ := h₃.concat (r := .registerMemtable (startSegmentId + 1)) trivial
  have hnil : Log.Cuts Named 0 [] := .nil .nil
  exact {
    log := (((hnil.concat h₁).concat h₂).concat h₃).concat h₄
    laminar := by
      intro a ha b hb
      obtain rfl := List.mem_singleton.mp ha
      obtain rfl := List.mem_singleton.mp hb
      exact Or.inr (Or.inr (Or.inl ⟨le_rfl, le_rfl⟩))
    within := by
      intro a ha
      obtain rfl := List.mem_singleton.mp ha
      exact ⟨a, ha, le_rfl, le_rfl⟩
    known := by
      intro sid
      have hreg : registered [.indexCreate, .segment i, .updateMaxSid (startSegmentId + 1),
        .registerMemtable (startSegmentId + 1)] = [startSegmentId + 1] := rfl
      rw [hreg, List.mem_singleton]
      lia
    tiled := ⟨startSegmentId + 1, ⟨hi₁, hle, congrArg (· + 1) hi₂⟩, rfl⟩
    unbuilt := by rintro ⟨⟩
    built := fun _ => List.cons_ne_nil _ _
    unflushed := fun sid hs => hs }

end Primary

/-- The steps of the primary. -/
def Primary (s : State) : Prop := PrimaryInv s.wal s.nextSegmentId s.live s.pool

variable {s s' : State} {sid : SegmentId}

theorem Primary.build (hs : s.build = some s') : Primary s' := by
  unfold State.build at hs
  split at hs
  next hw =>
    obtain rfl := Option.some.inj hs
    unfold Primary State.log
    dsimp only
    rw [hw]
    exact .start ⟨rfl, rfl⟩
  next => cases hs

theorem Primary.rotate (h : Primary s) (hs : s.rotate = some s') : Primary s' := by
  unfold State.rotate at hs
  split at hs
  next hw =>
    obtain rfl := Option.some.inj hs
    have h₁ : PrimaryInv (s.wal ++ [.updateMaxSid s.nextSegmentId]) s.nextSegmentId s.live s.pool :=
      h.logOther trivial rfl rfl hw.1
    have h₂ := h₁.register (by simp)
    rw [List.append_assoc] at h₂
    exact h₂
  next => cases hs

theorem Primary.flush (h : Primary s) (hs : s.flush = some s') : Primary s' := by
  unfold State.flush at hs
  split at hs
  next sid next live hl =>
    obtain rfl := Option.some.inj hs
    have hw : s.wal ≠ [] := by
      intro hw
      rw [(h.unbuilt hw).2] at hl
      cases hl
    obtain ⟨m, ht, hlive⟩ := h.tiled
    have hm := h.lt_next hw hlive
    -- The oldest memtable is the one after the segments.
    have hlen : s.nextSegmentId - m = s.nextSegmentId - (m + 1) + 1 := by lia
    rw [hl, hlen, List.range'_succ] at hlive
    obtain ⟨rfl, hrest⟩ := List.cons.inj hlive
    have hreg : sid ∈ registered s.wal := h.unflushed sid (hl ▸ List.mem_cons_self)
    have hnone : ∀ p ∈ ([] : List SegmentFileInfo), sid ≤ p.startSid ∧ p.endSid < sid + 1 := nofun
    refine PrimaryInv.replace h (fun p hp => ?_) ht hnone rfl ⟨rfl, le_rfl, rfl⟩
      (fun x hlo hhi => ?_) hrest (List.cons_ne_nil _ _) ?_
    · rw [List.append_nil]
      exact Or.inl hp
    · obtain rfl : x = sid := le_antisymm hhi hlo
      exact Or.inr hreg
    · intro x hx
      rw [hl]
      exact List.mem_cons_of_mem sid hx
  next => cases hs

theorem Primary.release (h : Primary s) (hw : s.flushed ≠ [] → s.wal ≠ [])
    (hs : s.release = some s') : Primary s' := by
  unfold State.release at hs
  split at hs
  next sid flushed hf =>
    obtain rfl := Option.some.inj hs
    exact PrimaryInv.logOther h trivial rfl rfl (hw (by simp [hf]))
  next => cases hs

/-- What a rebuild or a merge takes from the list of segments. -/
theorem Primary.compact (h : Primary s) {i : SegmentFileInfo} {j : ℕ}
    {mid post : List SegmentFileInfo} (hd : s.pool.drop j = mid ++ post) (hne : mid ≠ [])
    (hi : ∀ m₁ m₂, Contiguous m₁ mid m₂ →
      i.startSid = m₁ ∧ i.startSid ≤ i.endSid ∧ i.endSid + 1 = m₂) :
    Primary { s.log [.segment i] with pool := s.pool.take j ++ i :: post } := by
  have hp : s.pool = s.pool.take j ++ (mid ++ post) := by rw [← hd, List.take_append_drop]
  have hw : s.wal ≠ [] := by
    intro hw
    rw [(h.unbuilt hw).1, List.drop_nil] at hd
    exact hne (List.append_eq_nil_iff.mp hd.symm).1
  obtain ⟨m, ht, hlive⟩ := h.tiled
  rw [hp] at ht
  obtain ⟨m₁, hpre, ht⟩ := Contiguous.append_iff.mp ht
  obtain ⟨m₂, hmid, hpost⟩ := Contiguous.append_iff.mp ht
  have hi' := hi m₁ m₂ hmid
  have hside : ∀ p ∈ mid, m₁ ≤ p.startSid ∧ p.endSid < m₂ := by
    intro p hpm
    have := hmid.mem hpm
    lia
  refine PrimaryInv.replace h (fun p hpm => ?_) hpre hside hpost hi'
    (fun sid hlo hhi => ?_) hlive (h.built hw) fun _ hs => hs
  · rw [hp] at hpm
    simp only [List.mem_append] at hpm ⊢
    tauto
  · have h₁ := hpre.le
    have h₂ := hpost.le
    exact h.known_of_lt hw hlive (by lia) (by lia)

theorem Primary.rebuild (h : Primary s) {j : ℕ} (hs : s.rebuild j = some s') : Primary s' := by
  unfold State.rebuild at hs
  split at hs
  next a rest hd =>
    obtain rfl := Option.some.inj hs
    have hmid : s.pool.drop j = [a] ++ rest := hd
    refine h.compact hmid (List.cons_ne_nil _ _) ?_
    rintro m₁ m₂ ⟨hs, hle, he⟩
    exact ⟨hs, hle, he⟩
  next => cases hs

theorem Primary.merge (h : Primary s) {j : ℕ} (hs : s.merge j = some s') : Primary s' := by
  unfold State.merge at hs
  split at hs
  next a b rest hd =>
    obtain rfl := Option.some.inj hs
    have hmid : s.pool.drop j = [a, b] ++ rest := hd
    refine h.compact hmid (List.cons_ne_nil _ _) ?_
    rintro m₁ m₂ ⟨hs, hle, hs', hle', he⟩
    refine ⟨hs, ?_, he⟩
    change a.startSid ≤ b.endSid
    lia
  next => cases hs

theorem Primary.vacuum (h : Primary s) (hs : s.vacuum sid = some s') : Primary s' := by
  unfold State.vacuum at hs
  split at hs
  next hv =>
    obtain rfl := Option.some.inj hs
    have hw : s.wal ≠ [] := by
      intro hw
      obtain ⟨hp, hl⟩ := h.unbuilt hw
      rw [hp, hl] at hv
      simp at hv
    refine PrimaryInv.logOther h ?_ rfl rfl hw
    rcases hv with hv | ⟨i, hi, hlo, hhi⟩
    · exact Or.inr (h.unflushed sid hv)
    · obtain ⟨m, ht, hlive⟩ := h.tiled
      have := ht.mem hi
      exact h.known_of_lt hw hlive (by lia) (by lia)
  next => cases hs

end VectorLsm.Replay
