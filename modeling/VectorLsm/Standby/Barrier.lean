import VectorLsm.Standby.Log

/-! # What a standby has of the redone log

Where no memtable is dropped and a recovery finds what its status pages do not give on disk, a
standby that holds a slot for the index has each registered memtable, in memory or in a file. So
the barrier before the first query leaves nothing out, and tombstones find their memtable; those
for the first segment find it once it is fetched.
-/

namespace VectorLsm.Replay

open Transition Recovery SegmentFileInfo

/-- There is room for a new memtable: a free slot, and a free entry for the one that is sealed.
A memtable in a file needs no slot. -/
def Room (s : State) (sid : SegmentId) (free : Bool) : Prop :=
  sid ∉ s.mts.tables → (free = true ∨ s.OnDisk sid) ∧
    (free = true → s.mts.growing = none ∨ s.mts.sealed.length < memtableNum)

instance (s : State) (sid : SegmentId) (free : Bool) : Decidable (Room s sid free) :=
  inferInstanceAs (Decidable (_ → _))

/-- Each memtable that the status pages do not list, or list at or below the end of the last
file, is in a file. -/
def Recoverable (s : State) (wal : List Record) : Prop :=
  ∀ last ∈ s.files.getLast?, ∀ sid ∈ registered wal,
    sid ∉ (pages wal).memtables ∨ sid ≤ last.endSid → s.OnDisk sid

instance (s : State) (wal : List Record) : Decidable (Recoverable s wal) := by
  unfold Recoverable
  cases s.files.getLast? with
  | none => exact .isTrue nofun
  | some last =>
      exact decidable_of_iff (∀ sid ∈ registered wal,
        sid ∉ (pages wal).memtables ∨ sid ≤ last.endSid → s.OnDisk sid) (by simp)

/-- No memtable is dropped, a recovery finds the rest on disk, and the scan's table holds the
ranges of the files. -/
def Keeping (s : State) : Action → Prop
  | .redo free =>
      match s.wal[s.replayed]? with
      | some (.registerMemtable sid) => s.writable = true → Room s sid free
      | _ => True
  | .recover ahead => Recoverable s (s.redone ahead)
  | .fetch i => ((s.fetched ++ [i]).map (·.range)).dedup.length ≤ scanTableSize
  | _ => True

/-- Further, a tombstone for the first segment is redone after that segment is fetched. -/
def Targeting (s : State) : Action → Prop
  | .redo free => Keeping s (.redo free) ∧
      (s.wal[s.replayed]? = some (.vacuumTombstones startSegmentId) → s.OnDisk startSegmentId)
  | a => Keeping s a

theorem Targeting.keeping {s : State} {a : Action} (h : Targeting s a) : Keeping s a := by
  cases a with
  | redo free => exact h.1
  | _ => exact h

instance (s : State) : DecidablePred (Keeping s) := by
  intro a
  cases a with
  | redo free =>
      unfold Keeping
      dsimp only
      split <;> infer_instance
  | _ =>
      unfold Keeping
      infer_instance

instance (s : State) : DecidablePred (Targeting s) := by
  intro a
  cases a with
  | redo free => exact inferInstanceAs (Decidable (_ ∧ (_ → _)))
  | _ =>
      unfold Targeting
      infer_instance

section Memtables

variable {m : Memtables} {sid x : SegmentId} {free : Bool} {i : SegmentFileInfo}

theorem tables_enqueue (h : m.sealed.length < memtableNum) :
    (m.enqueue sid).tables.Perm (sid :: m.tables) := by
  unfold Memtables.enqueue Memtables.tables
  rw [if_pos h, ← List.append_assoc]
  exact List.perm_append_singleton sid _

/-- With room, the redo of a registration drops nothing. -/
theorem mem_tables_register (hr : sid ∉ m.tables → free = true →
    m.growing = none ∨ m.sealed.length < memtableNum) (hx : x ∈ m.tables) :
    x ∈ (m.register sid free).tables := by
  unfold Memtables.register
  split
  · exact hx
  next hsid =>
    split
    · exact hx
    next hfree =>
      have hroom := hr hsid (Bool.not_eq_false _ ▸ hfree)
      split
      next hgrow =>
        cases hg : m.growing with
        | some prev =>
            have hlt := hroom.resolve_left (by simp [hg])
            have hp : x = prev ∨ x ∈ m.sealed := by
              unfold Memtables.tables at hx
              rw [hg] at hx
              exact List.mem_cons.mp hx
            unfold Memtables.enqueue Memtables.tables
            dsimp only
            rw [if_pos hlt]
            refine List.mem_append_right _ (List.mem_append.mpr ?_)
            exact hp.symm.imp_right List.mem_singleton.mpr
        | none =>
            unfold Memtables.tables at hx
            rw [hg] at hx
            exact List.mem_append_right _ hx
      next hgrow =>
        have hlt := hroom.resolve_left fun hg => hgrow (Or.inr hg)
        exact (tables_enqueue hlt).mem_iff.mpr (List.mem_cons_of_mem sid hx)

theorem self_mem_tables_register (hr : sid ∉ m.tables → free = true ∧
    (m.growing = none ∨ m.sealed.length < memtableNum)) : sid ∈ (m.register sid free).tables := by
  unfold Memtables.register
  split
  next hsid => exact hsid
  next hsid =>
    obtain ⟨hfree, hroom⟩ := hr hsid
    rw [if_neg (by simp [hfree])]
    split
    next hgrow => cases m.growing <;> exact List.mem_append_left _ (List.mem_singleton_self sid)
    next hgrow =>
      have hlt := hroom.resolve_left fun hg => hgrow (Or.inr hg)
      exact (tables_enqueue hlt).mem_iff.mpr List.mem_cons_self

/-- The memtables that a segment covers are released, the others stay. -/
theorem mem_tables_releaseCovered (hx : x ∈ m.tables) :
    x ∈ (m.releaseCovered i).tables ∨ i.startSid ≤ x ∧ x ≤ i.endSid := by
  by_cases hc : i.startSid ≤ x ∧ x ≤ i.endSid
  · exact Or.inr hc
  · left
    unfold Memtables.tables at hx
    have hstay : (!decide (i.startSid ≤ x ∧ x ≤ i.endSid)) = true := by
      rw [decide_eq_false hc]
      rfl
    have hfilter : x ∈ m.sealed → x ∈ m.sealed.filter fun sid =>
        !decide (i.startSid ≤ sid ∧ sid ≤ i.endSid) := fun hm =>
      List.mem_filter.mpr ⟨hm, hstay⟩
    unfold Memtables.releaseCovered Memtables.tables
    cases hg : m.growing with
    | none =>
        rw [hg] at hx
        exact List.mem_append_right _ (hfilter hx)
    | some g =>
        rw [hg] at hx
        dsimp only
        rcases List.mem_cons.mp hx with rfl | hx
        · rw [if_neg (by simpa using hc)]
          exact List.mem_append_left _ (List.mem_singleton_self x)
        · split <;> exact List.mem_append_right _ (hfilter hx)

/-- A recovery builds the memtables that the pages list past the last file. -/
theorem mem_tables_ofRecovered {st : StatusPages} {files : List SegmentFileInfo} {l : LSMIndex}
    {last : SegmentFileInfo} (h : recoverLsmIndexInternal st files = some l)
    (hlast : last ∈ files.getLast?) (hx : x ∈ st.memtables) (hlt : last.endSid < x) :
    x ∈ (Memtables.ofRecovered l).tables := by
  obtain ⟨f, hf, top, -, -, rfl⟩ := recover_spec h
  obtain rfl : f = last := Option.some.inj (hf.symm.trans hlast)
  unfold Memtables.ofRecovered rebuilt Memtables.tables
  by_cases hmax : x = st.maxMemtableSid
  · subst hmax
    rw [if_pos ⟨hlt, hx⟩]
    exact List.mem_cons_self
  · have hs : x ∈ (ascending st).filter (Sealed f.endSid st.maxMemtableSid ·) :=
      List.mem_filter.mpr ⟨ascending_perm.mem_iff.mpr hx, decide_eq_true ⟨hlt, hmax⟩⟩
    dsimp only
    split <;> exact List.mem_append_right _ hs

end Memtables

structure Inv (s : State) : Prop where
  primary : Primary s
  flushed : s.wal = [] → s.flushed = []
  replayed : s.replayed ≤ s.wal.length
  fetched : ∀ i ∈ s.fetched, i ∈ announced s.wal
  fits : (s.fetched.map (·.range)).dedup.length ≤ scanTableSize
  represented : s.writable = true → ∀ sid ∈ registered (s.redone false), s.Represented sid

variable {s s' : State} {sid : SegmentId} {free : Bool} {i : SegmentFileInfo}

theorem Inv.scannable (h : Inv s) : Scannable s.fetched where
  nonempty := fun e he => (h.primary.named.ranges e (h.fetched e he)).1
  laminar := fun e he e' he' => h.primary.laminar e (h.fetched e he) e' (h.fetched e' he')
  fits := h.fits

/-- What a file covers the scan finds. -/
theorem Inv.onDisk_of_mem (h : Inv s) (hi : i ∈ s.fetched) (hlo : i.startSid ≤ sid)
    (hhi : sid ≤ i.endSid) : s.OnDisk sid := by
  obtain ⟨m, hm, hw⟩ := exists_scan_within h.scannable hi
  exact ⟨m, hm, hw.1.trans hlo, hhi.trans hw.2⟩

theorem OnDisk.exists_mem (h : s.OnDisk sid) :
    ∃ i ∈ s.fetched, i.startSid ≤ sid ∧ sid ≤ i.endSid := by
  obtain ⟨i, hi, hlo, hhi⟩ := h
  obtain ⟨e, he, hr⟩ := List.mem_map.mp (range_mem_of_mem_scan hi)
  obtain ⟨h₁, h₂⟩ := Prod.mk.inj hr
  exact ⟨e, he, h₁ ▸ hlo, h₂ ▸ hhi⟩

/-- A record of the primary is out of the standby's sight until it is redone. -/
theorem Inv.ofPrimary (h : Inv s) (hp : Primary s') {rs : List Record}
    (hw : s'.wal = s.wal ++ rs) (hf : s'.wal = [] → s'.flushed = [])
    (hr : s'.replayed = s.replayed) (hd : s'.fetched = s.fetched) (hm : s'.mts = s.mts)
    (hh : s'.writable = s.writable) : Inv s' where
  primary := hp
  flushed := hf
  replayed := by
    rw [hr, hw, List.length_append]
    exact h.replayed.trans (Nat.le_add_right _ _)
  fetched := by
    intro i hi
    rw [hd] at hi
    rw [hw, announced_append]
    exact List.mem_append_left _ (h.fetched i hi)
  fits := by
    rw [hd]
    exact h.fits
  represented := by
    have hred : s'.redone false = s.redone false := by
      unfold State.redone
      rw [hw, hr, if_neg Bool.false_ne_true, Nat.add_zero,
        List.take_append_of_le_length h.replayed]
    have hrep : ∀ sid, s.Represented sid → s'.Represented sid := by
      intro sid hs
      unfold State.Represented State.OnDisk State.files at *
      rwa [hm, hd]
    intro hh'
    rw [hred]
    exact fun sid hs => hrep sid (h.represented (hh ▸ hh') sid hs)

theorem redone_true {r : Record} (h : s.wal[s.replayed]? = some r) :
    s.redone true = s.redone false ++ [r] := by
  obtain ⟨hlt, hr⟩ := List.getElem?_eq_some_iff.mp h
  unfold State.redone
  simp only [if_true, Bool.false_eq_true, if_false, Nat.add_zero]
  rw [List.take_succ_eq_append_getElem hlt, hr]

/-- A record that registers nothing is redone. -/
theorem Inv.advance (h : Inv s) {r : Record} (hr : s.wal[s.replayed]? = some r)
    (hn : registered [r] = []) : Inv { s with replayed := s.replayed + 1 } where
  primary := h.primary
  flushed := h.flushed
  replayed := (List.getElem?_eq_some_iff.mp hr).1
  fetched := h.fetched
  fits := h.fits
  represented := by
    intro hh sid hs
    change sid ∈ registered (s.redone true) at hs
    rw [redone_true hr, registered_append, hn, List.append_nil] at hs
    exact h.represented hh sid hs

/-- Before the slot is there, nothing is asked of the redo. -/
theorem Inv.skip (h : Inv s) (hh : s.writable = false) {r : Record}
    (hr : s.wal[s.replayed]? = some r) : Inv { s with replayed := s.replayed + 1 } where
  primary := h.primary
  flushed := h.flushed
  replayed := (List.getElem?_eq_some_iff.mp hr).1
  fetched := h.fetched
  fits := h.fits
  represented := fun hh' => by
    rw [hh] at hh'
    cases hh'

theorem Inv.redo (h : Inv s) (hok : Keeping s (.redo free)) (hs : s.redo free = some s') :
    Inv s' := by
  unfold State.redo at hs
  split at hs
  · cases hs
  next r hr =>
    split at hs
    next hh =>
      obtain rfl := Option.some.inj hs
      cases r with
      | registerMemtable sid =>
          have hroom : Room s sid free := by
            unfold Keeping at hok
            rw [hr] at hok
            exact hok hh
          have hkeep : ∀ x ∈ s.mts.tables, x ∈ (s.mts.register sid free).tables := fun x =>
            mem_tables_register fun hn hf => (hroom hn).2 hf
          exact {
            primary := h.primary
            flushed := h.flushed
            replayed := (List.getElem?_eq_some_iff.mp hr).1
            fetched := h.fetched
            fits := h.fits
            represented := by
              intro _ x hx
              change x ∈ registered (s.redone true) at hx
              rw [redone_true hr, registered_append, List.mem_append] at hx
              rcases hx with hx | hx
              · exact (h.represented hh x hx).imp_left (hkeep x)
              · obtain rfl := List.mem_singleton.mp hx
                by_cases hd : s.OnDisk x
                · exact Or.inr hd
                · left
                  refine self_mem_tables_register fun hn => ?_
                  have hf := (hroom hn).1.resolve_right hd
                  exact ⟨hf, (hroom hn).2 hf⟩ }
      | vacuumTombstones sid =>
          unfold State.apply
          dsimp only
          split
          · exact h.advance hr rfl
          · exact { h with }
      | _ => exact h.advance hr rfl
    next hh =>
      have hh : s.writable = false := Bool.not_eq_true _ ▸ hh
      split at hs
      next hc =>
        obtain rfl := Option.some.inj hs
        obtain ⟨rfl, -⟩ := hc
        -- Nothing is registered before the index is there.
        have hlt := (List.getElem?_eq_some_iff.mp hr).1
        have hcut := h.primary.log (s.replayed + 1) (Nat.zero_le _) hlt
        have hnone := hcut.created (s.redone false) (redone_true hr)
        have hempty : registered (s.redone true) = [] := by
          rw [redone_true hr, registered_append, hnone]
          rfl
        refine { h.skip hh hr with represented := fun _ sid hsid => ?_ }
        change sid ∈ registered (s.redone true) at hsid
        rw [hempty] at hsid
        cases hsid
      next hc =>
        obtain rfl := Option.some.inj hs
        exact h.skip hh hr

theorem Inv.recover (h : Inv s) {ahead : Bool} (hok : Keeping s (.recover ahead))
    (hs : s.recover ahead = some s') : Inv s' := by
  unfold State.recover at hs
  split at hs
  · cases hs
  · split at hs
    · cases hs
    next l hl =>
      obtain rfl := Option.some.inj hs
      have hsub : ∀ sid ∈ registered (s.redone false), sid ∈ registered (s.redone ahead) := by
        intro sid hsid
        have htake : s.redone false = (s.redone ahead).take s.replayed := by
          unfold State.redone
          rw [List.take_take]
          cases ahead <;> simp
        rw [htake] at hsid
        exact mem_registered_of_take hsid
      refine { h with represented := fun _ sid hsid => ?_ }
      obtain ⟨last, hlast, -⟩ := recover_spec hl
      have hrec := hok last hlast sid (hsub sid hsid)
      by_cases hc : sid ∉ (pages (s.redone ahead)).memtables ∨ sid ≤ last.endSid
      · exact Or.inr (hrec hc)
      · obtain ⟨hm, hlt⟩ := not_or.mp hc
        exact Or.inl (mem_tables_ofRecovered hl hlast (not_not.mp hm) (not_le.mp hlt))

theorem Inv.fetch (h : Inv s) (hi : i ∈ announced (s.redone false))
    (hok : Keeping s (.fetch i)) : Inv { s with fetched := s.fetched ++ [i] } := by
  have hann : ∀ e ∈ s.fetched ++ [i], e ∈ announced s.wal := by
    intro e he
    rcases List.mem_append.mp he with he | he
    · exact h.fetched e he
    · rw [List.mem_singleton.mp he]
      exact mem_announced_of_take hi
  have hscan : Scannable (s.fetched ++ [i]) := {
    nonempty := fun e he => (h.primary.named.ranges e (hann e he)).1
    laminar := fun e he e' he' => h.primary.laminar e (hann e he) e' (hann e' he')
    fits := hok }
  refine { h with fetched := hann, fits := hok, represented := fun hh sid hs => ?_ }
  refine (h.represented hh sid hs).imp_right fun hd => ?_
  obtain ⟨e, he, hlo, hhi⟩ := OnDisk.exists_mem hd
  obtain ⟨m, hm, hw⟩ := exists_scan_within hscan (List.mem_append_left [i] he)
  exact ⟨m, hm, hw.1.trans hlo, hhi.trans hw.2⟩

theorem Inv.adopt (h : Inv s) (hi : i ∈ s.fetched) :
    Inv { s with mts := s.mts.releaseCovered i } := by
  refine { h with represented := fun hh sid hs => ?_ }
  rcases h.represented hh sid hs with ht | hd
  · exact (mem_tables_releaseCovered ht).imp_right fun hc => h.onDisk_of_mem hi hc.1 hc.2
  · exact Or.inr hd

theorem Inv.step {a : Action} (h : Inv s) (hok : Keeping s a) (hs : step s a = some s') :
    Inv s' := by
  cases a with
  | build =>
      have hp : Primary s' := .build hs
      dsimp only [Replay.step] at hs
      unfold State.build at hs
      split at hs
      next hw =>
        obtain rfl := Option.some.inj hs
        exact h.ofPrimary hp rfl (fun _ => h.flushed hw) rfl rfl rfl rfl
      next => cases hs
  | rotate =>
      have hp : Primary s' := h.primary.rotate hs
      dsimp only [Replay.step] at hs
      unfold State.rotate at hs
      split at hs
      next hw =>
        obtain rfl := Option.some.inj hs
        exact h.ofPrimary hp rfl (fun he => by simp [State.log] at he) rfl rfl rfl rfl
      next => cases hs
  | flush =>
      have hp : Primary s' := h.primary.flush hs
      dsimp only [Replay.step] at hs
      unfold State.flush at hs
      split at hs
      next =>
        obtain rfl := Option.some.inj hs
        exact h.ofPrimary hp rfl (fun he => by simp [State.log] at he) rfl rfl rfl rfl
      next => cases hs
  | release =>
      have hp : Primary s' := h.primary.release (fun hn hw => hn (h.flushed hw)) hs
      dsimp only [Replay.step] at hs
      unfold State.release at hs
      split at hs
      next =>
        obtain rfl := Option.some.inj hs
        exact h.ofPrimary hp rfl (fun he => by simp [State.log] at he) rfl rfl rfl rfl
      next => cases hs
  | rebuild j =>
      have hp : Primary s' := h.primary.rebuild hs
      dsimp only [Replay.step] at hs
      unfold State.rebuild at hs
      split at hs
      next =>
        obtain rfl := Option.some.inj hs
        exact h.ofPrimary hp rfl (fun he => by simp [State.log] at he) rfl rfl rfl rfl
      next => cases hs
  | merge j =>
      have hp : Primary s' := h.primary.merge hs
      dsimp only [Replay.step] at hs
      unfold State.merge at hs
      split at hs
      next =>
        obtain rfl := Option.some.inj hs
        exact h.ofPrimary hp rfl (fun he => by simp [State.log] at he) rfl rfl rfl rfl
      next => cases hs
  | vacuum sid =>
      have hp : Primary s' := h.primary.vacuum hs
      dsimp only [Replay.step] at hs
      unfold State.vacuum at hs
      split at hs
      next =>
        obtain rfl := Option.some.inj hs
        exact h.ofPrimary hp rfl (fun he => by simp [State.log] at he) rfl rfl rfl rfl
      next => cases hs
  | redo free => exact h.redo hok hs
  | recover ahead => exact h.recover hok hs
  | fetch i =>
      dsimp only [Replay.step] at hs
      split at hs
      next hi =>
        obtain rfl := Option.some.inj hs
        exact h.fetch hi hok
      next => cases hs
  | adopt i =>
      dsimp only [Replay.step] at hs
      split at hs
      next hi =>
        obtain rfl := Option.some.inj hs
        exact h.adopt hi.2
      next => cases hs
  | publish =>
      dsimp only [Replay.step] at hs
      unfold State.publish at hs
      split at hs
      next =>
        obtain rfl := Option.some.inj hs
        exact { h with }
      next => cases hs
  | restart n =>
      dsimp only [Replay.step] at hs
      split at hs
      next hn =>
        obtain rfl := Option.some.inj hs
        exact { h with
          replayed := hn.trans h.replayed
          represented := nofun }
      next => cases hs

theorem Init.inv (h : Init s) : Inv s := by
  subst h
  exact {
    primary := .empty
    flushed := fun _ => rfl
    replayed := le_rfl
    fetched := by rintro i ⟨⟩
    fits := Nat.zero_le _
    represented := by rintro ⟨⟩ }

theorem inv_of_reachable (h : Reachable Init step Keeping s) : Inv s :=
  h.invariant (P := Inv) (fun _ h => h.inv) fun _ _ _ _ h hok hs => h.step hok hs

/-- The ids that a log registers or has segments for. -/
def Mentions (wal : List Record) (sid : SegmentId) : Prop :=
  sid ∈ registered wal ∨ ∃ i ∈ announced wal, i.startSid ≤ sid ∧ sid ≤ i.endSid

/-- An index that becomes queryable has all that the redone log mentions. -/
theorem represented_of_publish (h : Reachable Init step Keeping s)
    (hs : step s .publish = some s') : ∀ sid, Mentions (s'.redone false) sid →
      s'.Represented sid := by
  have hinv := inv_of_reachable h
  dsimp only [Replay.step] at hs
  unfold State.publish at hs
  split at hs
  next hp =>
    obtain ⟨hh, -, hfirst⟩ := hp
    obtain rfl := Option.some.inj hs
    intro sid hm
    have hcut := hinv.primary.log s.replayed (Nat.zero_le _) hinv.replayed
    rcases hm with hreg | ⟨i, hi, hlo, hhi⟩
    · exact hinv.represented hh sid hreg
    · rcases (hcut.ranges i hi).2 sid hlo hhi with rfl | hreg
      · exact Or.inr hfirst
      · exact hinv.represented hh sid hreg
  next => cases hs

/-- A build and all that the standby redoes of it. -/
def buildAndRedo : List Action := [.build] ++ List.replicate 4 (.redo true)

/-- The first memtable is flushed and released, and the standby has redone all. -/
def flushAndRedo : List Action :=
  [.rotate, .flush, .release] ++ List.replicate 4 (.redo true)

/-- A standby restarts, recovers an earlier state and redoes the rest. -/
theorem represented_of_publish_restarted : ∃ s s' : State, s.queryable = false ∧
    s'.queryable = true ∧ registered (s'.redone false) = [4, 5] ∧ s'.mts.tables = [5] ∧
      ∀ sid, Mentions (s'.redone false) sid → s'.Represented sid := by
  have hm : Meets Keeping step initial (buildAndRedo ++ [.fetch ⟨3, 3, 1⟩] ++ flushAndRedo ++
      [.fetch ⟨4, 4, 1⟩, .restart 6, .recover false, .redo true, .redo true]) := by
    decide +kernel
  have hs : (exec step initial (buildAndRedo ++ [.fetch ⟨3, 3, 1⟩] ++ flushAndRedo ++
      [.fetch ⟨4, 4, 1⟩, .restart 6, .recover false, .redo true, .redo true])).map (fun s =>
        (s.queryable, (step s .publish).map fun s' =>
          (s'.queryable, registered (s'.redone false), s'.mts.tables))) =
            some (false, some (true, [4, 5], [5])) := by
    decide +kernel
  obtain ⟨s, he, hv⟩ := Option.map_eq_some_iff.mp hs
  obtain ⟨hq, hp⟩ := Prod.mk.inj hv
  obtain ⟨s', hs', hv'⟩ := Option.map_eq_some_iff.mp hp
  simp only [Prod.mk.injEq] at hv'
  have h₀ : Reachable Init step Keeping initial := .start rfl
  exact ⟨s, s', hq, hv'.1, hv'.2.1, hv'.2.2, represented_of_publish (h₀.of_exec hm he) hs'⟩

/-- A standby restarts after the release of a memtable whose segment is not fetched yet. -/
theorem not_represented_of_publish : ¬ ∀ s s' : State, Reachable Init step anyStep s →
    step s .publish = some s' → ∀ sid, Mentions (s'.redone false) sid → s'.Represented sid := by
  intro h
  have hs : (exec step initial (buildAndRedo ++ [.fetch ⟨3, 3, 1⟩] ++ flushAndRedo ++
      [.restart 8, .recover false])).map (fun s => (step s .publish).map fun s' =>
        (registered (s'.redone false), decide (s'.Represented 4))) =
          some (some ([4, 5], false)) := by
    decide +kernel
  obtain ⟨s, he, hv⟩ := Option.map_eq_some_iff.mp hs
  obtain ⟨s', hs', hv⟩ := Option.map_eq_some_iff.mp hv
  obtain ⟨hreg, hrep⟩ := Prod.mk.inj hv
  have h₀ : Reachable Init step anyStep initial := .start rfl
  have hm : Mentions (s'.redone false) 4 := Or.inl (by rw [hreg]; exact List.mem_cons_self)
  exact of_decide_eq_false hrep (h s s' (h₀.of_exec (meets_anyStep _) he) hs' 4 hm)

/-- How a tombstone comes to miss its target. -/
theorem untargeted_step {a : Action} (hs : step s a = some s') : s'.untargeted = s.untargeted ∨
    ∃ free sid, a = .redo free ∧ s.writable = true ∧
      s.wal[s.replayed]? = some (.vacuumTombstones sid) ∧ ¬ s.Represented sid := by
  cases a with
  | redo free =>
      dsimp only [Replay.step] at hs
      unfold State.redo at hs
      split at hs
      · cases hs
      next r hr =>
        split at hs
        next hh =>
          obtain rfl := Option.some.inj hs
          cases r with
          | vacuumTombstones sid =>
              by_cases hrep : s.Represented sid
              · left
                unfold State.apply
                dsimp only
                rw [if_pos hrep]
              · exact Or.inr ⟨free, sid, rfl, hh, hr, hrep⟩
          | _ => exact Or.inl rfl
        next =>
          left
          split at hs <;> (obtain rfl := Option.some.inj hs; rfl)
  | _ =>
      left
      dsimp only [Replay.step, State.build, State.rotate, State.flush, State.release,
        State.rebuild, State.merge, State.vacuum, State.recover, State.publish] at hs
      repeat' split at hs
      all_goals first
        | cases hs; done
        | obtain rfl := Option.some.inj hs; rfl

end VectorLsm.Replay
