import VectorLsm.IndexBuffer.Unique
import VectorLsm.Segment.Scan

/-! # The lives of an index

A relation keeps its storage directory and may keep its slot when it is built again. A life
begins with a build, or on a standby with the redo of one; what the directory scan selects and
what a lookup finds should then be of that life alone.
-/

namespace VectorLsm

namespace IndexBuffer

open Transition

structure Lives where
  buffer : State
  /-- The metadata files that former lives have left in the directory. -/
  old : List SegmentFileInfo
  /-- The metadata files of the present life. -/
  new : List SegmentFileInfo
  /-- History: the present life, and the one whose state each slot holds or is to hold. -/
  life : ℕ
  slotLife : ℕ → Option ℕ

namespace Lives

/-- `find_latest_segment_version`. -/
def latestVersion (s : Lives) (lo hi : SegmentId) : ℕ :=
  (versionsOf (s.old ++ s.new) (lo, hi)).foldr max 0

/-- The files of the present life are those of a former one. -/
@[simps] def bury (s : Lives) (new : List SegmentFileInfo) : Lives :=
  { s with old := s.old ++ s.new, new := new }

@[simps] def setSlotLife (s : Lives) (k : ℕ) (l : Option ℕ) : Lives :=
  { s with slotLife := Function.update s.slotLife k l }

@[simps] def begin (s : Lives) : Lives := { s with life := s.life + 1 }

/-- What a step of the buffer does to the directory of `relid` and to the history. -/
def track (relid : Oid) (s : Lives) : IndexBuffer.Action → Lives
  | .createRedo _ r _ => if r.indexRelId = relid then (s.bury []).begin else s
  | .backend p =>
      match s.buffer.pc p with
      | .claim c i =>
          if i < indexBufSize ∧ (s.buffer.slots i).valid = .free then
            s.setSlotLife i (if c.relid = relid then some s.life else none)
          else s
      | .buildRelId r _ k => if r = relid then s.begin.setSlotLife k (some (s.life + 1)) else s
      | .building r _ _ =>
          -- `persist_index_segment`.
          if r = relid then
            s.bury [⟨startSegmentId, startSegmentId,
              s.latestVersion startSegmentId startSegmentId + 1⟩]
          else s
      | _ => s
  | .worker =>
      match s.buffer.worker with
      | .rebuild i r => if r = relid then s.setSlotLife i (some s.life) else s
      | _ => s
  | _ => s

/-- The shared memory of a fresh server. -/
def restarted (b : State) : State where
  slots := fun k => { b.slots k with valid := .free, stateError := false, requestDbOid := 0,
                                     requestDbUserid := 0, indexRelId := 0, tenure := none }
  lock := none
  workerPgprocno := none
  pc := fun _ => .idle
  worker := .off
  connectedDbOid := none
  exclusive := fun _ => false
  metadata := b.metadata
  moves := []

inductive Action where
  | buffer (a : IndexBuffer.Action)
  /-- `redo_index_create` once more for the record that began the present life. -/
  | redoAgain (p : ℕ) (r : Request) (md : LSMIndexMetadata)
  /-- `flush_segment_to_disk` by a flush, a rebuild or a merge. -/
  | flush (lo hi : SegmentId)
  /-- The fetcher of a standby stores a segment under the version it has on the primary. -/
  | fetch (i : SegmentFileInfo)
  | restart

def step (relid : Oid) (s : Lives) : Action → Option Lives
  | .buffer a => (IndexBuffer.step s.buffer a).map fun b => { s.track relid a with buffer := b }
  | .redoAgain p r md =>
      (IndexBuffer.step s.buffer (.createRedo p r md)).map fun b => { s with buffer := b }
  | .flush lo hi => some { s with new := s.new ++ [⟨lo, hi, s.latestVersion lo hi + 1⟩] }
  | .fetch i => some { s with new := s.new ++ [i] }
  | .restart => some { s with buffer := restarted s.buffer }

/-- Any files may be there at the start. -/
structure Init (s : Lives) : Prop where
  buffer : IndexBuffer.Init s.buffer
  old : s.old = []

/-- The scan selects what it would select among the files of the present life, and the slots
that a lookup can find are of the present life. -/
structure Fresh (relid : Oid) (s : Lives) : Prop where
  scan : scanSegmentMetadataFiles (s.old ++ s.new) = scanSegmentMetadataFiles s.new
  slots : ∀ k, Shows s.buffer k relid → s.slotLife k = some s.life

/-- Nobody under the lock is on the way to claim a slot for `relid`. -/
def Unsought (b : State) (relid : Oid) : Prop := ∀ p ∈ b.lock, ¬ (b.pc p).claims relid

instance (b : State) (relid : Oid) : Decidable (Unsought b relid) :=
  inferInstanceAs (Decidable (∀ p ∈ b.lock, ¬ (b.pc p).claims relid))

/-- A life begins on an empty directory, or with a build on one that holds nothing but initial
segments, when no slot is in use for the relation; and no slot is put to use that carries the
relation from before. -/
def Clean (relid : Oid) (s : Lives) : Action → Prop
  | .buffer (.createRedo _ r _) => r.indexRelId = relid →
      s.old ++ s.new = [] ∧ (∀ k < indexBufSize, ¬ Shows s.buffer k relid) ∧
        Unsought s.buffer relid
  | .buffer (.backend p) =>
      match s.buffer.pc p with
      | .claim c i => (s.buffer.slots i).valid = .free → c.relid ≠ relid →
          (s.buffer.slots i).indexRelId ≠ relid
      | .buildRelId r _ k => r = relid →
          (∀ j < indexBufSize, Shows s.buffer j relid → j = k) ∧ Unsought s.buffer relid
      | .building r _ _ => r = relid →
          ∀ f ∈ s.old ++ s.new, f.range = (startSegmentId, startSegmentId)
      | .publish _ _ k | .loading k => (s.buffer.slots k).valid ≠ .free
      | _ => True
  | .buffer (.backendError p) =>
      match s.buffer.pc p with
      | .loading k => (s.buffer.slots k).valid ≠ .free
      | _ => True
  | .buffer .worker =>
      match s.buffer.worker with
      | .publish i _ => (s.buffer.slots i).valid ≠ .free
      | _ => True
  | _ => True

instance (relid : Oid) (s : Lives) (a : Action) : Decidable (Clean relid s a) := by
  unfold Clean
  repeat' split
  all_goals infer_instance

/-- The slot that a claim for `relid` has taken and not written the relid to. -/
def claiming (relid : Oid) : BackendPc → Option ℕ
  | .request c k | .relId c k => if c.looks = true ∧ c.relid = relid then some k else none
  | _ => none

structure Inv (relid : Oid) (s : Lives) : Prop where
  locked : Locked s.buffer
  /-- What is left of former lives is under the new initial segment. -/
  files : s.old = [] ∨ ∃ v rest, s.new = ⟨startSegmentId, startSegmentId, v⟩ :: rest ∧
    ∀ f ∈ s.old, f.range = (startSegmentId, startSegmentId) ∧ f.version < v
  claims : ∀ p k, claiming relid (s.buffer.pc p) = some k → s.slotLife k = some s.life
  slots : ∀ k, Shows s.buffer k relid → s.slotLife k = some s.life

section Files

variable {old rest : List SegmentFileInfo} {v : ℕ}

theorem foldl_initial (h : ∀ f ∈ old, f.range = (startSegmentId, startSegmentId) ∧ f.version < v) :
    old.foldl recordEntry [] = [] ∨
      ∃ m < v, old.foldl recordEntry [] = [⟨startSegmentId, startSegmentId, m⟩] := by
  induction old using List.reverseRecOn with
  | nil => exact Or.inl rfl
  | append_singleton old f ih =>
      right
      obtain ⟨hr, hv⟩ := h f (by simp)
      obtain ⟨lo, hi, w⟩ := f
      obtain ⟨rfl, rfl⟩ := Prod.mk.inj hr
      rw [List.foldl_append]
      rcases ih fun f hf => h f (List.mem_append_left _ hf) with hnil | ⟨m, hm, hone⟩
      · rw [hnil]
        exact ⟨w, hv, rfl⟩
      · rw [hone]
        exact ⟨max m w, max_lt hm hv, rfl⟩

/-- Initial segments of former lives leave no trace in the scan. -/
theorem scan_initial (h : ∀ f ∈ old, f.range = (startSegmentId, startSegmentId) ∧ f.version < v) :
    scanSegmentMetadataFiles (old ++ ⟨startSegmentId, startSegmentId, v⟩ :: rest) =
      scanSegmentMetadataFiles (⟨startSegmentId, startSegmentId, v⟩ :: rest) := by
  have hone : recordEntry (old.foldl recordEntry []) ⟨startSegmentId, startSegmentId, v⟩ =
      recordEntry [] ⟨startSegmentId, startSegmentId, v⟩ := by
    rcases foldl_initial h with hnil | ⟨m, hm, hone⟩
    · rw [hnil]
    · rw [hone]
      have hmax : max m v = v := max_eq_right hm.le
      simp [recordEntry, SegmentFileInfo.range, hmax, scanTableSize]
  unfold scanSegmentMetadataFiles
  rw [List.foldl_append, List.foldl_cons, hone, ← List.foldl_cons]

theorem lt_latestVersion {s : Lives} {f : SegmentFileInfo} (hf : f ∈ s.old ++ s.new) :
    f.version < s.latestVersion f.startSid f.endSid + 1 := by
  have hmem : f.version ∈ versionsOf (s.old ++ s.new) (f.startSid, f.endSid) :=
    List.mem_map.mpr ⟨f, List.mem_filter.mpr ⟨hf, by simp [SegmentFileInfo.range]⟩, rfl⟩
  exact Nat.lt_succ_of_le (le_foldr_max hmem)

end Files

section Step

variable {relid : Oid} {s s' : Lives} {b b' : State} {a : IndexBuffer.Action} {k p : ℕ}

theorem Inv.fresh (h : Inv relid s) : Fresh relid s where
  scan := by
    rcases h.files with hold | ⟨v, rest, hnew, hold⟩
    · rw [hold, List.nil_append]
    · rw [hnew]
      exact scan_initial hold
  slots := h.slots

/-- A slot of the present life stays one, unless it is claimed anew or a life begins. -/
theorem track_keep (hl : s.slotLife k = some s.life)
    (hredo : ∀ q r md, a = .createRedo q r md → r.indexRelId ≠ relid)
    (hclaim : ∀ q c, a = .backend q → s.buffer.pc q = .claim c k →
      (s.buffer.slots k).valid ≠ .free)
    (hbuild : ∀ q md i, a = .backend q → s.buffer.pc q = .buildRelId relid md i → i = k) :
    (s.track relid a).slotLife k = some (s.track relid a).life := by
  cases a with
  | createRedo q r md =>
      simp only [track, if_neg (hredo q r md rfl)]
      exact hl
  | backend q =>
      cases hpc : s.buffer.pc q with
      | claim c i =>
          simp only [track, hpc]
          split
          · next hi =>
            have hk : k ≠ i := by
              rintro rfl
              exact hclaim q c rfl hpc hi.2
            rw [setSlotLife_slotLife, Function.update_of_ne hk]
            exact hl
          · exact hl
      | buildRelId r md i =>
          simp only [track, hpc]
          split
          · next hr =>
            subst hr
            obtain rfl := hbuild q md i rfl hpc
            exact Function.update_self ..
          · exact hl
      | building r md i =>
          simp only [track, hpc]
          split <;> exact hl
      | _ =>
          simp only [track, hpc]
          exact hl
  | worker =>
      cases hw : s.buffer.worker with
      | rebuild i r =>
          simp only [track, hw]
          split
          · rw [setSlotLife_slotLife, Function.update_apply]
            split
            · rfl
            · exact hl
          · exact hl
      | _ =>
          simp only [track, hw]
          exact hl
  | _ => exact hl

/-- A slot in use keeps its life: a life begins when none is. -/
theorem Inv.keep (h : Inv relid s) (hok : Clean relid s (.buffer a))
    (hk : Shows s.buffer k relid) :
    (s.track relid a).slotLife k = some (s.track relid a).life := by
  apply track_keep (h.slots k hk)
  · rintro q r md rfl hr
    exact (hok hr).2.1 k hk.1 hk
  · rintro q c rfl -
    exact hk.2.1
  · rintro q md i rfl hpc
    simp only [Clean, hpc] at hok
    exact ((hok trivial).1 k hk.1 hk).symm

theorem Inv.track_exposed (h : Inv relid s) (hok : Clean relid s (.buffer a))
    (hk : k < indexBufSize) (he : exposes s.buffer a = some (k, relid)) :
    (s.track relid a).slotLife k = some (s.track relid a).life := by
  have hkeep : (s.buffer.slots k).valid ≠ .free → (s.buffer.slots k).indexRelId = relid →
      (s.track relid a).slotLife k = some (s.track relid a).life :=
    fun hv hr => h.keep hok ⟨hk, hv, hr⟩
  cases a with
  | backend q =>
      cases hpc : s.buffer.pc q with
      | claim c i =>
          simp only [Clean, hpc] at hok
          simp only [exposes, hpc] at he
          split at he
          · next hi =>
            cases he
            simp only [track, hpc, if_pos (And.intro hi.1 hi.2.1), setSlotLife_slotLife,
              Function.update_self, setSlotLife_life]
            by_cases hc : c.relid = (s.buffer.slots k).indexRelId
            · exact if_pos hc
            · exact absurd rfl (hok hi.2.1 hc)
          · cases he
      | buildRelId r md i =>
          simp only [exposes, hpc] at he
          split at he <;> cases he
          simp only [track, hpc, if_true]
          exact Function.update_self ..
      | publish r md i | loading i =>
          simp only [exposes, hpc, Option.some.injEq, Prod.mk.injEq] at he
          simp only [Clean, hpc] at hok
          obtain ⟨rfl, hr⟩ := he
          exact hkeep hok hr
      | _ => simp [exposes, hpc] at he
  | backendError q =>
      cases hpc : s.buffer.pc q with
      | loading i =>
          simp only [exposes, hpc, Option.some.injEq, Prod.mk.injEq] at he
          simp only [Clean, hpc] at hok
          obtain ⟨rfl, hr⟩ := he
          exact hkeep hok hr
      | _ => simp [exposes, hpc] at he
  | worker =>
      cases hw : s.buffer.worker with
      | rebuild i r =>
          simp only [exposes, hw] at he
          split at he <;> cases he
          simp only [track, hw, if_true]
          exact Function.update_self ..
      | publish i r =>
          simp only [exposes, hw, Option.some.injEq, Prod.mk.injEq] at he
          simp only [Clean, hw] at hok
          obtain ⟨rfl, hr⟩ := he
          exact hkeep hok hr
      | _ => simp [exposes, hw] at he
  | _ => simp [exposes] at he

theorem Inv.track_slots (h : Inv relid s) (hok : Clean relid s (.buffer a))
    (hs : IndexBuffer.step s.buffer a = some b') (hk : Shows b' k relid) :
    (s.track relid a).slotLife k = some (s.track relid a).life := by
  rcases step_shows hs hk with hold | he | ⟨p, rfl, hc⟩
  · exact h.keep hok hold
  · exact h.track_exposed hok hk.1 he
  · have hcl := hc.claims
    have ht := hc.takes
    cases hpc : s.buffer.pc p with
    | claim c i =>
        rw [hpc] at hcl ht
        cases ht
        by_cases hv : (s.buffer.slots k).valid = .free
        · simp only [track, hpc, if_pos (And.intro hk.1 hv), setSlotLife_slotLife,
            Function.update_self, setSlotLife_life]
          exact if_pos hcl.2
        · simp only [IndexBuffer.step, backendStep, hpc, if_pos hk.1, if_neg hv,
            Option.some.injEq] at hs
          exact h.keep hok (hs ▸ hk : Shows (s.buffer.goto p (.claim c (k + 1))) k relid)
    | relId c i =>
        rw [hpc] at hcl ht
        cases ht
        have hl := h.claims p k (by rw [hpc]; exact if_pos hcl)
        simp only [track, hpc]
        exact hl
    | _ =>
        rw [hpc] at ht
        cases ht

theorem claims_of_claiming {pc : BackendPc} (h : claiming relid pc = some k) :
    pc.claims relid := by
  cases pc with
  | request | relId =>
      simp only [claiming] at h
      split at h
      · next hc => exact hc
      · cases h
  | _ => cases h

/-- A claim that a step brings about takes a free slot. -/
theorem claiming_step (hs : IndexBuffer.step b a = some b')
    (hk : claiming relid (b'.pc p) = some k) : claiming relid (b.pc p) = some k ∨
      ∃ c, a = .backend p ∧ b.pc p = .claim c k ∧ c.relid = relid ∧ k < indexBufSize ∧
        (b.slots k).valid = .free := by
  have hother : b'.pc p = b.pc p → claiming relid (b.pc p) = some k := fun he => he ▸ hk
  by_cases ha : ∃ q, a = .backend q
  · obtain ⟨q, rfl⟩ := ha
    rcases ne_or_eq p q with hpq | rfl
    · exact Or.inl (hother (backendStep_pc hs hpq))
    simp only [IndexBuffer.step] at hs
    cases hpc : b.pc p with
    | claim c i =>
        by_cases hi : i < indexBufSize
        · by_cases hv : (b.slots i).valid = .free
          · right
            cases c with
            | build r md =>
                simp only [backendStep, hpc, if_pos hi, if_pos hv] at hs
                cases hs
                simp [claiming] at hk
            | register r | createRedo r md =>
                simp only [backendStep, hpc, if_pos hi, if_pos hv] at hs
                cases hs
                simp only [State.goto_pc, Function.update_self, claiming] at hk
                split at hk
                · next hc =>
                  cases hk
                  exact ⟨_, rfl, rfl, hc.2, hi, hv⟩
                · cases hk
          · simp only [backendStep, hpc, if_pos hi, if_neg hv] at hs
            cases hs
            simp [claiming] at hk
        · cases c <;> simp only [backendStep, hpc, if_neg hi] at hs <;> cases hs <;>
            simp [claiming] at hk
    | request c i =>
        left
        cases c <;> simp only [backendStep, hpc] at hs <;> cases hs <;>
          simp only [State.goto_pc, Function.update_self] at hk <;> exact hk
    | lock c =>
        cases c <;> simp only [backendStep, hpc] at hs <;> split at hs <;> cases hs <;>
          simp [claiming] at hk
    | _ =>
        simp only [backendStep, hpc] at hs
        repeat' split at hs
        all_goals cases hs <;> simp [claiming] at hk
  · rcases (step_quiet hs fun q hq => ha ⟨q, hq⟩).2 p with hpc | hpc
    · exact Or.inl (hother hpc)
    · rw [(claims_of_claiming hk).underLock] at hpc
      exact absurd hpc.symm Bool.false_ne_true

/-- A claim under way is for the present life. -/
theorem Inv.track_claims (h : Inv relid s) (hok : Clean relid s (.buffer a))
    (hs : IndexBuffer.step s.buffer a = some b') (hk : claiming relid (b'.pc p) = some k) :
    (s.track relid a).slotLife k = some (s.track relid a).life := by
  by_cases hp : claiming relid (s.buffer.pc p) = some k
  · -- The claim went on from one write to the other, or another party moved.
    have hcl := claims_of_claiming hp
    have hlock := h.locked p hcl.underLock
    apply track_keep (h.claims p k hp)
    · rintro q r md rfl hr
      exact (hok hr).2.2 p hlock hcl
    · rintro q c rfl hpc
      have hpq : p = q := Option.some.inj (hlock.symm.trans (h.locked q (by rw [hpc]; rfl)))
      rw [hpq, hpc] at hp
      cases hp
    · rintro q md i rfl hpc
      simp only [Clean, hpc] at hok
      exact absurd hcl ((hok trivial).2 p hlock)
  · obtain ⟨c, rfl, hpc, hc, hlt, hv⟩ := (claiming_step hs hk).resolve_left hp
    simp only [track, hpc, if_pos (And.intro hlt hv), setSlotLife_slotLife, Function.update_self,
      setSlotLife_life]
    exact if_pos hc

theorem Inv.track_files (h : Inv relid s) (hok : Clean relid s (.buffer a)) :
    (s.track relid a).old = [] ∨ ∃ v rest,
      (s.track relid a).new = ⟨startSegmentId, startSegmentId, v⟩ :: rest ∧
        ∀ f ∈ (s.track relid a).old,
          f.range = (startSegmentId, startSegmentId) ∧ f.version < v := by
  have hsame : ∀ {t : Lives}, t.old = s.old → t.new = s.new → (t.old = [] ∨ ∃ v rest,
      t.new = ⟨startSegmentId, startSegmentId, v⟩ :: rest ∧
        ∀ f ∈ t.old, f.range = (startSegmentId, startSegmentId) ∧ f.version < v) := by
    intro t ho hn
    rw [ho, hn]
    exact h.files
  cases a with
  | createRedo q r md =>
      simp only [track]
      split
      · next hr => exact Or.inl (hok hr).1
      · exact h.files
  | backend q =>
      cases hpc : s.buffer.pc q with
      | building r md i =>
          simp only [Clean, hpc] at hok
          simp only [track, hpc]
          split
          · next hr =>
            refine Or.inr ⟨_, [], rfl, fun f hf => ⟨hok hr f hf, ?_⟩⟩
            have hv := lt_latestVersion hf
            obtain ⟨h₁, h₂⟩ := Prod.mk.inj (hok hr f hf)
            rwa [h₁, h₂] at hv
          · exact h.files
      | claim | buildRelId =>
          simp only [track, hpc]
          split <;> exact hsame rfl rfl
      | _ =>
          simp only [track, hpc]
          exact h.files
  | worker =>
      simp only [track]
      split
      · split <;> exact hsame rfl rfl
      · exact h.files
  | _ => exact h.files

theorem Inv.step (h : Inv relid s) {a : Action} (hok : Clean relid s a)
    (hs : step relid s a = some s') : Inv relid s' := by
  have happend : ∀ i : SegmentFileInfo, s.old = [] ∨ ∃ v rest,
      s.new ++ [i] = ⟨startSegmentId, startSegmentId, v⟩ :: rest ∧
        ∀ f ∈ s.old, f.range = (startSegmentId, startSegmentId) ∧ f.version < v := by
    intro i
    rcases h.files with hold | ⟨v, rest, hnew, hold⟩
    · exact Or.inl hold
    · exact Or.inr ⟨v, rest ++ [i], by rw [hnew, List.cons_append], hold⟩
  cases a with
  | buffer a =>
      obtain ⟨b', hb, rfl⟩ := Option.map_eq_some_iff.mp hs
      exact ⟨h.locked.step hb, h.track_files hok, fun p k hk => h.track_claims hok hb hk,
        fun k hk => h.track_slots hok hb hk⟩
  | redoAgain q r md =>
      obtain ⟨b', hb, rfl⟩ := Option.map_eq_some_iff.mp hs
      refine ⟨h.locked.step hb, h.files, fun p k hk => ?_, fun k hk => ?_⟩
      · rcases claiming_step hb hk with hk | ⟨c, ha, -⟩
        · exact h.claims p k hk
        · cases ha
      · rcases step_shows hb hk with hk | he | ⟨p, ha, -⟩
        · exact h.slots k hk
        · cases he
        · cases ha
  | flush lo hi =>
      cases hs
      exact ⟨h.locked, happend _, h.claims, h.slots⟩
  | fetch i =>
      cases hs
      exact ⟨h.locked, happend i, h.claims, h.slots⟩
  | restart =>
      cases hs
      refine ⟨?_, h.files, ?_, ?_⟩
      · rintro p ⟨⟩
      · rintro p k ⟨⟩
      · intro k hk
        exact absurd rfl hk.2.1

theorem Init.inv (h : Init s) : Inv relid s where
  locked := h.buffer.locked
  files := Or.inl h.old
  claims := by
    intro p k hk
    rw [h.buffer.pc p] at hk
    cases hk
  slots := fun k hk => absurd (h.buffer.slots k) hk.2.1

end Step

/-- A server that finds some files in the directory. -/
def demoLives (files : List SegmentFileInfo) : Lives where
  buffer := demoInit
  old := []
  new := files
  life := 0
  slotLife := fun _ => none

theorem init_demoLives (files : List SegmentFileInfo) : Init (demoLives files) :=
  ⟨init_demoInit, rfl⟩

/-- Relation 7 is built over an initial segment, a memtable is flushed, and the server restarts
and recovers the index. -/
def rebuildRun : List Action :=
  (buildRun 7 0).map .buffer ++ [.flush 4 4, .restart] ++ recoverRun.map .buffer

end Lives

end IndexBuffer

end VectorLsm
