import VectorLsm.DeleteCounts.Machine

/-! # The second step of recovery

`recover_lsm_index_internal` walks down the segments on disk with one cursor and down the ids of
the status array with another one. The ids behind the second cursor lie above every segment that
is left, so the inner search, which starts at it, misses none of them.
-/

namespace VectorLsm.Recovery

variable {files : List SegmentFile} {sids : List SegmentId} {status : SegmentId → List Tid}

/-- How many entries of the offset table are for `sid`. -/
def entries (f : SegmentFile) (sid : SegmentId) : ℕ := (f.offsets.map (·.sid)).count sid

/-- The locals of the loop. -/
structure Walk where
  /-- `f_idx + 1`. -/
  filesLeft : ℕ
  /-- `s_idx`. -/
  sIdx : ℕ
  /-- The segments with their latest bitmaps. -/
  files : List SegmentFile
  /-- History: the segments and ids whose rows were looked up in the status pages. -/
  visited : List (ℕ × SegmentId)

namespace Walk

variable (sids : List SegmentId) (status : SegmentId → List Tid)

/-- The bitmap with the rows that are not in the status pages, where it has changed. -/
def markSegment (sIdx : ℕ) (f : SegmentFile) : SegmentFile :=
  ((DeleteCounts.BitmapWriter.missing (sids.drop sIdx) status).run f).getD f

/-- The pass over the offset table of segment `k`; `sids` is searched from `s_idx` on. -/
def process (w : Walk) (k : ℕ) (f : SegmentFile) : Walk where
  filesLeft := k
  sIdx := w.sIdx
  files := w.files.modify k (markSegment sids status w.sIdx)
  visited := w.visited ++
    ((f.offsets.map (·.sid)).filter (· ∈ sids.drop w.sIdx)).map fun sid => (k, sid)

/-- One turn of the loop; `none` where its condition fails. -/
def turn (w : Walk) : Option Walk :=
  match w.filesLeft with
  | 0 => none
  | k + 1 =>
      match w.files[k]?, sids[w.sIdx]? with
      | some f, some sid =>
          if f.endSid < sid then some { w with sIdx := w.sIdx + 1 }
          else if f.startSid ≤ sid ∧ sid ≤ f.endSid then some (w.process sids status k f)
          else some { w with filesLeft := k }
      | _, _ => none

/-- At most `fuel` turns; `none` if the loop has not ended by then. -/
def loop : ℕ → Walk → Option Walk
  | 0, _ => none
  | fuel + 1, w =>
      match w.turn sids status with
      | none => some w
      | some w' => loop fuel w'

end Walk

/-- Before the first turn. -/
def walkStart (files : List SegmentFile) : Walk := ⟨files.length, 0, files, []⟩

/-- "Recovery step 2". -/
def recoveryStep2 (files : List SegmentFile) (sids : List SegmentId)
    (status : SegmentId → List Tid) : Option Walk :=
  match files.getLast?, sids.getLast? with
  | some last, some least =>
      if least ≤ last.endSid then
        (walkStart files).loop sids status (files.length + sids.length + 1)
      else some (walkStart files)
  | _, _ => some (walkStart files)

/-- Every pair of a segment and a listed id in its range is met once for each entry that the
offset table has for the id. -/
def VisitsEachPair (files : List SegmentFile) (sids : List SegmentId)
    (visited : List (ℕ × SegmentId)) : Prop :=
  ∀ i f sid, files[i]? = some f → f.startSid ≤ sid → sid ≤ f.endSid →
    visited.count (i, sid) = if sid ∈ sids then entries f sid else 0

namespace Walk

variable {w w' : Walk}

/-- What a turn can do. -/
theorem turn_cases (h : w.turn sids status = some w') : ∃ k f sid, w.filesLeft = k + 1 ∧
    w.files[k]? = some f ∧ sids[w.sIdx]? = some sid ∧
      (f.endSid < sid ∧ w' = { w with sIdx := w.sIdx + 1 } ∨
        f.startSid ≤ sid ∧ sid ≤ f.endSid ∧ w' = w.process sids status k f ∨
        sid < f.startSid ∧ w' = { w with filesLeft := k }) := by
  unfold turn at h
  split at h
  case h_1 => cases h
  case h_2 k hk =>
    split at h
    case h_1 f sid hf hsid =>
      refine ⟨k, f, sid, hk, hf, hsid, ?_⟩
      split at h
      case isTrue hlt => exact .inl ⟨hlt, (Option.some.inj h).symm⟩
      case isFalse hlt =>
        split at h
        case isTrue hin => exact .inr (.inl ⟨hin.1, hin.2, (Option.some.inj h).symm⟩)
        case isFalse hout => exact .inr (.inr ⟨by lia, (Option.some.inj h).symm⟩)
    case h_2 => cases h

/-- The turns that are left at most. -/
def rest (sids : List SegmentId) (w : Walk) : ℕ := w.filesLeft + (sids.length - w.sIdx)

theorem rest_turn (h : w.turn sids status = some w') : w'.rest sids < w.rest sids := by
  obtain ⟨k, f, sid, hk, -, hsid, hcase⟩ := turn_cases h
  have hlt : w.sIdx < sids.length := (List.getElem?_eq_some_iff.mp hsid).1
  unfold rest
  rcases hcase with ⟨-, rfl⟩ | ⟨-, -, rfl⟩ | ⟨-, rfl⟩
  · dsimp only
    omega
  · dsimp only [process]
    omega
  · dsimp only
    omega

/-- With a turn for each step of a cursor the loop ends, and what every turn keeps holds then. -/
theorem loop_rule {P : Walk → Prop} (hstep : ∀ w w', P w → w.turn sids status = some w' → P w')
    {fuel : ℕ} (hP : P w) (hfuel : w.rest sids < fuel) :
    ∃ w', w.loop sids status fuel = some w' ∧ P w' ∧ w'.turn sids status = none := by
  induction fuel generalizing w with
  | zero => omega
  | succ fuel ih =>
      unfold loop
      cases hturn : w.turn sids status with
      | none => exact ⟨w, rfl, hP, hturn⟩
      | some w' =>
          have hlt := rest_turn hturn
          exact ih (hstep w w' hP hturn) (by omega)

end Walk

/-- What the turns so far have done: the ids behind the cursor are above the segments that are
left, and the segments behind the other cursor have had all their pairs. -/
structure WalkInv (files : List SegmentFile) (sids : List SegmentId) (w : Walk) : Prop where
  left : w.filesLeft ≤ files.length
  untouched : ∀ i < w.filesLeft, w.files[i]? = files[i]?
  above : ∀ sid ∈ sids.take w.sIdx, ∀ f ∈ files.take w.filesLeft, f.endSid < sid
  visited : ∀ i f sid, files[i]? = some f → f.startSid ≤ sid → sid ≤ f.endSid →
    w.visited.count (i, sid) = if w.filesLeft ≤ i ∧ sid ∈ sids then entries f sid else 0

section Turn

variable {w w' : Walk} {i k : ℕ} {f g : SegmentFile} {sid a : SegmentId}

/-- Where a listed id can be that is not above a segment that is left. -/
theorem WalkInv.mem_drop (h : WalkInv files sids w) (hf : f ∈ files.take w.filesLeft)
    (ha : a ≤ f.endSid) : a ∈ sids.drop w.sIdx ↔ a ∈ sids := by
  refine ⟨List.mem_of_mem_drop, fun hmem => ?_⟩
  rw [← List.take_append_drop w.sIdx sids, List.mem_append] at hmem
  rcases hmem with hmem | hmem
  · have := h.above a hmem f hf
    lia
  · exact hmem

theorem mem_take_of_lt {n : ℕ} (hf : files[k]? = some f) (hlt : k < n) : f ∈ files.take n :=
  List.mem_of_getElem? ((List.getElem?_take_of_lt hlt).trans hf)

/-- The ids from a cursor on are no larger than the one at it. -/
theorem le_of_mem_drop (hs : sids.Pairwise fun a b => b < a) (hsid : sids[k]? = some sid)
    (ha : a ∈ sids.drop k) : a ≤ sid := by
  obtain ⟨hlt, rfl⟩ := List.getElem?_eq_some_iff.mp hsid
  rw [List.drop_eq_getElem_cons hlt] at ha
  rcases List.mem_cons.mp ha with rfl | ha
  · exact le_rfl
  · have hpair := hs.sublist (List.drop_sublist k sids)
    rw [List.drop_eq_getElem_cons hlt] at hpair
    exact ((List.pairwise_cons.mp hpair).1 a ha).le

theorem count_process {l : List SegmentId} {p : SegmentId → Bool} :
    ((l.filter p).map fun sid => (k, sid)).count (i, a) =
      if i = k ∧ p a then l.count a else 0 := by
  by_cases hi : i = k
  · subst hi
    rw [List.count_map_of_injective _ _ (Prod.mk_right_injective i)]
    by_cases hp : p a = true
    · rw [List.count_filter hp, if_pos ⟨rfl, hp⟩]
    · rw [if_neg fun h => hp h.2, List.count_eq_zero]
      exact fun hmem => hp (List.mem_filter.mp hmem).2
  · rw [if_neg fun h => hi h.1, List.count_eq_zero]
    rintro hmem
    obtain ⟨b, -, hb⟩ := List.mem_map.mp hmem
    exact hi (Prod.mk.inj hb).1.symm

/-- The ends of the segments up to one are no larger than its end. -/
theorem end_le_of_mem_take (hr : ∀ f ∈ files, f.startSid ≤ f.endSid)
    (hf : files.Pairwise fun a b => a.endSid < b.startSid) (hk : files[k]? = some f)
    (hg : g ∈ files.take (k + 1)) : g.endSid ≤ f.endSid := by
  obtain ⟨hlt, rfl⟩ := List.getElem?_eq_some_iff.mp hk
  rw [List.take_succ_eq_append_getElem hlt] at hg
  rcases List.mem_append.mp hg with hg | hg
  · have hpair := hf.sublist (List.take_sublist (k + 1) files)
    rw [List.take_succ_eq_append_getElem hlt] at hpair
    have := (List.pairwise_append.mp hpair).2.2 g hg files[k] (by simp)
    have := hr files[k] (List.getElem_mem hlt)
    lia
  · obtain rfl := List.mem_singleton.mp hg
    exact le_rfl

theorem WalkInv.turn (hr : ∀ f ∈ files, f.startSid ≤ f.endSid)
    (hf : files.Pairwise fun a b => a.endSid < b.startSid) (hs : sids.Pairwise fun a b => b < a)
    (h : WalkInv files sids w) (ht : w.turn sids status = some w') : WalkInv files sids w' := by
  obtain ⟨k, f, sid, hk, hwf, hsid, hcase⟩ := Walk.turn_cases ht
  have hfk : files[k]? = some f := by rw [← h.untouched k (by omega), hwf]
  have hlast : f ∈ files.take w.filesLeft := mem_take_of_lt hfk (by omega)
  have htake : ∀ g ∈ files.take k, g ∈ files.take w.filesLeft := by
    rw [hk]
    exact fun g hg => (List.take_sublist_take_left (Nat.le_succ k)).subset hg
  rcases hcase with ⟨hlt, rfl⟩ | ⟨hlo, hhi, rfl⟩ | ⟨hlt, rfl⟩
  -- the id is above the last segment that is left, and so above all of them
  · refine ⟨h.left, h.untouched, fun a ha g hg => ?_, h.visited⟩
    dsimp only at ha hg
    obtain ⟨hidx, rfl⟩ := List.getElem?_eq_some_iff.mp hsid
    rw [List.take_succ_eq_append_getElem hidx, List.mem_append, List.mem_singleton] at ha
    rcases ha with ha | rfl
    · exact h.above a ha g hg
    · rw [hk] at hg
      exact (end_le_of_mem_take hr hf hfk hg).trans_lt hlt
  · refine ⟨by dsimp only [Walk.process]; have := h.left; omega, fun i hi => ?_,
      fun a ha g hg => h.above a ha g (htake g hg), fun i g a hg hlo' hhi' => ?_⟩
    · dsimp only [Walk.process] at hi ⊢
      rw [List.getElem?_modify_ne _ _ (show k ≠ i by omega)]
      exact h.untouched i (by omega)
    · dsimp only [Walk.process]
      rw [List.count_append, h.visited i g a hg hlo' hhi', count_process]
      rcases eq_or_ne i k with rfl | hne
      · obtain rfl : f = g := Option.some.inj (hfk.symm.trans hg)
        simp only [hk, h.mem_drop hlast hhi', decide_eq_true_eq, le_refl, true_and]
        rw [if_neg (by omega), Nat.zero_add]
        rfl
      · rw [if_neg (c := i = k ∧ _) fun h => hne h.1, Nat.add_zero]
        exact if_congr (and_congr_left fun _ => by omega) rfl rfl
  -- no listed id is in the range of the segment
  · refine ⟨by dsimp only; have := h.left; omega, fun i hi => h.untouched i (by
      dsimp only at hi; omega), fun a ha g hg => h.above a ha g (htake g hg),
      fun i g a hg hlo hhi => ?_⟩
    rw [h.visited i g a hg hlo hhi]
    dsimp only
    rcases eq_or_ne i k with rfl | hne
    · obtain rfl : f = g := Option.some.inj (hfk.symm.trans hg)
      have hout : a ∉ sids := by
        rw [← h.mem_drop hlast hhi]
        intro ha
        have := le_of_mem_drop hs hsid ha
        lia
      rw [if_neg fun h => hout h.2, if_neg fun h => hout h.2]
    · exact if_congr (and_congr_left fun _ => by omega) rfl rfl

/-- When the loop ends, the listed ids are above every segment that is left. -/
theorem WalkInv.endSid_lt (h : WalkInv files sids w) (ht : w.turn sids status = none)
    (hf : files[i]? = some f) (hi : i < w.filesLeft) (hmem : sid ∈ sids) : f.endSid < sid := by
  obtain ⟨k, hk⟩ := Nat.exists_eq_succ_of_ne_zero (show w.filesLeft ≠ 0 by omega)
  have hkf : w.files[k]? = files[k]? := h.untouched k (by omega)
  have hki : k < files.length := by
    have := h.left
    omega
  have hidx : sids.length ≤ w.sIdx := by
    by_contra hidx
    unfold Walk.turn at ht
    simp only [hk, hkf, List.getElem?_eq_getElem hki,
      List.getElem?_eq_getElem (Nat.lt_of_not_le hidx)] at ht
    split_ifs at ht
  exact h.above sid (by rwa [List.take_of_length_le hidx]) f (mem_take_of_lt hf hi)

/-- Every segment has had all its pairs then. -/
theorem WalkInv.visitsEachPair (h : WalkInv files sids w) (ht : w.turn sids status = none) :
    VisitsEachPair files sids w.visited := by
  intro i f sid hf hlo hhi
  rw [h.visited i f sid hf hlo hhi]
  refine if_congr (and_iff_right_of_imp fun hmem => ?_) rfl rfl
  by_contra hlt
  have := h.endSid_lt ht hf (Nat.lt_of_not_le hlt) hmem
  lia

theorem walkInv_start : WalkInv files sids (walkStart files) where
  left := le_rfl
  untouched := fun _ _ => rfl
  above := by simp [walkStart]
  visited := by
    intro i f sid hf _ _
    have hlt := (List.getElem?_eq_some_iff.mp hf).1
    rw [if_neg fun h => by simp only [walkStart] at h; omega]
    rfl

end Turn

/-- No segment has a listed id in its range. -/
def NoPair (files : List SegmentFile) (sids : List SegmentId) : Prop :=
  ∀ f ∈ files, ∀ sid ∈ sids, f.startSid ≤ sid → f.endSid < sid

theorem NoPair.visitsEachPair (h : NoPair files sids) : VisitsEachPair files sids [] := by
  intro i f sid hf hlo hhi
  have hout : sid ∉ sids := fun hmem => by
    have := h f (List.mem_of_getElem? hf) sid hmem hlo
    lia
  rw [if_neg hout]
  rfl

theorem noPair_of_lt {last : SegmentFile} {least : SegmentId}
    (hr : ∀ f ∈ files, f.startSid ≤ f.endSid)
    (hf : files.Pairwise fun a b => a.endSid < b.startSid) (hs : sids.Pairwise fun a b => b < a)
    (hlast : files.getLast? = some last) (hleast : sids.getLast? = some least)
    (hlt : last.endSid < least) : NoPair files sids := by
  intro f hmem sid hsid _
  obtain ⟨xs, rfl⟩ := List.getLast?_eq_some_iff.mp hlast
  obtain ⟨ys, rfl⟩ := List.getLast?_eq_some_iff.mp hleast
  have hend : f.endSid ≤ last.endSid := by
    rcases List.mem_append.mp hmem with hmem | hmem
    · have := (List.pairwise_append.mp hf).2.2 f hmem last (by simp)
      have := hr last (by simp)
      lia
    · exact (congrArg SegmentFile.endSid (List.mem_singleton.mp hmem)).le
  have hle : least ≤ sid := by
    rcases List.mem_append.mp hsid with hsid | hsid
    · exact ((List.pairwise_append.mp hs).2.2 sid hsid least (by simp)).le
    · exact (List.mem_singleton.mp hsid).ge
  lia

/-- The step ends. What every turn keeps holds then, and either the loop has run to its end or
there was no pair to visit. -/
theorem recoveryStep2_rule {P : Walk → Prop} (hr : ∀ f ∈ files, f.startSid ≤ f.endSid)
    (hf : files.Pairwise fun a b => a.endSid < b.startSid) (hs : sids.Pairwise fun a b => b < a)
    (hstart : P (walkStart files))
    (hstep : ∀ w w', P w → w.turn sids status = some w' → P w') :
    ∃ w, recoveryStep2 files sids status = some w ∧ P w ∧
      (w.turn sids status = none ∨ w = walkStart files ∧ NoPair files sids) := by
  unfold recoveryStep2
  split
  case h_1 last least hlast hleast =>
    split
    case isTrue =>
      have hrest : (walkStart files).rest sids < files.length + sids.length + 1 := by
        simp only [Walk.rest, walkStart]
        omega
      obtain ⟨w, hw, hP, hend⟩ := Walk.loop_rule hstep hstart hrest
      exact ⟨w, hw, hP, .inl hend⟩
    case isFalse hout =>
      exact ⟨_, rfl, hstart, .inr ⟨rfl, noPair_of_lt hr hf hs hlast hleast (by lia)⟩⟩
  case h_2 hnone =>
    refine ⟨_, rfl, hstart, .inr ⟨rfl, fun f hmem sid hsid _ => ?_⟩⟩
    exact (hnone _ _ (List.getLast?_eq_some_getLast (List.ne_nil_of_mem hmem))
      (List.getLast?_eq_some_getLast (List.ne_nil_of_mem hsid))).elim

section Demo

/-- A merged segment, and one behind a gap. -/
def demoSegments : List SegmentFile :=
  [(SegmentFile.flush 4 [10, 11] (fun _ => false) 1).merge (.flush 5 [12] (fun _ => false) 1) 1,
    .flush 8 [13] (fun _ => false) 1]

example : (recoveryStep2 demoSegments [9, 8, 7, 5, 4] fun _ => [10, 12, 13]).map (·.visited) =
    some [(1, 8), (0, 4), (0, 5)] := by decide

end Demo

/-- The table of a segment that descends from memtables has one entry for each id. -/
theorem VisitsEachPair.once {visited : List (ℕ × SegmentId)} {tids : SegmentId → List Tid} {i : ℕ}
    {f : SegmentFile} {sid : SegmentId} (h : VisitsEachPair files sids visited)
    (hf : files[i]? = some f) (hd : f.Descends tids) (hlo : f.startSid ≤ sid)
    (hhi : sid ≤ f.endSid) (hsid : sid ∈ sids) : visited.count (i, sid) = 1 := by
  rw [h i f sid hf hlo hhi, if_pos hsid, entries]
  refine List.count_eq_one_of_mem hd.nodup ?_
  obtain ⟨o, ho, rfl⟩ := hd.exists_offset hlo hhi
  exact List.mem_map_of_mem ho

section Marks

variable {f : SegmentFile} {k : ℕ}

/-- The table has no listed id outside the range of the segment. -/
def InRange (sids : List SegmentId) (f : SegmentFile) : Prop :=
  ∀ o ∈ f.offsets, o.sid ∈ sids → f.startSid ≤ o.sid ∧ o.sid ≤ f.endSid

theorem markSegment_eq (sids : List SegmentId) (status : SegmentId → List Tid) (k : ℕ)
    (f : SegmentFile) : Walk.markSegment sids status k f =
      if (f.markMissing (sids.drop k) status).applied = f.deleteCount then f
      else f.setBitmap (f.markMissing (sids.drop k) status).bitmap
        (f.markMissing (sids.drop k) status).applied := by
  unfold Walk.markSegment
  dsimp only [DeleteCounts.BitmapWriter.run]
  split
  · rfl
  · rfl

theorem markSegment_congr (h : ∀ o ∈ f.offsets, o.sid ∈ sids.drop k ↔ o.sid ∈ sids) :
    Walk.markSegment sids status k f = Walk.markSegment sids status 0 f := by
  have hmark : f.markMissing (sids.drop k) status = f.markMissing sids status := by
    unfold SegmentFile.markMissing
    refine List.foldl_ext _ _ _ fun s o ho => ?_
    simp only [h o ho]
  rw [markSegment_eq, markSegment_eq, hmark, List.drop_zero]

/-- A segment without a listed id stays as it is. -/
theorem markSegment_eq_self (h : ∀ o ∈ f.offsets, o.sid ∉ sids) :
    Walk.markSegment sids status 0 f = f := by
  have hmark : f.markMissing sids status = ⟨f.bitmap, f.deleteCount⟩ := by
    unfold SegmentFile.markMissing
    refine (List.foldl_ext _ (fun s _ => s) _ fun s o ho => ?_).trans (List.foldl_fixed _)
    rw [if_neg (h o ho)]
  rw [markSegment_eq, List.drop_zero, hmark, if_pos rfl]

/-- The segments behind the cursor have their new bitmaps. -/
def Marked (files : List SegmentFile) (sids : List SegmentId) (status : SegmentId → List Tid)
    (w : Walk) : Prop :=
  ∀ i, w.filesLeft ≤ i → w.files[i]? = files[i]?.map (Walk.markSegment sids status 0)

variable {w w' : Walk}

theorem marked_start : Marked files sids status (walkStart files) := by
  intro i hi
  have hnone : files[i]? = none := List.getElem?_eq_none hi
  rw [hnone]
  exact hnone

theorem Marked.turn (hin : ∀ f ∈ files, InRange sids f) (hs : sids.Pairwise fun a b => b < a)
    (hi : WalkInv files sids w) (h : Marked files sids status w)
    (ht : w.turn sids status = some w') : Marked files sids status w' := by
  obtain ⟨k, f, sid, hk, hwf, hsid, hcase⟩ := Walk.turn_cases ht
  have hfk : files[k]? = some f := by rw [← hi.untouched k (by omega), hwf]
  have hlast : f ∈ files.take w.filesLeft := mem_take_of_lt hfk (by omega)
  have hrange := hin f (List.mem_of_getElem? hfk)
  have hdrop : ∀ o ∈ f.offsets, o.sid ∈ sids.drop w.sIdx ↔ o.sid ∈ sids := fun o ho =>
    ⟨List.mem_of_mem_drop, fun hmem => (hi.mem_drop hlast (hrange o ho hmem).2).mpr hmem⟩
  rcases hcase with ⟨-, rfl⟩ | ⟨-, -, rfl⟩ | ⟨hlt, rfl⟩
  · exact h
  · intro i hki
    dsimp only [Walk.process] at hki ⊢
    rcases eq_or_ne i k with rfl | hne
    · rw [List.getElem?_modify_eq, hwf, hfk]
      exact congrArg some (markSegment_congr hdrop)
    · rw [List.getElem?_modify_ne _ _ hne.symm]
      exact h i (by omega)
  · intro i hki
    dsimp only at hki ⊢
    rcases eq_or_ne i k with rfl | hne
    · have hself : Walk.markSegment sids status 0 f = f := markSegment_eq_self fun o ho hmem => by
        have := (hrange o ho hmem).1
        have := le_of_mem_drop hs hsid ((hdrop o ho).mpr hmem)
        lia
      rw [hwf, hfk, Option.map_some, hself]
    · exact h i (by omega)

/-- Where the segments' tables have listed ids in range only, the step masks in every segment the
rows of the listed ids that are not in the status pages. -/
theorem recoveryStep2_files (status : SegmentId → List Tid)
    (hr : ∀ f ∈ files, f.startSid ≤ f.endSid)
    (hf : files.Pairwise fun a b => a.endSid < b.startSid) (hs : sids.Pairwise fun a b => b < a)
    (hin : ∀ f ∈ files, InRange sids f) : ∃ w, recoveryStep2 files sids status = some w ∧
      w.files = files.map (Walk.markSegment sids status 0) := by
  obtain ⟨w, hw, ⟨hinv, hmarked⟩, hend⟩ := recoveryStep2_rule
    (P := fun w => WalkInv files sids w ∧ Marked files sids status w) hr hf hs
    ⟨walkInv_start, marked_start⟩
    fun w w' h ht => ⟨h.1.turn hr hf hs ht, h.2.turn hin hs h.1 ht⟩
  refine ⟨w, hw, List.ext_getElem? fun i => ?_⟩
  rw [List.getElem?_map]
  rcases Nat.lt_or_ge i w.filesLeft with hlt | hge
  -- nothing is listed in a segment that is left
  · rw [hinv.untouched i hlt]
    cases hfi : files[i]? with
    | none => rfl
    | some f =>
        have hself : Walk.markSegment sids status 0 f = f := markSegment_eq_self fun o ho hmem => by
          obtain ⟨hlo, hhi⟩ := hin f (List.mem_of_getElem? hfi) o ho hmem
          rcases hend with hend | ⟨-, hout⟩
          · have := hinv.endSid_lt hend hfi hlt hmem
            lia
          · have := hout f (List.mem_of_getElem? hfi) o.sid hmem hlo
            lia
        rw [Option.map_some, hself]
  · exact hmarked i hge

end Marks

end VectorLsm.Recovery
