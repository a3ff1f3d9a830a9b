import VectorLsm.Lib.LittleEndian

/-! # The trailer of an adoption task

The deletions that are known of the memtables an adoption covers travel behind the task in its
shared memory segment, as groups of variable length. The worker reads them in two passes, of
which only the first checks bounds.
-/

namespace VectorLsm.Trailer

open LittleEndian

/-- The deletions of one memtable. -/
structure DpvVacuumGroup where
  sid : UInt32
  nTids : UInt32
  tids : List Int64
  length_tids : tids.length = nTids.toNat
  deriving DecidableEq

/-- The shared memory behind the fixed part of the task, and the byte length that the task
declares for it. -/
structure TaskSeg where
  bytes : List UInt8
  deletionTidsCount : UInt32

/-! ## The sender -/

def sizeofUint32 : ℕ := 4

def sizeofTid : ℕ := 8

def uint32Bytes (n : UInt32) : List UInt8 := LittleEndian.bytes sizeofUint32 n.toNat

def tidBytes (tid : Int64) : List UInt8 := LittleEndian.bytes sizeofTid tid.toUInt64.toNat

def groupSize (g : DpvVacuumGroup) : ℕ := sizeofUint32 * 2 + g.nTids.toNat * sizeofTid

def groupsSize (groups : List DpvVacuumGroup) : ℕ := (groups.map groupSize).sum

def payloadSize (groups : List DpvVacuumGroup) : ℕ := sizeofUint32 + groupsSize groups

def packGroup (g : DpvVacuumGroup) : List UInt8 :=
  uint32Bytes g.sid ++ (uint32Bytes g.nTids ++ g.tids.flatMap tidBytes)

def packGroups (groups : List DpvVacuumGroup) : List UInt8 :=
  uint32Bytes (UInt32.ofNat groups.length) ++ groups.flatMap packGroup

/-- The part of `segment_update_blocking` that writes the trailer. -/
def segmentUpdateBlocking (groups : List DpvVacuumGroup) : TaskSeg :=
  ⟨packGroups groups, UInt32.ofNat (payloadSize groups)⟩

/-! ## The reader -/

inductive Fault where
  /-- A read behind the end of the trailer. -/
  | overread
  | error (msg : String)
  deriving DecidableEq, Repr

def readAt (t : List UInt8) (off n : ℕ) : Except Fault (List UInt8) :=
  if off + n ≤ t.length then .ok ((t.drop off).take n) else .error .overread

def uint32At (t : List UInt8) (off : ℕ) : Except Fault UInt32 := do
  let bs ← readAt t off sizeofUint32
  return UInt32.ofNat (value bs)

/-- The copy of a group's tids; nothing is read when there are none. -/
def copyTids (t : List UInt8) (scan n : ℕ) : Except Fault (List UInt8) :=
  if 0 < n then readAt t scan (n * sizeofTid) else .ok []

/-- An array of tids. -/
def tidsOf (n : ℕ) (bs : List UInt8) : List Int64 :=
  (List.range n).map fun k =>
    (UInt64.ofNat (value ((bs.drop (k * sizeofTid)).take sizeofTid))).toInt64

/-- The first pass counts the tids. -/
def countTids (t : List UInt8) (srcEnd : ℕ) : ℕ → ℕ → ℕ → Except Fault ℕ
  | 0, _, totalTids => return totalTids
  | g + 1, scan, totalTids =>
      if srcEnd < scan + 2 * sizeofUint32 then
        .error (.error "[submit_maintenance_task] truncated group header")
      else do
        let _sid ← uint32At t scan
        let n ← uint32At t (scan + sizeofUint32)
        let scan := scan + 2 * sizeofUint32
        if srcEnd < scan + n.toNat * sizeofTid then
          .error (.error "[submit_maintenance_task] truncated group tids")
        else countTids t srcEnd g (scan + n.toNat * sizeofTid) (totalTids + n.toNat)

/-- The second pass fills the groups. -/
def fillGroups (t : List UInt8) : ℕ → ℕ → Except Fault (List DpvVacuumGroup)
  | 0, _ => return []
  | g + 1, scan => do
      let sid ← uint32At t scan
      let n ← uint32At t (scan + sizeofUint32)
      let scan := scan + 2 * sizeofUint32
      let bs ← copyTids t scan n.toNat
      let groups ← fillGroups t g (scan + n.toNat * sizeofTid)
      return ⟨sid, n, tidsOf n.toNat bs, by simp [tidsOf]⟩ :: groups

def sizeofDpvVacuumGroup : ℕ := 16

/-- The size that is asked for the tids of all groups. -/
def tidsBufSize (totalTids : ℕ) : ℕ := if totalTids = 0 then 1 else totalTids * sizeofTid

/-- Both passes, for a trailer that declares groups. `malloc` says which sizes are to be had. -/
def readGroups (malloc : ℕ → Bool) (t : List UInt8) (srcEnd ng : ℕ) :
    Except Fault (List DpvVacuumGroup) :=
  if !malloc (ng * sizeofDpvVacuumGroup) then
    .error (.error "[submit_maintenance_task] malloc(groups) failed")
  else do
    let totalTids ← countTids t srcEnd ng sizeofUint32 0
    if !malloc (tidsBufSize totalTids) then
      .error (.error "[submit_maintenance_task] malloc(tids_buf) failed")
    else fillGroups t ng sizeofUint32

/-- The part of `submit_maintenance_task` that reads the trailer of an adoption. -/
def submitMaintenanceTask (malloc : ℕ → Bool) (t : TaskSeg) : Except Fault (List DpvVacuumGroup) :=
  if t.deletionTidsCount = 0 then return []
  else
    let payloadBytes := t.deletionTidsCount.toNat
    if payloadBytes < sizeofUint32 then
      .error (.error "[submit_maintenance_task] ADOPT trailer too short")
    else do
      let ng ← uint32At t.bytes 0
      if ng = 0 then return [] else readGroups malloc t.bytes payloadBytes ng.toNat

/-! ## Bytes -/

section Bytes

variable {t r r' : List UInt8} {off k n srcEnd scan total ng : ℕ} {g g' : DpvVacuumGroup}
  {gs gs' : List DpvVacuumGroup} {tids tids' : List Int64}

theorem uint32_ofNat_value {bs : List UInt8} (h : bs.length = sizeofUint32) :
    uint32Bytes (UInt32.ofNat (value bs)) = bs := by
  have hlt : value bs < 2 ^ 32 := by
    have := value_lt bs
    rw [h] at this
    exact this
  rw [uint32Bytes, UInt32.toNat_ofNat', Nat.mod_eq_of_lt hlt, bytes_value h]

theorem tid_ofNat_value {bs : List UInt8} (h : bs.length = sizeofTid) :
    tidBytes (UInt64.ofNat (value bs)).toInt64 = bs := by
  have hlt : value bs < 2 ^ 64 := by
    have := value_lt bs
    rw [h] at this
    exact this
  rw [tidBytes, UInt64.toUInt64_toInt64, UInt64.toNat_ofNat', Nat.mod_eq_of_lt hlt, bytes_value h]

theorem uint32Bytes_inj {a b : UInt32} (h : uint32Bytes a = uint32Bytes b) : a = b := by
  have hv := congrArg value h
  rw [uint32Bytes, uint32Bytes, value_bytes a.toNat_lt, value_bytes b.toNat_lt] at hv
  exact UInt32.toNat_inj.mp hv

theorem tidBytes_inj {a b : Int64} (h : tidBytes a = tidBytes b) : a = b := by
  have hv := congrArg value h
  rw [tidBytes, tidBytes, value_bytes a.toUInt64.toNat_lt, value_bytes b.toUInt64.toNat_lt] at hv
  exact congrArg UInt64.toInt64 (UInt64.toNat_inj.mp hv)

@[simp] theorem length_uint32Bytes (n : UInt32) : (uint32Bytes n).length = sizeofUint32 :=
  length_bytes ..

@[simp] theorem length_tidBytes (tid : Int64) : (tidBytes tid).length = sizeofTid :=
  length_bytes ..

theorem uint32Bytes_append_inj {a b : UInt32} (h : uint32Bytes a ++ r = uint32Bytes b ++ r') :
    a = b ∧ r = r' := by
  obtain ⟨hn, hr⟩ := List.append_inj h (by simp)
  exact ⟨uint32Bytes_inj hn, hr⟩

theorem length_flatMap_tidBytes (tids : List Int64) :
    (tids.flatMap tidBytes).length = tids.length * sizeofTid := by
  induction tids with
  | nil => rw [List.flatMap_nil, List.length_nil, List.length_nil, Nat.zero_mul]
  | cons tid tids ih =>
      rw [List.flatMap_cons, List.length_append, length_tidBytes, ih, List.length_cons,
        Nat.succ_mul, Nat.add_comm]

theorem tids_append_inj (hlen : tids.length = tids'.length)
    (h : tids.flatMap tidBytes ++ r = tids'.flatMap tidBytes ++ r') : tids = tids' ∧ r = r' := by
  induction tids generalizing tids' with
  | nil =>
      obtain rfl := List.length_eq_zero_iff.mp hlen.symm
      exact ⟨rfl, h⟩
  | cons tid tids ih =>
      cases tids' with
      | nil => cases hlen
      | cons tid' tids' =>
          rw [List.flatMap_cons, List.flatMap_cons, List.append_assoc, List.append_assoc] at h
          obtain ⟨htid, h⟩ := List.append_inj h (by simp)
          obtain ⟨rfl, hr⟩ := ih (Nat.succ.inj hlen) h
          exact ⟨congrArg (· :: tids) (tidBytes_inj htid), hr⟩

@[simp] theorem length_packGroup (g : DpvVacuumGroup) : (packGroup g).length = groupSize g := by
  rw [packGroup, groupSize, List.length_append, List.length_append, length_uint32Bytes,
    length_uint32Bytes, length_flatMap_tidBytes, g.length_tids]
  omega

theorem length_flatMap_packGroup (gs : List DpvVacuumGroup) :
    (gs.flatMap packGroup).length = groupsSize gs := by
  rw [List.length_flatMap, groupsSize]
  exact congrArg List.sum (List.map_congr_left fun g _ => length_packGroup g)

/-- The sender writes as many bytes as it has asked for. -/
theorem length_packGroups (gs : List DpvVacuumGroup) :
    (packGroups gs).length = payloadSize gs := by
  rw [packGroups, List.length_append, length_uint32Bytes, length_flatMap_packGroup, payloadSize]

/-- The bytes of a group tell what it is. -/
theorem packGroup_append_inj (h : packGroup g ++ r = packGroup g' ++ r') : g = g' ∧ r = r' := by
  simp only [packGroup, List.append_assoc] at h
  obtain ⟨hsid, h⟩ := uint32Bytes_append_inj h
  obtain ⟨hn, h⟩ := uint32Bytes_append_inj h
  obtain ⟨htids, hr⟩ := tids_append_inj (by rw [g.length_tids, g'.length_tids, hn]) h
  cases g
  cases g'
  simp_all

/-! ### Reading -/

/-- Four bytes that are there are those of a number. -/
theorem uint32At_ok (h : off + sizeofUint32 ≤ t.length) : ∃ n, uint32At t off = .ok n ∧
    t.drop off = uint32Bytes n ++ t.drop (off + sizeofUint32) := by
  have hlen : ((t.drop off).take sizeofUint32).length = sizeofUint32 := by
    rw [List.length_take, List.length_drop]
    omega
  refine ⟨UInt32.ofNat (value ((t.drop off).take sizeofUint32)), ?_, ?_⟩
  · rw [uint32At, readAt, if_pos h]
    rfl
  · rw [uint32_ofNat_value hlen, ← List.drop_drop, List.take_append_drop]

theorem tidsOf_succ (n : ℕ) (bs : List UInt8) : tidsOf (n + 1) bs =
    (UInt64.ofNat (value (bs.take sizeofTid))).toInt64 :: tidsOf n (bs.drop sizeofTid) := by
  rw [tidsOf, List.range_succ_eq_map, List.map_cons, List.map_map, Nat.zero_mul, List.drop_zero]
  refine congrArg (_ :: ·) (List.map_congr_left fun k _ => ?_)
  rw [Function.comp_apply, List.drop_drop, Nat.succ_mul, Nat.add_comm]

theorem tid_value_tidBytes (tid : Int64) : (UInt64.ofNat (value (tidBytes tid))).toInt64 = tid :=
  tidBytes_inj (tid_ofNat_value (length_tidBytes tid))

theorem tidsOf_eq (tids : List Int64) : tidsOf tids.length (tids.flatMap tidBytes) = tids := by
  induction tids with
  | nil => rfl
  | cons tid tids ih =>
      have hlen := length_tidBytes tid
      rw [List.length_cons, List.flatMap_cons, tidsOf_succ, ← hlen, List.take_left,
        List.drop_left, tid_value_tidBytes, ih]

theorem exists_tids {n : ℕ} {bs : List UInt8} (h : bs.length = n * sizeofTid) :
    ∃ tids : List Int64, tids.length = n ∧ tids.flatMap tidBytes = bs := by
  induction n generalizing bs with
  | zero =>
      rw [Nat.zero_mul] at h
      exact ⟨[], rfl, (List.length_eq_zero_iff.mp h).symm⟩
  | succ n ih =>
      rw [Nat.succ_mul] at h
      obtain ⟨tids, hlen, htids⟩ := ih (show (bs.drop sizeofTid).length = n * sizeofTid by
        rw [List.length_drop]
        omega)
      have hhead : (bs.take sizeofTid).length = sizeofTid := by
        rw [List.length_take]
        omega
      refine ⟨(UInt64.ofNat (value (bs.take sizeofTid))).toInt64 :: tids, by simp [hlen], ?_⟩
      rw [List.flatMap_cons, tid_ofNat_value hhead, htids, List.take_append_drop]

/-- The two numbers before the tids of a group. -/
theorem header_ok (h : off + 2 * sizeofUint32 ≤ t.length) : ∃ sid n, uint32At t off = .ok sid ∧
    uint32At t (off + sizeofUint32) = .ok n ∧
    t.drop off = uint32Bytes sid ++ (uint32Bytes n ++ t.drop (off + 2 * sizeofUint32)) := by
  obtain ⟨sid, hsid, hdrop⟩ := @uint32At_ok t off (by omega)
  obtain ⟨n, hn, hdrop'⟩ := @uint32At_ok t (off + sizeofUint32) (by omega)
  rw [Nat.add_assoc, ← Nat.two_mul] at hdrop'
  exact ⟨sid, n, hsid, hn, by rw [hdrop, hdrop']⟩

/-- Bytes that are there are those of a group, whatever they are. -/
theorem group_ok {sid m : UInt32} (hdrop : t.drop off =
      uint32Bytes sid ++ (uint32Bytes m ++ t.drop (off + 2 * sizeofUint32)))
    (hlen : off + 2 * sizeofUint32 + m.toNat * sizeofTid ≤ t.length) :
    ∃ g : DpvVacuumGroup, g.sid = sid ∧ g.nTids = m ∧
      t.drop off = packGroup g ++ t.drop (off + 2 * sizeofUint32 + m.toNat * sizeofTid) := by
  have htake : ((t.drop (off + 2 * sizeofUint32)).take (m.toNat * sizeofTid)).length =
      m.toNat * sizeofTid := by
    rw [List.length_take, List.length_drop]
    omega
  obtain ⟨tids, htids, hbytes⟩ := exists_tids htake
  have hjoin := List.take_append_drop (m.toNat * sizeofTid) (t.drop (off + 2 * sizeofUint32))
  rw [List.drop_drop, ← hbytes] at hjoin
  refine ⟨⟨sid, m, tids, htids⟩, rfl, rfl, ?_⟩
  rw [packGroup, List.append_assoc, List.append_assoc, hjoin]
  exact hdrop

/-! ### The passes -/

/-- The groups lie at an offset, before the declared end. -/
structure Packed (t : List UInt8) (srcEnd off : ℕ) (gs : List DpvVacuumGroup) : Prop where
  bytes : gs.flatMap packGroup <+: t.drop off
  le : off + groupsSize gs ≤ srcEnd

@[simp] theorem groupsSize_cons (g : DpvVacuumGroup) (gs : List DpvVacuumGroup) :
    groupsSize (g :: gs) = groupSize g + groupsSize gs := rfl

theorem append_prefix_iff {a b : List UInt8} :
    a ++ b <+: t ↔ a <+: t ∧ b <+: t.drop a.length := by
  constructor
  · rintro ⟨rest, rfl⟩
    rw [List.append_assoc, List.drop_left]
    exact ⟨List.prefix_append .., List.prefix_append ..⟩
  · rintro ⟨⟨rest, rfl⟩, hb⟩
    rw [List.drop_left] at hb
    exact (List.prefix_append_right_inj a).mpr hb

theorem packed_cons_iff : Packed t srcEnd off (g :: gs) ↔
    packGroup g <+: t.drop off ∧ Packed t srcEnd (off + groupSize g) gs := by
  have hbytes := @append_prefix_iff (t.drop off) (packGroup g) (gs.flatMap packGroup)
  rw [length_packGroup, List.drop_drop] at hbytes
  constructor
  · rintro ⟨hall, hle⟩
    rw [List.flatMap_cons, hbytes] at hall
    exact ⟨hall.1, hall.2, by rwa [groupsSize_cons, ← Nat.add_assoc] at hle⟩
  · rintro ⟨hg, hgs, hle⟩
    refine ⟨?_, by rwa [groupsSize_cons, ← Nat.add_assoc]⟩
    rw [List.flatMap_cons, hbytes]
    exact ⟨hg, hgs⟩

theorem packGroups_prefix_iff : packGroups gs <+: t.take srcEnd ↔
    uint32Bytes (UInt32.ofNat gs.length) <+: t ∧ Packed t srcEnd sizeofUint32 gs := by
  rw [List.prefix_take_iff, length_packGroups, packGroups, append_prefix_iff, length_uint32Bytes,
    and_assoc]
  exact and_congr_right fun _ => ⟨fun h => ⟨h.1, h.2⟩, fun h => ⟨h.bytes, h.le⟩⟩

/-- Every group has a header. -/
theorem length_le_groupsSize (gs : List DpvVacuumGroup) : gs.length ≤ groupsSize gs := by
  induction gs with
  | nil => exact le_rfl
  | cons g gs ih =>
      rw [groupsSize_cons, List.length_cons, Nat.add_comm]
      exact Nat.add_le_add ((by decide : 1 ≤ sizeofUint32 * 2).trans (Nat.le_add_right ..)) ih

theorem length_le_of_packed (h : Packed t srcEnd off (g :: gs)) :
    off + groupSize g ≤ srcEnd := by
  have hle := h.le
  rw [groupsSize_cons] at hle
  omega

/-- The first pass finds the groups that are there, or reports an error when there are none. -/
theorem countTids_spec (hend : srcEnd ≤ t.length) (hscan : scan ≤ srcEnd) :
    (∃ gs : List DpvVacuumGroup, gs.length = ng ∧ Packed t srcEnd scan gs ∧
      countTids t srcEnd ng scan total = .ok (total + (gs.map fun g => g.nTids.toNat).sum)) ∨
    (∃ msg, countTids t srcEnd ng scan total = .error (.error msg)) ∧
      ∀ gs : List DpvVacuumGroup, gs.length = ng → ¬ Packed t srcEnd scan gs := by
  induction ng generalizing scan total with
  | zero => exact .inl ⟨[], rfl, ⟨List.nil_prefix, hscan⟩, rfl⟩
  | succ ng ih =>
      rw [countTids]
      by_cases hhead : srcEnd < scan + 2 * sizeofUint32
      · refine .inr ⟨⟨_, if_pos hhead⟩, fun gs hlen hp => ?_⟩
        obtain ⟨g, gs, rfl⟩ := List.exists_cons_of_length_eq_add_one hlen
        have hle := length_le_of_packed hp
        unfold groupSize at hle
        omega
      rw [if_neg hhead]
      obtain ⟨sid, n, hsid, hn, hdrop⟩ := @header_ok t scan (by omega)
      simp only [hsid, hn, bind, Except.bind]
      by_cases htids : srcEnd < scan + 2 * sizeofUint32 + n.toNat * sizeofTid
      · refine .inr ⟨⟨_, if_pos htids⟩, fun gs hlen hp => ?_⟩
        obtain ⟨g, gs, rfl⟩ := List.exists_cons_of_length_eq_add_one hlen
        obtain ⟨rest, hrest⟩ := (packed_cons_iff.mp hp).1
        rw [hdrop, packGroup, List.append_assoc, List.append_assoc] at hrest
        obtain ⟨-, hrest⟩ := uint32Bytes_append_inj hrest
        obtain ⟨rfl, -⟩ := uint32Bytes_append_inj hrest
        have hle := length_le_of_packed hp
        unfold groupSize at hle
        omega
      rw [if_neg htids]
      obtain ⟨g, -, rfl, hg⟩ := group_ok hdrop (by omega)
      have hsize : scan + groupSize g =
          scan + 2 * sizeofUint32 + g.nTids.toNat * sizeofTid := by
        unfold groupSize
        omega
      rw [← hsize] at hg htids ⊢
      rcases @ih (scan + groupSize g) (total + g.nTids.toNat) (by omega) with
        ⟨gs, hlen, hp, hcount⟩ | ⟨⟨msg, herr⟩, hnone⟩
      · refine .inl ⟨g :: gs, congrArg Nat.succ hlen, packed_cons_iff.mpr ⟨⟨_, hg.symm⟩, hp⟩, ?_⟩
        rw [hcount, List.map_cons, List.sum_cons, Nat.add_assoc]
      · refine .inr ⟨⟨msg, herr⟩, fun gs hlen hp => ?_⟩
        obtain ⟨g', gs, rfl⟩ := List.exists_cons_of_length_eq_add_one hlen
        obtain ⟨⟨rest, hrest⟩, hp⟩ := packed_cons_iff.mp hp
        obtain ⟨rfl, -⟩ := packGroup_append_inj (hrest.trans hg)
        exact hnone gs (Nat.succ.inj hlen) hp

/-- The second pass reads what the first has found. -/
theorem fillGroups_of_packed (hend : srcEnd ≤ t.length) (h : Packed t srcEnd scan gs) :
    fillGroups t gs.length scan = .ok gs := by
  induction gs generalizing scan with
  | nil => rfl
  | cons g gs ih =>
      have hle := length_le_of_packed h
      obtain ⟨⟨rest, hrest⟩, hp⟩ := packed_cons_iff.mp h
      have hsize : scan + groupSize g =
          scan + 2 * sizeofUint32 + g.nTids.toNat * sizeofTid := by
        unfold groupSize
        omega
      obtain ⟨sid, n, hsid, hn, hdrop⟩ := @header_ok t scan (by omega)
      rw [packGroup, List.append_assoc, List.append_assoc, hdrop] at hrest
      obtain ⟨hsid', hrest⟩ := uint32Bytes_append_inj hrest
      obtain ⟨hn', hrest⟩ := uint32Bytes_append_inj hrest
      have htids : (t.drop (scan + 2 * sizeofUint32)).take (g.nTids.toNat * sizeofTid) =
          g.tids.flatMap tidBytes := by
        rw [← hrest, ← g.length_tids, ← length_flatMap_tidBytes, List.take_left]
      have hcopy : copyTids t (scan + 2 * sizeofUint32) g.nTids.toNat =
          .ok (g.tids.flatMap tidBytes) := by
        unfold copyTids
        split
        case isTrue => rw [readAt, if_pos (by omega), htids]
        case isFalse hzero =>
          have hnil : g.tids = [] := by
            rw [← List.length_eq_zero_iff, g.length_tids]
            omega
          rw [hnil]
          rfl
      have hof : tidsOf g.nTids.toNat (g.tids.flatMap tidBytes) = g.tids := by
        rw [← g.length_tids, tidsOf_eq]
      rw [List.length_cons, fillGroups]
      simp only [hsid, hn, ← hsid', ← hn', hcopy, ← hsize, ih hp, hof, bind, Except.bind, pure,
        Except.pure]

/-- Both passes return the groups that are there. -/
theorem readGroups_spec (hend : srcEnd ≤ t.length) (hscan : sizeofUint32 ≤ srcEnd) :
    (∃ gs : List DpvVacuumGroup, gs.length = ng ∧ Packed t srcEnd sizeofUint32 gs ∧
      ∀ malloc, (readGroups malloc t srcEnd ng = .ok gs ∨
          ∃ msg, readGroups malloc t srcEnd ng = .error (.error msg)) ∧
        ((∀ n, malloc n = true) → readGroups malloc t srcEnd ng = .ok gs)) ∨
    (∀ malloc, ∃ msg, readGroups malloc t srcEnd ng = .error (.error msg)) ∧
      ∀ gs : List DpvVacuumGroup, gs.length = ng → ¬ Packed t srcEnd sizeofUint32 gs := by
  rcases @countTids_spec t srcEnd sizeofUint32 0 ng hend hscan with
    ⟨gs, hlen, hp, hcount⟩ | ⟨⟨msg, herr⟩, hnone⟩
  · have hfill := fillGroups_of_packed hend hp
    rw [hlen] at hfill
    refine .inl ⟨gs, hlen, hp, fun malloc => ⟨?_, fun hmalloc => ?_⟩⟩
    · unfold readGroups
      rw [hcount, hfill]
      split
      case isTrue => exact .inr ⟨_, rfl⟩
      case isFalse =>
        simp only [bind, Except.bind]
        split
        case isTrue => exact .inr ⟨_, rfl⟩
        case isFalse => exact .inl rfl
    · unfold readGroups
      rw [hcount, hfill]
      simp [hmalloc, bind, Except.bind]
  · refine .inr ⟨fun malloc => ?_, hnone⟩
    unfold readGroups
    rw [herr]
    split
    case isTrue => exact ⟨_, rfl⟩
    case isFalse => exact ⟨msg, rfl⟩

end Bytes

/-! ## Reading what was sent -/

section Trips

variable {malloc : ℕ → Bool} {t : TaskSeg} {gs : List DpvVacuumGroup}

/-- The counts of the trailer fit its byte length: it begins with groups as a sender packs them. -/
def TaskSeg.Fits (t : TaskSeg) : Prop :=
  t.deletionTidsCount = 0 ∨ ∃ gs, packGroups gs <+: t.bytes.take t.deletionTidsCount.toNat

def Rejects (malloc : ℕ → Bool) (t : TaskSeg) : Prop :=
  ∃ msg, submitMaintenanceTask malloc t = .error (.error msg)

/-- The groups are what the trailer holds. -/
def TaskSeg.Holds (t : TaskSeg) (gs : List DpvVacuumGroup) : Prop :=
  t.deletionTidsCount = 0 ∧ gs = [] ∨ packGroups gs <+: t.bytes.take t.deletionTidsCount.toNat

/-- What comes of reading a trailer that declares no more than there is. -/
theorem submitMaintenanceTask_spec (hend : t.deletionTidsCount.toNat ≤ t.bytes.length) :
    (∃ gs, t.Holds gs ∧ ∀ malloc, (submitMaintenanceTask malloc t = .ok gs ∨ Rejects malloc t) ∧
      ((∀ n, malloc n = true) → submitMaintenanceTask malloc t = .ok gs)) ∨
    ¬ t.Fits ∧ ∀ malloc, Rejects malloc t := by
  by_cases hzero : t.deletionTidsCount = 0
  · refine .inl ⟨[], .inl ⟨hzero, rfl⟩, fun malloc => ?_⟩
    have hok : submitMaintenanceTask malloc t = .ok [] := if_pos hzero
    exact ⟨.inl hok, fun _ => hok⟩
  by_cases hshort : t.deletionTidsCount.toNat < sizeofUint32
  · refine .inr ⟨?_, fun malloc => ?_⟩
    · rintro (h | ⟨gs, hgs⟩)
      · exact hzero h
      · have hlen := hgs.length_le
        rw [length_packGroups, List.length_take, payloadSize] at hlen
        omega
    · exact ⟨_, by rw [submitMaintenanceTask, if_neg hzero]; exact if_pos hshort⟩
  obtain ⟨ng, hng, hdrop⟩ := @uint32At_ok t.bytes 0 (by omega)
  rw [List.drop_zero] at hdrop
  have hfirst : uint32Bytes ng <+: t.bytes := ⟨_, hdrop.symm⟩
  have hread (malloc : ℕ → Bool) : submitMaintenanceTask malloc t =
      if ng = 0 then .ok [] else readGroups malloc t.bytes t.deletionTidsCount.toNat ng.toNat := by
    unfold submitMaintenanceTask
    simp only [if_neg hzero, if_neg hshort, hng, bind, Except.bind, pure, Except.pure]
  by_cases hng0 : ng = 0
  · refine .inl ⟨[], .inr (packGroups_prefix_iff.mpr ⟨?_, ?_⟩), fun malloc => ?_⟩
    · rwa [hng0] at hfirst
    · exact ⟨List.nil_prefix, by simpa [groupsSize] using hshort⟩
    · have hok := (hread malloc).trans (if_pos hng0)
      exact ⟨.inl hok, fun _ => hok⟩
  simp only [if_neg hng0] at hread
  rcases @readGroups_spec t.bytes t.deletionTidsCount.toNat ng.toNat hend (by omega) with
    ⟨gs, hlen, hp, hgs⟩ | ⟨herr, hnone⟩
  · refine .inl ⟨gs, .inr (packGroups_prefix_iff.mpr ⟨?_, hp⟩), fun malloc => ?_⟩
    · rwa [hlen, UInt32.ofNat_toNat]
    · rw [Rejects, hread]
      exact hgs malloc
  · refine .inr ⟨?_, fun malloc => ?_⟩
    · rintro (h | ⟨gs, hgs⟩)
      · exact hzero h
      obtain ⟨⟨rest, hrest⟩, hp⟩ := packGroups_prefix_iff.mp hgs
      rw [hdrop] at hrest
      obtain ⟨hn, -⟩ := uint32Bytes_append_inj hrest
      refine hnone gs ?_ hp
      have hle := (length_le_groupsSize gs).trans ((Nat.le_add_left ..).trans hp.le)
      rw [← hn, UInt32.toNat_ofNat',
        Nat.mod_eq_of_lt (hle.trans_lt t.deletionTidsCount.toNat_lt)]
    · rw [Rejects, hread]
      exact herr malloc

theorem length_lt_of_holds (h : t.Holds gs) : gs.length < 2 ^ 32 := by
  rcases h with ⟨-, rfl⟩ | h
  · decide
  · have hle := (packGroups_prefix_iff.mp h).2.le
    have hlen := length_le_groupsSize gs
    exact (hlen.trans ((Nat.le_add_left ..).trans hle)).trans_lt t.deletionTidsCount.toNat_lt

/-- A trailer holds one list of groups. -/
theorem holds_unique {gs' : List DpvVacuumGroup}
    (hend : t.deletionTidsCount.toNat ≤ t.bytes.length) (h : t.Holds gs) (h' : t.Holds gs') :
    gs = gs' := by
  have hempty {gs : List DpvVacuumGroup} (hzero : t.deletionTidsCount = 0)
      (hgs : packGroups gs <+: t.bytes.take t.deletionTidsCount.toNat) : False := by
    have hlen := hgs.length_le
    rw [hzero, length_packGroups, payloadSize, UInt32.toNat_zero, List.take_zero] at hlen
    exact absurd hlen (by simp [sizeofUint32])
  have hlt := length_lt_of_holds h
  have hlt' := length_lt_of_holds h'
  rcases h with ⟨hzero, rfl⟩ | h
  · rcases h' with ⟨-, rfl⟩ | h'
    · rfl
    · exact (hempty hzero h').elim
  rcases h' with ⟨hzero, rfl⟩ | h'
  · exact (hempty hzero h).elim
  obtain ⟨⟨rest, hn⟩, hp⟩ := packGroups_prefix_iff.mp h
  obtain ⟨⟨rest', hn'⟩, hp'⟩ := packGroups_prefix_iff.mp h'
  obtain ⟨hcount, -⟩ := uint32Bytes_append_inj (hn.trans hn'.symm)
  have hlen : gs.length = gs'.length := by
    have := congrArg UInt32.toNat hcount
    rwa [UInt32.toNat_ofNat', UInt32.toNat_ofNat', Nat.mod_eq_of_lt hlt,
      Nat.mod_eq_of_lt hlt'] at this
  have hfill := fillGroups_of_packed hend hp
  rw [hlen, fillGroups_of_packed hend hp'] at hfill
  exact (Except.ok.inj hfill).symm

theorem declared_le (gs : List DpvVacuumGroup) :
    (segmentUpdateBlocking gs).deletionTidsCount.toNat ≤
      (segmentUpdateBlocking gs).bytes.length := by
  rw [segmentUpdateBlocking, length_packGroups, UInt32.toNat_ofNat']
  exact Nat.mod_le ..

/-- The length that is declared is that of the groups as long as it fits in 32 bits. -/
theorem holds_sent_iff (gs : List DpvVacuumGroup) :
    (segmentUpdateBlocking gs).Holds gs ↔ payloadSize gs < 2 ^ 32 := by
  constructor
  · rintro (⟨-, rfl⟩ | h)
    · decide
    · have hlen := h.length_le
      rw [length_packGroups, List.length_take] at hlen
      exact (hlen.trans (Nat.min_le_left ..)).trans_lt (UInt32.toNat_lt _)
  · intro hlt
    have hall : (packGroups gs).take (UInt32.ofNat (payloadSize gs)).toNat = packGroups gs := by
      rw [UInt32.toNat_ofNat', Nat.mod_eq_of_lt hlt, ← length_packGroups, List.take_length]
    exact .inr ⟨[], (List.append_nil _).trans hall.symm⟩

/-- The decoded groups are those that were sent. -/
theorem decodes_iff (gs : List DpvVacuumGroup) :
    (∀ malloc, (∀ n, malloc n = true) →
      submitMaintenanceTask malloc (segmentUpdateBlocking gs) = .ok gs) ↔
      payloadSize gs < 2 ^ 32 := by
  have hend := declared_le gs
  rw [← holds_sent_iff]
  rcases submitMaintenanceTask_spec hend with ⟨gs', hheld, hread⟩ | ⟨hfits, herr⟩
  · constructor
    · intro h
      have hok := (hread fun _ => true).2 fun _ => rfl
      rw [h _ fun _ => rfl] at hok
      exact Except.ok.inj hok ▸ hheld
    · intro h malloc hmalloc
      rw [(hread malloc).2 hmalloc, holds_unique hend hheld h]
  · refine iff_of_false (fun h => ?_) fun h => hfits ?_
    · obtain ⟨msg, hmsg⟩ := herr fun _ => true
      rw [h _ fun _ => rfl] at hmsg
      cases hmsg
    · exact h.imp (fun h => h.1) fun h => ⟨gs, h⟩

/-- No read is behind the end of a trailer that declares no more than there is. -/
theorem not_overread (hend : t.deletionTidsCount.toNat ≤ t.bytes.length) (malloc : ℕ → Bool) :
    submitMaintenanceTask malloc t ≠ .error .overread := by
  intro h
  rcases submitMaintenanceTask_spec hend with ⟨gs, -, hread⟩ | ⟨-, herr⟩
  · rcases (hread malloc).1 with hok | ⟨msg, hmsg⟩
    · rw [h] at hok
      cases hok
    · rw [h] at hmsg
      cases hmsg
  · obtain ⟨msg, hmsg⟩ := herr malloc
    rw [h] at hmsg
    cases hmsg

theorem rejects_of_not_fits (hend : t.deletionTidsCount.toNat ≤ t.bytes.length)
    (h : ¬ t.Fits) (malloc : ℕ → Bool) : Rejects malloc t := by
  rcases submitMaintenanceTask_spec hend with ⟨gs, hheld, -⟩ | ⟨-, herr⟩
  · exact absurd (hheld.imp (fun h => h.1) fun h => ⟨gs, h⟩) h
  · exact herr malloc

end Trips

end VectorLsm.Trailer
