import VectorLsm.Storage.Written

/-! # Bitmap files and their subversions

The bitmap of a segment version is `bitmap_<start>_<end>_v<version>`, and with each later update
the same name with `_s<subversion>`. The subversion in use is the largest one found in the
directory.
-/

namespace VectorLsm.Storage

open Crash Decimal

/-- A version of a segment. -/
structure Version where
  startSid : ℕ
  endSid : ℕ
  version : ℕ
  deriving DecidableEq

def uint32Max : ℕ := 4294967295

def filePath (kind : Name) (k : Version) : Name :=
  kind ++ '_' :: (digits k.startSid ++ '_' :: (digits k.endSid ++ '_' :: 'v' :: digits k.version))

def bitmapKind : Name := ['b', 'i', 't', 'm', 'a', 'p']

/-- The bitmap file without its subversion if that is `UINT32_MAX`. -/
def bitmapPath (k : Version) (subversion : ℕ) : Name :=
  if subversion = uint32Max then filePath bitmapKind k
  else filePath bitmapKind k ++ '_' :: 's' :: digits subversion

def isSpace (c : Char) : Bool := c = ' ' ∨ (9 ≤ c.toNat ∧ c.toNat ≤ 13)

/-- `(uint32_t) atoi(s)`. -/
def atoi (s : List Char) : ℕ :=
  match s.dropWhile isSpace with
  | '-' :: r => (uint32Max + 1 - value r % (uint32Max + 1)) % (uint32Max + 1)
  | '+' :: r => value r % (uint32Max + 1)
  | r => value r % (uint32Max + 1)

def subversionPattern (k : Version) : Name := filePath bitmapKind k ++ ['_', 's']

/-- The subversion of a name that begins like the bitmaps of `k`, whatever follows it. -/
def subversionOf (k : Version) (n : Name) : Option ℕ :=
  if subversionPattern k <+: n then some (atoi (n.drop (subversionPattern k).length)) else none

def newer (max s : ℕ) : ℕ := if max = uint32Max ∨ max < s then s else max

def findLatestBitmapSubversion (d : Dir) (k : Version) : ℕ :=
  (d.entries.keys.filterMap (subversionOf k)).foldl newer uint32Max

def loadBitmapFile (d : Dir) (k : Version) : Loaded :=
  readSegmentFile d (bitmapPath k (findLatestBitmapSubversion d k)) true

def writeBitmapFileWithSubversion (k : Version) (subversion : ℕ) (bitmap : List UInt8)
    (deleteCount : UInt32) : List (Op Name UInt8) :=
  writeSegmentFile (bitmapPath k subversion) bitmap (some deleteCount)

/-- The subversion for the next update, as the callers compute it. -/
def nextSubversion (d : Dir) (k : Version) : ℕ :=
  if findLatestBitmapSubversion d k = uint32Max then 0
  else (findLatestBitmapSubversion d k + 1) % (uint32Max + 1)

variable {k k' : Version} {d d' : Dir} {kind kind' : Name}

/-! ## Names -/

theorem filePath_prefix_iff {a b : Char} {xs ys : List Char} (hk : '_' ∉ kind)
    (hk' : '_' ∉ kind') (ha : ¬ a.isDigit) (hb : ¬ b.isDigit) :
    filePath kind k ++ a :: xs <+: filePath kind' k' ++ b :: ys ↔
      kind = kind' ∧ k = k' ∧ a = b ∧ xs <+: ys := by
  have hsep : ¬ ('_' : Char).isDigit := by decide
  obtain ⟨s, e, v⟩ := k
  obtain ⟨s', e', v'⟩ := k'
  simp only [filePath, List.append_assoc, List.cons_append]
  rw [field_prefix_iff (P := (· ≠ '_')) (by simp) (by simp) (fun c hc h => hk (h ▸ hc))
    (fun c hc h => hk' (h ▸ hc)), number_prefix_iff hsep hsep, number_prefix_iff hsep hsep,
    List.cons_prefix_cons, number_prefix_iff ha hb, Version.mk.injEq]
  tauto

theorem filePath_eq_iff {a b : Char} {xs ys : List Char} (hk : '_' ∉ kind) (hk' : '_' ∉ kind')
    (ha : ¬ a.isDigit) (hb : ¬ b.isDigit) :
    filePath kind k ++ a :: xs = filePath kind' k' ++ b :: ys ↔
      kind = kind' ∧ k = k' ∧ a = b ∧ xs = ys := by
  constructor
  · intro h
    have hpre : filePath kind k ++ a :: xs <+: filePath kind' k' ++ b :: ys :=
      ⟨[], by rw [List.append_nil, h]⟩
    obtain ⟨rfl, rfl, rfl, -⟩ := (filePath_prefix_iff hk hk' ha hb).mp hpre
    refine ⟨rfl, rfl, rfl, ?_⟩
    simpa using h
  · rintro ⟨rfl, rfl, rfl, rfl⟩
    rfl

theorem filePath_no_dot (hk : '.' ∉ kind) : '.' ∉ filePath kind k := by
  simp [filePath, hk, digits_no_dot]

theorem bitmapKind_no_dot : '.' ∉ bitmapKind := by decide

theorem bitmapKind_no_sep : '_' ∉ bitmapKind := by decide

theorem bitmapPath_no_dot (sub : ℕ) : '.' ∉ bitmapPath k sub := by
  unfold bitmapPath
  split
  · exact filePath_no_dot bitmapKind_no_dot
  · simp [filePath_no_dot bitmapKind_no_dot, digits_no_dot]

theorem bitmapPath_of_ne {sub : ℕ} (h : sub ≠ uint32Max) :
    bitmapPath k sub = filePath bitmapKind k ++ '_' :: 's' :: digits sub := if_neg h

theorem bitmapPath_uint32Max : bitmapPath k uint32Max = filePath bitmapKind k := if_pos rfl

/-- The names of bitmaps are those of their version and subversion. -/
theorem bitmapPath_append_eq_iff {sub sub' : ℕ} {xs ys : List Char} :
    bitmapPath k sub ++ '.' :: xs = bitmapPath k' sub' ++ '.' :: ys ↔
      k = k' ∧ sub = sub' ∧ xs = ys := by
  have hdot : ¬ ('.' : Char).isDigit := by decide
  have hsep : ¬ ('_' : Char).isDigit := by decide
  by_cases h : sub = uint32Max
  · by_cases h' : sub' = uint32Max
    · rw [h, h', bitmapPath_uint32Max, bitmapPath_uint32Max,
        filePath_eq_iff bitmapKind_no_sep bitmapKind_no_sep hdot hdot]
      simp
    · rw [h, bitmapPath_uint32Max, bitmapPath_of_ne h', List.append_assoc, List.cons_append,
        filePath_eq_iff bitmapKind_no_sep bitmapKind_no_sep hdot hsep]
      simp [Ne.symm h']
  · by_cases h' : sub' = uint32Max
    · rw [h', bitmapPath_uint32Max, bitmapPath_of_ne h, List.append_assoc, List.cons_append,
        filePath_eq_iff bitmapKind_no_sep bitmapKind_no_sep hsep hdot]
      simp [h]
    · rw [bitmapPath_of_ne h, bitmapPath_of_ne h']
      simp only [List.append_assoc, List.cons_append]
      rw [filePath_eq_iff bitmapKind_no_sep bitmapKind_no_sep hsep hsep, List.cons.injEq,
        number_eq_iff hdot hdot]
      simp

theorem finalPath_bitmapPath_inj {sub sub' i i' : ℕ} :
    finalPath (bitmapPath k sub) i = finalPath (bitmapPath k' sub') i' ↔
      k = k' ∧ sub = sub' ∧ i = i' := by
  rw [finalPath, finalPath, bitmapPath_append_eq_iff, digits_inj]

theorem tmpPath_bitmapPath_inj {sub sub' i i' : ℕ} :
    tmpPath (bitmapPath k sub) i = tmpPath (bitmapPath k' sub') i' ↔
      k = k' ∧ sub = sub' ∧ i = i' := by
  rw [tmpPath, tmpPath, bitmapPath_append_eq_iff]
  simp

theorem tmpPath_ne_finalPath_bitmapPath {sub sub' i i' : ℕ} :
    tmpPath (bitmapPath k sub) i ≠ finalPath (bitmapPath k' sub') i' := by
  intro h
  rw [tmpPath, finalPath, bitmapPath_append_eq_iff] at h
  obtain ⟨c, ds, hds, hc⟩ := head_digits i'
  rw [hds, List.cons.injEq] at h
  obtain rfl : 't' = c := h.2.2.1
  simp at hc

/-- The pattern of a version is found in the names of its own bitmaps only. -/
theorem pattern_prefix_iff {sub : ℕ} {xs : List Char} :
    subversionPattern k <+: bitmapPath k' sub ++ '.' :: xs ↔ k = k' ∧ sub ≠ uint32Max := by
  have hdot : ¬ ('.' : Char).isDigit := by decide
  have hsep : ¬ ('_' : Char).isDigit := by decide
  by_cases h : sub = uint32Max
  · rw [h, bitmapPath_uint32Max, subversionPattern,
      filePath_prefix_iff bitmapKind_no_sep bitmapKind_no_sep hsep hdot]
    simp
  · rw [bitmapPath_of_ne h, List.append_assoc, List.cons_append, subversionPattern,
      filePath_prefix_iff bitmapKind_no_sep bitmapKind_no_sep hsep hsep]
    simp [h, List.cons_prefix_cons]

theorem atoi_digits {n : ℕ} {xs : List Char} (hx : ∀ c ∈ xs.head?, ¬ c.isDigit) :
    atoi (digits n ++ xs) = n % (uint32Max + 1) := by
  have hvalue := value_digits (n := n) hx
  obtain ⟨a, ds, hds, ha⟩ := head_digits n
  have hspace : isSpace a = false := by
    have hrange : 48 ≤ a.toNat ∧ a.toNat ≤ 57 := by
      simpa [Char.isDigit, UInt32.le_iff_toNat_le] using ha
    have hne : a ≠ ' ' := by
      rintro rfl
      simp at ha
    simp [isSpace, hne]
    omega
  have hminus : a ≠ '-' := by
    rintro rfl
    simp at ha
  have hplus : a ≠ '+' := by
    rintro rfl
    simp at ha
  rw [hds, List.cons_append] at hvalue ⊢
  rw [atoi, List.dropWhile_cons_of_neg (by simp [hspace])]
  split
  case h_1 h => exact absurd (List.cons.inj h).1 hminus
  case h_2 h => exact absurd (List.cons.inj h).1 hplus
  case h_3 => rw [hvalue]

theorem subversionOf_bitmapPath {sub : ℕ} {xs : List Char} (h : sub < uint32Max) :
    subversionOf k (bitmapPath k sub ++ '.' :: xs) = some sub := by
  have hpattern : subversionPattern k <+: bitmapPath k sub ++ '.' :: xs :=
    pattern_prefix_iff.mpr ⟨rfl, Nat.ne_of_lt h⟩
  rw [subversionOf, if_pos hpattern, bitmapPath_of_ne (Nat.ne_of_lt h)]
  have hdrop : (filePath bitmapKind k ++ '_' :: 's' :: digits sub ++ '.' :: xs).drop
      (subversionPattern k).length = digits sub ++ '.' :: xs := by
    have hsplit : filePath bitmapKind k ++ '_' :: 's' :: digits sub ++ '.' :: xs =
        subversionPattern k ++ (digits sub ++ '.' :: xs) := by
      simp [subversionPattern]
    rw [hsplit, List.drop_left]
  rw [hdrop, atoi_digits (by simp), Nat.mod_eq_of_lt (Nat.lt_succ_of_lt h)]

/-! ## The latest subversion -/

theorem foldl_newer {l : List ℕ} {m : ℕ} (hl : ∀ s ∈ l, s < uint32Max) (hm : m < uint32Max) :
    l.foldl newer m ∈ m :: l ∧ ∀ s ∈ m :: l, s ≤ l.foldl newer m := by
  induction l generalizing m with
  | nil => simp
  | cons a l ih =>
      have ha : a < uint32Max := hl a List.mem_cons_self
      have hnewer : newer m a = max m a := by
        unfold newer
        split
        case isTrue h => omega
        case isFalse h => omega
      obtain ⟨hmem, hle⟩ := ih (m := newer m a) (fun s hs => hl s (List.mem_cons_of_mem _ hs))
        (by omega)
      rw [List.foldl_cons]
      have hself : newer m a ≤ l.foldl newer (newer m a) := hle _ List.mem_cons_self
      constructor
      · rcases List.mem_cons.mp hmem with h | h
        · rw [h, hnewer]
          rcases Nat.le_total m a with hma | hma <;> simp [hma]
        · exact List.mem_cons_of_mem _ (List.mem_cons_of_mem _ h)
      · intro s hs
        rcases List.mem_cons.mp hs with rfl | hs
        · omega
        rcases List.mem_cons.mp hs with rfl | hs
        · omega
        · exact hle s (List.mem_cons_of_mem _ hs)

theorem foldl_newer_start {a : ℕ} {l : List ℕ} :
    (a :: l).foldl newer uint32Max = l.foldl newer a := by
  simp [newer]

theorem mem_subversions {s : ℕ} :
    s ∈ d.entries.keys.filterMap (subversionOf k) ↔
      ∃ n ∈ d.entries, subversionOf k n = some s := by
  simp [List.mem_filterMap, AList.mem_keys]

theorem findLatest_of_none (h : ∀ n ∈ d.entries, subversionOf k n = none) :
    findLatestBitmapSubversion d k = uint32Max := by
  have hnil : d.entries.keys.filterMap (subversionOf k) = [] := by
    rw [List.filterMap_eq_nil_iff]
    exact fun n hn => h n (AList.mem_keys.mpr hn)
  rw [findLatestBitmapSubversion, hnil, List.foldl_nil]

/-- The latest subversion is that of a name in the directory, and no name has a later one. -/
theorem findLatest_spec
    (hlt : ∀ n ∈ d.entries, ∀ s, subversionOf k n = some s → s < uint32Max) :
    (findLatestBitmapSubversion d k = uint32Max ∧ ∀ n ∈ d.entries, subversionOf k n = none) ∨
      ((∃ n ∈ d.entries, subversionOf k n = some (findLatestBitmapSubversion d k)) ∧
        ∀ n ∈ d.entries, ∀ s, subversionOf k n = some s →
          s ≤ findLatestBitmapSubversion d k) := by
  have hl : ∀ s ∈ d.entries.keys.filterMap (subversionOf k), s < uint32Max := by
    intro s hs
    obtain ⟨n, hn, hs⟩ := mem_subversions.mp hs
    exact hlt n hn s hs
  simp only [← mem_subversions]
  unfold findLatestBitmapSubversion
  cases hc : d.entries.keys.filterMap (subversionOf k) with
  | nil =>
      left
      rw [List.filterMap_eq_nil_iff] at hc
      exact ⟨rfl, fun n hn => hc n (AList.mem_keys.mp hn)⟩
  | cons a l =>
      right
      rw [hc] at hl
      obtain ⟨hmem, hle⟩ := foldl_newer (fun s hs => hl s (List.mem_cons_of_mem _ hs))
        (hl a List.mem_cons_self)
      rw [foldl_newer_start]
      refine ⟨hmem, ?_⟩
      intro n hn s hs
      exact hle s (hc ▸ mem_subversions.mpr ⟨n, hn, hs⟩)

theorem findLatest_eq {latest : ℕ}
    (hlt : ∀ n ∈ d.entries, ∀ s, subversionOf k n = some s → s < uint32Max)
    (hmem : ∃ n ∈ d.entries, subversionOf k n = some latest)
    (hle : ∀ n ∈ d.entries, ∀ s, subversionOf k n = some s → s ≤ latest) :
    findLatestBitmapSubversion d k = latest := by
  obtain ⟨n, hn, hs⟩ := hmem
  rcases findLatest_spec hlt with ⟨-, hnone⟩ | ⟨⟨n', hn', hs'⟩, hmax⟩
  · rw [hnone n hn] at hs
    cases hs
  · exact Nat.le_antisymm (hle n' hn' _ hs') (hmax n hn _ hs)

/-- The latest subversion depends on the names of the version's own bitmaps only. -/
theorem findLatest_congr
    (hlt : ∀ n ∈ d.entries, ∀ s, subversionOf k n = some s → s < uint32Max)
    (h : ∀ n, subversionPattern k <+: n → (n ∈ d'.entries ↔ n ∈ d.entries)) :
    findLatestBitmapSubversion d' k = findLatestBitmapSubversion d k := by
  have hpattern : ∀ {n s}, subversionOf k n = some s → subversionPattern k <+: n := by
    intro n s hs
    by_contra hn
    simp [subversionOf, hn] at hs
  rcases findLatest_spec hlt with ⟨hmax, hnone⟩ | ⟨⟨n, hn, hs⟩, hmax⟩
  · rw [hmax]
    refine findLatest_of_none ?_
    intro n hn
    cases hs : subversionOf k n with
    | none => rfl
    | some s =>
        rw [hnone n ((h n (hpattern hs)).mp hn)] at hs
        cases hs
  · refine findLatest_eq ?_ ⟨n, (h n (hpattern hs)).mpr hn, hs⟩ ?_
    · exact fun n hn s hs => hlt n ((h n (hpattern hs)).mp hn) s hs
    · exact fun n hn s hs => hmax n ((h n (hpattern hs)).mp hn) s hs

end VectorLsm.Storage
