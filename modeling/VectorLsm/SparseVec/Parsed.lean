import VectorLsm.SparseVec.Text

/-! # What the parser of sparse vectors accepts

Whatever the text and however floats are read, what is accepted is well formed. A text as it is
printed is accepted exactly if its entries that are not zero make a vector, in whatever order they
stand.
-/

namespace VectorLsm.SparseVec

open Half Sparse

variable {ft : FloatText} {lit pt rest : List Char} {index : ℤ} {value : UInt32} {maxNnz : ℕ}
  {elements elements' : List (ℤ × UInt32)} {typmod dim : ℤ} {prev : Option ℤ} {v : SparseVector}

/-! ## Any text -/

theorem finite_of_readElement (h : readElement ft lit pt = .ok ((index, value), rest)) :
    isNan value = false ∧ floatIsInf value = false := by
  unfold readElement at h
  dsimp only at h
  split_ifs at h
  split at h
  · split_ifs at h
    split at h
    next => cases h
    next hcheck =>
      obtain ⟨he, -⟩ := Prod.mk.inj (Except.ok.inj h)
      obtain ⟨-, rfl⟩ := Prod.mk.inj he
      exact checkElement_eq_ok_iff.mp hcheck
  · cases h

/-- Entries the loop may have kept. -/
structure Kept (maxNnz : ℕ) (elements : List (ℤ × UInt32)) : Prop where
  le : elements.length ≤ maxNnz
  finite : ∀ e ∈ elements, isNan e.2 = false ∧ floatIsInf e.2 = false
  ne_zero : ∀ e ∈ elements, isZero e.2 = false

theorem Kept.nil : Kept maxNnz [] :=
  ⟨Nat.zero_le _, fun _ h => absurd h List.not_mem_nil, fun _ h => absurd h List.not_mem_nil⟩

theorem Kept.append (h : Kept maxNnz elements) (hroom : elements.length ≠ maxNnz)
    (hfinite : isNan value = false ∧ floatIsInf value = false) (hzero : isZero value = false) :
    Kept maxNnz (elements ++ [(index, value)]) := by
  have hle := h.le
  refine ⟨?_, fun e he => ?_, fun e he => ?_⟩
  · rw [List.length_append, List.length_singleton]
    omega
  · rcases List.mem_append.mp he with he | he
    · exact h.finite e he
    · rw [List.mem_singleton.mp he]
      exact hfinite
  · rcases List.mem_append.mp he with he | he
    · exact h.ne_zero e he
    · rw [List.mem_singleton.mp he]
      exact hzero

/-- A turn of the loop keeps what it may keep. -/
theorem Kept.turn (h : Kept maxNnz elements) (hroom : elements.length ≠ maxNnz)
    (hread : readElement ft lit pt = .ok ((index, value), rest)) :
    Kept maxNnz (if isZero value then elements else elements ++ [(index - 1, value)]) := by
  split
  · exact h
  next hzero => exact h.append hroom (finite_of_readElement hread) (Bool.eq_false_iff.mpr hzero)

theorem kept_readElements (hk : Kept maxNnz elements)
    (h : readElements ft lit maxNnz elements pt = .ok (elements', rest)) :
    Kept maxNnz elements' := by
  fun_induction readElements ft lit maxNnz elements pt with
  | case1 => cases h
  | case2 => cases h
  | case3 elements pt hroom index value els rest hread _ ih =>
      exact ih (hk.turn hroom hread) h
  | case4 elements pt hroom index value els rest hread =>
      obtain ⟨rfl, -⟩ := Prod.mk.inj (Except.ok.inj h)
      exact hk.turn hroom hread
  | case5 => cases h

theorem kept_readBraces (h : readBraces ft lit maxNnz = .ok (elements, rest)) :
    Kept maxNnz elements := by
  unfold readBraces at h
  split at h
  · split at h
    · obtain ⟨rfl, -⟩ := Prod.mk.inj (Except.ok.inj h)
      exact Kept.nil
    · exact kept_readElements Kept.nil h
  · cases h

/-- Indices that pass are natural numbers in order. -/
theorem checkIndices_eq_ok_iff {indices : List ℤ} : checkIndices dim prev indices = .ok () ↔
    ∃ is : List ℕ, indices = is.map (fun i : ℕ => (i : ℤ)) ∧ Follows dim prev is := by
  induction indices generalizing prev with
  | nil =>
      refine ⟨fun _ => ⟨[], rfl, trivial⟩, fun _ => rfl⟩
  | cons index indices ih =>
      rw [checkIndices, bind_eq_ok]
      constructor
      · rintro ⟨_, hcheck, hrest⟩
        obtain ⟨h0, hlt, hprev⟩ := checkIndex_eq_ok_iff.mp hcheck
        obtain ⟨is, rfl, hfollows⟩ := ih.mp hrest
        obtain ⟨i, rfl⟩ := Int.eq_ofNat_of_zero_le h0
        exact ⟨i :: is, rfl, hlt, hprev, hfollows⟩
      · rintro ⟨is, his, hfollows⟩
        cases is with
        | nil => cases his
        | cons i is =>
            obtain ⟨rfl, rfl⟩ := List.cons.inj his
            obtain ⟨hlt, hprev, hfollows⟩ := hfollows
            exact ⟨(), checkIndex_eq_ok_iff.mpr ⟨Int.natCast_nonneg i, hlt, hprev⟩,
              ih.mpr ⟨is, rfl, hfollows⟩⟩

/-- Entries whose indices pass, as they are stored. -/
theorem ascending_of_checkIndices {d : ℕ} {elements : List (ℤ × UInt32)}
    (h : checkIndices d none (elements.map Prod.fst) = .ok ()) :
    Ascending d (elements.map fun e => (e.1.toNat, e.2)) ∧
      ∀ e ∈ elements, 0 ≤ e.1 ∧ e.1 < d := by
  obtain ⟨is, his, hfollows⟩ := checkIndices_eq_ok_iff.mp h
  have hmap : (elements.map fun e => (e.1.toNat, e.2)).map Prod.fst = is := by
    rw [List.map_map]
    change elements.map (Int.toNat ∘ Prod.fst) = is
    rw [← List.map_map, his, List.map_map]
    exact List.map_id is
  refine ⟨follows_map_fst.mp (hmap ▸ hfollows), fun e he => ?_⟩
  have hmem : e.1 ∈ elements.map Prod.fst := List.mem_map_of_mem he
  rw [his] at hmem
  obtain ⟨i, hi, hie⟩ := List.mem_map.mp hmem
  rw [← hie]
  exact ⟨Int.natCast_nonneg i, (follows_iff.mp hfollows).2.1 i hi⟩

/-- Whatever the text and the reading of floats, an accepted vector is well formed and has the
expected dimension. -/
theorem wellFormed_of_sparsevecIn (h : sparsevecIn ft lit typmod = .ok v) :
    WellFormed v ∧ (typmod = -1 ∨ typmod = v.dim) := by
  unfold sparsevecIn at h
  dsimp only at h
  split_ifs at h with hmany
  obtain ⟨⟨elements, pt⟩, hbraces, h⟩ := bind_eq_ok.mp h
  obtain ⟨dim, -, h⟩ := bind_eq_ok.mp h
  obtain ⟨_, hcheckDim, h⟩ := bind_eq_ok.mp h
  obtain ⟨_, hexpected, h⟩ := bind_eq_ok.mp h
  obtain ⟨_, hindices, h⟩ := bind_eq_ok.mp h
  obtain rfl := Except.ok.inj h
  obtain ⟨h1, hmax⟩ := checkDimOf_eq_ok_iff.mp hcheckDim
  obtain ⟨d, rfl⟩ := Int.eq_ofNat_of_zero_le (by omega : 0 ≤ dim)
  have hkept := kept_readBraces hbraces
  have hperm : (sortElements elements).Perm elements := List.mergeSort_perm _ _
  have hmem : ∀ {e}, e ∈ (sortElements elements).map (fun e => (e.1.toNat, e.2)) →
      ∃ e' ∈ elements, e'.2 = e.2 := by
    intro e he
    obtain ⟨e', he', rfl⟩ := List.mem_map.mp he
    exact ⟨e', hperm.subset he', rfl⟩
  refine ⟨⟨Int.ofNat_le.mp h1, Int.ofNat_le.mp hmax, ?_, (ascending_of_checkIndices hindices).1,
    fun e he => ?_, fun e he => ?_⟩, checkExpectedDim_eq_ok_iff.mp hexpected⟩
  · rw [SparseVector.nnz, List.length_map, hperm.length_eq]
    exact hkept.le.trans (Nat.not_lt.mp hmany)
  · obtain ⟨e', he', heq⟩ := hmem he
    exact heq ▸ hkept.finite e' he'
  · obtain ⟨e', he', heq⟩ := hmem he
    exact heq ▸ hkept.ne_zero e' he'

/-! ## A printed text -/

/-- What the code relies on: a finite float is printed without spaces in front and without a comma,
and is read back from its text in front of a comma or a brace, a zero without `ERANGE`. -/
structure FloatText.Lawful (ft : FloatText) : Prop where
  head : ∀ x, isNan x = false → floatIsInf x = false →
    ∃ c cs, ft.floatToShortestDecimal x = c :: cs ∧ isSpace c = false
  no_comma : ∀ x, isNan x = false → floatIsInf x = false → ',' ∉ ft.floatToShortestDecimal x
  strtof : ∀ x, isNan x = false → floatIsInf x = false → ∀ c rest, c = ',' ∨ c = '}' →
    ∃ erange, ft.strtof (ft.floatToShortestDecimal x ++ c :: rest) =
      (x, (ft.floatToShortestDecimal x).length, erange) ∧ (isZero x = true → erange = false)

section Printed

variable {c : Char} {i n d : ℕ} {e : ℕ × UInt32} {entries : List (ℕ × UInt32)}

theorem skipSpaces_cons (h : isSpace c = false) : skipSpaces (c :: pt) = c :: pt :=
  List.dropWhile_cons_of_neg (by rw [h]; exact Bool.false_ne_true)

theorem isSpace_of_isDigit (h : c.isDigit) : isSpace c = false := by
  unfold isSpace
  simp only [Bool.or_eq_false_iff, decide_eq_false_iff_not]
  refine ⟨⟨⟨⟨⟨?_, ?_⟩, ?_⟩, ?_⟩, ?_⟩, ?_⟩ <;> rintro rfl <;> exact absurd h (by decide)

theorem skipSpaces_digits : skipSpaces (Decimal.digits n ++ pt) = Decimal.digits n ++ pt := by
  obtain ⟨c, ds, hds, hc⟩ := Decimal.head_digits n
  rw [hds, List.cons_append, skipSpaces_cons (isSpace_of_isDigit hc)]

theorem digits_ne_nil : Decimal.digits n ≠ [] := by
  obtain ⟨c, ds, hds, -⟩ := Decimal.head_digits n
  rw [hds]
  exact List.cons_ne_nil c ds

theorem takeWhile_digits (hx : ∀ c ∈ pt.head?, ¬ c.isDigit) :
    (Decimal.digits n ++ pt).takeWhile Char.isDigit = Decimal.digits n := by
  have hrest : pt.takeWhile Char.isDigit = [] := by
    cases pt with
    | nil => rfl
    | cons c pt => exact List.takeWhile_cons_of_neg (hx c rfl)
  rw [List.takeWhile_append_of_pos fun _ => Decimal.isDigit_of_mem, hrest, List.append_nil]

theorem readSign_digit (hc : c.isDigit) : readSign (c :: pt) = (1, 0, c :: pt) := by
  unfold readSign
  split
  next heq =>
    obtain ⟨rfl, -⟩ := List.cons.inj heq
    exact absurd hc (by decide)
  next heq =>
    obtain ⟨rfl, -⟩ := List.cons.inj heq
    exact absurd hc (by decide)
  next => rfl

/-- A printed number is read back, as far as a `long` goes. -/
theorem strtol_digits (hx : ∀ c ∈ pt.head?, ¬ c.isDigit) :
    strtol (Decimal.digits n ++ pt) = (clamp longMin longMax n, (Decimal.digits n).length) := by
  obtain ⟨c, ds, hds, hc⟩ := Decimal.head_digits n
  have hspace : (Decimal.digits n ++ pt).takeWhile isSpace = [] := by
    rw [hds]
    exact List.takeWhile_cons_of_neg (by rw [isSpace_of_isDigit hc]; exact Bool.false_ne_true)
  have hsign : readSign (Decimal.digits n ++ pt) = (1, 0, Decimal.digits n ++ pt) := by
    rw [hds, List.cons_append]
    exact readSign_digit hc
  simp only [strtol, hspace, List.length_nil, List.drop_zero, hsign, takeWhile_digits hx,
    if_neg digits_ne_nil, Decimal.value_digits hx, one_mul, Nat.zero_add]

/-- A number as far as an `int` goes. -/
def intOf (n : ℕ) : ℤ := if intMax < n then intMax else n

theorem clamp_clamp {lo : ℤ} (hlo : lo ≤ 0) :
    clamp lo intMax (clamp longMin longMax n) = intOf n := by
  unfold clamp intOf longMin longMax intMax
  split_ifs <;> omega

/-- A float that is a number. -/
def IsFinite (x : UInt32) : Prop := isNan x = false ∧ floatIsInf x = false

theorem not_isSpace_of_delimiter (hc : c = ',' ∨ c = '}') : isSpace c = false := by
  rcases hc with rfl | rfl <;> rfl

theorem drop_printed (l : List Char) : (l ++ pt).drop l.length = pt :=
  List.drop_left

/-- A printed entry is read back. -/
theorem readElement_print (hft : ft.Lawful) (he : IsFinite e.2) (hc : c = ',' ∨ c = '}') :
    readElement ft lit (printElement ft e ++ c :: pt) =
      .ok ((intOf (e.1 + 1), e.2), c :: pt) := by
  obtain ⟨x, xs, htext, hx⟩ := hft.head e.2 he.1 he.2
  obtain ⟨erange, hstrtof, hzero⟩ := hft.strtof e.2 he.1 he.2 c pt hc
  have hne : Decimal.digits (e.1 + 1) ++ ':' :: (ft.floatToShortestDecimal e.2 ++ c :: pt) ≠ [] :=
    List.append_ne_nil_of_left_ne_nil digits_ne_nil _
  have hlen : (Decimal.digits (e.1 + 1)).length ≠ 0 := fun h =>
    digits_ne_nil (List.length_eq_zero_iff.mp h)
  have hcolon : ∀ c' ∈ (':' :: (ft.floatToShortestDecimal e.2 ++ c :: pt)).head?,
      ¬ c'.isDigit := by
    rintro _ ⟨⟩
    decide
  have hvalue : skipSpaces (ft.floatToShortestDecimal e.2 ++ c :: pt) =
      ft.floatToShortestDecimal e.2 ++ c :: pt := by
    rw [htext, List.cons_append, skipSpaces_cons hx]
  have hm : (ft.floatToShortestDecimal e.2).length ≠ 0 := by
    rw [htext]
    exact Nat.succ_ne_zero _
  have hrange : (erange && (isZero e.2 || floatIsInf e.2)) = false := by
    rw [he.2, Bool.or_false]
    cases hz : isZero e.2 with
    | false => exact Bool.and_false _
    | true =>
        rw [hzero hz]
        rfl
  unfold readElement
  rw [printElement, List.append_assoc, List.cons_append]
  simp only [skipSpaces_digits, if_neg hne, strtol_digits hcolon, if_neg hlen, drop_printed,
    skipSpaces_cons (c := ':') rfl, hvalue, hstrtof, if_neg hm, hrange, Bool.false_eq_true,
    if_false, checkElement_eq_ok_iff.mpr he, skipSpaces_cons (not_isSpace_of_delimiter hc),
    clamp_clamp (show intMin + 1 ≤ 0 by decide)]

theorem printElements_cons (hne : entries ≠ []) :
    printElements ft (e :: entries) = printElement ft e ++ ',' :: printElements ft entries := by
  cases entries with
  | nil => exact absurd rfl hne
  | cons _ _ => rfl

theorem head_printElements (ft : FloatText) (hne : entries ≠ []) :
    ∃ c cs, printElements ft entries = c :: cs ∧ c.isDigit := by
  cases entries with
  | nil => exact absurd rfl hne
  | cons e entries =>
      obtain ⟨c, ds, hds, hc⟩ := Decimal.head_digits (e.1 + 1)
      have hone : ∃ cs, printElement ft e = c :: cs := by
        rw [printElement, hds]
        exact ⟨_, rfl⟩
      obtain ⟨cs, hcs⟩ := hone
      cases entries with
      | nil => exact ⟨c, cs, hcs, hc⟩
      | cons e' entries =>
          rw [printElements_cons (List.cons_ne_nil e' entries), hcs]
          exact ⟨c, _, rfl, hc⟩

theorem count_digits : (Decimal.digits n).count ',' = 0 := by
  refine List.count_eq_zero_of_not_mem fun h => ?_
  exact absurd (Decimal.isDigit_of_mem h) (by decide)

/-- What the loop keeps of printed entries. -/
def kept (entries : List (ℕ × UInt32)) : List (ℤ × UInt32) :=
  (entries.filter fun e => !isZero e.2).map fun e => (intOf (e.1 + 1) - 1, e.2)

theorem kept_cons : kept (e :: entries) =
    (if isZero e.2 then [] else [(intOf (e.1 + 1) - 1, e.2)]) ++ kept entries := by
  unfold kept
  cases hz : isZero e.2 with
  | true => rw [List.filter_cons_of_neg (by simp [hz]), if_pos rfl, List.nil_append]
  | false =>
      rw [List.filter_cons_of_pos (by simp [hz]), List.map_cons, if_neg Bool.false_ne_true,
        List.singleton_append]

theorem turn_eq : (if isZero e.2 then elements else elements ++ [(intOf (e.1 + 1) - 1, e.2)]) =
    elements ++ if isZero e.2 then [] else [(intOf (e.1 + 1) - 1, e.2)] := by
  cases isZero e.2 with
  | true => exact (List.append_nil elements).symm
  | false => rfl

/-- A turn of the loop that ends at a comma. -/
theorem readElements_comma (hroom : elements.length ≠ maxNnz)
    (h : readElement ft lit pt = .ok ((index, value), ',' :: rest)) :
    readElements ft lit maxNnz elements pt = readElements ft lit maxNnz
      (if isZero value then elements else elements ++ [(index - 1, value)]) rest := by
  rw [readElements]
  split
  next heq => exact absurd heq hroom
  · split
    next heq => cases heq.symm.trans h
    next heq => cases heq.symm.trans h; rfl

/-- A turn of the loop that ends at the closing brace. -/
theorem readElements_brace (hroom : elements.length ≠ maxNnz)
    (h : readElement ft lit pt = .ok ((index, value), '}' :: rest)) :
    readElements ft lit maxNnz elements pt =
      .ok (if isZero value then elements else elements ++ [(index - 1, value)], rest) := by
  rw [readElements]
  split
  next heq => exact absurd heq hroom
  · split
    next heq => cases heq.symm.trans h
    next heq => cases heq.symm.trans h; rfl

/-- Printed entries are read back, but for the zeros. -/
theorem readElements_print (hft : ft.Lawful) (hne : entries ≠ [])
    (hfin : ∀ e ∈ entries, IsFinite e.2) (hroom : elements.length + entries.length ≤ maxNnz) :
    readElements ft lit maxNnz elements (printElements ft entries ++ '}' :: pt) =
      .ok (elements ++ kept entries, pt) := by
  induction entries generalizing elements with
  | nil => exact absurd rfl hne
  | cons e entries ih =>
      obtain ⟨he, hfin⟩ := List.forall_mem_cons.mp hfin
      rw [List.length_cons] at hroom
      have hlt : elements.length ≠ maxNnz := by omega
      cases entries with
      | nil =>
          rw [printElements, readElements_brace hlt (readElement_print hft he (.inr rfl)),
            turn_eq, kept_cons, kept, List.filter_nil, List.map_nil, List.append_nil]
      | cons e' entries =>
          have hroom' : (elements ++ if isZero e.2 then [] else [(intOf (e.1 + 1) - 1, e.2)]).length
              + (e' :: entries).length ≤ maxNnz := by
            rw [List.length_append]
            split_ifs
            · rw [List.length_nil]
              omega
            · rw [List.length_singleton]
              omega
          rw [printElements_cons (List.cons_ne_nil e' entries), List.append_assoc,
            List.cons_append, readElements_comma hlt (readElement_print hft he (.inl rfl)), turn_eq,
            ih (List.cons_ne_nil e' entries) hfin hroom', List.append_assoc, ← kept_cons]

/-- The commas of a printed text stand between its entries. -/
theorem count_printElements (hft : ft.Lawful) (hfin : ∀ e ∈ entries, IsFinite e.2) :
    (printElements ft entries).count ',' = entries.length - 1 := by
  induction entries with
  | nil => rfl
  | cons e entries ih =>
      obtain ⟨he, hfin⟩ := List.forall_mem_cons.mp hfin
      have hone : (printElement ft e).count ',' = 0 := by
        rw [printElement, List.count_append, List.count_cons_of_ne (by decide),
          count_digits, List.count_eq_zero_of_not_mem (hft.no_comma e.2 he.1 he.2)]
      cases entries with
      | nil => exact hone
      | cons e' entries =>
          rw [printElements_cons (List.cons_ne_nil e' entries), List.count_append,
            List.count_cons_self, hone, ih hfin]
          simp only [List.length_cons]
          omega

theorem countMaxNnz_print (hft : ft.Lawful) (hfin : ∀ e ∈ entries, IsFinite e.2) :
    countMaxNnz (print ft d entries) = 1 + (entries.length - 1) := by
  rw [countMaxNnz, print, List.count_cons_of_ne (by decide), List.count_append,
    count_printElements hft hfin, List.count_cons_of_ne (by decide),
    List.count_cons_of_ne (by decide), count_digits, Nat.add_zero (entries.length - 1)]

theorem readBraces_cons (hspace : isSpace c = false) (hc : c ≠ '}') :
    readBraces ft ('{' :: c :: pt) maxNnz =
      readElements ft ('{' :: c :: pt) maxNnz [] (c :: pt) := by
  unfold readBraces
  split
  next text heq =>
    rw [skipSpaces_cons (c := '{') rfl] at heq
    obtain ⟨-, rfl⟩ := List.cons.inj heq
    rw [skipSpaces_cons hspace]
    split
    next heq => exact absurd (List.cons.inj heq).1 hc
    · rfl
  next hne => exact absurd (skipSpaces_cons rfl) (hne (c :: pt))

/-- The braces of a printed text. -/
theorem readBraces_print (hft : ft.Lawful) (hfin : ∀ e ∈ entries, IsFinite e.2)
    (hroom : entries.length ≤ maxNnz) : readBraces ft (print ft d entries) maxNnz =
      .ok (kept entries, '/' :: Decimal.digits d) := by
  cases entries with
  | nil => rfl
  | cons e entries =>
      obtain ⟨c, cs, hcs, hc⟩ := head_printElements ft (List.cons_ne_nil e entries)
      have hbrace : c ≠ '}' := by
        rintro rfl
        exact absurd hc (by decide)
      have hread : readElements ft (print ft d (e :: entries)) maxNnz []
          (printElements ft (e :: entries) ++ '}' :: '/' :: Decimal.digits d) =
            .ok ([] ++ kept (e :: entries), '/' :: Decimal.digits d) :=
        readElements_print hft (List.cons_ne_nil e entries) hfin
          (by rwa [List.length_nil, Nat.zero_add])
      rw [List.nil_append, print, hcs, List.cons_append] at hread
      rw [print, hcs, List.cons_append, readBraces_cons (isSpace_of_isDigit hc) hbrace, hread]

/-- The dimension of a printed text. -/
theorem readDim_print : readDim lit ('/' :: Decimal.digits d) = .ok (intOf d) := by
  have hnil : ∀ c ∈ ([] : List Char).head?, ¬ c.isDigit := fun _ h => nomatch h
  have hstrtol := strtol_digits (n := d) hnil
  have hspaces : skipSpaces (Decimal.digits d ++ []) = Decimal.digits d ++ [] := skipSpaces_digits
  rw [List.append_nil] at hstrtol hspaces
  have hlen : (Decimal.digits d).length ≠ 0 := fun h =>
    digits_ne_nil (List.length_eq_zero_iff.mp h)
  unfold readDim
  rw [skipSpaces_cons (c := '/') rfl]
  simp only [hspaces, hstrtol, if_neg hlen, List.drop_length,
    clamp_clamp (show intMin ≤ 0 by decide)]
  rfl

/-! ### The entries in order -/

/-- Entries below the largest dimension are kept as they are. -/
theorem kept_eq (h : ∀ e ∈ entries.filter fun e => !isZero e.2, e.1 < sparsevecMaxDim) :
    kept entries = (entries.filter fun e => !isZero e.2).map fun e => ((e.1 : ℤ), e.2) := by
  refine List.map_congr_left fun e he => ?_
  have hlt : e.1 < 1000000000 := h e he
  have hint : intOf (e.1 + 1) - 1 = (e.1 : ℤ) := by
    unfold intOf intMax
    split_ifs <;> omega
  rw [hint]

theorem lt_of_kept (h : ∀ e ∈ kept entries, e.1 < (sparsevecMaxDim : ℤ)) :
    ∀ e ∈ entries.filter fun e => !isZero e.2, e.1 < sparsevecMaxDim := by
  intro e he
  have hlt : intOf (e.1 + 1) - 1 < (sparsevecMaxDim : ℤ) := h _ (List.mem_map_of_mem he)
  unfold intOf intMax sparsevecMaxDim at *
  split_ifs at hlt <;> omega

/-- The entries of a printed text that are not zero, by index. -/
def sorted (entries : List (ℕ × UInt32)) : List (ℕ × UInt32) :=
  (entries.filter fun e => !isZero e.2).mergeSort fun a b => a.1 ≤ b.1

theorem sortElements_kept (h : ∀ e ∈ entries.filter fun e => !isZero e.2, e.1 < sparsevecMaxDim) :
    sortElements (kept entries) = (sorted entries).map fun e => ((e.1 : ℤ), e.2) := by
  rw [kept_eq h, sortElements, sorted]
  refine (List.map_mergeSort fun a _ b _ => ?_).symm
  exact decide_eq_decide.mpr Int.ofNat_le.symm

theorem perm_sorted : (sorted entries).Perm (entries.filter fun e => !isZero e.2) :=
  List.mergeSort_perm _ _

/-- Sorted entries at ascending indices are all there is in that order. -/
theorem sorted_eq {l : List (ℕ × UInt32)} (hl : Ascending n l)
    (h : l.Perm (entries.filter fun e => !isZero e.2)) : sorted entries = l := by
  refine hl.eq_of_perm ?_ (perm_sorted.trans h.symm)
  have htrans : ∀ a b c : ℕ × UInt32, decide (a.1 ≤ b.1) = true → decide (b.1 ≤ c.1) = true →
      decide (a.1 ≤ c.1) = true := fun a b c hab hbc =>
    decide_eq_true ((of_decide_eq_true hab).trans (of_decide_eq_true hbc))
  have htotal : ∀ a b : ℕ × UInt32, (decide (a.1 ≤ b.1) || decide (b.1 ≤ a.1)) = true := by
    intro a b
    rw [Bool.or_eq_true, decide_eq_true_iff, decide_eq_true_iff]
    exact Nat.le_total a.1 b.1
  exact (List.pairwise_mergeSort htrans htotal _).imp fun hab => of_decide_eq_true hab

theorem checkIndices_sorted : checkIndices dim none
      (((sorted entries).map fun e => ((e.1 : ℤ), e.2)).map Prod.fst) = .ok () ↔
    Follows dim none ((sorted entries).map Prod.fst) := by
  have hmap : ((sorted entries).map fun e => ((e.1 : ℤ), e.2)).map Prod.fst =
      ((sorted entries).map Prod.fst).map fun i : ℕ => (i : ℤ) := by
    rw [List.map_map, List.map_map]
    rfl
  rw [hmap, checkIndices_eq_ok_iff]
  constructor
  · rintro ⟨is, his, hfollows⟩
    rw [List.map_injective_iff.mpr Int.ofNat_injective his]
    exact hfollows
  · exact fun hfollows => ⟨_, rfl, hfollows⟩

theorem map_toNat_sorted :
    (((sorted entries).map fun e => ((e.1 : ℤ), e.2)).map fun e => (e.1.toNat, e.2)) =
      sorted entries := by
  rw [List.map_map]
  exact List.map_id _

/-! ### The whole text -/

theorem intOf_eq (h : d ≤ sparsevecMaxDim) : intOf d = d := by
  unfold intOf intMax
  unfold sparsevecMaxDim at h
  split_ifs <;> omega

theorem le_of_intOf_le (h : intOf d ≤ (sparsevecMaxDim : ℤ)) : d ≤ sparsevecMaxDim := by
  unfold intOf intMax sparsevecMaxDim at *
  split_ifs at h <;> omega

/-- The parser at a printed text: what is left of its checks. -/
theorem sparsevecIn_print (hft : ft.Lawful) (hfin : ∀ e ∈ entries, IsFinite e.2)
    (hroom : entries.length ≤ sparsevecMaxNnz) :
    sparsevecIn ft (print ft d entries) typmod = .ok v ↔
      checkDim (intOf d) = .ok () ∧ checkExpectedDim typmod (intOf d) = .ok () ∧
        checkIndices (intOf d) none ((sortElements (kept entries)).map Prod.fst) = .ok () ∧
        ⟨(intOf d).toNat, (sortElements (kept entries)).map fun e => (e.1.toNat, e.2)⟩ = v := by
  have hmax : ¬ sparsevecMaxNnz < 1 + (entries.length - 1) := by
    unfold sparsevecMaxNnz at *
    omega
  have hbraces : readBraces ft (print ft d entries) (1 + (entries.length - 1)) =
      .ok (kept entries, '/' :: Decimal.digits d) :=
    readBraces_print hft hfin (by omega)
  unfold sparsevecIn
  dsimp only
  rw [countMaxNnz_print hft hfin, if_neg hmax, hbraces, bind_eq_ok]
  constructor
  · rintro ⟨_, hpair, h⟩
    obtain rfl := Except.ok.inj hpair
    obtain ⟨_, hdim, h⟩ := bind_eq_ok.mp h
    obtain rfl := Except.ok.inj (readDim_print.symm.trans hdim)
    obtain ⟨_, hcheck, h⟩ := bind_eq_ok.mp h
    obtain ⟨_, hexpected, h⟩ := bind_eq_ok.mp h
    obtain ⟨_, hindices, h⟩ := bind_eq_ok.mp h
    exact ⟨hcheck, hexpected, hindices, Except.ok.inj h⟩
  · rintro ⟨hcheck, hexpected, hindices, rfl⟩
    refine ⟨_, rfl, bind_eq_ok.mpr ⟨_, readDim_print, ?_⟩⟩
    refine bind_eq_ok.mpr ⟨(), hcheck, bind_eq_ok.mpr ⟨(), hexpected, ?_⟩⟩
    exact bind_eq_ok.mpr ⟨(), hindices, rfl⟩

theorem length_of_sparsevecIn_print (hft : ft.Lawful) (hfin : ∀ e ∈ entries, IsFinite e.2)
    (h : sparsevecIn ft (print ft d entries) typmod = .ok v) :
    entries.length ≤ sparsevecMaxNnz := by
  unfold sparsevecIn at h
  dsimp only at h
  rw [countMaxNnz_print hft hfin] at h
  split_ifs at h with hmany
  unfold sparsevecMaxNnz at *
  omega

theorem of_sparsevecIn_print (hft : ft.Lawful) (hfin : ∀ e ∈ entries, IsFinite e.2)
    (h : sparsevecIn ft (print ft d entries) typmod = .ok v) :
    v = ⟨d, sorted entries⟩ := by
  have hroom := length_of_sparsevecIn_print hft hfin h
  obtain ⟨hcheck, -, hindices, rfl⟩ := (sparsevecIn_print hft hfin hroom).mp h
  have hd : d ≤ sparsevecMaxDim := le_of_intOf_le (checkDimOf_eq_ok_iff.mp hcheck).2
  rw [intOf_eq hd] at hindices ⊢
  have hbelow := (ascending_of_checkIndices hindices).2
  have hkept : ∀ e ∈ kept entries, e.1 < (sparsevecMaxDim : ℤ) := by
    intro e he
    have hlt := (hbelow e ((List.mergeSort_perm _ _).symm.subset he)).2
    exact hlt.trans_le (Int.ofNat_le.mpr hd)
  rw [sortElements_kept (lt_of_kept hkept), map_toNat_sorted, Int.toNat_natCast]

theorem sparsevecIn_of_perm (hft : ft.Lawful) (hfin : ∀ e ∈ entries, IsFinite e.2)
    (hroom : entries.length ≤ sparsevecMaxNnz) (htypmod : typmod = -1 ∨ typmod = v.dim)
    (hwf : WellFormed v) (hperm : v.elements.Perm (entries.filter fun e => !isZero e.2)) :
    sparsevecIn ft (print ft v.dim entries) typmod = .ok v := by
  have hsorted := sorted_eq hwf.ascending hperm
  have hlt : ∀ e ∈ entries.filter fun e => !isZero e.2, e.1 < sparsevecMaxDim := fun e he =>
    (hwf.ascending.lt e (hperm.symm.subset he)).trans_le hwf.dim_le
  rw [sparsevecIn_print hft hfin hroom, intOf_eq hwf.dim_le, sortElements_kept hlt,
    map_toNat_sorted, checkIndices_sorted, hsorted, follows_map_fst]
  refine ⟨checkDimOf_eq_ok_iff.mpr ⟨?_, ?_⟩, checkExpectedDim_eq_ok_iff.mpr htypmod,
    hwf.ascending, rfl⟩
  · exact Int.ofNat_le.mpr hwf.one_le_dim
  · exact Int.ofNat_le.mpr hwf.dim_le

end Printed

/-! ## Results -/

/-- A float printed as `1` or else as its bits. -/
def bitsText : FloatText where
  strtof
    | '1' :: _ => (0x3F800000, 1, false)
    | 'x' :: pt =>
        (.ofNat (Decimal.value pt), (pt.takeWhile Char.isDigit).length + 1, false)
    | _ => (0, 0, false)
  floatToShortestDecimal value :=
    if value = 0x3F800000 then ['1'] else 'x' :: Decimal.digits value.toNat

theorem lawful_bitsText : bitsText.Lawful where
  head x _ _ := by
    unfold bitsText
    dsimp only
    split_ifs
    · exact ⟨'1', [], rfl, rfl⟩
    · exact ⟨'x', _, rfl, rfl⟩
  no_comma x _ _ := by
    unfold bitsText
    dsimp only
    split_ifs
    · decide
    · rw [List.mem_cons]
      rintro (h | h)
      · exact absurd h (by decide)
      · exact absurd (Decimal.isDigit_of_mem h) (by decide)
  strtof x _ _ c rest hc := by
    have hdigit : ∀ c' ∈ (c :: rest).head?, ¬ c'.isDigit := by
      rintro _ ⟨⟩
      rcases hc with rfl | rfl <;> decide
    refine ⟨false, ?_, fun _ => rfl⟩
    unfold bitsText
    dsimp only
    split_ifs with hx
    · rw [hx]
      rfl
    · simp only [List.cons_append, Decimal.value_digits hdigit, takeWhile_digits hdigit,
        UInt32.ofNat_toNat, List.length_cons]

def threeEntries : List (ℕ × UInt32) := [(2, 0x3F800000), (1, 0), (0, 0x3F800000)]

def twoElements : SparseVector := ⟨3, [(0, 0x3F800000), (2, 0x3F800000)]⟩

theorem finite_threeEntries : ∀ e ∈ threeEntries, IsFinite e.2 := by
  unfold IsFinite
  decide

theorem wellFormed_twoElements : WellFormed twoElements where
  one_le_dim := by decide
  dim_le := by decide
  nnz_le := by decide
  ascending := ⟨by decide, by decide⟩
  finite := by decide
  ne_zero := by decide

theorem print_threeEntries : print bitsText 3 threeEntries = "\x7b3:1,2:x0,1:1\x7d/3".toList := by
  decide

theorem sparsevecIn_threeEntries :
    sparsevecIn bitsText (print bitsText twoElements.dim threeEntries) 3 = .ok twoElements :=
  sparsevecIn_of_perm lawful_bitsText finite_threeEntries (by decide) (.inr rfl)
    wellFormed_twoElements (by decide)

/-- What is accepted, of any text and with any reading of floats, is well formed and of the
expected dimension, and is what its own printed text gives. -/
theorem sparsevecIn_accepted (ft : FloatText) (lit : List Char) (typmod : ℤ) (v : SparseVector)
    (h : sparsevecIn ft lit typmod = .ok v) :
    WellFormed v ∧ (typmod = -1 ∨ typmod = v.dim) ∧
      (ft.Lawful → sparsevecIn ft (sparsevecOut ft v) typmod = .ok v) := by
  obtain ⟨hwf, htypmod⟩ := wellFormed_of_sparsevecIn h
  refine ⟨hwf, htypmod, fun hft => ?_⟩
  have hfilter : v.elements.filter (fun e => !isZero e.2) = v.elements :=
    List.filter_eq_self.mpr fun e he => by rw [hwf.ne_zero e he, Bool.not_false]
  have hperm : v.elements.Perm (v.elements.filter fun e => !isZero e.2) := by rw [hfilter]
  exact sparsevecIn_of_perm hft hwf.finite hwf.nnz_le htypmod hwf hperm

theorem sparsevecIn_accepted_three :
    sparsevecIn bitsText (sparsevecOut bitsText twoElements) 3 = .ok twoElements :=
  (sparsevecIn_accepted bitsText _ 3 twoElements sparsevecIn_threeEntries).2.2 lawful_bitsText

end VectorLsm.SparseVec
