import Mathlib.Algebra.Group.Nat.Even
import Mathlib.Order.Interval.Finset.Nat
import Mathlib.Tactic.Linarith
import VectorLsm.Lib.Blob
import VectorLsm.Search.Memtable

/-! # The layout of the vectors

The element size that a build records is that of a padded item, and the rows of a memtable are
aligned. The searches over a memtable and the builds from it take its rows as packed floats. The
blob of a memtable and the slots of the ring buffer have fixed sizes.
-/

namespace VectorLsm.Layout

open Search.SlotTable (maxAlign)

def sizeofFloat : ℕ := 4

/-! ## Columns -/

inductive AccessMethod where
  | hnsw
  | ivfflat
  deriving DecidableEq, Repr

inductive ElementType where
  | vector
  | halfvec
  | bit
  | sparsevec
  deriving DecidableEq, Repr

def hnswMaxDim : ℕ := 2000
def ivfflatMaxDim : ℕ := 2000
def sparsevecMaxDim : ℕ := 1000000000

/-- `maxDimensions` of the type info; IVFFlat has no operator class for `sparsevec`. -/
def maxDimensions : AccessMethod → ElementType → ℕ
  | .hnsw, .vector => hnswMaxDim
  | .hnsw, .halfvec => hnswMaxDim * 2
  | .hnsw, .bit => hnswMaxDim * 32
  | .hnsw, .sparsevec => sparsevecMaxDim
  | .ivfflat, .vector => ivfflatMaxDim
  | .ivfflat, .halfvec => ivfflatMaxDim * 2
  | .ivfflat, .bit => ivfflatMaxDim * 32
  | .ivfflat, .sparsevec => 0

/-- `VECTOR_SIZE`, with a header of 8 bytes. -/
def vectorSize (dim : ℕ) : ℕ := 8 + sizeofFloat * dim

/-- `HALFVEC_SIZE`. -/
def halfvecSize (dim : ℕ) : ℕ := 8 + 2 * dim

/-- `VARBITTOTALLEN`. -/
def varbitTotalLen (dim : ℕ) : ℕ := (dim + 7) / 8 + 4 + 4

/-- The size the vector array of a build is initialized with. HNSW takes it to be that of a
`vector` for every type. -/
def itemSize : AccessMethod → ElementType → ℕ → ℕ
  | .ivfflat, .halfvec, dim => halfvecSize dim
  | .ivfflat, .bit, dim => varbitTotalLen dim
  | _, _, dim => vectorSize dim

/-- A column that can be indexed. -/
structure Column where
  am : AccessMethod
  type : ElementType
  dim : ℕ
  pos : 0 < dim
  le : dim ≤ maxDimensions am type

/-- `itemsize / dimensions` of the vector array. -/
def Column.elemSize (c : Column) : ℕ := maxAlign (itemSize c.am c.type c.dim) / c.dim

/-! ## Rows of a memtable -/

def memtableVectorArraySizeBytes : ℕ := 128 * 1024 * 1024

def memtableMaxCapacity : ℕ := 50000

/-- The fields of a memtable that say where its rows are. -/
structure Rows where
  dim : ℕ
  elemSize : ℕ
  capacity : ℕ
  deriving DecidableEq, Repr

/-- What `register_and_set_memtable` sets; `none` where it divides by zero. -/
def registerAndSetMemtable (dim elemSize memtableCapacity : ℕ) : Option Rows :=
  let vecbytes := dim * elemSize
  if vecbytes = 0 then none
  else
    let capByBytes := memtableVectorArraySizeBytes / vecbytes
    some ⟨dim, elemSize, min capByBytes memtableCapacity⟩

namespace Rows

variable (mt : Rows)

def vecBytesPerRow : ℕ := mt.dim * mt.elemSize

/-- `VEC_PTR_AT`, from the start of the blob. -/
def vecPtrAt (i : ℕ) : ℕ := i * maxAlign mt.vecBytesPerRow

/-- The bytes that the copy of a vector into slot `i` writes. -/
def written (i : ℕ) : Finset ℕ :=
  Finset.Ico (mt.vecPtrAt i) (mt.vecPtrAt i + mt.vecBytesPerRow)

/-- The bytes that `BruteForceSearch` and `IndexBuild` take for row `i`. -/
def packed (i : ℕ) : Finset ℕ :=
  Finset.Ico (i * mt.dim * sizeofFloat) (i * mt.dim * sizeofFloat + mt.dim * sizeofFloat)

/-- Writers and readers mean the same bytes by row `i`. -/
def Agrees (i : ℕ) : Prop := mt.written i = mt.packed i

/-- The rows below the capacity lie in the blob. -/
def Inside : Prop :=
  ∀ i < mt.capacity, mt.written i ⊆ Finset.range memtableVectorArraySizeBytes

end Rows

/-! ## Slots of the ring buffer -/

/-- `MAX_DIM` of the ring buffer. -/
def maxDim : ℕ := 1024

def sizeofLSMSnapshot : ℕ := 4 + 4 + 4 * memtableNum + 4 + 4 * memtableNum

/-- The fields, with `vector_dim` of eight bytes, and the padding at the end. -/
def sizeofVectorSearchTaskData : ℕ := maxAlign (4 + 4 + 8 + 4 + 4 + sizeofLSMSnapshot)

def searchTaskStride : ℕ := maxAlign sizeofVectorSearchTaskData + sizeofFloat * maxDim

def vsSearchTaskAt (slot : ℕ) : ℕ := slot * searchTaskStride

def vsSearchTaskVectorAt (slot : ℕ) : ℕ :=
  vsSearchTaskAt slot + maxAlign sizeofVectorSearchTaskData

/-- The bytes of the task pool that are those of a slot. -/
def taskSlot (slot : ℕ) : Finset ℕ :=
  Finset.Ico (vsSearchTaskAt slot) (vsSearchTaskAt slot + searchTaskStride)

/-- The bytes that `vector_search_send` copies the query to. -/
def queryWritten (dim slot : ℕ) : Finset ℕ :=
  Finset.Ico (vsSearchTaskVectorAt slot) (vsSearchTaskVectorAt slot + sizeofFloat * dim)

/-! ## Agreement -/

/-- The dimensions at which the element size is that of a float. -/
def FloatSized : AccessMethod → ElementType → ℕ → Prop
  | .ivfflat, .halfvec, dim => 4 ≤ dim ∧ dim ≤ 6
  | .ivfflat, .bit, dim => dim = 4
  | _, _, dim => dim = 10 ∨ 12 ≤ dim

section Agreement

variable {mt : Rows} {a b n m i j : ℕ}

theorem le_maxAlign (n : ℕ) : n ≤ maxAlign n := by
  unfold maxAlign
  omega

theorem maxAlign_eq_iff : maxAlign n = n ↔ 8 ∣ n := by
  unfold maxAlign
  omega

theorem Ico_eq_Ico_iff (hm : 0 < m) :
    Finset.Ico a (a + n) = Finset.Ico b (b + m) ↔ a = b ∧ n = m := by
  constructor
  · intro h
    have hcard : n = m := by simpa using congrArg Finset.card h
    have ha : a ∈ Finset.Ico b (b + m) := by
      rw [← h, Finset.mem_Ico]
      omega
    have hb : b ∈ Finset.Ico a (a + n) := by
      rw [h, Finset.mem_Ico]
      omega
    rw [Finset.mem_Ico] at ha hb
    exact ⟨by omega, hcard⟩
  · rintro ⟨rfl, rfl⟩
    rfl

theorem Rows.agrees_iff_eq (hdim : 0 < mt.dim) :
    mt.Agrees i ↔ mt.vecPtrAt i = i * mt.dim * sizeofFloat ∧
      mt.vecBytesPerRow = mt.dim * sizeofFloat :=
  Ico_eq_Ico_iff (Nat.mul_pos hdim (by decide))

theorem elemSize_eq_iff (c : Column) :
    c.elemSize = sizeofFloat ↔ FloatSized c.am c.type c.dim := by
  obtain ⟨am, type, dim, hpos, hle⟩ := c
  simp only [Column.elemSize, sizeofFloat, Nat.div_eq_iff hpos, maxAlign]
  cases am <;> cases type <;>
    simp only [itemSize, vectorSize, halfvecSize, varbitTotalLen, FloatSized, sizeofFloat] <;>
    omega

/-- The rows lie where the readers look for them exactly where the element size is that of a
float and no row but the first is behind padding. -/
theorem Rows.agrees_iff (hdim : 0 < mt.dim) :
    mt.Agrees i ↔ mt.elemSize = sizeofFloat ∧ (Even mt.dim ∨ i = 0) := by
  rw [agrees_iff_eq hdim, vecBytesPerRow, Nat.mul_right_inj (Nat.ne_of_gt hdim), and_comm]
  refine and_congr_right fun helem => ?_
  rw [vecPtrAt, vecBytesPerRow, helem, Nat.mul_assoc]
  have heven : 8 ∣ mt.dim * sizeofFloat ↔ Even mt.dim := by
    rw [even_iff_two_dvd]
    unfold sizeofFloat
    omega
  rcases Nat.eq_zero_or_pos i with rfl | hi
  · simp
  · rw [Nat.mul_right_inj (Nat.ne_of_gt hi), maxAlign_eq_iff, heven]
    exact (or_iff_left (Nat.ne_of_gt hi)).symm

theorem Rows.vecPtrAt_apart (hij : i < j) :
    mt.vecPtrAt i + mt.vecBytesPerRow ≤ mt.vecPtrAt j := by
  calc mt.vecPtrAt i + mt.vecBytesPerRow
      ≤ i * maxAlign mt.vecBytesPerRow + maxAlign mt.vecBytesPerRow :=
        Nat.add_le_add_left (le_maxAlign _) _
    _ = (i + 1) * maxAlign mt.vecBytesPerRow := (Nat.succ_mul ..).symm
    _ ≤ mt.vecPtrAt j := Nat.mul_le_mul_right _ hij

/-- Where all rows agree, a packed reader gets of each slot what was copied into it, whatever the
order of the copies. -/
theorem Rows.load_packed {B : Type*} {m : ℕ → B} {items : List (ℕ × List B)} {x : ℕ × List B}
    (hdim : 0 < mt.dim) (hall : ∀ i < mt.capacity, mt.Agrees i)
    (hin : ∀ x ∈ items, x.1 < mt.capacity) (hsize : ∀ x ∈ items, x.2.length = mt.vecBytesPerRow)
    (hnodup : (items.map Prod.fst).Nodup) (hx : x ∈ items) :
    Blob.load (Blob.memcpyAll mt.vecPtrAt m items) (x.1 * mt.dim * sizeofFloat)
      (mt.dim * sizeofFloat) = x.2 := by
  obtain ⟨hptr, hrow⟩ := (agrees_iff_eq hdim).mp (hall x.1 (hin x hx))
  rw [← hptr, ← hrow]
  refine Blob.load_memcpyAll hsize (fun y _ z _ hne => ?_) hnodup hx
  rcases Nat.lt_or_gt_of_ne hne with hlt | hgt
  · exact .inl (vecPtrAt_apart hlt)
  · exact .inr (vecPtrAt_apart hgt)

theorem registerAndSetMemtable_eq_some {dim elemSize setting : ℕ}
    (h : registerAndSetMemtable dim elemSize setting = some mt) :
    0 < dim * elemSize ∧ mt = ⟨dim, elemSize,
      min (memtableVectorArraySizeBytes / (dim * elemSize)) setting⟩ := by
  unfold registerAndSetMemtable at h
  dsimp only at h
  split at h
  case isTrue => cases h
  case isFalse hne => exact ⟨Nat.pos_of_ne_zero hne, (Option.some.inj h).symm⟩

end Agreement

/-- For every column, setting and slot of a memtable that is registered for it. -/
theorem agrees_registered_iff (c : Column) (memtableCapacity : ℕ) (mt : Rows)
    (h : registerAndSetMemtable c.dim c.elemSize memtableCapacity = some mt) (i : ℕ)
    (_ : i < mt.capacity) :
    mt.Agrees i ↔ FloatSized c.am c.type c.dim ∧ (Even c.dim ∨ i = 0) := by
  obtain ⟨-, rfl⟩ := registerAndSetMemtable_eq_some h
  rw [Rows.agrees_iff c.pos, elemSize_eq_iff]

section Demo

/-- A `vector` column under HNSW. -/
def demoColumn (dim : ℕ) (hpos : 0 < dim) (hle : dim ≤ hnswMaxDim) : Column :=
  ⟨.hnsw, .vector, dim, hpos, hle⟩

/-- Three dimensions have elements of eight bytes. -/
theorem not_agrees_registered : ¬ ∀ (c : Column) (memtableCapacity : ℕ) (mt : Rows),
    registerAndSetMemtable c.dim c.elemSize memtableCapacity = some mt →
      ∀ i < mt.capacity, mt.Agrees i := by
  intro h
  have hreg : registerAndSetMemtable 3 (demoColumn 3 (by decide) (by decide)).elemSize
      memtableMaxCapacity = some ⟨3, 8, memtableMaxCapacity⟩ := by decide
  have hagree := h (demoColumn 3 (by decide) (by decide)) memtableMaxCapacity _ hreg 1 (by decide)
  exact absurd ((Rows.agrees_iff (by decide)).mp hagree).1 (by decide)

theorem agrees_registered_iff_demoTwelve :
    (⟨12, 4, memtableMaxCapacity⟩ : Rows).Agrees 7 :=
  (agrees_registered_iff (demoColumn 12 (by decide) (by decide)) memtableMaxCapacity _ (by decide)
    7 (by decide)).mpr ⟨.inr (by decide), .inl (by decide)⟩

end Demo

/-! ## Sizes -/

/-- The bytes a dimension takes in a row, from sixteen dimensions on. -/
def floatBytes : AccessMethod → ElementType → ℕ
  | .ivfflat, .halfvec => 2
  | .ivfflat, .bit => 0
  | _, _ => 4

/-- The rows of a capacity lie in the blob, or there is no padding behind them. -/
def RowsFit (am : AccessMethod) (type : ElementType) (dim memtableCapacity : ℕ) : Prop :=
  8 ∣ dim * floatBytes am type ∨
    (memtableCapacity - 1) * maxAlign (dim * floatBytes am type) + dim * floatBytes am type ≤
      memtableVectorArraySizeBytes

section Sizes

variable {mt : Rows} {r n dim slot i j : ℕ} {am : AccessMethod} {type : ElementType}

theorem Ico_subset_Ico_iff' (hn : 0 < n) {a b m : ℕ} :
    Finset.Ico a (a + n) ⊆ Finset.Ico b (b + m) ↔ b ≤ a ∧ a + n ≤ b + m :=
  Finset.Ico_subset_Ico_iff (by omega)

theorem queryWritten_subset_iff (hdim : 0 < dim) :
    queryWritten dim slot ⊆ taskSlot slot ↔ dim ≤ maxDim := by
  have hbytes : 0 < sizeofFloat * dim := Nat.mul_pos (by decide) hdim
  rw [queryWritten, taskSlot, Ico_subset_Ico_iff' hbytes, vsSearchTaskVectorAt, searchTaskStride]
  unfold sizeofFloat at hbytes ⊢
  omega

theorem Rows.inside_iff (hrow : 0 < mt.vecBytesPerRow) :
    mt.Inside ↔ mt.capacity = 0 ∨ (mt.capacity - 1) * maxAlign mt.vecBytesPerRow +
      mt.vecBytesPerRow ≤ memtableVectorArraySizeBytes := by
  have hmem (i : ℕ) : mt.written i ⊆ Finset.range memtableVectorArraySizeBytes ↔
      mt.vecPtrAt i + mt.vecBytesPerRow ≤ memtableVectorArraySizeBytes := by
    rw [written, Finset.range_eq_Ico, Finset.Ico_subset_Ico_iff (by omega)]
    exact and_iff_right (Nat.zero_le _)
  constructor
  · intro h
    rcases Nat.eq_zero_or_pos mt.capacity with hzero | hpos
    · exact .inl hzero
    · exact .inr ((hmem _).mp (h (mt.capacity - 1) (Nat.sub_lt hpos one_pos)))
  · intro h i hi
    refine (hmem i).mpr ?_
    rcases h with hzero | hlast
    · omega
    · refine le_trans (Nat.add_le_add_right ?_ _) hlast
      exact Nat.mul_le_mul_right _ (by omega)

/-- A capacity that comes from the number of rows that fit, aligned or not. A row is small
against the number of rows, so padding adds up to more than a row. -/
theorem capacity_iff (hr : 0 < r) (hsmall : r ≤ 8000) (hn : 0 < n) :
    (min (memtableVectorArraySizeBytes / r) n - 1) * maxAlign r + r ≤
        memtableVectorArraySizeBytes ↔
      8 ∣ r ∨ (n - 1) * maxAlign r + r ≤ memtableVectorArraySizeBytes := by
  obtain ⟨size, hsize⟩ : ∃ size, size = memtableVectorArraySizeBytes := ⟨_, rfl⟩
  have hbig : 8001 * 8000 ≤ size := by rw [hsize]; decide
  rw [← hsize]
  obtain ⟨q, hq⟩ : ∃ q, q = size / r := ⟨_, rfl⟩
  have hrows : q * r ≤ size := hq ▸ Nat.div_mul_le_self size r
  have hlast : size < r * (q + 1) := hq ▸ Nat.lt_mul_div_succ size hr
  have hmany : 8001 ≤ q := by
    rw [hq, Nat.le_div_iff_mul_le hr]
    exact (Nat.mul_le_mul_left _ hsmall).trans hbig
  rw [← hq]
  by_cases hdvd : 8 ∣ r
  · refine iff_of_true ?_ (.inl hdvd)
    rw [maxAlign_eq_iff.mpr hdvd, ← Nat.succ_mul, Nat.succ_eq_add_one,
      Nat.sub_add_cancel (Nat.le_min.mpr ⟨by omega, hn⟩)]
    exact (Nat.mul_le_mul_right r (Nat.min_le_left q n)).trans hrows
  rw [or_iff_right hdvd]
  rcases Nat.le_total n q with hle | hle
  · rw [Nat.min_eq_right hle]
  -- one more byte for each row but the last
  have hpad : r + 1 ≤ maxAlign r :=
    Nat.lt_of_le_of_ne (le_maxAlign r) fun h => hdvd (maxAlign_eq_iff.mp h.symm)
  have hout : size < (q - 1) * maxAlign r + r := by
    calc size < r * (q + 1) := hlast
      _ ≤ (q - 1) * (r + 1) + r := by
        obtain ⟨q', rfl⟩ := Nat.exists_eq_add_of_le' (by omega : 1 ≤ q)
        rw [Nat.add_sub_cancel]
        linarith
      _ ≤ (q - 1) * maxAlign r + r := Nat.add_le_add_right (Nat.mul_le_mul_left _ hpad) r
  have hmore : (q - 1) * maxAlign r ≤ (n - 1) * maxAlign r :=
    Nat.mul_le_mul_right _ (Nat.sub_le_sub_right hle 1)
  rw [Nat.min_eq_left hle]
  exact iff_of_false (by omega) (by omega)

/-- From sixteen dimensions on the padding of the item is not seen in the element size. -/
theorem elemSize_of_le (c : Column) (h : 16 < c.dim) (hmax : c.dim ≤ hnswMaxDim) :
    c.elemSize = floatBytes c.am c.type := by
  obtain ⟨am, type, dim, hpos, hle⟩ := c
  unfold hnswMaxDim at hmax
  dsimp only at h hmax
  simp only [Column.elemSize, Nat.div_eq_iff hpos, maxAlign]
  cases am <;> cases type <;>
    simp only [itemSize, vectorSize, halfvecSize, varbitTotalLen, floatBytes, sizeofFloat] <;>
    omega

theorem vecBytes_le (c : Column) : c.dim * c.elemSize ≤ maxAlign (itemSize c.am c.type c.dim) :=
  Nat.mul_div_le _ _

theorem itemSize_le (am : AccessMethod) (type : ElementType) (dim : ℕ) :
    itemSize am type dim ≤ vectorSize dim := by
  cases am <;> cases type <;>
    simp only [itemSize, vectorSize, halfvecSize, varbitTotalLen, sizeofFloat] <;> omega

theorem floatBytes_le (am : AccessMethod) (type : ElementType) : floatBytes am type ≤ 4 := by
  cases am <;> cases type <;> decide

/-- So few bytes a row always fit. -/
theorem fit_of_le {cap : ℕ} (hrow : r ≤ 80) (hcap : cap ≤ memtableMaxCapacity) :
    (cap - 1) * maxAlign r + r ≤ memtableVectorArraySizeBytes := by
  have halign : maxAlign r ≤ 80 := by
    unfold maxAlign
    omega
  calc (cap - 1) * maxAlign r + r
      ≤ memtableMaxCapacity * 80 + 80 :=
        Nat.add_le_add (Nat.mul_le_mul ((Nat.sub_le ..).trans hcap) halign) hrow
    _ ≤ memtableVectorArraySizeBytes := by decide

/-- The rows of a memtable that is registered lie in the blob under the condition. -/
theorem inside_iff (c : Column) (hdim : c.dim ≤ hnswMaxDim) (hn : 0 < n)
    (hmax : n ≤ memtableMaxCapacity) :
    (∀ mt, registerAndSetMemtable c.dim c.elemSize n = some mt → mt.Inside) ↔
      RowsFit c.am c.type c.dim n := by
  rcases Nat.lt_or_ge 16 c.dim with hlarge | hsmall
  · have helem := elemSize_of_le c hlarge hdim
    obtain ⟨r, hr⟩ : ∃ r, r = c.dim * floatBytes c.am c.type := ⟨_, rfl⟩
    rw [RowsFit, helem, ← hr]
    rcases Nat.eq_zero_or_pos r with hzero | hpos
    · refine iff_of_true (fun mt hmt => ?_) (.inl (hzero ▸ dvd_zero 8))
      exact absurd ((hr ▸ registerAndSetMemtable_eq_some hmt).1) (by omega)
    have hrow : r ≤ 8000 := by
      rw [hr]
      exact Nat.mul_le_mul hdim (floatBytes_le _ _)
    have hcap : min (memtableVectorArraySizeBytes / r) n ≠ 0 := by
      have hq : 1 ≤ memtableVectorArraySizeBytes / r :=
        (Nat.le_div_iff_mul_le hpos).mpr ((Nat.one_mul r).le.trans (hrow.trans (by decide)))
      omega
    rw [← capacity_iff hpos hrow hn]
    have hreg : registerAndSetMemtable c.dim (floatBytes c.am c.type) n =
        some ⟨c.dim, floatBytes c.am c.type, min (memtableVectorArraySizeBytes / r) n⟩ := by
      rw [registerAndSetMemtable, ← hr]
      exact if_neg (Nat.ne_of_gt hpos)
    have hinside := @Rows.inside_iff ⟨c.dim, floatBytes c.am c.type,
      min (memtableVectorArraySizeBytes / r) n⟩ (hr ▸ hpos)
    rw [or_iff_right hcap, Rows.vecBytesPerRow, ← hr] at hinside
    rw [← hinside]
    constructor
    · intro h
      exact h _ hreg
    · intro h mt hmt
      rw [hreg] at hmt
      exact Option.some.inj hmt ▸ h
  · refine iff_of_true (fun mt hmt => ?_) (.inr (fit_of_le ?_ hmax))
    · obtain ⟨hpos, rfl⟩ := registerAndSetMemtable_eq_some hmt
      have hinside := @Rows.inside_iff ⟨c.dim, c.elemSize,
        min (memtableVectorArraySizeBytes / (c.dim * c.elemSize)) n⟩ hpos
      refine hinside.mpr (.inr (fit_of_le ?_ ((Nat.min_le_right ..).trans hmax)))
      have hitem := itemSize_le c.am c.type c.dim
      have hbytes := vecBytes_le c
      unfold vectorSize sizeofFloat at hitem
      unfold maxAlign at hbytes
      exact hbytes.trans (by omega)
    · exact (Nat.mul_le_mul hsmall (floatBytes_le _ _)).trans (by decide)

end Sizes

/-- Every row below the capacity lies in the blob, and every query in its task slot. -/
def Suffice (c : Column) (memtableCapacity : ℕ) : Prop :=
  (∀ mt, registerAndSetMemtable c.dim c.elemSize memtableCapacity = some mt → mt.Inside) ∧
    ∀ slot, queryWritten c.dim slot ⊆ taskSlot slot

/-- For every column of at most `HNSW_MAX_DIM` dimensions and every capacity that can be set. -/
theorem suffice_iff (c : Column) (hdim : c.dim ≤ hnswMaxDim) (memtableCapacity : ℕ)
    (hpos : 0 < memtableCapacity) (hmax : memtableCapacity ≤ memtableMaxCapacity) :
    Suffice c memtableCapacity ↔
      RowsFit c.am c.type c.dim memtableCapacity ∧ c.dim ≤ maxDim := by
  rw [Suffice, inside_iff c hdim hpos hmax]
  refine and_congr_right fun _ => ?_
  constructor
  · intro h
    exact (queryWritten_subset_iff c.pos).mp (h 0)
  · intro h slot
    exact (queryWritten_subset_iff c.pos).mpr h

section Demo

/-- A query of 1025 dimensions ends in the slot after its own. -/
theorem not_suffice : ¬ ∀ (c : Column) (memtableCapacity : ℕ), c.dim ≤ hnswMaxDim →
    0 < memtableCapacity → memtableCapacity ≤ memtableMaxCapacity →
      Suffice c memtableCapacity := by
  intro h
  have hquery := (h (demoColumn 1025 (by decide) (by decide)) memtableMaxCapacity (by decide)
    (by decide) le_rfl).2 0
  exact absurd ((queryWritten_subset_iff (by decide)).mp hquery) (by decide)

theorem suffice_iff_demoThousand :
    Suffice (demoColumn 1000 (by decide) (by decide)) memtableMaxCapacity :=
  (suffice_iff (demoColumn 1000 (by decide) (by decide)) (by decide) memtableMaxCapacity
    (by decide) le_rfl).mpr ⟨.inl (by decide), by decide⟩

end Demo

end VectorLsm.Layout
