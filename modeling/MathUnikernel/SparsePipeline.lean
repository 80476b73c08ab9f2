import MathUnikernel.BandedMatrix
import MathUnikernel.SparseProduct

/-!
# The product with a banded matrix

`spmv_csr` on the arrays that `generate_banded_matrix` fills.

A load of eight values is not modelled as a fault where its index is no multiple of eight.  Which
matrices have such loads is asked at the end, of the accesses.
-/

namespace MathUnikernel.MathLib
open Loops Finset

/-! ## The pipeline -/

/-- None of the arrays overlaps another of its kind. -/
structure PipelineArrays (values colIdx rowPtr x y numRows bandWidth : ℕ) : Prop where
  words_apart : colIdx + bandCount numRows bandWidth ≤ rowPtr ∨ rowPtr + (numRows + 1) ≤ colIdx
  values_x : values + bandCount numRows bandWidth ≤ x ∨ x + numRows ≤ values
  values_y : values + bandCount numRows bandWidth ≤ y ∨ y + numRows ≤ values
  x_y : x + numRows ≤ y ∨ y + numRows ≤ x

/-- The banded operator. -/
def bandProduct (numRows bandWidth : ℕ) (x : ℕ → ℚ) (row : ℕ) : ℚ :=
  ∑ col ∈ (range numRows).filter (fun col : ℕ => |(row : ℤ) - col| ≤ bandWidth),
    x col / (1 + |(row : ℚ) - col|)

/-- The two functions together compute the banded operator, and the offsets say how many elements
there are. -/
def PipelineOk (numRows bandWidth : ℕ) : Prop :=
  ∀ (values colIdx rowPtr x y : ℕ) (m : Memory ℚ),
    PipelineArrays values colIdx rowPtr x y numRows bandWidth →
    ∃ fuel₀, ∀ fuel, fuel₀ ≤ fuel → ∃ nnz m₁ m₂,
      generateBandedMatrix values colIdx rowPtr numRows bandWidth fuel m = some (nnz, m₁) ∧
      spmvCsr values colIdx rowPtr x y numRows fuel m₁ = some m₂ ∧
      (∀ row < numRows, m₂.floats (y + row) =
        bandProduct numRows bandWidth (fun col => m.floats (x + col)) row) ∧
      nnz = m₁.words (rowPtr + numRows)

/-- The length of the last row. -/
def lastLength (numRows bandWidth : ℕ) : ℕ := min bandWidth (numRows - 1) + 1

section
variable {numRows bandWidth : ℕ}

theorem bandLength_last (hpos : 0 < numRows) :
    bandLength numRows bandWidth (numRows - 1) = lastLength numRows bandWidth := by
  unfold bandLength bandStop bandStart lastLength
  omega

theorem bandCount_last (hpos : 0 < numRows) : bandCount numRows bandWidth =
    bandOffset numRows bandWidth (numRows - 1) + lastLength numRows bandWidth := by
  rw [← bandLength_last hpos, ← bandOffset_succ, Nat.sub_add_cancel hpos]
  rfl

/-- Every place belongs to a row. -/
theorem exists_row_of_lt {r i : ℕ} (hi : i < bandOffset numRows bandWidth r) :
    ∃ row < r, ∃ t < bandLength numRows bandWidth row, i = bandOffset numRows bandWidth row + t := by
  induction r with
  | zero => exact absurd hi (Nat.not_lt_zero i)
  | succ r ih =>
    rw [bandOffset_succ] at hi
    by_cases hlt : i < bandOffset numRows bandWidth r
    · obtain ⟨row, hrow, hplace⟩ := ih hlt
      exact ⟨row, hrow.trans (Nat.lt_succ_self r), hplace⟩
    · exact ⟨r, Nat.lt_succ_self r, i - bandOffset numRows bandWidth r, by omega, by omega⟩

/-- The columns of a row. -/
theorem filter_band (row : ℕ) :
    (range numRows).filter (fun col : ℕ => |(row : ℤ) - col| ≤ bandWidth) =
      Ico (bandStart bandWidth row) (bandStop numRows bandWidth row) := by
  ext col
  rw [mem_filter, mem_range, mem_Ico, abs_le]
  unfold bandStart bandStop
  omega

/-- The whole groups of eight end before the last elements of the last row. -/
theorem vecEnd_band (hpos : 0 < numRows) {row : ℕ} (hrow : row < numRows) :
    vecEnd (bandOffset numRows bandWidth row) (bandOffset numRows bandWidth (row + 1)) ≤
      bandCount numRows bandWidth - lastLength numRows bandWidth % 8 := by
  have hcount := @bandCount_last numRows bandWidth hpos
  have hmod := Nat.mod_le (lastLength numRows bandWidth) 8
  rcases Nat.lt_or_ge (row + 1) numRows with hlt | hge
  · have hle := (vecEnd_le (@bandOffset_mono numRows bandWidth row (row + 1) (Nat.le_succ row))).1
    have hlast := @bandOffset_mono numRows bandWidth (row + 1) (numRows - 1) (by omega)
    omega
  · obtain rfl : row = numRows - 1 := by omega
    rw [bandOffset_succ, bandLength_last hpos]
    unfold vecEnd
    omega

theorem vecEnd_band_last (hpos : 0 < numRows) :
    vecEnd (bandOffset numRows bandWidth (numRows - 1)) (bandOffset numRows bandWidth numRows) =
      bandCount numRows bandWidth - lastLength numRows bandWidth % 8 := by
  have hcount := @bandCount_last numRows bandWidth hpos
  have hoffset : bandOffset numRows bandWidth numRows = bandCount numRows bandWidth := rfl
  rw [hoffset, hcount]
  unfold vecEnd
  omega

variable {values colIdx rowPtr x y nnz fuel : ℕ} {m m₁ : Memory ℚ}

/-- The sum of a row of the filled arrays. -/
theorem rowValue_band
    (h : Filled values colIdx rowPtr numRows bandWidth m numRows 0 (numRows + 1) (nnz, m₁))
    (harrays : PipelineArrays values colIdx rowPtr x y numRows bandWidth)
    (hcount : bandCount numRows bandWidth < 2 ^ 32) {row : ℕ} (hrow : row < numRows) :
    rowValue m₁ values colIdx rowPtr x row =
      bandProduct numRows bandWidth (fun col => m.floats (x + col)) row := by
  have hx := harrays.values_x
  rw [rowValue, bandProduct, filter_band row, h.words_rowPtr hcount hrow.le,
    h.words_rowPtr hcount hrow, sum_Ico_eq_sum_range, sum_Ico_eq_sum_range, bandOffset_succ,
    Nat.add_sub_cancel_left]
  apply sum_congr rfl
  intro t ht
  have htlt := mem_range.mp ht
  obtain ⟨hcol, -⟩ := bandStart_add_lt htlt
  obtain ⟨hword, hvalue⟩ := h.element row t (.inl ⟨hrow, htlt⟩)
  have hkept : m₁.floats (x + (bandStart bandWidth row + t)) =
      m.floats (x + (bandStart bandWidth row + t)) := by
    apply h.floats
    change _ ∨ values + (bandCount numRows bandWidth + 0) ≤ _
    omega
  dsimp only at hword hvalue
  rw [term, hword, hvalue, hkept, bandValue]
  push_cast
  ring

theorem Filled.words_mono
    (h : Filled values colIdx rowPtr numRows bandWidth m numRows 0 (numRows + 1) (nnz, m₁))
    (hcount : bandCount numRows bandWidth < 2 ^ 32) :
    ∀ row < numRows, m₁.words (rowPtr + row) ≤ m₁.words (rowPtr + (row + 1)) := by
  intro row hrow
  rw [h.words_rowPtr hcount hrow.le, h.words_rowPtr hcount hrow]
  exact bandOffset_mono (Nat.le_succ row)

theorem Filled.rowOffsets
    (h : Filled values colIdx rowPtr numRows bandWidth m numRows 0 (numRows + 1) (nnz, m₁))
    (hcount : bandCount numRows bandWidth + 8 < 2 ^ 32) : RowOffsets m₁.words rowPtr numRows := by
  refine ⟨h.words_mono (by omega), ?_⟩
  rw [h.words_rowPtr (by omega) le_rfl]
  exact hcount

/-- The columns of the filled arrays are in range. -/
theorem Filled.sparseArrays
    (h : Filled values colIdx rowPtr numRows bandWidth m numRows 0 (numRows + 1) (nnz, m₁))
    (hcount : bandCount numRows bandWidth < 2 ^ 32)
    (hvalues : values + bandCount numRows bandWidth ≤ y ∨ y + numRows ≤ values)
    (hx : x + numRows ≤ y ∨ y + numRows ≤ x) :
    SparseArrays m₁.words values colIdx rowPtr x y numRows numRows := by
  have hlast : m₁.words (rowPtr + numRows) = bandCount numRows bandWidth :=
    h.words_rowPtr hcount le_rfl
  refine ⟨fun i _ hi => ?_, ?_, hx⟩
  · rw [hlast] at hi
    obtain ⟨row, hrow, t, ht, rfl⟩ := exists_row_of_lt hi
    rw [(h.element row t (.inl ⟨hrow, ht⟩)).1]
    exact (bandStart_add_lt ht).1
  · rw [hlast]
    exact hvalues

theorem pipelineOk_of_lt (hrows : numRows ≤ 2 ^ 32) (hband : numRows + bandWidth < 2 ^ 63)
    (h : bandCount numRows bandWidth + 8 < 2 ^ 32 + lastLength numRows bandWidth % 8) :
    PipelineOk numRows bandWidth := by
  intro values colIdx rowPtr x y m harrays
  refine ⟨2 ^ 32 + 1, fun fuel hfuel => ?_⟩
  have hcount : bandCount numRows bandWidth < 2 ^ 32 := by omega
  obtain ⟨⟨nnz, m₁⟩, hrun, hfilled⟩ := @filled_generateBandedMatrix colIdx rowPtr numRows bandWidth
    ⟨hrows, hband, harrays.words_apart⟩ values m fuel (by omega)
  have hoffset := fun row (hrow : row ≤ numRows) => hfilled.words_rowPtr hcount hrow
  have hmono := hfilled.words_mono hcount
  have hends : ∀ row < numRows,
      vecEnd (m₁.words (rowPtr + row)) (m₁.words (rowPtr + (row + 1))) + 8 < 2 ^ 32 := by
    intro row hrow
    have hle := @vecEnd_band numRows bandWidth (by omega) row hrow
    have hlast := @bandCount_last numRows bandWidth (by omega)
    rw [hoffset row hrow.le, hoffset (row + 1) hrow]
    omega
  have hsparse := hfilled.sparseArrays hcount harrays.values_y harrays.x_y
  refine ⟨nnz, m₁, _, hrun, spmvCsr_eq (by omega) hmono hends hsparse (by omega) (by omega),
    fun row hrow => ?_, ?_⟩
  · rw [← rowValue_band hfilled harrays hcount hrow, afterRows]
    dsimp only
    rw [if_pos (by omega), Nat.add_sub_cancel_left]
  · have hnnz := hfilled.nnz
    rw [hoffset numRows le_rfl]
    exact hnnz.trans (Nat.mod_eq_of_lt (hcount.trans (by norm_num)))

/-- With 2 ^ 64 elements the matrix has 2 ^ 32 full rows. -/
theorem bandLength_of_full (hrows : numRows ≤ 2 ^ 32) (h : 2 ^ 64 ≤ bandCount numRows bandWidth) :
    numRows = 2 ^ 32 ∧ ∀ row < numRows, bandLength numRows bandWidth row = 2 ^ 32 := by
  have hsquare := @bandCount_le_square numRows bandWidth
  have hnum : numRows = 2 ^ 32 := by
    by_contra hne
    have hlt : numRows ≤ 2 ^ 32 - 1 := by omega
    have hmul := Nat.mul_le_mul hlt hlt
    omega
  refine ⟨hnum, fun row hrow => ?_⟩
  by_contra hne
  have hle := @bandLength_le numRows bandWidth row
  have hsum : bandCount numRows bandWidth < ∑ _ ∈ range numRows, numRows :=
    sum_lt_sum (fun r _ => bandLength_le r) ⟨row, mem_range.mpr hrow, by omega⟩
  rw [sum_const, card_range, smul_eq_mul, hnum] at hsum
  rw [hnum] at h
  omega

theorem bandOffset_of_full (h : ∀ row < numRows, bandLength numRows bandWidth row = 2 ^ 32) {row : ℕ}
    (hrow : row ≤ numRows) : bandOffset numRows bandWidth row = row * 2 ^ 32 := by
  rw [bandOffset, sum_congr rfl fun r hr => h r ((mem_range.mp hr).trans_le hrow), sum_const,
    card_range, smul_eq_mul]

/-- A vector of ones has positive products. -/
theorem bandProduct_ones_pos {row : ℕ} (hrow : row < numRows) :
    0 < bandProduct numRows bandWidth (fun _ => 1) row := by
  apply sum_pos
  · intro col _
    positivity
  · refine ⟨row, mem_filter.mpr ⟨mem_range.mpr hrow, ?_⟩⟩
    rw [sub_self, abs_zero]
    exact Int.natCast_nonneg bandWidth

/-- With 2 ^ 64 elements every offset is stored as zero, and so every row is empty. -/
theorem spmvCsr_full (hrows : numRows ≤ 2 ^ 32) (hfull : 2 ^ 64 ≤ bandCount numRows bandWidth)
    (h : Filled values colIdx rowPtr numRows bandWidth m numRows 0 (numRows + 1) (nnz, m₁))
    (hapart : x + numRows ≤ y ∨ y + numRows ≤ x)
    (hvalues : values ≤ y) (hfuel : 2 ^ 32 < fuel) :
    ∃ m₂, spmvCsr values colIdx rowPtr x y numRows fuel m₁ = some m₂ ∧ m₂.floats (y + 0) = 0 := by
  obtain ⟨hnum, hlength⟩ := bandLength_of_full hrows hfull
  have hzero : ∀ row ≤ numRows, m₁.words (rowPtr + row) = 0 := by
    intro row hrow
    rw [h.offset row (by omega), bandOffset_of_full hlength hrow]
    exact Nat.mul_mod_left row _
  refine ⟨_, @spmvCsr_eq _ _ values colIdx rowPtr x y numRows numRows fuel m₁ (by omega)
    (fun row hrow => ?_) (fun row hrow => ?_) ⟨fun i _ hi => ?_, ?_, hapart⟩ hfuel.le (by omega), ?_⟩
  · rw [hzero row hrow.le]
    exact Nat.zero_le _
  · rw [hzero row hrow.le, hzero (row + 1) hrow]
    decide
  · rw [hzero numRows le_rfl] at hi
    exact absurd hi (Nat.not_lt_zero i)
  · rw [hzero numRows le_rfl]
    exact .inl hvalues
  · rw [afterRows]
    dsimp only
    rw [if_pos (by omega), Nat.add_sub_cancel_left, rowValue, hzero 0 (Nat.zero_le _),
      hzero (0 + 1) (by omega), Ico_self, sum_empty]

theorem lt_of_pipelineOk (hrows : numRows ≤ 2 ^ 32) (hband : numRows + bandWidth < 2 ^ 63)
    (h : PipelineOk numRows bandWidth) :
    bandCount numRows bandWidth + 8 < 2 ^ 32 + lastLength numRows bandWidth % 8 := by
  by_contra hlarge
  have hpos : 0 < numRows := by
    by_contra hzero
    obtain rfl : numRows = 0 := by omega
    have hcount : bandCount 0 bandWidth = 0 := rfl
    omega
  generalize hcount : bandCount numRows bandWidth = count at hlarge
  obtain ⟨fuel₀, hrun⟩ := h 0 0 count count (count + numRows) ⟨fun _ => 1, fun _ => 0, []⟩
    ⟨by omega, by omega, by omega, by omega⟩
  obtain ⟨nnz, m₁, m₂, hgen, hspmv, hproduct, hnnz⟩ := hrun (max fuel₀ (2 ^ 32 + 1)) (le_max_left _ _)
  have hargs : BandArgs 0 count numRows bandWidth := ⟨hrows, hband, .inl (by omega)⟩
  obtain ⟨⟨nnz', m₁'⟩, hgen', hfilled⟩ := filled_generateBandedMatrix hargs 0 ⟨fun _ => 1, fun _ => 0, []⟩
    (by omega : numRows < max fuel₀ (2 ^ 32 + 1))
  obtain ⟨rfl, rfl⟩ := Prod.mk.inj (Option.some.inj (hgen.symm.trans hgen'))
  have hlast := hfilled.offset numRows (Nat.lt_succ_self _)
  have hoffset : bandOffset numRows bandWidth numRows = count := hcount
  have hcounted := hfilled.nnz
  rw [hoffset] at hlast hcounted
  rcases Nat.lt_or_ge count (2 ^ 32) with hfits | hwraps
  · -- the loop over eight elements of the last row never ends
    have hstart := hfilled.words_rowPtr (hcount.trans_lt hfits) (by omega : numRows - 1 ≤ numRows)
    have hstop := hfilled.words_rowPtr (hcount.trans_lt hfits) (le_refl numRows)
    have hnone := @spmvCsr_eq_none ℚ _ 0 0 count count (count + numRows) numRows (numRows - 1) m₁
      (by omega) (by omega)
    rw [Nat.sub_add_cancel hpos, hstart, hstop, vecEnd_band_last hpos, hcount, hoffset] at hnone
    rw [hnone (hoffset ▸ bandOffset_mono (by omega)) hfits (by omega)] at hspmv
    exact absurd hspmv (by simp)
  · rcases Nat.lt_or_ge count (2 ^ 64) with hsmall | hfull
    · -- the last offset is not the count
      dsimp only at hlast hcounted
      omega
    · obtain ⟨m₂', hspmv', hzero⟩ := spmvCsr_full hrows (hfull.trans_eq hcount.symm) hfilled
        (.inl le_rfl : count + numRows ≤ count + numRows ∨ _) (Nat.zero_le _)
        (by omega : 2 ^ 32 < max fuel₀ (2 ^ 32 + 1))
      obtain rfl := Option.some.inj (hspmv.symm.trans hspmv')
      have hproduct₀ := hproduct 0 hpos
      rw [hzero] at hproduct₀
      exact (bandProduct_ones_pos hpos).ne hproduct₀

end

/-- The pipeline computes the banded operator exactly when the whole groups of eight of the last row
end eight elements before 2 ^ 32. -/
theorem pipelineOk_iff {numRows bandWidth : ℕ} (hrows : numRows ≤ 2 ^ 32)
    (hband : numRows + bandWidth < 2 ^ 63) : PipelineOk numRows bandWidth ↔
      bandCount numRows bandWidth + 8 < 2 ^ 32 + lastLength numRows bandWidth % 8 :=
  ⟨lt_of_pipelineOk hrows hband, pipelineOk_of_lt hrows hband⟩

/-- The sums are right, although the loads of row 3 start at index 18, which is not aligned. -/
theorem pipelineOk_eight : PipelineOk 8 4 :=
  (pipelineOk_iff (by norm_num) (by norm_num)).mpr (by decide)

/-- A diagonal matrix with 2 ^ 32 - 7 rows. -/
theorem not_pipelineOk_diagonal : ¬PipelineOk (2 ^ 32 - 7) 0 := by
  intro h
  have hlt := lt_of_pipelineOk (by norm_num) (by norm_num) h
  rw [bandCount_eq, lastLength, Nat.zero_min] at hlt
  simp at hlt

/-! ## Alignment -/

/-- Every load of eight values among the accesses is aligned. -/
def Aligned (accesses : List Access) : Prop :=
  ∀ access ∈ accesses, access.array = .values → access.lanes = 8 → access.index % 8 = 0

theorem aligned_rowAccesses_iff {words : ℕ → ℕ} {colIdx rowPtr row : ℕ}
    (hle : words (rowPtr + row) ≤ words (rowPtr + (row + 1))) :
    Aligned (rowAccesses words colIdx rowPtr row) ↔
      (words (rowPtr + row) + 8 ≤ words (rowPtr + (row + 1)) → words (rowPtr + row) % 8 = 0) := by
  constructor
  · intro h hlong
    apply h ⟨.values, words (rowPtr + row), 8, false⟩ _ rfl rfl
    simp only [rowAccesses, elementAccesses, List.mem_append, List.mem_flatMap, List.mem_range]
    exact .inl (.inr (.inl ⟨0, by omega, mem_vecAccesses.mpr (.inl rfl)⟩))
  · intro h access hmem harray hlanes
    simp only [rowAccesses, List.mem_append, List.mem_cons, List.not_mem_nil, or_false] at hmem
    rcases hmem with ((rfl | rfl) | hmem) | rfl
    · exact absurd harray (by simp)
    · exact absurd harray (by simp)
    · obtain ⟨-, ⟨k, hk, rfl⟩ | ⟨hone, -⟩⟩ := mem_elementAccesses hle hmem
      · have hstart := h (by omega)
        dsimp only
        omega
      · omega
    · exact absurd harray (by simp)

theorem aligned_allRows_iff {words : ℕ → ℕ} {colIdx rowPtr numRows : ℕ}
    (hmono : ∀ row < numRows, words (rowPtr + row) ≤ words (rowPtr + (row + 1))) :
    Aligned ((List.range numRows).flatMap (rowAccesses words colIdx rowPtr)) ↔
      ∀ row < numRows, words (rowPtr + row) + 8 ≤ words (rowPtr + (row + 1)) →
        words (rowPtr + row) % 8 = 0 := by
  constructor
  · intro haligned row hrow
    apply (aligned_rowAccesses_iff (hmono row hrow)).mp
    intro access hmem
    exact haligned access (List.mem_flatMap.mpr ⟨row, List.mem_range.mpr hrow, hmem⟩)
  · intro hrow access hmem
    obtain ⟨row, hlt, hmem⟩ := List.mem_flatMap.mp hmem
    have hlt := List.mem_range.mp hlt
    exact (aligned_rowAccesses_iff (hmono row hlt)).mpr (hrow row hlt) access hmem

/-- The aligned loads of `spmv_csr` are aligned exactly when every row of eight elements or more
starts at a multiple of eight. -/
theorem spmvCsr_aligned_iff {α : Type*} [CommRing α]
    {values colIdx rowPtr x y numRows xLen fuel : ℕ} {m : Memory α} (hrows : numRows < 2 ^ 64)
    (hoffsets : RowOffsets m.words rowPtr numRows)
    (h : SparseArrays m.words values colIdx rowPtr x y numRows xLen) (hfuel : 2 ^ 32 ≤ fuel)
    (hfuelRows : numRows < fuel) :
    ∃ m' new, spmvCsr values colIdx rowPtr x y numRows fuel m = some m' ∧ m'.log = m.log ++ new ∧
      (Aligned new ↔ ∀ row < numRows, m.words (rowPtr + row) + 8 ≤ m.words (rowPtr + (row + 1)) →
        m.words (rowPtr + row) % 8 = 0) :=
  ⟨_, _, spmvCsr_eq hrows hoffsets.mono hoffsets.vecEnd_lt h hfuel hfuelRows, rfl,
    aligned_allRows_iff hoffsets.mono⟩

/-- Rows of 16 and 8 elements. -/
theorem aligned_sixteen : ∃ m' new, spmvCsr 0 100 0 64 128 2 (2 ^ 32)
      (⟨fun p => p, fun p => if p = 0 then 0 else if p = 1 then 16 else 24, []⟩ : Memory ℤ) =
        some m' ∧ m'.log = new ∧ Aligned new := by
  obtain ⟨m', new, hm', hlog, hiff⟩ := @spmvCsr_aligned_iff ℤ _ 0 100 0 64 128 2 25 (2 ^ 32)
    ⟨fun p => p, fun p => if p = 0 then 0 else if p = 1 then 16 else 24, []⟩ (by norm_num)
    ⟨by decide, by decide⟩ ⟨fun i _ _ => by
      dsimp only
      rw [if_neg (by omega), if_neg (by omega)]
      norm_num, .inl (by decide), .inl (by decide)⟩ le_rfl (by norm_num)
  exact ⟨m', new, hm', hlog, hiff.mpr (by decide)⟩

/-- Row 3 of the matrix with eight rows and four diagonals on each side has eight elements, and
starts at 18. -/
theorem misaligned_banded : ∃ nnz m₁ m₂ new,
    generateBandedMatrix 0 0 64 8 4 (2 ^ 32) ⟨fun _ => 1, fun _ => 0, []⟩ = some (nnz, m₁) ∧
    spmvCsr 0 0 64 64 128 8 (2 ^ 32) m₁ = some m₂ ∧ m₂.log = m₁.log ++ new ∧ ¬Aligned new := by
  have hcount : bandCount 8 4 = 52 := by decide
  obtain ⟨⟨nnz, m₁⟩, hrun, hfilled⟩ := @filled_generateBandedMatrix 0 64 8 4
    ⟨by norm_num, by norm_num, .inl (by decide)⟩ 0 ⟨fun _ => 1, fun _ => 0, []⟩ (2 ^ 32)
    (by norm_num)
  have hoffset := fun row (hrow : row ≤ 8) => hfilled.words_rowPtr (by omega) hrow
  have hoffsets := hfilled.rowOffsets (by omega)
  refine ⟨nnz, m₁, _, _, hrun, spmvCsr_eq (by norm_num) hoffsets.mono hoffsets.vecEnd_lt
    (hfilled.sparseArrays (by omega) (.inl (by decide)) (.inl (by decide))) le_rfl (by norm_num),
    rfl, fun haligned => ?_⟩
  have hthree := (aligned_allRows_iff hoffsets.mono).mp haligned 3 (by norm_num)
  rw [hoffset 3 (by norm_num), hoffset (3 + 1) (by norm_num)] at hthree
  exact absurd (hthree (by decide)) (by decide)

end MathUnikernel.MathLib
