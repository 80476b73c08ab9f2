import MathUnikernel.FloatMemory
import MathUnikernel.Library.Loops

/-!
# The banded matrix

`generate_banded_matrix` writes the band around the diagonal in compressed rows.
-/

namespace MathUnikernel.MathLib
open Loops Finset

/-! ## The function -/

/-- `(int64_t)value` of a 64-bit word. -/
def toInt64 (value : ℕ) : ℤ := if value < 2 ^ 63 then value else value - 2 ^ 64

/-- One column of a row. -/
def bandedStep (values colIdx row : ℕ) (col : ℤ) (s : ℕ × Memory ℚ) : ℕ × Memory ℚ :=
  let (nnz, m) := s
  let m := m.storeWord .colIdx colIdx nnz (col % 2 ^ 32).toNat
  let dist := if (col % 2 ^ 64).toNat < row then toInt64 row - col else col - toInt64 row
  let m := m.storeFloat .values values nnz (1 / (1 + dist))
  ((nnz + 1) % 2 ^ 64, m)

def bandedRow (values colIdx rowPtr numRows bandWidth fuel row : ℕ) (s : ℕ × Memory ℚ) :
    Option (ℕ × Memory ℚ) := do
  let (nnz, m) := s
  let m := m.storeWord .rowPtr rowPtr row (nnz % 2 ^ 32)
  let colStart := toInt64 row - toInt64 bandWidth
  let colEnd := toInt64 row + toInt64 bandWidth
  let colStart := if colStart < 0 then 0 else colStart
  let colEnd := if toInt64 numRows ≤ colEnd then toInt64 numRows - 1 else colEnd
  let (_, s) ← forLoop (fun col => decide (col ≤ colEnd)) (fun col => col + 1)
    (fun col s => some (bandedStep values colIdx row col s)) fuel colStart (nnz, m)
  return s

def generateBandedMatrix (values colIdx rowPtr numRows bandWidth fuel : ℕ) (m : Memory ℚ) :
    Option (ℕ × Memory ℚ) := do
  let (nnz, m) ← forUp 64 numRows 1
    (fun row s => bandedRow values colIdx rowPtr numRows bandWidth fuel row s) fuel 0 (0, m)
  let m := m.storeWord .rowPtr rowPtr numRows (nnz % 2 ^ 32)
  return (nnz, m)

/-! ## The band -/

section
variable (numRows bandWidth : ℕ)

/-- The first column of a row. -/
def bandStart (row : ℕ) : ℕ := row - bandWidth

/-- The column after the last one of a row. -/
def bandStop (row : ℕ) : ℕ := min (row + bandWidth + 1) numRows

def bandLength (row : ℕ) : ℕ := bandStop numRows bandWidth row - bandStart bandWidth row

/-- The elements before a row. -/
def bandOffset (row : ℕ) : ℕ := ∑ r ∈ range row, bandLength numRows bandWidth r

/-- The elements of the whole matrix. -/
def bandCount : ℕ := bandOffset numRows bandWidth numRows

end

def bandValue (row col : ℕ) : ℚ := 1 / (1 + |(row : ℚ) - col|)

section
variable {numRows bandWidth : ℕ}

theorem bandLength_le (row : ℕ) : bandLength numRows bandWidth row ≤ numRows := by
  unfold bandLength bandStop
  omega

theorem bandLength_pos {row : ℕ} (h : row < numRows) : 0 < bandLength numRows bandWidth row := by
  unfold bandLength bandStop bandStart
  omega

theorem bandOffset_succ (row : ℕ) : bandOffset numRows bandWidth (row + 1) =
    bandOffset numRows bandWidth row + bandLength numRows bandWidth row := sum_range_succ _ _

theorem bandOffset_mono {r s : ℕ} (h : r ≤ s) :
    bandOffset numRows bandWidth r ≤ bandOffset numRows bandWidth s :=
  sum_le_sum_of_subset (range_mono h)

/-- An element's place is before the next row's. -/
theorem bandOffset_add_lt {r s t : ℕ} (ht : t < bandLength numRows bandWidth r) (h : r < s) :
    bandOffset numRows bandWidth r + t < bandOffset numRows bandWidth s := by
  have hle := @bandOffset_mono numRows bandWidth (r + 1) s h
  rw [bandOffset_succ] at hle
  omega

theorem bandCount_le_square : bandCount numRows bandWidth ≤ numRows * numRows := by
  have hsum := sum_le_card_nsmul (range numRows) (bandLength numRows bandWidth) numRows
    fun r _ => bandLength_le r
  rwa [card_range, smul_eq_mul] at hsum

/-- Widening the band by one diagonal on each side. -/
theorem bandLength_succ {row : ℕ} (hrow : row < numRows) :
    bandLength numRows (bandWidth + 1) row = bandLength numRows bandWidth row +
      ((if bandWidth + 1 ≤ row then 1 else 0) + if row + (bandWidth + 1) < numRows then 1 else 0) := by
  unfold bandLength bandStop bandStart
  split_ifs <;> omega

theorem bandCount_succ : bandCount numRows (bandWidth + 1) =
    bandCount numRows bandWidth + 2 * (numRows - (bandWidth + 1)) := by
  have hlow : ∑ r ∈ range numRows, (if bandWidth + 1 ≤ r then 1 else 0) =
      numRows - (bandWidth + 1) := by
    rw [← sum_filter, sum_const, smul_eq_mul, mul_one]
    have hfilter : (range numRows).filter (bandWidth + 1 ≤ ·) = Ico (bandWidth + 1) numRows := by
      ext r
      simp only [mem_filter, mem_range, mem_Ico]
      omega
    rw [hfilter, Nat.card_Ico]
  have hhigh : ∑ r ∈ range numRows, (if r + (bandWidth + 1) < numRows then 1 else 0) =
      numRows - (bandWidth + 1) := by
    rw [← sum_filter, sum_const, smul_eq_mul, mul_one]
    have hfilter : (range numRows).filter (· + (bandWidth + 1) < numRows) =
        range (numRows - (bandWidth + 1)) := by
      ext r
      simp only [mem_filter, mem_range]
      omega
    rw [hfilter, card_range]
  calc bandCount numRows (bandWidth + 1)
      = ∑ r ∈ range numRows, (bandLength numRows bandWidth r +
          ((if bandWidth + 1 ≤ r then 1 else 0) + if r + (bandWidth + 1) < numRows then 1 else 0)) :=
        sum_congr rfl fun r hr => bandLength_succ (mem_range.mp hr)
    _ = bandCount numRows bandWidth + 2 * (numRows - (bandWidth + 1)) := by
        rw [sum_add_distrib, sum_add_distrib, hlow, hhigh, two_mul]
        rfl

/-- The diagonal and two of each of the others that fit. -/
theorem bandCount_eq : bandCount numRows bandWidth =
    numRows + ∑ d ∈ Icc 1 (min bandWidth (numRows - 1)), 2 * (numRows - d) := by
  induction bandWidth with
  | zero =>
    have hone : ∀ r ∈ range numRows, bandLength numRows 0 r = 1 := by
      intro r hr
      have hlt := mem_range.mp hr
      unfold bandLength bandStop bandStart
      omega
    rw [bandCount, bandOffset, sum_congr rfl hone, sum_const, card_range, smul_eq_mul, mul_one]
    simp
  | succ bandWidth ih =>
    rw [bandCount_succ, ih]
    by_cases h : bandWidth + 1 ≤ numRows - 1
    · rw [Nat.min_eq_left h, Nat.min_eq_left (by omega), sum_Icc_succ_top (by omega), add_assoc]
    · rw [Nat.min_eq_right (by omega), Nat.min_eq_right (by omega)]
      omega

end

/-! ## The arrays while they are filled -/

/-- An access of `generate_banded_matrix`: a store inside the arrays. -/
structure BandAccess (count numRows : ℕ) (access : Access) : Prop where
  lanes : access.lanes = 1
  inside : access.array = .values ∧ access.index < count ∨
    access.array = .colIdx ∧ access.index < count ∨ access.array = .rowPtr ∧ access.index ≤ numRows

/-- The rows below `r` and `c` columns of row `r` are written, and `k` of the offsets. -/
structure Filled (values colIdx rowPtr numRows bandWidth : ℕ) (m₀ : Memory ℚ) (r c k : ℕ)
    (s : ℕ × Memory ℚ) : Prop where
  nnz : s.1 = (bandOffset numRows bandWidth r + c) % 2 ^ 64
  offset : ∀ row < k, s.2.words (rowPtr + row) = bandOffset numRows bandWidth row % 2 ^ 32
  element : ∀ row t, row < r ∧ t < bandLength numRows bandWidth row ∨ row = r ∧ t < c →
    s.2.words (colIdx + (bandOffset numRows bandWidth row + t)) = bandStart bandWidth row + t ∧
    s.2.floats (values + (bandOffset numRows bandWidth row + t)) =
      bandValue row (bandStart bandWidth row + t)
  floats : ∀ p, p < values ∨ values + (bandOffset numRows bandWidth r + c) ≤ p →
    s.2.floats p = m₀.floats p
  words : ∀ p, p < colIdx ∨ colIdx + (bandOffset numRows bandWidth r + c) ≤ p →
    p < rowPtr ∨ rowPtr + k ≤ p → s.2.words p = m₀.words p
  later : Later (BandAccess (bandCount numRows bandWidth) numRows) m₀ s.2

/-- What the function is called with: offsets apart from columns, and sizes that fit. -/
structure BandArgs (colIdx rowPtr numRows bandWidth : ℕ) : Prop where
  rows : numRows ≤ 2 ^ 32
  band : numRows + bandWidth < 2 ^ 63
  apart : colIdx + bandCount numRows bandWidth ≤ rowPtr ∨ rowPtr + (numRows + 1) ≤ colIdx

section
variable {values colIdx rowPtr numRows bandWidth : ℕ} {m₀ : Memory ℚ} {r c k : ℕ} {s : ℕ × Memory ℚ}

theorem toInt64_of_lt {value : ℕ} (h : value < 2 ^ 63) : toInt64 value = value := if_pos h

theorem BandArgs.count_le (h : BandArgs colIdx rowPtr numRows bandWidth) :
    bandCount numRows bandWidth ≤ 2 ^ 64 := by
  apply bandCount_le_square.trans
  exact (Nat.mul_le_mul h.rows h.rows).trans (by norm_num)

theorem bandStart_add_lt {row t : ℕ} (ht : t < bandLength numRows bandWidth row) :
    bandStart bandWidth row + t < numRows ∧ bandStart bandWidth row + t ≤ row + bandWidth ∧
      row ≤ bandStart bandWidth row + t + bandWidth := by
  unfold bandLength bandStop bandStart at *
  omega

theorem distance_eq (hr : r < 2 ^ 63) (col : ℕ) :
    (1 / (1 + ((if col < r then toInt64 r - col else col - toInt64 r : ℤ) : ℚ))) =
      bandValue r col := by
  rw [bandValue, toInt64_of_lt hr]
  congr 2
  split_ifs with h
  · have hle : (col : ℚ) ≤ r := by exact_mod_cast h.le
    rw [abs_of_nonneg (by linarith)]
    push_cast
    rfl
  · have hle : (r : ℚ) ≤ col := by exact_mod_cast Nat.le_of_not_lt h
    rw [abs_of_nonpos (by linarith)]
    push_cast
    ring

/-- A column is written. -/
theorem Filled.bandedStep (h : Filled values colIdx rowPtr numRows bandWidth m₀ r c k s)
    (hargs : BandArgs colIdx rowPtr numRows bandWidth) (hr : r < numRows) (hk : k ≤ numRows + 1)
    (hc : c < bandLength numRows bandWidth r) :
    Filled values colIdx rowPtr numRows bandWidth m₀ r (c + 1) k
      (bandedStep values colIdx r ((bandStart bandWidth r + c : ℕ) : ℤ) s) := by
  obtain ⟨nnz, m⟩ := s
  have hplace : bandOffset numRows bandWidth r + c < bandCount numRows bandWidth :=
    bandOffset_add_lt hc hr
  have hcount := hargs.count_le
  have hrows := hargs.rows
  have hband := hargs.band
  have hapart := hargs.apart
  obtain ⟨hcol, hhi, hlo⟩ := bandStart_add_lt hc
  have hnnz : nnz = bandOffset numRows bandWidth r + c := h.nnz.trans (Nat.mod_eq_of_lt (by omega))
  generalize hcolumn : bandStart bandWidth r + c = col at *
  have hstored : (((col : ℕ) : ℤ) % 2 ^ 32).toNat = col := by omega
  have hcast : (((col : ℕ) : ℤ) % 2 ^ 64).toNat = col := by omega
  have hdist := distance_eq (by omega : r < 2 ^ 63) col
  simp only [MathLib.bandedStep, hstored, hcast]
  rw [hdist]
  subst hnnz
  refine ⟨?_, fun row hrow => ?_, fun row t ht => ?_, fun p hp => ?_, fun p hp hp' => ?_, ?_⟩
  · rw [Nat.add_assoc]
  · simp only [Memory.storeFloat, Memory.storeWord, Memory.note_words]
    rw [Function.update_of_ne (by omega)]
    exact h.offset row hrow
  · simp only [Memory.storeFloat, Memory.storeWord, Memory.note_words, Memory.note_floats]
    by_cases hnew : row = r ∧ t = c
    · obtain ⟨rfl, rfl⟩ := hnew
      rw [Function.update_self, Function.update_self, hcolumn]
      exact ⟨rfl, rfl⟩
    · have hbefore : row < r ∧ t < bandLength numRows bandWidth row ∨ row = r ∧ t < c := by omega
      have hlt : bandOffset numRows bandWidth row + t < bandOffset numRows bandWidth r + c := by
        rcases hbefore with ⟨hrow, htlt⟩ | ⟨rfl, htlt⟩
        · exact (bandOffset_add_lt htlt hrow).trans_le (Nat.le_add_right _ _)
        · omega
      rw [Function.update_of_ne (by omega), Function.update_of_ne (by omega)]
      exact h.element row t hbefore
  · simp only [Memory.storeFloat, Memory.storeWord, Memory.note_floats]
    rw [Function.update_of_ne (by omega)]
    exact h.floats p (by omega)
  · simp only [Memory.storeFloat, Memory.storeWord, Memory.note_words]
    rw [Function.update_of_ne (by omega)]
    exact h.words p (by omega) hp'
  · apply (h.later.snoc rfl _).snoc rfl _
    · exact ⟨rfl, .inr (.inl ⟨rfl, hplace⟩)⟩
    · exact ⟨rfl, .inl ⟨rfl, hplace⟩⟩

/-- An offset is written. -/
theorem Filled.storeOffset (h : Filled values colIdx rowPtr numRows bandWidth m₀ r 0 r s)
    (hargs : BandArgs colIdx rowPtr numRows bandWidth) (hr : r ≤ numRows) :
    Filled values colIdx rowPtr numRows bandWidth m₀ r 0 (r + 1)
      (s.1, s.2.storeWord .rowPtr rowPtr r (s.1 % 2 ^ 32)) := by
  have hapart := hargs.apart
  have hnnz := h.nnz
  rw [Nat.add_zero] at hnnz
  refine ⟨h.nnz, fun row hrow => ?_, fun row t ht => ?_, h.floats, fun p hp hp' => ?_, ?_⟩
  · simp only [Memory.storeWord]
    by_cases hnew : row = r
    · rw [hnew, Function.update_self, hnnz]
      exact Nat.mod_mod_of_dvd _ (by norm_num)
    · rw [Function.update_of_ne (by omega)]
      exact h.offset row (by omega)
  · rcases ht with ⟨hrow, htlt⟩ | ⟨-, htlt⟩
    · have hplace : bandOffset numRows bandWidth row + t < bandCount numRows bandWidth :=
        bandOffset_add_lt htlt (hrow.trans_le hr)
      simp only [Memory.storeWord]
      rw [Function.update_of_ne (by omega)]
      exact h.element row t (.inl ⟨hrow, htlt⟩)
    · exact absurd htlt (Nat.not_lt_zero t)
  · simp only [Memory.storeWord]
    rw [Function.update_of_ne (by omega)]
    exact h.words p hp (by omega)
  · exact h.later.snoc rfl ⟨rfl, .inr (.inr ⟨rfl, hr⟩)⟩

/-- The clamped range of columns. -/
theorem bandedRange_eq (hargs : BandArgs colIdx rowPtr numRows bandWidth) (hr : r < numRows) :
    (if toInt64 r - toInt64 bandWidth < 0 then 0 else toInt64 r - toInt64 bandWidth) =
        ((bandStart bandWidth r : ℕ) : ℤ) ∧
      (if toInt64 numRows ≤ toInt64 r + toInt64 bandWidth then toInt64 numRows - 1
        else toInt64 r + toInt64 bandWidth) = ((bandStop numRows bandWidth r : ℕ) : ℤ) - 1 := by
  have hband := hargs.band
  rw [toInt64_of_lt (by omega : r < 2 ^ 63), toInt64_of_lt (by omega : bandWidth < 2 ^ 63),
    toInt64_of_lt (by omega : numRows < 2 ^ 63)]
  unfold bandStart bandStop
  constructor
  · split_ifs <;> omega
  · split_ifs <;> omega

/-- A row is written. -/
theorem Filled.bandedRow (h : Filled values colIdx rowPtr numRows bandWidth m₀ r 0 r s)
    (hargs : BandArgs colIdx rowPtr numRows bandWidth) (hr : r < numRows) {fuel : ℕ}
    (hfuel : numRows < fuel) :
    ∃ s', bandedRow values colIdx rowPtr numRows bandWidth fuel r s = some s' ∧
      Filled values colIdx rowPtr numRows bandWidth m₀ (r + 1) 0 (r + 1) s' := by
  obtain ⟨nnz, m⟩ := s
  obtain ⟨hstart, hstop⟩ := bandedRange_eq hargs hr
  have hlen := @bandLength_le numRows bandWidth r
  have hpos := @bandLength_pos numRows bandWidth r hr
  have hrounds := @forLoop_rounds _ (ℕ × Memory ℚ)
    (fun col => decide (col ≤ ((bandStop numRows bandWidth r : ℕ) : ℤ) - 1)) (fun col => col + 1)
    (fun col s => some (MathLib.bandedStep values colIdx r col s))
    (fun c s => Filled values colIdx rowPtr numRows bandWidth m₀ r c (r + 1) s)
    (bandLength numRows bandWidth r) (fun c => ((bandStart bandWidth r + c : ℕ) : ℤ))
  obtain ⟨s', hrun, hs'⟩ := @hrounds
    (fun c hc => by
      apply decide_eq_true
      unfold bandLength at hc
      omega)
    (by
      apply decide_eq_false
      unfold bandLength at hpos ⊢
      omega)
    (fun c _ => by
      push_cast
      ring)
    (fun c hc s hs => ⟨_, rfl, hs.bandedStep hargs hr (by omega) hc⟩)
    _ (h.storeOffset hargs hr.le) fuel (by omega)
  rw [Nat.add_zero] at hrun
  refine ⟨s', ?_, ?_⟩
  · simp only [MathLib.bandedRow, hstart, hstop, hrun, Option.bind_eq_bind, Option.bind_some]
    rfl
  · have hnext := @bandOffset_succ numRows bandWidth r
    refine ⟨?_, hs'.offset, fun row t ht => ?_, ?_, ?_, hs'.later⟩
    · rw [hs'.nnz, hnext, Nat.add_zero]
    · apply hs'.element
      rcases Nat.lt_trichotomy row r with hlt | rfl | hgt
      · exact .inl ⟨hlt, by omega⟩
      · exact .inr ⟨rfl, by omega⟩
      · omega
    · rw [hnext, Nat.add_zero]
      exact hs'.floats
    · rw [hnext, Nat.add_zero]
      exact hs'.words

/-- The whole matrix is written. -/
theorem filled_generateBandedMatrix (hargs : BandArgs colIdx rowPtr numRows bandWidth)
    (values : ℕ) (m : Memory ℚ) {fuel : ℕ} (hfuel : numRows < fuel) :
    ∃ s', generateBandedMatrix values colIdx rowPtr numRows bandWidth fuel m = some s' ∧
      Filled values colIdx rowPtr numRows bandWidth m numRows 0 (numRows + 1) s' := by
  have hrows := hargs.rows
  have hrun := @forUp_invariant _
    (fun row s => MathLib.bandedRow values colIdx rowPtr numRows bandWidth fuel row s) 64 0 numRows 1
    (fun r s => Filled values colIdx rowPtr numRows bandWidth m r 0 r s) (Nat.zero_le _) one_pos
    (by omega)
  obtain ⟨s, hs, hfilled⟩ := @hrun (fun r s _ hr _ hP => by
      rw [Nat.min_eq_left (by omega : r + 1 ≤ numRows)]
      exact hP.bandedRow hargs hr hfuel) (0, m) (by
      refine ⟨rfl, fun row hrow => absurd hrow (Nat.not_lt_zero row), fun row t ht => ?_,
        fun _ _ => rfl, fun _ _ _ => rfl, .refl _ m⟩
      omega) fuel hfuel
  obtain ⟨nnz, m'⟩ := s
  refine ⟨_, ?_, hfilled.storeOffset hargs le_rfl⟩
  rw [generateBandedMatrix, hs]
  rfl

end

/-! ## The matrix -/

/-- The arrays hold the band in compressed rows. -/
structure IsBand (m : Memory ℚ) (values colIdx rowPtr numRows bandWidth : ℕ) : Prop where
  first : m.words (rowPtr + 0) = 0
  strict : ∀ row < numRows, m.words (rowPtr + row) < m.words (rowPtr + (row + 1))
  increasing : ∀ row < numRows, ∀ i j, m.words (rowPtr + row) ≤ i → i < j →
    j < m.words (rowPtr + (row + 1)) → m.words (colIdx + i) < m.words (colIdx + j)
  columns : ∀ row < numRows, ∀ col,
    (∃ i ∈ Ico (m.words (rowPtr + row)) (m.words (rowPtr + (row + 1))), m.words (colIdx + i) = col) ↔
      |(row : ℤ) - col| ≤ bandWidth ∧ col < numRows
  value : ∀ row < numRows,
    ∀ i ∈ Ico (m.words (rowPtr + row)) (m.words (rowPtr + (row + 1))),
      m.floats (values + i) = 1 / (1 + |(row : ℚ) - m.words (colIdx + i)|)

/-- The element of `row` in column `col` is `value`. -/
def HasElement (m : Memory ℚ) (values colIdx rowPtr row col : ℕ) (value : ℚ) : Prop :=
  ∃ i ∈ Ico (m.words (rowPtr + row)) (m.words (rowPtr + (row + 1))),
    m.words (colIdx + i) = col ∧ m.floats (values + i) = value

theorem IsBand.hasElement_iff {m : Memory ℚ} {values colIdx rowPtr numRows bandWidth : ℕ}
    (h : IsBand m values colIdx rowPtr numRows bandWidth) {row col : ℕ} (hrow : row < numRows)
    {value : ℚ} : HasElement m values colIdx rowPtr row col value ↔
      (|(row : ℤ) - col| ≤ bandWidth ∧ col < numRows) ∧ value = 1 / (1 + |(row : ℚ) - col|) := by
  constructor
  · intro ⟨i, hi, hcol, hvalue⟩
    refine ⟨(h.columns row hrow col).mp ⟨i, hi, hcol⟩, ?_⟩
    rw [← hvalue, h.value row hrow i hi, hcol]
  · intro ⟨hband, hvalue⟩
    obtain ⟨i, hi, hcol⟩ := (h.columns row hrow col).mpr hband
    refine ⟨i, hi, hcol, ?_⟩
    rw [h.value row hrow i hi, hcol, hvalue]

/-- The matrix is symmetric. -/
theorem IsBand.symmetric {m : Memory ℚ} {values colIdx rowPtr numRows bandWidth : ℕ}
    (h : IsBand m values colIdx rowPtr numRows bandWidth) {row col : ℕ} (hrow : row < numRows)
    (hcol : col < numRows) (value : ℚ) : HasElement m values colIdx rowPtr row col value ↔
      HasElement m values colIdx rowPtr col row value := by
  rw [h.hasElement_iff hrow, h.hasElement_iff hcol, abs_sub_comm (row : ℤ), abs_sub_comm (row : ℚ)]
  exact and_congr_left' (and_congr_right' ⟨fun _ => hrow, fun _ => hcol⟩)

section
variable {values colIdx rowPtr numRows bandWidth : ℕ} {m₀ m : Memory ℚ} {nnz : ℕ}

theorem Filled.words_rowPtr
    (h : Filled values colIdx rowPtr numRows bandWidth m₀ numRows 0 (numRows + 1) (nnz, m))
    (hcount : bandCount numRows bandWidth < 2 ^ 32) {row : ℕ} (hrow : row ≤ numRows) :
    m.words (rowPtr + row) = bandOffset numRows bandWidth row := by
  have hle : bandOffset numRows bandWidth row ≤ bandCount numRows bandWidth := bandOffset_mono hrow
  rw [h.offset row (by omega)]
  exact Nat.mod_eq_of_lt (by omega)

theorem Filled.isBand
    (h : Filled values colIdx rowPtr numRows bandWidth m₀ numRows 0 (numRows + 1) (nnz, m))
    (hcount : bandCount numRows bandWidth < 2 ^ 32) :
    IsBand m values colIdx rowPtr numRows bandWidth := by
  -- the places of a row are its columns
  have hplace : ∀ row < numRows, ∀ i,
      i ∈ Ico (m.words (rowPtr + row)) (m.words (rowPtr + (row + 1))) →
      ∃ t < bandLength numRows bandWidth row, i = bandOffset numRows bandWidth row + t := by
    intro row hrow i hi
    rw [h.words_rowPtr hcount hrow.le, h.words_rowPtr hcount (by omega), bandOffset_succ,
      mem_Ico] at hi
    exact ⟨i - bandOffset numRows bandWidth row, by omega, by omega⟩
  have helement : ∀ row < numRows, ∀ t < bandLength numRows bandWidth row, _ :=
    fun row hrow t ht => h.element row t (.inl ⟨hrow, ht⟩)
  refine ⟨?_, fun row hrow => ?_, fun row hrow i j hi hij hj => ?_, fun row hrow col => ?_,
    fun row hrow i hi => ?_⟩
  · rw [h.words_rowPtr hcount (Nat.zero_le _)]
    exact sum_range_zero _
  · have hpos := @bandLength_pos numRows bandWidth row hrow
    rw [h.words_rowPtr hcount hrow.le, h.words_rowPtr hcount (by omega), bandOffset_succ]
    omega
  · obtain ⟨t, ht, rfl⟩ := hplace row hrow i (mem_Ico.mpr ⟨hi, hij.trans hj⟩)
    obtain ⟨u, hu, rfl⟩ := hplace row hrow j (mem_Ico.mpr ⟨hi.trans hij.le, hj⟩)
    rw [(helement row hrow t ht).1, (helement row hrow u hu).1]
    omega
  · constructor
    · intro ⟨i, hi, hcol⟩
      obtain ⟨t, ht, rfl⟩ := hplace row hrow i hi
      obtain ⟨hlt, hhi, hlo⟩ := bandStart_add_lt ht
      rw [(helement row hrow t ht).1] at hcol
      rw [abs_le]
      omega
    · intro ⟨hband, hlt⟩
      rw [abs_le] at hband
      have ht : col - bandStart bandWidth row < bandLength numRows bandWidth row := by
        unfold bandLength bandStop bandStart
        omega
      refine ⟨bandOffset numRows bandWidth row + (col - bandStart bandWidth row), ?_, ?_⟩
      · rw [h.words_rowPtr hcount hrow.le, h.words_rowPtr hcount (by omega), bandOffset_succ, mem_Ico]
        omega
      · rw [(helement row hrow _ ht).1]
        unfold bandStart
        omega
  · obtain ⟨t, ht, rfl⟩ := hplace row hrow i hi
    rw [(helement row hrow t ht).1, (helement row hrow t ht).2, bandValue]

end

/-- `generate_banded_matrix` writes exactly the band, a symmetric matrix, and returns the number of
its elements. -/
theorem generateBandedMatrix_isBand {colIdx rowPtr numRows bandWidth : ℕ}
    (hargs : BandArgs colIdx rowPtr numRows bandWidth)
    (hcount : bandCount numRows bandWidth < 2 ^ 32) (values : ℕ) (m : Memory ℚ) {fuel : ℕ}
    (hfuel : numRows < fuel) :
    ∃ nnz m', generateBandedMatrix values colIdx rowPtr numRows bandWidth fuel m = some (nnz, m') ∧
      IsBand m' values colIdx rowPtr numRows bandWidth ∧
      (∀ row < numRows, ∀ col < numRows, ∀ value, HasElement m' values colIdx rowPtr row col value ↔
        HasElement m' values colIdx rowPtr col row value) ∧
      nnz = m'.words (rowPtr + numRows) ∧
      nnz = numRows + ∑ d ∈ Icc 1 (min bandWidth (numRows - 1)), 2 * (numRows - d) ∧
      (∀ p, p < values ∨ values + nnz ≤ p → m'.floats p = m.floats p) ∧
      (∀ p, p < colIdx ∨ colIdx + nnz ≤ p → p < rowPtr ∨ rowPtr + (numRows + 1) ≤ p →
        m'.words p = m.words p) ∧
      Later (BandAccess nnz numRows) m m' := by
  obtain ⟨⟨nnz, m'⟩, hrun, hfilled⟩ := filled_generateBandedMatrix hargs values m hfuel
  have hband := hfilled.isBand hcount
  have hnnz : nnz = bandCount numRows bandWidth := by
    have hmod := hfilled.nnz
    rw [Nat.add_zero] at hmod
    exact hmod.trans (Nat.mod_eq_of_lt (hcount.trans (by norm_num)))
  refine ⟨nnz, m', hrun, hband, fun row hrow col hcol value => hband.symmetric hrow hcol value,
    ?_, hnnz.trans bandCount_eq, ?_, ?_, ?_⟩
  · rw [hfilled.words_rowPtr hcount le_rfl, hnnz]
    rfl
  · rw [hnnz]
    exact hfilled.floats
  · rw [hnnz]
    exact hfilled.words
  · rw [hnnz]
    exact hfilled.later

theorem generateBandedMatrix_three : ∃ m',
    generateBandedMatrix 0 0 16 3 1 4 ⟨fun _ => 0, fun _ => 0, []⟩ = some (7, m') ∧
      IsBand m' 0 0 16 3 1 := by
  obtain ⟨nnz, m', hrun, hband, -, -, hnnz, -⟩ := @generateBandedMatrix_isBand 0 16 3 1
    ⟨by norm_num, by norm_num, .inl (by decide)⟩ (by decide) 0
    ⟨fun _ => 0, fun _ => 0, []⟩ 4 (by norm_num)
  obtain rfl : nnz = 7 := hnnz.trans (by decide)
  exact ⟨m', hrun, hband⟩

end MathUnikernel.MathLib
