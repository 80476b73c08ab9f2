import MathUnikernel.SparseProduct

/-!
# Every element once

Which elements of `values` and `col_idx` the two loops of a row read, and how often.
-/

namespace MathUnikernel.MathLib

variable {α : Type*}

/-! ## Counting reads -/

/-- A read of element `i`. -/
def Access.Reads (access : Access) (array : Param) (i : ℕ) : Bool :=
  access.array = array && !access.write &&
    (access.index ≤ i && i < access.index + access.lanes)

/-- How often element `i` is read. -/
def readCount (log : List Access) (array : Param) (i : ℕ) : ℕ :=
  log.countP fun access => access.Reads array i

theorem readCount_append (log log' : List Access) (array : Param) (i : ℕ) :
    readCount (log ++ log') array i = readCount log array i + readCount log' array i :=
  List.countP_append

/-- Rounds that read `w` elements each read a range. -/
theorem readCount_rounds {round : ℕ → List Access} {array : Param} {i c w : ℕ} {n : ℕ}
    (h : ∀ k < n, readCount (round k) array i =
      if c + w * k ≤ i ∧ i < c + w * (k + 1) then 1 else 0) :
    readCount ((List.range n).flatMap round) array i = if c ≤ i ∧ i < c + w * n then 1 else 0 := by
  induction n with
  | zero =>
    rw [if_neg (by omega)]
    rfl
  | succ n ih =>
    have hround := h n (Nat.lt_succ_self n)
    rw [List.range_succ, List.flatMap_append, List.flatMap_singleton, readCount_append,
      ih fun k hk => h k (by omega), hround, Nat.mul_succ]
    split_ifs <;> omega

/-- The arrays of the elements. -/
def Param.IsElement (array : Param) : Prop := array = .values ∨ array = .colIdx

theorem readCount_gather_values (words : ℕ → ℕ) (colIdx e i : ℕ) :
    readCount (gatherAccesses words colIdx e) .values i = 0 := rfl

theorem readCount_gather_colIdx (words : ℕ → ℕ) (colIdx e i : ℕ) :
    readCount (gatherAccesses words colIdx e) .colIdx i = if e ≤ i ∧ i < e + 1 then 1 else 0 := by
  by_cases hi : e ≤ i ∧ i < e + 1
  · simp [readCount, gatherAccesses, Access.Reads, hi]
  · rw [if_neg hi]
    simpa [readCount, gatherAccesses, Access.Reads] using hi

theorem readCount_values (e lanes i : ℕ) :
    readCount [⟨.values, e, lanes, false⟩] .values i =
      if e ≤ i ∧ i < e + lanes then 1 else 0 := by
  simp [readCount, Access.Reads]

theorem readCount_tail (words : ℕ → ℕ) (colIdx e i : ℕ) {array : Param} (h : array.IsElement) :
    readCount (tailAccesses words colIdx e) array i = if e ≤ i ∧ i < e + 1 then 1 else 0 := by
  rw [tailAccesses, ← List.singleton_append, readCount_append]
  rcases h with rfl | rfl
  · rw [readCount_gather_values, readCount_values, Nat.add_zero]
  · rw [readCount_gather_colIdx]
    exact Nat.zero_add _

theorem readCount_vec (words : ℕ → ℕ) (colIdx e i : ℕ) {array : Param} (h : array.IsElement) :
    readCount (vecAccesses words colIdx e) array i = if e ≤ i ∧ i < e + 8 then 1 else 0 := by
  -- the lanes are gathered from the highest down
  have hperm := List.Perm.flatMap_right (fun l => gatherAccesses words colIdx (e + l))
    (show [7, 6, 5, 4, 3, 2, 1, 0].Perm (List.range 8) by decide)
  have hlanes : readCount ([7, 6, 5, 4, 3, 2, 1, 0].flatMap fun l =>
      gatherAccesses words colIdx (e + l)) array i =
      readCount ((List.range 8).flatMap fun l => gatherAccesses words colIdx (e + l)) array i :=
    hperm.countP_eq _
  rw [vecAccesses, ← List.singleton_append, readCount_append, hlanes]
  rcases h with rfl | rfl
  · rw [readCount_values]
    rfl
  · rw [@readCount_rounds (fun l => gatherAccesses words colIdx (e + l)) .colIdx i e 1 8 fun l _ => by
      rw [readCount_gather_colIdx, Nat.one_mul, Nat.one_mul, Nat.add_assoc]]
    exact Nat.zero_add _

/-- The two loops read each element of the row once and no other. -/
theorem readCount_elements (words : ℕ → ℕ) (colIdx : ℕ) {start stop : ℕ} (hle : start ≤ stop)
    {array : Param} (h : array.IsElement) (i : ℕ) :
    readCount (elementAccesses words colIdx start stop) array i =
      if start ≤ i ∧ i < stop then 1 else 0 := by
  have hvec := @readCount_rounds (fun k => vecAccesses words colIdx (start + 8 * k)) array i start 8
    ((stop - start) / 8) fun k _ => readCount_vec words colIdx (start + 8 * k) i h
  have htail := @readCount_rounds (fun k => tailAccesses words colIdx (vecEnd start stop + k)) array i
    (vecEnd start stop) 1 ((stop - start) % 8) fun k _ => by
      rw [readCount_tail words colIdx _ i h, Nat.one_mul, Nat.one_mul, Nat.add_assoc]
  rw [elementAccesses, readCount_append, hvec, htail, vecEnd]
  split_ifs <;> omega

/-! ## A row -/

/-- The loops of the row end, and have read `values[i]` and `col_idx[i]` once for every `i` of the
row and for no other. -/
def VisitsOnce [Zero α] [Add α] [Mul α] (values colIdx x start stop : ℕ) (m : Memory α) : Prop :=
  ∃ fuel sum m' new, rowSum values colIdx x start stop fuel m = some (sum, m') ∧
    m'.log = m.log ++ new ∧ ∀ array, array.IsElement → ∀ i,
      readCount new array i = if start ≤ i ∧ i < stop then 1 else 0

/-- A row is visited in order exactly when `i + 8` does not wrap at the end of its last whole group
of eight; where it wraps, the loops never end. -/
theorem visitsOnce_iff [Semiring α] (values colIdx x : ℕ) {start stop : ℕ} (hle : start ≤ stop)
    (hstop : stop < 2 ^ 32) (m : Memory α) :
    VisitsOnce values colIdx x start stop m ↔ vecEnd start stop + 8 < 2 ^ 32 := by
  constructor
  · intro ⟨fuel, sum, m', new, hrun, _⟩
    by_contra hend
    rw [rowSum_eq_none values colIdx x hle hstop (by omega)] at hrun
    exact absurd hrun (by simp)
  · intro hend
    exact ⟨stop - start + 1, _, _, _, rowSum_eq values colIdx x hle hend (Nat.lt_succ_self _) m, rfl,
      fun array h => readCount_elements m.words colIdx hle h⟩

/-- A row of eleven elements. -/
theorem visitsOnce_eleven :
    VisitsOnce 0 100 200 5 16 (⟨fun p => p, fun p => p, []⟩ : Memory ℤ) :=
  (visitsOnce_iff 0 100 200 (by norm_num) (by norm_num) _).mpr (by decide)

/-- One row with all the elements that its offsets can count. -/
theorem not_visitsOnce_full :
    ¬VisitsOnce 0 0 0 0 (2 ^ 32 - 1) (⟨fun _ => 0, fun _ => 0, []⟩ : Memory ℤ) := by
  intro ⟨fuel, sum, m', new, hrun, _⟩
  rw [rowSum_eq_none 0 0 0 (Nat.zero_le _) (by norm_num) (by decide)] at hrun
  exact absurd hrun (by simp)

end MathUnikernel.MathLib
