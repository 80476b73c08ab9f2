import MathUnikernel.FloatMemory
import MathUnikernel.Library.Loops

/-!
# The sparse product

`spmv_csr`: each row is summed eight elements at a time and then one at a time.
-/

namespace MathUnikernel.MathLib
open Loops Finset

variable {α : Type*}

/-! ## The function -/

/-- `x[col_idx[index]]`. -/
def gather (colIdx x index : ℕ) (m : Memory α) : α × Memory α :=
  let (col, m) := m.loadWord .colIdx colIdx index
  m.loadFloat .x x col

/-- A round of the loop over eight elements. -/
def vecStep [Add α] [Mul α] (values colIdx x i : ℕ) (s : M256 α × Memory α) : M256 α × Memory α :=
  let (sumVec, m) := s
  let (v, m) := m.mm256LoadPs .values values i
  let (x7, m) := gather colIdx x ((i + 7) % 2 ^ 32) m
  let (x6, m) := gather colIdx x ((i + 6) % 2 ^ 32) m
  let (x5, m) := gather colIdx x ((i + 5) % 2 ^ 32) m
  let (x4, m) := gather colIdx x ((i + 4) % 2 ^ 32) m
  let (x3, m) := gather colIdx x ((i + 3) % 2 ^ 32) m
  let (x2, m) := gather colIdx x ((i + 2) % 2 ^ 32) m
  let (x1, m) := gather colIdx x ((i + 1) % 2 ^ 32) m
  let (x0, m) := gather colIdx x ((i + 0) % 2 ^ 32) m
  let xVec := mm256SetPs x7 x6 x5 x4 x3 x2 x1 x0
  (mm256FmaddPs v xVec sumVec, m)

/-- A round of the loop over the remaining elements. -/
def tailStep [Add α] [Mul α] (values colIdx x i : ℕ) (s : α × Memory α) : α × Memory α :=
  let (sumScalar, m) := s
  let (value, m) := m.loadFloat .values values i
  let (xVal, m) := gather colIdx x i m
  (sumScalar + value * xVal, m)

/-- The two loops, from `start` to `stop`. -/
def rowSum [Zero α] [Add α] [Mul α] (values colIdx x start stop fuel : ℕ) (m : Memory α) :
    Option (α × Memory α) := do
  let (i, sumVec, m) ← forLoop (fun i => decide ((i + 8) % 2 ^ 32 ≤ stop)) (fun i => (i + 8) % 2 ^ 32)
    (fun i s => some (vecStep values colIdx x i s)) fuel start (mm256SetzeroPs, m)
  let sumScalar := (List.finRange 8).foldl (fun sum k => sum + sumVec k) 0
  let (_, sumScalar, m) ← forLoop (fun i => decide (i < stop)) (fun i => (i + 1) % 2 ^ 32)
    (fun i s => some (tailStep values colIdx x i s)) fuel i (sumScalar, m)
  return (sumScalar, m)

def spmvRow [Zero α] [Add α] [Mul α] (values colIdx rowPtr x y fuel row : ℕ) (m : Memory α) :
    Option (Memory α) := do
  let (start, m) := m.loadWord .rowPtr rowPtr row
  let (stop, m) := m.loadWord .rowPtr rowPtr ((row + 1) % 2 ^ 64)
  let (sumScalar, m) ← rowSum values colIdx x start stop fuel m
  return m.storeFloat .y y row sumScalar

def spmvCsr [Zero α] [Add α] [Mul α] (values colIdx rowPtr x y numRows fuel : ℕ) (m : Memory α) :
    Option (Memory α) :=
  forUp 64 numRows 1 (fun row m => spmvRow values colIdx rowPtr x y fuel row m) fuel 0 m

/-! ## The accesses of a row -/

def gatherAccesses (words : ℕ → ℕ) (colIdx i : ℕ) : List Access :=
  [⟨.colIdx, i, 1, false⟩, ⟨.x, words (colIdx + i), 1, false⟩]

def vecAccesses (words : ℕ → ℕ) (colIdx i : ℕ) : List Access :=
  ⟨.values, i, 8, false⟩ ::
    [7, 6, 5, 4, 3, 2, 1, 0].flatMap fun l => gatherAccesses words colIdx (i + l)

def tailAccesses (words : ℕ → ℕ) (colIdx i : ℕ) : List Access :=
  ⟨.values, i, 1, false⟩ :: gatherAccesses words colIdx i

/-- The end of the whole groups of eight. -/
def vecEnd (start stop : ℕ) : ℕ := start + 8 * ((stop - start) / 8)

/-- What a row reads of `values`, `col_idx` and `x`. -/
def elementAccesses (words : ℕ → ℕ) (colIdx start stop : ℕ) : List Access :=
  ((List.range ((stop - start) / 8)).flatMap fun k => vecAccesses words colIdx (start + 8 * k)) ++
    (List.range ((stop - start) % 8)).flatMap fun k =>
      tailAccesses words colIdx (vecEnd start stop + k)

/-! ## One row -/

/-- An element's share of its row's sum. -/
def term [Mul α] (m : Memory α) (values colIdx x i : ℕ) : α :=
  m.floats (values + i) * m.floats (x + m.words (colIdx + i))

/-- `m` after more accesses. -/
def Memory.logged (m : Memory α) (accesses : List Access) : Memory α :=
  { m with log := m.log ++ accesses }

theorem Memory.logged_logged (m : Memory α) (accesses accesses' : List Access) :
    (m.logged accesses).logged accesses' = m.logged (accesses ++ accesses') := by
  simp only [Memory.logged, List.append_assoc]

theorem gather_eq (colIdx x index : ℕ) (m : Memory α) : gather colIdx x index m =
    (m.floats (x + m.words (colIdx + index)), m.logged (gatherAccesses m.words colIdx index)) := by
  simp [gather, Memory.loadWord, Memory.loadFloat, Memory.note, Memory.logged, gatherAccesses]

theorem vecStep_eq [Add α] [Mul α] {values colIdx x i : ℕ} (hi : i + 8 ≤ 2 ^ 32) (v : M256 α)
    (m : Memory α) : vecStep values colIdx x i (v, m) =
      (fun l : Fin 8 => term m values colIdx x (i + l) + v l, m.logged (vecAccesses m.words colIdx i)) := by
  have hmod : ∀ l < 8, (i + l) % 2 ^ 32 = i + l := fun l hl => Nat.mod_eq_of_lt (by omega)
  simp only [vecStep, gather_eq, Memory.mm256LoadPs, hmod _ (by norm_num : 7 < 8),
    hmod _ (by norm_num : 6 < 8), hmod _ (by norm_num : 5 < 8), hmod _ (by norm_num : 4 < 8),
    hmod _ (by norm_num : 3 < 8), hmod _ (by norm_num : 2 < 8), hmod _ (by norm_num : 1 < 8),
    hmod _ (by norm_num : 0 < 8)]
  apply Prod.ext
  · funext l
    simp only [mm256FmaddPs, mm256SetPs, term, Memory.logged, Memory.note, Nat.add_assoc values]
    fin_cases l <;> rfl
  · simp [Memory.logged, Memory.note, vecAccesses]

theorem tailStep_eq [Add α] [Mul α] (values colIdx x i : ℕ) (sum : α) (m : Memory α) :
    tailStep values colIdx x i (sum, m) =
      (sum + term m values colIdx x i, m.logged (tailAccesses m.words colIdx i)) := by
  simp [tailStep, gather_eq, Memory.loadFloat, Memory.note, Memory.logged, tailAccesses, term]

theorem vecEnd_le {start stop : ℕ} (h : start ≤ stop) :
    vecEnd start stop ≤ stop ∧ stop < vecEnd start stop + 8 := by
  unfold vecEnd
  omega

/-- The horizontal sum. -/
theorem foldl_finRange_eq_sum [Semiring α] (v : M256 α) :
    (List.finRange 8).foldl (fun sum k => sum + v k) 0 = ∑ k, v k := by
  simp [List.finRange_succ, Fin.sum_univ_succ, add_assoc]

theorem sum_Ico_eight [Semiring α] (f : ℕ → α) (c : ℕ) :
    ∑ i ∈ Ico c (c + 8), f i = ∑ l : Fin 8, f (c + l) := by
  rw [sum_Ico_eq_sum_range, Nat.add_sub_cancel_left]
  exact (Fin.sum_univ_eq_sum_range (fun l => f (c + l)) 8).symm

/-- The loop over eight elements, where `i + 8` does not wrap. -/
theorem vecLoop_eq [Semiring α] (values colIdx x : ℕ) {start stop fuel : ℕ} (hle : start ≤ stop)
    (hend : vecEnd start stop + 8 < 2 ^ 32) (hfuel : stop - start < fuel) (m : Memory α) :
    ∃ v : M256 α,
      forLoop (fun i => decide ((i + 8) % 2 ^ 32 ≤ stop)) (fun i => (i + 8) % 2 ^ 32)
        (fun i s => some (vecStep values colIdx x i s)) fuel start (mm256SetzeroPs, m) =
        some (vecEnd start stop, v, m.logged ((List.range ((stop - start) / 8)).flatMap fun k =>
          vecAccesses m.words colIdx (start + 8 * k))) ∧
      ∑ l, v l = ∑ i ∈ Ico start (vecEnd start stop), term m values colIdx x i := by
  obtain ⟨hvle, hvlt⟩ := vecEnd_le hle
  have hrounds := @forLoop_rounds _ (M256 α × Memory α)
    (fun i => decide ((i + 8) % 2 ^ 32 ≤ stop)) (fun i => (i + 8) % 2 ^ 32)
    (fun i s => some (vecStep values colIdx x i s))
    (fun k s => s.2 = m.logged ((List.range k).flatMap fun k =>
        vecAccesses m.words colIdx (start + 8 * k)) ∧
      ∑ l, s.1 l = ∑ i ∈ Ico start (start + 8 * k), term m values colIdx x i)
    ((stop - start) / 8) (fun k => start + 8 * k)
  obtain ⟨⟨v, m'⟩, hrun, hlog, hsum⟩ := @hrounds
    (fun k hk => by
      apply decide_eq_true
      unfold vecEnd at hvle hend
      rw [Nat.mod_eq_of_lt (by omega)]
      omega)
    (by
      apply decide_eq_false
      unfold vecEnd at hvlt hend
      rw [Nat.mod_eq_of_lt (by omega)]
      omega)
    (fun k hk => by
      unfold vecEnd at hend
      rw [Nat.mod_eq_of_lt (by omega)]
      ring)
    (fun k hk s hs => by
      obtain ⟨v, m'⟩ := s
      obtain ⟨hlog, hsum⟩ := hs
      dsimp only at hlog hsum
      unfold vecEnd at hend
      refine ⟨_, rfl, ?_⟩
      rw [hlog, vecStep_eq (by omega)]
      constructor
      · rw [Memory.logged_logged, List.range_succ, List.flatMap_append, List.flatMap_singleton]
        rfl
      · rw [show start + 8 * (k + 1) = start + 8 * k + 8 by ring,
          ← sum_Ico_consecutive _ (by omega : start ≤ start + 8 * k) (Nat.le_add_right _ 8), ← hsum,
          sum_Ico_eight]
        exact sum_add_distrib.trans (add_comm _ _))
    (mm256SetzeroPs, m) (by simp [Memory.logged, mm256SetzeroPs]) fuel (by omega)
  dsimp only at hlog
  refine ⟨v, ?_, hsum⟩
  rw [← hlog]
  exact hrun

/-- The loop over single elements. -/
theorem tailLoop_eq [Semiring α] (values colIdx x : ℕ) {i stop fuel : ℕ} (hle : i ≤ stop)
    (hstop : stop < 2 ^ 32) (hfuel : stop - i < fuel) (sum : α) (m : Memory α) :
    forLoop (fun i => decide (i < stop)) (fun i => (i + 1) % 2 ^ 32)
        (fun i s => some (tailStep values colIdx x i s)) fuel i (sum, m) =
      some (stop, sum + ∑ i ∈ Ico i stop, term m values colIdx x i,
        m.logged ((List.range (stop - i)).flatMap fun k => tailAccesses m.words colIdx (i + k))) := by
  have hrounds := @forLoop_rounds _ (α × Memory α) (fun i => decide (i < stop))
    (fun i => (i + 1) % 2 ^ 32) (fun i s => some (tailStep values colIdx x i s))
    (fun k s => s = (sum + ∑ e ∈ Ico i (i + k), term m values colIdx x e,
      m.logged ((List.range k).flatMap fun k => tailAccesses m.words colIdx (i + k))))
    (stop - i) (fun k => i + k)
  obtain ⟨s, hrun, hs⟩ := @hrounds
    (fun k hk => decide_eq_true (by omega))
    (decide_eq_false (by omega))
    (fun k hk => by
      rw [Nat.mod_eq_of_lt (by omega)]
      ring)
    (fun k hk s hs => by
      refine ⟨_, rfl, ?_⟩
      rw [hs, tailStep_eq, Memory.logged_logged, List.range_succ, List.flatMap_append,
        List.flatMap_singleton, ← Nat.add_assoc, sum_Ico_succ_top (Nat.le_add_right i k), add_assoc]
      rfl)
    (sum, m) (by simp [Memory.logged]) fuel hfuel
  rw [Nat.add_sub_cancel' hle] at hrun hs
  rw [← hs]
  exact hrun

/-- The sum of a row. -/
theorem rowSum_eq [Semiring α] (values colIdx x : ℕ) {start stop fuel : ℕ} (hle : start ≤ stop)
    (hend : vecEnd start stop + 8 < 2 ^ 32) (hfuel : stop - start < fuel) (m : Memory α) :
    rowSum values colIdx x start stop fuel m = some (∑ i ∈ Ico start stop, term m values colIdx x i,
      m.logged (elementAccesses m.words colIdx start stop)) := by
  obtain ⟨hvle, hvlt⟩ := vecEnd_le hle
  obtain ⟨v, hrun, hsum⟩ := vecLoop_eq values colIdx x hle hend hfuel m
  have hstart : start ≤ vecEnd start stop := Nat.le_add_right _ _
  have hrest : stop - vecEnd start stop = (stop - start) % 8 := by
    unfold vecEnd at hvle ⊢
    omega
  simp only [rowSum, hrun, Option.bind_eq_bind, Option.bind_some, foldl_finRange_eq_sum]
  rw [tailLoop_eq values colIdx x hvle (by omega) (by omega), Option.bind_some, hsum, hrest,
    Memory.logged_logged]
  have hterms : ∀ accesses, ∑ i ∈ Ico (vecEnd start stop) stop,
      term (m.logged accesses) values colIdx x i =
        ∑ i ∈ Ico (vecEnd start stop) stop, term m values colIdx x i := fun _ => rfl
  rw [hterms, sum_Ico_consecutive _ hstart hvle]
  rfl

/-- Where `i + 8` wraps, the loop over eight elements starts again from the beginning of the arrays
and never ends. -/
theorem rowSum_eq_none [Semiring α] (values colIdx x : ℕ) {start stop : ℕ} (hle : start ≤ stop)
    (hstop : stop < 2 ^ 32) (hend : 2 ^ 32 ≤ vecEnd start stop + 8) (fuel : ℕ) (m : Memory α) :
    rowSum values colIdx x start stop fuel m = none := by
  obtain ⟨hvle, hvlt⟩ := vecEnd_le hle
  have hmod : vecEnd start stop % 8 = start % 8 := by
    unfold vecEnd
    omega
  have hloop := @forLoop_eq_none _ (M256 α × Memory α)
    (fun i => decide ((i + 8) % 2 ^ 32 ≤ stop)) (fun i => (i + 8) % 2 ^ 32)
    (fun i s => some (vecStep values colIdx x i s))
    (fun i => i ≤ vecEnd start stop ∧ i % 8 = vecEnd start stop % 8)
    (fun i ⟨hi, hi8⟩ => decide_eq_true (by omega)) (fun i ⟨hi, hi8⟩ => by omega) start
    ⟨Nat.le_add_right _ _, hmod.symm⟩ fuel (mm256SetzeroPs, m)
  rw [rowSum, hloop]
  rfl

def rowAccesses (words : ℕ → ℕ) (colIdx rowPtr row : ℕ) : List Access :=
  [⟨.rowPtr, row, 1, false⟩, ⟨.rowPtr, row + 1, 1, false⟩] ++
    elementAccesses words colIdx (words (rowPtr + row)) (words (rowPtr + (row + 1))) ++
    [⟨.y, row, 1, true⟩]

/-- The plain sum of a row. -/
def rowValue [Semiring α] (m : Memory α) (values colIdx rowPtr x row : ℕ) : α :=
  ∑ i ∈ Ico (m.words (rowPtr + row)) (m.words (rowPtr + (row + 1))), term m values colIdx x i

theorem spmvRow_eq [Semiring α] {values colIdx rowPtr x y row fuel : ℕ} {m : Memory α}
    (hrow : row + 1 < 2 ^ 64) (hle : m.words (rowPtr + row) ≤ m.words (rowPtr + (row + 1)))
    (hend : vecEnd (m.words (rowPtr + row)) (m.words (rowPtr + (row + 1))) + 8 < 2 ^ 32)
    (hfuel : 2 ^ 32 ≤ fuel) : spmvRow values colIdx rowPtr x y fuel row m =
      some ⟨Function.update m.floats (y + row) (rowValue m values colIdx rowPtr x row), m.words,
        m.log ++ rowAccesses m.words colIdx rowPtr row⟩ := by
  have hlt := (vecEnd_le hle).2
  simp only [spmvRow, Memory.loadWord, Nat.mod_eq_of_lt hrow, Memory.note_words]
  rw [rowSum_eq values colIdx x hle hend (by omega), Option.bind_eq_bind, Option.bind_some]
  simp [Memory.storeFloat, Memory.logged, Memory.note, rowAccesses, rowValue, term]

/-! ## All rows -/

/-- Row offsets in `row_ptr`. -/
structure RowOffsets (words : ℕ → ℕ) (rowPtr numRows : ℕ) : Prop where
  mono : ∀ row < numRows, words (rowPtr + row) ≤ words (rowPtr + (row + 1))
  last : words (rowPtr + numRows) + 8 < 2 ^ 32

theorem words_le_of_mono {words : ℕ → ℕ} {rowPtr numRows : ℕ}
    (hmono : ∀ row < numRows, words (rowPtr + row) ≤ words (rowPtr + (row + 1))) {r s : ℕ}
    (hrs : r ≤ s) (hs : s ≤ numRows) : words (rowPtr + r) ≤ words (rowPtr + s) := by
  induction s, hrs using Nat.le_induction with
  | base => exact le_rfl
  | succ s _ ih => exact (ih (by omega)).trans (hmono s (by omega))

theorem RowOffsets.vecEnd_lt {words : ℕ → ℕ} {rowPtr numRows : ℕ}
    (h : RowOffsets words rowPtr numRows) (row : ℕ) (hrow : row < numRows) :
    vecEnd (words (rowPtr + row)) (words (rowPtr + (row + 1))) + 8 < 2 ^ 32 := by
  have hle := (vecEnd_le (h.mono row hrow)).1
  have hrest := @words_le_of_mono _ _ _ h.mono (row + 1) numRows hrow le_rfl
  have hlast := h.last
  omega

/-- The arrays of a sparse product, with `xLen` elements in `x`. -/
structure SparseArrays (words : ℕ → ℕ) (values colIdx rowPtr x y numRows xLen : ℕ) : Prop where
  columns : ∀ i, words (rowPtr + 0) ≤ i → i < words (rowPtr + numRows) → words (colIdx + i) < xLen
  values_apart : values + words (rowPtr + numRows) ≤ y ∨ y + numRows ≤ values
  x_apart : x + xLen ≤ y ∨ y + numRows ≤ x

/-- The state after the rows below `r`. -/
def afterRows [Semiring α] (m : Memory α) (values colIdx rowPtr x y r : ℕ) : Memory α where
  floats p := if y ≤ p ∧ p < y + r then rowValue m values colIdx rowPtr x (p - y) else m.floats p
  words := m.words
  log := m.log ++ (List.range r).flatMap (rowAccesses m.words colIdx rowPtr)

theorem afterRows_zero [Semiring α] (m : Memory α) (values colIdx rowPtr x y : ℕ) :
    afterRows m values colIdx rowPtr x y 0 = m := by
  have hfloats : (afterRows m values colIdx rowPtr x y 0).floats = m.floats := by
    funext p
    exact if_neg (by omega)
  cases m
  simpa [afterRows] using hfloats

theorem afterRows_succ [Semiring α] (m : Memory α) (values colIdx rowPtr x y r : ℕ) :
    (⟨Function.update (afterRows m values colIdx rowPtr x y r).floats (y + r)
        (rowValue m values colIdx rowPtr x r), m.words,
      (afterRows m values colIdx rowPtr x y r).log ++ rowAccesses m.words colIdx rowPtr r⟩ :
        Memory α) = afterRows m values colIdx rowPtr x y (r + 1) := by
  have hfloats : Function.update (afterRows m values colIdx rowPtr x y r).floats (y + r)
      (rowValue m values colIdx rowPtr x r) = (afterRows m values colIdx rowPtr x y (r + 1)).floats := by
    funext p
    simp only [afterRows]
    by_cases hp : p = y + r
    · rw [hp, Function.update_self, if_pos (by omega), Nat.add_sub_cancel_left]
    · rw [Function.update_of_ne hp]
      apply if_congr _ rfl rfl
      omega
  rw [hfloats]
  simp only [afterRows, List.range_succ, List.flatMap_append, List.flatMap_singleton,
    List.append_assoc]

theorem rowValue_afterRows [Semiring α] {m : Memory α}
    {values colIdx rowPtr x y numRows xLen r row : ℕ}
    (hmono : ∀ row < numRows, m.words (rowPtr + row) ≤ m.words (rowPtr + (row + 1)))
    (h : SparseArrays m.words values colIdx rowPtr x y numRows xLen) (hr : r ≤ numRows)
    (hrow : row < numRows) : rowValue (afterRows m values colIdx rowPtr x y r) values colIdx rowPtr x
      row = rowValue m values colIdx rowPtr x row := by
  apply sum_congr rfl
  intro i hi
  obtain ⟨hlo, hhi⟩ := mem_Ico.mp hi
  change m.words (rowPtr + row) ≤ i at hlo
  change i < m.words (rowPtr + (row + 1)) at hhi
  have hfirst := words_le_of_mono hmono (Nat.zero_le row) hrow.le
  have hlast := @words_le_of_mono _ _ _ hmono (row + 1) numRows hrow le_rfl
  have hcol := h.columns i (hfirst.trans hlo) (hhi.trans_le hlast)
  have hvalues := h.values_apart
  have hx := h.x_apart
  have hvalue : ¬(y ≤ values + i ∧ values + i < y + r) := by omega
  have helement : ¬(y ≤ x + m.words (colIdx + i) ∧ x + m.words (colIdx + i) < y + r) := by omega
  simp only [term, afterRows, if_neg hvalue, if_neg helement]

/-- Where no row's loops wrap, the whole call is the plain product, with these accesses. -/
theorem spmvCsr_eq [Semiring α] {values colIdx rowPtr x y numRows xLen fuel : ℕ} {m : Memory α}
    (hrows : numRows < 2 ^ 64)
    (hmono : ∀ row < numRows, m.words (rowPtr + row) ≤ m.words (rowPtr + (row + 1)))
    (hends : ∀ row < numRows,
      vecEnd (m.words (rowPtr + row)) (m.words (rowPtr + (row + 1))) + 8 < 2 ^ 32)
    (h : SparseArrays m.words values colIdx rowPtr x y numRows xLen) (hfuel : 2 ^ 32 ≤ fuel)
    (hfuelRows : numRows < fuel) : spmvCsr values colIdx rowPtr x y numRows fuel m =
      some (afterRows m values colIdx rowPtr x y numRows) := by
  have hrun := @forUp_invariant _
    (fun row m => spmvRow values colIdx rowPtr x y fuel row m) 64 0 numRows 1
    (fun r m' => m' = afterRows m values colIdx rowPtr x y r) (Nat.zero_le _) one_pos (by omega)
  obtain ⟨m', hm', rfl⟩ := @hrun (fun row m' _ hrow _ hm' => by
      rw [Nat.min_eq_left (by omega : row + 1 ≤ numRows)]
      refine ⟨_, ?_, rfl⟩
      have hvalue := rowValue_afterRows hmono h hrow.le hrow
      have hstep := @spmvRow_eq _ _ values colIdx rowPtr x y row fuel
        (afterRows m values colIdx rowPtr x y row) (by omega) (hmono row hrow) (hends row hrow) hfuel
      rw [hm', hstep, hvalue]
      exact congrArg some (afterRows_succ m values colIdx rowPtr x y row))
    m (afterRows_zero m values colIdx rowPtr x y).symm fuel hfuelRows
  exact hm'

/-! ## Where it reads and writes -/

theorem mem_gatherAccesses {words : ℕ → ℕ} {colIdx i : ℕ} {access : Access}
    (h : access ∈ gatherAccesses words colIdx i) : access.write = false ∧ access.lanes = 1 ∧
      (access.array = .colIdx ∧ access.index = i ∨ access.array = .x) := by
  simp only [gatherAccesses, List.mem_cons, List.not_mem_nil, or_false] at h
  rcases h with rfl | rfl
  · exact ⟨rfl, rfl, .inl ⟨rfl, rfl⟩⟩
  · exact ⟨rfl, rfl, .inr rfl⟩

theorem mem_vecAccesses {words : ℕ → ℕ} {colIdx i : ℕ} {access : Access} :
    access ∈ vecAccesses words colIdx i ↔
      access = ⟨.values, i, 8, false⟩ ∨ ∃ l < 8, access ∈ gatherAccesses words colIdx (i + l) := by
  rw [vecAccesses, List.mem_cons, List.mem_flatMap]
  apply or_congr_right
  constructor
  · intro ⟨l, hl, hmem⟩
    refine ⟨l, ?_, hmem⟩
    simp only [List.mem_cons, List.not_mem_nil, or_false] at hl
    omega
  · intro ⟨l, hl, hmem⟩
    refine ⟨l, ?_, hmem⟩
    simp only [List.mem_cons, List.not_mem_nil, or_false]
    omega

/-- A row's reads of the elements: eight at a time, one at a time, or an entry of `x`. -/
theorem mem_elementAccesses {words : ℕ → ℕ} {colIdx start stop : ℕ} (hle : start ≤ stop)
    {access : Access} (h : access ∈ elementAccesses words colIdx start stop) :
    access.write = false ∧
      ((∃ k < (stop - start) / 8, access = ⟨.values, start + 8 * k, 8, false⟩) ∨ access.lanes = 1 ∧
        (access.array = .x ∨ (access.array = .values ∨ access.array = .colIdx) ∧
          start ≤ access.index ∧ access.index < stop)) := by
  obtain ⟨hvle, hvlt⟩ := vecEnd_le hle
  unfold vecEnd at hvle hvlt
  simp only [elementAccesses, List.mem_append, List.mem_flatMap, List.mem_range] at h
  rcases h with ⟨k, hk, hmem⟩ | ⟨k, hk, hmem⟩
  · rcases mem_vecAccesses.mp hmem with rfl | ⟨l, hl, hgather⟩
    · exact ⟨rfl, .inl ⟨k, hk, rfl⟩⟩
    · obtain ⟨hwrite, hlanes, ⟨harray, hindex⟩ | harray⟩ := mem_gatherAccesses hgather
      · exact ⟨hwrite, .inr ⟨hlanes, .inr ⟨.inr harray, by omega, by omega⟩⟩⟩
      · exact ⟨hwrite, .inr ⟨hlanes, .inl harray⟩⟩
  · rcases List.mem_cons.mp hmem with rfl | hgather
    · refine ⟨rfl, .inr ⟨rfl, .inr ⟨.inl rfl, ?_⟩⟩⟩
      dsimp only
      unfold vecEnd
      omega
    · obtain ⟨hwrite, hlanes, ⟨harray, hindex⟩ | harray⟩ := mem_gatherAccesses hgather
      · refine ⟨hwrite, .inr ⟨hlanes, .inr ⟨.inr harray, ?_⟩⟩⟩
        rw [hindex]
        unfold vecEnd
        omega
      · exact ⟨hwrite, .inr ⟨hlanes, .inl harray⟩⟩

/-- An access of `spmv_csr`: the elements are read between the first and the last offset, and only
`y` is written. -/
structure SpmvAccess (first last numRows : ℕ) (access : Access) : Prop where
  element : access.array = .values ∨ access.array = .colIdx →
    first ≤ access.index ∧ access.index + access.lanes ≤ last
  write : access.write = true → access.array = .y ∧ access.index + access.lanes ≤ numRows

theorem spmvAccess_of_mem {words : ℕ → ℕ} {colIdx rowPtr numRows row : ℕ}
    (hmono : ∀ row < numRows, words (rowPtr + row) ≤ words (rowPtr + (row + 1)))
    (hrow : row < numRows) {access : Access} (h : access ∈ rowAccesses words colIdx rowPtr row) :
    SpmvAccess (words (rowPtr + 0)) (words (rowPtr + numRows)) numRows access := by
  have hfirst := words_le_of_mono hmono (Nat.zero_le row) hrow.le
  have hlast := @words_le_of_mono _ _ _ hmono (row + 1) numRows hrow le_rfl
  have hle := hmono row hrow
  simp only [rowAccesses, List.mem_append, List.mem_cons, List.not_mem_nil, or_false] at h
  rcases h with ((rfl | rfl) | hmem) | rfl
  · exact ⟨fun h => by simp at h, fun h => absurd h Bool.false_ne_true⟩
  · exact ⟨fun h => by simp at h, fun h => absurd h Bool.false_ne_true⟩
  · obtain ⟨hwrite, ⟨k, hk, rfl⟩ | ⟨hlanes, hkind⟩⟩ := mem_elementAccesses hle hmem
    · refine ⟨fun _ => ?_, fun h => absurd h Bool.false_ne_true⟩
      dsimp only
      omega
    · refine ⟨fun harray => ?_, fun h => by rw [hwrite] at h; exact absurd h Bool.false_ne_true⟩
      rcases hkind with hx | ⟨-, hlo, hhi⟩
      · rw [hx] at harray
        simp at harray
      · omega
  · exact ⟨fun h => by simp at h, fun _ => ⟨rfl, hrow⟩⟩

/-- `spmv_csr` is the plain sparse product: every entry of `y` gets the sum of its row, nothing else
changes, and the elements are read only between the first and the last offset. -/
theorem spmvCsr_plain [CommRing α] {values colIdx rowPtr x y numRows xLen fuel : ℕ} {m : Memory α}
    (hrows : numRows < 2 ^ 64) (hoffsets : RowOffsets m.words rowPtr numRows)
    (h : SparseArrays m.words values colIdx rowPtr x y numRows xLen) (hfuel : 2 ^ 32 ≤ fuel)
    (hfuelRows : numRows < fuel) :
    ∃ m', spmvCsr values colIdx rowPtr x y numRows fuel m = some m' ∧
      (∀ row < numRows, m'.floats (y + row) =
        ∑ i ∈ Ico (m.words (rowPtr + row)) (m.words (rowPtr + (row + 1))),
          m.floats (values + i) * m.floats (x + m.words (colIdx + i))) ∧
      (∀ p, p < y ∨ y + numRows ≤ p → m'.floats p = m.floats p) ∧ m'.words = m.words ∧
      Later (SpmvAccess (m.words (rowPtr + 0)) (m.words (rowPtr + numRows)) numRows) m m' := by
  refine ⟨_, spmvCsr_eq hrows hoffsets.mono hoffsets.vecEnd_lt h hfuel hfuelRows, fun row hrow => ?_,
    fun p hp => ?_, rfl, ⟨_, rfl, fun access hmem => ?_⟩⟩
  · simp only [afterRows]
    rw [if_pos (by omega), Nat.add_sub_cancel_left]
    rfl
  · exact if_neg (by omega)
  · obtain ⟨row, hrow, hmem⟩ := List.mem_flatMap.mp hmem
    exact spmvAccess_of_mem hoffsets.mono (List.mem_range.mp hrow) hmem

/-- A row of nine elements and an empty one. -/
theorem spmvCsr_nine : ∃ m', spmvCsr 0 100 0 16 64 2 (2 ^ 32)
      (⟨fun p => p, fun p => if p = 0 then 0 else if p ≤ 2 then 9 else 1, []⟩ : Memory ℤ) = some m' ∧
    m'.floats (64 + 0) = ∑ i ∈ Ico 0 9, ((0 + i : ℕ) : ℤ) * ((16 + 1 : ℕ) : ℤ) := by
  obtain ⟨m', hm', hrow, -⟩ := @spmvCsr_plain ℤ _ 0 100 0 16 64 2 2 (2 ^ 32)
    ⟨fun p => p, fun p => if p = 0 then 0 else if p ≤ 2 then 9 else 1, []⟩ (by norm_num)
    ⟨by decide, by decide⟩ ⟨fun i _ _ => by
      dsimp only
      rw [if_neg (by omega), if_neg (by omega)]
      norm_num, .inl (by decide), .inl (by decide)⟩ le_rfl (by norm_num)
  refine ⟨m', hm', (hrow 0 (by norm_num)).trans ?_⟩
  rfl

/-! ## Runs that never end -/

theorem vecStep_words [Add α] [Mul α] (values colIdx x i : ℕ) (s : M256 α × Memory α) :
    (vecStep values colIdx x i s).2.words = s.2.words := by
  simp only [vecStep, gather_eq, Memory.mm256LoadPs, Memory.logged, Memory.note_words]

theorem tailStep_words [Add α] [Mul α] (values colIdx x i : ℕ) (s : α × Memory α) :
    (tailStep values colIdx x i s).2.words = s.2.words := by
  simp only [tailStep, gather_eq, Memory.loadFloat, Memory.logged, Memory.note_words]

theorem rowSum_words [Zero α] [Add α] [Mul α] {values colIdx x start stop fuel : ℕ} {sum : α}
    {m m' : Memory α} (h : rowSum values colIdx x start stop fuel m = some (sum, m')) :
    m'.words = m.words := by
  simp only [rowSum, Option.bind_eq_bind, Option.bind_eq_some_iff] at h
  obtain ⟨⟨i, v, m₁⟩, hvec, ⟨i', sum', m₂⟩, htail, heq⟩ := h
  obtain ⟨-, rfl⟩ := Prod.mk.inj (Option.some.inj heq)
  have h₁ : m₁.words = m.words := by
    apply @forLoop_preserves _ _ _ _ _ (fun s : M256 α × Memory α => s.2.words = m.words) _ _ _ _
      (mm256SetzeroPs, m) _ rfl hvec
    intro i s s' hs hstep
    rw [← Option.some.inj hstep, vecStep_words, hs]
  apply @forLoop_preserves _ _ _ _ _ (fun s : α × Memory α => s.2.words = m.words) _ _ _ _
    _ _ h₁ htail
  intro i s s' hs hstep
  rw [← Option.some.inj hstep, tailStep_words, hs]

/-- The rows leave the words as they are. -/
theorem spmvRow_words [Zero α] [Add α] [Mul α] {values colIdx rowPtr x y fuel row : ℕ}
    {m m' : Memory α} (h : spmvRow values colIdx rowPtr x y fuel row m = some m') :
    m'.words = m.words := by
  simp only [spmvRow, Option.bind_eq_bind, Option.bind_eq_some_iff] at h
  obtain ⟨⟨sum, m₁⟩, hsum, hstore⟩ := h
  have hwords := rowSum_words hsum
  simp only [Memory.loadWord, Memory.note_words] at hwords
  rw [← Option.some.inj hstore]
  exact hwords

theorem spmvCsr_eq_none [Semiring α] {values colIdx rowPtr x y numRows row : ℕ} {m : Memory α}
    (hrows : numRows < 2 ^ 64) (hrow : row < numRows)
    (hle : m.words (rowPtr + row) ≤ m.words (rowPtr + (row + 1)))
    (hlt : m.words (rowPtr + (row + 1)) < 2 ^ 32)
    (hend : 2 ^ 32 ≤ vecEnd (m.words (rowPtr + row)) (m.words (rowPtr + (row + 1))) + 8)
    (fuel : ℕ) : spmvCsr values colIdx rowPtr x y numRows fuel m = none := by
  apply @forUp_eq_none _ _ 64 numRows row (fun m' => m'.words = m.words) _ hrow hrows _ 0
    (Nat.zero_le _) m rfl fuel
  · intro c s s' hs hs'
    exact (spmvRow_words hs').trans hs
  · intro s hs
    simp only [spmvRow, Memory.loadWord, Nat.mod_eq_of_lt (by omega : row + 1 < 2 ^ 64),
      Memory.note_words, hs, rowSum_eq_none values colIdx x hle hlt hend]
    rfl

end MathUnikernel.MathLib
