import MathUnikernel.MatrixMultiply

/-!
# Deterministic data

`init_vector_deterministic` and `init_matrix_deterministic`, and the product of two matrices filled
by the latter.
-/

namespace MathUnikernel.MathLib
open Loops Finset

/-! ## The functions -/

/-- `4t(1 - t)`, where `t` is a thousandth of `i % 1000`. -/
def vectorValue (i : ℕ) : ℚ :=
  let t : ℚ := (i % 1000 : ℕ) * (1 / 1000)
  t * (1 - t) * 4

def initVectorDeterministic (vec count fuel : ℕ) (m : Memory ℚ) : Option (Memory ℚ) :=
  forUp 64 count 1 (fun i m => some (m.storeFloat .x vec i (vectorValue i))) fuel 0 m

def matrixValue (i j : ℕ) : ℚ := ((i * 7 + j * 13) % 2 ^ 64 % 1000 : ℕ) * (1 / 1000)

/-- `array` is what the caller uses the matrix as. -/
def initMatrixDeterministic (array : Param) (mat rows cols fuel : ℕ) (m : Memory ℚ) :
    Option (Memory ℚ) :=
  forUp 64 rows 1 (fun i m =>
    forUp 64 cols 1 (fun j m =>
      some (m.storeFloat array mat ((i * cols + j) % 2 ^ 64) (matrixValue i j))) fuel 0 m) fuel 0 m

/-! ## What they fill -/

/-- An access of a function that fills an array of `size` elements. -/
structure FillAccess (array : Param) (size : ℕ) (access : Access) : Prop where
  array : access.array = array
  extent : access.index + access.lanes ≤ size
  write : access.write = true

/-- `m'` is `m` with the first `done` elements of an array of `size` filled. -/
structure Fills (array : Param) (base size : ℕ) (value : ℕ → ℚ) (m : Memory ℚ) (done : ℕ)
    (m' : Memory ℚ) : Prop where
  filled : ∀ i < done, m'.floats (base + i) = value i
  rest : ∀ p, p < base ∨ base + done ≤ p → m'.floats p = m.floats p
  words : m'.words = m.words
  later : Later (FillAccess array size) m m'

section
variable {array : Param} {base size done : ℕ} {value : ℕ → ℚ} {m m' : Memory ℚ}

theorem fills_zero : Fills array base size value m 0 m :=
  ⟨fun i hi => absurd hi (Nat.not_lt_zero i), fun _ _ => rfl, rfl, .refl _ m⟩

/-- The next element. -/
theorem Fills.storeFloat (h : Fills array base size value m done m') (hlt : done < size) :
    Fills array base size value m (done + 1) (m'.storeFloat array base done (value done)) := by
  refine ⟨fun i hi => ?_, fun p hp => ?_, h.words, h.later.snoc rfl ⟨rfl, hlt, rfl⟩⟩
  · simp only [Memory.storeFloat]
    by_cases heq : i = done
    · rw [heq, Function.update_self]
    · rw [Function.update_of_ne (by omega)]
      exact h.filled i (by omega)
  · simp only [Memory.storeFloat]
    rw [Function.update_of_ne (by omega)]
    exact h.rest p (by omega)

end

/-- The vector's elements are filled one by one. -/
theorem fills_initVectorDeterministic (vec : ℕ) {count fuel : ℕ} (hcount : count < 2 ^ 64)
    (hfuel : count < fuel) (m : Memory ℚ) :
    ∃ m', initVectorDeterministic vec count fuel m = some m' ∧
      Fills .x vec count vectorValue m count m' := by
  have hbody : ∀ i m', 0 ≤ i → i < count → (i - 0) % 1 = 0 → Fills .x vec count vectorValue m i m' →
      ∃ m'', some (m'.storeFloat .x vec i (vectorValue i)) = some m'' ∧
        Fills .x vec count vectorValue m (min (i + 1) count) m'' := by
    intro i m' _ hi _ h
    rw [Nat.min_eq_left (show i + 1 ≤ count from hi)]
    exact ⟨_, rfl, h.storeFloat hi⟩
  exact forUp_invariant (Nat.zero_le count) one_pos hcount hbody fills_zero hfuel

/-- Values lie between 0 and 1. -/
theorem vectorValue_mem (i : ℕ) : 0 ≤ vectorValue i ∧ vectorValue i ≤ 1 := by
  have hlt : ((i % 1000 : ℕ) : ℚ) ≤ 1000 := by exact_mod_cast (Nat.mod_lt i (by decide)).le
  have hpos : (0 : ℚ) ≤ (i % 1000 : ℕ) := Nat.cast_nonneg _
  simp only [vectorValue]
  constructor
  · have hone : (0 : ℚ) ≤ 1 - (i % 1000 : ℕ) * (1 / 1000) := by linarith
    positivity
  · have hsquare := sq_nonneg (2 * ((i % 1000 : ℕ) * (1 / 1000) : ℚ) - 1)
    linarith

/-! ## Matrices -/

/-- The value at a place of a matrix, rows one after another. -/
def matrixAt (cols f : ℕ) : ℚ := matrixValue (f / cols) (f % cols)

theorem matrixAt_eq {cols i j : ℕ} (hj : j < cols) : matrixAt cols (i * cols + j) = matrixValue i j := by
  have hpos : 0 < cols := by omega
  rw [matrixAt, Nat.mul_comm, Nat.mul_add_div hpos, Nat.div_eq_of_lt hj, Nat.add_zero,
    Nat.mul_add_mod, Nat.mod_eq_of_lt hj]

/-- The matrix is filled row by row, each row from left to right. -/
theorem fills_initMatrixDeterministic (array : Param) (mat : ℕ) {rows cols fuel : ℕ}
    (hrows : rows < 2 ^ 64) (hcols : cols < 2 ^ 64) (hsize : rows * cols < 2 ^ 64)
    (hfuel : rows < fuel) (hfuel' : cols < fuel) (m : Memory ℚ) :
    ∃ m', initMatrixDeterministic array mat rows cols fuel m = some m' ∧
      Fills array mat (rows * cols) (matrixAt cols) m (rows * cols) m' := by
  apply forUp_invariant (P := fun i => Fills array mat (rows * cols) (matrixAt cols) m (i * cols))
    (Nat.zero_le rows) one_pos hrows _ _ hfuel
  · intro i m₁ _ hi _ h₁
    rw [Nat.min_eq_left (show i + 1 ≤ rows from hi)]
    have hrow : ∀ j m₂, 0 ≤ j → j < cols → (j - 0) % 1 = 0 →
        Fills array mat (rows * cols) (matrixAt cols) m (i * cols + j) m₂ →
        ∃ m₃, some (m₂.storeFloat array mat ((i * cols + j) % 2 ^ 64) (matrixValue i j)) = some m₃ ∧
          Fills array mat (rows * cols) (matrixAt cols) m (i * cols + min (j + 1) cols) m₃ := by
      intro j m₂ _ hj _ h₂
      have hlt := row_index_lt hi hj
      rw [Nat.min_eq_left (show j + 1 ≤ cols from hj), ← Nat.add_assoc,
        Nat.mod_eq_of_lt (hlt.trans hsize), ← matrixAt_eq hj]
      exact ⟨_, rfl, h₂.storeFloat hlt⟩
    obtain ⟨m₂, hm₂, h₂⟩ := forUp_invariant (Nat.zero_le cols) one_pos hcols hrow h₁ hfuel'
    refine ⟨m₂, hm₂, ?_⟩
    rw [Nat.add_mul, Nat.one_mul]
    exact h₂
  · rw [Nat.zero_mul]
    exact fills_zero

/-! ## Their product -/

/-- The three arrays do not overlap; `b` has the rows that `matrix_multiply` reads. -/
structure ProductArrays (a b out n : ℕ) : Prop where
  out : OutApart a b out n
  operands : a + n * n ≤ b ∨ b + n * roundUp n ≤ a

/-- Two matrices of order `n`, the second filled with `cols` columns, and their product: whatever
was in memory, the first `n` columns are those of the product of the two patterns. -/
def ProductOk (n cols : ℕ) : Prop :=
  ∀ (a b out : ℕ) (m : Memory ℚ), ProductArrays a b out n → ∃ fuel₀, ∀ fuel, fuel₀ ≤ fuel →
    ∃ m₁ m₂ m₃, initMatrixDeterministic .a a n n fuel m = some m₁ ∧
      initMatrixDeterministic .b b n cols fuel m₁ = some m₂ ∧
      matrixMultiply a b out n fuel m₂ = some m₃ ∧
      ∀ i < n, ∀ j < n, m₃.floats (out + (i * roundUp n + j)) =
        ∑ k ∈ range n, matrixValue i k * matrixValue k j

/-- What `b` holds at a place: the pattern where it was filled, and behind that what was there. -/
def operandAt (m : Memory ℚ) (b n cols f : ℕ) : ℚ :=
  if f < n * cols then matrixAt cols f else m.floats (b + f)

section
variable {a b out n cols : ℕ}

/-- The product that is computed. -/
theorem product_entries (hsmall : roundUp n * roundUp n < 2 ^ 64) (hcols : cols ≤ roundUp n)
    (harrays : ProductArrays a b out n) (m : Memory ℚ) {fuel : ℕ}
    (hfuel : roundUp n * roundUp n < fuel) :
    ∃ m₁ m₂ m₃, initMatrixDeterministic .a a n n fuel m = some m₁ ∧
      initMatrixDeterministic .b b n cols fuel m₁ = some m₂ ∧
      matrixMultiply a b out n fuel m₂ = some m₃ ∧
      ∀ i < n, ∀ j < n, m₃.floats (out + (i * roundUp n + j)) =
        ∑ k ∈ range n, matrixValue i k * operandAt m b n cols (k * roundUp n + j) := by
  have hle := le_roundUp n
  have hsquare : roundUp n ≤ roundUp n * roundUp n := Nat.le_mul_self _
  have hnn : n * n ≤ roundUp n * roundUp n := Nat.mul_le_mul hle hle
  have hnc : n * cols ≤ n * roundUp n := Nat.mul_le_mul_left n hcols
  have hnr : n * roundUp n ≤ roundUp n * roundUp n := Nat.mul_le_mul_right _ hle
  obtain ⟨m₁, hm₁, h₁⟩ := @fills_initMatrixDeterministic .a a n n fuel (by omega) (by omega) (by omega)
    (by omega) (by omega) m
  obtain ⟨m₂, hm₂, h₂⟩ := @fills_initMatrixDeterministic .b b n cols fuel (by omega) (by omega)
    (by omega) (by omega) (by omega) m₁
  obtain ⟨m₃, hm₃, hentry, -⟩ := @matrixMultiply_eq ℚ _ a b out n hsmall harrays.out m₂ fuel hfuel
  refine ⟨m₁, m₂, m₃, hm₁, hm₂, hm₃, fun i hi j hj => ?_⟩
  rw [hentry i hi j (hj.trans_le hle)]
  apply sum_congr rfl
  intro k hk
  have hk := mem_range.mp hk
  have hleft := row_index_lt hi hk
  have hright := row_index_lt hk (hj.trans_le hle)
  have hoperands := harrays.operands
  congr 1
  · -- `b` is filled elsewhere
    rw [h₂.rest _ (by omega), h₁.filled _ hleft, matrixAt_eq hk]
  · rw [operandAt]
    split_ifs with hfilled
    · exact h₂.filled _ hfilled
    · rw [h₂.rest _ (by omega), h₁.rest _ (by omega)]

/-- With the rows of `b` padded the product is that of the patterns. -/
theorem productOk_roundUp (hsmall : roundUp n * roundUp n < 2 ^ 64) : ProductOk n (roundUp n) := by
  intro a b out m harrays
  refine ⟨roundUp n * roundUp n + 1, fun fuel hfuel => ?_⟩
  obtain ⟨m₁, m₂, m₃, hm₁, hm₂, hm₃, hentry⟩ := product_entries hsmall le_rfl harrays m hfuel
  refine ⟨m₁, m₂, m₃, hm₁, hm₂, hm₃, fun i hi j hj => ?_⟩
  rw [hentry i hi j hj]
  apply sum_congr rfl
  intro k hk
  have hj' := hj.trans_le (le_roundUp n)
  rw [operandAt, if_pos (row_index_lt (mem_range.mp hk) hj'), matrixAt_eq hj']

/-- Rows that need no padding, or one row. -/
theorem productOk_self (hsmall : roundUp n * roundUp n < 2 ^ 64) (hn : n % 8 = 0 ∨ n = 1) :
    ProductOk n n := by
  rcases hn with hmod | rfl
  · have hround : roundUp n = n := by
      unfold roundUp
      omega
    have hok := productOk_roundUp hsmall
    rwa [hround] at hok
  · intro a b out m harrays
    refine ⟨roundUp 1 * roundUp 1 + 1, fun fuel hfuel => ?_⟩
    obtain ⟨m₁, m₂, m₃, hm₁, hm₂, hm₃, hentry⟩ :=
      product_entries hsmall (le_roundUp 1) harrays m hfuel
    refine ⟨m₁, m₂, m₃, hm₁, hm₂, hm₃, fun i hi j hj => ?_⟩
    obtain rfl : j = 0 := by omega
    rw [hentry i hi 0 hj, sum_range_one, sum_range_one, operandAt, Nat.zero_mul, if_pos (by decide)]
    rfl

/-- Such products do not depend on what was in memory. -/
theorem ProductOk.sums (hok : ProductOk n cols) (hsmall : roundUp n * roundUp n < 2 ^ 64)
    (hcols : cols ≤ roundUp n) (harrays : ProductArrays a b out n) (m : Memory ℚ) {i j : ℕ}
    (hi : i < n) (hj : j < n) :
    ∑ k ∈ range n, matrixValue i k * operandAt m b n cols (k * roundUp n + j) =
      ∑ k ∈ range n, matrixValue i k * matrixValue k j := by
  obtain ⟨fuel₀, hok⟩ := hok a b out m harrays
  obtain ⟨m₁, m₂, m₃, hm₁, hm₂, hm₃, hexpected⟩ :=
    hok (max fuel₀ (roundUp n * roundUp n + 1)) (le_max_left _ _)
  obtain ⟨m₁', m₂', m₃', hm₁', hm₂', hm₃', hentry⟩ :=
    product_entries hsmall hcols harrays m (le_max_right fuel₀ (roundUp n * roundUp n + 1))
  obtain rfl := Option.some.inj (hm₁.symm.trans hm₁')
  obtain rfl := Option.some.inj (hm₂.symm.trans hm₂')
  obtain rfl := Option.some.inj (hm₃.symm.trans hm₃')
  rw [← hentry i hi j hj, hexpected i hi j hj]

/-- The last row that `matrix_multiply` reads begins behind a matrix filled without padding. -/
theorem last_row_unfilled (hn : 1 < n) (hround : n < roundUp n) :
    n * n ≤ (n - 1) * roundUp n + 1 := by
  obtain ⟨r, rfl⟩ : ∃ r, n = r + 1 := ⟨n - 1, by omega⟩
  calc (r + 1) * (r + 1) = r * (r + 2) + 1 := by ring
    _ ≤ r * roundUp (r + 1) + 1 := Nat.succ_le_succ (Nat.mul_le_mul_left r hround)

/-- Also where the subscript wraps. -/
theorem matrixValue_ne_zero (k : ℕ) : matrixValue 0 k ≠ 0 ∨ matrixValue 1 k ≠ 0 := by
  by_contra hnot
  push Not at hnot
  obtain ⟨hzero, hone⟩ := hnot
  simp only [matrixValue, mul_eq_zero, Nat.cast_eq_zero] at hzero hone
  norm_num at hzero hone
  omega

/-- A memory with one float in it. -/
def holding (p : ℕ) (v : ℚ) : Memory ℚ where
  floats := Function.update 0 p v
  words _ := 0
  log := []

/-- Without the padding the last row comes from what was in memory. -/
theorem not_productOk_self (hsmall : roundUp n * roundUp n < 2 ^ 64) (hmod : n % 8 ≠ 0) (hn : 1 < n) :
    ¬ProductOk n n := by
  intro hok
  have hround : n < roundUp n := by
    unfold roundUp
    omega
  obtain ⟨r, rfl⟩ : ∃ r, n = r + 1 := ⟨n - 1, by omega⟩
  have hlast := last_row_unfilled hn hround
  rw [Nat.add_sub_cancel] at hlast
  have harrays : ProductArrays 0 ((r + 1) * (r + 1))
      ((r + 1) * (r + 1) + (r + 1) * roundUp (r + 1)) (r + 1) :=
    ⟨⟨.inl (by omega), .inl (by omega)⟩, .inl (by omega)⟩
  -- memories that differ in one element of that row
  have hrow : ∀ v, operandAt (holding ((r + 1) * (r + 1) + (r * roundUp (r + 1) + 1)) v)
      ((r + 1) * (r + 1)) (r + 1) (r + 1) (r * roundUp (r + 1) + 1) = v := by
    intro v
    rw [operandAt, if_neg (by omega)]
    exact Function.update_self _ _ _
  have hrest : ∀ v, ∀ k < r, operandAt (holding ((r + 1) * (r + 1) + (r * roundUp (r + 1) + 1)) v)
      ((r + 1) * (r + 1)) (r + 1) (r + 1) (k * roundUp (r + 1) + 1) =
        operandAt (holding 0 0) ((r + 1) * (r + 1)) (r + 1) (r + 1) (k * roundUp (r + 1) + 1) := by
    intro v k hk
    have hbefore : k * roundUp (r + 1) < r * roundUp (r + 1) :=
      Nat.mul_lt_mul_of_pos_right hk (by omega)
    simp only [operandAt, holding]
    rw [Function.update_of_ne (by omega), Function.update_zero]
  have hsum : ∀ v, ∀ i < r + 1, ∑ k ∈ range r, matrixValue i k *
      operandAt (holding 0 0) ((r + 1) * (r + 1)) (r + 1) (r + 1) (k * roundUp (r + 1) + 1) +
        matrixValue i r * v = ∑ k ∈ range (r + 1), matrixValue i k * matrixValue k 1 := by
    intro v i hi
    rw [← hok.sums hsmall hround.le harrays (holding _ v) hi hn, sum_range_succ, hrow]
    congr 1
    apply sum_congr rfl
    intro k hk
    rw [hrest v k (mem_range.mp hk)]
  -- the sums would then not depend on that element, so its factor is zero in every row
  have hzero : ∀ i < r + 1, matrixValue i r = 0 := by
    intro i hi
    have hsame := (hsum 1 i hi).trans (hsum 0 i hi).symm
    rwa [mul_one, mul_zero, add_zero, add_eq_left] at hsame
  rcases matrixValue_ne_zero r with h | h
  · exact h (hzero 0 (by omega))
  · exact h (hzero 1 (by omega))

/-- Filled with `n` columns the second operand gives the product of the patterns exactly when its rows
need no padding or there is one row; filled with the padding it always does. -/
theorem patterns_multiply_iff (hsmall : roundUp n * roundUp n < 2 ^ 64) :
    (ProductOk n n ↔ n % 8 = 0 ∨ n = 1) ∧ ProductOk n (roundUp n) := by
  refine ⟨⟨fun hok => ?_, productOk_self hsmall⟩, productOk_roundUp hsmall⟩
  by_contra hn
  push Not at hn
  exact not_productOk_self hsmall hn.1 (by omega) hok

theorem patterns_multiply_three : ¬ProductOk 3 3 ∧ ProductOk 3 8 :=
  ⟨fun h => absurd ((@patterns_multiply_iff 3 (by decide)).1.mp h) (by decide),
    (@patterns_multiply_iff 3 (by decide)).2⟩

end

end MathUnikernel.MathLib
