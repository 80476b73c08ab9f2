import MathUnikernel.MatrixMultiply

/-!
# Products of products

`matrix_multiply` reads its left operand with row stride `n` and its right operand with the padded
stride, with which it writes the result.
-/

namespace MathUnikernel.MathLib
open Finset

variable {n : ℕ}

/-! ## Layouts -/

/-- Entry `(i, j)`, zero in the padding. -/
def entry (A : Matrix (Fin n) (Fin n) ℚ) (i j : ℕ) : ℚ :=
  if h : i < n ∧ j < n then A ⟨i, h.1⟩ ⟨j, h.2⟩ else 0

/-- The layout of the result: padded rows and columns, zero in the padding. -/
def Padded (m : Memory ℚ) (base : ℕ) (A : Matrix (Fin n) (Fin n) ℚ) : Prop :=
  ∀ i < roundUp n, ∀ j < roundUp n, m.floats (base + (i * roundUp n + j)) = entry A i j

/-- The layout of the left operand. -/
def Compact (m : Memory ℚ) (base : ℕ) (A : Matrix (Fin n) (Fin n) ℚ) : Prop :=
  ∀ i < n, ∀ j < n, m.floats (base + (i * n + j)) = entry A i j

theorem entry_of_lt (A : Matrix (Fin n) (Fin n) ℚ) (i j : Fin n) : entry A i j = A i j :=
  dif_pos ⟨i.isLt, j.isLt⟩

theorem entry_of_not_lt (A : Matrix (Fin n) (Fin n) ℚ) {i j : ℕ} (h : ¬(i < n ∧ j < n)) :
    entry A i j = 0 := dif_neg h

theorem entry_mul (A B : Matrix (Fin n) (Fin n) ℚ) {i j : ℕ} (hi : i < n) :
    entry (A * B) i j = ∑ k ∈ range n, entry A i k * entry B k j := by
  by_cases hj : j < n
  · have hmul := entry_of_lt (A * B) ⟨i, hi⟩ ⟨j, hj⟩
    rw [Matrix.mul_apply] at hmul
    rw [hmul, ← Fin.sum_univ_eq_sum_range fun k => entry A i k * entry B k j]
    apply sum_congr rfl
    intro k _
    rw [← entry_of_lt A, ← entry_of_lt B]
  · have hzero : ∀ C : Matrix (Fin n) (Fin n) ℚ, ∀ k, entry C k j = 0 :=
      fun C k => entry_of_not_lt C (not_and_of_not_right _ hj)
    rw [hzero, sum_eq_zero]
    intro k _
    rw [hzero, mul_zero]

/-- The two layouts are the same where the rows need no padding or there is one row only. -/
theorem Padded.compact {m : Memory ℚ} {base : ℕ} {A : Matrix (Fin n) (Fin n) ℚ}
    (h : Padded m base A) (hn : n % 8 = 0 ∨ n = 1) : Compact m base A := by
  intro i hi j hj
  have hle := le_roundUp n
  have hrow : i * n = i * roundUp n := by
    rcases hn with hmod | rfl
    · rw [show roundUp n = n by unfold roundUp; omega]
    · rw [show i = 0 by omega, Nat.zero_mul, Nat.zero_mul]
  rw [hrow]
  exact h i (by omega) j (by omega)

theorem Padded.frame {m m' : Memory ℚ} {base out : ℕ} {A : Matrix (Fin n) (Fin n) ℚ}
    (h : Padded m base A)
    (hrest : ∀ p, p < out ∨ out + roundUp n * roundUp n ≤ p → m'.floats p = m.floats p)
    (hapart : base + roundUp n * roundUp n ≤ out ∨ out + roundUp n * roundUp n ≤ base) :
    Padded m' base A := by
  intro i hi j hj
  have hlt := row_index_lt hi hj
  rw [hrest _ (by omega)]
  exact h i hi j hj

theorem Compact.frame {m m' : Memory ℚ} {base out : ℕ} {A : Matrix (Fin n) (Fin n) ℚ}
    (h : Compact m base A)
    (hrest : ∀ p, p < out ∨ out + roundUp n * roundUp n ≤ p → m'.floats p = m.floats p)
    (hapart : base + n * n ≤ out ∨ out + roundUp n * roundUp n ≤ base) : Compact m' base A := by
  intro i hi j hj
  have hlt := row_index_lt hi hj
  rw [hrest _ (by omega)]
  exact h i hi j hj

/-- The product of a compact and a padded matrix is padded. -/
theorem Compact.matrixMultiply {m : Memory ℚ} {a b out fuel : ℕ}
    {A B : Matrix (Fin n) (Fin n) ℚ} (hA : Compact m a A) (hB : Padded m b B)
    (hsmall : roundUp n * roundUp n < 2 ^ 64) (hapart : OutApart a b out n)
    (hfuel : roundUp n * roundUp n < fuel) :
    ∃ m', matrixMultiply a b out n fuel m = some m' ∧ Padded m' out (A * B) ∧
      ∀ p, p < out ∨ out + roundUp n * roundUp n ≤ p → m'.floats p = m.floats p := by
  obtain ⟨m', hm', hentry, hzero, hrest, -⟩ := matrixMultiply_eq hsmall hapart m hfuel
  have hle := le_roundUp n
  refine ⟨m', hm', fun i hi j hj => ?_, hrest⟩
  by_cases hin : i < n
  · rw [hentry i hin j hj, entry_mul A B hin]
    apply sum_congr rfl
    intro k hk
    have hkn := mem_range.mp hk
    rw [hA i hin k hkn, hB k (by omega) j hj]
  · rw [hzero i (Nat.le_of_not_lt hin) hi j hj]
    exact (entry_of_not_lt (A * B) (not_and_of_not_left _ hin)).symm

/-! ## Chains -/

/-- Padded arrays at `p` and `q` do not overlap. -/
def PaddedApart (n p q : ℕ) : Prop :=
  p + roundUp n * roundUp n ≤ q ∨ q + roundUp n * roundUp n ≤ p

/-- A product of padded matrices is again padded. -/
def ProductPadded (n : ℕ) : Prop :=
  ∀ (m : Memory ℚ) (a b out fuel : ℕ) (A B : Matrix (Fin n) (Fin n) ℚ),
    PaddedApart n a out → PaddedApart n b out → Padded m a A → Padded m b B →
    roundUp n * roundUp n < fuel →
    ∃ m', matrixMultiply a b out n fuel m = some m' ∧ Padded m' out (A * B)

/-- The arrays of a chain: two results and three operands. -/
structure ChainApart (n a b c t out : ℕ) : Prop where
  a_t : PaddedApart n a t
  b_t : PaddedApart n b t
  c_t : PaddedApart n c t
  a_out : PaddedApart n a out
  c_out : PaddedApart n c out
  t_out : PaddedApart n t out

/-- `(A * B) * C`. -/
def LeftChain (n : ℕ) : Prop :=
  ∀ (m : Memory ℚ) (a b c t out fuel : ℕ) (A B C : Matrix (Fin n) (Fin n) ℚ),
    ChainApart n a b c t out → Padded m a A → Padded m b B → Padded m c C →
    roundUp n * roundUp n < fuel →
    ∃ m₁ m₂, matrixMultiply a b t n fuel m = some m₁ ∧ matrixMultiply t c out n fuel m₁ = some m₂ ∧
      Padded m₂ out (A * B * C)

/-- `A * (B * C)`, for left operands in a given layout. -/
def RightChain (n : ℕ) (Layout : Memory ℚ → ℕ → Matrix (Fin n) (Fin n) ℚ → Prop) : Prop :=
  ∀ (m : Memory ℚ) (a b c t out fuel : ℕ) (A B C : Matrix (Fin n) (Fin n) ℚ),
    ChainApart n a b c t out → Layout m a A → Layout m b B → Padded m c C →
    roundUp n * roundUp n < fuel →
    ∃ m₁ m₂, matrixMultiply b c t n fuel m = some m₁ ∧ matrixMultiply a t out n fuel m₁ = some m₂ ∧
      Padded m₂ out (A * (B * C))

theorem PaddedApart.outApart {a b out : ℕ} (ha : PaddedApart n a out) (hb : PaddedApart n b out) :
    OutApart a b out n := by
  have hle := le_roundUp n
  have hsquare := Nat.mul_le_mul hle hle
  have hrows := Nat.mul_le_mul_right (roundUp n) hle
  unfold PaddedApart at ha hb
  exact ⟨by omega, by omega⟩

theorem leftChain_of_mod (hsmall : roundUp n * roundUp n < 2 ^ 64) (hn : n % 8 = 0 ∨ n = 1) :
    LeftChain n := by
  intro m a b c t out fuel A B C hapart hA hB hC hfuel
  obtain ⟨m₁, hm₁, hAB, hrest⟩ := (hA.compact hn).matrixMultiply hB hsmall
    (hapart.a_t.outApart hapart.b_t) hfuel
  obtain ⟨m₂, hm₂, hABC, -⟩ := (hAB.compact hn).matrixMultiply (hC.frame hrest hapart.c_t) hsmall
    (hapart.t_out.outApart hapart.c_out) hfuel
  exact ⟨m₁, m₂, hm₁, hm₂, hABC⟩

/-- A result is a right operand as it is. -/
theorem rightChain_compact (hsmall : roundUp n * roundUp n < 2 ^ 64) : RightChain n Compact := by
  intro m a b c t out fuel A B C hapart hA hB hC hfuel
  obtain ⟨m₁, hm₁, hBC, hrest⟩ := hB.matrixMultiply hC hsmall
    (hapart.b_t.outApart hapart.c_t) hfuel
  have hA₁ := hA.frame hrest (hapart.a_t.outApart hapart.b_t).left
  obtain ⟨m₂, hm₂, hABC, -⟩ := hA₁.matrixMultiply hBC hsmall
    (hapart.a_out.outApart hapart.t_out) hfuel
  exact ⟨m₁, m₂, hm₁, hm₂, hABC⟩

/-! ## Rows that need padding -/

/-- Two padded matrices one after the other. -/
def paddedPair (A B : Matrix (Fin n) (Fin n) ℚ) : Memory ℚ where
  floats p :=
    if p < roundUp n * roundUp n then entry A (p / roundUp n) (p % roundUp n)
    else entry B ((p - roundUp n * roundUp n) / roundUp n) ((p - roundUp n * roundUp n) % roundUp n)
  words _ := 0
  log := []

theorem row_index_div {i j stride : ℕ} (hj : j < stride) :
    (i * stride + j) / stride = i ∧ (i * stride + j) % stride = j := by
  have hpos : 0 < stride := by omega
  constructor
  · rw [Nat.mul_comm, Nat.mul_add_div hpos, Nat.div_eq_of_lt hj, Nat.add_zero]
  · rw [Nat.mul_comm, Nat.mul_add_mod, Nat.mod_eq_of_lt hj]

theorem padded_paddedPair (A B : Matrix (Fin n) (Fin n) ℚ) :
    Padded (paddedPair A B) 0 A ∧ Padded (paddedPair A B) (roundUp n * roundUp n) B := by
  constructor
  · intro i hi j hj
    obtain ⟨hdiv, hmod⟩ := @row_index_div i j _ hj
    rw [paddedPair, Nat.zero_add]
    dsimp only
    rw [if_pos (row_index_lt hi hj), hdiv, hmod]
  · intro i hi j hj
    obtain ⟨hdiv, hmod⟩ := @row_index_div i j _ hj
    rw [paddedPair]
    dsimp only
    rw [if_neg (Nat.not_lt.mpr (Nat.le_add_right _ _)), Nat.add_sub_cancel_left, hdiv, hmod]

/-- A one in row 1, times the identity: the one is looked for in the padding of row 0. -/
theorem product_single (hsmall : roundUp n * roundUp n < 2 ^ 64) (hmod : n % 8 ≠ 0) (hn : 1 < n)
    {fuel : ℕ} (hfuel : roundUp n * roundUp n < fuel) :
    ∃ m', matrixMultiply 0 (roundUp n * roundUp n) (2 * (roundUp n * roundUp n)) n fuel
        (paddedPair (Matrix.single ⟨1, hn⟩ ⟨0, by omega⟩ 1) 1) = some m' ∧
      ¬Padded m' (2 * (roundUp n * roundUp n)) (Matrix.single ⟨1, hn⟩ ⟨0, by omega⟩ 1 * 1) := by
  have hlt : n < roundUp n := by
    unfold roundUp
    omega
  obtain ⟨hA, hB⟩ := @padded_paddedPair n (Matrix.single ⟨1, hn⟩ ⟨0, by omega⟩ 1) 1
  have hapart : OutApart 0 (roundUp n * roundUp n) (2 * (roundUp n * roundUp n)) n := by
    apply PaddedApart.outApart <;>
    · unfold PaddedApart
      omega
  obtain ⟨m', hm', hentry, -⟩ := matrixMultiply_eq hsmall hapart
    (paddedPair (Matrix.single ⟨1, hn⟩ ⟨0, by omega⟩ 1) 1) hfuel
  refine ⟨m', hm', fun hout => ?_⟩
  have hgot := hentry 1 hn 0 (by omega)
  have hexpected := hout 1 (by omega) 0 (by omega)
  have hone : entry (Matrix.single ⟨1, hn⟩ ⟨0, by omega⟩ 1 : Matrix (Fin n) (Fin n) ℚ) 1 0 = 1 := by
    rw [entry, dif_pos ⟨hn, by omega⟩]
    exact Matrix.single_apply_same _ _ _
  have hread : (paddedPair (Matrix.single ⟨1, hn⟩ ⟨0, by omega⟩ 1) 1).floats (0 + (1 * n + 0)) = 0 := by
    have hpad := hA 0 (by omega) n hlt
    rw [Nat.zero_mul, Nat.zero_add] at hpad
    rw [Nat.one_mul, Nat.add_zero, hpad]
    exact entry_of_not_lt _ fun h => absurd h.2 (lt_irrefl n)
  rw [Matrix.mul_one, hone] at hexpected
  rw [hexpected, sum_eq_single_of_mem 0 (mem_range.mpr (by omega)), hread, zero_mul] at hgot
  · exact one_ne_zero hgot
  · -- the other terms have a zero from the identity
    intro k hk hk0
    have hkn := mem_range.mp hk
    rw [hB k (by omega) 0 (by omega), entry, dif_pos ⟨hkn, by omega⟩, Matrix.one_apply_ne, mul_zero]
    intro h
    exact hk0 (congrArg Fin.val h)

/-- Padded results are operands on both sides exactly when the rows need no padding or there is one
row only; as right operands they always are. -/
theorem products_chain_iff (hsmall : roundUp n * roundUp n < 2 ^ 64) :
    (ProductPadded n ∧ LeftChain n ∧ RightChain n Padded ↔ n % 8 = 0 ∨ n = 1) ∧
      RightChain n Compact := by
  refine ⟨⟨fun ⟨hproduct, _⟩ => ?_, fun hn => ⟨?_, leftChain_of_mod hsmall hn, ?_⟩⟩,
    rightChain_compact hsmall⟩
  · by_contra hn
    push Not at hn
    by_cases hzero : n = 0
    · rw [hzero] at hn
      exact hn.1 rfl
    have hone : 1 < n := by omega
    obtain ⟨hA, hB⟩ := @padded_paddedPair n (Matrix.single ⟨1, hone⟩ ⟨0, by omega⟩ 1) 1
    obtain ⟨m', hm', hnot⟩ := product_single hsmall hn.1 hone (Nat.lt_succ_self _)
    obtain ⟨m'', hm'', hout⟩ := hproduct _ 0 (roundUp n * roundUp n) (2 * (roundUp n * roundUp n)) _
      _ _ (by unfold PaddedApart; omega) (by unfold PaddedApart; omega) hA hB (Nat.lt_succ_self _)
    obtain rfl := Option.some.inj (hm'.symm.trans hm'')
    exact hnot hout
  · intro m a b out fuel A B ha hb hA hB hfuel
    obtain ⟨m', hm', hAB, -⟩ := (hA.compact hn).matrixMultiply hB hsmall (ha.outApart hb) hfuel
    exact ⟨m', hm', hAB⟩
  · intro m a b c t out fuel A B C hapart hA hB hC hfuel
    exact rightChain_compact hsmall m a b c t out fuel A B C hapart (hA.compact hn) (hB.compact hn)
      hC hfuel

theorem products_chain_eight : ProductPadded 8 ∧ LeftChain 8 ∧ RightChain 8 Padded :=
  (products_chain_iff (by decide)).1.mpr (.inl rfl)

/-- The product of a matrix of order 2 and the identity is not that matrix. -/
theorem product_two : ∃ m : Memory ℚ,
    Padded m 0 (Matrix.single 1 0 1 : Matrix (Fin 2) (Fin 2) ℚ) ∧
    Padded m 64 (1 : Matrix (Fin 2) (Fin 2) ℚ) ∧ PaddedApart 2 0 128 ∧ PaddedApart 2 64 128 ∧
    ∃ m', matrixMultiply 0 64 128 2 65 m = some m' ∧
      ¬Padded m' 128 (Matrix.single 1 0 1 * 1 : Matrix (Fin 2) (Fin 2) ℚ) := by
  obtain ⟨hA, hB⟩ := padded_paddedPair (Matrix.single 1 0 1 : Matrix (Fin 2) (Fin 2) ℚ) 1
  exact ⟨_, hA, hB, .inl (by decide), .inl (by decide),
    @product_single 2 (by decide) (by decide) (by decide) 65 (by decide)⟩

end MathUnikernel.MathLib
