import MathUnikernel.FloatMemory
import MathUnikernel.Library.ByteBitmap
import MathUnikernel.Library.Loops

/-!
# The tiled product of matrices

`matrix_multiply`.
-/

namespace MathUnikernel.MathLib
open Loops Finset

variable {α : Type*}

/-! ## The function -/

def tileSize : ℕ := 64

/-- `(n + 7) & ~7ULL`. -/
def paddedSize (n : ℕ) : ℕ := (n + 7) % 2 ^ 64 &&& 0xfffffffffffffff8

/-- The end of a tile. -/
def tileEnd (c stop : ℕ) : ℕ := if (c + tileSize) % 2 ^ 64 < stop then (c + tileSize) % 2 ^ 64 else stop

/-- Eight columns of one row and one term of their sums. -/
def laneStep [Add α] [Mul α] (b out nPadded ii kk : ℕ) (aVal : M256 α) (jj : ℕ) (m : Memory α) :
    Memory α :=
  let (bVec, m) := m.mm256LoadPs .b b ((kk * nPadded + jj) % 2 ^ 64)
  let (outVec, m) := m.mm256LoadPs .out out ((ii * nPadded + jj) % 2 ^ 64)
  let outVec := mm256FmaddPs aVal bVec outVec
  m.mm256StorePs .out out ((ii * nPadded + jj) % 2 ^ 64) outVec

/-- One term of the sums of one row of a tile. -/
def termStep [Add α] [Mul α] (a b out n nPadded fuel j jEnd ii kk : ℕ) (m : Memory α) :
    Option (Memory α) :=
  let (aVal, m) := m.loadFloat .a a ((ii * n + kk) % 2 ^ 64)
  forUp 64 jEnd 8 (fun jj m => some (laneStep b out nPadded ii kk (mm256Set1Ps aVal) jj m)) fuel j m

/-- The three inner loops. -/
def tileStep [Add α] [Mul α] (a b out n nPadded fuel i k j : ℕ) (m : Memory α) :
    Option (Memory α) :=
  forUp 64 (tileEnd i n) 1 (fun ii m =>
    forUp 64 (tileEnd k n) 1 (fun kk m =>
      termStep a b out n nPadded fuel j (tileEnd j nPadded) ii kk m) fuel k m) fuel i m

def matrixMultiply [Zero α] [Add α] [Mul α] (a b out n fuel : ℕ) (m : Memory α) :
    Option (Memory α) := do
  let nPadded := paddedSize n
  let m ← forUp 64 (nPadded * nPadded % 2 ^ 64) 1 (fun i m => some (m.storeFloat .out out i 0)) fuel 0 m
  forUp 64 n tileSize (fun i m =>
    forUp 64 n tileSize (fun k m =>
      forUp 64 nPadded tileSize (fun j m =>
        tileStep a b out n nPadded fuel i k j m) fuel 0 m) fuel 0 m) fuel 0 m

/-! ## Sizes -/

/-- `n` rounded up to a multiple of 8. -/
def roundUp (n : ℕ) : ℕ := (n + 7) / 8 * 8

theorem roundUp_mod (n : ℕ) : roundUp n % 8 = 0 := Nat.mul_mod_left _ _

theorem le_roundUp (n : ℕ) : n ≤ roundUp n := by
  unfold roundUp
  omega

theorem paddedSize_eq {n : ℕ} (h : n + 7 < 2 ^ 64) : paddedSize n = roundUp n := by
  rw [paddedSize, show (0xfffffffffffffff8 : ℕ) = (2 ^ 61 - 1) <<< 3 from rfl,
    ByteBitmap.and_field, roundUp]
  omega

theorem lt_of_mul_self_lt {n : ℕ} (h : n * n < 2 ^ 64) : n < 2 ^ 32 := by
  by_contra hge
  have hle := Nat.mul_le_mul (Nat.le_of_not_lt hge) (Nat.le_of_not_lt hge)
  omega

theorem tileEnd_eq {c stop : ℕ} (hc : c < stop) (hstop : stop < 2 ^ 32) :
    tileEnd c stop = min (c + tileSize) stop := by
  have hmod : (c + tileSize) % 2 ^ 64 = c + tileSize := by
    unfold tileSize
    omega
  rw [tileEnd, hmod, min_def]
  split_ifs <;> omega

/-- Entry `(i, j)` of an array whose rows are `stride` long. -/
theorem row_index_lt {i rows stride j : ℕ} (hi : i < rows) (hj : j < stride) :
    i * stride + j < rows * stride := by
  calc i * stride + j < i * stride + stride := by omega
    _ = (i + 1) * stride := by ring
    _ ≤ rows * stride := Nat.mul_le_mul_right stride hi

theorem row_index_inj {i i' stride j j' : ℕ} (hj : j < stride) (hj' : j' < stride)
    (h : i * stride + j = i' * stride + j') : i = i' ∧ j = j' := by
  have hpos : 0 < stride := by omega
  have hdiv := congrArg (· / stride) h
  have hmod := congrArg (· % stride) h
  simp only [Nat.mul_comm _ stride, Nat.mul_add_div hpos, Nat.div_eq_of_lt hj,
    Nat.div_eq_of_lt hj', Nat.mul_add_mod, Nat.mod_eq_of_lt hj, Nat.mod_eq_of_lt hj'] at hdiv hmod
  exact ⟨by omega, hmod⟩

/-! ## Terms added so far -/

/-- An access of `matrix_multiply`: inside the arrays, and aligned if it is one of eight lanes. -/
structure MulAccess (n nPadded : ℕ) (access : Access) : Prop where
  extent : access.array = .a ∧ access.index + access.lanes ≤ n * n ∧ access.write = false ∨
    access.array = .b ∧ access.index + access.lanes ≤ n * nPadded ∧ access.write = false ∨
    access.array = .out ∧ access.index + access.lanes ≤ nPadded * nPadded
  aligned : access.lanes = 1 ∨ access.lanes = 8 ∧ access.index % 8 = 0

/-- The output is apart from both operands. -/
structure OutApart (a b out n : ℕ) : Prop where
  left : a + n * n ≤ out ∨ out + roundUp n * roundUp n ≤ a
  right : b + n * roundUp n ≤ out ∨ out + roundUp n * roundUp n ≤ b

/-- Entry `(i, j)` of the output holds the first `cnt i j` terms of its sum. -/
structure PartialProduct [Semiring α] (a b out n : ℕ) (m₀ : Memory α) (cnt : ℕ → ℕ → ℕ)
    (m : Memory α) : Prop where
  entry : ∀ i < roundUp n, ∀ j < roundUp n, m.floats (out + (i * roundUp n + j)) =
    ∑ k ∈ range (cnt i j), m₀.floats (a + (i * n + k)) * m₀.floats (b + (k * roundUp n + j))
  rest : ∀ p, p < out ∨ out + roundUp n * roundUp n ≤ p → m.floats p = m₀.floats p
  words : m.words = m₀.words
  later : Later (MulAccess n (roundUp n)) m₀ m

/-- Counts that are `v` in rows `[i, i')` and columns `[j, j')`. -/
def setBlock (cnt : ℕ → ℕ → ℕ) (i i' j j' v : ℕ) : ℕ → ℕ → ℕ :=
  fun r c => if i ≤ r ∧ r < i' ∧ j ≤ c ∧ c < j' then v else cnt r c

theorem setBlock_of_mem {cnt : ℕ → ℕ → ℕ} {i i' j j' v r c : ℕ}
    (h : i ≤ r ∧ r < i' ∧ j ≤ c ∧ c < j') : setBlock cnt i i' j j' v r c = v := if_pos h

theorem setBlock_of_not_mem {cnt : ℕ → ℕ → ℕ} {i i' j j' v r c : ℕ}
    (h : ¬(i ≤ r ∧ r < i' ∧ j ≤ c ∧ c < j')) : setBlock cnt i i' j j' v r c = cnt r c := if_neg h

/-- Nothing changes where the counts are as wanted. -/
theorem setBlock_self {cnt : ℕ → ℕ → ℕ} {i i' j j' v : ℕ}
    (h : ∀ r c, i ≤ r → r < i' → j ≤ c → c < j' → cnt r c = v) :
    setBlock cnt i i' j j' v = cnt := by
  funext r c
  by_cases hmem : i ≤ r ∧ r < i' ∧ j ≤ c ∧ c < j'
  · rw [setBlock_of_mem hmem, h r c hmem.1 hmem.2.1 hmem.2.2.1 hmem.2.2.2]
  · exact setBlock_of_not_mem hmem

/-- More rows. -/
theorem setBlock_rows (cnt : ℕ → ℕ → ℕ) {i i' i'' j j' v : ℕ} (h : i ≤ i') (h' : i' ≤ i'') :
    setBlock (setBlock cnt i i' j j' v) i' i'' j j' v = setBlock cnt i i'' j j' v := by
  funext r c
  unfold setBlock
  split_ifs <;> first | rfl | omega

/-- More columns. -/
theorem setBlock_columns (cnt : ℕ → ℕ → ℕ) {i i' j j' j'' v : ℕ} (h : j ≤ j') (h' : j' ≤ j'') :
    setBlock (setBlock cnt i i' j j' v) i i' j' j'' v = setBlock cnt i i' j j'' v := by
  funext r c
  unfold setBlock
  split_ifs <;> first | rfl | omega

/-- More terms. -/
theorem setBlock_terms (cnt : ℕ → ℕ → ℕ) {i i' j j' v v' : ℕ} :
    setBlock (setBlock cnt i i' j j' v) i i' j j' v' = setBlock cnt i i' j j' v' := by
  funext r c
  unfold setBlock
  split_ifs <;> rfl

section
variable [Semiring α] {a b out n : ℕ} {m₀ m : Memory α} {cnt : ℕ → ℕ → ℕ}

theorem PartialProduct.float_a (h : PartialProduct a b out n m₀ cnt m) (hapart : OutApart a b out n)
    {i k : ℕ} (hi : i < n) (hk : k < n) : m.floats (a + (i * n + k)) = m₀.floats (a + (i * n + k)) := by
  apply h.rest
  have hlt := row_index_lt hi hk
  rcases hapart.left with hle | hle <;> omega

theorem PartialProduct.float_b (h : PartialProduct a b out n m₀ cnt m) (hapart : OutApart a b out n)
    {k j : ℕ} (hk : k < n) (hj : j < roundUp n) :
    m.floats (b + (k * roundUp n + j)) = m₀.floats (b + (k * roundUp n + j)) := by
  apply h.rest
  have hlt := row_index_lt hk hj
  rcases hapart.right with hle | hle <;> omega

/-- Eight entries get their next term. -/
theorem PartialProduct.laneStep (h : PartialProduct a b out n m₀ cnt m)
    (hsmall : roundUp n * roundUp n < 2 ^ 64) (hapart : OutApart a b out n) {ii kk jj : ℕ}
    (hii : ii < n) (hkk : kk < n) (hjj : jj + 8 ≤ roundUp n) (hmod : jj % 8 = 0)
    (hcnt : ∀ j, jj ≤ j → j < jj + 8 → cnt ii j = kk) :
    PartialProduct a b out n m₀ (setBlock cnt ii (ii + 1) jj (jj + 8) (kk + 1))
      (laneStep b out (roundUp n) ii kk (mm256Set1Ps (m₀.floats (a + (ii * n + kk)))) jj m) := by
  have hnp := roundUp_mod n
  have hle := le_roundUp n
  have hb := row_index_lt hkk (show jj + 7 < roundUp n by omega)
  have hout := row_index_lt (show ii < roundUp n by omega) (show jj + 7 < roundUp n by omega)
  have hbsmall := Nat.mul_le_mul_right (roundUp n) hle
  have hbmod : (kk * roundUp n + jj) % 2 ^ 64 = kk * roundUp n + jj := Nat.mod_eq_of_lt (by omega)
  have houtmod : (ii * roundUp n + jj) % 2 ^ 64 = ii * roundUp n + jj := Nat.mod_eq_of_lt (by omega)
  have halign : ∀ r, (r * roundUp n + jj) % 8 = 0 := fun r => by
    rw [Nat.add_mod, Nat.mul_mod, hnp, hmod, Nat.mul_zero]
  refine ⟨fun i hi j hj => ?_, fun p hp => ?_, h.words, ?_⟩
  · simp only [MathLib.laneStep, Memory.mm256LoadPs, Memory.mm256StorePs, Memory.note_floats,
      houtmod, hbmod]
    split_ifs with hwin
    · obtain ⟨l, hl⟩ := Nat.exists_eq_add_of_le (show ii * roundUp n + jj ≤ i * roundUp n + j by omega)
      obtain ⟨rfl, rfl⟩ := row_index_inj hj (show jj + l < roundUp n by omega)
        (show i * roundUp n + j = ii * roundUp n + (jj + l) by omega)
      have hlane : out + (i * roundUp n + (jj + l)) - (out + (i * roundUp n + jj)) = l := by omega
      rw [setBlock_of_mem (by omega), sum_range_succ, ← hcnt (jj + l) (by omega) (by omega),
        ← h.entry i hi (jj + l) hj, hcnt (jj + l) (by omega) (by omega)]
      simp only [mm256FmaddPs, mm256Set1Ps, hlane]
      rw [Nat.add_assoc b, Nat.add_assoc (kk * roundUp n), h.float_b hapart hkk hj,
        Nat.add_assoc out, Nat.add_assoc (i * roundUp n), add_comm]
    · rw [setBlock_of_not_mem, h.entry i hi j hj]
      rintro ⟨hlo, hhi, hjlo, hjhi⟩
      obtain rfl : i = ii := by omega
      omega
  · simp only [MathLib.laneStep, Memory.mm256LoadPs, Memory.mm256StorePs, Memory.note_floats, houtmod]
    rw [dif_neg (by omega)]
    exact h.rest p hp
  · have hload : MulAccess n (roundUp n) ⟨.b, (kk * roundUp n + jj) % 2 ^ 64, 8, false⟩ := by
      rw [hbmod]
      exact ⟨.inr (.inl ⟨rfl, by dsimp only; omega, rfl⟩), .inr ⟨rfl, halign kk⟩⟩
    have hstore : ∀ write, MulAccess n (roundUp n)
        ⟨.out, (ii * roundUp n + jj) % 2 ^ 64, 8, write⟩ := fun write => by
      rw [houtmod]
      exact ⟨.inr (.inr ⟨rfl, by dsimp only; omega⟩), .inr ⟨rfl, halign ii⟩⟩
    exact ((h.later.snoc rfl hload).snoc rfl (hstore false)).snoc rfl (hstore true)

/-- The innermost loop adds one term to a row of a tile. -/
theorem PartialProduct.termStep (h : PartialProduct a b out n m₀ cnt m)
    (hsmall : roundUp n * roundUp n < 2 ^ 64) (hapart : OutApart a b out n) {ii kk j jEnd fuel : ℕ}
    (hii : ii < n) (hkk : kk < n) (hj : j ≤ jEnd) (hjEnd : jEnd ≤ roundUp n) (hmod : j % 8 = 0)
    (hmodEnd : jEnd % 8 = 0) (hcnt : ∀ c, j ≤ c → c < jEnd → cnt ii c = kk)
    (hfuel : roundUp n < fuel) :
    ∃ m', termStep a b out n (roundUp n) fuel j jEnd ii kk m = some m' ∧
      PartialProduct a b out n m₀ (setBlock cnt ii (ii + 1) j jEnd (kk + 1)) m' := by
  have hle := le_roundUp n
  have hlt := lt_of_mul_self_lt hsmall
  have hindex := row_index_lt hii hkk
  have hsquare := Nat.mul_le_mul hle hle
  have hamod : (ii * n + kk) % 2 ^ 64 = ii * n + kk := Nat.mod_eq_of_lt (by omega)
  have hload : PartialProduct a b out n m₀ cnt (m.note ⟨.a, ii * n + kk, 1, false⟩) := by
    refine ⟨h.entry, h.rest, h.words, h.later.snoc rfl ?_⟩
    exact ⟨.inl ⟨rfl, hindex, rfl⟩, .inl rfl⟩
  simp only [MathLib.termStep, Memory.loadFloat, hamod, h.float_a hapart hii hkk]
  apply @forUp_invariant _ _ 64 j jEnd 8
    (fun c => PartialProduct a b out n m₀ (setBlock cnt ii (ii + 1) j c (kk + 1))) hj
    (by norm_num) (by omega)
  · intro c m hlo hhi hcmod hP
    have hc : min (c + 8) jEnd = c + 8 := Nat.min_eq_left (by omega)
    refine ⟨_, rfl, ?_⟩
    have hnext := hP.laneStep hsmall hapart hii hkk (by omega : c + 8 ≤ roundUp n) (by omega)
      fun r hr hr' => by rw [setBlock_of_not_mem (by omega), hcnt r (by omega) (by omega)]
    rwa [setBlock_columns cnt hlo (by omega : c ≤ c + 8), ← hc] at hnext
  · rwa [setBlock_self fun r c _ _ _ _ => by omega]
  · omega

/-- The three inner loops add the terms of a tile. -/
theorem PartialProduct.tileStep (h : PartialProduct a b out n m₀ cnt m)
    (hsmall : roundUp n * roundUp n < 2 ^ 64) (hapart : OutApart a b out n) {i k j fuel : ℕ}
    (hi : i < n) (hk : k < n) (hj : j < roundUp n) (hmod : j % 8 = 0)
    (hcnt : ∀ r c, i ≤ r → r < min (i + tileSize) n → j ≤ c → c < min (j + tileSize) (roundUp n) →
      cnt r c = k) (hfuel : roundUp n < fuel) :
    ∃ m', tileStep a b out n (roundUp n) fuel i k j m = some m' ∧
      PartialProduct a b out n m₀ (setBlock cnt i (min (i + tileSize) n) j
        (min (j + tileSize) (roundUp n)) (min (k + tileSize) n)) m' := by
  have hle := le_roundUp n
  have hnp := roundUp_mod n
  have hlt := lt_of_mul_self_lt hsmall
  rw [MathLib.tileStep, tileEnd_eq hi (by omega), tileEnd_eq hk (by omega), tileEnd_eq hj hlt]
  generalize hiEnd : min (i + tileSize) n = iEnd at *
  generalize hkEnd : min (k + tileSize) n = kEnd at *
  have hjEndmod : min (j + tileSize) (roundUp n) % 8 = 0 := by
    unfold tileSize
    omega
  generalize hjEnd : min (j + tileSize) (roundUp n) = jEnd at *
  apply @forUp_invariant _ _ 64 i iEnd 1
    (fun c => PartialProduct a b out n m₀ (setBlock cnt i c j jEnd kEnd)) (by omega)
    (by norm_num) (by omega)
  · intro ii m hlo hhi _ hP
    rw [Nat.min_eq_left (by omega : ii + 1 ≤ iEnd)]
    -- row `ii`: terms `[k, kEnd)` one after the other
    have hrow := @forUp_invariant _
      (fun kk m => MathLib.termStep a b out n (roundUp n) fuel j jEnd ii kk m) 64 k kEnd 1
      (fun c => PartialProduct a b out n m₀
        (setBlock (setBlock cnt i ii j jEnd kEnd) ii (ii + 1) j jEnd c)) (by omega) (by norm_num)
      (by omega)
    obtain ⟨m', hm', hP'⟩ := @hrow (fun kk m hklo hkhi _ hPk => by
      rw [Nat.min_eq_left (by omega : kk + 1 ≤ kEnd)]
      have hstep := hPk.termStep hsmall hapart (by omega : ii < n) (by omega : kk < n)
        (by omega : j ≤ jEnd) (by omega) hmod hjEndmod (fun c hc hc' => setBlock_of_mem (by omega)) hfuel
      rwa [setBlock_terms] at hstep) m (by
        rwa [setBlock_self fun r c hr hr' hc hc' => ?_]
        rw [setBlock_of_not_mem (by omega), hcnt r c (by omega) (by omega) hc hc']) fuel (by omega)
    exact ⟨m', hm', setBlock_rows cnt hlo (Nat.le_succ ii) ▸ hP'⟩
  · rwa [setBlock_self fun r c _ _ _ _ => by omega]
  · omega

/-- The tiles of a row of tiles: the terms `[k, k + 64)` of all columns. -/
theorem PartialProduct.columnLoop (h : PartialProduct a b out n m₀ cnt m)
    (hsmall : roundUp n * roundUp n < 2 ^ 64) (hapart : OutApart a b out n) {i k fuel : ℕ}
    (hi : i < n) (hk : k < n) (hcnt : ∀ r c, i ≤ r → r < min (i + tileSize) n → c < roundUp n →
      cnt r c = k) (hfuel : roundUp n < fuel) :
    ∃ m', forUp 64 (roundUp n) tileSize
        (fun j m => MathLib.tileStep a b out n (roundUp n) fuel i k j m) fuel 0 m = some m' ∧
      PartialProduct a b out n m₀ (setBlock cnt i (min (i + tileSize) n) 0 (roundUp n)
        (min (k + tileSize) n)) m' := by
  have hlt := lt_of_mul_self_lt hsmall
  apply @forUp_invariant _ _ 64 0 (roundUp n) tileSize
    (fun c => PartialProduct a b out n m₀
      (setBlock cnt i (min (i + tileSize) n) 0 c (min (k + tileSize) n)))
    (Nat.zero_le _) (by norm_num [tileSize]) (by unfold tileSize; omega)
  · intro j m _ hj hmod hP
    have hmod8 : j % 8 = 0 := by
      unfold tileSize at hmod
      omega
    obtain ⟨m', hm', hP'⟩ := hP.tileStep hsmall hapart hi hk hj hmod8
      (fun r c hr hr' hc hc' => by
        rw [setBlock_of_not_mem (by omega), hcnt r c hr hr' (by omega)]) hfuel
    refine ⟨m', hm', ?_⟩
    rwa [setBlock_columns cnt (Nat.zero_le j) (by omega : j ≤ min (j + tileSize) (roundUp n))] at hP'
  · rwa [setBlock_self fun r c _ _ _ _ => by omega]
  · omega

/-- All terms of 64 rows. -/
theorem PartialProduct.depthLoop (h : PartialProduct a b out n m₀ cnt m)
    (hsmall : roundUp n * roundUp n < 2 ^ 64) (hapart : OutApart a b out n) {i fuel : ℕ}
    (hi : i < n) (hcnt : ∀ r c, i ≤ r → r < min (i + tileSize) n → c < roundUp n → cnt r c = 0)
    (hfuel : roundUp n < fuel) :
    ∃ m', forUp 64 n tileSize (fun k m => forUp 64 (roundUp n) tileSize
        (fun j m => MathLib.tileStep a b out n (roundUp n) fuel i k j m) fuel 0 m) fuel 0 m =
        some m' ∧
      PartialProduct a b out n m₀ (setBlock cnt i (min (i + tileSize) n) 0 (roundUp n) n) m' := by
  have hle := le_roundUp n
  have hlt := lt_of_mul_self_lt hsmall
  apply @forUp_invariant _ _ 64 0 n tileSize
    (fun c => PartialProduct a b out n m₀
      (setBlock cnt i (min (i + tileSize) n) 0 (roundUp n) c))
    (Nat.zero_le _) (by norm_num [tileSize]) (by unfold tileSize; omega)
  · intro k m _ hk _ hP
    obtain ⟨m', hm', hP'⟩ := hP.columnLoop hsmall hapart hi hk
      (fun r c hr hr' hc => setBlock_of_mem ⟨hr, hr', Nat.zero_le c, hc⟩) hfuel
    rw [setBlock_terms] at hP'
    exact ⟨m', hm', hP'⟩
  · rwa [setBlock_self fun r c hr hr' _ hc' => hcnt r c hr hr' hc']
  · omega

/-- All rows. -/
theorem PartialProduct.rowLoop (h : PartialProduct a b out n m₀ (fun _ _ => 0) m)
    (hsmall : roundUp n * roundUp n < 2 ^ 64) (hapart : OutApart a b out n) {fuel : ℕ}
    (hfuel : roundUp n < fuel) :
    ∃ m', forUp 64 n tileSize (fun i m => forUp 64 n tileSize (fun k m =>
        forUp 64 (roundUp n) tileSize (fun j m =>
          MathLib.tileStep a b out n (roundUp n) fuel i k j m) fuel 0 m) fuel 0 m) fuel 0 m =
        some m' ∧
      PartialProduct a b out n m₀ (setBlock (fun _ _ => 0) 0 n 0 (roundUp n) n) m' := by
  have hle := le_roundUp n
  have hlt := lt_of_mul_self_lt hsmall
  apply @forUp_invariant _ _ 64 0 n tileSize
    (fun c => PartialProduct a b out n m₀ (setBlock (fun _ _ => 0) 0 c 0 (roundUp n) n))
    (Nat.zero_le _) (by norm_num [tileSize]) (by unfold tileSize; omega)
  · intro i m _ hi _ hP
    obtain ⟨m', hm', hP'⟩ := hP.depthLoop hsmall hapart hi
      (fun r c hr _ _ => setBlock_of_not_mem (by omega)) hfuel
    refine ⟨m', hm', ?_⟩
    rwa [setBlock_rows _ (Nat.zero_le i) (by omega : i ≤ min (i + tileSize) n)] at hP'
  · rwa [setBlock_self fun r c _ _ _ _ => by omega]
  · omega

/-- Zeroing the output. -/
theorem zeroLoop (a b out n : ℕ) (m : Memory α) (hsmall : roundUp n * roundUp n < 2 ^ 64) {fuel : ℕ}
    (hfuel : roundUp n * roundUp n < fuel) :
    ∃ m', forUp 64 (roundUp n * roundUp n % 2 ^ 64) 1
        (fun i m => some (m.storeFloat .out out i 0)) fuel 0 m = some m' ∧
      PartialProduct a b out n m (fun _ _ => 0) m' := by
  rw [Nat.mod_eq_of_lt hsmall]
  have hrun := @forUp_invariant _ (fun i m => some (m.storeFloat .out out i 0)) 64 0
    (roundUp n * roundUp n) 1
    (fun c (m' : Memory α) => (∀ i < c, m'.floats (out + i) = 0) ∧
      (∀ p, p < out ∨ out + roundUp n * roundUp n ≤ p → m'.floats p = m.floats p) ∧
      m'.words = m.words ∧ Later (MulAccess n (roundUp n)) m m') (Nat.zero_le _) one_pos hsmall
  obtain ⟨m', hm', hzero, hrest, hwords, hlater⟩ := @hrun (fun c m' _ hc _ hP => by
      obtain ⟨hzero, hrest, hwords, hlater⟩ := hP
      rw [Nat.min_eq_left (by omega : c + 1 ≤ roundUp n * roundUp n)]
      refine ⟨_, rfl, fun i hi => ?_, fun p hp => ?_, hwords, hlater.snoc rfl ?_⟩
      · simp only [Memory.storeFloat]
        by_cases hic : i = c
        · rw [hic, Function.update_self]
        · rw [Function.update_of_ne (by omega)]
          exact hzero i (by omega)
      · simp only [Memory.storeFloat]
        rw [Function.update_of_ne (by omega)]
        exact hrest p hp
      · exact ⟨.inr (.inr ⟨rfl, hc⟩), .inl rfl⟩)
    m ⟨fun i hi => absurd hi (Nat.not_lt_zero i), fun _ _ => rfl, rfl, .refl _ m⟩ fuel hfuel
  refine ⟨m', hm', fun i hi j hj => ?_, hrest, hwords, hlater⟩
  rw [range_zero, sum_empty]
  exact hzero _ (row_index_lt hi hj)

end

/-! ## The product -/

/-- `matrix_multiply` is the textbook product: every entry of the first `n` rows gets the sum of its
`n` terms, the other rows are zero, nothing else changes, and no access leaves the arrays. -/
theorem matrixMultiply_eq [CommRing α] {a b out n : ℕ} (hsmall : roundUp n * roundUp n < 2 ^ 64)
    (hapart : OutApart a b out n) (m : Memory α) {fuel : ℕ}
    (hfuel : roundUp n * roundUp n < fuel) :
    ∃ m', matrixMultiply a b out n fuel m = some m' ∧
      (∀ i < n, ∀ j < roundUp n, m'.floats (out + (i * roundUp n + j)) =
        ∑ k ∈ range n, m.floats (a + (i * n + k)) * m.floats (b + (k * roundUp n + j))) ∧
      (∀ i, n ≤ i → i < roundUp n → ∀ j < roundUp n,
        m'.floats (out + (i * roundUp n + j)) = 0) ∧
      (∀ p, p < out ∨ out + roundUp n * roundUp n ≤ p → m'.floats p = m.floats p) ∧
      m'.words = m.words ∧ Later (MulAccess n (roundUp n)) m m' := by
  have hle := le_roundUp n
  have hlt := lt_of_mul_self_lt hsmall
  have hlt_fuel : roundUp n < fuel := (Nat.le_mul_self (roundUp n)).trans_lt hfuel
  obtain ⟨m₁, hm₁, h₁⟩ := zeroLoop a b out n m hsmall hfuel
  obtain ⟨m', hm', h'⟩ := h₁.rowLoop hsmall hapart hlt_fuel
  refine ⟨m', ?_, fun i hi j hj => ?_, fun i hi hi' j hj => ?_, h'.rest, h'.words, h'.later⟩
  · simp only [matrixMultiply, paddedSize_eq (by omega : n + 7 < 2 ^ 64), hm₁, Option.bind_eq_bind,
      Option.bind_some]
    exact hm'
  · rw [h'.entry i (by omega) j hj, setBlock_of_mem (by omega)]
  · rw [h'.entry i hi' j hj, setBlock_of_not_mem (by omega), range_zero, sum_empty]

theorem matrixMultiply_three : ∃ m', matrixMultiply 0 16 64 3 65 (⟨fun p => p, fun _ => 0, []⟩ :
      Memory ℤ) = some m' ∧
    ∀ i < 3, ∀ j < roundUp 3, m'.floats (64 + (i * roundUp 3 + j)) =
      ∑ k ∈ range 3, ((0 + (i * 3 + k) : ℕ) : ℤ) * ((16 + (k * roundUp 3 + j) : ℕ) : ℤ) := by
  obtain ⟨m', hm', hentry, -⟩ := @matrixMultiply_eq ℤ _ 0 16 64 3 (by decide)
    ⟨by decide, by decide⟩ ⟨fun p => p, fun _ => 0, []⟩ 65 (by decide)
  exact ⟨m', hm', hentry⟩

end MathUnikernel.MathLib
