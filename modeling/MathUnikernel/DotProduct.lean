import MathUnikernel.SparseProduct

/-!
# The dot product

`dot_product` works on eight elements at a time and has no loop for the rest.
-/

namespace MathUnikernel.MathLib
open Loops Finset

variable {α : Type*}

/-! ## The function -/

/-- A round of the loop. -/
def dotStep [Add α] [Mul α] (a b i : ℕ) (s : M256 α × Memory α) : M256 α × Memory α :=
  let (sumVec, m) := s
  let (va, m) := m.mm256LoadPs .a a i
  let (vb, m) := m.mm256LoadPs .b b i
  (mm256FmaddPs va vb sumVec, m)

def dotProduct [Zero α] [Add α] [Mul α] (a b count fuel : ℕ) (m : Memory α) :
    Option (α × Memory α) := do
  let (sumVec, m) ← forUp 64 count 8 (fun i s => some (dotStep a b i s)) fuel 0 (mm256SetzeroPs, m)
  let total := (List.finRange 8).foldl (fun total i => total + sumVec i) 0
  return (total, m)

/-! ## What it computes -/

def dotAccesses (i : ℕ) : List Access := [⟨.a, i, 8, false⟩, ⟨.b, i, 8, false⟩]

/-- The product of two elements. -/
def dotTerm [Mul α] (m : Memory α) (a b i : ℕ) : α := m.floats (a + i) * m.floats (b + i)

theorem dotStep_eq [Add α] [Mul α] (a b i : ℕ) (v : M256 α) (m : Memory α) :
    dotStep a b i (v, m) =
      (fun l : Fin 8 => dotTerm m a b (i + l) + v l, m.logged (dotAccesses i)) := by
  apply Prod.ext
  · funext l
    simp only [dotStep, Memory.mm256LoadPs, Memory.note_floats, mm256FmaddPs, dotTerm, Nat.add_assoc]
  · simp [dotStep, Memory.mm256LoadPs, Memory.note, Memory.logged, dotAccesses]

/-- The number of rounds. -/
def dotRounds (count : ℕ) : ℕ := (count + 7) / 8

/-- The sum is of whole groups of eight. -/
theorem dotProduct_eq [Semiring α] (a b : ℕ) {count fuel : ℕ} (hcount : count + 8 ≤ 2 ^ 64)
    (hfuel : count < fuel) (m : Memory α) : dotProduct a b count fuel m =
      some (∑ i ∈ range (8 * dotRounds count), dotTerm m a b i,
        m.logged ((List.range (dotRounds count)).flatMap fun k => dotAccesses (8 * k))) := by
  have hrounds := @forLoop_rounds _ (M256 α × Memory α) (fun i => decide (i < count))
    (fun i => (i + 8) % 2 ^ 64) (fun i s => some (dotStep a b i s))
    (fun k s => s.2 = m.logged ((List.range k).flatMap fun k => dotAccesses (8 * k)) ∧
      ∑ l, s.1 l = ∑ i ∈ range (8 * k), dotTerm m a b i)
    (dotRounds count) (fun k => 8 * k)
  obtain ⟨⟨v, m'⟩, hrun, hlog, hsum⟩ := @hrounds
    (fun k hk => by
      unfold dotRounds at hk
      exact decide_eq_true (by omega))
    (by
      unfold dotRounds
      exact decide_eq_false (by omega))
    (fun k hk => by
      unfold dotRounds at hk
      rw [Nat.mod_eq_of_lt (by omega)]
      ring)
    (fun k hk s hs => by
      obtain ⟨v, m'⟩ := s
      obtain ⟨hlog, hsum⟩ := hs
      dsimp only at hlog hsum
      refine ⟨_, rfl, ?_⟩
      rw [hlog, dotStep_eq]
      constructor
      · rw [Memory.logged_logged, List.range_succ, List.flatMap_append, List.flatMap_singleton]
      · rw [Nat.mul_succ, range_eq_Ico, ← sum_Ico_consecutive _ (Nat.zero_le _) (Nat.le_add_right _ 8),
          ← range_eq_Ico, ← hsum, sum_Ico_eight]
        exact sum_add_distrib.trans (add_comm _ _))
    (mm256SetzeroPs, m) (by simp [Memory.logged, mm256SetzeroPs]) fuel (by
      unfold dotRounds
      omega)
  dsimp only at hlog hsum
  rw [Nat.mul_zero] at hrun
  simp only [dotProduct, forUp, hrun, Option.map_some, Option.bind_eq_bind, Option.bind_some,
    foldl_finRange_eq_sum, hsum, hlog]
  rfl

/-- Where `i + 8` wraps before `count`, the loop never ends. -/
theorem dotProduct_eq_none [Semiring α] (a b : ℕ) {count : ℕ} (hcount : 2 ^ 64 < count + 8)
    (fuel : ℕ) (m : Memory α) : dotProduct a b count fuel m = none := by
  have hloop := @forLoop_eq_none _ (M256 α × Memory α) (fun i => decide (i < count))
    (fun i => (i + 8) % 2 ^ 64) (fun i s => some (dotStep a b i s))
    (fun i => i % 8 = 0 ∧ i < 2 ^ 64)
    (fun i ⟨hi, hlt⟩ => decide_eq_true (by omega)) (fun i ⟨hi, hlt⟩ => by omega) 0
    ⟨rfl, by norm_num⟩ fuel (mm256SetzeroPs, m)
  rw [dotProduct, forUp, hloop]
  rfl

/-! ## The elements behind the arrays -/

/-- The call returns the sum of the products of `count` elements, whatever is behind them, and reads
no element behind them. -/
def DotCorrect [Semiring α] (a b count : ℕ) (m : Memory α) : Prop :=
  ∀ fuel, count < fuel → ∃ total m', dotProduct a b count fuel m = some (total, m') ∧
    total = ∑ i ∈ range count, m.floats (a + i) * m.floats (b + i) ∧
    Later (fun access => access.write = false ∧ access.index + access.lanes ≤ count) m m'

/-- `dot_product` is right for whole groups of eight elements, and reads behind the arrays for every
other count. -/
theorem dotCorrect_iff [Semiring α] (a b : ℕ) {count : ℕ} (hcount : count < 2 ^ 64) (m : Memory α) :
    DotCorrect a b count m ↔ count % 8 = 0 := by
  constructor
  · intro h
    obtain ⟨total, m', hrun, -, new, hlog, hnew⟩ := h (count + 1) (Nat.lt_succ_self count)
    by_cases hwrap : count + 8 ≤ 2 ^ 64
    · rw [dotProduct_eq a b hwrap (Nat.lt_succ_self count)] at hrun
      obtain ⟨-, rfl⟩ := Prod.mk.inj (Option.some.inj hrun)
      obtain rfl := List.append_cancel_left hlog
      by_contra hrest
      -- the load of the last group
      have hlast := hnew ⟨.a, 8 * (count / 8), 8, false⟩ (List.mem_flatMap.mpr ⟨count / 8, by
        unfold dotRounds
        rw [List.mem_range]
        omega, List.mem_cons_self⟩)
      have hend : 8 * (count / 8) + 8 ≤ count := hlast.2
      omega
    · rw [dotProduct_eq_none a b (by omega)] at hrun
      exact absurd hrun (by simp)
  · intro hcount8 fuel hfuel
    have hrounds : 8 * dotRounds count = count := by
      unfold dotRounds
      omega
    refine ⟨_, _, dotProduct_eq a b (by omega) hfuel m, by rw [hrounds]; rfl, _, rfl, ?_⟩
    intro access hmem
    obtain ⟨k, hk, hmem⟩ := List.mem_flatMap.mp hmem
    have hk := List.mem_range.mp hk
    simp only [dotAccesses, List.mem_cons, List.not_mem_nil, or_false] at hmem
    rcases hmem with rfl | rfl <;>
    · refine ⟨rfl, ?_⟩
      dsimp only
      omega

/-- Sixteen elements. -/
theorem dotCorrect_sixteen : DotCorrect 0 16 16 (⟨fun p => p, fun _ => 0, []⟩ : Memory ℚ) :=
  (dotCorrect_iff 0 16 (by norm_num) _).mpr rfl

/-- One element in each array, and other numbers behind it. -/
theorem not_dotCorrect_one : (∃ m', dotProduct 0 8 1 2 (⟨fun _ => 1, fun _ => 0, []⟩ : Memory ℚ) =
      some (8, m')) ∧ ¬DotCorrect 0 8 1 (⟨fun _ => 1, fun _ => 0, []⟩ : Memory ℚ) := by
  have hrun := @dotProduct_eq ℚ _ 0 8 1 2 (by norm_num) (by norm_num) ⟨fun _ => 1, fun _ => 0, []⟩
  have hsum : ∑ i ∈ range (8 * dotRounds 1),
      dotTerm (⟨fun _ => 1, fun _ => 0, []⟩ : Memory ℚ) 0 8 i = 8 := by
    simp [dotTerm, dotRounds]
  rw [hsum] at hrun
  refine ⟨⟨_, hrun⟩, fun h => ?_⟩
  obtain ⟨total, m', hrun', htotal, -⟩ := h 2 (by norm_num)
  rw [hrun] at hrun'
  obtain ⟨rfl, -⟩ := Prod.mk.inj (Option.some.inj hrun')
  norm_num at htotal

end MathUnikernel.MathLib
