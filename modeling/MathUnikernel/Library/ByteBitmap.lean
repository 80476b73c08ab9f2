import Mathlib

/-!
# Bitmaps stored in bytes

A bitmap is a sequence of bytes; bit `f` is bit `f % 8` of byte `f / 8`.
-/

namespace ByteBitmap

/-- `1 << k` as a byte. -/
def mask (k : ℕ) : UInt8 := 1 <<< UInt8.ofNat k

/-- Bit `k` of a byte, least significant first. -/
def bit (b : UInt8) (k : ℕ) : Bool := b.toBitVec.getLsbD k

theorem bit_mask {k j : ℕ} (hk : k < 8) (hj : j < 8) : bit (mask k) j = decide (j = k) := by
  interval_cases k <;> interval_cases j <;> decide

@[simp] theorem bit_or (a b : UInt8) (k : ℕ) : bit (a ||| b) k = (bit a k || bit b k) := by
  simp [bit]

@[simp] theorem bit_and (a b : UInt8) (k : ℕ) : bit (a &&& b) k = (bit a k && bit b k) := by
  simp [bit]

theorem bit_not (a : UInt8) {k : ℕ} (hk : k < 8) : bit (~~~a) k = !bit a k := by
  simp [bit, hk]

theorem byte_ext {a b : UInt8} (h : ∀ k < 8, bit a k = bit b k) : a = b := by
  apply UInt8.toBitVec_inj.mp
  exact BitVec.eq_of_getLsbD_eq h

theorem bit_zero (k : ℕ) : bit 0 k = false := by simp [bit]

theorem bit_ff {k : ℕ} (hk : k < 8) : bit 0xff k = true := by
  interval_cases k <;> decide

theorem eq_zero_iff (b : UInt8) : b = 0 ↔ ∀ k < 8, bit b k = false := by
  constructor
  · rintro rfl k -
    exact bit_zero k
  · intro h
    exact byte_ext fun k hk => by rw [h k hk, bit_zero]

theorem eq_ff_iff (b : UInt8) : b = 0xff ↔ ∀ k < 8, bit b k = true := by
  constructor
  · rintro rfl k hk
    exact bit_ff hk
  · intro h
    exact byte_ext fun k hk => by rw [h k hk, bit_ff hk]

/-- The test `bitmap[byte] & (1 << k)`. -/
theorem and_mask_eq_zero_iff (b : UInt8) {k : ℕ} (hk : k < 8) :
    b &&& mask k = 0 ↔ bit b k = false := by
  rw [eq_zero_iff]
  constructor
  · intro h
    have := h k hk
    simpa [bit_mask hk hk] using this
  · intro h j hj
    rw [bit_and, bit_mask hk hj]
    by_cases hjk : j = k
    · simp [hjk, h]
    · simp [hjk]

abbrev Bitmap := ℕ → UInt8

def getBit (bm : Bitmap) (f : ℕ) : Bool := bit (bm (f / 8)) (f % 8)

def setBit (bm : Bitmap) (f : ℕ) : Bitmap :=
  Function.update bm (f / 8) (bm (f / 8) ||| mask (f % 8))

def clearBit (bm : Bitmap) (f : ℕ) : Bitmap :=
  Function.update bm (f / 8) (bm (f / 8) &&& ~~~mask (f % 8))

/-- Writes `b` to the bytes `[lo, hi)`. -/
def fill (bm : Bitmap) (lo hi : ℕ) (b : UInt8) : Bitmap :=
  fun i => if lo ≤ i ∧ i < hi then b else bm i

theorem fill_self (bm : Bitmap) (lo : ℕ) (b : UInt8) : fill bm lo lo b = bm := by
  funext i
  rw [fill, if_neg (by omega)]

theorem fill_succ (bm : Bitmap) {lo hi : ℕ} (h : lo ≤ hi) (b : UInt8) :
    fill bm lo (hi + 1) b = Function.update (fill bm lo hi b) hi b := by
  funext i
  unfold fill
  by_cases hi' : i = hi
  · rw [if_pos (by omega), hi', Function.update_self]
  · rw [Function.update_of_ne hi']
    by_cases hlt : lo ≤ i ∧ i < hi
    · rw [if_pos hlt, if_pos (by omega)]
    · rw [if_neg hlt, if_neg (by omega)]

theorem getBit_setBit (bm : Bitmap) (f g : ℕ) : getBit (setBit bm f) g = (getBit bm g || decide (g = f)) := by
  unfold getBit setBit
  by_cases hb : g / 8 = f / 8
  · rw [hb, Function.update_self, bit_or, bit_mask (Nat.mod_lt _ (by omega)) (Nat.mod_lt _ (by omega))]
    congr 1
    exact decide_eq_decide.mpr (by omega)
  · rw [Function.update_of_ne hb]
    have : g ≠ f := fun h => hb (by rw [h])
    simp [this]

theorem getBit_clearBit (bm : Bitmap) (f g : ℕ) :
    getBit (clearBit bm f) g = (getBit bm g && !decide (g = f)) := by
  unfold getBit clearBit
  by_cases hb : g / 8 = f / 8
  · rw [hb, Function.update_self, bit_and, bit_not _ (Nat.mod_lt _ (by omega)),
      bit_mask (Nat.mod_lt _ (by omega)) (Nat.mod_lt _ (by omega))]
    congr 2
    exact decide_eq_decide.mpr (by omega)
  · rw [Function.update_of_ne hb]
    have : g ≠ f := fun h => hb (by rw [h])
    simp [this]

@[simp] theorem getBit_setBit_self (bm : Bitmap) (f : ℕ) : getBit (setBit bm f) f = true := by
  simp [getBit_setBit]

@[simp] theorem getBit_clearBit_self (bm : Bitmap) (f : ℕ) : getBit (clearBit bm f) f = false := by
  simp [getBit_clearBit]

theorem getBit_fill_ff (bm : Bitmap) (lo hi f : ℕ) :
    getBit (fill bm lo hi 0xff) f = (decide (8 * lo ≤ f ∧ f < 8 * hi) || getBit bm f) := by
  unfold getBit fill
  by_cases h : lo ≤ f / 8 ∧ f / 8 < hi
  · have h' : 8 * lo ≤ f ∧ f < 8 * hi := by omega
    simp only [if_pos h, bit_ff (Nat.mod_lt f (by omega : 0 < 8)), decide_eq_true h', Bool.true_or]
  · have h' : ¬(8 * lo ≤ f ∧ f < 8 * hi) := by omega
    simp only [if_neg h, decide_eq_false h', Bool.false_or]

theorem getBit_fill_zero (bm : Bitmap) (lo hi f : ℕ) :
    getBit (fill bm lo hi 0) f = (!decide (8 * lo ≤ f ∧ f < 8 * hi) && getBit bm f) := by
  unfold getBit fill
  by_cases h : lo ≤ f / 8 ∧ f / 8 < hi
  · have h' : 8 * lo ≤ f ∧ f < 8 * hi := by omega
    simp only [if_pos h, bit_zero, decide_eq_true h', Bool.not_true, Bool.false_and]
  · have h' : ¬(8 * lo ≤ f ∧ f < 8 * hi) := by omega
    simp only [if_neg h, decide_eq_false h', Bool.not_false, Bool.true_and]

/-- Byte `i` is all ones exactly when its eight bits are set. -/
theorem byte_eq_ff_iff (bm : Bitmap) (i : ℕ) :
    bm i = 0xff ↔ ∀ f, f / 8 = i → getBit bm f = true := by
  rw [eq_ff_iff]
  constructor
  · rintro h f rfl
    exact h _ (Nat.mod_lt _ (by omega))
  · intro h k hk
    have := h (8 * i + k) (by omega)
    rwa [getBit, show (8 * i + k) / 8 = i by omega, show (8 * i + k) % 8 = k by omega] at this

theorem byte_eq_zero_iff (bm : Bitmap) (i : ℕ) :
    bm i = 0 ↔ ∀ f, f / 8 = i → getBit bm f = false := by
  rw [eq_zero_iff]
  constructor
  · rintro h f rfl
    exact h _ (Nat.mod_lt _ (by omega))
  · intro h k hk
    have := h (8 * i + k) (by omega)
    rwa [getBit, show (8 * i + k) / 8 = i by omega, show (8 * i + k) % 8 = k by omega] at this

/-- The bits determine the bytes. -/
theorem ext {bm bm' : Bitmap} (h : ∀ f, getBit bm f = getBit bm' f) : bm = bm' := by
  funext i
  apply byte_ext
  intro k hk
  have := h (8 * i + k)
  rwa [getBit, getBit, show (8 * i + k) / 8 = i by omega, show (8 * i + k) % 8 = k by omega] at this

/-! ## Fields of a number -/

/-- The field of `n` bits from bit `k` on. -/
theorem and_field (x n k : ℕ) : x &&& (2 ^ n - 1) <<< k = x / 2 ^ k % 2 ^ n * 2 ^ k := by
  refine Nat.eq_of_testBit_eq fun i => ?_
  rw [Nat.testBit_and, ← Nat.shiftLeft_eq, ← Nat.shiftRight_eq_div_pow, Nat.testBit_shiftLeft,
    Nat.testBit_shiftLeft, Nat.testBit_two_pow_sub_one, Nat.testBit_mod_two_pow,
    Nat.testBit_shiftRight]
  by_cases hi : k ≤ i
  · simp [hi, Nat.add_sub_cancel' hi, Bool.and_comm]
  · simp [hi]

end ByteBitmap
