import MathUnikernel.Library.Loops
import MathUnikernel.Reading

/-!
# `unlock` and `poll_payload_size` on a stream of bytes

The two loops of `loader.c` over the bytes that `read_ethernet` returns one after the other.
-/

namespace MathUnikernel.Network
open Loops

/-- The loop of `unlock` before byte `k`: the number of bytes it has taken when it returns, and its
result.  `none` if it takes more than `fuel` bytes. -/
def unlockLoop (received : ℕ → UInt8) : ℕ → ℕ → ℕ → Option (ℕ × ℕ)
  | 0, _, _ => none
  | fuel + 1, k, magic =>
    let magic := (magic <<< 8) % 2 ^ 32 ||| (received k).toNat
    if magic ≠ magicNumber then unlockLoop received fuel (k + 1) magic else some (k + 1, magic)

def unlock (received : ℕ → UInt8) (fuel : ℕ) : Option (ℕ × ℕ) := unlockLoop received fuel 0 0

/-- The rounds `i < n` of `poll_payload_size` from byte `k` on: the bytes taken so far, and
`number_of_bytes`. -/
def sizeRounds (received : ℕ → UInt8) (k n : ℕ) : ℕ × ℕ :=
  (List.range n).foldl (fun s i => (s.1 + 1, s.2 ||| (received s.1).toNat <<< (i * 8))) (k, 0)

def pollPayloadSize (received : ℕ → UInt8) (k : ℕ) : ℕ × ℕ := sizeRounds received k 8

/-- `"GO!!"` from byte `n` on. -/
def MagicAt (received : ℕ → UInt8) (n : ℕ) : Prop :=
  received n = 0x47 ∧ received (n + 1) = 0x4F ∧ received (n + 2) = 0x21 ∧ received (n + 3) = 0x21

instance (received : ℕ → UInt8) (n : ℕ) : Decidable (MagicAt received n) :=
  inferInstanceAs (Decidable (_ ∧ _))

/-! ## The shift register -/

/-- `magic_number` after `k` bytes. -/
def register (received : ℕ → UInt8) : ℕ → ℕ
  | 0 => 0
  | k + 1 => (register received k <<< 8) % 2 ^ 32 ||| (received k).toNat

variable {received : ℕ → UInt8}

theorem register_succ (k : ℕ) :
    register received (k + 1) = register received k % 2 ^ 24 * 256 + (received k).toNat :=
  shiftIn_eq _ _

theorem register_lt (k : ℕ) : register received k < 256 ^ k := by
  induction k with
  | zero => exact Nat.one_pos
  | succ k ih =>
    have hbyte := (received k).toNat_lt
    have hmod := Nat.mod_le (register received k) (2 ^ 24)
    rw [register_succ, Nat.pow_succ]
    omega

/-- The register holds the last four bytes. -/
theorem register_four (n : ℕ) : register received (n + 4) = (received n).toNat * 2 ^ 24 +
    (received (n + 1)).toNat * 2 ^ 16 + (received (n + 2)).toNat * 2 ^ 8 +
      (received (n + 3)).toNat := by
  have h0 := (received n).toNat_lt
  have h1 := (received (n + 1)).toNat_lt
  have h2 := (received (n + 2)).toNat_lt
  rw [register_succ, register_succ, register_succ, register_succ]
  omega

theorem register_four_eq_iff (n : ℕ) :
    register received (n + 4) = magicNumber ↔ MagicAt received n := by
  have h0 := (received n).toNat_lt
  have h1 := (received (n + 1)).toNat_lt
  have h2 := (received (n + 2)).toNat_lt
  have h3 := (received (n + 3)).toNat_lt
  rw [register_four, magicNumber, MagicAt]
  simp only [← UInt8.toNat_inj]
  change _ ↔ _ = 71 ∧ _ = 79 ∧ _ = 33 ∧ _ = 33
  omega

/-- The zeros the register starts with complete no match. -/
theorem register_eq_iff (k : ℕ) :
    register received k = magicNumber ↔ ∃ n, k = n + 4 ∧ MagicAt received n := by
  constructor
  · intro h
    have hlt := @register_lt received k
    rw [h] at hlt
    have hk : 4 ≤ k := by
      by_contra hshort
      have hpow := Nat.pow_le_pow_right (show 256 > 0 by decide) (show k ≤ 3 by omega)
      exact absurd (hlt.trans_le hpow) (by decide)
    obtain ⟨n, rfl⟩ := Nat.exists_eq_add_of_le' hk
    exact ⟨n, rfl, (register_four_eq_iff n).mp h⟩
  · rintro ⟨n, rfl, h⟩
    exact (register_four_eq_iff n).mpr h

/-! ## `unlock` -/

theorem unlockLoop_succ (fuel k : ℕ) :
    unlockLoop received (fuel + 1) k (register received k) =
      if register received (k + 1) ≠ magicNumber then
        unlockLoop received fuel (k + 1) (register received (k + 1))
      else some (k + 1, register received (k + 1)) := rfl

/-- As long as no match is complete the loop goes on. -/
theorem unlock_of_going {fuel : ℕ} (h : ∀ j ≤ fuel, register received j ≠ magicNumber) :
    unlock received fuel = none :=
  @search_of_going _ _ _ _ (fun fuel k => unlockLoop received fuel k (register received k))
    (fun _ => rfl) unlockLoop_succ 0 fuel fun j _ hj => h (j + 1) (by omega)

theorem unlock_of_stop {n fuel : ℕ} (hstop : register received (n + 1) = magicNumber)
    (h : ∀ j ≤ n, register received j ≠ magicNumber) (hfuel : n < fuel) :
    unlock received fuel = some (n + 1, magicNumber) := by
  have hend := @search_of_stop _ _ _ _
    (fun fuel k => unlockLoop received fuel k (register received k)) unlockLoop_succ 0 n fuel
    (Nat.zero_le n) (not_not.mpr hstop) (fun j _ hj => h (j + 1) hj) hfuel
  rw [hstop] at hend
  exact hend

/-- The first match is at `n`. -/
structure FirstMagic (received : ℕ → UInt8) (n : ℕ) : Prop where
  magic : MagicAt received n
  before : ∀ m < n, ¬MagicAt received m

theorem FirstMagic.register_ne {n : ℕ} (h : FirstMagic received n) {j : ℕ} (hj : j < n + 4) :
    register received j ≠ magicNumber := by
  rw [Ne, register_eq_iff]
  rintro ⟨m, rfl, hm⟩
  exact h.before m (by omega) hm

/-- `unlock` takes the bytes up to the end of the first match and no more. -/
theorem FirstMagic.unlock {n : ℕ} (h : FirstMagic received n) (fuel : ℕ) :
    unlock received fuel = if n + 4 ≤ fuel then some (n + 4, magicNumber) else none := by
  split_ifs with hfuel
  · exact unlock_of_stop ((register_four_eq_iff n).mpr h.magic)
      (fun j hj => h.register_ne (by omega)) (by omega)
  · exact unlock_of_going fun j hj => h.register_ne (by omega)

/-! ## `poll_payload_size` -/

theorem sizeRounds_succ (k n : ℕ) : sizeRounds received k (n + 1) =
    ((sizeRounds received k n).1 + 1,
      (sizeRounds received k n).2 ||| (received (sizeRounds received k n).1).toNat <<< (n * 8)) := by
  rw [sizeRounds, List.range_succ, List.foldl_concat]
  rfl

/-- After `n` rounds the number is below `256 ^ n`, and its digits are the bytes taken. -/
theorem sizeRounds_spec (k n : ℕ) : (sizeRounds received k n).1 = k + n ∧
    (sizeRounds received k n).2 < 256 ^ n ∧
      ∀ i < n, received (k + i) = UInt8.ofNat ((sizeRounds received k n).2 / 256 ^ i) := by
  induction n with
  | zero => exact ⟨rfl, Nat.one_pos, fun i hi => absurd hi (Nat.not_lt_zero i)⟩
  | succ n ih =>
    obtain ⟨hfst, hlt, hdigits⟩ := ih
    have hbyte := (received (k + n)).toNat_lt
    have hpos : 0 < 256 ^ n := Nat.pow_pos (by decide)
    rw [sizeRounds_succ, hfst]
    dsimp only
    rw [appendByte_eq _ hlt]
    refine ⟨rfl, ?_, ?_⟩
    · have hmul := Nat.mul_le_mul_left (256 ^ n) (show (received (k + n)).toNat ≤ 255 by omega)
      rw [Nat.pow_succ]
      omega
    · intro i hi
      rcases Nat.lt_succ_iff_lt_or_eq.mp hi with hi | rfl
      · -- a lower byte: the new one is a multiple of 256 there
        obtain ⟨d, rfl⟩ := Nat.exists_eq_add_of_lt hi
        rw [hdigits i hi]
        apply UInt8.toNat_inj.mp
        rw [UInt8.toNat_ofNat', UInt8.toNat_ofNat', show 256 ^ (i + d + 1) = 256 ^ i * (256 * 256 ^ d) by
          ring, Nat.mul_assoc, Nat.add_mul_div_left _ _ (Nat.pow_pos (by decide)), Nat.mul_assoc]
        exact (Nat.add_mul_mod_self_left _ _ _).symm
      · rw [Nat.add_mul_div_left _ _ hpos, Nat.div_eq_of_lt hlt, Nat.zero_add, UInt8.ofNat_toNat]

/-- On every stream: `unlock` returns after the shortest prefix that ends with `"GO!!"`, and then
`poll_payload_size` returns the number that the next eight bytes encode, the least significant one
first.  Without `"GO!!"` it never returns. -/
theorem unlock_first_magic (received : ℕ → UInt8) :
    ((∃ n, MagicAt received n) → ∃ n, FirstMagic received n ∧
      (∀ fuel, unlock received fuel = if n + 4 ≤ fuel then some (n + 4, magicNumber) else none) ∧
      ∃ size < 2 ^ 64, pollPayloadSize received (n + 4) = (n + 12, size) ∧
        ∀ i < 8, received (n + 4 + i) = UInt8.ofNat (size / 256 ^ i)) ∧
    ((∀ n, ¬MagicAt received n) → ∀ fuel, unlock received fuel = none) := by
  constructor
  · intro h
    have hfirst : FirstMagic received (Nat.find h) := ⟨Nat.find_spec h, fun m hm => Nat.find_min h hm⟩
    obtain ⟨hfst, hlt, hdigits⟩ := @sizeRounds_spec received (Nat.find h + 4) 8
    exact ⟨Nat.find h, hfirst, hfirst.unlock, _, hlt, Prod.ext hfst rfl, hdigits⟩
  · intro h fuel
    apply unlock_of_going
    intro j _
    rw [Ne, register_eq_iff]
    rintro ⟨n, -, hn⟩
    exact h n hn

/-! ## The callers of `read_ethernet` -/

/-- The two loops as callers of `read_ethernet`, which returns the bytes of the stream. -/
def feed (received : ℕ → UInt8) : ℕ → Pc
  | 0 => .read (.unlock 0) .enter
  | k + 1 =>
    match feed received k with
    | .read caller _ => caller.take (received k)
    | pc => pc

theorem feed_succ {k : ℕ} {caller : Caller} {r : ReadPc} (h : feed received k = .read caller r) :
    feed received (k + 1) = caller.take (received k) := by
  rw [feed, h]

theorem feed_unlock {k : ℕ} (h : ∀ j ≤ k, register received j ≠ magicNumber) :
    feed received k = .read (.unlock (register received k)) .enter := by
  induction k with
  | zero => rfl
  | succ k ih =>
    rw [feed_succ (ih fun j hj => h j (by omega))]
    exact if_pos (h (k + 1) le_rfl)

theorem FirstMagic.feed_size {n : ℕ} (h : FirstMagic received n) {i : ℕ} (hi : i < 8) :
    feed received (n + 4 + i) = .read (.size i (sizeRounds received (n + 4) i).2) .enter := by
  induction i with
  | zero =>
    rw [Nat.add_zero, feed_succ (feed_unlock fun j hj => h.register_ne (by omega))]
    exact if_neg (not_not.mpr ((register_four_eq_iff n).mpr h.magic))
  | succ i ih =>
    rw [← Nat.add_assoc, feed_succ (ih (by omega)), sizeRounds_succ, (sizeRounds_spec (n + 4) i).1]
    exact if_pos hi

/-- The main loop of the network model takes the same bytes and announces the same size. -/
theorem FirstMagic.feed_alloc {n : ℕ} (h : FirstMagic received n) :
    feed received (n + 12) = .alloc (pollPayloadSize received (n + 4)).2 := by
  have hlast := feed_succ (h.feed_size (show 7 < 8 by decide))
  rw [pollPayloadSize, sizeRounds_succ (n + 4) 7, (sizeRounds_spec (n + 4) 7).1]
  exact hlast

end MathUnikernel.Network
