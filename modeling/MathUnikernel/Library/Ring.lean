import Mathlib

/-!
# Rings

Entry `k` of an endless sequence is kept in slot `k % n` of a ring of `n` slots.
-/

namespace Ring

variable {α : Type*} {n : ℕ}

/-- Entries less than one round apart are in different slots. -/
theorem mod_ne {j k : ℕ} (hlt : j < k) (hround : k < j + n) : j % n ≠ k % n := by
  intro he
  have hround' : n ≤ k - j :=
    Nat.le_of_dvd (Nat.sub_pos_of_lt hlt) ((Nat.modEq_iff_dvd' hlt.le).mp he)
  omega

theorem succ_mod (k : ℕ) : (k % n + 1) % n = (k + 1) % n := by
  rw [Nat.add_mod, Nat.mod_mod, ← Nat.add_mod]

/-- The entries from `lo` to `hi` are as `P` says. -/
def Holds (n : ℕ) (slots : ℕ → α) (lo hi : ℕ) (P : ℕ → α → Prop) : Prop :=
  ∀ k, lo ≤ k → k < hi → P k (slots (k % n))

variable {slots : ℕ → α} {lo hi : ℕ} {P Q : ℕ → α → Prop}

theorem Holds.mono (h : Holds n slots lo hi P) {lo' hi' : ℕ} (hlo : lo ≤ lo') (hhi : hi' ≤ hi) :
    Holds n slots lo' hi' P := fun k hk hk' => h k (hlo.trans hk) (hk'.trans_le hhi)

/-- A write to the slot of an entry outside the range, but within one round of it. -/
theorem Holds.update (h : Holds n slots lo hi P) {j : ℕ} {a : α}
    (hj : ∀ k, lo ≤ k → k < hi → j < k ∧ k < j + n ∨ k < j ∧ j < k + n) :
    Holds n (Function.update slots (j % n) a) lo hi P := by
  intro k hk hk'
  have hne : k % n ≠ j % n := by
    rcases hj k hk hk' with hj | hj
    · exact (mod_ne hj.1 hj.2).symm
    · exact mod_ne hj.1 hj.2
  rw [Function.update_of_ne hne]
  exact h k hk hk'

/-- A new entry in a ring that is not full. -/
theorem Holds.push (h : Holds n slots lo hi P) (hroom : hi < lo + n) {a : α} (ha : P hi a) :
    Holds n (Function.update slots (hi % n) a) lo (hi + 1) P := by
  intro k hk hk'
  by_cases heq : k = hi
  · rw [heq, Function.update_self]
    exact ha
  · apply h.update _ k hk (by omega)
    intro j hj hj'
    omega

/-- Bytes of a stream less than one round apart are in different places, where a stretch of them is
kept in one piece from the slot of its first byte on, over the end of the ring if it has to be. -/
theorem add_mod_ne {a b i j : ℕ} (hlt : a + i < b + j) (hround : b + j < a + i + n) :
    a % n + i ≠ b % n + j := by
  intro he
  apply mod_ne hlt hround
  rw [← Nat.mod_add_mod a n i, he, Nat.mod_add_mod]

end Ring
