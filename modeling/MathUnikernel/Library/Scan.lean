import Mathlib

/-!
# Bounded upward search

`scan stop n i` is the loop `while (i < end && !stop(i)) i++` with `n` places left before the end:
the index it leaves behind is the first place in `[i, i + n)` where `stop` holds, or `i + n`.
-/

namespace Scan

variable (stop : ℕ → Bool)

def scan : ℕ → ℕ → ℕ
  | 0, i => i
  | n + 1, i => if stop i then i else scan n (i + 1)

theorem le_scan (n i : ℕ) : i ≤ scan stop n i := by
  induction n generalizing i with
  | zero => exact le_rfl
  | succ n ih =>
    rw [scan]
    split_ifs
    · exact le_rfl
    · exact (Nat.le_succ i).trans (ih (i + 1))

theorem not_stop_of_lt_scan {n i j : ℕ} (hi : i ≤ j) (hj : j < scan stop n i) :
    stop j = false := by
  induction n generalizing i with
  | zero => rw [scan] at hj; omega
  | succ n ih =>
    rw [scan] at hj
    split_ifs at hj with hs
    · omega
    · rcases Nat.eq_or_lt_of_le hi with rfl | hlt
      · simpa using hs
      · exact ih hlt hj

theorem stop_scan {n i : ℕ} (h : scan stop n i < i + n) : stop (scan stop n i) = true := by
  induction n generalizing i with
  | zero => rw [scan] at h; omega
  | succ n ih =>
    rw [scan] at h ⊢
    split_ifs at h ⊢ with hs
    · exact hs
    · exact ih (by omega)

/-- The search stops at the first place that satisfies `stop`. -/
theorem scan_eq_of_first {n i k : ℕ} (hi : i ≤ k) (hk : k < i + n) (hs : stop k = true)
    (hn : ∀ j, i ≤ j → j < k → stop j = false) : scan stop n i = k := by
  have hle : scan stop n i ≤ k := by
    by_contra hlt
    rw [not_stop_of_lt_scan stop hi (Nat.lt_of_not_ge hlt)] at hs
    exact Bool.false_ne_true hs
  by_contra hne
  have hlt : scan stop n i < k := by omega
  have hend : scan stop n i < i + n := by omega
  have := hn _ (le_scan stop n i) hlt
  rw [stop_scan stop hend] at this
  exact Bool.false_ne_true this.symm

end Scan
