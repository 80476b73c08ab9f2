import Mathlib

/-!
# Stacks that grow downwards

The words of a stack lie `u` apart in a memory whose addresses form a group, so that the stack
pointer may wrap.
-/

namespace WordStack

variable {A W : Type*} [AddCommGroup A] {u : A} {mem : A → W} {sp base : A} {w : W} {ws : List W}

/-- The words from `sp` up to `base`. -/
structure OnStack (u : A) (mem : A → W) (sp base : A) (ws : List W) : Prop where
  word : ∀ i (h : i < ws.length), mem (sp + i • u) = ws[i]
  base : sp + ws.length • u = base

/-- Up to `n` words have different addresses. -/
def Room (u : A) (n : ℕ) : Prop := ∀ i, 0 < i → i ≤ n → i • u ≠ 0

theorem OnStack.nil : OnStack u mem sp sp [] where
  word i h := absurd h (Nat.not_lt_zero i)
  base := by rw [List.length_nil, zero_smul, add_zero]

theorem OnStack.word_eq (h : OnStack u mem sp base ws) {i : ℕ} (hi : ws[i]? = some w) :
    mem (sp + i • u) = w := by
  obtain ⟨hlt, hget⟩ := List.getElem?_eq_some_iff.mp hi
  exact (h.word i hlt).trans hget

theorem OnStack.head (h : OnStack u mem sp base (w :: ws)) : mem sp = w := by
  have hword := h.word 0 (Nat.succ_pos _)
  rwa [zero_smul, add_zero] at hword

theorem OnStack.pop (h : OnStack u mem sp base (w :: ws)) : OnStack u mem (sp + u) base ws where
  word i hi := by
    rw [add_assoc, ← succ_nsmul']
    exact h.word (i + 1) (Nat.succ_lt_succ hi)
  base := by
    rw [add_assoc, ← succ_nsmul']
    exact h.base

theorem OnStack.push [DecidableEq A] (h : OnStack u mem sp base ws) (hroom : Room u ws.length)
    (w : W) : OnStack u (Function.update mem (sp - u) w) (sp - u) base (w :: ws) where
  word i hi := by
    cases i with
    | zero =>
      rw [zero_smul, add_zero, Function.update_self]
      rfl
    | succ i =>
      have hi' : i < ws.length := Nat.lt_of_succ_lt_succ hi
      have hne : sp - u + (i + 1) • u ≠ sp - u := by
        intro heq
        exact hroom (i + 1) (Nat.succ_pos i) hi' (add_eq_left.mp heq)
      rw [Function.update_of_ne hne, succ_nsmul', ← add_assoc, sub_add_cancel]
      exact h.word i hi'
  base := by
    rw [List.length_cons, succ_nsmul', ← add_assoc, sub_add_cancel]
    exact h.base

/-- Only the words themselves matter. -/
theorem OnStack.congr {mem' : A → W} (h : OnStack u mem sp base ws)
    (hmem : ∀ i < ws.length, mem' (sp + i • u) = mem (sp + i • u)) : OnStack u mem' sp base ws where
  word i hi := (hmem i hi).trans (h.word i hi)
  base := h.base

end WordStack
