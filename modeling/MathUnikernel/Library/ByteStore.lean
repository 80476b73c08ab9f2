import Mathlib

/-!
# Sequences of stores

A memory is a function; a list of stores is applied from left to right.
-/

namespace ByteStore

variable {α β : Type*}

/-- The stores of a list of values at `f i`, `f (i + 1)`, …. -/
def storesFrom (f : ℕ → α) : ℕ → List β → List (α × β)
  | _, [] => []
  | i, b :: bs => (f i, b) :: storesFrom f (i + 1) bs

theorem mem_storesFrom {f : ℕ → α} {i : ℕ} {bs : List β} {store : α × β}
    (h : store ∈ storesFrom f i bs) : ∃ j, i ≤ j ∧ j < i + bs.length ∧ store.1 = f j := by
  induction bs generalizing i with
  | nil => exact absurd h List.not_mem_nil
  | cons b bs ih =>
    rcases List.mem_cons.mp h with rfl | h
    · exact ⟨i, le_rfl, by simp, rfl⟩
    · obtain ⟨j, hlo, hhi, hj⟩ := ih h
      exact ⟨j, by omega, by rw [List.length_cons]; omega, hj⟩

variable [DecidableEq α]

def write (mem : α → β) (stores : List (α × β)) : α → β :=
  stores.foldl (fun mem store => Function.update mem store.1 store.2) mem

@[simp] theorem write_nil (mem : α → β) : write mem [] = mem := rfl

@[simp] theorem write_cons (mem : α → β) (a : α) (b : β) (stores : List (α × β)) :
    write mem ((a, b) :: stores) = write (Function.update mem a b) stores := rfl

/-- An address that no store names keeps its contents. -/
theorem write_of_not_mem {mem : α → β} {stores : List (α × β)} {a : α}
    (h : ∀ store ∈ stores, store.1 ≠ a) : write mem stores a = mem a := by
  induction stores generalizing mem with
  | nil => rfl
  | cons store stores ih =>
    obtain ⟨a', b⟩ := store
    rw [write_cons, ih fun store hs => h store (List.mem_cons_of_mem _ hs)]
    exact Function.update_of_ne (h (a', b) List.mem_cons_self).symm b mem

theorem write_storesFrom_outside {f : ℕ → α} {i : ℕ} {bs : List β} {mem : α → β} {a : α}
    (h : ∀ j, i ≤ j → j < i + bs.length → f j ≠ a) : write mem (storesFrom f i bs) a = mem a := by
  apply write_of_not_mem
  intro store hs
  obtain ⟨j, hlo, hhi, hj⟩ := mem_storesFrom hs
  rw [hj]
  exact h j hlo hhi

/-- Stores at distinct addresses leave each value where it was stored. -/
theorem write_storesFrom {f : ℕ → α} {i : ℕ} {bs : List β} (mem : α → β)
    (hinj : ∀ j k, i ≤ j → j < i + bs.length → i ≤ k → k < i + bs.length → f j = f k → j = k)
    {j : ℕ} (hj : j < bs.length) : write mem (storesFrom f i bs) (f (i + j)) = bs[j] := by
  induction bs generalizing i j mem with
  | nil => exact absurd hj (Nat.not_lt_zero j)
  | cons b bs ih =>
    rw [List.length_cons] at hinj hj
    rw [storesFrom, write_cons]
    cases j with
    | zero =>
      rw [write_storesFrom_outside fun k hlo hhi hk => ?_]
      · simp
      · have := hinj k (i + 0) (by omega) (by omega) (by omega) (by omega) hk
        omega
    | succ j =>
      have hstep := ih (i := i + 1) (j := j) (Function.update mem (f i) b)
        (fun k l hk hk' hl hl' => hinj k l (by omega) (by omega) (by omega) (by omega)) (by omega)
      rw [show i + (j + 1) = i + 1 + j by omega, hstep]
      rfl

end ByteStore
