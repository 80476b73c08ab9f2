import Mathlib

/-!
# Numerals

Reading a numeral in any base, the most significant digit first.
-/

namespace Numerals

variable {α : Type*}

/-- The number that a string of digits denotes; `none` if it holds anything else. -/
def parse (base : ℕ) (value : α → Option ℕ) (digits : List α) : Option ℕ :=
  digits.foldlM (fun n c => (value c).map (base * n + ·)) 0

theorem parse_concat (base : ℕ) (value : α → Option ℕ) (digits : List α) (c : α) :
    parse base value (digits ++ [c]) =
      (parse base value digits).bind fun n => (value c).map (base * n + ·) := by
  rw [parse, List.foldlM_append]
  exact bind_congr fun n => List.foldlM_cons.trans (bind_pure _)

/-- Digits that are written from the last to the first one are read back. -/
theorem parse_reverse_map {base : ℕ} {value : α → Option ℕ} {write : ℕ → α} {ds : List ℕ}
    (h : ∀ d ∈ ds, value (write d) = some d) :
    parse base value (ds.map write).reverse = some (Nat.ofDigits base ds) := by
  induction ds with
  | nil => rfl
  | cons d ds ih =>
    have hrest := ih fun d' hd' => h d' (List.mem_cons_of_mem d hd')
    rw [List.map_cons, List.reverse_cons, parse_concat, hrest, Option.bind_some,
      h d List.mem_cons_self, Option.map_some, Nat.ofDigits_cons, Nat.add_comm]

/-- The lowest `n` digits. -/
theorem ofDigits_range (base v n : ℕ) :
    Nat.ofDigits base ((List.range n).map fun i => v / base ^ i % base) = v % base ^ n := by
  induction n with
  | zero => rw [pow_zero, Nat.mod_one]; rfl
  | succ n ih =>
    rw [List.range_succ, List.map_append, Nat.ofDigits_append, ih, List.length_map,
      List.length_range, List.map_singleton, Nat.ofDigits_singleton]
    exact Nat.mod_pow_succ.symm

end Numerals
