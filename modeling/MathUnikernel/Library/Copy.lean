import Mathlib

/-!
# Element-wise copies inside one memory

The elements are copied one after the other, so a copy reads what the earlier ones have written.
-/

namespace Copy

variable {ι α β : Type*} [DecidableEq α]

/-- `mem (d i) := mem (s i)` for the indices `i` in order. -/
def copy (d s : ι → α) (is : List ι) (mem : α → β) : α → β :=
  is.foldl (fun mem i => Function.update mem (d i) (mem (s i))) mem

variable {d s : ι → α}

@[simp] theorem copy_nil (mem : α → β) : copy d s [] mem = mem := rfl

@[simp] theorem copy_cons (i : ι) (is : List ι) (mem : α → β) :
    copy d s (i :: is) mem = copy d s is (Function.update mem (d i) (mem (s i))) := rfl

/-- Only destinations change. -/
theorem copy_outside {is : List ι} {a : α} (h : ∀ i ∈ is, d i ≠ a) (mem : α → β) :
    copy d s is mem a = mem a := by
  induction is generalizing mem with
  | nil => rfl
  | cons i is ih =>
    rw [copy_cons, ih fun j hj => h j (List.mem_cons_of_mem i hj)]
    exact Function.update_of_ne (h i List.mem_cons_self).symm _ mem

/-- No element is overwritten between the start and the round that reads it. -/
def ReadFirst (d s : ι → α) (is : List ι) : Prop := is.Pairwise fun i j => d i ≠ s j

/-- A copy in an order that reads every source before it is overwritten moves the old contents. -/
theorem copy_at {is : List ι} (hread : ReadFirst d s is)
    (hdistinct : is.Pairwise fun i j => d i ≠ d j) (mem : α → β) :
    ∀ i ∈ is, copy d s is mem (d i) = mem (s i) := by
  induction is generalizing mem with
  | nil => exact fun i hi => absurd hi List.not_mem_nil
  | cons j is ih =>
    obtain ⟨hj, hread⟩ := List.pairwise_cons.mp hread
    obtain ⟨hj', hdistinct⟩ := List.pairwise_cons.mp hdistinct
    intro i hi
    rw [copy_cons]
    rcases List.mem_cons.mp hi with rfl | hi
    · rw [copy_outside fun k hk => (hj' k hk).symm, Function.update_self]
    · rw [ih hread hdistinct _ i hi]
      exact Function.update_of_ne (hj i hi).symm _ mem

end Copy
