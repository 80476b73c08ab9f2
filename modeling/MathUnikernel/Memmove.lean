import MathUnikernel.Library.Copy

/-!
# `memcpy` and `memmove`

The copies of `lib.c`, in a memory of bytes with 64-bit addresses.
-/

namespace MathUnikernel.Lib
open Copy

abbrev Memory := UInt64 → UInt8

/-- The byte `p[i]`. -/
def index (p : UInt64) (i : ℕ) : UInt64 := p + UInt64.ofNat i

/-- `for(size_t i = 0; i < n; i++) pdest[i] = psrc[i];` -/
def copyForward (pdest psrc n : UInt64) (mem : Memory) : Memory :=
  copy (index pdest) (index psrc) (List.range n.toNat) mem

/-- `for(size_t i = n; i > 0; i--) pdest[i-1] = psrc[i-1];` -/
def copyBackward (pdest psrc n : UInt64) (mem : Memory) : Memory :=
  copy (index pdest) (index psrc) (List.range n.toNat).reverse mem

/-- The returned pointer and the memory. -/
def memcpy (mem : Memory) (dest src n : UInt64) : UInt64 × Memory :=
  (dest, copyForward dest src n mem)

def memmove (mem : Memory) (dest src n : UInt64) : UInt64 × Memory :=
  if dest = src then (dest, mem)
  else if dest < src then (dest, copyForward dest src n mem)
  else if src < dest then (dest, copyBackward dest src n mem)
  else (dest, mem)

/-! ## Addresses -/

theorem toNat_index {p n : UInt64} (hp : p.toNat + n.toNat ≤ 2 ^ 64) {i : ℕ} (hi : i < n.toNat) :
    (index p i).toNat = p.toNat + i := by
  have hn := n.toNat_lt
  rw [index, UInt64.toNat_add, UInt64.toNat_ofNat', Nat.mod_eq_of_lt (show i < 2 ^ 64 by omega)]
  exact Nat.mod_eq_of_lt (by omega)

theorem index_toNat (p i : UInt64) : index p i.toNat = p + i := by
  rw [index, UInt64.ofNat_toNat]

section
variable {dest src n : UInt64} (hd : dest.toNat + n.toNat ≤ 2 ^ 64)

include hd

theorem index_ne {i j : ℕ} (hi : i < n.toNat) (hj : j < n.toNat) (h : i ≠ j) :
    index dest i ≠ index dest j := by
  intro heq
  have hnat := congrArg UInt64.toNat heq
  rw [toNat_index hd hi, toNat_index hd hj] at hnat
  omega

theorem pairwise_range_index :
    (List.range n.toNat).Pairwise fun i j => index dest i ≠ index dest j := by
  apply List.pairwise_lt_range.imp_of_mem
  intro i j hi hj hlt
  exact index_ne hd (List.mem_range.mp hi) (List.mem_range.mp hj) hlt.ne

theorem pairwise_reverse_index :
    (List.range n.toNat).reverse.Pairwise fun i j => index dest i ≠ index dest j := by
  apply List.pairwise_reverse.mpr
  apply (pairwise_range_index hd).imp
  intro i j hij
  exact hij.symm

variable (hs : src.toNat + n.toNat ≤ 2 ^ 64)

include hs

/-- Upwards, a source that lies above its destination has not been overwritten yet. -/
theorem readFirst_forward (h : dest < src) :
    ReadFirst (index dest) (index src) (List.range n.toNat) := by
  apply List.pairwise_lt_range.imp_of_mem
  intro i j hi hj hlt heq
  have hnat := congrArg UInt64.toNat heq
  rw [toNat_index hd (List.mem_range.mp hi), toNat_index hs (List.mem_range.mp hj)] at hnat
  have hlt' := UInt64.lt_iff_toNat_lt.mp h
  omega

/-- Downwards, a source that lies below its destination has not. -/
theorem readFirst_backward (h : src < dest) :
    ReadFirst (index dest) (index src) (List.range n.toNat).reverse := by
  apply List.pairwise_reverse.mpr
  apply List.pairwise_lt_range.imp_of_mem
  intro i j hi hj hlt heq
  have hnat := congrArg UInt64.toNat heq
  rw [toNat_index hd (List.mem_range.mp hj), toNat_index hs (List.mem_range.mp hi)] at hnat
  have hlt' := UInt64.lt_iff_toNat_lt.mp h
  omega

/-! ## Copies -/

theorem memmove_at (mem : Memory) {i : ℕ} (hi : i < n.toNat) :
    (memmove mem dest src n).2 (index dest i) = mem (index src i) := by
  unfold memmove
  by_cases heq : dest = src
  · rw [if_pos heq, heq]
  · rw [if_neg heq]
    have hmem := List.mem_range.mpr hi
    by_cases hlt : dest < src
    · rw [if_pos hlt]
      exact copy_at (readFirst_forward hd hs hlt) (pairwise_range_index hd) mem i hmem
    · have hgt : src < dest := by
        rw [UInt64.lt_iff_toNat_lt] at hlt ⊢
        exact lt_of_le_of_ne (not_lt.mp hlt) fun hnat => heq (UInt64.toNat_inj.mp hnat.symm)
      -- the last branch of the source is never reached
      rw [if_neg hlt, if_pos hgt]
      exact copy_at (readFirst_backward hd hs hgt) (pairwise_reverse_index hd) mem i
        (List.mem_reverse.mpr hmem)

end

theorem memmove_outside (mem : Memory) {dest src n a : UInt64}
    (h : ∀ i < n.toNat, index dest i ≠ a) : (memmove mem dest src n).2 a = mem a := by
  have hup : ∀ i ∈ List.range n.toNat, index dest i ≠ a := fun i hi => h i (List.mem_range.mp hi)
  unfold memmove
  split_ifs
  · rfl
  · exact copy_outside hup mem
  · exact copy_outside (fun i hi => hup i (List.mem_reverse.mp hi)) mem
  · rfl

theorem memcpy_at (mem : Memory) {dest src n : UInt64} (hd : dest.toNat + n.toNat ≤ 2 ^ 64)
    (hapart : ∀ i < n.toNat, ∀ j < n.toNat, index dest i ≠ index src j) {i : ℕ}
    (hi : i < n.toNat) : (memcpy mem dest src n).2 (index dest i) = mem (index src i) := by
  apply copy_at _ (pairwise_range_index hd) mem i (List.mem_range.mpr hi)
  apply List.pairwise_lt_range.imp_of_mem
  intro j k hj hk _
  exact hapart j (List.mem_range.mp hj) k (List.mem_range.mp hk)

/-- `memmove` moves the bytes as they were, for every overlap, and `memcpy` does the same when there
is none. -/
theorem memmove_moves (mem : Memory) (dest src n : UInt64) (hd : dest.toNat + n.toNat ≤ 2 ^ 64)
    (hs : src.toNat + n.toNat ≤ 2 ^ 64) :
    (∀ i < n, (memmove mem dest src n).2 (dest + i) = mem (src + i)) ∧
      (∀ a, (∀ i < n, dest + i ≠ a) → (memmove mem dest src n).2 a = mem a) ∧
      ((∀ i < n, ∀ j < n, dest + i ≠ src + j) →
        (memcpy mem dest src n).2 = (memmove mem dest src n).2) := by
  have hindex : ∀ (p : UInt64) (i : ℕ), i < n.toNat → index p i = p + UInt64.ofNat i ∧
      UInt64.ofNat i < n := by
    intro p i hi
    refine ⟨rfl, UInt64.lt_iff_toNat_lt.mpr ?_⟩
    rw [UInt64.toNat_ofNat', Nat.mod_eq_of_lt (hi.trans n.toNat_lt)]
    exact hi
  refine ⟨?_, ?_, ?_⟩
  · intro i hi
    rw [← index_toNat, ← index_toNat]
    exact memmove_at hd hs mem (UInt64.lt_iff_toNat_lt.mp hi)
  · intro a ha
    exact memmove_outside mem fun i hi => ha _ (hindex dest i hi).2
  · intro hapart
    have hapart' : ∀ i < n.toNat, ∀ j < n.toNat, index dest i ≠ index src j :=
      fun i hi j hj => hapart _ (hindex dest i hi).2 _ (hindex src j hj).2
    -- both copies agree on the destination and leave every other byte alone
    funext a
    by_cases ha : ∃ i < n.toNat, index dest i = a
    · obtain ⟨i, hi, rfl⟩ := ha
      rw [memcpy_at mem hd hapart' hi, memmove_at hd hs mem hi]
    · have hout : ∀ i < n.toNat, index dest i ≠ a := fun i hi heq => ha ⟨i, hi, heq⟩
      rw [memmove_outside mem hout]
      exact copy_outside (fun i hi => hout i (List.mem_range.mp hi)) mem

/-- Four bytes moved up by two, onto the last two of their own. -/
theorem memmove_moves_overlap :
    (∀ i < 4, (memmove UInt64.toUInt8 2 0 4).2 (2 + i) = UInt64.toUInt8 (0 + i)) ∧
      ∀ a, (∀ i < 4, 2 + i ≠ a) → (memmove UInt64.toUInt8 2 0 4).2 a = UInt64.toUInt8 a := by
  obtain ⟨hmoved, hrest, -⟩ := memmove_moves UInt64.toUInt8 2 0 4 (by decide) (by decide)
  exact ⟨hmoved, hrest⟩

end MathUnikernel.Lib
