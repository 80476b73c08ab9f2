import Mathlib

/-!
# First-fit allocation

Free numbers are given away one after the other: the lowest one, or the lowest group all of whose
members are free.
-/

namespace FirstFit

inductive Request
  | one
  | group

/-- All requests are served from the free numbers `F`: a single number lies below `bound`, and number
0 and group 0 are never given away. -/
def Serves (members : ℕ → Set ℕ) (bound : ℕ) : List Request → Set ℕ → Prop
  | [], _ => True
  | .one :: requests, F =>
    ∃ f, IsLeast F f ∧ 0 < f ∧ f < bound ∧ Serves members bound requests (F \ {f})
  | .group :: requests, F =>
    ∃ b, IsLeast {b | members b ⊆ F} b ∧ 0 < b ∧ Serves members bound requests (F \ members b)

variable {members : ℕ → Set ℕ} {bound : ℕ} {requests : List Request} {F : Set ℕ}

/-- The lowest free number is the one given away. -/
theorem serves_one_iff {f : ℕ} (hf : IsLeast F f) :
    Serves members bound (.one :: requests) F ↔
      0 < f ∧ f < bound ∧ Serves members bound requests (F \ {f}) := by
  constructor
  · rintro ⟨g, hg, hrest⟩
    rw [hg.unique hf] at hrest
    exact hrest
  · intro hrest
    exact ⟨f, hf, hrest⟩

theorem serves_group_iff {b : ℕ} (hb : IsLeast {b | members b ⊆ F} b) :
    Serves members bound (.group :: requests) F ↔
      0 < b ∧ Serves members bound requests (F \ members b) := by
  constructor
  · rintro ⟨g, hg, hrest⟩
    rw [hg.unique hb] at hrest
    exact hrest
  · intro hrest
    exact ⟨b, hb, hrest⟩

/-- Single numbers are served as long as there are enough of them. -/
theorem serves_replicate_iff (n : ℕ) :
    Serves members bound (List.replicate n .one) F ↔
      n = 0 ∨ (0 ∉ F ∧ n ≤ (F ∩ Set.Iio bound).ncard) := by
  induction n generalizing F with
  | zero => exact iff_of_true trivial (.inl rfl)
  | succ n ih =>
    have hfinite : (F ∩ Set.Iio bound).Finite := (Set.finite_Iio bound).subset Set.inter_subset_right
    have hleast : F.Nonempty → ∃ f, IsLeast F f := fun hF => ⟨sInf F, Nat.sInf_mem hF, fun _ => Nat.sInf_le⟩
    -- taking the lowest number leaves one less
    have hcard : ∀ f ∈ F, f < bound →
        ((F \ {f}) ∩ Set.Iio bound).ncard + 1 = (F ∩ Set.Iio bound).ncard := by
      intro f hf hlt
      rw [← Set.inter_sdiff_right_comm]
      exact Set.ncard_sdiff_singleton_add_one ⟨hf, hlt⟩ hfinite
    rw [List.replicate_succ]
    constructor
    · rintro ⟨f, hf, hpos, hlt, hrest⟩
      refine .inr ⟨fun hzero => absurd (hf.2 hzero) (Nat.not_le_of_gt hpos), ?_⟩
      have hone := hcard f hf.1 hlt
      rcases ih.mp hrest with rfl | ⟨-, hle⟩
      · omega
      · omega
    · intro h
      obtain ⟨hzero, hle⟩ := h.resolve_left (Nat.succ_ne_zero n)
      obtain ⟨g, hg, hgb⟩ := (Set.ncard_pos hfinite).mp (Nat.zero_lt_of_lt hle)
      obtain ⟨f, hf⟩ := hleast ⟨g, hg⟩
      have hlt : f < bound := (hf.2 hg).trans_lt hgb
      have hone := hcard f hf.1 hlt
      refine ⟨f, hf, Nat.pos_of_ne_zero fun h0 => hzero (h0 ▸ hf.1), hlt, ih.mpr (.inr ⟨?_, by omega⟩)⟩
      exact fun hmem => hzero hmem.1

end FirstFit
