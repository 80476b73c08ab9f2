import MathUnikernel.PmmExact

/-!
# Where `pmm_init` puts its bitmap

The size of the bitmap follows from the highest available address, its place from the first usable
entry of that size.  A map can lack such an entry.
-/

namespace MathUnikernel.Pmm

/-- What `kernel_main` expects of `pmm_init`: success comes with a place for the bitmap, and without
a usable entry of its size there is a failure and no write. -/
structure PlacesOrReports (entries : List MemmapEntry) (mem : ℕ → UInt8) : Prop where
  placed : ∀ r s, pmmInit entries mem = some (r, s) → r &&& pmmInitSuccess ≠ 0 →
    ∃ e ∈ entries, e.type = .usable ∧ e.base ≤ s.bitmapPhys ∧
      s.bitmapPhys + s.bitmapSize ≤ e.base + e.length
  reports : (∀ e ∈ entries, e.type = .usable → e.length < bitmapSizeOf entries) →
    ∃ r s, pmmInit entries mem = some (r, s) ∧ r &&& pmmInitSuccess = 0 ∧
      ∀ i, s.bitmap i = mem (s.bitmapPhys + i)

/-- A usable entry with a byte for every 32 KiB up to the end of every available entry. -/
def LongEntry (entries : List MemmapEntry) : Prop :=
  ∃ e ∈ entries, e.type = .usable ∧
    ∀ e' ∈ entries, e'.available = true → e'.base + e'.length ≤ 32768 * e.length

instance (entries : List MemmapEntry) : Decidable (LongEntry entries) :=
  inferInstanceAs (Decidable (∃ e ∈ entries, _))

variable {entries : List MemmapEntry}

theorem Conformant.highest_le_iff (h : Conformant entries) (bound : ℕ) :
    getHighestUsableAddr entries ≤ bound ↔
      ∀ e ∈ entries, e.available = true → e.base + e.length ≤ bound := by
  have hbounded := h.boundedEntries
  constructor
  · intro hle e he hav
    rw [← hbounded.ceiling_eq he hav]
    exact (ceiling_le_getHighestUsableAddr he hav).trans hle
  · intro hall
    apply Nat.lt_succ_iff.mp
    apply getHighestUsableAddr_lt_of (Nat.succ_pos bound)
    intro e he hav
    rw [hbounded.ceiling_eq he hav]
    exact Nat.lt_succ_of_le (hall e he hav)

/-- A byte of the bitmap describes 32 KiB. -/
theorem Conformant.bitmapSize_le_iff (h : Conformant entries) (n : ℕ) :
    bitmapSizeOf entries ≤ n ↔ getHighestUsableAddr entries ≤ 32768 * n := by
  have hlt := h.boundedEntries.highest_lt
  unfold bitmapSizeOf totalFramesOf
  omega

theorem Conformant.hasRoom_iff (h : Conformant entries) : HasRoom entries ↔ LongEntry entries := by
  unfold HasRoom LongEntry
  apply exists_congr
  intro e
  apply and_congr_right
  intro _
  apply and_congr_right
  intro _
  exact (h.bitmapSize_le_iff e.length).trans (h.highest_le_iff _)

theorem short_of_not_hasRoom (h : ¬HasRoom entries) :
    ∀ e ∈ entries, e.type = .usable → e.length < bitmapSizeOf entries := by
  intro e he hty
  by_contra hlen
  exact h ⟨e, he, hty, not_lt.mp hlen⟩

/-- The search for a place falls back to the first bytes of physical memory. -/
theorem bitmapPhysOf_of_not_hasRoom (h : ¬HasRoom entries) : bitmapPhysOf entries = 0 := by
  have hfind : (entries.find? fun e => e.type = .usable &&
      decide (bitmapSizeOf entries ≤ e.length)) = none := by
    apply List.find?_eq_none.mpr
    intro e he
    simp only [Bool.and_eq_true, decide_eq_true_eq, not_and, not_le]
    exact short_of_not_hasRoom h e he
  rw [bitmapPhysOf, placeBitmap, hfind]

/-- `pmm_init` reports success without a place too, with the bitmap at address 0. -/
theorem Conformant.pmmInit_of_not_hasRoom (h : Conformant entries) (hroom : ¬HasRoom entries)
    (mem : ℕ → UInt8) : ∃ s, Pmm.pmmInit entries mem = some (pmmInitSuccess, s) ∧
      s.bitmapPhys = 0 ∧ s.bitmapSize = bitmapSizeOf entries := by
  have hhighest := h.boundedEntries.highest_lt
  have hzero := bitmapPhysOf_of_not_hasRoom hroom
  have hsmall : bitmapPhysOf entries + bitmapSizeOf entries + 4096 ≤ 2 ^ 64 := by
    rw [hzero, bitmapSizeOf]
    have := totalFramesOf_lt entries
    omega
  obtain ⟨s, hs⟩ := Pmm.pmmInit_isSome mem (by omega) hsmall
  have hsized := pmmInit_sized hs
  exact ⟨s, hs, hsized.bitmapPhys.trans hzero, hsized.bitmapSize⟩

theorem Conformant.not_placesOrReports (h : Conformant entries) (hroom : ¬HasRoom entries)
    (mem : ℕ → UInt8) : ¬PlacesOrReports entries mem := by
  intro hplaces
  -- `pmm_init` has no result for this case
  obtain ⟨r, s, hs, hfailure, -⟩ := hplaces.reports (short_of_not_hasRoom hroom)
  obtain ⟨s', hs', -⟩ := h.pmmInit_of_not_hasRoom hroom mem
  have hr : r = pmmInitSuccess := congrArg Prod.fst (Option.some.inj (hs.symm.trans hs'))
  rw [hr] at hfailure
  exact absurd hfailure (by decide)

/-- On a conformant map `pmm_init` does what `kernel_main` expects exactly when some usable entry is
long enough. -/
theorem placesOrReports_iff (h : Conformant entries) (mem : ℕ → UInt8) :
    PlacesOrReports entries mem ↔ LongEntry entries := by
  rw [← h.hasRoom_iff]
  constructor
  · intro hplaces
    by_contra hroom
    exact h.not_placesOrReports hroom mem hplaces
  · intro hroom
    obtain ⟨e, he, hty, hbase, -, hend, -⟩ := h.placed hroom
    refine ⟨?_, ?_⟩
    · intro r s hs _
      have hsized := pmmInit_sized hs
      rw [hsized.bitmapPhys, hsized.bitmapSize]
      exact ⟨e, he, hty, hbase.le, hend⟩
    · intro hshort
      obtain ⟨e', he', hty', hlen⟩ := hroom
      exact absurd hlen (not_le.mpr (hshort e' he' hty'))

theorem placesOrReports_smallMap : PlacesOrReports smallMap (fun _ => 0) :=
  (placesOrReports_iff conformant_smallMap _).mpr (by decide)

/-- Two usable pages, the second one at 4 TiB. -/
def sparseMap : List MemmapEntry :=
  [⟨0x1000, 0x1000, .usable⟩, ⟨0x40000000000, 0x1000, .usable⟩]

theorem conformant_sparseMap : Conformant sparseMap := by
  refine ⟨?_, ?_, ?_⟩
  · decide
  · decide
  · simp [sparseMap, MemmapEntry.Contains]
    omega

theorem sparseMap_unplaced : Conformant sparseMap ∧ ¬PlacesOrReports sparseMap (fun _ => 0) := by
  refine ⟨conformant_sparseMap, conformant_sparseMap.not_placesOrReports ?_ _⟩
  rw [conformant_sparseMap.hasRoom_iff]
  decide

end MathUnikernel.Pmm
