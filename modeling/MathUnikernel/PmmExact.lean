import MathUnikernel.PmmCounter

/-!
# `pmm_init` on the memory maps of the boot protocol

The bitmap describes the map exactly, and no loop leaves it.
-/

namespace MathUnikernel.Pmm
open ByteBitmap

/-! ## Conformant memory maps -/

/-- An address of the entry. -/
def MemmapEntry.Contains (e : MemmapEntry) (addr : ℕ) : Prop :=
  e.base ≤ addr ∧ addr < e.base + e.length

/-- All addresses of the frame are addresses of the entry. -/
def MemmapEntry.HasFrame (e : MemmapEntry) (f : ℕ) : Prop :=
  e.base ≤ 4096 * f ∧ 4096 * f + 4096 ≤ e.base + e.length

/-- What the protocol guarantees: usable and reclaimable entries are made of frames and overlap no
other entry. -/
structure Conformant (entries : List MemmapEntry) : Prop where
  aligned : ∀ e ∈ entries, e.available = true → e.base % 4096 = 0 ∧ e.length % 4096 = 0
  bounded : ∀ e ∈ entries, e.available = true → e.base + e.length < 2 ^ 64
  disjoint : entries.Pairwise fun e e' => e.available = true ∨ e'.available = true →
    ∀ addr, ¬(e.Contains addr ∧ e'.Contains addr)

/-- Some usable entry has room for the bitmap. -/
def HasRoom (entries : List MemmapEntry) : Prop :=
  ∃ e ∈ entries, e.type = .usable ∧ bitmapSizeOf entries ≤ e.length

variable {entries : List MemmapEntry}

theorem Conformant.boundedEntries (h : Conformant entries) : Bounded entries := by
  intro e he hav
  obtain ⟨hbase, hlength⟩ := h.aligned e he hav
  have hlt := h.bounded e he hav
  omega

theorem Conformant.visits_iff (h : Conformant entries) {e : MemmapEntry} (he : e ∈ entries)
    (hav : e.available = true) (f : ℕ) : Visits e.base e.ceiling f ↔ e.HasFrame f := by
  obtain ⟨hbase, hlength⟩ := h.aligned e he hav
  rw [h.boundedEntries.ceiling_eq he hav]
  unfold Visits MemmapEntry.HasFrame
  omega

theorem Conformant.listed_iff (h : Conformant entries) (f : ℕ) :
    Listed entries f ↔ ∃ e ∈ entries, e.available = true ∧ e.HasFrame f := by
  unfold Listed
  apply exists_congr
  intro e
  apply and_congr_right
  intro he
  exact and_congr_right fun hav => h.visits_iff he hav f

/-! ## The bitmap's own frames -/

theorem HasRoom.placed (h : HasRoom entries) : ∃ e ∈ entries, e.type = .usable ∧
    bitmapSizeOf entries ≤ e.length ∧ bitmapPhysOf entries = e.base := by
  unfold bitmapPhysOf placeBitmap
  cases hfind : entries.find? fun e => e.type = .usable && decide (bitmapSizeOf entries ≤ e.length) with
  | some e =>
    have hsat := List.find?_some hfind
    simp only [Bool.and_eq_true, decide_eq_true_eq] at hsat
    exact ⟨e, List.mem_of_find?_eq_some hfind, hsat.1, hsat.2, rfl⟩
  | none =>
    obtain ⟨e, he, hty, hlen⟩ := h
    have hnot := List.find?_eq_none.mp hfind e he
    exact absurd hnot (by simp [hty, hlen])

theorem available_of_usable {e : MemmapEntry} (h : e.type = .usable) : e.available = true := by
  simp [MemmapEntry.available, h]

/-- The bitmap starts at a frame and ends inside its entry. -/
theorem Conformant.placed (h : Conformant entries) (hroom : HasRoom entries) :
    ∃ e ∈ entries, e.type = .usable ∧ e.base = bitmapPhysOf entries ∧
      bitmapPhysOf entries % 4096 = 0 ∧
      bitmapPhysOf entries + bitmapSizeOf entries ≤ e.base + e.length ∧
      e.base + e.length + 4096 ≤ 2 ^ 64 := by
  obtain ⟨e, he, hty, hlen, hbase⟩ := hroom.placed
  have hav := available_of_usable hty
  obtain ⟨hal, hal'⟩ := h.aligned e he hav
  have hlt := h.bounded e he hav
  refine ⟨e, he, hty, hbase.symm, ?_, ?_, ?_⟩
  · rw [hbase]
    exact hal
  · omega
  · omega

theorem Conformant.storage_iff (h : Conformant entries) (hroom : HasRoom entries) (f : ℕ) :
    Storage entries f ↔ bitmapPhysOf entries < 4096 * f + 4096 ∧
      4096 * f < bitmapPhysOf entries + bitmapSizeOf entries := by
  obtain ⟨e, he, hty, hbase, hal, hle, hlt⟩ := h.placed hroom
  have hmod : (bitmapPhysOf entries + bitmapSizeOf entries) % 2 ^ 64 =
      bitmapPhysOf entries + bitmapSizeOf entries := Nat.mod_eq_of_lt (by omega)
  unfold Storage Visits
  rw [hmod, hal]
  omega

/-! ## The frames that the loops touch -/

/-- The frames of `for (; addr < stop; addr += 4096)`, in order. -/
def visited (stop addr : ℕ) : List ℕ :=
  if addr < stop then
    if addr + 4096 < 2 ^ 64 then physAddrToIndex addr :: visited stop (addr + 4096) else []
  else []
termination_by stop - addr
decreasing_by omega

theorem mem_visited {stop addr f : ℕ} (h : f ∈ visited stop addr) :
    addr < stop ∧ (f = addr / 4096 ∨ f ∈ visited stop (addr + 4096)) := by
  rw [visited] at h
  by_cases hlt : addr < stop
  · rw [if_pos hlt] at h
    by_cases hwrap : addr + 4096 < 2 ^ 64
    · rw [if_pos hwrap] at h
      exact ⟨hlt, List.mem_cons.mp h⟩
    · rw [if_neg hwrap] at h
      exact absurd h List.not_mem_nil
  · rw [if_neg hlt] at h
    exact absurd h List.not_mem_nil

theorem visits_of_mem_visited {stop addr f : ℕ} (h : f ∈ visited stop addr) : Visits addr stop f := by
  induction hm : stop - addr using Nat.strong_induction_on generalizing addr with
  | _ m ih =>
    obtain ⟨hlt, hcases⟩ := mem_visited h
    have hless : stop - (addr + 4096) < m := by omega
    have hrest : f ∈ visited stop (addr + 4096) → Visits (addr + 4096) stop f := fun hmem =>
      ih _ hless hmem rfl
    exact (visits_step hlt f).mpr (hcases.imp_right hrest)

theorem forFrames_eq_foldl {body : PmmContext → ℕ → PmmContext} {stop addr : ℕ} {s s' : PmmContext}
    (h : forFrames body stop addr s = some s') : s' = (visited stop addr).foldl body s := by
  fun_induction forFrames body stop addr s with
  | case1 addr s hlt hwrap ih =>
    rw [visited, if_pos hlt, if_pos hwrap, List.foldl_cons]
    exact ih h
  | case2 addr s hlt hwrap => exact absurd h (by simp)
  | case3 addr s hlt =>
    rw [visited, if_neg hlt]
    exact (Option.some.inj h).symm

/-- The frames that the third loop frees and the last one claims. -/
def freedFrames (entries : List MemmapEntry) : List ℕ :=
  entries.flatMap fun e => if e.available then visited e.ceiling e.base else []

def claimedFrames (entries : List MemmapEntry) : List ℕ :=
  visited ((bitmapPhysOf entries + bitmapSizeOf entries) % 2 ^ 64) (bitmapPhysOf entries)

theorem freeEntries_eq_foldl {s s' : PmmContext} (h : freeEntries entries s = some s') :
    s' = (freedFrames entries).foldl freeFrame s := by
  induction entries generalizing s with
  | nil => exact (Option.some.inj h).symm
  | cons e entries ih =>
    rw [freeEntries_cons, Option.bind_eq_some_iff] at h
    obtain ⟨t, ht, h⟩ := h
    rw [freedFrames, List.flatMap_cons, List.foldl_append]
    have hrest := ih h
    split_ifs at ht ⊢ with he
    · rw [hrest, forFrames_eq_foldl ht]
      rfl
    · rw [hrest, Option.some.inj ht]
      rfl

theorem pmmInit_eq_foldl {mem : ℕ → UInt8} {r : ℕ} {s : PmmContext}
    (h : pmmInit entries mem = some (r, s)) :
    s = (claimedFrames entries).foldl claimFrame
      ((freedFrames entries).foldl freeFrame (afterMemset entries mem)) := by
  obtain ⟨freed, hfreed, hclaimed⟩ := exists_freed_of_pmmInit h
  rw [forFrames_eq_foldl hclaimed, freeEntries_eq_foldl hfreed]
  rfl

theorem listed_of_mem_freedFrames {f : ℕ} (h : f ∈ freedFrames entries) : Listed entries f := by
  obtain ⟨e, he, hf⟩ := List.mem_flatMap.mp h
  split_ifs at hf with hav
  · exact ⟨e, he, hav, visits_of_mem_visited hf⟩
  · exact absurd hf List.not_mem_nil

/-! ## The bitmap after `pmm_init` -/

/-- The context describes the memory map. -/
structure ExactBitmap (entries : List MemmapEntry) (mem : ℕ → UInt8) (s : PmmContext) : Prop where
  /-- A frame is free if it is available and none of its bytes belongs to the bitmap. -/
  clear_iff : ∀ f < s.totalFrames, s.used f = false ↔
    (∃ e ∈ entries, e.available = true ∧ e.HasFrame f) ∧
      ¬(s.bitmapPhys < 4096 * f + 4096 ∧ 4096 * f < s.bitmapPhys + s.bitmapSize)
  tail : ∀ f, s.totalFrames ≤ f → f < 8 * s.bitmapSize → s.used f = true
  /-- No available frame is cut off. -/
  covers : ∀ e ∈ entries, e.available = true → ∀ f, e.HasFrame f → f < s.totalFrames
  freeFrames : s.freeFrames =
    ((Finset.range (8 * s.bitmapSize)).filter fun f => s.used f = false).card
  storage : ∃ e ∈ entries, e.type = .usable ∧ e.base ≤ s.bitmapPhys ∧
    s.bitmapPhys + s.bitmapSize ≤ e.base + e.length
  /-- After the `memset` of `bitmap_size` bytes the bitmap is accessed through these calls only. -/
  calls : s = (claimedFrames entries).foldl claimFrame
    ((freedFrames entries).foldl freeFrame (afterMemset entries mem))
  touched : ∀ f ∈ freedFrames entries ++ claimedFrames entries, f / 8 < s.bitmapSize

theorem Conformant.pmmInit (h : Conformant entries) (hroom : HasRoom entries) (mem : ℕ → UInt8) :
    ∃ s, pmmInit entries mem = some (pmmInitSuccess, s) := by
  obtain ⟨e, he, hty, hbase, hal, hle, hlt⟩ := h.placed hroom
  have hhighest := h.boundedEntries.highest_lt
  exact pmmInit_isSome mem (by omega) (by omega)

theorem sum_clear_eq {s : PmmContext} (hle : s.totalFrames ≤ 8 * s.bitmapSize)
    (htail : ∀ f, s.totalFrames ≤ f → f < 8 * s.bitmapSize → s.used f = true) :
    clearCount s = ((Finset.range (8 * s.bitmapSize)).filter fun f => s.used f = false).card := by
  unfold clearCount
  congr 1
  ext f
  simp only [Finset.mem_filter, Finset.mem_range]
  refine ⟨fun hf => ⟨hf.1.trans_le hle, hf.2⟩, fun hf => ⟨?_, hf.2⟩⟩
  by_contra hge
  have hused := htail f (Nat.le_of_not_lt hge) hf.1
  rw [hf.2] at hused
  exact Bool.false_ne_true hused

/-- On every conformant map with room for the bitmap, `pmm_init` ends with the exact bitmap. -/
theorem pmmInit_exact (h : Conformant entries) (hroom : HasRoom entries) (mem : ℕ → UInt8) :
    ∃ s, pmmInit entries mem = some (pmmInitSuccess, s) ∧ ExactBitmap entries mem s := by
  obtain ⟨s, hs⟩ := h.pmmInit hroom mem
  obtain ⟨e, he, hty, hbase, hal, hle, hlt⟩ := h.placed hroom
  have hsized := pmmInit_sized hs
  have htotal : s.totalFrames ≤ 8 * s.bitmapSize := by
    rw [hsized.totalFrames, hsized.bitmapSize, bitmapSizeOf]
    omega
  have hbounded := h.boundedEntries
  have htail : ∀ f, s.totalFrames ≤ f → f < 8 * s.bitmapSize → s.used f = true := by
    intro f hge hsize
    by_contra hfree
    obtain ⟨hlisted, -⟩ := (used_pmmInit hs hsize).mp (by simpa using hfree)
    have := hbounded.lt_totalFrames_of_listed hlisted
    rw [hsized.totalFrames] at hge
    omega
  refine ⟨s, hs, ⟨fun f hf => ?_, htail, fun e he hav f hf => ?_, ?_, ⟨e, he, hty, ?_, ?_⟩,
    pmmInit_eq_foldl hs, fun f hf => ?_⟩⟩
  · rw [used_pmmInit hs (hf.trans_le htotal), h.listed_iff, h.storage_iff hroom, hsized.bitmapPhys,
      hsized.bitmapSize]
  · rw [hsized.totalFrames]
    exact hbounded.lt_totalFrames_of_listed ((h.listed_iff f).mpr ⟨e, he, hav, hf⟩)
  · rw [counterExact_pmmInit hbounded hs]
    exact sum_clear_eq htotal htail
  · rw [hsized.bitmapPhys, hbase]
  · rw [hsized.bitmapPhys, hsized.bitmapSize]
    exact hle
  · have hfT : f < totalFramesOf entries := by
      rcases List.mem_append.mp hf with hf | hf
      · exact hbounded.lt_totalFrames_of_listed (listed_of_mem_freedFrames hf)
      · exact hbounded.lt_totalFrames_of_storage (visits_of_mem_visited hf)
    rw [hsized.totalFrames, hsized.bitmapSize, bitmapSizeOf] at htotal
    rw [hsized.bitmapSize, bitmapSizeOf]
    omega

theorem conformant_smallMap : Conformant smallMap := by
  refine ⟨?_, ?_, ?_⟩
  · decide
  · decide
  · simp [smallMap, MemmapEntry.Contains]
    omega

theorem pmmInit_exact_smallMap : ∃ s, pmmInit smallMap (fun _ => 0) = some (pmmInitSuccess, s) ∧
    ExactBitmap smallMap (fun _ => 0) s :=
  pmmInit_exact conformant_smallMap ⟨_, List.mem_cons_self, rfl, by decide⟩ _

end MathUnikernel.Pmm
