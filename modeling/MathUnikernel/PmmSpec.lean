import MathUnikernel.Pmm

/-!
# What each operation of the physical memory manager does to the bits
-/

namespace MathUnikernel.Pmm
open ByteBitmap Scan

/-- Bit `f` of the bitmap: frame `f` is in use or reserved. -/
abbrev PmmContext.used (s : PmmContext) (f : ℕ) : Bool := getBit s.bitmap f

/-! ## Single bits -/

theorem claimFrame_eq (s : PmmContext) (f : ℕ) : claimFrame s f =
    if s.used f then s
    else { s with bitmap := setBit s.bitmap f, freeFrames := (s.freeFrames + (2 ^ 64 - 1)) % 2 ^ 64 } := by
  have hk : f % 8 < 8 := Nat.mod_lt _ (by omega)
  simp only [claimFrame, and_mask_eq_zero_iff _ hk]
  cases h : s.used f <;> simp_all [PmmContext.used, getBit, setBit]

theorem freeFrame_eq (s : PmmContext) (f : ℕ) : freeFrame s f =
    if s.used f then { s with bitmap := clearBit s.bitmap f, freeFrames := (s.freeFrames + 1) % 2 ^ 64 }
    else s := by
  have hk : f % 8 < 8 := Nat.mod_lt _ (by omega)
  simp only [freeFrame, ne_eq, and_mask_eq_zero_iff _ hk]
  cases h : s.used f <;> simp_all [PmmContext.used, getBit, clearBit]

/-- What is free when no used frame was freed was free before. -/
theorem free_of_kept {s s' : PmmContext} {f : ℕ} (h : s.used f = true → s'.used f = true)
    (hfree : s'.used f = false) : s.used f = false := by
  apply Bool.eq_false_iff.mpr
  intro hused
  rw [h hused] at hfree
  exact absurd hfree (by simp)

theorem used_claimFrame (s : PmmContext) (f g : ℕ) :
    (claimFrame s f).used g = (s.used g || decide (g = f)) := by
  rw [claimFrame_eq]
  split_ifs with h
  · by_cases hg : g = f
    · simp [hg, h]
    · simp [hg]
  · exact getBit_setBit s.bitmap f g

theorem used_freeFrame (s : PmmContext) (f g : ℕ) :
    (freeFrame s f).used g = (s.used g && !decide (g = f)) := by
  rw [freeFrame_eq]
  split_ifs with h
  · exact getBit_clearBit s.bitmap f g
  · by_cases hg : g = f
    · simp [hg, h]
    · simp [hg]

@[simp] theorem claimFrame_bitmapSize (s : PmmContext) (f : ℕ) :
    (claimFrame s f).bitmapSize = s.bitmapSize := by rw [claimFrame_eq]; split_ifs <;> rfl

@[simp] theorem claimFrame_totalFrames (s : PmmContext) (f : ℕ) :
    (claimFrame s f).totalFrames = s.totalFrames := by rw [claimFrame_eq]; split_ifs <;> rfl

@[simp] theorem claimFrame_bitmapPhys (s : PmmContext) (f : ℕ) :
    (claimFrame s f).bitmapPhys = s.bitmapPhys := by rw [claimFrame_eq]; split_ifs <;> rfl

@[simp] theorem freeFrame_bitmapSize (s : PmmContext) (f : ℕ) :
    (freeFrame s f).bitmapSize = s.bitmapSize := by rw [freeFrame_eq]; split_ifs <;> rfl

@[simp] theorem freeFrame_totalFrames (s : PmmContext) (f : ℕ) :
    (freeFrame s f).totalFrames = s.totalFrames := by rw [freeFrame_eq]; split_ifs <;> rfl

@[simp] theorem freeFrame_bitmapPhys (s : PmmContext) (f : ℕ) :
    (freeFrame s f).bitmapPhys = s.bitmapPhys := by rw [freeFrame_eq]; split_ifs <;> rfl

/-! ## Single frames -/

/-- `f` is the frame a first-fit search of the whole bitmap finds. -/
structure FirstFree (s : PmmContext) (f : ℕ) : Prop where
  lt_total : f < s.totalFrames
  lt_size : f < 8 * s.bitmapSize
  free : s.used f = false
  first : ∀ g < f, s.used g = true

theorem FirstFree.unique {s : PmmContext} {f g : ℕ} (hf : FirstFree s f) (hg : FirstFree s g) :
    f = g := by
  rcases Nat.lt_trichotomy f g with h | h | h
  · exact absurd (hg.first f h) (by rw [hf.free]; decide)
  · exact h
  · exact absurd (hf.first g h) (by rw [hg.free]; decide)

theorem pmmAlloc_cases (s : PmmContext) :
    (∃ f, FirstFree s f ∧ pmmAlloc s = (indexToPhysAddr f, claimFrame s f)) ∨
    ((∀ f < s.totalFrames, f < 8 * s.bitmapSize → s.used f = true) ∧ pmmAlloc s = (0, s)) := by
  set byteIndex := scan (fun i => s.bitmap i != 0xff) s.bitmapSize 0 with hbyte
  have hfull : ∀ g, g / 8 < byteIndex → s.used g = true := by
    intro g hg
    have hff := not_stop_of_lt_scan _ (Nat.zero_le _) (hbyte ▸ hg)
    exact (byte_eq_ff_iff s.bitmap _).mp (by simpa using hff) g rfl
  by_cases hend : s.bitmapSize ≤ byteIndex
  · right
    refine ⟨fun f _ hf => hfull f (by omega), ?_⟩
    simp only [pmmAlloc, ← hbyte, if_pos hend]
  · have hne : s.bitmap byteIndex ≠ 0xff := by
      have hstop := stop_scan (fun i => s.bitmap i != 0xff)
        (show scan (fun i => s.bitmap i != 0xff) s.bitmapSize 0 < 0 + s.bitmapSize by omega)
      simpa [← hbyte] using hstop
    obtain ⟨k, hk, hbit⟩ : ∃ k < 8, bit (s.bitmap byteIndex) k = false := by
      by_contra hall
      push Not at hall
      exact hne ((eq_ff_iff _).mpr fun k hk => by simpa using hall k hk)
    set bitIndex := scan (fun b => s.bitmap byteIndex &&& mask b == 0) 8 0 with hbitIndex
    have hle : bitIndex ≤ k := by
      by_contra hlt
      have := not_stop_of_lt_scan _ (Nat.zero_le k) (hbitIndex ▸ Nat.lt_of_not_ge hlt)
      simp [and_mask_eq_zero_iff _ hk, hbit] at this
    have hclear : bit (s.bitmap byteIndex) bitIndex = false := by
      have := stop_scan (fun b => s.bitmap byteIndex &&& mask b == 0)
        (show scan (fun b => s.bitmap byteIndex &&& mask b == 0) 8 0 < 0 + 8 by omega)
      rw [← hbitIndex] at this
      exact (and_mask_eq_zero_iff _ (by omega)).mp (by simpa using this)
    have hset : ∀ j < bitIndex, bit (s.bitmap byteIndex) j = true := by
      intro j hj
      have := not_stop_of_lt_scan _ (Nat.zero_le j) (hbitIndex ▸ hj)
      simpa [and_mask_eq_zero_iff _ (show j < 8 by omega)] using this
    have hdiv : (byteIndex * 8 + bitIndex) / 8 = byteIndex := by omega
    have hmod : (byteIndex * 8 + bitIndex) % 8 = bitIndex := by omega
    have hfree : s.used (byteIndex * 8 + bitIndex) = false := by
      rw [PmmContext.used, getBit, hdiv, hmod, hclear]
    have hfirst : ∀ g < byteIndex * 8 + bitIndex, s.used g = true := by
      intro g hg
      by_cases hb : g / 8 < byteIndex
      · exact hfull g hb
      · have hgb : g / 8 = byteIndex := by omega
        rw [PmmContext.used, getBit, hgb]
        exact hset _ (by omega)
    by_cases htotal : s.totalFrames ≤ byteIndex * 8 + bitIndex
    · right
      refine ⟨fun f hf _ => hfirst f (by omega), ?_⟩
      simp only [pmmAlloc, ← hbyte, if_neg hend, ← hbitIndex, if_pos htotal]
    · left
      refine ⟨byteIndex * 8 + bitIndex, ⟨by omega, by omega, hfree, hfirst⟩, ?_⟩
      simp only [pmmAlloc, ← hbyte, if_neg hend, ← hbitIndex, if_neg htotal]

theorem pmmAlloc_of_firstFree {s : PmmContext} {f : ℕ} (hf : FirstFree s f) :
    pmmAlloc s = (indexToPhysAddr f, claimFrame s f) := by
  rcases pmmAlloc_cases s with ⟨g, hg, h⟩ | ⟨hall, -⟩
  · rw [hf.unique hg, h]
  · exact absurd (hall f hf.lt_total hf.lt_size) (by rw [hf.free]; decide)

/-- A request leaves the frames in use as they are. -/
theorem used_of_pmmAlloc {s : PmmContext} {f : ℕ} (h : s.used f = true) :
    (pmmAlloc s).2.used f = true := by
  rcases pmmAlloc_cases s with ⟨g, -, halloc⟩ | ⟨-, halloc⟩
  · rw [halloc, used_claimFrame, h, Bool.true_or]
  · rw [halloc]
    exact h

@[simp] theorem pmmAlloc_bitmapSize (s : PmmContext) :
    (pmmAlloc s).2.bitmapSize = s.bitmapSize := by
  rcases pmmAlloc_cases s with ⟨f, -, h⟩ | ⟨-, h⟩ <;> rw [h]
  exact claimFrame_bitmapSize s f

@[simp] theorem pmmAlloc_totalFrames (s : PmmContext) :
    (pmmAlloc s).2.totalFrames = s.totalFrames := by
  rcases pmmAlloc_cases s with ⟨f, -, h⟩ | ⟨-, h⟩ <;> rw [h]
  exact claimFrame_totalFrames s f

@[simp] theorem pmmAlloc_bitmapPhys (s : PmmContext) :
    (pmmAlloc s).2.bitmapPhys = s.bitmapPhys := by
  rcases pmmAlloc_cases s with ⟨f, -, h⟩ | ⟨-, h⟩ <;> rw [h]
  exact claimFrame_bitmapPhys s f

theorem physAddrToIndex_indexToPhysAddr {f : ℕ} (hf : f < 2 ^ 52) :
    physAddrToIndex (indexToPhysAddr f) = f := by
  unfold physAddrToIndex indexToPhysAddr
  omega

theorem physAddrToIndex_add (f k : ℕ) : physAddrToIndex (f * 4096 + 4096 * k) = f + k := by
  unfold physAddrToIndex
  omega

theorem physAddrToIndex_mul (f : ℕ) : physAddrToIndex (f * 4096) = f := by
  unfold physAddrToIndex
  omega

theorem indexToPhysAddr_of_lt {f : ℕ} (hf : f < 2 ^ 52) : indexToPhysAddr f = f * 4096 := by
  unfold indexToPhysAddr
  omega

theorem pmmFree_frame (s : PmmContext) {f : ℕ} : pmmFree s (f * 4096) = freeFrame s f := by
  have haligned : f * 4096 &&& 0xfff = 0 := by
    rw [show (0xfff : ℕ) = 2 ^ 12 - 1 from rfl, Nat.and_two_pow_sub_one_eq_mod]
    omega
  simp only [pmmFree, haligned, ne_eq, not_true_eq_false, if_false, physAddrToIndex_mul]

/-! ## Blocks of 512 frames -/

/-- The frames of the 2 MiB block `b`. -/
def block (b : ℕ) : Set ℕ := {f | 512 * b ≤ f ∧ f < 512 * b + 512}

/-- Group `b` of 64 bytes, the frames `[512 b, 512 b + 512)`, lies in the bitmap and is free. -/
structure FreeGroup (s : PmmContext) (b : ℕ) : Prop where
  le_size : 64 * b + 64 ≤ s.bitmapSize
  free : ∀ f, 512 * b ≤ f → f < 512 * b + 512 → s.used f = false

theorem groupIsZero_iff (bm : Bitmap) (b : ℕ) :
    groupIsZero bm (64 * b) = true ↔
      ∀ f, 512 * b ≤ f → f < 512 * b + 512 → getBit bm f = false := by
  simp only [groupIsZero, List.all_eq_true, List.mem_range, beq_iff_eq, byte_eq_zero_iff]
  constructor
  · intro h f hlo hhi
    exact h (f / 8 - 64 * b) (by omega) f (by omega)
  · intro h entry hentry f hf
    exact h f (by omega) (by omega)

theorem pmmAlloc2mb_cases (s : PmmContext) :
    (∃ b, FreeGroup s b ∧ (∀ b' < b, ¬FreeGroup s b') ∧
      pmmAlloc2mb s =
        (indexToPhysAddr (512 * b), { s with bitmap := markGroup s.bitmap (64 * b) })) ∨
    ((∀ b, ¬FreeGroup s b) ∧ pmmAlloc2mb s = (0, s)) := by
  set b := scan (fun group => groupIsZero s.bitmap (64 * group)) (s.bitmapSize / 64) 0 with hb
  have hbefore : ∀ b' < b, ¬FreeGroup s b' := by
    intro b' hb' hfree
    have := not_stop_of_lt_scan _ (Nat.zero_le b') (hb ▸ hb')
    rw [(groupIsZero_iff s.bitmap b').mpr hfree.free] at this
    exact Bool.false_ne_true this.symm
  by_cases hend : s.bitmapSize < 64 * b + 64
  · right
    refine ⟨fun b' hfree => hbefore b' ?_ hfree, ?_⟩
    · have := hfree.le_size
      omega
    · simp only [pmmAlloc2mb, ← hb, if_pos hend]
  · left
    have hstop := stop_scan (fun group => groupIsZero s.bitmap (64 * group))
      (show scan (fun group => groupIsZero s.bitmap (64 * group)) (s.bitmapSize / 64) 0 <
        0 + s.bitmapSize / 64 by omega)
    rw [← hb] at hstop
    refine ⟨b, ⟨by omega, (groupIsZero_iff s.bitmap b).mp hstop⟩, hbefore, ?_⟩
    simp only [pmmAlloc2mb, ← hb, if_neg hend, show 64 * b * 8 = 512 * b by ring]

theorem pmmAlloc2mb_of_first {s : PmmContext} {b : ℕ} (hb : FreeGroup s b)
    (hfirst : ∀ b' < b, ¬FreeGroup s b') : pmmAlloc2mb s =
      (indexToPhysAddr (512 * b), { s with bitmap := markGroup s.bitmap (64 * b) }) := by
  rcases pmmAlloc2mb_cases s with ⟨b', hb', hfirst', h⟩ | ⟨hnone, -⟩
  · rcases Nat.lt_trichotomy b b' with hlt | rfl | hlt
    · exact absurd hb (hfirst' b hlt)
    · exact h
    · exact absurd hb' (hfirst b' hlt)
  · exact absurd hb (hnone b)

theorem pmmAlloc2mb_of_none {s : PmmContext} (h : ∀ b, ¬FreeGroup s b) :
    pmmAlloc2mb s = (0, s) := by
  rcases pmmAlloc2mb_cases s with ⟨b, hb, -⟩ | ⟨-, h⟩
  · exact absurd hb (h b)
  · exact h

theorem fillInt_eq (stop i : ℕ) (bm : Bitmap) :
    fillInt stop i bm = fill bm i (min stop (2 ^ 31)) 0xff := by
  fun_induction fillInt stop i bm with
  | case1 i bm h ih =>
    rw [ih]
    funext j
    unfold fill
    by_cases hj : j = i
    · rw [if_neg (by omega), if_pos (by omega), hj, Function.update_self]
    · by_cases hlt : i + 1 ≤ j ∧ j < min stop (2 ^ 31)
      · rw [if_pos hlt, if_pos (by omega)]
      · rw [if_neg hlt, if_neg (by omega), Function.update_of_ne hj]
  | case2 i bm h =>
    funext j
    rw [fill, if_neg (by omega)]

/-- Below byte `2 ^ 31` the `int` counter of the marking loop is exact. -/
theorem markGroup_eq (bm : Bitmap) {b : ℕ} (hb : 64 * b + 64 ≤ 2 ^ 31) :
    markGroup bm (64 * b) = fill bm (64 * b) (64 * b + 64) 0xff := by
  rw [markGroup, Nat.mod_eq_of_lt (by omega), if_pos (by omega), fillInt_eq,
    Nat.min_eq_left hb]

/-- From byte `2 ^ 31` to `2 ^ 32` the counter starts negative and nothing is marked. -/
theorem markGroup_eq_self (bm : Bitmap) {b : ℕ} (hlo : 2 ^ 31 ≤ 64 * b) (hhi : 64 * b < 2 ^ 32) :
    markGroup bm (64 * b) = bm := by
  rw [markGroup, Nat.mod_eq_of_lt hhi, if_neg (by omega)]

theorem pmmFree2mb_eq (s : PmmContext) (b : ℕ) (hb : 64 * b + 64 ≤ s.bitmapSize) :
    pmmFree2mb s (512 * b * 4096) =
      { s with bitmap := fill s.bitmap (64 * b) (64 * b + 64) 0 } := by
  have halign : 512 * b * 4096 % 0x200000 = 0 := by omega
  have hindex : physAddrToIndex (512 * b * 4096) / 8 = 64 * b := by
    unfold physAddrToIndex
    omega
  simp only [pmmFree2mb, halign, ne_eq, not_true_eq_false, if_false, hindex,
    if_neg (by omega : ¬s.bitmapSize < 64 * b + 64)]

/-- A block below byte `2 ^ 31` is marked in full. -/
theorem used_pmmAlloc2mb {s : PmmContext} {b : ℕ} (hb : FreeGroup s b)
    (hfirst : ∀ b' < b, ¬FreeGroup s b') (hlow : 64 * b + 64 ≤ 2 ^ 31) (g : ℕ) :
    (pmmAlloc2mb s).2.used g = (s.used g || decide (512 * b ≤ g ∧ g < 512 * b + 512)) := by
  rw [pmmAlloc2mb_of_first hb hfirst]
  simp only [PmmContext.used, markGroup_eq s.bitmap hlow, getBit_fill_ff, Bool.or_comm]
  congr 1
  exact decide_eq_decide.mpr (by omega)

theorem used_pmmFree2mb (s : PmmContext) {b : ℕ} (hb : 64 * b + 64 ≤ s.bitmapSize) (g : ℕ) :
    (pmmFree2mb s (512 * b * 4096)).used g =
      (s.used g && !decide (512 * b ≤ g ∧ g < 512 * b + 512)) := by
  rw [pmmFree2mb_eq s b hb]
  simp only [PmmContext.used, getBit_fill_zero, Bool.and_comm]
  congr 2
  exact decide_eq_decide.mpr (by omega)

@[simp] theorem pmmAlloc2mb_bitmapSize (s : PmmContext) :
    (pmmAlloc2mb s).2.bitmapSize = s.bitmapSize := by
  unfold pmmAlloc2mb
  simp only
  split_ifs <;> rfl

@[simp] theorem pmmAlloc2mb_totalFrames (s : PmmContext) :
    (pmmAlloc2mb s).2.totalFrames = s.totalFrames := by
  unfold pmmAlloc2mb
  simp only
  split_ifs <;> rfl

@[simp] theorem pmmAlloc2mb_bitmapPhys (s : PmmContext) :
    (pmmAlloc2mb s).2.bitmapPhys = s.bitmapPhys := by
  unfold pmmAlloc2mb
  simp only
  split_ifs <;> rfl

@[simp] theorem pmmAlloc2mb_freeFrames (s : PmmContext) :
    (pmmAlloc2mb s).2.freeFrames = s.freeFrames := by
  unfold pmmAlloc2mb
  simp only
  split_ifs <;> rfl

@[simp] theorem pmmFree2mb_bitmapSize (s : PmmContext) (a : ℕ) :
    (pmmFree2mb s a).bitmapSize = s.bitmapSize := by
  unfold pmmFree2mb
  simp only
  split_ifs <;> rfl

@[simp] theorem pmmFree2mb_totalFrames (s : PmmContext) (a : ℕ) :
    (pmmFree2mb s a).totalFrames = s.totalFrames := by
  unfold pmmFree2mb
  simp only
  split_ifs <;> rfl

@[simp] theorem pmmFree2mb_bitmapPhys (s : PmmContext) (a : ℕ) :
    (pmmFree2mb s a).bitmapPhys = s.bitmapPhys := by
  unfold pmmFree2mb
  simp only
  split_ifs <;> rfl

@[simp] theorem pmmFree2mb_freeFrames (s : PmmContext) (a : ℕ) :
    (pmmFree2mb s a).freeFrames = s.freeFrames := by
  unfold pmmFree2mb
  simp only
  split_ifs <;> rfl

/-! ## Runs of frames -/

/-- The run under construction: `found` clear frames end at `i` and begin at `start`. -/
def RunAt (s : PmmContext) (i found start : ℕ) : Prop :=
  (0 < found → start + found = i) ∧
    ∀ j, start ≤ j → j < start + found → j < s.totalFrames ∧ s.used j = false

theorem runAt_zero (s : PmmContext) (i start : ℕ) : RunAt s i 0 start :=
  ⟨by omega, fun j _ _ => by omega⟩

/-- One turn of the loop, by the state of the byte and of the bit at `i`. -/
theorem searchContiguous_eq (s : PmmContext) (n i found start : ℕ) :
    searchContiguous s n i found start =
      if i < s.totalFrames then
        if i % 8 = 0 ∧ s.bitmap (i / 8) = 0xff then searchContiguous s n (i + 8) 0 start
        else if s.used i = false then
          if found + 1 = n then some (if found = 0 then i else start)
          else searchContiguous s n (i + 1) (found + 1) (if found = 0 then i else start)
        else searchContiguous s n (i + 1) 0 start
      else none := by
  have hk : i % 8 < 8 := Nat.mod_lt _ (by omega)
  rw [searchContiguous]
  simp only [and_mask_eq_zero_iff _ hk]
  by_cases hskip : i % 8 = 0 ∧ s.bitmap (i / 8) = 0xff
  · have hset : bit (s.bitmap (i / 8)) (i % 8) = true := (eq_ff_iff _).mp hskip.2 _ hk
    simp only [if_pos hskip, hset, Bool.true_eq_false, if_false]
  · by_cases hclear : bit (s.bitmap (i / 8)) (i % 8) = false
    · simp only [if_neg hskip, PmmContext.used, getBit, hclear, if_true]
    · simp only [if_neg hskip, PmmContext.used, getBit, hclear]

/-- A clear bit at `i` extends the run, or begins one. -/
theorem RunAt.extend {s : PmmContext} {i found start : ℕ} (h : RunAt s i found start)
    (hi : i < s.totalFrames) (hused : s.used i = false) :
    RunAt s (i + 1) (found + 1) (if found = 0 then i else start) := by
  split_ifs with hz
  · subst hz
    exact ⟨by omega, fun j hlo hhi => (show j = i by omega) ▸ ⟨hi, hused⟩⟩
  · have hend := h.1 (by omega)
    refine ⟨by omega, fun j hlo hhi => ?_⟩
    by_cases hji : j = i
    · exact hji ▸ ⟨hi, hused⟩
    · exact h.2 j hlo (by omega)

theorem searchContiguous_sound (s : PmmContext) (n : ℕ) {st : ℕ} :
    ∀ i found start, RunAt s i found start → searchContiguous s n i found start = some st →
      0 < n ∧ ∀ j, st ≤ j → j < st + n → j < s.totalFrames ∧ s.used j = false := by
  intro i
  induction hm : s.totalFrames - i using Nat.strong_induction_on generalizing i with
  | _ m ih =>
    intro found start hrun hst
    rw [searchContiguous_eq] at hst
    by_cases hi : i < s.totalFrames
    · rw [if_pos hi] at hst
      by_cases hskip : i % 8 = 0 ∧ s.bitmap (i / 8) = 0xff
      · rw [if_pos hskip] at hst
        exact ih _ (by omega) (i + 8) rfl 0 start (runAt_zero s _ _) hst
      · rw [if_neg hskip] at hst
        by_cases hused : s.used i = false
        · have hrun' := hrun.extend hi hused
          rw [if_pos hused] at hst
          by_cases hn : found + 1 = n
          · rw [if_pos hn, Option.some.injEq] at hst
            rw [hst] at hrun'
            exact ⟨by omega, fun j hlo hhi => hrun'.2 j hlo (by omega)⟩
          · rw [if_neg hn] at hst
            exact ih _ (by omega) (i + 1) rfl (found + 1) _ hrun' hst
        · rw [if_neg hused] at hst
          exact ih _ (by omega) (i + 1) rfl 0 start (runAt_zero s _ _) hst
    · rw [if_neg hi] at hst
      exact absurd hst (by simp)

/-- The claims of `pmm_alloc_contiguous`. -/
def claimRun (s : PmmContext) (start n : ℕ) : PmmContext :=
  (List.range n).foldl (fun s j => claimFrame s (start + j)) s

theorem claimRun_succ (s : PmmContext) (start n : ℕ) :
    claimRun s start (n + 1) = claimFrame (claimRun s start n) (start + n) := by
  simp [claimRun, List.range_succ]

theorem used_claimRun (s : PmmContext) (start n g : ℕ) :
    (claimRun s start n).used g = (s.used g || decide (start ≤ g ∧ g < start + n)) := by
  induction n with
  | zero => simp [claimRun]
  | succ n ih =>
    rw [claimRun_succ, used_claimFrame, ih, Bool.or_assoc]
    congr 1
    by_cases h : g = start + n
    · simp [h]
    · simp only [h, decide_false, Bool.or_false]
      exact decide_eq_decide.mpr (by omega)

@[simp] theorem claimRun_bitmapSize (s : PmmContext) (start n : ℕ) :
    (claimRun s start n).bitmapSize = s.bitmapSize := by
  induction n with
  | zero => rfl
  | succ n ih => rw [claimRun_succ, claimFrame_bitmapSize, ih]

@[simp] theorem claimRun_totalFrames (s : PmmContext) (start n : ℕ) :
    (claimRun s start n).totalFrames = s.totalFrames := by
  induction n with
  | zero => rfl
  | succ n ih => rw [claimRun_succ, claimFrame_totalFrames, ih]

theorem pmmAllocContiguous_cases (s : PmmContext) (n : ℕ) :
    (∃ st, 0 < n ∧ (∀ j, st ≤ j → j < st + n → j < s.totalFrames ∧ s.used j = false) ∧
      pmmAllocContiguous s n = (indexToPhysAddr st, claimRun s st n)) ∨
    pmmAllocContiguous s n = (0, s) := by
  unfold pmmAllocContiguous
  cases h : searchContiguous s n 0 0 0 with
  | none => exact .inr rfl
  | some st =>
    obtain ⟨hn, hrun⟩ := searchContiguous_sound s n 0 0 0 (runAt_zero s 0 0) h
    exact .inl ⟨st, hn, hrun, rfl⟩

end MathUnikernel.Pmm
