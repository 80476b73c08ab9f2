import MathUnikernel.PmmAccesses

/-!
# First fit

Each search of the physical memory manager finds the lowest place that will do, and none only if
there is none.
-/

namespace MathUnikernel.Pmm
open ByteBitmap

/-! ## Runs of free frames -/

/-- `n` free frames from `start` on. -/
def FreeRun (s : PmmContext) (n start : ℕ) : Prop :=
  ∀ j, start ≤ j → j < start + n → j < s.totalFrames ∧ s.used j = false

variable {s : PmmContext} {n : ℕ}

theorem not_freeRun_of_used {i start : ℕ} (hused : s.used i = true) (hle : start ≤ i)
    (hlt : i < start + n) : ¬FreeRun s n start := by
  intro h
  rw [(h i hle hlt).2] at hused
  exact Bool.false_ne_true hused

/-- After `found` clear bits before `i` no run starts before these. -/
def Passed (s : PmmContext) (n i found : ℕ) : Prop := ∀ start, start + found < i → ¬FreeRun s n start

/-- A used frame ends every run that could have started before it. -/
theorem Passed.of_used {i found : ℕ} (h : Passed s n i found) (hfound : found < n)
    (hused : s.used i = true) : Passed s n (i + 1) 0 := by
  intro start hstart
  by_cases hbefore : start + found < i
  · exact h start hbefore
  · exact not_freeRun_of_used hused (by omega) (by omega)

theorem Passed.of_full {i found : ℕ} (h : Passed s n i found) (hfound : found < n)
    (hfull : ∀ f, i ≤ f → f < i + 8 → s.used f = true) : Passed s n (i + 8) 0 := by
  intro start hstart
  by_cases hbefore : start < i
  · exact h.of_used hfound (hfull i le_rfl (by omega)) start (by omega)
  · exact not_freeRun_of_used (hfull start (by omega) hstart) le_rfl (by omega)

theorem Passed.of_clear {i found : ℕ} (h : Passed s n i found) : Passed s n (i + 1) (found + 1) :=
  fun start hstart => h start (by omega)

theorem used_of_full {i : ℕ} (hi : i % 8 = 0) (hfull : s.bitmap (i / 8) = 0xff) {f : ℕ}
    (hlo : i ≤ f) (hhi : f < i + 8) : s.used f = true :=
  (byte_eq_ff_iff s.bitmap (i / 8)).mp hfull f (by omega)

/-- The search stops at the first run. -/
theorem searchContiguous_first (hn : 0 < n) : ∀ i found start, RunAt s i found start → found < n →
    Passed s n i found →
      (∀ st, searchContiguous s n i found start = some st → IsLeast {st | FreeRun s n st} st) ∧
        (searchContiguous s n i found start = none → ∀ st, ¬FreeRun s n st) := by
  intro i
  induction hm : s.totalFrames - i using Nat.strong_induction_on generalizing i with
  | _ m ih =>
    intro found start hrun hfound hpassed
    rw [searchContiguous_eq]
    by_cases hi : i < s.totalFrames
    · rw [if_pos hi]
      by_cases hskip : i % 8 = 0 ∧ s.bitmap (i / 8) = 0xff
      · rw [if_pos hskip]
        exact ih _ (by omega) (i + 8) rfl 0 start (runAt_zero s _ _) hn
          (hpassed.of_full hfound fun f => used_of_full hskip.1 hskip.2)
      · rw [if_neg hskip]
        by_cases hused : s.used i = false
        · rw [if_pos hused]
          have hrun' := hrun.extend hi hused
          by_cases hlast : found + 1 = n
          · rw [if_pos hlast]
            refine ⟨fun st hst => ?_, fun h => absurd h (by simp)⟩
            rw [Option.some.inj hst] at hrun'
            have hend := hrun'.1 (by omega)
            constructor
            · exact fun j hlo hhi => hrun'.2 j hlo (by omega)
            · intro st' hst'
              by_contra hlt
              exact hpassed st' (by omega) hst'
          · rw [if_neg hlast]
            exact ih _ (by omega) (i + 1) rfl (found + 1) _ hrun' (by omega) hpassed.of_clear
        · rw [if_neg hused]
          exact ih _ (by omega) (i + 1) rfl 0 start (runAt_zero s _ _) hn
            (hpassed.of_used hfound (by simpa using hused))
    · rw [if_neg hi]
      refine ⟨fun st h => absurd h (by simp), fun _ st h => ?_⟩
      -- a run that starts later ends behind the last frame
      by_cases hbefore : st + found < i
      · exact hpassed st hbefore h
      · have hlt := (h (st + n - 1) (by omega) (by omega)).1
        omega

/-- Every frame of the run is taken off the counter. -/
theorem claimRun_freeFrames {start : ℕ} (hn : 0 < n) (hle : n ≤ 2 ^ 64)
    (h : ∀ j, start ≤ j → j < start + n → s.used j = false) :
    (claimRun s start n).freeFrames = (s.freeFrames + (2 ^ 64 - n)) % 2 ^ 64 := by
  induction n with
  | zero => exact absurd hn (Nat.lt_irrefl 0)
  | succ n ih =>
    have hfree : (claimRun s start n).used (start + n) = false := by
      rw [used_claimRun, h _ (by omega) (by omega), Bool.false_or]
      exact decide_eq_false (by omega)
    rw [claimRun_succ, claimFrame_eq, hfree, if_neg Bool.false_ne_true]
    cases n with
    | zero => rfl
    | succ n =>
      have hrest := ih (Nat.succ_pos n) (by omega) fun j hlo hhi => h j hlo (by omega)
      dsimp only
      omega

/-- A run was found and claimed. -/
structure ClaimsRun (s : PmmContext) (n start : ℕ) (r : ℕ × PmmContext) : Prop where
  addr : r.1 = 4096 * start
  used : ∀ g, r.2.used g = (s.used g || decide (start ≤ g ∧ g < start + n))
  freeFrames : r.2.freeFrames = (s.freeFrames + (2 ^ 64 - n)) % 2 ^ 64
  bitmapSize : r.2.bitmapSize = s.bitmapSize
  totalFrames : r.2.totalFrames = s.totalFrames

/-- What the search finds. -/
theorem pmmAllocContiguous_search (s : PmmContext) (hn : 0 < n) :
    (∃ start, IsLeast {st | FreeRun s n st} start ∧
      pmmAllocContiguous s n = (indexToPhysAddr start, claimRun s start n)) ∨
    ((∀ start, ¬FreeRun s n start) ∧ pmmAllocContiguous s n = (0, s)) := by
  obtain ⟨hsome, hnone⟩ := searchContiguous_first hn 0 0 0 (runAt_zero s 0 0) hn
    fun start h => absurd h (by omega)
  unfold pmmAllocContiguous
  cases hsearch : searchContiguous s n 0 0 0 with
  | some start => exact .inl ⟨start, hsome start hsearch, rfl⟩
  | none => exact .inr ⟨hnone hsearch, rfl⟩

/-- `pmm_alloc_contiguous` claims the first run of free frames, and nothing if there is none; it
touches bytes of the bitmap only. -/
theorem pmmAllocContiguous_firstFit (s : PmmContext) (htotal : s.totalFrames ≤ 2 ^ 52)
    (hsize : s.bitmapSize = (s.totalFrames + 7) / 8) (hn : 1 ≤ n) :
    (∀ start, IsLeast {st | FreeRun s n st} start →
      ClaimsRun s n start (pmmAllocContiguous s n)) ∧
    ((∀ start, ¬FreeRun s n start) → pmmAllocContiguous s n = (0, s)) ∧
    ∀ i ∈ (Call.trace ⟨s, []⟩ (.allocContiguous n)).2.touched, i < s.bitmapSize := by
  refine ⟨fun start hleast => ?_, fun hnone => ?_, fun i hi => ?_⟩
  · rcases pmmAllocContiguous_search s hn with ⟨start', hleast', h⟩ | ⟨hnone, -⟩
    · obtain rfl := hleast'.unique hleast
      have hlt := (hleast.1 start' le_rfl (by omega)).1
      rw [h]
      exact ⟨by rw [indexToPhysAddr_of_lt (by omega), Nat.mul_comm], used_claimRun s start' n,
        claimRun_freeFrames hn (by
          have hend := (hleast.1 (start' + n - 1) (by omega) (by omega)).1
          omega) fun j hlo hhi => (hleast.1 j hlo hhi).2, claimRun_bitmapSize s start' n,
        claimRun_totalFrames s start' n⟩
    · exact absurd hleast.1 (hnone start)
  · rcases pmmAllocContiguous_search s hn with ⟨start, hleast, -⟩ | ⟨-, h⟩
    · exact absurd hleast.1 (hnone start)
    · exact h
  · have htouches := (touches_pmmAllocContiguous (n := s.bitmapSize) ⟨s, []⟩ n (by
      dsimp only
      omega)).2
    exact (htouches.below i hi).elim (fun h => absurd h List.not_mem_nil) id

/-- Three frames in a row on the small machine, the first behind the used half. -/
theorem pmmAllocContiguous_firstFit_smallMap :
    ∃ s, pmmInit smallMap (fun _ => 0) = some (pmmInitSuccess, s) ∧
      ClaimsRun s 3 512 (pmmAllocContiguous s 3) := by
  obtain ⟨s, hs, hsize, htotal, hused⟩ := pmmInit_smallMap
  refine ⟨s, hs, (pmmAllocContiguous_firstFit s (by omega) (by omega) (by norm_num)).1 512 ⟨?_, ?_⟩⟩
  · intro j hlo hhi
    exact ⟨by omega, (hused j (by omega)).mpr hlo⟩
  · intro st hst
    obtain ⟨hlt, hfree⟩ := hst st le_rfl (by omega)
    exact (hused st (by omega)).mp hfree

/-! ## One frame -/

theorem freeRun_one {f : ℕ} : FreeRun s 1 f ↔ f < s.totalFrames ∧ s.used f = false := by
  constructor
  · intro h
    exact h f le_rfl (by omega)
  · intro h j hlo hhi
    obtain rfl : j = f := by omega
    exact h

/-- The first free frame of the whole bitmap is the first run of one frame. -/
theorem firstFree_iff_isLeast (hsize : s.bitmapSize = (s.totalFrames + 7) / 8) {f : ℕ} :
    FirstFree s f ↔ IsLeast {st | FreeRun s 1 st} f := by
  constructor
  · intro h
    refine ⟨freeRun_one.mpr ⟨h.lt_total, h.free⟩, fun g hg => ?_⟩
    by_contra hlt
    have hused := h.first g (by omega)
    rw [(freeRun_one.mp hg).2] at hused
    exact Bool.false_ne_true hused
  · intro h
    obtain ⟨hlt, hfree⟩ := freeRun_one.mp h.1
    refine ⟨hlt, by omega, hfree, fun g hg => ?_⟩
    by_contra hclear
    have hle := h.2 (freeRun_one.mpr ⟨hg.trans hlt, by simpa using hclear⟩)
    omega

/-- The two searches for one frame agree, whatever the padding bits are. -/
theorem pmmAlloc_eq_pmmAllocContiguous (s : PmmContext)
    (hsize : s.bitmapSize = (s.totalFrames + 7) / 8) : pmmAlloc s = pmmAllocContiguous s 1 := by
  rcases pmmAlloc_cases s with ⟨f, hf, halloc⟩ | ⟨hnone, halloc⟩ <;>
    rcases pmmAllocContiguous_search s Nat.one_pos with ⟨g, hg, hcont⟩ | ⟨hnone', hcont⟩
  · obtain rfl := ((firstFree_iff_isLeast hsize).mp hf).unique hg
    have hone : claimRun s f 1 = claimFrame s f := claimRun_succ s f 0
    rw [halloc, hcont, hone]
  · exact absurd (freeRun_one.mpr ⟨hf.lt_total, hf.free⟩) (hnone' f)
  · obtain ⟨hlt, hfree⟩ := freeRun_one.mp hg.1
    rw [hnone g hlt (by omega)] at hfree
    exact absurd hfree.symm Bool.false_ne_true
  · rw [halloc, hcont]

/-- Twelve frames in use, and four clear padding bits behind them. -/
theorem pmmAlloc_eq_pmmAllocContiguous_padding :
    pmmAlloc ⟨fun i => if i = 0 then 0xff else 0x0f, 0, 2, 12, 0⟩ =
      pmmAllocContiguous ⟨fun i => if i = 0 then 0xff else 0x0f, 0, 2, 12, 0⟩ 1 ∧
    (pmmAlloc ⟨fun i => if i = 0 then 0xff else 0x0f, 0, 2, 12, 0⟩).1 = 0 :=
  ⟨pmmAlloc_eq_pmmAllocContiguous _ rfl, by decide⟩

/-! ## Blocks -/

/-- The marking loop leaves the frames of a block from byte `2 ^ 31` on as they are. -/
theorem getBit_markGroup_of_high (bm : Bitmap) {b f : ℕ} (hhigh : 2 ^ 31 ≤ 64 * b)
    (hf : 512 * b ≤ f) : getBit (markGroup bm (64 * b)) f = getBit bm f := by
  unfold markGroup
  split_ifs
  · have hout : ¬(8 * (64 * b % 2 ^ 32) ≤ f ∧ f < 8 * min (64 * b + 64) (2 ^ 31)) := by omega
    rw [fillInt_eq, getBit_fill_ff, decide_eq_false hout, Bool.false_or]
  · rfl

/-- The search for a block is complete, and what it finds is claimed. -/
structure BlockSearch (s : PmmContext) : Prop where
  addr : ∀ b, IsLeast {b | FreeGroup s b} b → (pmmAlloc2mb s).1 = 32768 * (64 * b)
  used : ∀ b, IsLeast {b | FreeGroup s b} b → ∀ g, (pmmAlloc2mb s).2.used g =
    (s.used g || decide (512 * b ≤ g ∧ g < 512 * b + 512))
  again : (∃ b, FreeGroup s b) → (pmmAlloc2mb (pmmAlloc2mb s).2).1 ≠ (pmmAlloc2mb s).1
  none : (∀ b, ¬FreeGroup s b) → pmmAlloc2mb s = (0, s)

theorem isLeast_freeGroup {b : ℕ} (hb : FreeGroup s b) (hfirst : ∀ b' < b, ¬FreeGroup s b') :
    IsLeast {b | FreeGroup s b} b :=
  ⟨hb, fun b' hb' => Nat.le_of_not_lt fun hlt => hfirst b' hlt hb'⟩

/-- A second request does not find the block again. -/
theorem pmmAlloc2mb_again (hsize : s.bitmapSize ≤ 2 ^ 37) (hzero : s.used 0 = true) {b : ℕ}
    (hb : FreeGroup s b) (haddr : (pmmAlloc2mb s).1 = 32768 * (64 * b))
    (hused : (pmmAlloc2mb s).2.used (512 * b) = true) :
    (pmmAlloc2mb (pmmAlloc2mb s).2).1 ≠ (pmmAlloc2mb s).1 := by
  have hpos : b ≠ 0 := by
    rintro rfl
    rw [hb.free 0 (by omega) (by omega)] at hzero
    exact Bool.false_ne_true hzero
  rcases pmmAlloc2mb_cases (pmmAlloc2mb s).2 with ⟨b', hb', -, h⟩ | ⟨-, h⟩
  · have hlt := hb'.le_size
    rw [pmmAlloc2mb_bitmapSize] at hlt
    rw [h, haddr, indexToPhysAddr_of_lt (by omega)]
    intro heq
    obtain rfl : b' = b := by omega
    rw [hb'.free _ le_rfl (by omega)] at hused
    exact Bool.false_ne_true hused
  · rw [h, haddr]
    omega

/-- A block from byte `2 ^ 31` on is found and not claimed. -/
theorem not_blockSearch_of_high {b : ℕ} (hleast : IsLeast {b | FreeGroup s b} b)
    (hhigh : 2 ^ 31 ≤ 64 * b) : ¬BlockSearch s := by
  intro h
  have hused := h.used b hleast (512 * b)
  rw [pmmAlloc2mb_of_first hleast.1 fun b' hlt hb' => absurd (hleast.2 hb') (by omega),
    decide_eq_true (by omega), Bool.or_true] at hused
  change getBit (markGroup s.bitmap (64 * b)) (512 * b) = true at hused
  rw [getBit_markGroup_of_high s.bitmap hhigh le_rfl] at hused
  exact Bool.false_ne_true ((hleast.1.free _ le_rfl (by omega)).symm.trans hused)

/-- With frame 0 in use and addresses of 52 bits, the search is right exactly when some free block
lies below byte `2 ^ 31` of the bitmap, or there is none at all. -/
theorem blockSearch_iff (s : PmmContext) (hsize : s.bitmapSize ≤ 2 ^ 37) (hzero : s.used 0 = true) :
    BlockSearch s ↔ ((∃ b, FreeGroup s b) → ∃ b, FreeGroup s b ∧ 64 * b < 2 ^ 31) := by
  rcases pmmAlloc2mb_cases s with ⟨b, hb, hfirst, halloc⟩ | ⟨hnone, halloc⟩
  · have hleast := isLeast_freeGroup hb hfirst
    have hlt := hb.le_size
    have haddr : (pmmAlloc2mb s).1 = 32768 * (64 * b) := by
      rw [halloc, indexToPhysAddr_of_lt (by omega)]
      omega
    constructor
    · intro h _
      refine ⟨b, hb, ?_⟩
      by_contra hhigh
      exact not_blockSearch_of_high hleast (by omega) h
    · intro h
      obtain ⟨b', hb', hlow'⟩ := h ⟨b, hb⟩
      have hlow : 64 * b + 64 ≤ 2 ^ 31 := by
        have hle : b ≤ b' := hleast.2 hb'
        omega
      have hused := used_pmmAlloc2mb hb hfirst hlow
      refine ⟨fun b'' hb'' => ?_, fun b'' hb'' => ?_, fun _ => ?_, fun hnone => absurd hb (hnone b)⟩
      · rw [← hleast.unique hb'']
        exact haddr
      · rw [← hleast.unique hb'']
        exact hused
      · apply pmmAlloc2mb_again hsize hzero hb haddr
        rw [hused, decide_eq_true (by omega), Bool.or_true]
  · have hsearch : BlockSearch s :=
      ⟨fun b hb => absurd hb.1 (hnone b), fun b hb => absurd hb.1 (hnone b),
        fun h => absurd h (not_exists.mpr hnone), fun _ => halloc⟩
    exact ⟨fun _ h => absurd h (not_exists.mpr hnone), fun _ => hsearch⟩

/-- The second block of the small machine is found and claimed. -/
theorem blockSearch_iff_smallMap : ∃ s, pmmInit smallMap (fun _ => 0) = some (pmmInitSuccess, s) ∧
    FreeGroup s 1 ∧ BlockSearch s := by
  obtain ⟨s, hs, hsize, htotal, hused⟩ := pmmInit_smallMap
  have hfree : FreeGroup s 1 := ⟨by omega, fun f hlo hhi => (hused f (by omega)).mpr (by omega)⟩
  have hzero : s.used 0 = true := by
    have hnot := mt (hused 0 (by omega)).mp (by omega)
    simpa using hnot
  exact ⟨s, hs, hfree,
    (blockSearch_iff s (by omega) hzero).mpr fun _ => ⟨1, hfree, by norm_num⟩⟩

/-- Nothing free but a block at 64 TiB. -/
def highBlock : PmmContext where
  bitmap := fun i => if i < 2 ^ 31 then 0xff else 0
  bitmapPhys := 0x3000
  bitmapSize := 2 ^ 31 + 64
  totalFrames := 2 ^ 34 + 512
  freeFrames := 512

theorem used_highBlock (f : ℕ) : highBlock.used f = decide (f < 2 ^ 34) := by
  change bit (if f / 8 < 2 ^ 31 then 0xff else 0) (f % 8) = decide (f < 2 ^ 34)
  split_ifs with h
  · rw [bit_ff (Nat.mod_lt f (by norm_num)), decide_eq_true (by omega)]
  · rw [bit_zero, decide_eq_false (by omega)]

theorem not_blockSearch_highBlock : highBlock.used 0 = true ∧ ¬BlockSearch highBlock := by
  refine ⟨by rw [used_highBlock, decide_eq_true (by norm_num)], ?_⟩
  apply not_blockSearch_of_high (b := 2 ^ 25)
  · apply isLeast_freeGroup
    · refine ⟨by norm_num [highBlock], fun f hlo hhi => ?_⟩
      rw [used_highBlock, decide_eq_false (by omega)]
    · intro b hb hfree
      have hused := used_highBlock (512 * b)
      rw [hfree.free _ le_rfl (by omega), decide_eq_true (by omega)] at hused
      exact Bool.false_ne_true hused
  · norm_num

end MathUnikernel.Pmm
