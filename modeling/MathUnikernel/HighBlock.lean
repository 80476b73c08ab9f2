import MathUnikernel.HeapHistories

/-!
# A page that clears its own tables

The block of a page is handed out without being marked in use; the frames for its page tables then
come from the block, and the zero-fill of the page clears them.
-/

namespace MathUnikernel.Vmm
open Pmm RadixTree

/-! ## The first tables -/

theorem physAddrToIndex_frame (f : ℕ) : physAddrToIndex (4096 * f) = f := by
  unfold physAddrToIndex
  omega

theorem vmmGetAddr_table {f : ℕ} (hf : f < 2 ^ 40) : vmmGetAddr (4096 * f + 3) = 4096 * f := by
  rw [vmmGetAddr_eq]
  omega

/-- A table is added in the first free frame. -/
theorem ensureTable_of_range {m : Machine} {table lo hi : ℕ} {index : Fin 512}
    (hrange : FreeRange m.pmm lo hi) (hlt : lo < hi) (habsent : m.entry table index = 0)
    (hne : physAddrToIndex table ≠ lo) :
    (∀ f j, (ensureTable m table index).mem f j = if f = lo then 0
      else if f = physAddrToIndex table ∧ j = index then 4096 * lo + 3 else m.mem f j) ∧
    FreeRange (ensureTable m table index).pmm (lo + 1) hi := by
  have hhi := hrange.lt
  have hfirst : (pmmAlloc m.pmm).1 = 4096 * lo := by
    rw [pmmAlloc_of_firstFree (hrange.firstFree hlt), indexToPhysAddr_of_lt (by omega), Nat.mul_comm]
  have hpresent : m.entry table index &&& vmmPresent = 0 := by rw [habsent, Nat.zero_and]
  constructor
  · intro f j
    rw [mem_ensureTable hpresent (by rwa [hfirst, physAddrToIndex_frame]), hfirst,
      physAddrToIndex_frame]
  · rw [ensureTable, if_pos hpresent]
    exact hrange.pmmAlloc hlt

/-- Two tables are added to an empty PML4, in the first two free frames. -/
theorem descend_of_range {m : Machine} {lo hi : ℕ} (hrange : FreeRange m.pmm lo hi)
    (hroom : lo + 2 ≤ hi) (hzero : ∀ f j, m.mem f j = 0) (hroot : physAddrToIndex m.pml4Phys < lo)
    (virtAddr : ℕ) :
    (descend virtAddr [3, 2] m m.pml4Phys).2 = 4096 * (lo + 1) ∧
      (descend virtAddr [3, 2] m m.pml4Phys).1.entry m.pml4Phys (tableIndex virtAddr 3) =
        4096 * lo + 3 := by
  have hhi := hrange.lt
  have habsent : m.entry m.pml4Phys (tableIndex virtAddr 3) = 0 := hzero _ _
  obtain ⟨hmem₁, hrange₁⟩ := ensureTable_of_range hrange (by omega) habsent hroot.ne
  simp only [descend]
  generalize ensureTable m m.pml4Phys (tableIndex virtAddr 3) = m₁ at hmem₁ hrange₁ ⊢
  have hpml4e : m₁.entry m.pml4Phys (tableIndex virtAddr 3) = 4096 * lo + 3 := by
    rw [Machine.entry, hmem₁, if_neg hroot.ne, if_pos ⟨rfl, rfl⟩]
  rw [hpml4e, vmmGetAddr_table (by omega)]
  have habsent₁ : m₁.entry (4096 * lo) (tableIndex virtAddr 2) = 0 := by
    rw [Machine.entry, hmem₁, if_pos (physAddrToIndex_frame lo)]
  obtain ⟨hmem₂, -⟩ := ensureTable_of_range hrange₁ (by omega) habsent₁ (by
    rw [physAddrToIndex_frame]
    omega)
  generalize ensureTable m₁ (4096 * lo) (tableIndex virtAddr 2) = m₂ at hmem₂ ⊢
  constructor
  · have hpdpte : m₂.entry (4096 * lo) (tableIndex virtAddr 2) = 4096 * (lo + 1) + 3 := by
      rw [Machine.entry, hmem₂, physAddrToIndex_frame, if_neg (by omega), if_pos ⟨rfl, rfl⟩]
    rw [hpdpte, vmmGetAddr_table (by omega)]
  · rw [Machine.entry, hmem₂, if_neg (by omega), physAddrToIndex_frame, if_neg (by omega)]
    exact hpml4e

/-! ## The zero-fill -/

/-- Under an empty page directory pointer table nothing is mapped. -/
theorem hwWalk_of_empty {m : Machine} {virtAddr lo : ℕ} (hlo : lo < 2 ^ 40)
    (hpml4e : m.entry m.pml4Phys (tableIndex virtAddr 3) = 4096 * lo + 3)
    (hempty : ∀ j, m.mem lo j = 0) : hwWalk m virtAddr = none := by
  have hpdpte : m.entry (4096 * lo) (tableIndex virtAddr 2) = 0 := by
    rw [Machine.entry, physAddrToIndex_frame, hempty]
  have habsent : 0 &&& vmmPresent = 0 := Nat.zero_and _
  unfold hwWalk
  dsimp only
  rw [hpml4e, vmmGetAddr_table hlo, hpdpte, if_pos habsent, ite_self]

/-- The addresses of the first page have one index in the PML4. -/
theorem tableIndex_heapStart {i : ℕ} (hi : i < 512) :
    tableIndex ((heapStart + 4096 * i) % 2 ^ 64) 3 = tableIndex heapStart 3 := by
  apply Fin.ext
  simp only [tableIndex, heapStart, Nat.shiftRight_eq_div_pow]
  have h : (0xffff900000000000 + 4096 * i) % 2 ^ 64 / 2 ^ (12 + 3 * 9) =
      0xffff900000000000 / 2 ^ (12 + 3 * 9) := by omega
  rw [h]

/-- With the page directory pointer table cleared, the addresses of the page are unmapped. -/
theorem hwWalk_clearFrame {m : Machine} {lo : ℕ} (hlo : lo < 2 ^ 40)
    (hne : physAddrToIndex m.pml4Phys ≠ lo)
    (hpml4e : m.entry m.pml4Phys (tableIndex heapStart 3) = 4096 * lo + 3) {i : ℕ} (hi : i < 512) :
    hwWalk (m.clearFrame (4096 * lo)) ((heapStart + 4096 * i) % 2 ^ 64) = none := by
  apply hwWalk_of_empty hlo
  · rw [tableIndex_heapStart hi, ← hpml4e]
    simp only [Machine.entry, Machine.clearFrame, physAddrToIndex_frame]
    rw [Function.update_of_ne hne]
  · intro j
    simp only [Machine.clearFrame, physAddrToIndex_frame, Function.update_self]

/-- A fill whose first step clears the page directory pointer table does nothing more. -/
theorem clearMapped_of_own {m : Machine} {lo fl : ℕ} (hlo : lo < 2 ^ 40)
    (hne : physAddrToIndex m.pml4Phys ≠ lo)
    (hpml4e : m.entry m.pml4Phys (tableIndex heapStart 3) = 4096 * lo + 3)
    (hwalk : hwWalk m heapStart = some (4096 * lo, fl)) {n : ℕ} (hn : n < 512) :
    clearMapped m heapStart (n + 1) = m.clearFrame (4096 * lo) := by
  rw [clearMapped_succ]
  induction n with
  | zero =>
    have hstart : (heapStart + 4096 * 0) % 2 ^ 64 = heapStart := by norm_num [heapStart]
    have hnone : clearMapped m heapStart 0 = m := by
      unfold clearMapped
      rfl
    rw [hnone, hstart, hwalk, Option.elim_some]
  | succ n ih =>
    rw [clearMapped_succ, ih (by omega), hwWalk_clearFrame hlo hne hpml4e hn, Option.elim_none]

/-! ## The first page -/

/-- An empty PML4, and no free frames but those of one block beyond byte `2 ^ 31`. -/
structure OwnBlock (m : Machine) (b : ℕ) : Prop where
  high : OnlyHigh m 0 b
  range : FreeRange m.pmm (512 * b) (512 * b + 512)
  zero : ∀ f j, m.mem f j = 0
  root : physAddrToIndex m.pml4Phys < 512 * b
  nextVirtAddr : m.nextVirtAddr = heapPage 0

namespace OwnBlock

variable {m : Machine} {b : ℕ} (h : OwnBlock m b)
include h

theorem range_withBlock : FreeRange (withBlock m).pmm (512 * b) (512 * b + 512) :=
  h.high.withBlock_pmm ▸ h.range

theorem stocked : Stocked (withBlock m) (0 + 3) ∅ :=
  ⟨h.high.stocked_withBlock.served, 512 * b, 512 * b + 512, h.range_withBlock, by omega,
    fun f hf => absurd hf id⟩

theorem regular : Regular (withBlock m) (blockCall m 3) :=
  h.high.regular_of_stocked (h.stocked.mono (show 2 + 0 ≤ 0 + 3 by omega))
    (by decide : 3 &&& vmmAddrMask = 0) (by decide)

theorem mapped : Mapped (withBlock m) ((blockCall m 3).exec (withBlock m)) (blockCall m 3).path
    (blockCall m 3).index (blockCall m 3).newEntry :=
  mapped_of_regular h.high.claimed_withBlock.tree h.regular

/-- The page leads to its block, for now. -/
theorem hwWalk_exec : ∃ fl, hwWalk ((blockCall m 3).exec (withBlock m)) heapStart =
    some (4096 * (512 * b), fl) := by
  have hwalk := congrFun (Vmm.hwWalk_exec h.high.claimed_withBlock.tree h.regular) (heapPage 0)
  rw [h.high.blockCall_eq h.nextVirtAddr, apply_heapPage, heapPage_zero,
    Nat.mul_comm (512 * b)] at hwalk
  rw [h.high.blockCall_eq h.nextVirtAddr, heapPage_zero, Nat.mul_comm (512 * b)]
  exact ⟨_, hwalk⟩

/-- Its page directory pointer table is the first frame of the block. -/
theorem entry_exec : ((blockCall m 3).exec (withBlock m)).entry m.pml4Phys
    (tableIndex heapStart 3) = 4096 * (512 * b) + 3 := by
  have hroot := h.root
  obtain ⟨htable, hpml4e⟩ :=
    descend_of_range h.range_withBlock (by omega) h.zero hroot heapStart
  have hexec := exec_eq (withBlock m) (blockCall m 3)
  rw [h.high.blockCall_eq h.nextVirtAddr, heapPage_zero] at hexec ⊢
  have hlevels : (⟨true, heapStart, 512 * b * 4096, 3⟩ : MapCall).levels = [3, 2] := rfl
  rw [hlevels] at hexec
  rw [hexec, ← hpml4e]
  refine (mem_setEntry _ _ _ _ _ _).trans (if_neg fun heq => ?_)
  rw [htable, physAddrToIndex_frame] at heq
  omega

/-- The page is served, and its zero-fill leaves it unmapped. -/
theorem unmapped : (vmmAllocHugePage m 1 3).2.Served ∧
    hwWalk (vmmAllocHugePage m 1 3).2 heapStart = none := by
  have hlt := h.high.lt
  have hmapped := h.mapped
  have hentry := h.entry_exec
  have hserved := (h.stocked.exec (blockCall m 3)).served
  have hstep := allocHugeStep_eq m 3
  have hlog := allocHugeStep_log m 3
  obtain ⟨fl, hwalk⟩ := h.hwWalk_exec
  generalize (blockCall m 3).exec (withBlock m) = E at *
  have hpml4 : E.pml4Phys = m.pml4Phys := hmapped.pml4Phys
  have hnext : E.nextVirtAddr = heapStart :=
    hmapped.nextVirtAddr.trans (h.nextVirtAddr.trans heapPage_zero)
  have hroot : physAddrToIndex E.pml4Phys ≠ 512 * b := hpml4.symm ▸ h.root.ne
  have hclear := @clearMapped_of_own E (512 * b) fl (by omega) hroot (hpml4.symm ▸ hentry) hwalk
    511 (by omega)
  have hnone := hwWalk_clearFrame (by omega) hroot (hpml4.symm ▸ hentry) (Nat.zero_lt_succ 511)
  rw [vmmAllocHugePage_one h.nextVirtAddr (Nat.zero_le _)]
  constructor
  · intro e he
    rw [hlog] at he
    rcases List.mem_append.mp he with he | he
    · exact hserved e he
    · simp only [List.mem_cons, List.not_mem_nil, or_false] at he
      rcases he with rfl | rfl <;> trivial
  · rw [hnext, hclear] at hstep
    have hbetween : Between (E.clearFrame (4096 * (512 * b))) (allocHugeStep m 3) := by
      rw [hstep]
      exact ⟨rfl, fun _ _ => rfl⟩
    rw [hbetween.hwWalk_eq]
    have hstart : (heapStart + 4096 * 0) % 2 ^ 64 = heapStart := by norm_num [heapStart]
    rwa [hstart] at hnone

end OwnBlock

/-- Room for the bitmap only, and one block at 64 TiB. -/
def tightMap : List MemmapEntry :=
  [⟨0x3000, 0x80001000, .usable⟩, ⟨0x400000000000, 0x200000, .usable⟩]

theorem freeRange_tightMap : ∃ s, pmmInit tightMap (fun _ => 0) = some (pmmInitSuccess, s) ∧
    FreeRange s (2 ^ 34) (2 ^ 34 + 512) ∧ s.totalFrames = 2 ^ 34 + 512 := by
  obtain ⟨s, hs, hsize, htotal, hused⟩ :=
    @pmmInit_facts tightMap (fun _ => 0) (by decide) (by decide)
  rw [show bitmapSizeOf tightMap = 2 ^ 31 + 64 by decide] at hsize
  rw [show totalFramesOf tightMap = 2 ^ 34 + 512 by decide] at htotal
  have hfree : ∀ f < 2 ^ 34 + 512, s.used f = false ↔ 2 ^ 34 ≤ f := by
    intro f hf
    have hphys : bitmapPhysOf tightMap = 0x3000 := by decide
    have hsize : bitmapSizeOf tightMap = 2 ^ 31 + 64 := by decide
    rw [hused f (by omega), Storage, hphys, hsize, tightMap, listed_pair]
    simp only [Visits]
    omega
  refine ⟨s, hs, ⟨by omega, fun f hf => ?_, fun f hlo hhi => (hfree f hhi).mpr hlo, htotal.ge,
    by omega, by omega⟩, htotal⟩
  have hnot := mt (hfree f (by omega)).mp (by omega)
  simpa using hnot

/-- A small machine with the free frames of one such block. -/
theorem ownBlock_smallMachine {s : PmmContext} {b : ℕ}
    (hrange : FreeRange s (512 * b) (512 * b + 512)) (htotal : s.totalFrames ≤ 2 ^ 40)
    (hge : 2 ^ 31 ≤ 64 * b) (hlt : 64 * b < 2 ^ 32) :
    OwnBlock (smallMachine s) b ∧ FreshHeap (smallMachine s) := by
  obtain ⟨hempty, hclaimed, hstocked⟩ := hrange.smallMachine (by omega) (by omega) htotal
  have hblank : Blank paging (smallMachine s).mem (smallMachine s).root := blank_of_zero hempty
  have hsize := hrange.le_size
  have hnone : FreeRange s (512 * b) (512 * b) :=
    ⟨hrange.pos, hrange.below, fun f hlo hhi => absurd hhi (by omega),
      le_trans (by omega) hrange.le_total, by omega, by omega⟩
  have hfree : FreeGroup s b := ⟨by omega, fun f hlo hhi => hrange.free f hlo (by omega)⟩
  refine ⟨⟨⟨hclaimed, fun q hq => ?_, ⟨hstocked.served, _, _, hnone, by omega, fun f hf => ?_⟩, hfree,
    fun b' hb' hfree' => ?_, hge, hlt⟩, hrange, fun f j => rfl, ?_, heapPage_zero.symm⟩,
    freshHeap_smallMachine hempty hclaimed⟩
  · cases q with
    | nil => simp at hq
    | cons i q => exact hblank.follow_cons 3 i q
  · exact ⟨hf.1, hfree.free f hf.1 hf.2⟩
  · have htrue := hrange.below (512 * b') (by omega)
    have hfalse : s.used (512 * b') = false := hfree'.free (512 * b') le_rfl (by omega)
    rw [hfalse] at htrue
    exact Bool.false_ne_true htrue
  · simp only [smallMachine, physAddrToIndex]
    omega

end MathUnikernel.Vmm
