import MathUnikernel.BootFrames
import MathUnikernel.HeapHistories

/-!
# The kernel API table

`kernel_main` maps one more page after `vmm_init` and writes a table of function pointers to it.
-/

namespace MathUnikernel.Vmm
open Pmm RadixTree

/-! ## Words -/

/-- An aligned word stored through the page tables; a page fault stores nothing. -/
def Machine.storeWord (m : Machine) (virtAddr word : ℕ) : Machine :=
  match hwWalk m virtAddr with
  | some (physAddr, _) => m.setEntry physAddr (wordIndex physAddr) word
  | none => m

/-- The word at an aligned address; `none` for a page fault. -/
def Machine.readWord (m : Machine) (virtAddr : ℕ) : Option ℕ :=
  (hwWalk m virtAddr).map fun v => m.entry v.1 (wordIndex v.1)

def Machine.storeWords (m : Machine) (virtAddr : ℕ) : List ℕ → Machine
  | [] => m
  | word :: words => (m.storeWord virtAddr word).storeWords (virtAddr + 8) words

theorem readWord_of_walk {m : Machine} {virtAddr pa fl : ℕ}
    (hwalk : hwWalk m virtAddr = some (pa, fl)) :
    m.readWord virtAddr = some (m.entry pa (wordIndex pa)) := by
  rw [Machine.readWord, hwalk, Option.map_some]

theorem stored_storeWord (m : Machine) (virtAddr word : ℕ) :
    Stored m (m.storeWord virtAddr word) virtAddr := by
  unfold Machine.storeWord
  cases hwalk : hwWalk m virtAddr with
  | none => exact ⟨rfl, rfl, rfl, rfl, fun f _ => rfl⟩
  | some v =>
    refine ⟨rfl, rfl, rfl, rfl, fun f hf => ?_⟩
    exact Function.update_of_ne (hf v.1 v.2 hwalk).symm _ _

/-- The words from `k` on of a frame that no table lies in. -/
structure WordsAt (m : Machine) (virtAddr n f k : ℕ) : Prop where
  walk : ∀ i < n, ∃ fl, hwWalk m (virtAddr + 8 * i) = some (4096 * f + 8 * (k + i), fl)
  fits : k + n ≤ 512
  not_table : ¬m.IsTable f

theorem WordsAt.same {m m' : Machine} {virtAddr n f k : ℕ} (h : WordsAt m virtAddr n f k)
    (hs : Same m m') : WordsAt m' virtAddr n f k := by
  refine ⟨fun i hi => ?_, h.fits, fun htable => h.not_table ((hs.between.isTable f).mp htable)⟩
  rw [hs.between.hwWalk_eq]
  exact h.walk i hi

theorem WordsAt.tail {m : Machine} {virtAddr n f k : ℕ} (h : WordsAt m virtAddr (n + 1) f k) :
    WordsAt m (virtAddr + 8) n f (k + 1) := by
  have hfits := h.fits
  refine ⟨fun i hi => ?_, by omega, h.not_table⟩
  obtain ⟨fl, hwalk⟩ := h.walk (i + 1) (by omega)
  refine ⟨fl, ?_⟩
  rw [show virtAddr + 8 + 8 * i = virtAddr + 8 * (i + 1) by ring, hwalk,
    show k + (i + 1) = k + 1 + i by ring]

theorem wordIndex_eq {f k : ℕ} (hk : k < 512) : wordIndex (4096 * f + 8 * k) = ⟨k, hk⟩ := by
  apply Fin.ext
  simp only [wordIndex]
  omega

theorem physAddrToIndex_word {f k : ℕ} (hk : k < 512) : physAddrToIndex (4096 * f + 8 * k) = f := by
  unfold physAddrToIndex
  omega

/-- One store changes one word. -/
theorem WordsAt.storeWord {m : Machine} {virtAddr n f k : ℕ} (h : WordsAt m virtAddr (n + 1) f k)
    (word : ℕ) : Same m (m.storeWord virtAddr word) ∧
      ∀ j : Fin 512, (m.storeWord virtAddr word).mem f j = if j.val = k then word else m.mem f j := by
  have hfits := h.fits
  obtain ⟨fl, hwalk⟩ := h.walk 0 (Nat.succ_pos n)
  rw [Nat.mul_zero, Nat.add_zero, Nat.add_zero] at hwalk
  have hframe : physAddrToIndex (4096 * f + 8 * k) = f := physAddrToIndex_word (by omega)
  constructor
  · apply (stored_storeWord m virtAddr word).same
    intro pa fl' hwalk'
    obtain ⟨rfl, -⟩ := Prod.mk.inj (Option.some.inj (hwalk'.symm.trans hwalk))
    rw [hframe]
    exact h.not_table
  · intro j
    rw [Machine.storeWord, hwalk]
    simp only [mem_setEntry, hframe, wordIndex_eq (show k < 512 by omega), Fin.ext_iff, true_and]

/-- The stores of a list change the tables, the bitmap and the words before it as little. -/
theorem WordsAt.storeWords {words : List ℕ} {m : Machine} {virtAddr f k : ℕ}
    (h : WordsAt m virtAddr words.length f k) : Same m (m.storeWords virtAddr words) ∧
      (∀ j : Fin 512, j.val < k → (m.storeWords virtAddr words).mem f j = m.mem f j) ∧
      ∀ i word, words[i]? = some word → ∀ j : Fin 512, j.val = k + i →
        (m.storeWords virtAddr words).mem f j = word := by
  induction words generalizing m virtAddr k with
  | nil => exact ⟨.refl m, fun _ _ => rfl, fun i word hi => absurd hi (by simp)⟩
  | cons word words ih =>
    obtain ⟨hsame, hmem⟩ := h.storeWord word
    obtain ⟨hrest, hbefore, hwords⟩ := ih (h.tail.same hsame)
    refine ⟨hsame.trans hrest, fun j hj => ?_, fun i word' hi j hj => ?_⟩
    · rw [Machine.storeWords, hbefore j (by omega), hmem, if_neg (by omega)]
    · cases i with
      | zero =>
        rw [List.getElem?_cons_zero] at hi
        rw [Machine.storeWords, hbefore j (by omega), hmem, if_pos (by omega)]
        exact Option.some.inj hi
      | succ i => exact hwords i word' (by simpa using hi) j (by omega)

theorem WordsAt.readWord {m : Machine} {virtAddr n f k i : ℕ} (h : WordsAt m virtAddr n f k)
    (hi : i < n) : ∃ j : Fin 512, j.val = k + i ∧ m.readWord (virtAddr + 8 * i) = some (m.mem f j) := by
  have hfits := h.fits
  obtain ⟨fl, hwalk⟩ := h.walk i hi
  have hlt : k + i < 512 := by omega
  refine ⟨⟨k + i, hlt⟩, rfl, ?_⟩
  rw [readWord_of_walk hwalk, wordIndex_eq hlt, Machine.entry, physAddrToIndex_word hlt]

/-! ## `kernel_main` before its loop -/

def kernelApiAddress : ℕ := 0x10000000

/-- The call that maps the page of the table. -/
def apiCall : MapCall := ⟨false, kernelApiAddress, kernelApiAddress, vmmPresent ||| vmmWriteable⟩

/-- All mapping calls before the loop. -/
def kernelCalls (hhdmOffset : ℕ) (kernel : KernelAddress) (entries : List MemmapEntry) :
    List MapCall := bootCalls hhdmOffset kernel entries ++ [apiCall]

/-- Neither the direct map nor the kernel reaches into the 64 TiB from `HEAP_START` on. -/
structure HeapApart (hhdmOffset : ℕ) (kernel : KernelAddress) (entries : List MemmapEntry) : Prop where
  direct : Disjoint (span48 heapStart (2 ^ 46)) (span48 hhdmOffset (directEnd entries))
  kernel : Disjoint (span48 heapStart (2 ^ 46)) (span48 kernel.virtualBase (kernelSize entries))

/-- An address on page `i` of the heap. -/
theorem mem_span48_of_covers {i virtAddr : ℕ} (hi : i < heapPages)
    (h : (⟨true, heapPage i, 0, 0⟩ : MapCall).Covers virtAddr) :
    virtAddr % 2 ^ 48 ∈ span48 heapStart (2 ^ 46) := by
  unfold heapPages at hi
  simp only [MapCall.Covers, MapCall.size, if_true, heapPage, heapStart] at h
  refine ⟨i * 0x200000 + virtAddr % 0x200000, by omega, ?_⟩
  simp only [heapStart]
  omega

/-- No call before the loop is for an address of the heap. -/
theorem HeapApart.not_mem {hhdmOffset : ℕ} {kernel : KernelAddress} {entries : List MemmapEntry}
    (h : HeapApart hhdmOffset kernel entries) {c : MapCall}
    (hc : c ∈ kernelCalls hhdmOffset kernel entries) :
    c.virtAddr % 2 ^ 48 ∉ span48 heapStart (2 ^ 46) := by
  have hlow : ∀ v < 2 ^ 32, v % 2 ^ 48 ∉ span48 heapStart (2 ^ 46) := by
    intro v hv ⟨off, hoff, heq⟩
    simp only [heapStart] at heq
    omega
  rcases List.mem_append.mp hc with hc | hc
  · rcases List.mem_append.mp hc with hc | hc
    · rcases List.mem_append.mp hc with hc | hc
      · obtain ⟨k, hk, rfl⟩ := mem_rangeCalls.mp hc
        apply hlow
        dsimp only
        omega
      · obtain ⟨k, hk, rfl⟩ := mem_rangeCalls.mp hc
        intro hmem
        apply Set.disjoint_left.mp h.kernel hmem
        exact ⟨4096 * k, hk, by dsimp only; omega⟩
    · obtain ⟨e, he, hdirect, hc⟩ := mem_directCalls.mp hc
      obtain ⟨k, hk, rfl⟩ := mem_rangeCalls.mp hc
      have hend := le_directEnd he hdirect
      intro hmem
      apply Set.disjoint_left.mp h.direct hmem
      exact ⟨e.base + 4096 * k, by omega, by dsimp only; omega⟩
  · rw [List.mem_singleton.mp hc]
    exact hlow _ (by decide)

theorem HeapApart.vacant {hhdmOffset : ℕ} {kernel : KernelAddress} {entries : List MemmapEntry}
    (h : HeapApart hhdmOffset kernel entries) {s : PmmContext} {m : Machine}
    (hm : Booted s (kernelCalls hhdmOffset kernel entries) m) {i : ℕ} (hi : i < heapPages) :
    Vacant m i := by
  have hlen : (slotTable i ++ [slotIndex i]).length = 3 := by simp [slotTable]
  have hnone : m.table (slotTable i ++ [slotIndex i]) = none := by
    cases htable : m.table (slotTable i ++ [slotIndex i]) with
    | none => rfl
    | some f =>
      rcases mem_tablePaths.mp ((hm.table_iff _).mp ⟨f, htable⟩) with hnil | ⟨c, hc, hpre⟩
      · exact absurd (congrArg List.length hnil) (by simp)
      · have hself : c.path ++ [c.index] <+: pathOf c.virtAddr := (path_prefix_iff c _).mpr rfl
        have hslot := (hpre.trans (List.prefix_append _ _)).trans hself
        have hcov := (path_prefix_iff ⟨true, heapPage i, 0, 0⟩ _).mp hslot
        exact absurd (mem_span48_of_covers hi hcov) (h.not_mem hc)
  exact ⟨hnone, fun q hq => hm.paged.noHuge.leaf_none hlen.le hnone hq⟩

theorem Same.claimed {c m : Machine} (h : Same c m) (hc : Claimed c) : Claimed m :=
  ⟨h.between.tree hc.tree, fun f hf => h.pmm ▸ hc.used f ((h.between.isTable f).mp hf),
    h.pmm ▸ hc.totalFrames_le⟩

end MathUnikernel.Vmm
