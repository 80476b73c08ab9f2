import MathUnikernel.Heap

/-!
# Emptying the heap

`vmm_reset_heap` walks the pages from `HEAP_START` to the cursor, frees the block it finds in each
slot and clears the slot.
-/

namespace MathUnikernel.Vmm
open Pmm RadixTree

theorem link_some {level entry f : ℕ} (h : paging.link level entry = some f) :
    physAddrToIndex (vmmGetAddr entry) = f := by
  simp only [paging] at h
  split_ifs at h
  exact Option.some.inj h

/-- The page directory that `vmm_reset_heap` reads through the PML4 and the PDPT. -/
theorem physAddrToIndex_of_table {m : Machine} {i j : Fin 512} {f : ℕ} (h : m.table [i, j] = some f) :
    physAddrToIndex (vmmGetAddr (m.entry (vmmGetAddr (m.entry m.pml4Phys i)) j)) = f := by
  rw [Machine.table, follow, Option.bind_eq_some_iff] at h
  obtain ⟨g, hg, h⟩ := h
  rw [follow, Option.bind_eq_some_iff] at h
  obtain ⟨g', hg', h⟩ := h
  obtain rfl : g' = f := Option.some.inj h
  have hpdpt : physAddrToIndex (vmmGetAddr (m.entry m.pml4Phys i)) = g := link_some hg
  rw [Machine.entry, hpdpt]
  exact link_some hg'

/-- The machine after one round: the block of page `k` is free and its slot is clear. -/
structure SlotCleared (m m' : Machine) (k b : ℕ) : Prop where
  pmm : m'.pmm = pmmFree2mb m.pmm (512 * b * 4096)
  nextVirtAddr : m'.nextVirtAddr = m.nextVirtAddr
  log : m'.log = m.log
  tree : m'.Tree
  table : ∀ q, m'.table q = m.table q
  leaf_self : ∀ q, slotTable k ++ [slotIndex k] <+: q → m'.leaf q = none
  leaf_other : ∀ q, ¬slotTable k ++ [slotIndex k] <+: q → m'.leaf q = m.leaf q
  entry_other : ∀ q f j, m.table q = some f → (q, j) ≠ (slotTable k, slotIndex k) →
    m'.mem f j = m.mem f j

theorem slotCleared_resetSlot {m : Machine} (htree : m.Tree) {k b : ℕ} (hs : HasSlot m k b) :
    SlotCleared m (resetSlot m (heapPage k)) k b := by
  obtain ⟨pd, hpd, -, hhuge, haddr⟩ := hs
  set pdpt := vmmGetAddr (m.entry m.pml4Phys (tableIndex (heapPage k) 3))
  set pdPhys := vmmGetAddr (m.entry pdpt (tableIndex (heapPage k) 2))
  have hframe : physAddrToIndex pdPhys = pd := physAddrToIndex_of_table hpd
  have hphys : vmmGetAddr (m.entry pdPhys (tableIndex (heapPage k) 1)) = 512 * b * 4096 := by
    rw [Machine.entry, hframe]
    exact haddr
  set freed : Machine := { m with pmm := pmmFree2mb m.pmm (512 * b * 4096) }
  have heq : resetSlot m (heapPage k) = freed.setEntry pdPhys (slotIndex k) 0 := by
    simp only [resetSlot]
    rw [hphys]
    rfl
  have hold : paging.link (3 - (slotTable k).length) (freed.entry pdPhys (slotIndex k)) = none := by
    refine link_huge ?_
    rw [Machine.entry, hframe]
    exact hhuge
  have hwrite := leafWrite_setEntry (m := freed) htree (hframe.symm ▸ hpd) hold
    (link_absent (by decide : 0 &&& vmmPresent = 0))
  rw [heq]
  refine ⟨rfl, rfl, rfl, hwrite.tree_after, hwrite.follow_eq, fun q hq => ?_, fun q hq => ?_,
    fun q f j hq hne => ?_⟩
  · refine (hwrite.find_of_prefix hq).trans ?_
    rw [setEntry_self]
    exact leaf_absent rfl
  · exact hwrite.find_of_not_prefix hq
  · refine (mem_setEntry freed pdPhys (slotIndex k) 0 f j).trans (if_neg ?_)
    intro hfj
    rw [hfj.1, hframe] at hq
    exact hne (by rw [htree q _ pd hq hpd, hfj.2])

/-- One round takes the first page off the heap. -/
theorem Heap.resetSlot {m : Machine} {kept : Set ℕ} {k b : ℕ} {blocks : List ℕ}
    (h : Heap m kept k (b :: blocks)) :
    Heap (resetSlot m (heapPage k)) kept (k + 1) blocks ∧
      SlotCleared m (Vmm.resetSlot m (heapPage k)) k b := by
  have hslot : HasSlot m k b := h.slot 0 b rfl
  have hcleared := slotCleared_resetSlot h.tree hslot
  have hmem : b ∈ b :: blocks := List.mem_cons_self
  obtain ⟨hlow, hsize⟩ := h.low b hmem
  obtain ⟨hnot, hnodup⟩ := List.nodup_cons.mp h.nodup
  have hle := h.le
  rw [List.length_cons] at hle
  refine ⟨⟨hcleared.tree, ?_, fun f ⟨q, hq⟩ => ?_, fun f => ?_, fun b' hb' => ?_, hnodup,
    fun b' hb' => ?_, by omega, fun j b' hj => ?_, fun i hi hk => ?_⟩, hcleared⟩
  · rw [hcleared.pmm, pmmFree2mb_totalFrames]
    exact h.totalFrames_le
  · exact h.tables f ⟨q, (hcleared.table q).symm.trans hq⟩
  · rw [hcleared.pmm, used_pmmFree2mb m.pmm hsize, Bool.and_eq_true, h.used f, Bool.not_eq_true',
      decide_eq_false_iff_not]
    have hkept : f ∈ block b → f ∉ kept := h.apart b hmem f
    have hother : f ∈ block b → ¬∃ b' ∈ blocks, f ∈ block b' := by
      intro hf ⟨b', hb', hf'⟩
      simp only [block, Set.mem_ofPred_eq] at hf hf'
      obtain rfl : b' = b := by omega
      exact hnot hb'
    simp only [List.mem_cons, exists_eq_or_imp]
    change _ ∧ f ∉ block b ↔ _
    generalize (∃ b' ∈ blocks, f ∈ block b') = inBlocks at hother ⊢
    tauto
  · exact h.apart b' (List.mem_cons_of_mem b hb')
  · rw [hcleared.pmm, pmmFree2mb_bitmapSize]
    exact h.low b' (List.mem_cons_of_mem b hb')
  · have hold := h.slot (j + 1) b' hj
    have hjlt : j < blocks.length := (List.getElem?_eq_some_iff.mp hj).1
    obtain ⟨pd, hpd, hrest⟩ := hold
    rw [Nat.add_assoc, Nat.add_comm 1 j]
    refine ⟨pd, (hcleared.table _).trans hpd, ?_⟩
    rwa [hcleared.entry_other _ pd _ hpd fun heq => ?_]
    obtain ⟨h1, h2⟩ := Prod.mk.inj heq
    have := @slot_inj (k + (j + 1)) k (by omega) (by omega) (by rw [h1, h2])
    omega
  · by_cases hik : i = k
    · subst hik
      refine ⟨?_, hcleared.leaf_self⟩
      obtain ⟨pd, hpd, -, hhuge, -⟩ := hslot
      rw [hcleared.table, Machine.table, follow_snoc]
      rw [Machine.table] at hpd
      rw [hpd]
      exact link_huge hhuge
    · have hold := h.vacant i hi (by rw [List.length_cons]; omega)
      refine ⟨(hcleared.table _).trans hold.table, fun q hq => ?_⟩
      refine (hcleared.leaf_other q fun hpre => hik ?_).trans (hold.leaf q hq)
      refine slot_inj hi (by omega) ?_
      have hlen : (slotTable i ++ [slotIndex i]).length ≤ (slotTable k ++ [slotIndex k]).length := by
        simp [slotTable]
      exact (List.prefix_of_prefix_length_le hq hpre hlen).eq_of_length (by simp [slotTable])

/-- What `vmm_reset_heap` leaves: an empty heap and the tables it found. -/
structure HeapEmptied (m m' : Machine) (kept : Set ℕ) : Prop where
  heap : Heap m' kept 0 []
  nextVirtAddr : m'.nextVirtAddr = heapStart
  log : m'.log = m.log
  table : ∀ q, m'.table q = m.table q

/-- The loop at the cursor. -/
theorem resetFrom_last {m : Machine} {k : ℕ} (hnext : m.nextVirtAddr = heapPage k) :
    resetFrom (heapPage k) m = some m := by
  rw [resetFrom, if_neg]
  rw [hnext]
  exact lt_irrefl _

/-- The loop at a page below the cursor. -/
theorem resetFrom_round {m : Machine} {k n : ℕ} (hnext : m.nextVirtAddr = heapPage (k + (n + 1)))
    (hle : k + (n + 1) ≤ heapPages) :
    resetFrom (heapPage k) m = resetFrom (heapPage (k + 1)) (resetSlot m (heapPage k)) ∧
      (resetSlot m (heapPage k)).nextVirtAddr = heapPage (k + 1 + n) := by
  have hstep : heapPage k + 0x200000 = heapPage (k + 1) := by
    simp only [heapPage]
    ring
  constructor
  · rw [resetFrom, if_pos, if_pos, hstep]
    · unfold heapPages at hle
      simp only [heapPage, heapStart]
      omega
    · rw [hnext]
      simp only [heapPage]
      omega
  · rw [Nat.add_right_comm, Nat.add_assoc]
    exact hnext

theorem Heap.resetFrom {m : Machine} {kept : Set ℕ} {k : ℕ} {blocks : List ℕ}
    (h : Heap m kept k blocks) (hnext : m.nextVirtAddr = heapPage (k + blocks.length)) :
    ∃ m', resetFrom (heapPage k) m = some m' ∧ Heap m' kept (k + blocks.length) [] ∧
      m'.log = m.log ∧ ∀ q, m'.table q = m.table q := by
  induction blocks generalizing m k with
  | nil => exact ⟨m, resetFrom_last hnext, h, rfl, fun _ => rfl⟩
  | cons b blocks ih =>
    obtain ⟨hheap, hcleared⟩ := h.resetSlot
    have hle := h.le
    rw [List.length_cons] at hnext hle
    obtain ⟨hround, hnext'⟩ := resetFrom_round hnext hle
    obtain ⟨m', hm', hheap', hlog, htable⟩ := ih hheap hnext'
    have hlen : k + (blocks.length + 1) = k + 1 + blocks.length := by ring
    exact ⟨m', hround.trans hm', by rwa [List.length_cons, hlen], hlog.trans hcleared.log,
      fun q => (htable q).trans (hcleared.table q)⟩

/-- With all pages gone the cursor can go back to the start. -/
theorem Heap.rewind {m : Machine} {kept : Set ℕ} {k : ℕ} (h : Heap m kept k []) :
    Heap { m with nextVirtAddr := heapStart } kept 0 [] := by
  have hvacant : ∀ i < heapPages, Vacant m i := fun i hi => h.vacant i hi (by
    simp only [List.length_nil]
    omega)
  exact ⟨h.tree, h.totalFrames_le, h.tables, h.used, by simp, List.nodup_nil, by simp,
    Nat.zero_le _, by simp, fun i hi _ => ⟨(hvacant i hi).table, (hvacant i hi).leaf⟩⟩

/-- `vmm_reset_heap` ends, and leaves an empty heap. -/
theorem Heap.vmmResetHeap {m : Machine} {kept : Set ℕ} {blocks : List ℕ}
    (h : Heap m kept 0 blocks) (hnext : m.nextVirtAddr = heapPage blocks.length) :
    ∃ m', vmmResetHeap m = some m' ∧ HeapEmptied m m' kept := by
  obtain ⟨m₁, hm₁, hheap, hlog, htable⟩ := h.resetFrom (by rwa [Nat.zero_add])
  rw [heapPage_zero] at hm₁
  exact ⟨{ m₁ with nextVirtAddr := heapStart }, by rw [Vmm.vmmResetHeap, hm₁]; rfl, hheap.rewind,
    rfl, hlog, htable⟩

end MathUnikernel.Vmm
