import MathUnikernel.KernelFrames

/-!
# The kernel's memory in every run

Runs of the heap functions, of `pmm_alloc` and of workloads from the start of the loop of
`kernel_main` on.
-/

namespace MathUnikernel.Vmm
open Pmm RadixTree Runs

/-! ## Runs -/

inductive KernelAct
  | workload (act : WorkloadAct)
  | pmmAlloc

inductive KernelStep : Machine → KernelAct → Machine → Prop
  | workload {m m' : Machine} {act : WorkloadAct} :
      WorkloadStep m act m' → KernelStep m (.workload act) m'
  | pmmAlloc {m : Machine} : KernelStep m .pmmAlloc m.takeFrame

/-- The frames of the bitmap's storage. -/
def Machine.bitmapFrames (m : Machine) : Set ℕ :=
  {f | m.pmm.bitmapPhys < 4096 * f + 4096 ∧ 4096 * f < m.pmm.bitmapPhys + m.pmm.bitmapSize}

/-- The frames of the table of functions, of the page tables and of the bitmap. -/
def kernelFrames (m : Machine) : Set ℕ :=
  {f | f = physAddrToIndex kernelApiAddress ∨ m.IsTable f ∨ f ∈ m.bitmapFrames}

/-- The frames among them that the mapping functions have no business with. -/
def dataFrames (m : Machine) : Set ℕ :=
  {f | f = physAddrToIndex kernelApiAddress ∨ f ∈ m.bitmapFrames}

theorem dataFrames_subset (m : Machine) : dataFrames m ⊆ kernelFrames m :=
  fun _ hf => hf.imp_right Or.inr

/-- The state of the loop when it begins: the memory manager has none of the kernel's frames. -/
structure KernelStart (m : Machine) : Prop where
  fresh : FreshHeap m
  log : m.log = []
  kept : ∀ f ∈ kernelFrames m, f < 8 * m.pmm.bitmapSize → m.pmm.used f = true
  not_table : ∀ f ∈ dataFrames m, ¬m.IsTable f

/-- The invariant of the runs from `m₀`. -/
structure KernelInv (m₀ m : Machine) : Prop where
  guarded : Guarded (kernelFrames m₀) {f | m₀.IsTable f} m
  live : ∃ base blocks, Live m base blocks ∧ {f | m₀.pmm.used f = true} ⊆ base
  bitmapSize : m.pmm.bitmapSize = m₀.pmm.bitmapSize
  intact : ∀ f ∈ dataFrames m₀, Intact f m₀ m

theorem KernelStart.inv {m : Machine} (h : KernelStart m) : KernelInv m m := by
  have hnone : tableFrames m.log = ∅ := by
    rw [h.log]
    simp [tableFrames]
  refine ⟨⟨fun f hf hlt => ?_, fun before e hpre => ?_, ?_, fun f => ?_⟩,
    ⟨_, [], h.fresh.live, subset_rfl⟩, rfl, fun f _ => .refl f m⟩
  · rw [hnone, Set.union_empty] at hf
    exact h.kept f hf hlt
  · rw [h.log, List.prefix_nil] at hpre
    exact absurd hpre (by simp)
  · rw [hnone]
    exact Set.empty_disjoint _
  · rw [hnone]
    exact (or_iff_left id).symm

namespace KernelInv

variable {m₀ m : Machine}

/-- Neither the table of functions nor the bitmap becomes a page table. -/
theorem not_table (h0 : KernelStart m₀) (h : Guarded (kernelFrames m₀) {f | m₀.IsTable f} m) {f : ℕ}
    (hf : f ∈ dataFrames m₀) : ¬m.IsTable f := by
  intro htable
  rcases (h.tables f).mp htable with hold | hnew
  · exact h0.not_table f hf hold
  · exact Set.disjoint_left.mp h.apart hnew (dataFrames_subset m₀ hf)

/-- No frame of a heap page is one of the kernel's. -/
theorem not_block (h0 : KernelStart m₀) (hsize : m.pmm.bitmapSize = m₀.pmm.bitmapSize)
    {base : Set ℕ} {blocks : List ℕ} (hlive : Live m base blocks)
    (hbase : {f | m₀.pmm.used f = true} ⊆ base) {b f : ℕ} (hb : b ∈ blocks) (hf : f ∈ block b) :
    f ∉ kernelFrames m₀ := by
  intro hkernel
  obtain ⟨-, hle⟩ := hlive.heap.low b hb
  have hhi := hf.2
  rw [hsize] at hle
  exact hlive.heap.apart b hb f hf (.inl (hbase (h0.kept f hkernel (by omega))))

theorem iterate (h0 : KernelStart m₀) (h : KernelInv m₀ m) {flags : ℕ}
    (haddr : flags &&& vmmAddrMask = 0) (hlt : flags < 2 ^ 64) (n : ℕ)
    (hready : ((allocHugeStep · flags)^[n] m).Ready) :
    KernelInv m₀ ((allocHugeStep · flags)^[n] m) := by
  induction n with
  | zero => exact h
  | succ n ih =>
    rw [Function.iterate_succ_apply'] at hready ⊢
    obtain ⟨hguarded, ⟨base, blocks, hlive, hbase⟩, hsize, hintact⟩ :=
      ih (hready.of_prefix (log_allocHugeStep _ flags))
    obtain ⟨b, hnext⟩ := hlive.nextPage haddr hlt hready
    have hguarded' := hguarded.allocHugeStep hnext
    have hsize' := hnext.bitmapSize.trans hsize
    refine ⟨hguarded', ⟨base, blocks ++ [b], hnext.live, hbase⟩, hsize', fun f hf => ?_⟩
    apply (hintact f hf).trans
    apply hnext.intact
    · intro hblock
      exact not_block h0 hsize' hnext.live hbase (by simp) hblock (dataFrames_subset m₀ hf)
    · exact not_table h0 hguarded' hf

theorem reset (h0 : KernelStart m₀) (h : KernelInv m₀ m) {m' : Machine}
    (hm' : vmmResetHeap m = some m') : KernelInv m₀ m' := by
  obtain ⟨hguarded, ⟨base, blocks, hlive, hbase⟩, hsize, hintact⟩ := h
  obtain ⟨m'', hm'', hemptied, hlive'⟩ := hlive.vmmResetHeap
  obtain rfl := Option.some.inj (hm''.symm.trans hm')
  have hsize' : m''.pmm.bitmapSize = m₀.pmm.bitmapSize := (bitmapSize_vmmResetHeap hm').trans hsize
  refine ⟨⟨fun f hf hlt => ?_, ?_, ?_, fun f => ?_⟩, ⟨base, [], hlive', hbase⟩, hsize',
    fun f hf => (hintact f hf).trans (hlive.intact_vmmResetHeap (not_table h0 hguarded hf) hm')⟩
  · apply (hlive'.heap.used f).mpr
    rw [hemptied.log] at hf
    rw [hsize'] at hlt
    rcases hf with hf | hf
    · exact .inl (.inl (hbase (h0.kept f hf hlt)))
    · exact .inl (.inr ((hemptied.isTable f).mpr ((hguarded.tables f).mpr (.inr hf))))
  · exact hemptied.log ▸ hguarded.spared
  · exact hemptied.log ▸ hguarded.apart
  · rw [hemptied.isTable, hemptied.log]
    exact hguarded.tables f

theorem store (h0 : KernelStart m₀) (h : KernelInv m₀ m) {virtAddr : ℕ} (byte : UInt8)
    (hlo : heapStart ≤ virtAddr) (hhi : virtAddr < m.nextVirtAddr) :
    KernelInv m₀ (m.storeByte virtAddr byte) := by
  obtain ⟨hguarded, ⟨base, blocks, hlive, hbase⟩, hsize, hintact⟩ := h
  have hsame := hlive.store byte hlo hhi
  refine ⟨hguarded.congr hsame.pmm hsame.log hsame.between.isTable,
    ⟨base, blocks, hsame.live hlive, hbase⟩, hsame.pmm.symm ▸ hsize, fun f hf => ?_⟩
  apply (hintact f hf).trans
  refine ⟨fun va _ => congrFun hsame.between.hwWalk_eq va, ?_⟩
  apply (stored_storeByte m virtAddr byte).rest
  intro pa fl hwalk hpa
  obtain ⟨i, hi, off, hoff, rfl⟩ := exists_heapPage hlo (hlive.nextVirtAddr ▸ hhi)
  obtain ⟨fl', hwalk'⟩ := hlive.walk (List.getElem?_eq_getElem hi) hoff
  obtain ⟨rfl, -⟩ := Prod.mk.inj (Option.some.inj (hwalk.symm.trans hwalk'))
  apply not_block h0 hsize hlive hbase (List.getElem_mem hi) (mem_block_of_offset hoff)
  rw [hpa]
  exact dataFrames_subset m₀ hf

theorem takeFrame (h : KernelInv m₀ m) : KernelInv m₀ m.takeFrame := by
  obtain ⟨hguarded, ⟨base, blocks, hlive, hbase⟩, hsize, hintact⟩ := h
  have hT := hlive.heap.totalFrames_le
  obtain ⟨base', hsub, hlive'⟩ := hlive.takeFrame
  exact ⟨hguarded.takeFrame (by omega), ⟨base', blocks, hlive', hbase.trans hsub⟩,
    (pmmAlloc_bitmapSize m.pmm).trans hsize, fun f hf => (hintact f hf).trans ⟨fun _ _ => rfl, rfl⟩⟩

theorem step (h0 : KernelStart m₀) (h : KernelInv m₀ m) {act : KernelAct} {m' : Machine}
    (hstep : KernelStep m act m') (hready : m'.Ready) : KernelInv m₀ m' := by
  cases hstep with
  | pmmAlloc => exact h.takeFrame
  | workload hstep =>
    cases hstep with
    | @alloc n flags haddr hlt =>
      obtain ⟨base, blocks, hlive, -⟩ := h.live
      have hle := hlive.heap.le
      rw [Nat.zero_add] at hle
      rw [vmmAllocHugePage_eq hlive.nextVirtAddr hle] at hready ⊢
      exact h.iterate h0 haddr hlt n hready
    | reset hm' => exact h.reset h0 hm'
    | store hlo hhi => exact h.store h0 _ hlo hhi

end KernelInv

/-- The tables are in frames that `pmm_init` left free. -/
theorem Booted.listed {s : PmmContext} {calls : List MapCall} {m : Machine} (hm : Booted s calls m)
    {entries : List MemmapEntry} {bytes : ℕ → UInt8} {r : ℕ}
    (hs : pmmInit entries bytes = some (r, s)) {f : ℕ} (hf : m.IsTable f) :
    Listed entries f ∧ ¬Storage entries f := by
  have hfree := hm.free f hf
  rcases hm.taken.taken f (hm.paged.claimed.used f hf) with hused | ⟨-, hlt⟩
  · rw [hfree] at hused
    exact absurd hused (by simp)
  · exact (used_pmmInit hs hlt).mp hfree

/-- What is not free after `pmm_init` never will be. -/
theorem Booted.kept {s : PmmContext} {calls : List MapCall} {m : Machine} (hm : Booted s calls m)
    {entries : List MemmapEntry} {bytes : ℕ → UInt8} {r : ℕ}
    (hs : pmmInit entries bytes = some (r, s)) {f : ℕ} (hf : ¬(Listed entries f ∧ ¬Storage entries f))
    (hlt : f < 8 * m.pmm.bitmapSize) : m.pmm.used f = true := by
  rw [hm.taken.bitmapSize] at hlt
  apply hm.taken.kept
  by_contra hfree
  exact hf ((used_pmmInit hs hlt).mp (by simpa using hfree))

/-- The bitmap's frames are those `pmm_init` claimed for it. -/
theorem Booted.storage {s : PmmContext} {calls : List MapCall} {m : Machine} (hm : Booted s calls m)
    {entries : List MemmapEntry} (hconf : Conformant entries) (hroom : HasRoom entries)
    {bytes : ℕ → UInt8} {r : ℕ} (hs : pmmInit entries bytes = some (r, s)) {m₀ : Machine}
    (hpmm : m₀.pmm = m.pmm) {f : ℕ} (hf : f ∈ m₀.bitmapFrames) : Storage entries f := by
  obtain ⟨hlo, hhi⟩ := hf
  have hsized := pmmInit_sized hs
  rw [hpmm, hm.taken.bitmapPhys, hsized.bitmapPhys] at hlo hhi
  rw [hm.taken.bitmapSize, hsized.bitmapSize] at hhi
  exact (hconf.storage_iff hroom f).mpr ⟨hlo, hhi⟩

/-- One page of the heap, when a block and three more frames are free. -/
theorem ready_of_clearCount {m : Machine} {b flags : ℕ} (hclaimed : Claimed m) (hready : m.Ready)
    (hzero : m.pmm.used 0 = true) (hsize : m.pmm.totalFrames ≤ 8 * m.pmm.bitmapSize)
    (hfree : FreeGroup m.pmm b) (hfirst : ∀ b' < b, ¬FreeGroup m.pmm b') (hpos : 0 < b)
    (hb : b < heapPages) (hclear : 3 ≤ clearCount (withBlock m).pmm) :
    (allocHugeStep m flags).Ready := by
  unfold heapPages at hb
  have hresult : (pmmAlloc2mb m.pmm).1 = 512 * b * 4096 := by
    rw [pmmAlloc2mb_of_first hfree hfirst, indexToPhysAddr_of_lt (by omega)]
  have hused : ∀ f, m.pmm.used f = true → (withBlock m).pmm.used f = true := by
    intro f hf
    change (pmmAlloc2mb m.pmm).2.used f = true
    rw [used_pmmAlloc2mb hfree hfirst (by omega), hf, Bool.true_or]
  have hclaimed' : Claimed (withBlock m) :=
    ⟨hclaimed.tree, fun f hf => hused f (hclaimed.used f hf),
      (pmmAlloc2mb_totalFrames m.pmm).trans_le hclaimed.totalFrames_le⟩
  have hblock : HasBlock m.pmm := by
    refine ⟨b, hfree, hfirst, ?_⟩
    rw [indexToPhysAddr_of_lt (by omega)]
    omega
  have hserved : (withBlock m).Served := by
    intro e he
    rcases List.mem_append.mp he with he | he
    · exact hready.served e he
    · exact List.mem_singleton.mp he ▸ hblock
  -- the tables on the way to the page are at most two, besides the PML4
  have haffords : Affords (withBlock m) (blockCall m flags).path.inits.toFinset := by
    refine ⟨?_, ?_⟩
    · exact (pmmAlloc2mb_totalFrames m.pmm).trans_le
        (hsize.trans_eq (congrArg (8 * ·) (pmmAlloc2mb_bitmapSize m.pmm).symm))
    · apply (Finset.card_filter_le _ _).trans
      apply (List.toFinset_card_le _).trans
      rw [List.length_inits]
      exact hclear
  obtain ⟨-, hanswered⟩ := haffords.descend (p := []) hclaimed' (hused 0 hzero) rfl
    (levels_target (blockCall m flags)) (leaf_of_short _ le_rfl)
    (fun q hq => List.mem_toFinset.mpr ((List.mem_inits _ _).mpr hq))
    fun s hs => (hserved (.alloc s) hs).imp fun _ h => h.1
  refine ⟨fun e he => ?_, fun s hs => ?_⟩
  · rw [allocHugeStep_log] at he
    rcases List.mem_append.mp he with he | he
    · cases e with
      | alloc s =>
        rw [exec_eq] at he
        rcases asked_of_mem_descend he with hold | hasked
        · exact hserved _ hold
        · obtain ⟨f, hf⟩ := hanswered s he
          have hlt := hf.lt_total
          rw [hasked.totalFrames] at hlt
          have hT := hclaimed'.totalFrames_le
          refine ⟨f, hf, ?_⟩
          rw [indexToPhysAddr_of_lt (by omega)]
          intro hf0
          obtain rfl : f = 0 := by omega
          have hnot := hasked.used 0 (hused 0 hzero)
          rw [hf.free] at hnot
          exact Bool.false_ne_true hnot
      | alloc2mb s => exact hserved _ (alloc2mb_mem_exec he)
      | table p => trivial
      | leaf p => trivial
      | zero p => trivial
    · simp only [List.mem_cons, List.not_mem_nil, or_false] at he
      rcases he with rfl | rfl <;> trivial
  · rw [allocHugeStep_log] at hs
    rcases List.mem_append.mp hs with hs | hs
    · rcases List.mem_append.mp (alloc2mb_mem_exec hs) with hold | hnew
      · exact hready.low s hold
      · obtain rfl : s = m.pmm := by simpa using hnew
        exact ⟨b, hb, hfree⟩
    · simp at hs

/-- The state at the start of the loop: the first request for a block gets `b`. -/
structure BlockFirst (b : ℕ) (m : Machine) : Prop where
  fresh : FreshHeap m
  log : m.log = []
  group : FreeGroup m.pmm b
  first : ∀ b' < b, ¬FreeGroup m.pmm b'
  zero : m.pmm.used 0 = true
  size : m.pmm.totalFrames ≤ 8 * m.pmm.bitmapSize
  clear : 3 ≤ clearCount (withBlock m).pmm

/-- One page of the heap. -/
theorem BlockFirst.run {b : ℕ} {m : Machine} (h : BlockFirst b m) (hpos : 0 < b)
    (hb : b < heapPages) : ∃ tr m', Run KernelStep m tr m' ∧ tr ≠ [] ∧ m'.Ready ∧
      [.alloc2mb m.pmm] <+: m'.log ∧ (pmmAlloc2mb m.pmm).1 = 512 * b * 4096 := by
  have hstart : m.Ready := by
    constructor
    · intro e he
      rw [h.log] at he
      exact absurd he List.not_mem_nil
    · intro s hs
      rw [h.log] at hs
      exact absurd hs List.not_mem_nil
  have hready := @ready_of_clearCount m b 3 h.fresh.claimed hstart h.zero h.size h.group h.first
    hpos hb h.clear
  have hnext : m.nextVirtAddr = heapPage 0 := by
    rw [heapPage, Nat.zero_mul, Nat.add_zero]
    exact h.fresh.nextVirtAddr
  have hstep : WorkloadStep m (.call (.alloc 1 3)) (vmmAllocHugePage m 1 3).2 :=
    .alloc (by decide) (by norm_num)
  rw [vmmAllocHugePage_one hnext (Nat.zero_le _)] at hstep
  have hlog := withBlock_log_le m 3
  unfold heapPages at hb
  refine ⟨_, _, Run.nil.snoc (.workload hstep), by simp, hready, ?_, ?_⟩
  · change m.log ++ [.alloc2mb m.pmm] <+: _ at hlog
    rwa [h.log] at hlog
  · rw [pmmAlloc2mb_of_first h.group h.first, indexToPhysAddr_of_lt (by omega)]

end MathUnikernel.Vmm
