import MathUnikernel.Library.Runs
import MathUnikernel.HeapReset

/-!
# Sessions of the heap

Runs of `vmm_alloc_huge_page` and `vmm_reset_heap`, in any order.
-/

namespace MathUnikernel.Vmm
open Pmm RadixTree Runs ByteBitmap

/-! ## Allocating pages -/

/-- The heap holds the given blocks from its first page on, and the frames in use besides them are
those of `base` and of the tables. -/
structure Live (m : Machine) (base : Set ℕ) (blocks : List ℕ) : Prop where
  heap : Heap m (base ∪ {f | m.IsTable f}) 0 blocks
  nextVirtAddr : m.nextVirtAddr = heapPage blocks.length

/-- Every request so far was served, and every request for a block with one below byte `2 ^ 31`. -/
structure Machine.Ready (m : Machine) : Prop where
  served : m.Served
  low : ∀ s, .alloc2mb s ∈ m.log → HasLowBlock s

theorem Machine.Ready.of_prefix {m m' : Machine} (h : m'.Ready) (hp : m.log <+: m'.log) : m.Ready :=
  ⟨h.served.of_prefix hp, fun s hs => h.low s (hp.subset hs)⟩

/-- What is left in place when pages are added. -/
structure Extends (m m' : Machine) (lo hi : ℕ) : Prop where
  table : ∀ q f, m.table q = some f → m'.table q = some f
  same_tables : (∀ i, lo ≤ i → i < hi → ∃ pd, m.table (slotTable i) = some pd) →
    ∀ f, m'.IsTable f → m.IsTable f

theorem log_allocHugeStep (m : Machine) (flags : ℕ) : m.log <+: (allocHugeStep m flags).log :=
  (List.prefix_append _ _).trans (withBlock_log_le m flags)

/-- The next step of a live heap, if its requests are served with a low block. -/
theorem Live.nextPage {m : Machine} {base : Set ℕ} {blocks : List ℕ} {flags : ℕ}
    (h : Live m base blocks) (haddr : flags &&& vmmAddrMask = 0) (hlt : flags < 2 ^ 64)
    (hready : (Vmm.allocHugeStep m flags).Ready) :
    ∃ b, NextPage m (base ∪ {f | m.IsTable f}) blocks flags b := by
  have hmem : .alloc2mb m.pmm ∈ (Vmm.allocHugeStep m flags).log :=
    (withBlock_log_le m flags).subset (List.mem_append_right _ (List.mem_singleton.mpr rfl))
  obtain ⟨b, hfree, hb, hresult, hused⟩ :=
    pmmAlloc2mb_of_low (hready.served (.alloc2mb m.pmm) hmem) (hready.low m.pmm hmem)
  exact ⟨b, h.heap, h.nextVirtAddr, haddr, hlt, hready.served, hfree, hb, hresult, hused⟩

theorem NextPage.live {m : Machine} {base : Set ℕ} {blocks : List ℕ} {flags b : ℕ}
    (h : NextPage m (base ∪ {f | m.IsTable f}) blocks flags b) :
    Live (Vmm.allocHugeStep m flags) base (blocks ++ [b]) := by
  have hadded := h.pageAdded
  have hset : base ∪ {f | m.IsTable f} ∪ {f | (Vmm.allocHugeStep m flags).IsTable f} =
      base ∪ {f | (Vmm.allocHugeStep m flags).IsTable f} := by
    rw [Set.union_assoc]
    congr 1
    refine Set.union_eq_right.mpr fun f ⟨q, hq⟩ => ⟨q, hadded.table q f hq⟩
  refine ⟨?_, ?_⟩
  · rw [← hset]
    exact hadded.heap
  · rw [hadded.nextVirtAddr, List.length_append, List.length_singleton]

theorem Live.allocHugeStep {m : Machine} {base : Set ℕ} {blocks : List ℕ} {flags : ℕ}
    (h : Live m base blocks) (haddr : flags &&& vmmAddrMask = 0) (hlt : flags < 2 ^ 64)
    (hready : (allocHugeStep m flags).Ready) :
    ∃ b, Live (Vmm.allocHugeStep m flags) base (blocks ++ [b]) ∧
      PageAdded m (Vmm.allocHugeStep m flags) (base ∪ {f | m.IsTable f}) blocks b := by
  obtain ⟨b, hnext⟩ := h.nextPage haddr hlt hready
  exact ⟨b, hnext.live, hnext.pageAdded⟩

/-- The loop of `vmm_alloc_huge_page`. -/
theorem Live.iterate {m : Machine} {base : Set ℕ} {blocks : List ℕ} {flags : ℕ}
    (h : Live m base blocks) (haddr : flags &&& vmmAddrMask = 0) (hlt : flags < 2 ^ 64) (n : ℕ)
    (hready : ((Vmm.allocHugeStep · flags)^[n] m).Ready) :
    ∃ new : List ℕ, new.length = n ∧ Live ((Vmm.allocHugeStep · flags)^[n] m) base (blocks ++ new) ∧
      Extends m ((Vmm.allocHugeStep · flags)^[n] m) blocks.length (blocks.length + n) := by
  induction n with
  | zero =>
    exact ⟨[], rfl, by rwa [List.append_nil], ⟨fun _ _ h => h, fun _ _ h => h⟩⟩
  | succ n ih =>
    rw [Function.iterate_succ_apply'] at hready ⊢
    obtain ⟨new, hlen, hlive, hext⟩ := ih (hready.of_prefix (log_allocHugeStep _ flags))
    obtain ⟨b, hlive', hadded⟩ := hlive.allocHugeStep haddr hlt hready
    refine ⟨new ++ [b], by simp [hlen], by rwa [← List.append_assoc], ?_, fun hpd f hf => ?_⟩
    · exact fun q f hq => hadded.table q f (hext.table q f hq)
    · refine hext.same_tables (fun i hlo hhi => hpd i hlo (by omega)) f ?_
      refine hadded.same_tables ?_ f hf
      obtain ⟨pd, hpd'⟩ := hpd (blocks.length + n) (by omega) (by omega)
      rw [List.length_append, hlen]
      exact ⟨pd, hext.table _ pd hpd'⟩

/-- The cursor of a live heap is aligned. -/
theorem align_heapPage {k : ℕ} (hk : k ≤ heapPages) :
    (heapPage k + 0x1fffff) % 2 ^ 64 &&& 0xffffffffffe00000 = heapPage k := by
  unfold heapPages at hk
  rw [show (0xffffffffffe00000 : ℕ) = (2 ^ 43 - 1) <<< 21 from rfl, and_field]
  simp only [heapPage, heapStart]
  omega

/-- From such a cursor `vmm_alloc_huge_page` starts where the cursor is. -/
theorem vmmAllocHugePage_eq {m : Machine} {k : ℕ} (h : m.nextVirtAddr = heapPage k)
    (hk : k ≤ heapPages) (n flags : ℕ) :
    vmmAllocHugePage m n flags = (m.nextVirtAddr, (allocHugeStep · flags)^[n] m) := by
  have halign : (m.nextVirtAddr + 0x1fffff) % 2 ^ 64 &&& 0xffffffffffe00000 = m.nextVirtAddr := by
    rw [h, align_heapPage hk]
  rw [vmmAllocHugePage]
  simp only [halign]

/-- `vmm_alloc_huge_page` on a live heap. -/
theorem Live.vmmAllocHugePage {m : Machine} {base : Set ℕ} {blocks : List ℕ} {n flags : ℕ}
    (h : Live m base blocks) (haddr : flags &&& vmmAddrMask = 0) (hlt : flags < 2 ^ 64)
    (hready : (vmmAllocHugePage m n flags).2.Ready) :
    (vmmAllocHugePage m n flags).1 = heapPage blocks.length ∧
      ∃ new : List ℕ, new.length = n ∧
        Live (Vmm.vmmAllocHugePage m n flags).2 base (blocks ++ new) ∧
        Extends m (Vmm.vmmAllocHugePage m n flags).2 blocks.length (blocks.length + n) := by
  have hle := h.heap.le
  rw [Nat.zero_add] at hle
  rw [vmmAllocHugePage_eq h.nextVirtAddr hle] at hready ⊢
  exact ⟨h.nextVirtAddr, h.iterate haddr hlt n hready⟩

theorem HeapEmptied.isTable {m m' : Machine} {kept : Set ℕ} (h : HeapEmptied m m' kept) (f : ℕ) :
    m'.IsTable f ↔ m.IsTable f := exists_congr fun q => by rw [h.table]

/-- `vmm_reset_heap` on a live heap. -/
theorem Live.vmmResetHeap {m : Machine} {base : Set ℕ} {blocks : List ℕ} (h : Live m base blocks) :
    ∃ m', vmmResetHeap m = some m' ∧ HeapEmptied m m' (base ∪ {f | m.IsTable f}) ∧
      Live m' base [] := by
  obtain ⟨m', hm', hemptied⟩ := h.heap.vmmResetHeap h.nextVirtAddr
  have hset : {f | m.IsTable f} = {f | m'.IsTable f} := by
    ext f
    exact (hemptied.isTable f).symm
  refine ⟨m', hm', hemptied, hset ▸ hemptied.heap, ?_⟩
  rw [hemptied.nextVirtAddr]
  simp [heapPage]

/-! ## Runs -/

inductive HeapCall
  | alloc (numPages flags : ℕ)
  | reset

/-- The machine, the largest extent in pages of the sessions so far ended, and the bitmap the
current session began with. -/
structure Sessions where
  m : Machine
  covered : ℕ
  began : Bitmap

/-- The pages between `HEAP_START` and the cursor. -/
def extent (m : Machine) : ℕ := (m.nextVirtAddr - heapStart) / 0x200000

/-- One call, with flags outside the address field. -/
inductive HeapStep : Sessions → HeapCall → Sessions → Prop
  | alloc {w : Sessions} {numPages flags : ℕ} :
      flags &&& vmmAddrMask = 0 → flags < 2 ^ 64 →
      HeapStep w (.alloc numPages flags) { w with m := (vmmAllocHugePage w.m numPages flags).2 }
  | reset {w : Sessions} {m' : Machine} :
      vmmResetHeap w.m = some m' →
      HeapStep w .reset ⟨m', max w.covered (extent w.m), m'.pmm.bitmap⟩

/-- Nothing is mapped in the 64 TiB from `HEAP_START` on, and the bitmap has all tables in use. -/
structure FreshHeap (m : Machine) : Prop where
  claimed : Claimed m
  nextVirtAddr : m.nextVirtAddr = heapStart
  vacant : ∀ i < heapPages, Vacant m i

/-- Region `r` of `n` pages: aligned, from the old cursor to the new one.  The pages of the heap,
the new ones among them, are mapped to distinct blocks that no table lies in. -/
structure AllocOk (m : Machine) (n r : ℕ) (m' : Machine) : Prop where
  aligned : r % 0x200000 = 0
  start : r = m.nextVirtAddr
  cursor : m'.nextVirtAddr = r + n * 0x200000
  pages : ∃ blocks : List ℕ, blocks.Nodup ∧ m'.nextVirtAddr = heapPage blocks.length ∧
    (∀ i b, blocks[i]? = some b → ∀ off < 0x200000,
      ∃ fl, hwWalk m' (heapPage i + off) = some (512 * b * 4096 + off, fl)) ∧
    ∀ b ∈ blocks, ∀ f ∈ block b, ¬m'.IsTable f

/-- After a reset the cursor is at `HEAP_START`, nothing is mapped from there on, and the bitmap is
the first one with the tables added since; a session no larger than an earlier one left no trace. -/
structure ResetOk (m₀ : Machine) (w : Sessions) (m' : Machine) : Prop where
  cursor : m'.nextVirtAddr = heapStart
  unmapped : ∀ i < heapPages, ∀ off < 0x200000, hwWalk m' (heapPage i + off) = none
  used : ∀ f, m'.pmm.used f = true ↔
    m₀.pmm.used f = true ∨ (m'.IsTable f ∧ ¬m₀.IsTable f)
  same : extent w.m ≤ w.covered → m'.pmm.bitmap = w.began

/-- The invariant of the runs.  `tables` are the tables when the current session began. -/
structure SessionInv (m₀ : Machine) (w : Sessions) (blocks : List ℕ) (tables : Set ℕ) : Prop where
  live : Live w.m {f | m₀.pmm.used f = true} blocks
  old_tables : ∀ f, m₀.IsTable f → w.m.IsTable f
  covered : ∀ i < w.covered, ∃ pd, w.m.table (slotTable i) = some pd
  began : ∀ f, getBit w.began f = true ↔ m₀.pmm.used f = true ∨ f ∈ tables
  tables_sub : ∀ f ∈ tables, w.m.IsTable f
  no_more : blocks.length ≤ w.covered → ∀ f, w.m.IsTable f → f ∈ tables

theorem Live.extent {m : Machine} {base : Set ℕ} {blocks : List ℕ} (h : Live m base blocks) :
    extent m = blocks.length := by
  rw [Vmm.extent, h.nextVirtAddr]
  simp only [heapPage]
  omega

theorem FreshHeap.live {m : Machine} (h : FreshHeap m) :
    Live m {f | m.pmm.used f = true} [] := by
  have hset : {f | m.pmm.used f = true} ∪ {f | m.IsTable f} = {f | m.pmm.used f = true} :=
    Set.union_eq_left.mpr fun f hf => h.claimed.used f hf
  refine ⟨?_, by rw [h.nextVirtAddr]; simp [heapPage]⟩
  rw [hset]
  exact ⟨h.claimed.tree, h.claimed.totalFrames_le, h.claimed.used, by simp, by simp, List.nodup_nil,
    by simp, Nat.zero_le _, by simp, fun i hi _ => h.vacant i hi⟩

theorem FreshHeap.inv {m : Machine} (h : FreshHeap m) :
    SessionInv m ⟨m, 0, m.pmm.bitmap⟩ [] {f | m.IsTable f} := by
  refine ⟨h.live, fun f hf => hf, fun i hi => absurd hi (Nat.not_lt_zero i), fun f => ?_,
    fun f hf => hf, fun _ f hf => hf⟩
  have hused := h.claimed.used f
  simp only [Set.mem_ofPred_eq]
  tauto

/-- Adding pages keeps the invariant. -/
theorem SessionInv.alloc {m₀ : Machine} {w : Sessions} {blocks : List ℕ} {tables : Set ℕ}
    (h : SessionInv m₀ w blocks tables) {n flags : ℕ} (haddr : flags &&& vmmAddrMask = 0)
    (hlt : flags < 2 ^ 64) (hready : (vmmAllocHugePage w.m n flags).2.Ready) :
    ∃ new : List ℕ, new.length = n ∧
      SessionInv m₀ { w with m := (vmmAllocHugePage w.m n flags).2 } (blocks ++ new) tables ∧
      (vmmAllocHugePage w.m n flags).1 = heapPage blocks.length := by
  obtain ⟨hfst, new, hlen, hlive, hext⟩ := h.live.vmmAllocHugePage haddr hlt hready
  refine ⟨new, hlen, ⟨hlive, fun f hf => ?_, fun i hi => ?_, h.began, fun f hf => ?_,
    fun hle f hf => ?_⟩, hfst⟩
  · obtain ⟨q, hq⟩ := h.old_tables f hf
    exact ⟨q, hext.table q f hq⟩
  · obtain ⟨pd, hpd⟩ := h.covered i hi
    exact ⟨pd, hext.table _ pd hpd⟩
  · obtain ⟨q, hq⟩ := h.tables_sub f hf
    exact ⟨q, hext.table q f hq⟩
  · have hle' : blocks.length + n ≤ w.covered := by simpa [hlen] using hle
    refine h.no_more (by omega) f (hext.same_tables (fun i hlo hhi => ?_) f hf)
    exact h.covered i (by omega)

theorem SessionInv.allocOk {m₀ : Machine} {w : Sessions} {blocks : List ℕ} {tables : Set ℕ}
    (h : SessionInv m₀ w blocks tables) {n flags : ℕ} (haddr : flags &&& vmmAddrMask = 0)
    (hlt : flags < 2 ^ 64) (hready : (vmmAllocHugePage w.m n flags).2.Ready) :
    AllocOk w.m n (vmmAllocHugePage w.m n flags).1 (vmmAllocHugePage w.m n flags).2 := by
  obtain ⟨new, hlen, hinv, hfst⟩ := h.alloc haddr hlt hready
  have hnext := hinv.live.nextVirtAddr
  refine ⟨?_, ?_, ?_, blocks ++ new, hinv.live.heap.nodup, hnext, fun i b hi off hoff => ?_,
    fun b hb f hf htable => ?_⟩
  · rw [hfst]
    simp only [heapPage, heapStart]
    omega
  · rw [hfst, h.live.nextVirtAddr]
  · rw [hnext, hfst, List.length_append, hlen]
    simp only [heapPage]
    ring
  · have hslot := hinv.live.heap.slot i b hi
    rw [Nat.zero_add] at hslot
    exact hslot.hwWalk hoff
  · exact hinv.live.heap.apart b hb f hf (.inr htable)

/-- A reset ends, keeps the invariant and does what it should. -/
theorem SessionInv.reset {m₀ : Machine} (h0 : FreshHeap m₀) {w : Sessions} {blocks : List ℕ}
    {tables : Set ℕ} (h : SessionInv m₀ w blocks tables) :
    ∃ m', vmmResetHeap w.m = some m' ∧ ResetOk m₀ w m' ∧ m'.log = w.m.log ∧
      SessionInv m₀ ⟨m', max w.covered (extent w.m), m'.pmm.bitmap⟩ [] {f | m'.IsTable f} := by
  obtain ⟨m', hm', hemptied, hlive⟩ := h.live.vmmResetHeap
  have hheap := hlive.heap
  have hused : ∀ f, m'.pmm.used f = true ↔ m₀.pmm.used f = true ∨ m'.IsTable f := fun f => by
    simpa using hheap.used f
  refine ⟨m', hm', ⟨hemptied.nextVirtAddr, fun i hi off hoff => ?_, fun f => ?_, fun hle => ?_⟩,
    hemptied.log, ⟨hlive, fun f hf => ?_, fun i hi => ?_, hused, fun f hf => hf,
    fun _ f hf => hf⟩⟩
  · exact (hheap.vacant i hi (by simp)).hwWalk hoff
  · rw [hused]
    have hold := h0.claimed.used f
    tauto
  · refine ByteBitmap.ext fun f => ?_
    rw [h.live.extent] at hle
    refine Bool.eq_iff_iff.mpr ((hused f).trans ?_)
    rw [h.began, hemptied.isTable]
    exact or_congr_right ⟨h.no_more hle f, h.tables_sub f⟩
  · exact (hemptied.isTable f).mpr (h.old_tables f hf)
  · rw [hemptied.table]
    rcases Nat.lt_or_ge i w.covered with hlt | hge
    · exact h.covered i hlt
    · have hlen : i < blocks.length := by
        change i < max w.covered (extent w.m) at hi
        rw [h.live.extent] at hi
        omega
      obtain ⟨pd, hpd, -⟩ := h.live.heap.slot i blocks[i] (List.getElem?_eq_getElem hlen)
      rw [Nat.zero_add] at hpd
      exact ⟨pd, hpd⟩

theorem log_iterate (m : Machine) (flags n : ℕ) :
    m.log <+: ((Vmm.allocHugeStep · flags)^[n] m).log := by
  induction n with
  | zero => exact List.prefix_rfl
  | succ n ih =>
    rw [Function.iterate_succ_apply']
    exact ih.trans (log_allocHugeStep _ flags)

theorem log_vmmAllocHugePage (m : Machine) (n flags : ℕ) :
    m.log <+: (vmmAllocHugePage m n flags).2.log := by
  simp only [vmmAllocHugePage]
  generalize (m.nextVirtAddr + 0x1fffff) % 2 ^ 64 &&& 0xffffffffffe00000 = v
  exact log_iterate { m with nextVirtAddr := v } flags n

theorem log_resetFrom {addr : ℕ} {m m' : Machine} (h : resetFrom addr m = some m') :
    m'.log = m.log := by
  fun_induction resetFrom addr m with
  | case1 addr m hlt hwrap ih => exact ih h
  | case2 addr m hlt hwrap => exact absurd h (by simp)
  | case3 addr m hlt => rw [Option.some.inj h]

theorem log_vmmResetHeap {m m' : Machine} (h : vmmResetHeap m = some m') : m'.log = m.log := by
  rw [vmmResetHeap, Option.map_eq_some_iff] at h
  obtain ⟨m₁, hm₁, rfl⟩ := h
  exact (log_resetFrom hm₁ : m₁.log = m.log)

theorem log_heapStep {w w' : Sessions} {c : HeapCall} (h : HeapStep w c w') :
    w.m.log <+: w'.m.log := by
  cases h with
  | alloc => exact log_vmmAllocHugePage w.m _ _
  | @reset m' hm' =>
    exact (log_vmmResetHeap hm').symm ▸ List.prefix_rfl

theorem sessionInv_of_run {m₀ : Machine} (h0 : FreshHeap m₀)
    {tr : List (Sessions × HeapCall × Sessions)} {w : Sessions}
    (hrun : Run HeapStep ⟨m₀, 0, m₀.pmm.bitmap⟩ tr w) (hready : w.m.Ready) :
    (∃ blocks tables, SessionInv m₀ w blocks tables) ∧
      ∀ x ∈ tr, x.2.2.m.Ready ∧ ∃ blocks tables, SessionInv m₀ x.1 blocks tables := by
  have hall : ∀ x ∈ tr, x.2.2.m.Ready := fun x hx =>
    hready.of_prefix (hrun.prefix_of_mem (fun v => v.m.log) (fun _ _ _ => log_heapStep) hx)
  have hinv := hrun.invariant_of_guard (I := fun v => ∃ blocks tables, SessionInv m₀ v blocks tables)
    (G := fun v c => ∀ n flags, c = .alloc n flags → (vmmAllocHugePage v.m n flags).2.Ready)
    ⟨[], _, h0.inv⟩ (fun v c v' hv hG hstep => ?_) fun x hx n flags hc => ?_
  · exact ⟨hinv.1, fun x hx => ⟨hall x hx, (hinv.2 x hx).1⟩⟩
  · obtain ⟨blocks, tables, hv⟩ := hv
    cases hstep with
    | @alloc n flags haddr hlt =>
      obtain ⟨new, -, hnew, -⟩ := hv.alloc haddr hlt (hG n flags rfl)
      exact ⟨_, _, hnew⟩
    | @reset m' hm' =>
      obtain ⟨m₁, hm₁, -, -, hnew⟩ := hv.reset h0
      obtain rfl : m' = m₁ := Option.some.inj (hm'.symm.trans hm₁)
      exact ⟨_, _, hnew⟩
  · have hpost := hall x hx
    obtain ⟨v, c, v'⟩ := x
    obtain rfl : c = .alloc n flags := hc
    have hstep : HeapStep v _ v' := hrun.step_of_mem hx
    cases hstep
    exact hpost

/-! ## Two blocks -/

theorem freshHeap_smallMachine {s : PmmContext} (hempty : EmptyPml4 (smallMachine s))
    (hclaimed : Claimed (smallMachine s)) : FreshHeap (smallMachine s) := by
  have hblank : Blank paging (smallMachine s).mem (smallMachine s).root := blank_of_zero hempty
  exact ⟨hclaimed, rfl, fun i _ => ⟨hblank.follow_cons 3 _ _, fun q _ => hblank.find 3 q⟩⟩

/-- A step that finds its block at the start of the free range, and three more frames. -/
theorem ready_allocHugeStep {m : Machine} {b hi flags : ℕ} (hm : m.Ready)
    (hrange : FreeRange m.pmm (512 * b) hi) (hle : 512 * b + 515 ≤ hi) (hlow : 64 * b + 64 ≤ 2 ^ 31) :
    (allocHugeStep m flags).Ready := by
  obtain ⟨hfree, hblock, hrange'⟩ := hrange.pmmAlloc2mb (by omega) hlow
  have hserved : (withBlock m).Served := fun e he => by
    rcases List.mem_append.mp he with he | he
    · exact hm.served e he
    · exact List.mem_singleton.mp he ▸ hblock
  have hstock : Stocked (withBlock m) (0 + 3) :=
    ⟨hserved, _, hi, hrange', by omega, fun f hf => absurd hf id⟩
  have hexec := (hstock.exec (blockCall m flags)).served
  refine ⟨fun e he => ?_, fun s hs => ?_⟩
  · rw [allocHugeStep_log] at he
    rcases List.mem_append.mp he with he | he
    · exact hexec e he
    · simp only [List.mem_cons, List.not_mem_nil, or_false] at he
      rcases he with rfl | rfl <;> trivial
  · rw [allocHugeStep_log] at hs
    have hs' : .alloc2mb s ∈ ((blockCall m flags).exec (withBlock m)).log := by
      simpa using List.mem_append.mp hs
    rcases List.mem_append.mp (alloc2mb_mem_exec hs') with hold | hnew
    · exact hm.low s hold
    · obtain rfl : s = m.pmm := by simpa using hnew
      exact ⟨b, by unfold heapPages; omega, hfree⟩

/-- One page for the bitmap and two aligned 2 MiB blocks. -/
def twoBlockMap : List MemmapEntry :=
  [⟨0x1000, 0x1000, .usable⟩, ⟨0x200000, 0x400000, .usable⟩]

theorem freeRange_twoBlockMap : ∃ s, pmmInit twoBlockMap (fun _ => 0) = some (pmmInitSuccess, s) ∧
    FreeRange s 512 1536 ∧ s.totalFrames = 1536 := by
  obtain ⟨s, hs, hsize, htotal, hused⟩ :=
    @pmmInit_facts twoBlockMap (fun _ => 0) (by decide) (by decide)
  rw [show bitmapSizeOf twoBlockMap = 192 by decide] at hsize
  rw [show totalFramesOf twoBlockMap = 1536 by decide] at htotal
  have hfree : ∀ f < 1536, s.used f = false ↔ 512 ≤ f := by
    intro f hf
    have hphys : bitmapPhysOf twoBlockMap = 0x1000 := by decide
    have hsize : bitmapSizeOf twoBlockMap = 192 := by decide
    rw [hused f (by omega), Storage, hphys, hsize, twoBlockMap, listed_pair]
    simp only [Visits]
    omega
  refine ⟨s, hs, ⟨by omega, fun f hf => ?_, fun f hlo hhi => (hfree f hhi).mpr hlo, htotal.ge,
    by omega, by omega⟩, htotal⟩
  have hnot := mt (hfree f (by omega)).mp (by omega)
  simpa using hnot

/-- On the two blocks a page can be had. -/
theorem ready_twoBlockMap : ∃ s, pmmInit twoBlockMap (fun _ => 0) = some (pmmInitSuccess, s) ∧
    FreshHeap (smallMachine s) ∧ (smallMachine s).Ready ∧
    (vmmAllocHugePage (smallMachine s) 1 3).2.Ready := by
  obtain ⟨s, hs, hrange, htotal⟩ := freeRange_twoBlockMap
  obtain ⟨hempty, hclaimed, hstocked⟩ := hrange.smallMachine (by omega) (by omega) (by omega)
  have hfresh := freshHeap_smallMachine hempty hclaimed
  have hstart : (smallMachine s).Ready :=
    ⟨hstocked.served, fun _ h => absurd h List.not_mem_nil⟩
  have hready : (vmmAllocHugePage (smallMachine s) 1 3).2.Ready := by
    rw [@vmmAllocHugePage_eq (smallMachine s) 0 rfl (Nat.zero_le _)]
    exact ready_allocHugeStep (b := 1) hstart hrange (by omega) (by omega)
  exact ⟨s, hs, hfresh, hstart, hready⟩

/-! ## Sessions -/

/-- Over every run of the two functions whose requests are served with blocks below byte `2 ^ 31`,
regions are aligned, contiguous and free of aliases, and resets end and leave nothing behind. -/
theorem heap_sessions {m₀ : Machine} (h0 : FreshHeap m₀)
    {tr : List (Sessions × HeapCall × Sessions)} {w : Sessions}
    (hrun : Run HeapStep ⟨m₀, 0, m₀.pmm.bitmap⟩ tr w) (hready : w.m.Ready) :
    (vmmResetHeap w.m).isSome ∧ ∀ x ∈ tr,
      (∀ n flags, x.2.1 = .alloc n flags →
        AllocOk x.1.m n (vmmAllocHugePage x.1.m n flags).1 x.2.2.m) ∧
      (x.2.1 = .reset → ResetOk m₀ x.1 x.2.2.m) := by
  obtain ⟨⟨blocks, tables, hw⟩, hall⟩ := sessionInv_of_run h0 hrun hready
  obtain ⟨m', hm', -⟩ := hw.reset h0
  refine ⟨by rw [hm']; rfl, fun x hx => ?_⟩
  obtain ⟨hpost, blocks, tables, hinv⟩ := hall x hx
  obtain ⟨v, c, v'⟩ := x
  have hstep : HeapStep v c v' := hrun.step_of_mem hx
  cases hstep with
  | @alloc n flags haddr hlt =>
    refine ⟨fun n' flags' hc => ?_, fun hc => absurd hc (by simp)⟩
    obtain ⟨rfl, rfl⟩ := HeapCall.alloc.inj hc
    exact hinv.allocOk haddr hlt hpost
  | @reset m₁ hm₁ =>
    refine ⟨fun n' flags' hc => absurd hc (by simp), fun _ => ?_⟩
    obtain ⟨m₂, hm₂, hok, -⟩ := hinv.reset h0
    obtain rfl : m₁ = m₂ := Option.some.inj (hm₁.symm.trans hm₂)
    exact hok

/-- A session of one page, and its reset. -/
theorem heap_sessions_twoBlocks : ∃ s tr w, pmmInit twoBlockMap (fun _ => 0) = some (pmmInitSuccess, s) ∧
    Run HeapStep ⟨smallMachine s, 0, s.bitmap⟩ tr w ∧ tr.map (·.2.1) = [.alloc 1 3, .reset] ∧
    ∀ x ∈ tr,
      (∀ n flags, x.2.1 = .alloc n flags →
        AllocOk x.1.m n (vmmAllocHugePage x.1.m n flags).1 x.2.2.m) ∧
      (x.2.1 = .reset → ResetOk (smallMachine s) x.1 x.2.2.m) := by
  obtain ⟨s, hs, hfresh, -, hready⟩ := ready_twoBlockMap
  have halloc : Run HeapStep ⟨smallMachine s, 0, s.bitmap⟩ _ _ :=
    .snoc .nil (@HeapStep.alloc _ 1 3 (by decide) (by decide))
  obtain ⟨m', hm'⟩ := Option.isSome_iff_exists.mp (heap_sessions hfresh halloc hready).1
  have hready' : m'.Ready := by
    have hlog := log_vmmResetHeap hm'
    exact ⟨fun e he => hready.served e (hlog ▸ he), fun s hs => hready.low s (hlog ▸ hs)⟩
  have hreset := halloc.snoc (.reset hm')
  exact ⟨s, _, _, hs, hreset, rfl, (heap_sessions hfresh hreset hready').2⟩

/-! ## A block beyond byte `2 ^ 31` -/

/-- The only block lies where the marking loop of `pmm_alloc_2mb` does nothing, and there are frames
for `n` tables below it. -/
structure OnlyHigh (m : Machine) (n b : ℕ) : Prop where
  claimed : Claimed m
  no_page_table : ∀ q : List (Fin 512), q.length = 3 → m.table q = none
  stocked : Stocked m n (block b)
  free : FreeGroup m.pmm b
  first : ∀ b' < b, ¬FreeGroup m.pmm b'
  ge : 2 ^ 31 ≤ 64 * b
  lt : 64 * b < 2 ^ 32

namespace OnlyHigh

variable {m : Machine} {n b : ℕ}

theorem pmmAlloc2mb (h : OnlyHigh m n b) : pmmAlloc2mb m.pmm = (512 * b * 4096, m.pmm) := by
  have hlt := h.lt
  rw [pmmAlloc2mb_of_first h.free h.first, markGroup_eq_self _ h.ge hlt,
    indexToPhysAddr_of_lt (by omega)]

theorem withBlock_pmm (h : OnlyHigh m n b) : (withBlock m).pmm = m.pmm :=
  congrArg Prod.snd h.pmmAlloc2mb

theorem physAddr (h : OnlyHigh m n b) (flags : ℕ) :
    (blockCall m flags).physAddr = 512 * b * 4096 := congrArg Prod.fst h.pmmAlloc2mb

theorem stocked_withBlock (h : OnlyHigh m n b) : Stocked (withBlock m) n (block b) := by
  obtain ⟨hserved, lo, hi, hrange, hle, hR⟩ := h.stocked
  refine ⟨fun e he => ?_, lo, hi, h.withBlock_pmm ▸ hrange, hle, h.withBlock_pmm ▸ hR⟩
  rcases List.mem_append.mp he with he | he
  · exact hserved e he
  · have hge := h.ge
    have hlt := h.lt
    rw [List.mem_singleton.mp he]
    refine ⟨b, h.free, h.first, ?_⟩
    rw [indexToPhysAddr_of_lt (by omega)]
    omega

theorem claimed_withBlock (h : OnlyHigh m n b) : Claimed (withBlock m) :=
  ⟨h.claimed.tree, h.withBlock_pmm ▸ h.claimed.used, h.withBlock_pmm ▸ h.claimed.totalFrames_le⟩

theorem regular_of_stocked (h : OnlyHigh m n b) {k : ℕ} {R : Set ℕ}
    (hstock : Stocked (withBlock m) (2 + k) R) {flags : ℕ} (haddr : flags &&& vmmAddrMask = 0)
    (hlt : flags < 2 ^ 64) : Regular (withBlock m) (blockCall m flags) := by
  have hblt := h.lt
  have hphys := h.physAddr flags
  have hserved : (descend (blockCall m flags).virtAddr (blockCall m flags).levels (withBlock m)
      (withBlock m).pml4Phys).1.Served := (Stocked.descend hstock _ _).served
  refine ⟨regularWalk_of_served (p := []) h.claimed_withBlock rfl (levels_target _)
    (leaf_of_short _ le_rfl) hserved, ?_, fun _ => ?_, haddr, hlt, fun _ => ?_⟩
  · rw [hphys]
    omega
  · rw [hphys]
    omega
  · exact h.no_page_table _ rfl

theorem regular (h : OnlyHigh m (n + 3) b) {flags : ℕ} (haddr : flags &&& vmmAddrMask = 0)
    (hlt : flags < 2 ^ 64) : Regular (withBlock m) (blockCall m flags) :=
  h.regular_of_stocked (h.stocked_withBlock.mono (show 2 + 0 ≤ n + 3 by omega)) haddr hlt

theorem blockCall_eq (h : OnlyHigh m n b) {j : ℕ} (hnext : m.nextVirtAddr = heapPage j) (flags : ℕ) :
    blockCall m flags = ⟨true, heapPage j, 512 * b * 4096, flags⟩ := by
  rw [← h.physAddr flags, ← hnext]
  rfl

/-- The machine at the zero-fill: the cursor is where it was, and the new page leads to the block. -/
theorem fill_walk (h : OnlyHigh m (n + 3) b) {j flags i : ℕ} (hj : j < heapPages)
    (hnext : m.nextVirtAddr = heapPage j) (haddr : flags &&& vmmAddrMask = 0)
    (hlt : flags < 2 ^ 64) (hi : i < 512) :
    ∃ fl, hwWalk ((blockCall m flags).exec (withBlock m))
      ((((blockCall m flags).exec (withBlock m)).nextVirtAddr + 4096 * i) % 2 ^ 64) =
        some (512 * b * 4096 + 4096 * i, fl) := by
  have hreg := h.regular haddr hlt
  have hm := mapped_of_regular h.claimed_withBlock.tree hreg
  have hmod : (heapPage j + 4096 * i) % 2 ^ 64 = heapPage j + 4096 * i := by
    unfold heapPages at hj
    simp only [heapPage, heapStart]
    omega
  have hcov := covers_heapPage_add j (512 * b * 4096) flags (show 4096 * i < 0x200000 by omega)
  have hcursor : ((blockCall m flags).exec (withBlock m)).nextVirtAddr = heapPage j :=
    hm.nextVirtAddr.trans hnext
  have hbase : 512 * b * 4096 / 0x200000 * 0x200000 + (heapPage j + 4096 * i) % 0x200000 =
      512 * b * 4096 + 4096 * i := by
    simp only [heapPage, heapStart]
    omega
  rw [hcursor, hmod, hwWalk_exec h.claimed_withBlock.tree hreg, h.blockCall_eq hnext flags,
    MapCall.apply, if_pos hcov]
  simp only [MapCall.size, if_true, hbase]
  exact ⟨_, rfl⟩

theorem fill_not_table (h : OnlyHigh m (n + 3) b) {j flags : ℕ} (hj : j < heapPages)
    (hnext : m.nextVirtAddr = heapPage j) (haddr : flags &&& vmmAddrMask = 0)
    (hlt : flags < 2 ^ 64) (i : ℕ) (hi : i < 512) (pa fl : ℕ)
    (hwalk : hwWalk ((blockCall m flags).exec (withBlock m))
      ((((blockCall m flags).exec (withBlock m)).nextVirtAddr + 4096 * i) % 2 ^ 64) = some (pa, fl)) :
    ¬((blockCall m flags).exec (withBlock m)).IsTable (physAddrToIndex pa) := by
  have hm := mapped_of_regular h.claimed_withBlock.tree (h.regular haddr hlt)
  obtain ⟨fl', hslot⟩ := h.fill_walk hj hnext haddr hlt hi
  obtain ⟨rfl, -⟩ := Prod.mk.inj (Option.some.inj (hwalk.symm.trans hslot))
  intro htable
  have hused := (hm.claimed h.claimed_withBlock).used _ htable
  obtain ⟨lo, hi', -, -, hR⟩ := (h.stocked_withBlock.exec (blockCall m flags)).range
  rw [(hR _ ?_).2] at hused
  · exact Bool.false_ne_true hused
  · simp only [physAddrToIndex, block, Set.mem_ofPred_eq]
    omega

/-- One page: it is mapped to the block, which stays free. -/
theorem allocHugeStep (h : OnlyHigh m (n + 3) b) {j flags : ℕ} (hj : j < heapPages)
    (hnext : m.nextVirtAddr = heapPage j) (haddr : flags &&& vmmAddrMask = 0)
    (hlt : flags < 2 ^ 64) :
    OnlyHigh (allocHugeStep m flags) n b ∧ (allocHugeStep m flags).nextVirtAddr = heapPage (j + 1) ∧
      hwWalk (allocHugeStep m flags) = (blockCall m flags).apply (hwWalk m) := by
  have hreg := h.regular haddr hlt
  have hm := mapped_of_regular h.claimed_withBlock.tree hreg
  have hstock := h.stocked_withBlock.exec (blockCall m flags)
  have hwalk : hwWalk ((blockCall m flags).exec (withBlock m)) = (blockCall m flags).apply (hwWalk m) :=
    hwWalk_exec h.claimed_withBlock.tree hreg
  have hcleared := cleared_clearMapped (h.fill_not_table hj hnext haddr hlt)
  generalize hE : (blockCall m flags).exec (withBlock m) = E at hm hstock hwalk hcleared
  have hclaimed : Claimed E := hm.claimed h.claimed_withBlock
  have hcursor : E.nextVirtAddr = heapPage j := hm.nextVirtAddr.trans hnext
  have hfree : ∀ f ∈ block b, E.pmm.used f = false := fun f hf => by
    obtain ⟨lo, hi, -, -, hR⟩ := hstock.range
    exact (hR f hf).2
  have hstep := allocHugeStep_eq m flags
  rw [hE] at hstep
  have hpmm : (Vmm.allocHugeStep m flags).pmm = E.pmm := by
    rw [hstep]
    exact hcleared.pmm
  have hbetween : Between E (Vmm.allocHugeStep m flags) := by
    rw [hstep]
    exact ⟨hcleared.between.pml4Phys, hcleared.between.tables⟩
  have hT := h.claimed.totalFrames_le
  have hsize : E.pmm.bitmapSize = m.pmm.bitmapSize := by rw [hm.bitmapSize, h.withBlock_pmm]
  refine ⟨⟨⟨hbetween.tree hm.tree, fun f hf => ?_, hpmm ▸ hclaimed.totalFrames_le⟩, fun q hq => ?_,
    ⟨fun e he => ?_, hpmm ▸ hstock.range⟩, ⟨?_, fun f hlo hhi => ?_⟩, fun b' hb' hfree' => ?_, h.ge,
    h.lt⟩, ?_, ?_⟩
  · rw [hpmm]
    exact hclaimed.used f ((hbetween.isTable f).mp hf)
  · rw [hbetween.table]
    cases htable : E.table q with
    | none => rfl
    | some f =>
      rcases hm.table_cases q f htable with hold | hlen
      · exact absurd (hold.symm.trans (h.no_page_table q hq)) (by simp)
      · have hlen' : q.length ≤ 2 := hlen
        omega
  · rw [allocHugeStep_log, hE] at he
    rcases List.mem_append.mp he with he | he
    · exact hstock.served e he
    · simp only [List.mem_cons, List.not_mem_nil, or_false] at he
      rcases he with rfl | rfl <;> trivial
  · rw [hpmm, hsize]
    exact h.free.le_size
  · rw [hpmm]
    exact hfree f ⟨hlo, hhi⟩
  · refine h.first b' hb' ⟨?_, fun f hlo hhi => ?_⟩
    · have hle := hfree'.le_size
      rwa [hpmm, hsize] at hle
    · have hnot := hfree'.free f hlo hhi
      rw [hpmm] at hnot
      by_contra hused
      have htrue : (withBlock m).pmm.used f = true := by
        rw [h.withBlock_pmm]
        simpa using hused
      have hT' : (withBlock m).pmm.totalFrames ≤ 2 ^ 52 := by
        rw [h.withBlock_pmm]
        omega
      rw [(hm.used hT' f).mpr (.inl htrue)] at hnot
      exact absurd hnot (by simp)
  · rw [hstep]
    unfold heapPages at hj
    have hend := hcleared.nextVirtAddr.trans hcursor
    simp only [hend, heapPage, heapStart]
    omega
  · rw [hbetween.hwWalk_eq, hwalk]

end OnlyHigh

theorem apply_heapPage (i b flags : ℕ) (f : PageMap) :
    (⟨true, heapPage i, 512 * b * 4096, flags⟩ : MapCall).apply f (heapPage i) =
      some (512 * b * 4096, flags ||| vmmPresent ||| vmmHuge) := by
  have hcov : (⟨true, heapPage i, 512 * b * 4096, flags⟩ : MapCall).Covers (heapPage i) := rfl
  have hbase : 512 * b * 4096 / 0x200000 * 0x200000 + heapPage i % 0x200000 = 512 * b * 4096 := by
    simp only [heapPage, heapStart]
    omega
  rw [MapCall.apply, if_pos hcov]
  simp only [MapCall.size, if_true, MapCall.flagsOf, hbase]

/-- Two pages: both lead to the same block. -/
theorem OnlyHigh.not_allocOk {m : Machine} {b : ℕ} (h : OnlyHigh m 6 b)
    (hnext : m.nextVirtAddr = heapPage 0) :
    (vmmAllocHugePage m 2 3).2.Served ∧
      ¬AllocOk m 2 (vmmAllocHugePage m 2 3).1 (vmmAllocHugePage m 2 3).2 := by
  have haddr : 3 &&& vmmAddrMask = 0 := by decide
  obtain ⟨h₁, hnext₁, hwalk₁⟩ :=
    h.allocHugeStep (show 0 < heapPages by decide) hnext haddr (by decide)
  obtain ⟨h₂, hnext₂, hwalk₂⟩ :=
    h₁.allocHugeStep (show 0 + 1 < heapPages by decide) hnext₁ haddr (by decide)
  have htwo : vmmAllocHugePage m 2 3 =
      (m.nextVirtAddr, Vmm.allocHugeStep (Vmm.allocHugeStep m 3) 3) := by
    rw [vmmAllocHugePage_eq hnext (by decide), Function.iterate_succ_apply', Function.iterate_one]
  rw [htwo]
  refine ⟨h₂.stocked.served, fun hok => ?_⟩
  obtain ⟨blocks, hnodup, hlen, hpages, -⟩ := hok.pages
  have hlen' : blocks.length = 2 := by
    have := hnext₂.symm.trans hlen
    simp only [heapPage] at this
    omega
  rw [h.blockCall_eq hnext] at hwalk₁
  rw [h₁.blockCall_eq hnext₁, hwalk₁] at hwalk₂
  have hboth : ∀ i < 2, ∃ fl, hwWalk (Vmm.allocHugeStep (Vmm.allocHugeStep m 3) 3) (heapPage i) =
      some (512 * b * 4096, fl) := by
    intro i hi
    obtain rfl | rfl : i = 0 ∨ i = 1 := by omega
    · have hother : ¬(⟨true, heapPage 1, 512 * b * 4096, 3⟩ : MapCall).Covers (heapPage 0) :=
        mt (covers_heapPage (by decide) (by decide)).mp (by decide)
      refine ⟨_, (congrFun hwalk₂ _).trans ((if_neg hother).trans (apply_heapPage 0 b 3 _))⟩
    · exact ⟨_, (congrFun hwalk₂ _).trans (apply_heapPage 1 b 3 _)⟩
  have hblock : ∀ i (hi : i < blocks.length), blocks[i] = b := by
    intro i hi
    obtain ⟨fl, hwalk⟩ := hboth i (by omega)
    obtain ⟨fl', hwalk'⟩ := hpages i blocks[i] (List.getElem?_eq_getElem hi) 0 (by omega)
    rw [Nat.add_zero, Nat.add_zero] at hwalk'
    have heq := congrArg Prod.fst (Option.some.inj (hwalk'.symm.trans hwalk))
    dsimp only at heq
    omega
  have hsame : blocks[0] = blocks[1] := (hblock 0 (by omega)).trans (hblock 1 (by omega)).symm
  exact absurd (hnodup.getElem_inj_iff.mp hsame) (by decide)

/-- Room for the bitmap and eight frames more, and one block at 64 TiB. -/
def hugeMap : List MemmapEntry :=
  [⟨0x3000, 0x80009000, .usable⟩, ⟨0x400000000000, 0x200000, .usable⟩]

theorem onlyHigh_hugeMap : ∃ s, pmmInit hugeMap (fun _ => 0) = some (pmmInitSuccess, s) ∧
    OnlyHigh (smallMachine s) 6 (2 ^ 25) ∧ FreshHeap (smallMachine s) := by
  obtain ⟨s, hs, hsize, htotal, hused⟩ :=
    @pmmInit_facts hugeMap (fun _ => 0) (by decide) (by decide)
  rw [show bitmapSizeOf hugeMap = 2 ^ 31 + 64 by decide] at hsize
  rw [show totalFramesOf hugeMap = 2 ^ 34 + 512 by decide] at htotal
  have hfree : ∀ f < 2 ^ 34 + 512, s.used f = false ↔
      (0x80004 ≤ f ∧ f < 0x8000c) ∨ 2 ^ 34 ≤ f := by
    intro f hf
    have hphys : bitmapPhysOf hugeMap = 0x3000 := by decide
    have hsize : bitmapSizeOf hugeMap = 2 ^ 31 + 64 := by decide
    rw [hused f (by omega), Storage, hphys, hsize, hugeMap, listed_pair]
    simp only [Visits]
    omega
  have hbelow : ∀ f < 0x80004, s.used f = true := fun f hf => by
    have hnot := mt (hfree f (by omega)).mp (by omega)
    simpa using hnot
  have hrange : FreeRange s 0x80004 0x8000c :=
    ⟨by omega, hbelow, fun f hlo hhi => (hfree f (by omega)).mpr (.inl ⟨hlo, hhi⟩), by omega, by omega,
      by omega⟩
  have hgroup : ∀ f ∈ block (2 ^ 25), s.used f = false := fun f hf =>
    (hfree f (by have := hf.2; omega)).mpr (.inr (by have := hf.1; omega))
  obtain ⟨hempty, hclaimed, hstocked⟩ := hrange.smallMachine (by omega) (by omega) (by omega)
  have hblank : Blank paging (smallMachine s).mem (smallMachine s).root := blank_of_zero hempty
  refine ⟨s, hs, ⟨hclaimed, fun q hq => ?_, ⟨hstocked.served, _, _, hrange, by omega, fun f hf => ?_⟩,
    ⟨by simp [smallMachine, hsize], fun f hlo hhi => hgroup f ⟨hlo, hhi⟩⟩, fun b' hb' hfree' => ?_,
    by norm_num, by norm_num⟩, freshHeap_smallMachine hempty hclaimed⟩
  · cases q with
    | nil => simp at hq
    | cons i q => exact hblank.follow_cons 3 i q
  · exact ⟨by have := hf.1; omega, hgroup f hf⟩
  · have hlo := (hfree (512 * b') (by omega)).mp (hfree'.free _ le_rfl (by omega))
    have hhi := (hfree (512 * b' + 511) (by omega)).mp (hfree'.free _ (by omega) (by omega))
    omega

/-- With 64 TiB of addresses and no other free block, both pages of one call share the block. -/
theorem heap_alias_hugeMap : ∃ s, pmmInit hugeMap (fun _ => 0) = some (pmmInitSuccess, s) ∧
    FreshHeap (smallMachine s) ∧ (vmmAllocHugePage (smallMachine s) 2 3).2.Served ∧
    ¬AllocOk (smallMachine s) 2 (vmmAllocHugePage (smallMachine s) 2 3).1
      (vmmAllocHugePage (smallMachine s) 2 3).2 := by
  obtain ⟨s, hs, hhigh, hfresh⟩ := onlyHigh_hugeMap
  exact ⟨s, hs, hfresh, hhigh.not_allocOk hfresh.nextVirtAddr⟩

end MathUnikernel.Vmm
