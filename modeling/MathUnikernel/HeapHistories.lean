import MathUnikernel.HeapContents

/-!
# Histories that differ in the contents of heap pages

Two machines with the same page tables, bitmap and cursor behave alike, whatever else is in memory.
-/

namespace MathUnikernel.Vmm
open Pmm RadixTree Runs

/-! ## Machines that differ in data only -/

/-- The machines agree in all but the memory outside the tables. -/
structure Same (m m' : Machine) : Prop where
  between : Between m m'
  pmm : m'.pmm = m.pmm
  nextVirtAddr : m'.nextVirtAddr = m.nextVirtAddr
  log : m'.log = m.log

theorem Between.symm {m m' : Machine} (h : Between m m') : Between m' m :=
  ⟨h.pml4Phys.symm, fun f hf => (h.tables f ((h.isTable f).mp hf)).symm⟩

theorem Same.refl (m : Machine) : Same m m := ⟨.refl m, rfl, rfl, rfl⟩

theorem Same.symm {m m' : Machine} (h : Same m m') : Same m' m :=
  ⟨h.between.symm, h.pmm.symm, h.nextVirtAddr.symm, h.log.symm⟩

theorem Same.trans {m m' m'' : Machine} (h : Same m m') (h' : Same m' m'') : Same m m'' :=
  ⟨h.between.trans h'.between, h'.pmm.trans h.pmm, h'.nextVirtAddr.trans h.nextVirtAddr,
    h'.log.trans h.log⟩

theorem Stored.same {m m' : Machine} {virtAddr : ℕ} (h : Stored m m' virtAddr)
    (hno : ∀ pa fl, hwWalk m virtAddr = some (pa, fl) → ¬m.IsTable (physAddrToIndex pa)) :
    Same m m' := ⟨h.between hno, h.pmm, h.nextVirtAddr, h.log⟩

theorem Same.entry {c m : Machine} (h : Same c m) {table : ℕ}
    (ht : c.IsTable (physAddrToIndex table)) (index : Fin 512) :
    m.entry table index = c.entry table index := congrFun (h.between.tables _ ht) index

theorem Same.live {c m : Machine} (h : Same c m) {base : Set ℕ} {blocks : List ℕ}
    (hl : Live c base blocks) : Live m base blocks := by
  have hset : {f | m.IsTable f} = {f | c.IsTable f} := by
    ext f
    exact h.between.isTable f
  refine ⟨?_, h.nextVirtAddr.trans hl.nextVirtAddr⟩
  rw [hset]
  exact hl.heap.between h.between h.pmm

/-! ## The map functions -/

/-- Adding a table reads tables only. -/
theorem Same.ensureTable {c m : Machine} (h : Same c m) (htree : c.Tree) {p : List (Fin 512)}
    {table : ℕ} {index : Fin 512} (hp : c.table p = some (physAddrToIndex table))
    (hl : 3 - p.length ≠ 0) (hfresh : c.entry table index &&& vmmPresent = 0 → c.FreshFrame) :
    Same (ensureTable c table index) (ensureTable m table index) := by
  have hentry := h.entry ⟨p, hp⟩ index
  by_cases habsent : c.entry table index &&& vmmPresent = 0
  · have hne : physAddrToIndex table ≠ physAddrToIndex (pmmAlloc c.pmm).1 :=
      fun heq => (hfresh habsent).not_table ⟨p, heq ▸ hp⟩
    have habsent' : m.entry table index &&& vmmPresent = 0 := hentry ▸ habsent
    have hmem := mem_ensureTable habsent hne
    have hmem' := mem_ensureTable habsent' (h.pmm.symm ▸ hne)
    rw [h.pmm] at hmem'
    refine ⟨⟨?_, fun f ⟨q, hq⟩ => ?_⟩, ?_, ?_, ?_⟩
    · rw [ensureTable_pml4Phys, ensureTable_pml4Phys, h.between.pml4Phys]
    · funext j
      rw [hmem, hmem']
      -- a table is the new frame or an old table
      rcases table_ensureTable_cases htree hp hl hfresh hq with hold | rfl
      · rw [h.between.tables f ⟨q, hold⟩]
      · have hlink := tableLink_ensureTable htree hp hl habsent (hfresh habsent)
        rw [Machine.table, Machine.root, ensureTable_pml4Phys] at hq
        rw [if_pos (Option.some.inj (hq.symm.trans hlink.follow_self)),
          if_pos (Option.some.inj (hq.symm.trans hlink.follow_self))]
    · simp only [Vmm.ensureTable, if_pos habsent, if_pos habsent', h.pmm, Machine.setEntry,
        Machine.clearFrame]
    · simp only [Vmm.ensureTable, if_pos habsent, if_pos habsent', h.nextVirtAddr, Machine.setEntry,
        Machine.clearFrame, Machine.note]
    · simp only [Vmm.ensureTable, if_pos habsent, if_pos habsent', h.log, h.pmm, Machine.setEntry,
        Machine.clearFrame, Machine.note]
  · rw [ensureTable_of_present habsent, ensureTable_of_present (hentry.symm ▸ habsent)]
    exact h

theorem Same.descend {virtAddr : ℕ} {levels : List ℕ} {c m : Machine} {table : ℕ}
    {p : List (Fin 512)} (h : Same c m) (hwalk : Walk virtAddr levels c table p) :
    Same (descend virtAddr levels c table).1 (descend virtAddr levels m table).1 ∧
      (Vmm.descend virtAddr levels m table).2 = (Vmm.descend virtAddr levels c table).2 := by
  induction hwalk generalizing m with
  | done htree hp => exact ⟨h, rfl⟩
  | @step levels c table p htree hp hl hfresh hrest ih =>
    have hgrown := grown_ensureTable htree hp hl hfresh
    have hsame := h.ensureTable htree hp hl hfresh
    have hentry := hsame.entry ⟨p, hgrown.table p _ hp⟩ (tableIndex virtAddr (3 - p.length))
    have hrest := ih hsame
    rw [← hentry] at hrest
    simp only [Vmm.descend]
    rw [← hentry]
    exact hrest

/-- Setting an entry of a table, where no table comes into being. -/
theorem Same.setEntry {c m : Machine} (h : Same c m) {table entry : ℕ} {index : Fin 512}
    (hsub : ∀ f, (c.setEntry table index entry).IsTable f → c.IsTable f) :
    Same (c.setEntry table index entry) (m.setEntry table index entry) := by
  refine ⟨⟨h.between.pml4Phys, fun f hf => ?_⟩, h.pmm, h.nextVirtAddr, h.log⟩
  funext j
  rw [mem_setEntry, mem_setEntry, h.between.tables f (hsub f hf)]

theorem Same.exec {c m : Machine} (h : Same c m) (htree : c.Tree) {call : MapCall}
    (hc : Orderly c call) : Same (call.exec c) (call.exec m) := by
  obtain ⟨hsame, htable⟩ := h.descend (walk_of_orderly htree hc)
  rw [exec_eq, exec_eq, h.between.pml4Phys, htable]
  apply hsame.setEntry
  intro f ⟨q, hq⟩
  rw [← exec_eq, exec_table htree hc] at hq
  exact ⟨q, hq⟩

/-- A fill through addresses that lead to no table. -/
theorem Same.clearMapped {c m : Machine} (h : Same c m) {virtAddr pages : ℕ}
    (hno : ∀ i < pages, ∀ pa fl, hwWalk c ((virtAddr + 4096 * i) % 2 ^ 64) = some (pa, fl) →
      ¬c.IsTable (physAddrToIndex pa)) :
    Same (clearMapped c virtAddr pages) (clearMapped m virtAddr pages) := by
  have hc := cleared_clearMapped hno
  have hm : Cleared m (Vmm.clearMapped m virtAddr pages) virtAddr pages := by
    apply cleared_clearMapped
    intro i hi pa fl hwalk
    rw [h.between.hwWalk_eq] at hwalk
    rw [h.between.isTable]
    exact hno i hi pa fl hwalk
  exact ⟨(hc.between.symm.trans h.between).trans hm.between,
    by rw [hm.pmm, h.pmm, hc.pmm], by rw [hm.nextVirtAddr, h.nextVirtAddr, hc.nextVirtAddr],
    by rw [hm.log, h.log, hc.log]⟩

/-- The end of a step: the cursor moves and the log grows, on both sides alike. -/
theorem Same.advance {c m : Machine} (h : Same c m) (events : List Event) (cursor : ℕ) :
    Same { c.note events with nextVirtAddr := cursor }
      { m.note events with nextVirtAddr := cursor } :=
  ⟨⟨h.between.pml4Phys, h.between.tables⟩, h.pmm, rfl, congrArg (· ++ events) h.log⟩

theorem Same.withPmm {c m : Machine} (h : Same c m) (s : PmmContext) :
    Same { c with pmm := s } { m with pmm := s } :=
  ⟨⟨h.between.pml4Phys, h.between.tables⟩, rfl, h.nextVirtAddr, h.log⟩

/-! ## The heap functions -/

theorem Same.withBlock {c m : Machine} (h : Same c m) : Same (withBlock c) (withBlock m) :=
  ⟨⟨h.between.pml4Phys, h.between.tables⟩, congrArg (fun s => (pmmAlloc2mb s).2) h.pmm,
    h.nextVirtAddr, congrArg₂ (fun l s => l ++ [Event.alloc2mb s]) h.log h.pmm⟩

theorem Same.allocHugeStep {c m : Machine} (h : Same c m) {kept : Set ℕ} {blocks : List ℕ}
    {flags b : ℕ} (hnext : NextPage c kept blocks flags b) :
    Same (allocHugeStep c flags) (allocHugeStep m flags) := by
  have hcall : blockCall m flags = blockCall c flags := by
    rw [blockCall, blockCall, h.pmm, h.nextVirtAddr]
  have hexec := h.withBlock.exec hnext.claimed.tree hnext.regular.orderly
  have hclear := hexec.clearMapped hnext.fill_not_table
  rw [allocHugeStep_eq, allocHugeStep_eq, hcall, hexec.nextVirtAddr, h.pmm, hclear.nextVirtAddr]
  exact hclear.advance _ _

/-- The loop of `vmm_alloc_huge_page`. -/
theorem Same.iterate {c m : Machine} (h : Same c m) {base : Set ℕ} {blocks : List ℕ} {flags : ℕ}
    (hl : Live c base blocks) (haddr : flags &&& vmmAddrMask = 0) (hlt : flags < 2 ^ 64) (n : ℕ)
    (hready : ((Vmm.allocHugeStep · flags)^[n] c).Ready) :
    Same ((Vmm.allocHugeStep · flags)^[n] c) ((Vmm.allocHugeStep · flags)^[n] m) := by
  induction n with
  | zero => exact h
  | succ n ih =>
    rw [Function.iterate_succ_apply'] at hready
    have hbefore := hready.of_prefix (log_allocHugeStep _ flags)
    obtain ⟨new, -, hlive, -⟩ := hl.iterate haddr hlt n hbefore
    obtain ⟨b, hnext⟩ := hlive.nextPage haddr hlt hready
    rw [Function.iterate_succ_apply', Function.iterate_succ_apply']
    exact (ih hbefore).allocHugeStep hnext

/-- The table below the first entry of a path of two. -/
theorem isTable_pdpt {m : Machine} {i j : Fin 512} {f : ℕ} (h : m.table [i, j] = some f) :
    m.IsTable (physAddrToIndex (vmmGetAddr (m.entry m.pml4Phys i))) := by
  rw [Machine.table, follow, Option.bind_eq_some_iff] at h
  obtain ⟨g, hg, -⟩ := h
  refine ⟨[i], ?_⟩
  rw [Machine.table, follow, hg]
  exact congrArg some (link_some hg).symm

theorem Same.vmmAllocHugePage {c m : Machine} (h : Same c m) {base : Set ℕ} {blocks : List ℕ}
    {n flags : ℕ} (hl : Live c base blocks) (haddr : flags &&& vmmAddrMask = 0)
    (hlt : flags < 2 ^ 64) (hready : (vmmAllocHugePage c n flags).2.Ready) :
    Same (vmmAllocHugePage c n flags).2 (vmmAllocHugePage m n flags).2 := by
  have hle := hl.heap.le
  rw [Nat.zero_add] at hle
  rw [vmmAllocHugePage_eq hl.nextVirtAddr hle] at hready ⊢
  rw [vmmAllocHugePage_eq (h.nextVirtAddr.trans hl.nextVirtAddr) hle]
  exact h.iterate hl haddr hlt n hready

/-- The page directory is found through the same entries, and holds the same entry. -/
theorem Same.resetSlot {c m : Machine} (h : Same c m) (htree : c.Tree) {k b : ℕ}
    (hs : HasSlot c k b) : Same (resetSlot c (heapPage k)) (resetSlot m (heapPage k)) := by
  have hcleared := slotCleared_resetSlot htree hs
  obtain ⟨pd, hpd, -⟩ := hs
  have hpdpt := isTable_pdpt hpd
  have hframe : c.IsTable _ := ⟨_, (physAddrToIndex_of_table hpd).symm ▸ hpd⟩
  have hroot : m.entry m.pml4Phys (tableIndex (heapPage k) 3) =
      c.entry c.pml4Phys (tableIndex (heapPage k) 3) := by
    rw [h.between.pml4Phys, h.entry ⟨[], rfl⟩]
  simp only [Vmm.resetSlot] at hcleared ⊢
  rw [hroot, h.entry hpdpt, h.entry hframe, h.pmm]
  apply (h.withPmm _).setEntry
  rintro f ⟨q, hq⟩
  exact ⟨q, (hcleared.table q).symm.trans hq⟩

/-- The loop of `vmm_reset_heap`. -/
theorem Same.resetFrom {c m : Machine} {kept : Set ℕ} {k : ℕ} {blocks : List ℕ} (h : Same c m)
    (hheap : Heap c kept k blocks) (hnext : c.nextVirtAddr = heapPage (k + blocks.length))
    {c' : Machine} (hc' : resetFrom (heapPage k) c = some c') :
    ∃ m', resetFrom (heapPage k) m = some m' ∧ Same c' m' := by
  induction blocks generalizing c m k with
  | nil =>
    obtain rfl : c = c' := Option.some.inj ((resetFrom_last hnext).symm.trans hc')
    exact ⟨m, resetFrom_last (h.nextVirtAddr.trans hnext), h⟩
  | cons b blocks ih =>
    obtain ⟨hrest, hcleared⟩ := hheap.resetSlot
    have hslot : HasSlot c k b := hheap.slot 0 b rfl
    have hle := hheap.le
    rw [List.length_cons] at hnext hle
    obtain ⟨hround, hnext'⟩ := resetFrom_round hnext hle
    obtain ⟨hround', -⟩ := resetFrom_round (h.nextVirtAddr.trans hnext) hle
    rw [hround] at hc'
    rw [hround']
    exact ih (h.resetSlot hheap.tree hslot) hrest hnext' hc'

theorem Same.vmmResetHeap {c m : Machine} {base : Set ℕ} {blocks : List ℕ} (h : Same c m)
    (hl : Live c base blocks) :
    ∃ c' m', vmmResetHeap c = some c' ∧ vmmResetHeap m = some m' ∧ Same c' m' ∧ Live c' base [] := by
  obtain ⟨c', hc', -, hlive⟩ := hl.vmmResetHeap
  rw [Vmm.vmmResetHeap, Option.map_eq_some_iff] at hc'
  obtain ⟨c₁, hc₁, rfl⟩ := hc'
  obtain ⟨m₁, hm₁, hsame⟩ := h.resetFrom hl.heap (by rw [hl.nextVirtAddr, Nat.zero_add])
    (heapPage_zero.symm ▸ hc₁)
  rw [heapPage_zero] at hm₁
  refine ⟨_, { m₁ with nextVirtAddr := heapStart }, ?_, ?_, ?_, hlive⟩
  · rw [Vmm.vmmResetHeap, hc₁]
    rfl
  · rw [Vmm.vmmResetHeap, hm₁]
    rfl
  · exact ⟨⟨hsame.between.pml4Phys, hsame.between.tables⟩, hsame.pmm, rfl, hsame.log⟩

/-! ## Histories -/

/-- What a workload and the loop around it do to the heap. -/
inductive WorkloadAct
  | call (c : HeapCall)
  | store (virtAddr : ℕ) (byte : UInt8)

inductive WorkloadStep : Machine → WorkloadAct → Machine → Prop
  | alloc {m : Machine} {numPages flags : ℕ} :
      flags &&& vmmAddrMask = 0 → flags < 2 ^ 64 →
      WorkloadStep m (.call (.alloc numPages flags)) (vmmAllocHugePage m numPages flags).2
  | reset {m m' : Machine} : vmmResetHeap m = some m' → WorkloadStep m (.call .reset) m'
  | store {m : Machine} {virtAddr : ℕ} {byte : UInt8} :
      heapStart ≤ virtAddr → virtAddr < m.nextVirtAddr →
      WorkloadStep m (.store virtAddr byte) (m.storeByte virtAddr byte)

/-- The calls of a history, without the bytes written. -/
def callsOf (tr : List (Machine × WorkloadAct × Machine)) : List HeapCall :=
  tr.filterMap fun x => match x.2.1 with
    | .call c => some c
    | .store _ _ => none

theorem callsOf_eq (tr : List (Machine × WorkloadAct × Machine)) :
    callsOf tr = (tr.map (·.2.1)).filterMap fun act => match act with
      | .call c => some c
      | .store _ _ => none := by
  rw [callsOf, List.filterMap_map]
  rfl

/-- Region `r` is zero as it is returned, and the pages before it are as they were. -/
structure CleanRegion (m : Machine) (r : ℕ) (m' : Machine) : Prop where
  zero : ∀ virtAddr, r ≤ virtAddr → virtAddr < m'.nextVirtAddr → m'.readByte virtAddr = some 0
  earlier : ∀ virtAddr, heapStart ≤ virtAddr → virtAddr < r →
    m'.readByte virtAddr = m.readByte virtAddr

/-- The effect of a call without stores. -/
def HeapCall.exec (m : Machine) : HeapCall → Option Machine
  | .alloc numPages flags => some (vmmAllocHugePage m numPages flags).2
  | .reset => vmmResetHeap m

theorem exists_heapPage {virtAddr k : ℕ} (hlo : heapStart ≤ virtAddr) (hhi : virtAddr < heapPage k) :
    ∃ i < k, ∃ off < 0x200000, virtAddr = heapPage i + off := by
  unfold heapPage at hhi ⊢
  refine ⟨(virtAddr - heapStart) / 0x200000, by omega, (virtAddr - heapStart) % 0x200000, by omega, ?_⟩
  omega

theorem Live.walk {m : Machine} {base : Set ℕ} {blocks : List ℕ} (h : Live m base blocks) {i b : ℕ}
    (hb : blocks[i]? = some b) {off : ℕ} (hoff : off < 0x200000) :
    ∃ fl, hwWalk m (heapPage i + off) = some (512 * b * 4096 + off, fl) := by
  have hslot := h.heap.slot i b hb
  rw [Nat.zero_add] at hslot
  exact hslot.hwWalk hoff

theorem mem_block_of_offset {b off : ℕ} (hoff : off < 0x200000) :
    physAddrToIndex (512 * b * 4096 + off) ∈ block b := by
  simp only [physAddrToIndex, block, Set.mem_ofPred_eq]
  omega

/-- A store to a heap page changes no table. -/
theorem Live.store {m : Machine} {base : Set ℕ} {blocks : List ℕ} (h : Live m base blocks)
    {virtAddr : ℕ} (byte : UInt8) (hlo : heapStart ≤ virtAddr) (hhi : virtAddr < m.nextVirtAddr) :
    Same m (m.storeByte virtAddr byte) := by
  apply (stored_storeByte m virtAddr byte).same
  intro pa fl hwalk htable
  obtain ⟨i, hi, off, hoff, rfl⟩ := exists_heapPage hlo (h.nextVirtAddr ▸ hhi)
  obtain ⟨fl', hwalk'⟩ := h.walk (List.getElem?_eq_getElem hi) hoff
  obtain ⟨rfl, -⟩ := Prod.mk.inj (Option.some.inj (hwalk.symm.trans hwalk'))
  exact h.heap.apart _ (List.getElem_mem hi) _ (mem_block_of_offset hoff) (.inr htable)

/-- A served call of `vmm_alloc_huge_page` returns a clean region. -/
theorem Live.cleanRegion {m : Machine} {base : Set ℕ} {blocks : List ℕ} {n flags : ℕ}
    (h : Live m base blocks) (haddr : flags &&& vmmAddrMask = 0) (hlt : flags < 2 ^ 64)
    (hready : (Vmm.vmmAllocHugePage m n flags).2.Ready) :
    CleanRegion m (Vmm.vmmAllocHugePage m n flags).1 (Vmm.vmmAllocHugePage m n flags).2 := by
  have hle := h.heap.le
  rw [Nat.zero_add] at hle
  rw [vmmAllocHugePage_eq h.nextVirtAddr hle] at hready ⊢
  obtain ⟨new, hlen, hlive, hzero, hrest⟩ := h.contents haddr hlt n hready
  obtain ⟨-, -, hdisjoint⟩ := List.nodup_append.mp hlive.heap.nodup
  refine ⟨fun virtAddr hlo hhi => ?_, fun virtAddr hlo hhi => ?_⟩
  · have hstart : heapStart ≤ virtAddr := (Nat.le_add_right _ _).trans (h.nextVirtAddr ▸ hlo)
    obtain ⟨i, hi, off, hoff, rfl⟩ := exists_heapPage hstart (hlive.nextVirtAddr ▸ hhi)
    have hge : blocks.length ≤ i := by
      simp only [h.nextVirtAddr, heapPage] at hlo
      omega
    obtain ⟨fl, hwalk⟩ := hlive.walk (List.getElem?_eq_getElem hi) hoff
    apply readByte_of_zero hwalk
    refine hzero _ ?_ _ (mem_block_of_offset hoff)
    rw [List.getElem_append_right hge]
    exact List.getElem_mem _
  · obtain ⟨i, hi, off, hoff, rfl⟩ := exists_heapPage hlo (h.nextVirtAddr ▸ hhi)
    have hb := List.getElem_mem hi
    obtain ⟨fl, hwalk⟩ := h.walk (List.getElem?_eq_getElem hi) hoff
    obtain ⟨fl', hwalk'⟩ := hlive.walk
      ((List.getElem?_append_left hi).trans (List.getElem?_eq_getElem hi)) hoff
    apply readByte_congr hwalk hwalk'
    -- the frame is in an old block, so neither in a new one nor a table
    have hframe := @mem_block_of_offset blocks[i] off hoff
    apply hrest
    · intro b' hb' hf
      simp only [block, Set.mem_ofPred_eq] at hframe hf
      exact hdisjoint _ hb b' hb' (by omega)
    · intro htable
      exact hlive.heap.apart _ (List.mem_append_left _ hb) _ hframe (.inr htable)

theorem log_workloadStep {m m' : Machine} {act : WorkloadAct} (h : WorkloadStep m act m') :
    m.log <+: m'.log := by
  cases h with
  | alloc => exact log_vmmAllocHugePage m _ _
  | reset hm' => exact (log_vmmResetHeap hm').symm ▸ List.prefix_rfl
  | @store virtAddr byte _ _ => exact (stored_storeByte m virtAddr byte).log.symm ▸ List.prefix_rfl

theorem ready_of_history {m₀ m : Machine} {tr : List (Machine × WorkloadAct × Machine)}
    (hrun : Run WorkloadStep m₀ tr m) (hready : m.Ready) : ∀ x ∈ tr, x.2.2.Ready := by
  intro x hx
  apply hready.of_prefix
  exact hrun.prefix_of_mem Machine.log (fun _ _ _ => log_workloadStep) hx

/-- The calls of a history alone lead to the same tables, bitmap and cursor. -/
theorem same_of_history {m₀ m : Machine} (h0 : FreshHeap m₀)
    {tr : List (Machine × WorkloadAct × Machine)} (hrun : Run WorkloadStep m₀ tr m)
    (hready : ∀ x ∈ tr, x.2.2.Ready) :
    ∃ c blocks, (callsOf tr).foldlM HeapCall.exec m₀ = some c ∧ Same c m ∧
      Live c {f | m₀.pmm.used f = true} blocks := by
  induction hrun with
  | nil => exact ⟨m₀, [], rfl, .refl m₀, h0.live⟩
  | @snoc tr m m' act _ hstep ih =>
    obtain ⟨c, blocks, hcalls, hsame, hlive⟩ := ih fun x hx => hready x (List.mem_append_left _ hx)
    have hready' : m'.Ready := hready (m, act, m') (by simp)
    have hm := hsame.live hlive
    rw [callsOf, List.filterMap_append, List.foldlM_append, ← callsOf, hcalls]
    cases hstep with
    | @alloc n flags haddr hlt =>
      have hback := hsame.symm.vmmAllocHugePage hm haddr hlt hready'
      obtain ⟨-, new, -, hlive', -⟩ := hm.vmmAllocHugePage haddr hlt hready'
      exact ⟨_, _, rfl, hback.symm, hback.live hlive'⟩
    | reset hreset =>
      obtain ⟨c', m₁, hc', hm₁, hsame', hlive'⟩ := hsame.vmmResetHeap hlive
      obtain rfl := Option.some.inj (hreset.symm.trans hm₁)
      exact ⟨c', [], by simpa [HeapCall.exec] using hc', hsame', hlive'⟩
    | store hlo hhi =>
      exact ⟨c, blocks, rfl, hsame.trans (hm.store _ hlo hhi), hlive⟩

theorem cleanRegion_of_history {m₀ m : Machine} (h0 : FreshHeap m₀)
    {tr : List (Machine × WorkloadAct × Machine)} (hrun : Run WorkloadStep m₀ tr m)
    (hready : ∀ x ∈ tr, x.2.2.Ready) {x : Machine × WorkloadAct × Machine} (hx : x ∈ tr)
    {n flags : ℕ} (hcall : x.2.1 = .call (.alloc n flags)) :
    CleanRegion x.1 (vmmAllocHugePage x.1 n flags).1 x.2.2 := by
  obtain ⟨tr', hrun', hpre⟩ := hrun.exists_prefix hx
  obtain ⟨c, blocks, -, hsame, hlive⟩ := same_of_history h0 hrun' fun y hy =>
    hready y (hpre.subset (List.mem_append_left _ hy))
  have hpost := hready x hx
  obtain ⟨v, act, v'⟩ := x
  obtain rfl : act = .call (.alloc n flags) := hcall
  have hstep : WorkloadStep v _ v' := hrun.step_of_mem hx
  cases hstep with
  | alloc haddr hlt => exact (hsame.live hlive).cleanRegion haddr hlt hpost

/-- Two histories with the same calls, whose requests are served with blocks below byte `2 ^ 31`:
every region is clean as it is returned, and both end with the same tables and the same bitmap. -/
theorem histories_isolated {m₀ m₁ m₂ : Machine} (h0 : FreshHeap m₀)
    {tr₁ tr₂ : List (Machine × WorkloadAct × Machine)} (hrun₁ : Run WorkloadStep m₀ tr₁ m₁)
    (hrun₂ : Run WorkloadStep m₀ tr₂ m₂) (hcalls : callsOf tr₁ = callsOf tr₂)
    (hready₁ : m₁.Ready) (hready₂ : m₂.Ready) :
    (∀ x ∈ tr₁ ++ tr₂, ∀ n flags, x.2.1 = .call (.alloc n flags) →
      CleanRegion x.1 (vmmAllocHugePage x.1 n flags).1 x.2.2) ∧ Same m₁ m₂ := by
  have hall₁ := ready_of_history hrun₁ hready₁
  have hall₂ := ready_of_history hrun₂ hready₂
  refine ⟨fun x hx n flags hcall => ?_, ?_⟩
  · rcases List.mem_append.mp hx with hx | hx
    · exact cleanRegion_of_history h0 hrun₁ hall₁ hx hcall
    · exact cleanRegion_of_history h0 hrun₂ hall₂ hx hcall
  · obtain ⟨c, -, hc, hsame₁, -⟩ := same_of_history h0 hrun₁ hall₁
    obtain ⟨c', -, hc', hsame₂, -⟩ := same_of_history h0 hrun₂ hall₂
    obtain rfl := Option.some.inj (hc.symm.trans (hcalls ▸ hc'))
    exact hsame₁.symm.trans hsame₂

/-- Two histories that write 7 and 9 to one page and give it back. -/
theorem histories_isolated_twoBlocks : ∃ s tr₁ tr₂ m₁ m₂,
    pmmInit twoBlockMap (fun _ => 0) = some (pmmInitSuccess, s) ∧
    Run WorkloadStep (smallMachine s) tr₁ m₁ ∧ Run WorkloadStep (smallMachine s) tr₂ m₂ ∧
    tr₁.map (·.2.1) = [.call (.alloc 1 3), .store heapStart 7, .call .reset] ∧
    tr₂.map (·.2.1) = [.call (.alloc 1 3), .store heapStart 9, .call .reset] ∧
    (∀ x ∈ tr₁ ++ tr₂, ∀ n flags, x.2.1 = .call (.alloc n flags) →
      CleanRegion x.1 (vmmAllocHugePage x.1 n flags).1 x.2.2) ∧ Same m₁ m₂ := by
  obtain ⟨s, hs, hfresh, -, hready⟩ := ready_twoBlockMap
  have halloc : Run WorkloadStep (smallMachine s) _ _ :=
    .snoc .nil (@WorkloadStep.alloc _ 1 3 (by decide) (by decide))
  obtain ⟨-, new, hlen, hlive, -⟩ :=
    @Live.vmmAllocHugePage _ _ _ 1 3 hfresh.live (by decide) (by decide) hready
  have hstored : heapStart < (vmmAllocHugePage (smallMachine s) 1 3).2.nextVirtAddr := by
    rw [hlive.nextVirtAddr]
    simp only [heapPage, List.nil_append, hlen]
    omega
  -- a store of any byte, and the reset
  have hrest : ∀ byte, ∃ tr m, Run WorkloadStep (smallMachine s) tr m ∧ m.Ready ∧
      tr.map (·.2.1) = [.call (.alloc 1 3), .store heapStart byte, .call .reset] := by
    intro byte
    have hstore := halloc.snoc (@WorkloadStep.store _ heapStart byte le_rfl hstored)
    have hlive' := (hlive.store byte le_rfl hstored).live hlive
    obtain ⟨m', hm', hemptied, -⟩ := hlive'.vmmResetHeap
    refine ⟨_, m', hstore.snoc (.reset hm'), ?_, rfl⟩
    have hlog := hemptied.log.trans (stored_storeByte _ heapStart byte).log
    exact ⟨fun e he => hready.served e (hlog ▸ he), fun s hs => hready.low s (hlog ▸ hs)⟩
  obtain ⟨tr₁, m₁, hrun₁, hready₁, hacts₁⟩ := hrest 7
  obtain ⟨tr₂, m₂, hrun₂, hready₂, hacts₂⟩ := hrest 9
  have hcalls : callsOf tr₁ = callsOf tr₂ := by
    rw [callsOf_eq, callsOf_eq, hacts₁, hacts₂]
    rfl
  exact ⟨s, tr₁, tr₂, m₁, m₂, hs, hrun₁, hrun₂, hacts₁, hacts₂,
    histories_isolated hfresh hrun₁ hrun₂ hcalls hready₁ hready₂⟩

/-! ## A block beyond byte `2 ^ 31` -/

theorem OnlyHigh.same {c m : Machine} {n b : ℕ} (h : OnlyHigh c n b) (hs : Same c m) :
    OnlyHigh m n b where
  claimed := ⟨hs.between.tree h.claimed.tree,
    fun f hf => hs.pmm ▸ h.claimed.used f ((hs.between.isTable f).mp hf),
    hs.pmm ▸ h.claimed.totalFrames_le⟩
  no_page_table q hq := (hs.between.table q).trans (h.no_page_table q hq)
  stocked := ⟨fun e he => h.stocked.served e (hs.log ▸ he), hs.pmm ▸ h.stocked.range⟩
  free := hs.pmm ▸ h.free
  first := hs.pmm ▸ h.first
  ge := h.ge
  lt := h.lt

/-- The frames of the block are in no table. -/
theorem OnlyHigh.not_table {m : Machine} {n b f : ℕ} (h : OnlyHigh m n b) (hf : f ∈ block b) :
    ¬m.IsTable f := by
  intro htable
  have hused := h.claimed.used f htable
  rw [h.free.free f hf.1 hf.2] at hused
  exact Bool.false_ne_true hused

theorem vmmAllocHugePage_one {m : Machine} {k : ℕ} (h : m.nextVirtAddr = heapPage k)
    (hk : k ≤ heapPages) (flags : ℕ) :
    vmmAllocHugePage m 1 flags = (heapPage k, allocHugeStep m flags) := by
  rw [vmmAllocHugePage_eq h hk, Function.iterate_one, h]

/-- A page, a byte stored in it and another page: the zero-fill of the second clears the byte. -/
theorem OnlyHigh.not_clean {m : Machine} {b : ℕ} (h : OnlyHigh m 6 b)
    (hnext : m.nextVirtAddr = heapPage 0) :
    ∃ tr m', Run WorkloadStep m tr m' ∧ m'.Served ∧
      ¬∀ x ∈ tr, ∀ n flags, x.2.1 = .call (.alloc n flags) →
        CleanRegion x.1 (vmmAllocHugePage x.1 n flags).1 x.2.2 := by
  have haddr : 3 &&& vmmAddrMask = 0 := by decide
  have hzero : heapStart = heapPage 0 := by rw [heapPage, Nat.zero_mul, Nat.add_zero]
  have hpos : 0 < heapPages := by decide
  have hone : 0 + 1 < heapPages := by decide
  obtain ⟨h₁, hnext₁, hwalk₁⟩ := h.allocHugeStep hpos hnext haddr (by decide)
  rw [h.blockCall_eq hnext] at hwalk₁
  have hfirst : hwWalk (Vmm.allocHugeStep m 3) (heapPage 0) = some (512 * b * 4096, _) :=
    (congrFun hwalk₁ _).trans (apply_heapPage 0 b 3 _)
  have hframe : physAddrToIndex (512 * b * 4096) ∈ block b := by
    simp only [physAddrToIndex, block, Set.mem_ofPred_eq]
    omega
  have hstep₁ : WorkloadStep m (.call (.alloc 1 3)) (Vmm.allocHugeStep m 3) := by
    have hstep := @WorkloadStep.alloc m 1 3 haddr (by decide)
    rwa [vmmAllocHugePage_one hnext hpos.le] at hstep
  generalize Vmm.allocHugeStep m 3 = m₁ at h₁ hnext₁ hfirst hstep₁
  rw [← hzero] at hfirst
  -- the byte is in the block, so in no table
  have hsame : Same m₁ (m₁.storeByte heapStart 7) := by
    apply (stored_storeByte m₁ heapStart 7).same
    intro pa fl hwalk
    obtain ⟨rfl, -⟩ := Prod.mk.inj (Option.some.inj (hwalk.symm.trans hfirst))
    exact h₁.not_table hframe
  have hread : (m₁.storeByte heapStart 7).readByte heapStart = some 7 :=
    readByte_storeByte hfirst (h₁.not_table hframe)
  have hstep₂ : WorkloadStep m₁ (.store heapStart 7) (m₁.storeByte heapStart 7) := by
    refine .store le_rfl ?_
    rw [hnext₁]
    simp only [heapPage]
    omega
  have hwalk₂ := congrFun hsame.between.hwWalk_eq heapStart
  rw [hfirst] at hwalk₂
  have h₂ := h₁.same hsame
  have hnext₂ := hsame.nextVirtAddr.trans hnext₁
  generalize m₁.storeByte heapStart 7 = m₂ at hread hstep₂ hwalk₂ h₂ hnext₂
  -- the second page
  obtain ⟨h₃, -, hwalk₃⟩ := h₂.allocHugeStep hone hnext₂ haddr (by decide)
  rw [h₂.blockCall_eq hnext₂] at hwalk₃
  have hother : ¬(⟨true, heapPage (0 + 1), 512 * b * 4096, 3⟩ : MapCall).Covers heapStart := by
    rw [hzero]
    exact mt (covers_heapPage hone hpos).mp (by decide)
  have hlast : hwWalk (Vmm.allocHugeStep m₂ 3) heapStart = some (512 * b * 4096, _) :=
    (congrFun hwalk₃ _).trans ((if_neg hother).trans hwalk₂)
  have hcleared := mem_of_fill (h₂.fill_not_table hone hnext₂ haddr (by decide))
    (fun _ => h₂.fill_walk hone hnext₂ haddr (by decide)) hframe
  have hstep₃ : WorkloadStep m₂ (.call (.alloc 1 3)) (Vmm.allocHugeStep m₂ 3) := by
    have hstep := @WorkloadStep.alloc m₂ 1 3 haddr (by decide)
    rwa [vmmAllocHugePage_one hnext₂ hone.le] at hstep
  refine ⟨_, _, ((Run.nil.snoc hstep₁).snoc hstep₂).snoc hstep₃, h₃.stocked.served, fun hclean => ?_⟩
  have hregion := hclean (m₂, .call (.alloc 1 3), Vmm.allocHugeStep m₂ 3) (by simp) 1 3 rfl
  rw [vmmAllocHugePage_one hnext₂ hone.le] at hregion
  have hearlier := hregion.earlier heapStart le_rfl (by
    simp only [heapPage]
    omega)
  rw [hread, readByte_of_zero hlast hcleared] at hearlier
  exact absurd hearlier (by decide)

/-- The second region shares the block of the first, so its zero-fill clears a byte of the first. -/
theorem history_clears_hugeMap : ∃ s tr m, pmmInit hugeMap (fun _ => 0) = some (pmmInitSuccess, s) ∧
    FreshHeap (smallMachine s) ∧ Run WorkloadStep (smallMachine s) tr m ∧ m.Served ∧
    ¬∀ x ∈ tr, ∀ n flags, x.2.1 = .call (.alloc n flags) →
      CleanRegion x.1 (vmmAllocHugePage x.1 n flags).1 x.2.2 := by
  obtain ⟨s, hs, hhigh, hfresh⟩ := onlyHigh_hugeMap
  obtain ⟨tr, m, hrun, hserved, hnot⟩ := hhigh.not_clean hfresh.nextVirtAddr
  exact ⟨s, tr, m, hs, hfresh, hrun, hserved, hnot⟩

end MathUnikernel.Vmm
