import MathUnikernel.Library.WalkCache
import MathUnikernel.Boot
import MathUnikernel.HeapHistories
import MathUnikernel.MapWrites

/-!
# The memory operations of the heap

What the calls of `vmm_alloc_huge_page` and `vmm_reset_heap` have the processor do: stores to the
tables through the direct map, `invlpg`, and accesses through the mapping, all of them stores.
-/

namespace MathUnikernel.Vmm
open Pmm RadixTree WalkCache

abbrev CpuOp := Op ℕ (Fin 512) ℕ Leaf

/-! ## Operations -/

/-- A store, with the path of the page whose entry it sets. -/
def Write.op (page : Option (List (Fin 512))) (w : Write) : CpuOp := .write page fun mem => w.apply mem

def invlpg (virtAddr : ℕ) : CpuOp := .flush (pathOf virtAddr)

/-- Where a page leads an address to. -/
def Leaf.physAddr (v : Leaf) (virtAddr : ℕ) : ℕ := v.base + virtAddr % v.size

def Leaf.frame (v : Leaf) (virtAddr : ℕ) : ℕ := physAddrToIndex (v.physAddr virtAddr)

/-- `memset` of the 4096 bytes at an address. -/
def clearOp (virtAddr : ℕ) : CpuOp :=
  .access (pathOf virtAddr) fun v mem => Function.update mem (v.frame virtAddr) fun _ => 0

/-- `memset` of as many pages. -/
@[irreducible] def clearOps (virtAddr pages : ℕ) : List CpuOp :=
  (List.range pages).map fun i => clearOp ((virtAddr + 4096 * i) % 2 ^ 64)

/-- A byte stored by the workload. -/
def storeOp (virtAddr : ℕ) (byte : UInt8) : CpuOp :=
  .access (pathOf virtAddr) fun v mem =>
    Function.update mem (v.frame virtAddr)
      (Function.update (mem (v.frame virtAddr)) (wordIndex (v.physAddr virtAddr))
        (setWordByte (mem (v.frame virtAddr) (wordIndex (v.physAddr virtAddr)))
          (v.physAddr virtAddr % 8) byte))

def MapCall.ops (c : MapCall) (m : Machine) : List CpuOp :=
  (descendWrites c.virtAddr c.levels m m.pml4Phys).map (Write.op none) ++
    [Write.op (some (c.path ++ [c.index]))
        (.entry (descend c.virtAddr c.levels m m.pml4Phys).2 c.index c.newEntry),
      invlpg c.virtAddr]

/-- One round of `vmm_alloc_huge_page`. -/
def allocHugeStepOps (m : Machine) (flags : ℕ) : List CpuOp :=
  (blockCall m flags).ops (withBlock m) ++ clearOps m.nextVirtAddr 512

def allocHugeOps (flags : ℕ) : ℕ → Machine → List CpuOp
  | 0, _ => []
  | n + 1, m => allocHugeStepOps m flags ++ allocHugeOps flags n (allocHugeStep m flags)

def vmmAllocHugePageOps (m : Machine) (numPages flags : ℕ) : List CpuOp :=
  allocHugeOps flags numPages
    { m with nextVirtAddr := (m.nextVirtAddr + 0x1fffff) % 2 ^ 64 &&& 0xffffffffffe00000 }

/-- The page directory that a round of `vmm_reset_heap` finds. -/
def Machine.pageDirectory (m : Machine) (addr : ℕ) : ℕ :=
  vmmGetAddr (m.entry (vmmGetAddr (m.entry m.pml4Phys (tableIndex addr 3))) (tableIndex addr 2))

/-- One round of `vmm_reset_heap`. -/
def resetSlotOps (m : Machine) (addr : ℕ) : List CpuOp :=
  [Write.op (some ([3, 2, 1].map (tableIndex addr)))
      (.entry (m.pageDirectory addr) (tableIndex addr 1) 0),
    invlpg addr]

def resetOps (addr : ℕ) (m : Machine) : List CpuOp :=
  if addr < m.nextVirtAddr then
    if addr + 0x200000 < 2 ^ 64 then
      resetSlotOps m addr ++ resetOps (addr + 0x200000) (resetSlot m addr)
    else []
  else []
termination_by 2 ^ 64 - addr
decreasing_by omega

def WorkloadAct.ops (m : Machine) : WorkloadAct → List CpuOp
  | .call (.alloc numPages flags) => vmmAllocHugePageOps m numPages flags
  | .call .reset => resetOps heapStart m
  | .store virtAddr byte => [storeOp virtAddr byte]

/-! ## Permissions -/

/-- The page grants a store when the processor checks those of the kernel too. -/
def Leaf.Writeable (v : Leaf) : Prop := v.flags &&& vmmWriteable ≠ 0

/-- The present entries of the three upper levels, those of 2 MiB pages among them, are writeable. -/
def UpperWriteable (root : ℕ) (mem : ℕ → Fin 512 → ℕ) : Prop :=
  ∀ q f i, q.length < 3 → follow paging mem 3 root q = some f → mem f i &&& vmmPresent ≠ 0 →
    mem f i &&& vmmWriteable ≠ 0

theorem Machine.LinksWriteable.upper {m : Machine} (h : m.LinksWriteable) {root : ℕ}
    (hroot : m.root = root) : UpperWriteable root m.mem := hroot ▸ h

theorem linksWriteable_of_between {m m' : Machine} (h : m.LinksWriteable) (hb : Between m m') :
    m'.LinksWriteable := by
  intro q f i hlen hq
  have hold := (hb.table q).symm.trans hq
  rw [hb.tables f ⟨q, hold⟩]
  exact h q f i hlen hold

/-- A page of either size, asked to be writeable. -/
theorem linksWriteable_exec_of_flags {m : Machine} (h : m.LinksWriteable) (htree : m.Tree)
    {c : MapCall} (hc : Orderly m c) (hflags : c.flags &&& vmmWriteable ≠ 0) :
    (c.exec m).LinksWriteable := by
  have hlinks := linksWriteable_descend h (walk_of_orderly htree hc)
  have hentry : c.newEntry &&& vmmWriteable ≠ 0 := by
    intro hzero
    apply hflags
    unfold MapCall.newEntry at hzero
    split_ifs at hzero <;> simp only [Nat.and_or_distrib_right, Nat.or_eq_zero_iff] at hzero
    · exact hzero.1.1.2
    · exact hzero.1.2
  intro q f i hlen hq hpresent
  rw [exec_table htree hc] at hq
  rw [exec_eq, mem_setEntry] at hpresent ⊢
  split_ifs at hpresent ⊢ with hslot
  · exact hentry
  · exact hlinks q f i hlen hq hpresent

/-- An entry cleared. -/
theorem linksWriteable_resetSlot {m : Machine} (h : m.LinksWriteable) (htree : m.Tree) {k b : ℕ}
    (hs : HasSlot m k b) : (resetSlot m (heapPage k)).LinksWriteable := by
  have hcleared := slotCleared_resetSlot htree hs
  intro q f i hlen hq hpresent
  rw [hcleared.table] at hq
  change ((m.setEntry (m.pageDirectory (heapPage k)) (slotIndex k) 0).mem f i) &&& _ ≠ 0 at hpresent ⊢
  rw [mem_setEntry] at hpresent ⊢
  split_ifs at hpresent ⊢ with hslot
  · exact absurd rfl hpresent
  · exact h q f i hlen hq hpresent

/-- A page of the heap has its leaf among the upper entries. -/
theorem HasSlot.hwWalk_writeable {m : Machine} {i b : ℕ} (h : HasSlot m i b) (hlinks : m.LinksWriteable)
    {off : ℕ} (hoff : off < 0x200000) :
    ∃ flags, Vmm.hwWalk m (heapPage i + off) = some (512 * b * 4096 + off, flags) ∧
      flags &&& vmmWriteable ≠ 0 := by
  obtain ⟨flags, hwalk⟩ := h.hwWalk hoff
  refine ⟨flags, hwalk, ?_⟩
  obtain ⟨pd, hpd, hp, hh, -⟩ := h
  obtain ⟨t, ht⟩ := slot_prefix_pathOf i hoff
  have hstop := find_of_stop (i := slotIndex i) hpd (link_huge hh) t
  have hleaf := hstop.trans (leaf_huge hp hh)
  rw [hwWalk_eq, Machine.leaf, ← ht, List.append_assoc, List.singleton_append, hleaf,
    Option.map_some] at hwalk
  obtain rfl := (Prod.mk.inj (Option.some.inj hwalk)).2
  have hgranted := hlinks (slotTable i) pd (slotIndex i) (by simp [slotTable]) hpd hp
  intro hzero
  apply hgranted
  have hkeep : 0xFFF0000000000FFF &&& vmmWriteable = vmmWriteable := by decide
  rw [leafFlags, Nat.and_assoc, hkeep] at hzero
  exact hzero

/-- A safe program whose accesses are granted, all the way. -/
abbrev SafeStores (root : ℕ) (final mem : ℕ → Fin 512 → ℕ) (ops : List CpuOp) : Prop :=
  Safe paging (UpperWriteable root) Leaf.Writeable 3 root final mem ∅ ops

/-! ## Adding tables -/

theorem keeps_of_between {m m' : Machine} (h : Between m m') :
    Keeps paging m.mem m'.mem 3 m.root ∅ := keeps_of_agree fun p f hp => h.tables f ⟨p, hp⟩

/-- A new table is cleared and then linked. -/
theorem safe_ensureTable {m : Machine} (hlinks : m.LinksWriteable) (htree : m.Tree)
    {p : List (Fin 512)} {table : ℕ} {index : Fin 512}
    (hp : m.table p = some (physAddrToIndex table)) (hl : 3 - p.length ≠ 0)
    (hfresh : m.entry table index &&& vmmPresent = 0 → m.FreshFrame) :
    SafeStores m.root (ensureTable m table index).mem m.mem
      ((ensureTableWrites m table index).map (Write.op none)) := by
  have hmem := mem_ensureTable_eq m table index
  have hfine := (linksWriteable_ensureTable hlinks htree hp hl hfresh).upper
    (ensureTable_root m table index)
  by_cases habsent : m.entry table index &&& vmmPresent = 0
  · have hlink := keeps_of_tableLink (tableLink_ensureTable htree hp hl habsent (hfresh habsent))
    have hclear := between_clearFrame (hfresh habsent).not_table
    rw [ensureTableWrites, if_pos habsent] at hmem ⊢
    have hroot : (m.clearFrame (pmmAlloc m.pmm).1).root = m.root := hclear.root
    have hback := keeps_of_between hclear.symm
    rw [hroot] at hback
    have hset := hback.trans hlink
    rw [Set.union_empty, hmem] at hset
    rw [hmem] at hfine ⊢
    apply safe_write (hlinks.upper rfl) (keeps_of_between hclear)
    apply safe_write ((linksWriteable_of_between hlinks hclear).upper hroot) hset
    exact safe_nil hfine
  · rw [ensureTable_of_present habsent, ensureTableWrites, if_neg habsent]
    exact safe_nil (hlinks.upper rfl)

theorem safe_descend {virtAddr : ℕ} {levels : List ℕ} {m : Machine} {table : ℕ}
    {p : List (Fin 512)} (hlinks : m.LinksWriteable) (h : Walk virtAddr levels m table p) :
    SafeStores m.root (descend virtAddr levels m table).1.mem m.mem
      ((descendWrites virtAddr levels m table).map (Write.op none)) := by
  induction h with
  | done htree hp => exact safe_nil (hlinks.upper rfl)
  | step htree hp hl hfresh hwalk ih =>
    rw [descendWrites, List.map_append]
    apply (safe_ensureTable hlinks htree hp hl hfresh).append
    have hrest := ih (linksWriteable_ensureTable hlinks htree hp hl hfresh)
    rw [SafeStores, ensureTable_root] at hrest
    exact hrest

/-- A call of a map function: tables, the leaf, and its page flushed. -/
theorem safe_exec {m : Machine} (hlinks : m.LinksWriteable) (htree : m.Tree) {c : MapCall}
    (hc : Orderly m c) (hflags : c.flags &&& vmmWriteable ≠ 0) :
    SafeStores m.root (c.exec m).mem m.mem (c.ops m) := by
  have hwalk := walk_of_orderly htree hc
  have hd := descended_of_orderly htree hc
  have hroot : (descend c.virtAddr c.levels m m.pml4Phys).1.root = m.root :=
    congrArg physAddrToIndex hd.grown.pml4Phys
  have hroot' : (c.exec m).root = m.root := by
    rw [exec_eq]
    exact hroot
  have hwrite := keeps_of_leafWrite
    (leafWrite_setEntry hd.grown.tree hd.table (link_old htree hc) (link_newEntry_path c))
  rw [hroot] at hwrite
  have hdone := (linksWriteable_exec_of_flags hlinks htree hc hflags).upper hroot'
  apply (safe_descend hlinks hwalk).append
  apply safe_write_flush ((linksWriteable_descend hlinks hwalk).upper hroot) hwrite
  · exact (path_prefix_iff c c.virtAddr).mpr rfl
  · have hmem : (c.exec m).mem = Write.apply (descend c.virtAddr c.levels m m.pml4Phys).1.mem
        (.entry (descend c.virtAddr c.levels m m.pml4Phys).2 c.index c.newEntry) :=
      congrArg Machine.mem (exec_eq m c)
    rw [hmem] at hdone ⊢
    exact safe_nil hdone

/-! ## Clearing and emptying pages -/

/-- A zero-fill through writeable pages that lead to no table. -/
theorem safe_clearMapped {m : Machine} (hlinks : m.LinksWriteable) {virtAddr pages : ℕ}
    (h : ∀ i < pages, ∃ pa fl, hwWalk m ((virtAddr + 4096 * i) % 2 ^ 64) = some (pa, fl) ∧
      fl &&& vmmWriteable ≠ 0 ∧ ¬m.IsTable (physAddrToIndex pa)) :
    SafeStores m.root (clearMapped m virtAddr pages).mem m.mem (clearOps virtAddr pages) := by
  unfold clearOps
  induction pages with
  | zero =>
    unfold clearMapped
    exact safe_nil (hlinks.upper rfl)
  | succ pages ih =>
    have hcleared : ∀ n ≤ pages + 1, Cleared m (clearMapped m virtAddr n) virtAddr n := by
      intro n hn
      apply cleared_clearMapped
      intro i hi pa fl hwalk
      obtain ⟨pa', fl', hwalk', -, hno⟩ := h i (by omega)
      obtain ⟨rfl, rfl⟩ := Prod.mk.inj (Option.some.inj (hwalk.symm.trans hwalk'))
      exact hno
    have hbefore := (hcleared pages (Nat.le_succ pages)).between
    have hafter := (hcleared (pages + 1) le_rfl).between
    obtain ⟨pa, fl, hwalk, hgranted, hno⟩ := h pages (Nat.lt_succ_self pages)
    rw [List.range_succ, List.map_append]
    apply (ih fun i hi => h i (Nat.lt_succ_of_lt hi)).append
    have hwalk' := hwalk
    rw [hwWalk_eq, Option.map_eq_some_iff] at hwalk'
    obtain ⟨v, hv, heq⟩ := hwalk'
    have hframe : v.frame ((virtAddr + 4096 * pages) % 2 ^ 64) = physAddrToIndex pa :=
      congrArg physAddrToIndex (Prod.mk.inj heq).1
    have hfind : find paging (clearMapped m virtAddr pages).mem 3 m.root
        (pathOf ((virtAddr + 4096 * pages) % 2 ^ 64)) = some v := by
      rw [← hv, ← hbefore.leaf, Machine.leaf, hbefore.root]
    have hlast : (clearMapped m virtAddr (pages + 1)).mem = Function.update
        (clearMapped m virtAddr pages).mem (v.frame ((virtAddr + 4096 * pages) % 2 ^ 64))
        fun _ => 0 := by
      rw [clearMapped_succ, hbefore.hwWalk_eq, hwalk, hframe]
      rfl
    refine ⟨(linksWriteable_of_between hlinks hbefore).upper hbefore.root, v, hfind, ?_,
      fun p hp => absurd hp (Set.notMem_empty p), ?_, ?_, hlast.symm, rfl⟩
    · obtain rfl := (Prod.mk.inj heq).2
      exact hgranted
    · have hkeeps := keeps_of_between (between_clearFrame ((hbefore.isTable _).not.mpr hno))
      rw [hbefore.root] at hkeeps
      dsimp only
      rw [hframe]
      exact hkeeps
    · dsimp only
      rw [← hlast]
      exact (linksWriteable_of_between hlinks hafter).upper hafter.root

/-- One page of a live heap cleared, and its page flushed. -/
theorem safe_resetSlot {m : Machine} (hlinks : m.LinksWriteable) (htree : m.Tree) {k b : ℕ}
    (hs : HasSlot m k b) :
    SafeStores m.root (resetSlot m (heapPage k)).mem m.mem (resetSlotOps m (heapPage k)) := by
  have hdone := (linksWriteable_resetSlot hlinks htree hs).upper (rfl : m.root = m.root)
  obtain ⟨pd, hpd, -, hhuge, -⟩ := hs
  have hframe : physAddrToIndex (m.pageDirectory (heapPage k)) = pd := physAddrToIndex_of_table hpd
  have hold : paging.link (3 - (slotTable k).length)
      (m.entry (m.pageDirectory (heapPage k)) (slotIndex k)) = none := by
    apply link_huge
    rwa [Machine.entry, hframe]
  have hwrite := keeps_of_leafWrite (leafWrite_setEntry htree (hframe.symm ▸ hpd) hold
    (link_absent (by decide : 0 &&& vmmPresent = 0)))
  have hpre := @slot_prefix_pathOf k 0 (by norm_num)
  rw [Nat.add_zero] at hpre
  exact safe_write_flush (hlinks.upper rfl) hwrite hpre ⟨hdone, rfl, rfl⟩

end MathUnikernel.Vmm
