import MathUnikernel.Requests

/-!
# The heap of 2 MiB pages

Between two resets the heap is a list of blocks, one for each page from `HEAP_START` on.
-/

namespace MathUnikernel.Vmm
open Pmm RadixTree

/-! ## Zero-filling a mapped page -/

/-- A zero-fill: the tables, the bitmap and the cursor are as before, and so is every frame that no
address of the fill translates to. -/
structure Cleared (m m' : Machine) (virtAddr pages : ℕ) : Prop where
  between : Between m m'
  pmm : m'.pmm = m.pmm
  nextVirtAddr : m'.nextVirtAddr = m.nextVirtAddr
  log : m'.log = m.log
  rest : ∀ f, (∀ i < pages, ∀ pa fl, hwWalk m ((virtAddr + 4096 * i) % 2 ^ 64) = some (pa, fl) →
    physAddrToIndex pa ≠ f) → m'.mem f = m.mem f

/-- A zero-fill through addresses that translate to no table leaves the tables alone. -/
theorem cleared_clearMapped {m : Machine} {virtAddr pages : ℕ}
    (h : ∀ i < pages, ∀ pa fl, hwWalk m ((virtAddr + 4096 * i) % 2 ^ 64) = some (pa, fl) →
      ¬m.IsTable (physAddrToIndex pa)) : Cleared m (clearMapped m virtAddr pages) virtAddr pages := by
  induction pages with
  | zero =>
    unfold clearMapped
    exact ⟨Between.refl m, rfl, rfl, rfl, fun _ _ => rfl⟩
  | succ pages ih =>
    obtain ⟨hbetween, hpmm, hnext, hlog, hrest⟩ := ih fun i hi => h i (Nat.lt_succ_of_lt hi)
    rw [clearMapped_succ, hbetween.hwWalk_eq]
    cases hwalk : hwWalk m ((virtAddr + 4096 * pages) % 2 ^ 64) with
    | none =>
      refine ⟨hbetween, hpmm, hnext, hlog, fun f hf => ?_⟩
      exact hrest f fun i hi => hf i (Nat.lt_succ_of_lt hi)
    | some v =>
      obtain ⟨pa, fl⟩ := v
      have hno := h pages (Nat.lt_succ_self pages) pa fl hwalk
      refine ⟨hbetween.trans (between_clearFrame ?_), hpmm, hnext, hlog, fun f hf => ?_⟩
      · rwa [hbetween.isTable]
      · rw [← hrest f fun i hi => hf i (Nat.lt_succ_of_lt hi)]
        exact Function.update_of_ne (hf pages (Nat.lt_succ_self pages) pa fl hwalk).symm _ _

/-- Every frame that an address of the fill translates to holds zeros. -/
theorem mem_clearMapped {m : Machine} {virtAddr pages : ℕ}
    (h : ∀ i < pages, ∀ pa fl, hwWalk m ((virtAddr + 4096 * i) % 2 ^ 64) = some (pa, fl) →
      ¬m.IsTable (physAddrToIndex pa)) {i pa fl : ℕ} (hi : i < pages)
    (hwalk : hwWalk m ((virtAddr + 4096 * i) % 2 ^ 64) = some (pa, fl)) :
    (clearMapped m virtAddr pages).mem (physAddrToIndex pa) = fun _ => 0 := by
  induction pages with
  | zero => exact absurd hi (Nat.not_lt_zero i)
  | succ pages ih =>
    have hbefore := cleared_clearMapped fun j hj => h j (Nat.lt_succ_of_lt hj)
    rw [clearMapped_succ, hbefore.between.hwWalk_eq]
    rcases Nat.lt_succ_iff_lt_or_eq.mp hi with hlt | rfl
    · have hzero := ih (fun j hj => h j (Nat.lt_succ_of_lt hj)) hlt
      cases hwWalk m ((virtAddr + 4096 * pages) % 2 ^ 64) with
      | none => exact hzero
      | some v =>
        -- clearing a frame once more does no harm
        by_cases hsame : physAddrToIndex pa = physAddrToIndex v.1
        · rw [hsame]
          exact Function.update_self _ _ _
        · exact (Function.update_of_ne hsame _ _).trans hzero
    · rw [hwalk]
      exact Function.update_self _ _ _

/-! ## Heap addresses -/

/-- The address of page `i` of the heap. -/
def heapPage (i : ℕ) : ℕ := heapStart + i * 0x200000

theorem heapPage_zero : heapPage 0 = heapStart := by rw [heapPage, Nat.zero_mul, Nat.add_zero]

/-- The pages that blocks below byte `2 ^ 31` of the bitmap can fill: 64 TiB. -/
def heapPages : ℕ := 2 ^ 25

/-- The path of the page directory for page `i`, and the page's index in it. -/
def slotTable (i : ℕ) : List (Fin 512) := [3, 2].map (tableIndex (heapPage i))

def slotIndex (i : ℕ) : Fin 512 := tableIndex (heapPage i) 1

theorem covers_heapPage {i j physAddr flags : ℕ} (hi : i < heapPages) (hj : j < heapPages) :
    (⟨true, heapPage i, physAddr, flags⟩ : MapCall).Covers (heapPage j) ↔ i = j := by
  unfold heapPages at hi hj
  simp only [MapCall.Covers, MapCall.size, if_true, heapPage, heapStart]
  omega

theorem covers_heapPage_add (i physAddr flags : ℕ) {off : ℕ} (hoff : off < 0x200000) :
    (⟨true, heapPage i, physAddr, flags⟩ : MapCall).Covers (heapPage i + off) := by
  simp only [MapCall.Covers, MapCall.size, if_true, heapPage, heapStart]
  omega

/-- The walk of an address on page `i` passes through the page's slot. -/
theorem slot_prefix_pathOf (i : ℕ) {off : ℕ} (hoff : off < 0x200000) :
    slotTable i ++ [slotIndex i] <+: pathOf (heapPage i + off) :=
  (path_prefix_iff ⟨true, heapPage i, 0, 0⟩ _).mpr (covers_heapPage_add i 0 0 hoff)

theorem slot_inj {i j : ℕ} (hi : i < heapPages) (hj : j < heapPages)
    (h : slotTable i ++ [slotIndex i] = slotTable j ++ [slotIndex j]) : i = j := by
  have hpre := @slot_prefix_pathOf j 0 (by norm_num)
  rw [← h, Nat.add_zero] at hpre
  exact (@covers_heapPage i j 0 0 hi hj).mp ((path_prefix_iff ⟨true, heapPage i, 0, 0⟩ _).mp hpre)

/-- Page `i` is mapped to block `b`. -/
def HasSlot (m : Machine) (i b : ℕ) : Prop :=
  ∃ pd, m.table (slotTable i) = some pd ∧ m.mem pd (slotIndex i) &&& vmmPresent ≠ 0 ∧
    m.mem pd (slotIndex i) &&& vmmHuge ≠ 0 ∧ vmmGetAddr (m.mem pd (slotIndex i)) = 512 * b * 4096

/-- Nothing is mapped at page `i`, and no table below its page directory. -/
structure Vacant (m : Machine) (i : ℕ) : Prop where
  table : m.table (slotTable i ++ [slotIndex i]) = none
  leaf : ∀ q, slotTable i ++ [slotIndex i] <+: q → m.leaf q = none

theorem HasSlot.leaf {m : Machine} {i b : ℕ} (h : HasSlot m i b) {q : List (Fin 512)}
    (hq : slotTable i ++ [slotIndex i] <+: q) :
    ∃ flags, m.leaf q = some ⟨512 * b * 4096, 0x200000, flags⟩ := by
  obtain ⟨pd, hpd, hp, hh, haddr⟩ := h
  obtain ⟨t, rfl⟩ := hq
  have hstop := find_of_stop (i := slotIndex i) hpd (link_huge hh) t
  refine ⟨leafFlags (m.mem pd (slotIndex i)), ?_⟩
  rw [List.append_assoc]
  refine hstop.trans ((leaf_huge hp hh).trans ?_)
  rw [haddr]
  have hbase : 512 * b * 4096 / 0x200000 * 0x200000 = 512 * b * 4096 := by omega
  rw [hbase]

/-- The addresses of page `i` lead to the frames of its block. -/
theorem HasSlot.hwWalk {m : Machine} {i b : ℕ} (h : HasSlot m i b) {off : ℕ}
    (hoff : off < 0x200000) :
    ∃ flags, hwWalk m (heapPage i + off) = some (512 * b * 4096 + off, flags) := by
  obtain ⟨flags, hleaf⟩ := h.leaf (slot_prefix_pathOf i hoff)
  have hmod : (heapPage i + off) % 0x200000 = off := by
    simp only [heapPage, heapStart]
    omega
  exact ⟨flags, by rw [hwWalk_eq, hleaf, Option.map_some, hmod]⟩

theorem Vacant.hwWalk {m : Machine} {i : ℕ} (h : Vacant m i) {off : ℕ} (hoff : off < 0x200000) :
    hwWalk m (heapPage i + off) = none := by
  rw [hwWalk_eq, h.leaf _ (slot_prefix_pathOf i hoff), Option.map_none]

theorem Between.hasSlot {m m' : Machine} (h : Between m m') {i b : ℕ} (hs : HasSlot m i b) :
    HasSlot m' i b := by
  obtain ⟨pd, hpd, hrest⟩ := hs
  exact ⟨pd, (h.table _).trans hpd, by rwa [h.tables pd ⟨_, hpd⟩]⟩

theorem Between.vacant {m m' : Machine} (h : Between m m') {i : ℕ} (hv : Vacant m i) :
    Vacant m' i :=
  ⟨(h.table _).trans hv.table, fun q hq => (h.leaf q).trans (hv.leaf q hq)⟩

/-! ## The heap and the bitmap -/

/-- Pages `k, k + 1, …` of the heap are mapped to the given blocks and its other pages are vacant.
The frames in use are those of the blocks and, apart from them, the kept ones, tables included. -/
structure Heap (m : Machine) (kept : Set ℕ) (k : ℕ) (blocks : List ℕ) : Prop where
  tree : m.Tree
  totalFrames_le : m.pmm.totalFrames ≤ 2 ^ 40
  tables : ∀ f, m.IsTable f → f ∈ kept
  used : ∀ f, m.pmm.used f = true ↔ f ∈ kept ∨ ∃ b ∈ blocks, f ∈ block b
  apart : ∀ b ∈ blocks, ∀ f ∈ block b, f ∉ kept
  nodup : blocks.Nodup
  low : ∀ b ∈ blocks, b < heapPages ∧ 64 * b + 64 ≤ m.pmm.bitmapSize
  le : k + blocks.length ≤ heapPages
  slot : ∀ j b, blocks[j]? = some b → HasSlot m (k + j) b
  vacant : ∀ i < heapPages, i < k ∨ k + blocks.length ≤ i → Vacant m i

theorem Heap.claimed {m : Machine} {kept : Set ℕ} {k : ℕ} {blocks : List ℕ}
    (h : Heap m kept k blocks) : Claimed m :=
  ⟨h.tree, fun f hf => (h.used f).mpr (.inl (h.tables f hf)), h.totalFrames_le⟩

/-- The heap does not depend on memory outside the tables, the cursor or the log. -/
theorem Heap.between {m m' : Machine} {kept : Set ℕ} {k : ℕ} {blocks : List ℕ}
    (h : Heap m kept k blocks) (hb : Between m m') (hpmm : m'.pmm = m.pmm) :
    Heap m' kept k blocks where
  tree := hb.tree h.tree
  totalFrames_le := hpmm ▸ h.totalFrames_le
  tables f hf := h.tables f ((hb.isTable f).mp hf)
  used f := hpmm ▸ h.used f
  apart := h.apart
  nodup := h.nodup
  low := hpmm ▸ h.low
  le := h.le
  slot j b hj := hb.hasSlot (h.slot j b hj)
  vacant i hi hk := hb.vacant (h.vacant i hi hk)

/-- The machine once `pmm_alloc_2mb` has returned, and the call that maps the result. -/
def withBlock (m : Machine) : Machine :=
  { m.note [.alloc2mb m.pmm] with pmm := (pmmAlloc2mb m.pmm).2 }

def blockCall (m : Machine) (flags : ℕ) : MapCall :=
  ⟨true, m.nextVirtAddr, (pmmAlloc2mb m.pmm).1, flags⟩

theorem allocHugeStep_eq (m : Machine) (flags : ℕ) :
    allocHugeStep m flags =
      { (clearMapped ((blockCall m flags).exec (withBlock m))
          ((blockCall m flags).exec (withBlock m)).nextVirtAddr 512).note
            [.leaf (pmmAlloc2mb m.pmm).1, .zero (pmmAlloc2mb m.pmm).1] with
        nextVirtAddr := ((clearMapped ((blockCall m flags).exec (withBlock m))
          ((blockCall m flags).exec (withBlock m)).nextVirtAddr 512).nextVirtAddr + 0x200000) %
            2 ^ 64 } := rfl

theorem allocHugeStep_log (m : Machine) (flags : ℕ) :
    (allocHugeStep m flags).log = ((blockCall m flags).exec (withBlock m)).log ++
      [.leaf (pmmAlloc2mb m.pmm).1, .zero (pmmAlloc2mb m.pmm).1] := by
  rw [allocHugeStep_eq]
  simp only [Machine.note, clearMapped_log]

theorem withBlock_log_le (m : Machine) (flags : ℕ) :
    (withBlock m).log <+: (allocHugeStep m flags).log := by
  rw [allocHugeStep_log]
  exact (exec_log (withBlock m) (blockCall m flags)).trans (List.prefix_append _ _)

/-- Some free block, and so the lowest one, lies below byte `2 ^ 31` of the bitmap. -/
def HasLowBlock (s : PmmContext) : Prop := ∃ b < heapPages, FreeGroup s b

/-- A request for a block that is served, with a block below byte `2 ^ 31`. -/
theorem pmmAlloc2mb_of_low {s : PmmContext} (hserved : HasBlock s) (hlow : HasLowBlock s) :
    ∃ b, FreeGroup s b ∧ b < heapPages ∧ (pmmAlloc2mb s).1 = 512 * b * 4096 ∧
      ∀ f, (pmmAlloc2mb s).2.used f = true ↔ s.used f = true ∨ f ∈ block b := by
  obtain ⟨b, hb, hfirst, -⟩ := hserved
  obtain ⟨b', hb', hfree'⟩ := hlow
  have hle : b ≤ b' := Nat.le_of_not_lt fun h => hfirst b' h hfree'
  unfold heapPages at hb' ⊢
  refine ⟨b, hb, by omega, ?_, fun f => ?_⟩
  · rw [pmmAlloc2mb_of_first hb hfirst, indexToPhysAddr_of_lt (by omega)]
  · rw [used_pmmAlloc2mb hb hfirst (by omega)]
    simp [block]

/-! ## Adding a page -/

/-- `m'` is `m` with the block `b` at the next page of the heap. -/
structure PageAdded (m m' : Machine) (kept : Set ℕ) (blocks : List ℕ) (b : ℕ) : Prop where
  heap : Heap m' (kept ∪ {f | m'.IsTable f}) 0 (blocks ++ [b])
  nextVirtAddr : m'.nextVirtAddr = heapPage (blocks.length + 1)
  free : ∀ f ∈ block b, m.pmm.used f = false
  fresh : ∀ f, m'.IsTable f → m.IsTable f ∨ m.pmm.used f = false
  table : ∀ q f, m.table q = some f → m'.table q = some f
  same_tables : (∃ pd, m.table (slotTable blocks.length) = some pd) →
    ∀ f, m'.IsTable f → m.IsTable f

theorem hasBlock_of_served {m : Machine} {flags : ℕ} (h : (allocHugeStep m flags).Served) :
    HasBlock m.pmm := by
  refine h (.alloc2mb m.pmm) ((withBlock_log_le m flags).subset ?_)
  exact List.mem_append_right _ (List.mem_singleton.mpr rfl)

/-- Distinct blocks below `heapPages` are at most `heapPages` in number. -/
theorem length_le_of_low {blocks : List ℕ} (hnodup : blocks.Nodup)
    (hlow : ∀ b ∈ blocks, b < heapPages) : blocks.length ≤ heapPages := by
  have hsub : blocks ⊆ List.range heapPages := fun b hb => List.mem_range.mpr (hlow b hb)
  have hle := (hnodup.subperm hsub).length_le
  rwa [List.length_range] at hle

/-- A call of `vmm_alloc_huge_page` is about to give the next page the block `b`. -/
structure NextPage (m : Machine) (kept : Set ℕ) (blocks : List ℕ) (flags b : ℕ) : Prop where
  heap : Heap m kept 0 blocks
  nextVirtAddr : m.nextVirtAddr = heapPage blocks.length
  flags_addr : flags &&& vmmAddrMask = 0
  flags_lt : flags < 2 ^ 64
  served : (allocHugeStep m flags).Served
  free : FreeGroup m.pmm b
  low : b < heapPages
  result : (pmmAlloc2mb m.pmm).1 = 512 * b * 4096
  used : ∀ f, (pmmAlloc2mb m.pmm).2.used f = true ↔ m.pmm.used f = true ∨ f ∈ block b

namespace NextPage

variable {m : Machine} {kept : Set ℕ} {blocks : List ℕ} {flags b : ℕ}
  (h : NextPage m kept blocks flags b)
include h

theorem not_mem : b ∉ blocks := by
  intro hmem
  have htrue := (h.heap.used (512 * b)).mpr (.inr ⟨b, hmem, le_rfl, by omega⟩)
  rw [h.free.free (512 * b) le_rfl (by omega)] at htrue
  exact Bool.false_ne_true htrue

theorem length_lt : blocks.length < heapPages := by
  refine @length_le_of_low (b :: blocks) (List.nodup_cons.mpr ⟨h.not_mem, h.heap.nodup⟩) ?_
  intro b' hb'
  rcases List.mem_cons.mp hb' with rfl | hmem
  · exact h.low
  · exact (h.heap.low b' hmem).1

theorem not_kept {f : ℕ} (hf : f ∈ block b) : f ∉ kept := by
  intro hkept
  have htrue := (h.heap.used f).mpr (.inl hkept)
  rw [h.free.free f hf.1 hf.2] at htrue
  exact Bool.false_ne_true htrue

theorem claimed : Claimed (withBlock m) :=
  ⟨h.heap.tree, fun f hf => (h.used f).mpr (.inl (h.heap.claimed.used f hf)),
    (pmmAlloc2mb_totalFrames m.pmm).trans_le h.heap.totalFrames_le⟩

theorem path_eq : (blockCall m flags).path = slotTable blocks.length := by
  rw [slotTable, ← h.nextVirtAddr]
  rfl

theorem index_eq : (blockCall m flags).index = slotIndex blocks.length := by
  rw [slotIndex, ← h.nextVirtAddr]
  rfl

theorem regular : Regular (withBlock m) (blockCall m flags) := by
  have hlen := h.length_lt
  have hlow := h.low
  have hphys : (blockCall m flags).physAddr = 512 * b * 4096 := h.result
  unfold heapPages at hlow
  have hwalk : (descend (blockCall m flags).virtAddr (blockCall m flags).levels (withBlock m)
      (withBlock m).pml4Phys).1.Served := by
    refine h.served.of_prefix ?_
    rw [allocHugeStep_log, exec_eq]
    exact List.prefix_append _ _
  refine ⟨regularWalk_of_served (p := []) h.claimed rfl (levels_target _)
    (leaf_of_short _ le_rfl) hwalk, ?_, fun _ => ?_, h.flags_addr, h.flags_lt, fun _ => ?_⟩
  · rw [hphys]
    omega
  · rw [hphys]
    omega
  · rw [h.path_eq, h.index_eq]
    exact (h.heap.vacant _ hlen (.inr (by omega))).table

theorem mapped : Mapped (withBlock m) ((blockCall m flags).exec (withBlock m))
    (slotTable blocks.length) (slotIndex blocks.length) (blockCall m flags).newEntry := by
  have hmapped := mapped_of_regular h.claimed.tree h.regular
  rwa [h.path_eq, h.index_eq] at hmapped

/-- No table lies in the new block, before or after the mapping. -/
theorem not_table {f : ℕ} (hf : f ∈ block b) :
    ¬((blockCall m flags).exec (withBlock m)).IsTable f := by
  intro htable
  have hT := h.claimed.totalFrames_le
  rcases h.mapped.fresh (by omega) f htable with hold | hfree
  · exact h.not_kept hf (h.heap.tables f hold)
  · have htrue : (withBlock m).pmm.used f = true := (h.used f).mpr (.inr hf)
    rw [htrue] at hfree
    exact absurd hfree (by simp)

theorem newEntry_facts : (blockCall m flags).newEntry &&& vmmPresent ≠ 0 ∧
    (blockCall m flags).newEntry &&& vmmHuge ≠ 0 ∧
    vmmGetAddr (blockCall m flags).newEntry = 512 * b * 4096 := by
  refine ⟨newEntry_present h.regular, newEntry_huge rfl, ?_⟩
  have hphys : (blockCall m flags).physAddr = 512 * b * 4096 := h.result
  rw [(leafEntry_newEntry h.regular).getAddr, hphys]
  omega

theorem hasSlot : HasSlot ((blockCall m flags).exec (withBlock m)) blocks.length b := by
  obtain ⟨pd, hpd, hentry⟩ := h.mapped.slot
  exact ⟨pd, hpd, hentry ▸ h.newEntry_facts⟩

theorem hasSlot_old {i b' : ℕ} (hi : i < blocks.length) (hs : HasSlot m i b') :
    HasSlot ((blockCall m flags).exec (withBlock m)) i b' := by
  obtain ⟨pd, hpd, hp, hrest⟩ := hs
  have hlen := h.length_lt
  have hother := h.mapped.entry_other (slotTable i) pd (slotIndex i) hpd hp fun heq => by
    obtain ⟨h1, h2⟩ := Prod.mk.inj heq
    have := slot_inj (by omega) hlen (show slotTable i ++ [slotIndex i] = _ by rw [h1, h2])
    omega
  refine ⟨pd, h.mapped.table _ pd hpd, ?_⟩
  rw [hother]
  exact ⟨hp, hrest⟩

theorem vacant_other {i : ℕ} (hi : i < heapPages) (hne : i ≠ blocks.length) (hv : Vacant m i) :
    Vacant ((blockCall m flags).exec (withBlock m)) i := by
  refine ⟨?_, fun q hq => ?_⟩
  · cases htable : ((blockCall m flags).exec (withBlock m)).table (slotTable i ++ [slotIndex i]) with
    | none => rfl
    | some f =>
      rcases h.mapped.table_cases _ f htable with hold | hlen
      · exact absurd (hold.symm.trans hv.table) (by simp)
      · simp [slotTable] at hlen
  · refine (h.mapped.leaf_other q fun hpre => hne ?_).trans (hv.leaf q hq)
    refine slot_inj hi h.length_lt ?_
    have hle : (slotTable i ++ [slotIndex i]).length ≤
        (slotTable blocks.length ++ [slotIndex blocks.length]).length := by simp [slotTable]
    exact (List.prefix_of_prefix_length_le hq hpre hle).eq_of_length (by simp [slotTable])

/-- The heap before the fill. -/
theorem heap_mapped : Heap ((blockCall m flags).exec (withBlock m))
    (kept ∪ {f | ((blockCall m flags).exec (withBlock m)).IsTable f}) 0 (blocks ++ [b]) := by
  have hm := h.mapped
  have hT := h.claimed.totalFrames_le
  have hlen := h.length_lt
  have hsize : ((blockCall m flags).exec (withBlock m)).pmm.bitmapSize = m.pmm.bitmapSize :=
    hm.bitmapSize.trans (pmmAlloc2mb_bitmapSize m.pmm)
  have hmarked : ∀ f, (withBlock m).pmm.used f = true ↔
      (f ∈ kept ∨ ∃ b' ∈ blocks, f ∈ block b') ∨ f ∈ block b := fun f => by
    rw [← h.heap.used]
    exact h.used f
  refine ⟨hm.tree, hm.totalFrames.trans_le hT, fun f hf => .inr hf, fun f => ?_, fun b' hb' f hf => ?_,
    ?_, fun b' hb' => ?_, ?_, fun j b' hj => ?_, fun i hi hk => ?_⟩
  · rw [hm.used (by omega), hmarked]
    have hold : (withBlock m).IsTable f → f ∈ kept := h.heap.tables f
    simp only [Set.mem_union, Set.mem_ofPred_eq, List.mem_append, List.mem_singleton, or_and_right,
      exists_or, exists_eq_left]
    generalize (∃ b' ∈ blocks, f ∈ block b') = inBlocks
    tauto
  · rcases List.mem_append.mp hb' with hmem | hmem
    · have hkept := h.heap.apart b' hmem f hf
      refine fun hu => hu.elim hkept fun htable => ?_
      rcases hm.fresh (by omega) f htable with hold | hfree
      · exact hkept (h.heap.tables f hold)
      · rw [(hmarked f).mpr (.inl (.inr ⟨b', hmem, hf⟩))] at hfree
        exact absurd hfree (by simp)
    · rw [List.mem_singleton.mp hmem] at hf
      exact fun hu => hu.elim (h.not_kept hf) (h.not_table hf)
  · refine List.nodup_append.mpr ⟨h.heap.nodup, List.nodup_singleton b, fun b' hb' c hc => ?_⟩
    rw [List.mem_singleton.mp hc]
    exact fun heq => h.not_mem (heq ▸ hb')
  · rw [hsize]
    rcases List.mem_append.mp hb' with hmem | hmem
    · exact h.heap.low b' hmem
    · rw [List.mem_singleton.mp hmem]
      exact ⟨h.low, h.free.le_size⟩
  · rw [List.length_append, List.length_singleton]
    omega
  · rw [Nat.zero_add]
    by_cases hjl : j < blocks.length
    · rw [List.getElem?_append_left hjl] at hj
      exact h.hasSlot_old hjl (Nat.zero_add j ▸ h.heap.slot j b' hj)
    · rw [List.getElem?_append_right (by omega)] at hj
      obtain ⟨hz, rfl⟩ : j - blocks.length = 0 ∧ b' = b := by
        rw [List.getElem?_singleton] at hj
        split_ifs at hj with h0
        exact ⟨h0, (Option.some.inj hj).symm⟩
      obtain rfl : j = blocks.length := by omega
      exact h.hasSlot
  · rw [List.length_append, List.length_singleton] at hk
    exact h.vacant_other hi (by omega) (h.heap.vacant i hi (.inr (by omega)))

/-- The addresses of the fill lead to the frames of the block, in order. -/
theorem fill_walk {i : ℕ} (hi : i < 512) :
    ∃ fl, Vmm.hwWalk ((blockCall m flags).exec (withBlock m))
      ((((blockCall m flags).exec (withBlock m)).nextVirtAddr + 4096 * i) % 2 ^ 64) =
        some (512 * b * 4096 + 4096 * i, fl) := by
  have hlen := h.length_lt
  have hcursor : ((blockCall m flags).exec (withBlock m)).nextVirtAddr = heapPage blocks.length :=
    h.mapped.nextVirtAddr.trans h.nextVirtAddr
  have hmod : (heapPage blocks.length + 4096 * i) % 2 ^ 64 = heapPage blocks.length + 4096 * i := by
    unfold heapPages at hlen
    simp only [heapPage, heapStart]
    omega
  rw [hcursor, hmod]
  exact h.hasSlot.hwWalk (by omega)

theorem fill_not_table (i : ℕ) (hi : i < 512) (pa fl : ℕ)
    (hwalk : Vmm.hwWalk ((blockCall m flags).exec (withBlock m))
      ((((blockCall m flags).exec (withBlock m)).nextVirtAddr + 4096 * i) % 2 ^ 64) = some (pa, fl)) :
    ¬((blockCall m flags).exec (withBlock m)).IsTable (physAddrToIndex pa) := by
  obtain ⟨fl', hslot⟩ := h.fill_walk hi
  obtain ⟨rfl, -⟩ := Prod.mk.inj (Option.some.inj (hwalk.symm.trans hslot))
  apply h.not_table
  simp only [physAddrToIndex, block, Set.mem_ofPred_eq]
  omega

/-- The fill clears the frames of the block. -/
theorem cleared : Cleared ((blockCall m flags).exec (withBlock m))
    (clearMapped ((blockCall m flags).exec (withBlock m))
      ((blockCall m flags).exec (withBlock m)).nextVirtAddr 512)
    ((blockCall m flags).exec (withBlock m)).nextVirtAddr 512 :=
  cleared_clearMapped h.fill_not_table

theorem between : Between ((blockCall m flags).exec (withBlock m)) (allocHugeStep m flags) := by
  rw [allocHugeStep_eq]
  exact ⟨h.cleared.between.pml4Phys, h.cleared.between.tables⟩

theorem pmm : (allocHugeStep m flags).pmm = ((blockCall m flags).exec (withBlock m)).pmm := by
  rw [allocHugeStep_eq]
  exact h.cleared.pmm

theorem bitmapSize : (allocHugeStep m flags).pmm.bitmapSize = m.pmm.bitmapSize := by
  rw [h.pmm, h.mapped.bitmapSize]
  exact pmmAlloc2mb_bitmapSize m.pmm

theorem pageAdded : PageAdded m (allocHugeStep m flags) kept blocks b := by
  have hbetween := h.between
  have hT := h.claimed.totalFrames_le
  have hlen := h.length_lt
  have hset : {f | (allocHugeStep m flags).IsTable f} =
      {f | ((blockCall m flags).exec (withBlock m)).IsTable f} := by
    ext f
    exact hbetween.isTable f
  refine ⟨?_, ?_, fun f hf => h.free.free f hf.1 hf.2, fun f hf => ?_, fun q f hq => ?_,
    fun ⟨pd, hpd⟩ f hf => ?_⟩
  · rw [hset]
    exact h.heap_mapped.between hbetween h.pmm
  · have hcursor := h.cleared.nextVirtAddr.trans (h.mapped.nextVirtAddr.trans h.nextVirtAddr)
    unfold heapPages at hlen
    rw [allocHugeStep_eq]
    simp only [hcursor, heapPage, heapStart]
    omega
  · rw [hbetween.isTable] at hf
    refine (h.mapped.fresh (by omega) f hf).imp_right fun hfree => ?_
    by_contra hused
    have htrue : (withBlock m).pmm.used f = true := (h.used f).mpr (.inl (by simpa using hused))
    rw [htrue] at hfree
    exact absurd hfree (by simp)
  · exact (hbetween.table q).trans (h.mapped.table q f hq)
  · rw [hbetween.isTable] at hf
    exact isTable_of_table h.claimed.tree h.regular (h.path_eq.symm ▸ hpd) hf

end NextPage

end MathUnikernel.Vmm
