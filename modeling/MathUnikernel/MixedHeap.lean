import MathUnikernel.HeapSessions
import MathUnikernel.MapOps

/-!
# Pages of both sizes on the heap

`vmm_alloc` and `vmm_alloc_huge_page` share one cursor.  Each page is requested, mapped at the cursor
and cleared in the same way.
-/

namespace MathUnikernel.Vmm
open Pmm RadixTree

/-! ## One page of either size -/

def pageSize (huge : Bool) : ℕ := if huge then 0x200000 else 4096

def request (huge : Bool) (s : PmmContext) : ℕ × PmmContext :=
  if huge then pmmAlloc2mb s else pmmAlloc s

def requestEvent (huge : Bool) (s : PmmContext) : Event := if huge then .alloc2mb s else .alloc s

/-- The body of the loop of `vmm_alloc_huge_page`, or of `vmm_alloc`. -/
def pageStep (huge : Bool) (flags : ℕ) (m : Machine) : Machine :=
  if huge then allocHugeStep m flags else allocStep m flags

/-- The machine once the request has returned, and the call that maps the result. -/
def withPage (huge : Bool) (m : Machine) : Machine :=
  { m.note [requestEvent huge m.pmm] with pmm := (request huge m.pmm).2 }

def pageCall (huge : Bool) (flags : ℕ) (m : Machine) : MapCall :=
  ⟨huge, m.nextVirtAddr, (request huge m.pmm).1, flags⟩

/-- The machine before the page is cleared. -/
def mappedPage (huge : Bool) (flags : ℕ) (m : Machine) : Machine :=
  (pageCall huge flags m).exec (withPage huge m)

def clearedPage (huge : Bool) (flags : ℕ) (m : Machine) : Machine :=
  clearMapped (mappedPage huge flags m) (mappedPage huge flags m).nextVirtAddr (pageSize huge / 4096)

theorem pageStep_eq (huge : Bool) (flags : ℕ) (m : Machine) :
    pageStep huge flags m =
      { (clearedPage huge flags m).note [.leaf (request huge m.pmm).1, .zero (request huge m.pmm).1] with
        nextVirtAddr := ((clearedPage huge flags m).nextVirtAddr + pageSize huge) % 2 ^ 64 } := by
  cases huge <;> rfl

theorem pageStep_log (huge : Bool) (flags : ℕ) (m : Machine) :
    (pageStep huge flags m).log =
      (mappedPage huge flags m).log ++ [.leaf (request huge m.pmm).1, .zero (request huge m.pmm).1] := by
  rw [pageStep_eq]
  simp only [Machine.note, clearedPage, clearMapped_log]

theorem withPage_log_le (huge : Bool) (flags : ℕ) (m : Machine) :
    (withPage huge m).log <+: (pageStep huge flags m).log := by
  rw [pageStep_log]
  exact (exec_log _ _).trans (List.prefix_append _ _)

theorem log_pageStep (huge : Bool) (flags : ℕ) (m : Machine) :
    m.log <+: (pageStep huge flags m).log :=
  (List.prefix_append _ _).trans (withPage_log_le huge flags m)

/-- The frames of a page at a physical address. -/
def pageFrames (huge : Bool) (physAddr : ℕ) : Set ℕ :=
  {f | physAddr / 4096 ≤ f ∧ f < physAddr / 4096 + pageSize huge / 4096}

/-- The frames of a page, one after the other. -/
theorem mem_pageFrames_iff {huge : Bool} {physAddr f : ℕ} :
    f ∈ pageFrames huge physAddr ↔
      ∃ i < pageSize huge / 4096, physAddrToIndex (physAddr + 4096 * i) = f := by
  simp only [pageFrames, physAddrToIndex, Set.mem_ofPred_eq]
  constructor
  · rintro ⟨hlo, hhi⟩
    exact ⟨f - physAddr / 4096, by omega, by omega⟩
  · rintro ⟨i, hi, rfl⟩
    omega

/-- What a request returns: an aligned page of free frames, and these frames are claimed. -/
structure Given (huge : Bool) (s : PmmContext) : Prop where
  aligned : (request huge s).1 % pageSize huge = 0
  lt : (request huge s).1 < 2 ^ 52
  free : ∀ f ∈ pageFrames huge (request huge s).1, s.used f = false
  used : ∀ f, (request huge s).2.used f = true ↔
    s.used f = true ∨ f ∈ pageFrames huge (request huge s).1
  totalFrames : (request huge s).2.totalFrames = s.totalFrames

theorem given_frame {s : PmmContext} (h : HasFrame s) (hT : s.totalFrames ≤ 2 ^ 40) :
    Given false s := by
  have hne := (hasFrame_iff s).mp h
  have haligned := pmmAlloc_aligned s
  have hframe : ∀ f, f ∈ pageFrames false (pmmAlloc s).1 ↔ f = physAddrToIndex (pmmAlloc s).1 := by
    intro f
    simp only [pageFrames, pageSize, physAddrToIndex, Set.mem_ofPred_eq, Bool.false_eq_true, if_false]
    omega
  refine ⟨haligned, ?_, fun f hf => ?_, fun f => ?_, pmmAlloc_totalFrames s⟩
  · obtain ⟨f, hf, -⟩ := h
    have hlt := hf.lt_total
    change (pmmAlloc s).1 < _
    rw [pmmAlloc_of_firstFree hf, indexToPhysAddr_of_lt (by omega)]
    omega
  · rw [(hframe f).mp hf]
    exact free_pmmAlloc hne (by omega)
  · exact (used_pmmAlloc hne (by omega) f).trans (or_congr_right (hframe f).symm)

theorem given_block {s : PmmContext} (h : HasBlock s) (hlow : HasLowBlock s) : Given true s := by
  obtain ⟨b, hfree, hb, hresult, hused⟩ := pmmAlloc2mb_of_low h hlow
  have hr : (request true s).1 = 512 * b * 4096 := hresult
  have hframes : pageFrames true (request true s).1 = block b := by
    ext f
    rw [hr]
    simp only [pageFrames, pageSize, block, Set.mem_ofPred_eq, if_true]
    omega
  unfold heapPages at hb
  refine ⟨?_, ?_, ?_, ?_, pmmAlloc2mb_totalFrames s⟩
  · rw [hr]
    simp only [pageSize, if_true]
    omega
  · rw [hr]
    omega
  · rw [hframes]
    exact fun f hf => hfree.free f hf.1 hf.2
  · rw [hframes]
    exact hused

theorem given_of_ready {huge : Bool} {flags : ℕ} {m : Machine}
    (hready : (pageStep huge flags m).Ready) (hT : m.pmm.totalFrames ≤ 2 ^ 40) : Given huge m.pmm := by
  have hmem : requestEvent huge m.pmm ∈ (pageStep huge flags m).log :=
    (withPage_log_le huge flags m).subset (List.mem_append_right _ (List.mem_singleton.mpr rfl))
  cases huge with
  | false => exact given_frame (hready.served _ hmem) hT
  | true => exact given_block (hready.served _ hmem) (hready.low _ hmem)

/-- A page is about to be mapped at the cursor. -/
structure PageNext (huge : Bool) (flags : ℕ) (m : Machine) : Prop where
  claimed : Claimed m
  given : Given huge m.pmm
  regular : Regular (withPage huge m) (pageCall huge flags m)
  aligned : m.nextVirtAddr % pageSize huge = 0
  lt : m.nextVirtAddr < 2 ^ 64

theorem Given.claimed {huge : Bool} {m : Machine} (h : Given huge m.pmm) (hm : Claimed m) :
    Claimed (withPage huge m) :=
  ⟨hm.tree, fun f hf => (h.used f).mpr (.inl (hm.used f hf)),
    h.totalFrames.trans_le hm.totalFrames_le⟩

namespace PageNext

variable {huge : Bool} {flags : ℕ} {m : Machine} (h : PageNext huge flags m)
include h

/-- An aligned page ends where the address space does or before. -/
theorem le : m.nextVirtAddr + pageSize huge ≤ 2 ^ 64 := by
  have haligned := h.aligned
  have hlt := h.lt
  cases huge
  · simp only [pageSize, Bool.false_eq_true, if_false] at haligned ⊢
    omega
  · simp only [pageSize, if_true] at haligned ⊢
    omega

theorem mapped : Mapped (withPage huge m) (mappedPage huge flags m) (pageCall huge flags m).path
    (pageCall huge flags m).index (pageCall huge flags m).newEntry :=
  mapped_of_regular (h.given.claimed h.claimed).tree h.regular

theorem hwWalk_mappedPage :
    hwWalk (mappedPage huge flags m) = (pageCall huge flags m).apply (hwWalk m) :=
  hwWalk_exec (h.given.claimed h.claimed).tree h.regular

/-- The page is found where it was mapped. -/
theorem walk_new {off : ℕ} (hoff : off < pageSize huge) :
    hwWalk (mappedPage huge flags m) (m.nextVirtAddr + off) =
      some ((request huge m.pmm).1 + off, (pageCall huge flags m).flagsOf) := by
  have haligned := h.aligned
  have hphys := h.given.aligned
  have hcov : (pageCall huge flags m).Covers (m.nextVirtAddr + off) := by
    cases huge
    · simp only [pageSize, Bool.false_eq_true, if_false] at haligned hoff
      simp only [MapCall.Covers, MapCall.size, pageCall, Bool.false_eq_true, if_false]
      omega
    · simp only [pageSize, if_true] at haligned hoff
      simp only [MapCall.Covers, MapCall.size, pageCall, if_true]
      omega
  rw [h.hwWalk_mappedPage, MapCall.apply, if_pos hcov]
  change some ((request huge m.pmm).1 / pageSize huge * pageSize huge +
    (m.nextVirtAddr + off) % pageSize huge, _) = _
  rw [Nat.div_mul_cancel (Nat.dvd_of_mod_eq_zero hphys), Nat.add_mod, haligned, Nat.zero_add,
    Nat.mod_mod, Nat.mod_eq_of_lt hoff]

/-- The frames of the new page hold data. -/
theorem data_new {f : ℕ} (hf : f ∈ pageFrames huge (request huge m.pmm).1) :
    (mappedPage huge flags m).Data f := by
  refine (h.mapped.later (h.given.claimed h.claimed)).data
    ⟨(h.given.used f).mpr (.inr hf), fun htable => ?_⟩
  have hused := h.claimed.used f htable
  rw [h.given.free f hf] at hused
  exact Bool.false_ne_true hused

theorem data_old {f : ℕ} (hf : m.Data f) : (mappedPage huge flags m).Data f :=
  (h.mapped.later (h.given.claimed h.claimed)).data ⟨(h.given.used f).mpr (.inl hf.1), hf.2⟩

/-- The addresses of the fill lead to the frames of the page. -/
theorem fill_walk {i : ℕ} (hi : i < pageSize huge / 4096) :
    hwWalk (mappedPage huge flags m)
        (((mappedPage huge flags m).nextVirtAddr + 4096 * i) % 2 ^ 64) =
      some ((request huge m.pmm).1 + 4096 * i, (pageCall huge flags m).flagsOf) := by
  have hle := h.le
  have hcursor : (mappedPage huge flags m).nextVirtAddr = m.nextVirtAddr := h.mapped.nextVirtAddr
  rw [hcursor, Nat.mod_eq_of_lt (by omega)]
  exact h.walk_new (by omega)

/-- Clearing the page leaves the tables alone. -/
theorem cleared : Cleared (mappedPage huge flags m) (clearedPage huge flags m)
    (mappedPage huge flags m).nextVirtAddr (pageSize huge / 4096) := by
  refine cleared_clearMapped fun i hi pa fl hwalk => ?_
  rw [h.fill_walk hi] at hwalk
  obtain ⟨rfl, -⟩ := Prod.mk.inj (Option.some.inj hwalk)
  exact (h.data_new (mem_pageFrames_iff.mpr ⟨i, hi, rfl⟩)).2

theorem between : Between (mappedPage huge flags m) (pageStep huge flags m) := by
  rw [pageStep_eq]
  exact ⟨h.cleared.between.pml4Phys, h.cleared.between.tables⟩

theorem pmm_eq : (pageStep huge flags m).pmm = (mappedPage huge flags m).pmm := by
  rw [pageStep_eq]
  exact h.cleared.pmm

theorem nextVirtAddr :
    (pageStep huge flags m).nextVirtAddr = (m.nextVirtAddr + pageSize huge) % 2 ^ 64 := by
  have hcursor : (clearedPage huge flags m).nextVirtAddr = m.nextVirtAddr :=
    h.cleared.nextVirtAddr.trans h.mapped.nextVirtAddr
  rw [pageStep_eq]
  simp only [hcursor]

end PageNext

/-! ## The heap -/

structure HeapPage where
  huge : Bool
  virtAddr : ℕ
  physAddr : ℕ

def HeapPage.frames (p : HeapPage) : Set ℕ := pageFrames p.huge p.physAddr

/-- The 2 MiB pages from `HEAP_START` to the end of the address space. -/
def heapLimit : ℕ := 0x3800000

/-- Below the cursor the given pages are mapped to frames of their own; from there to page `top`
nothing is mapped, and no page table is linked for pages that lie wholly above the cursor. -/
structure Mixed (m : Machine) (top : ℕ) (pages : List HeapPage) : Prop where
  claimed : Claimed m
  start_le : heapStart ≤ m.nextVirtAddr
  le_top : m.nextVirtAddr ≤ heapPage top
  aligned : m.nextVirtAddr % 4096 = 0
  empty : ∀ va, m.nextVirtAddr ≤ va → va < heapPage top → m.leaf (pathOf va) = none
  vacant : ∀ i < top, m.nextVirtAddr ≤ heapPage i → Vacant m i
  below : ∀ p ∈ pages, heapStart ≤ p.virtAddr ∧ p.virtAddr + pageSize p.huge ≤ m.nextVirtAddr
  walks : ∀ p ∈ pages, ∀ off < pageSize p.huge,
    ∃ fl, hwWalk m (p.virtAddr + off) = some (p.physAddr + off, fl)
  data : ∀ p ∈ pages, ∀ f ∈ p.frames, m.Data f
  apart : pages.Pairwise fun p p' => Disjoint p.frames p'.frames

/-- The call fits, and the entry it sets holds no page either. -/
structure MapCall.Adds (c : MapCall) (m : Machine) : Prop extends c.Fits m where
  leaf : m.leaf (c.path ++ [c.index]) = none

theorem path_prefix (c : MapCall) : c.path ++ [c.index] <+: pathOf c.virtAddr :=
  (path_prefix_iff c _).mpr rfl

/-- Above the cursor an aligned page can be added wherever it goes. -/
theorem Mixed.adds {m : Machine} {top : ℕ} {pages : List HeapPage} (h : Mixed m top pages)
    {huge : Bool} {virtAddr : ℕ} (hlo : m.nextVirtAddr ≤ virtAddr) (hhi : virtAddr < heapPage top)
    (haligned : virtAddr % pageSize huge = 0) (flags : ℕ) :
    (⟨huge, virtAddr, 0, flags⟩ : MapCall).Adds m := by
  have hempty := h.empty virtAddr hlo hhi
  have hleaf : ∀ q, q <+: pathOf virtAddr → m.leaf q = none := by
    intro q ⟨t, hq⟩
    cases hv : m.leaf q with
    | none => rfl
    | some v =>
      have hsome := find_append_of_some hv t
      rw [hq] at hsome
      exact absurd (hempty.symm.trans hsome) (by simp)
  have hpath := path_prefix ⟨huge, virtAddr, 0, flags⟩
  refine ⟨⟨hleaf _ ((List.prefix_append _ _).trans hpath), ?_⟩, hleaf _ hpath⟩
  cases huge with
  | false => exact table_of_long _ rfl _
  | true =>
    have hstart := h.start_le
    simp only [pageSize, if_true, heapPage, heapStart] at haligned hstart hhi
    obtain ⟨i, rfl⟩ : ∃ i, virtAddr = heapPage i :=
      ⟨(virtAddr - heapStart) / 0x200000, by simp only [heapPage, heapStart]; omega⟩
    have hi : i < top := by
      simp only [heapPage, heapStart] at hhi
      omega
    exact (h.vacant i hi hlo).table

/-- A page is about to be added at the cursor. -/
structure NextMixed (huge : Bool) (flags : ℕ) (m : Machine) (top : ℕ) (pages : List HeapPage) :
    Prop where
  mixed : Mixed m top pages
  top_lt : top < heapLimit
  room : m.nextVirtAddr + pageSize huge ≤ heapPage top
  aligned : m.nextVirtAddr % pageSize huge = 0
  flags_addr : flags &&& vmmAddrMask = 0
  flags_lt : flags < 2 ^ 64
  served : (pageStep huge flags m).Served
  given : Given huge m.pmm

namespace NextMixed

variable {huge : Bool} {flags : ℕ} {m : Machine} {top : ℕ} {pages : List HeapPage}
  (h : NextMixed huge flags m top pages)
include h

theorem lt_top : m.nextVirtAddr < heapPage top := by
  have hroom := h.room
  have hpos : 0 < pageSize huge := by cases huge <;> decide
  omega

/-- The call covers the page at the cursor, among the addresses from `HEAP_START` on. -/
theorem covers_iff {va : ℕ} (hlo : heapStart ≤ va) (hhi : va < 2 ^ 64) :
    (pageCall huge flags m).Covers va ↔
      m.nextVirtAddr ≤ va ∧ va < m.nextVirtAddr + pageSize huge := by
  have hstart := h.mixed.start_le
  have haligned := h.aligned
  have hlt := h.lt_top
  have htop := h.top_lt
  unfold heapLimit at htop
  simp only [heapPage, heapStart] at hlo hstart hlt
  cases huge
  · simp only [pageSize, Bool.false_eq_true, if_false] at haligned
    simp only [MapCall.Covers, MapCall.size, pageCall, pageSize, Bool.false_eq_true, if_false]
    omega
  · simp only [pageSize, if_true] at haligned
    simp only [MapCall.Covers, MapCall.size, pageCall, pageSize, if_true]
    omega

/-- The path of a page above the cursor is not that of the cursor. -/
theorem not_slot {i : ℕ} (hi : i < top) (hlt : m.nextVirtAddr < heapPage i) :
    ¬slotTable i ++ [slotIndex i] <+: pathOf m.nextVirtAddr := by
  intro hpre
  have hcov : (⟨true, heapPage i, 0, 0⟩ : MapCall).Covers m.nextVirtAddr :=
    (path_prefix_iff ⟨true, heapPage i, 0, 0⟩ _).mp hpre
  have hstart := h.mixed.start_le
  have htop := h.top_lt
  unfold heapLimit at htop
  simp only [MapCall.Covers, MapCall.size, if_true, heapPage, heapStart] at hcov hlt hstart
  omega

theorem adds : (pageCall huge flags m).Adds (withPage huge m) := by
  obtain ⟨⟨habove, hslot⟩, hleaf⟩ := h.mixed.adds le_rfl h.lt_top h.aligned flags
  exact ⟨⟨habove, hslot⟩, hleaf⟩

theorem regular : Regular (withPage huge m) (pageCall huge flags m) := by
  have horderly := h.adds.orderly (h.given.claimed h.mixed.claimed) (h.served.of_prefix (by
    rw [pageStep_log]
    exact List.prefix_append _ _))
  refine ⟨horderly.walk, h.given.lt, fun hhuge => ?_, h.flags_addr, h.flags_lt, horderly.slot⟩
  obtain rfl : huge = true := hhuge
  exact h.given.aligned

theorem page : PageNext huge flags m := by
  have hlt := h.lt_top
  have htop := h.top_lt
  unfold heapLimit at htop
  simp only [heapPage, heapStart] at hlt
  exact ⟨h.mixed.claimed, h.given, h.regular, h.aligned, by omega⟩

theorem nextVirtAddr : (pageStep huge flags m).nextVirtAddr = m.nextVirtAddr + pageSize huge := by
  have hroom := h.room
  have htop := h.top_lt
  unfold heapLimit at htop
  simp only [heapPage, heapStart] at hroom
  rw [h.page.nextVirtAddr]
  omega

/-- Elsewhere on the heap nothing is mapped or unmapped. -/
theorem leaf_other {va : ℕ} (hlo : heapStart ≤ va) (hhi : va < 2 ^ 64)
    (hne : va < m.nextVirtAddr ∨ m.nextVirtAddr + pageSize huge ≤ va) :
    (mappedPage huge flags m).leaf (pathOf va) = m.leaf (pathOf va) := by
  refine h.page.mapped.leaf_other _ fun hpre => ?_
  have hcov := (h.covers_iff hlo hhi).mp ((path_prefix_iff _ va).mp hpre)
  omega

theorem vacant {i : ℕ} (hi : i < top) (hle : m.nextVirtAddr + pageSize huge ≤ heapPage i) :
    Vacant (mappedPage huge flags m) i := by
  have hpos : 0 < pageSize huge := by cases huge <;> decide
  have hold := h.mixed.vacant i hi (by omega)
  have hnot := h.not_slot hi (by omega)
  have hpath := path_prefix (pageCall huge flags m)
  refine ⟨?_, fun q hq => (h.page.mapped.leaf_other q fun hpre => hnot ?_).trans (hold.leaf q hq)⟩
  · cases htable : (mappedPage huge flags m).table (slotTable i ++ [slotIndex i]) with
    | none => rfl
    | some f =>
      have htree := (h.given.claimed h.mixed.claimed).tree
      rcases exec_table_cases htree h.regular.orderly htable with hbefore | hpre
      · exact absurd (hold.table.symm.trans hbefore) (by simp)
      · exact absurd ((hpre.trans (List.prefix_append _ _)).trans hpath) hnot
  · refine (List.prefix_of_prefix_length_le hq hpre ?_).trans hpath
    cases huge <;> simp [slotTable, MapCall.path, MapCall.levels, pageCall]

/-- The page is on the heap. -/
theorem next : Mixed (pageStep huge flags m) top
    (pages ++ [⟨huge, m.nextVirtAddr, (request huge m.pmm).1⟩]) := by
  have hbetween := h.page.between
  have hpmm := h.page.pmm_eq
  have hcursor := h.nextVirtAddr
  have hstart := h.mixed.start_le
  have hroom := h.room
  have htop := h.top_lt
  have haligned := h.mixed.aligned
  unfold heapLimit at htop
  have htop64 : heapPage top < 2 ^ 64 := by
    simp only [heapPage, heapStart]
    omega
  have hdata : ∀ f, (mappedPage huge flags m).Data f → (pageStep huge flags m).Data f := fun f hf =>
    ⟨hpmm ▸ hf.1, fun htable => hf.2 ((hbetween.isTable f).mp htable)⟩
  have hmapped : Claimed (mappedPage huge flags m) :=
    h.page.mapped.claimed (h.given.claimed h.mixed.claimed)
  refine ⟨⟨hbetween.tree hmapped.tree, fun f hf => ?_, hpmm ▸ hmapped.totalFrames_le⟩, by omega,
    by omega, ?_, fun va hlo hhi => ?_, fun i hi hle => ?_, fun p hp => ?_, fun p hp off hoff => ?_,
    fun p hp f hf => ?_, ?_⟩
  · rw [hpmm]
    exact hmapped.used f ((hbetween.isTable f).mp hf)
  · cases huge <;> simp only [hcursor, pageSize, Bool.false_eq_true, if_false, if_true] <;> omega
  · rw [hbetween.leaf, h.leaf_other (by omega) (by omega) (by omega)]
    exact h.mixed.empty va (by omega) hhi
  · exact hbetween.vacant (h.vacant hi (by omega))
  · rcases List.mem_append.mp hp with hp | hp
    · have hbelow := h.mixed.below p hp
      exact ⟨hbelow.1, by omega⟩
    · obtain rfl := List.mem_singleton.mp hp
      exact ⟨hstart, by rw [hcursor]⟩
  · rw [hbetween.hwWalk_eq]
    rcases List.mem_append.mp hp with hp | hp
    · have hbelow := h.mixed.below p hp
      obtain ⟨fl, hwalk⟩ := h.mixed.walks p hp off hoff
      refine ⟨fl, Eq.trans ?_ hwalk⟩
      rw [hwWalk_eq, hwWalk_eq, h.leaf_other (by omega) (by omega) (by omega)]
    · obtain rfl := List.mem_singleton.mp hp
      exact ⟨_, h.page.walk_new hoff⟩
  · rcases List.mem_append.mp hp with hp | hp
    · exact hdata f (h.page.data_old (h.mixed.data p hp f hf))
    · obtain rfl := List.mem_singleton.mp hp
      exact hdata f (h.page.data_new hf)
  · refine List.pairwise_append.mpr ⟨h.mixed.apart, List.pairwise_singleton _ _, fun p hp p' hp' => ?_⟩
    obtain rfl := List.mem_singleton.mp hp'
    refine Set.disjoint_left.mpr fun f hf hf' => ?_
    have hused := (h.mixed.data p hp f hf).1
    rw [h.given.free f hf'] at hused
    exact Bool.false_ne_true hused

end NextMixed

end MathUnikernel.Vmm
