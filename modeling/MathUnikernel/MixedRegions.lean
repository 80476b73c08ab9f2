import MathUnikernel.MixedHeap

/-!
# Regions of both sizes

Runs of `vmm_alloc` and `vmm_alloc_huge_page`, in any order and without a reset.
-/

namespace MathUnikernel.Vmm
open Pmm RadixTree Runs

/-! ## Calls -/

/-- The physical addresses that the rounds of a call request. -/
def grants (huge : Bool) (flags numPages : ℕ) (m : Machine) : List ℕ :=
  (List.range numPages).map fun i => (request huge ((pageStep huge flags)^[i] m).pmm).1

/-- What a call returned, and the pages it was given. -/
structure Region where
  start : ℕ
  huge : Bool
  physAddrs : List ℕ

def Region.stop (r : Region) : ℕ := r.start + r.physAddrs.length * pageSize r.huge

/-- The pages of a region, one after the other from its start. -/
def Region.pages (r : Region) : List HeapPage :=
  r.physAddrs.mapIdx fun i physAddr => ⟨r.huge, r.start + i * pageSize r.huge, physAddr⟩

/-- A call of `vmm_alloc_huge_page`, or of `vmm_alloc`. -/
structure HeapRequest where
  huge : Bool
  numPages : ℕ
  flags : ℕ

namespace HeapRequest

def exec (r : HeapRequest) (m : Machine) : ℕ × Machine :=
  if r.huge then vmmAllocHugePage m r.numPages r.flags else vmmAlloc m r.numPages r.flags

/-- The machine when the loop is entered. -/
def enter (r : HeapRequest) (m : Machine) : Machine := { m with nextVirtAddr := (r.exec m).1 }

def region (r : HeapRequest) (m : Machine) : Region :=
  ⟨(r.exec m).1, r.huge, grants r.huge r.flags r.numPages (r.enter m)⟩

/-- `vmm_alloc` counts its pages in an `int`. -/
def Valid (r : HeapRequest) : Prop := r.huge = false → r.numPages < 2 ^ 31

/-- The flags lie outside the address field, and the pages up to page `top` of the heap. -/
structure Room (r : HeapRequest) (top : ℕ) (m : Machine) : Prop where
  flags_addr : r.flags &&& vmmAddrMask = 0
  flags_lt : r.flags < 2 ^ 64
  le_top : (if r.huge then (m.nextVirtAddr + 0x1fffff) / 0x200000 * 0x200000 else m.nextVirtAddr) +
    r.numPages * pageSize r.huge ≤ heapPage top

end HeapRequest

/-- Below `2 ^ 31` pages the counter of `vmm_alloc` is exact. -/
theorem allocFrom_eq {numPages flags k : ℕ} {m : Machine} (hn : numPages < 2 ^ 31)
    (hk : k ≤ numPages) :
    allocFrom numPages flags k m = (pageStep false flags)^[numPages - k] m := by
  fun_induction allocFrom numPages flags k m with
  | case1 k m h ih =>
    have hcounter : intCounter k = k := by
      rw [intCounter, Nat.mod_eq_of_lt h.2, if_pos (by omega)]
    have hlt : k < numPages := hcounter ▸ h.1
    rw [ih hlt, show numPages - k = numPages - (k + 1) + 1 by omega, Function.iterate_succ_apply]
    rfl
  | case2 k m h =>
    have hcounter : intCounter k = k := by
      rw [intCounter, Nat.mod_eq_of_lt (by omega), if_pos (by omega)]
    rw [hcounter] at h
    rw [show numPages - k = 0 by omega]
    rfl

/-- A call is its loop, from where the first page goes. -/
theorem HeapRequest.exec_eq {r : HeapRequest} (h : r.Valid) (m : Machine) :
    (r.exec m).2 = (pageStep r.huge r.flags)^[r.numPages] (r.enter m) := by
  obtain ⟨huge, numPages, flags⟩ := r
  cases huge with
  | false => exact allocFrom_eq (h rfl) (Nat.zero_le _)
  | true => rfl

theorem grants_succ (huge : Bool) (flags n : ℕ) (m : Machine) :
    grants huge flags (n + 1) m =
      grants huge flags n m ++ [(request huge ((pageStep huge flags)^[n] m).pmm).1] := by
  rw [grants, List.range_succ, List.map_append]
  rfl

theorem length_grants (huge : Bool) (flags n : ℕ) (m : Machine) :
    (grants huge flags n m).length = n := by
  rw [grants, List.length_map, List.length_range]

theorem log_iterate_pageStep (huge : Bool) (flags n : ℕ) (m : Machine) :
    m.log <+: ((pageStep huge flags)^[n] m).log := by
  induction n with
  | zero => exact List.prefix_rfl
  | succ n ih =>
    rw [Function.iterate_succ_apply']
    exact ih.trans (log_pageStep huge flags _)

/-! ## Keeping the invariant -/

/-- The loop of either function. -/
theorem Mixed.iterate {huge : Bool} {flags : ℕ} {m : Machine} {top : ℕ} {pages : List HeapPage}
    (h : Mixed m top pages) (htop : top < heapLimit) (haddr : flags &&& vmmAddrMask = 0)
    (hlt : flags < 2 ^ 64) (haligned : m.nextVirtAddr % pageSize huge = 0) {n : ℕ}
    (hroom : m.nextVirtAddr + n * pageSize huge ≤ heapPage top)
    (hready : ((pageStep huge flags)^[n] m).Ready) :
    Mixed ((pageStep huge flags)^[n] m) top
        (pages ++ (⟨m.nextVirtAddr, huge, grants huge flags n m⟩ : Region).pages) ∧
      ((pageStep huge flags)^[n] m).nextVirtAddr = m.nextVirtAddr + n * pageSize huge ∧
      ∀ i < n, (pageCall huge flags ((pageStep huge flags)^[i] m)).Adds
        (withPage huge ((pageStep huge flags)^[i] m)) := by
  induction n with
  | zero =>
    refine ⟨?_, by simp, fun i hi => absurd hi (Nat.not_lt_zero i)⟩
    have hnil : (⟨m.nextVirtAddr, huge, grants huge flags 0 m⟩ : Region).pages = [] := rfl
    rwa [hnil, List.append_nil]
  | succ n ih =>
    rw [Nat.succ_mul] at hroom
    have hbefore := hready
    rw [Function.iterate_succ_apply'] at hready ⊢
    obtain ⟨hmixed, hcursor, hadds⟩ := ih (by omega) (hready.of_prefix (log_pageStep huge flags _))
    have hnext : NextMixed huge flags ((pageStep huge flags)^[n] m) top _ :=
      ⟨hmixed, htop, by omega, by rw [hcursor, Nat.add_mul_mod_self_right, haligned], haddr, hlt,
        hready.served, given_of_ready hready hmixed.claimed.totalFrames_le⟩
    refine ⟨?_, ?_, fun i hi => ?_⟩
    · have hpages : (⟨m.nextVirtAddr, huge, grants huge flags (n + 1) m⟩ : Region).pages =
          (⟨m.nextVirtAddr, huge, grants huge flags n m⟩ : Region).pages ++
            [⟨huge, ((pageStep huge flags)^[n] m).nextVirtAddr,
              (request huge ((pageStep huge flags)^[n] m).pmm).1⟩] := by
        rw [Region.pages, grants_succ, List.mapIdx_concat, length_grants, hcursor]
        rfl
      rw [hpages, ← List.append_assoc]
      exact hnext.next
    · rw [hnext.nextVirtAddr, hcursor, Nat.succ_mul, Nat.add_assoc]
    · rcases Nat.lt_succ_iff_lt_or_eq.mp hi with hi | rfl
      · exact hadds i hi
      · exact hnext.adds

/-- Skipping addresses keeps the invariant. -/
theorem Mixed.advance {m : Machine} {top : ℕ} {pages : List HeapPage} (h : Mixed m top pages)
    {cursor : ℕ} (hle : m.nextVirtAddr ≤ cursor) (htop : cursor ≤ heapPage top)
    (haligned : cursor % 4096 = 0) : Mixed { m with nextVirtAddr := cursor } top pages where
  claimed := ⟨h.claimed.tree, h.claimed.used, h.claimed.totalFrames_le⟩
  start_le := h.start_le.trans hle
  le_top := htop
  aligned := haligned
  empty va hlo hhi := h.empty va (hle.trans hlo) hhi
  vacant i hi hlo := ⟨(h.vacant i hi (hle.trans hlo)).table, (h.vacant i hi (hle.trans hlo)).leaf⟩
  below p hp := ⟨(h.below p hp).1, (h.below p hp).2.trans hle⟩
  walks := h.walks
  data := h.data
  apart := h.apart

/-- `vmm_alloc_huge_page` rounds the cursor up to a multiple of 2 MiB. -/
theorem align_up {cursor : ℕ} (h : cursor + 0x1fffff < 2 ^ 64) :
    (cursor + 0x1fffff) % 2 ^ 64 &&& 0xffffffffffe00000 =
      (cursor + 0x1fffff) / 0x200000 * 0x200000 := by
  rw [show (0xffffffffffe00000 : ℕ) = (2 ^ 43 - 1) <<< 21 from rfl, ByteBitmap.and_field]
  omega

/-! ## Runs -/

/-- The machine, and the regions returned so far. -/
structure HeapUse where
  m : Machine
  regions : List Region

inductive HeapUseStep : HeapUse → HeapRequest → HeapUse → Prop
  | call {w : HeapUse} {r : HeapRequest} :
      r.Valid → HeapUseStep w r ⟨(r.exec w.m).2, w.regions ++ [r.region w.m]⟩

/-- From `HEAP_START` to page `top` nothing is mapped, and all tables are claimed. -/
structure Unmapped (m : Machine) (top : ℕ) : Prop where
  claimed : Claimed m
  nextVirtAddr : m.nextVirtAddr = heapStart
  top_lt : top < heapLimit
  vacant : ∀ i < top, Vacant m i

/-- Regions share no address; their pages translate to the frames they were given, which are shared
with no other page and no table. -/
structure Coexist (m : Machine) (regions : List Region) : Prop where
  disjoint : regions.Pairwise fun r r' => r.stop ≤ r'.start
  translates : ∀ r ∈ regions, ∀ p ∈ r.pages, ∀ off < pageSize p.huge,
    ∃ fl, hwWalk m (p.virtAddr + off) = some (p.physAddr + off, fl)
  apart : (regions.flatMap Region.pages).Pairwise fun p p' => Disjoint p.frames p'.frames
  tables : ∀ r ∈ regions, ∀ p ∈ r.pages, ∀ f ∈ p.frames, ¬m.IsTable f

/-- The invariant of the runs. -/
structure UseInv (w : HeapUse) (top : ℕ) : Prop where
  mixed : Mixed w.m top (w.regions.flatMap Region.pages)
  disjoint : w.regions.Pairwise fun r r' => r.stop ≤ r'.start
  stop_le : ∀ r ∈ w.regions, r.stop ≤ w.m.nextVirtAddr

/-- Every mapping call of the request fits the machine it is made on, and replaces no page. -/
def HeapRequest.Adds (r : HeapRequest) (m : Machine) : Prop :=
  ∀ i < r.numPages, (pageCall r.huge r.flags ((pageStep r.huge r.flags)^[i] (r.enter m))).Adds
    (withPage r.huge ((pageStep r.huge r.flags)^[i] (r.enter m)))

theorem Unmapped.inv {m : Machine} {top : ℕ} (h : Unmapped m top) : UseInv ⟨m, []⟩ top := by
  have hcursor := h.nextVirtAddr
  refine ⟨⟨h.claimed, hcursor.ge, ?_, by rw [hcursor]; decide, fun va hlo hhi => ?_,
    fun i hi _ => h.vacant i hi, by simp, by simp, by simp, .nil⟩, .nil, by simp⟩
  · rw [hcursor]
    exact Nat.le_add_right _ _
  · simp only [hcursor] at hlo
    have hslot := slot_prefix_pathOf ((va - heapStart) / 0x200000)
      (Nat.mod_lt (va - heapStart) (show 0 < 0x200000 by norm_num))
    have haddr : heapPage ((va - heapStart) / 0x200000) + (va - heapStart) % 0x200000 = va := by
      simp only [heapPage]
      omega
    rw [haddr] at hslot
    refine (h.vacant _ ?_).leaf _ hslot
    simp only [heapPage] at hhi
    omega

/-- The region starts at the cursor, or at the next multiple of 2 MiB. -/
theorem UseInv.enter {w : HeapUse} {top : ℕ} (h : UseInv w top) (htop : top < heapLimit)
    {r : HeapRequest} (hroom : r.Room top w.m) :
    w.m.nextVirtAddr ≤ (r.exec w.m).1 ∧ (r.exec w.m).1 % pageSize r.huge = 0 ∧
      (r.exec w.m).1 % 4096 = 0 ∧
      (r.exec w.m).1 + r.numPages * pageSize r.huge ≤ heapPage top := by
  have hle := h.mixed.le_top
  have haligned := h.mixed.aligned
  have hroom' := hroom.le_top
  unfold heapLimit at htop
  have htop64 : heapPage top + 0x1fffff < 2 ^ 64 := by
    simp only [heapPage, heapStart]
    omega
  obtain ⟨huge, numPages, flags⟩ := r
  cases huge with
  | false => exact ⟨le_rfl, haligned, haligned, hroom'⟩
  | true =>
    have hstart : ((⟨true, numPages, flags⟩ : HeapRequest).exec w.m).1 =
        (w.m.nextVirtAddr + 0x1fffff) / 0x200000 * 0x200000 := align_up (by omega)
    rw [hstart]
    exact ⟨by omega, Nat.mul_mod_left _ _, by omega, hroom'⟩

/-- One call. -/
theorem UseInv.call {w : HeapUse} {top : ℕ} (h : UseInv w top) (htop : top < heapLimit)
    {r : HeapRequest} (hvalid : r.Valid) (hroom : r.Room top w.m) (hready : (r.exec w.m).2.Ready) :
    UseInv ⟨(r.exec w.m).2, w.regions ++ [r.region w.m]⟩ top ∧ r.Adds w.m := by
  obtain ⟨hle, haligned, hpage, hend⟩ := h.enter htop hroom
  have hentered : Mixed (r.enter w.m) top (w.regions.flatMap Region.pages) :=
    h.mixed.advance hle ((Nat.le_add_right _ _).trans hend) hpage
  rw [r.exec_eq hvalid] at hready ⊢
  obtain ⟨hmixed, hcursor, hadds⟩ :=
    hentered.iterate htop hroom.flags_addr hroom.flags_lt haligned hend hready
  have hstop : (r.region w.m).stop =
      ((pageStep r.huge r.flags)^[r.numPages] (r.enter w.m)).nextVirtAddr := by
    rw [hcursor, Region.stop, HeapRequest.region]
    simp only [length_grants]
    rfl
  have hbefore : ∀ r' ∈ w.regions, r'.stop ≤ (r.region w.m).start := fun r' hr' =>
    (h.stop_le r' hr').trans hle
  refine ⟨⟨?_, ?_, fun r' hr' => ?_⟩, hadds⟩
  · rw [List.flatMap_append, List.flatMap_singleton]
    exact hmixed
  · refine List.pairwise_append.mpr ⟨h.disjoint, List.pairwise_singleton _ _, fun r' hr' r'' hr'' => ?_⟩
    rw [List.mem_singleton.mp hr'']
    exact hbefore r' hr'
  · rcases List.mem_append.mp hr' with hr' | hr'
    · refine ((hbefore r' hr').trans ?_).trans hstop.le
      exact Nat.le_add_right _ _
    · rw [List.mem_singleton.mp hr', hstop]

theorem UseInv.coexist {w : HeapUse} {top : ℕ} (h : UseInv w top) : Coexist w.m w.regions where
  disjoint := h.disjoint
  translates r hr p hp := h.mixed.walks p (List.mem_flatMap.mpr ⟨r, hr, hp⟩)
  apart := h.mixed.apart
  tables r hr p hp f hf := (h.mixed.data p (List.mem_flatMap.mpr ⟨r, hr, hp⟩) f hf).2

theorem log_heapUseStep {w w' : HeapUse} {r : HeapRequest} (h : HeapUseStep w r w') :
    w.m.log <+: w'.m.log := by
  cases h with
  | call hvalid =>
    rw [r.exec_eq hvalid]
    exact log_iterate_pageStep r.huge r.flags r.numPages (r.enter w.m)

/-- In every run whose requests are served with blocks below byte `2 ^ 31`, with flags outside the
address field and on the addresses that were unmapped, all regions coexist, and no mapping call meets
a page or a page table where it expects none. -/
theorem regions_coexist {m₀ : Machine} {top : ℕ} (h0 : Unmapped m₀ top)
    {tr : List (HeapUse × HeapRequest × HeapUse)} {w : HeapUse}
    (hrun : Run HeapUseStep ⟨m₀, []⟩ tr w) (hroom : ∀ x ∈ tr, x.2.1.Room top x.1.m)
    (hready : w.m.Ready) : Coexist w.m w.regions ∧ ∀ x ∈ tr, x.2.1.Adds x.1.m := by
  have hpost : ∀ x ∈ tr, x.2.2.m.Ready := fun x hx =>
    hready.of_prefix (hrun.prefix_of_mem (fun v => v.m.log) (fun _ _ _ => log_heapUseStep) hx)
  have hcall : ∀ x ∈ tr, UseInv x.1 top → UseInv x.2.2 top ∧ x.2.1.Adds x.1.m := by
    intro x hx hinv
    obtain ⟨v, r, v'⟩ := x
    have hstep : HeapUseStep v r v' := hrun.step_of_mem hx
    have hready' := hpost _ hx
    cases hstep with
    | call hvalid => exact hinv.call h0.top_lt hvalid (hroom _ hx) hready'
  obtain ⟨hw, hall⟩ := hrun.invariant_of_mem (I := fun v => UseInv v top) h0.inv
    fun x hx hinv => (hcall x hx hinv).1
  exact ⟨hw.coexist, fun x hx => (hcall x hx (hall x hx).1).2⟩

/-! ## A page of each size -/

/-- Mapping a page takes three frames for tables at most. -/
theorem Stocked.pageStep {huge : Bool} {flags n : ℕ} {m : Machine}
    (h : Stocked (withPage huge m) (n + 3)) : Stocked (pageStep huge flags m) n := by
  obtain ⟨hserved, lo, hi, hrange, hle, hR⟩ := h.exec (pageCall huge flags m)
  have hpmm : (Vmm.pageStep huge flags m).pmm = ((pageCall huge flags m).exec (withPage huge m)).pmm := by
    rw [pageStep_eq]
    exact clearMapped_pmm _ _ _
  refine ⟨fun e he => ?_, lo, hi, hpmm ▸ hrange, hle, fun f hf => absurd hf id⟩
  rw [pageStep_log] at he
  rcases List.mem_append.mp he with he | he
  · exact hserved e he
  · simp only [List.mem_cons, List.not_mem_nil, or_false] at he
    rcases he with rfl | rfl <;> trivial

theorem Stocked.withFrame {n : ℕ} {m : Machine} (h : Stocked m (n + 1)) :
    Stocked (withPage false m) n := by
  obtain ⟨hserved, lo, hi, hrange, hle, hR⟩ := h
  refine ⟨fun e he => ?_, lo + 1, hi, hrange.pmmAlloc (by omega), by omega, fun f hf => absurd hf id⟩
  rcases List.mem_append.mp he with he | he
  · exact hserved e he
  · rw [List.mem_singleton.mp he]
    exact hrange.hasFrame (by omega)

theorem alloc2mb_mem_pageStep {huge : Bool} {flags : ℕ} {m : Machine} {s : PmmContext}
    (h : .alloc2mb s ∈ (pageStep huge flags m).log) :
    .alloc2mb s ∈ m.log ∨ (huge = true ∧ s = m.pmm) := by
  rw [pageStep_log] at h
  have h' : .alloc2mb s ∈ (mappedPage huge flags m).log := by simpa using List.mem_append.mp h
  refine (List.mem_append.mp (alloc2mb_mem_exec h')).imp_right fun hnew => ?_
  cases huge with
  | false => exact absurd (List.mem_singleton.mp hnew) (by simp [requestEvent])
  | true => exact ⟨rfl, by simpa [requestEvent] using hnew⟩

theorem FreshHeap.unmapped {m : Machine} (h : FreshHeap m) : Unmapped m heapPages :=
  ⟨h.claimed, h.nextVirtAddr, by decide, h.vacant⟩

/-- A 2 MiB page and then a 4 KiB page. -/
theorem regions_coexist_two : ∃ s tr w, pmmInit twoBlockMap (fun _ => 0) = some (pmmInitSuccess, s) ∧
    Run HeapUseStep ⟨smallMachine s, []⟩ tr w ∧ tr.map (·.2.1) = [⟨true, 1, 3⟩, ⟨false, 1, 3⟩] ∧
    Coexist w.m w.regions ∧ ∀ x ∈ tr, x.2.1.Adds x.1.m := by
  obtain ⟨s, hs, hrange, htotal⟩ := freeRange_twoBlockMap
  obtain ⟨hempty, hclaimed, hstocked⟩ := hrange.smallMachine (by omega) (by omega) (by omega)
  have hfresh := freshHeap_smallMachine hempty hclaimed
  obtain ⟨hfree, hblock, hrange'⟩ := @FreeRange.pmmAlloc2mb s 1 1536 hrange (by omega) (by omega)
  set huge : HeapRequest := ⟨true, 1, 3⟩ with hhuge
  set small : HeapRequest := ⟨false, 1, 3⟩ with hsmall
  have hvalid : huge.Valid := fun h => absurd h (by decide)
  have hvalid' : small.Valid := fun _ => by decide
  have hrun : Run HeapUseStep ⟨smallMachine s, []⟩ _ _ :=
    (Run.nil.snoc (@HeapUseStep.call ⟨smallMachine s, []⟩ huge hvalid)).snoc (.call hvalid')
  have hexec : (huge.exec (smallMachine s)).2 = pageStep true 3 (huge.enter (smallMachine s)) :=
    huge.exec_eq hvalid _
  have hexec' : (small.exec (huge.exec (smallMachine s)).2).2 =
      pageStep false 3 (small.enter (huge.exec (smallMachine s)).2) := small.exec_eq hvalid' _
  -- the block leaves 512 frames for tables and for the second page
  have hblock' : Stocked (withPage true (huge.enter (smallMachine s))) (500 + 3) := by
    refine ⟨fun e he => ?_, 512 * 1 + 512, 1536, hrange', by omega, fun f hf => absurd hf id⟩
    rw [List.mem_singleton.mp he]
    exact hblock
  have hfirst : Stocked (huge.exec (smallMachine s)).2 500 := by
    rw [hexec]
    exact hblock'.pageStep
  have hentered : Stocked (small.enter (huge.exec (smallMachine s)).2) (496 + 3 + 1) :=
    ⟨hfirst.served, hfirst.range⟩
  have hsecond : Stocked (small.exec (huge.exec (smallMachine s)).2).2 496 := by
    rw [hexec']
    exact hentered.withFrame.pageStep
  have hlow : ∀ t, .alloc2mb t ∈ (huge.exec (smallMachine s)).2.log → HasLowBlock t := by
    intro t ht
    rw [hexec] at ht
    rcases alloc2mb_mem_pageStep ht with hold | ⟨-, rfl⟩
    · exact absurd hold List.not_mem_nil
    · exact ⟨1, by decide, hfree⟩
  have hready : (huge.exec (smallMachine s)).2.Ready := ⟨hfirst.served, hlow⟩
  have hready' : (small.exec (huge.exec (smallMachine s)).2).2.Ready := by
    refine ⟨hsecond.served, fun t ht => ?_⟩
    rw [hexec'] at ht
    rcases alloc2mb_mem_pageStep ht with hold | ⟨hf, -⟩
    · exact hlow t hold
    · exact absurd hf (by decide)
  have hroom : ∀ top, 1 ≤ top → huge.Room top (smallMachine s) := fun top htop =>
    ⟨(by decide : 3 &&& vmmAddrMask = 0), (by decide : 3 < 2 ^ 64), by
      change (heapStart + 0x1fffff) / 0x200000 * 0x200000 + 1 * 0x200000 ≤ heapPage top
      simp only [heapPage, heapStart]
      omega⟩
  have hone : Unmapped (smallMachine s) 1 :=
    ⟨hclaimed, rfl, by decide, fun i hi => hfresh.vacant i (by unfold heapPages; omega)⟩
  have hcursor : (huge.exec (smallMachine s)).2.nextVirtAddr ≤ heapPage 1 :=
    (hone.inv.call hone.top_lt hvalid (hroom 1 le_rfl) hready).1.mixed.le_top
  have hroom' : small.Room heapPages (huge.exec (smallMachine s)).2 := by
    refine ⟨(by decide : 3 &&& vmmAddrMask = 0), (by decide : 3 < 2 ^ 64), ?_⟩
    have hend : heapPage 1 + 4096 ≤ heapPage heapPages := by
      simp only [heapPage, heapPages]
      omega
    simp only [hsmall, Bool.false_eq_true, if_false, pageSize]
    omega
  refine ⟨s, _, _, hs, hrun, rfl, regions_coexist hfresh.unmapped hrun (fun x hx => ?_) hready'⟩
  rcases List.mem_pair.mp hx with rfl | rfl
  · exact hroom heapPages (Nat.one_le_two_pow)
  · exact hroom'

/-! ## A block beyond byte `2 ^ 31` -/

/-- With 64 TiB of addresses and no other free block, both pages of one call are given the block. -/
theorem regions_alias_hugeMap : ∃ s, pmmInit hugeMap (fun _ => 0) = some (pmmInitSuccess, s) ∧
    Unmapped (smallMachine s) heapPages ∧
    ∃ tr w, Run HeapUseStep ⟨smallMachine s, []⟩ tr w ∧ tr.map (·.2.1) = [⟨true, 2, 3⟩] ∧
      w.m.Served ∧ ¬Coexist w.m w.regions := by
  obtain ⟨s, hs, hhigh, hfresh⟩ := onlyHigh_hugeMap
  obtain ⟨hserved, -⟩ := hhigh.not_allocOk hfresh.nextVirtAddr
  set r : HeapRequest := ⟨true, 2, 3⟩ with hr
  have hrun : Run HeapUseStep ⟨smallMachine s, []⟩ _ _ :=
    Run.nil.snoc (@HeapUseStep.call ⟨smallMachine s, []⟩ r fun h => absurd h (by decide))
  refine ⟨s, hs, hfresh.unmapped, _, _, hrun, rfl, hserved, fun hcoexist => ?_⟩
  have hstart : (r.exec (smallMachine s)).1 = heapStart := by
    change (heapStart + 0x1fffff) % 2 ^ 64 &&& 0xffffffffffe00000 = heapStart
    rw [align_up (by simp only [heapStart]; omega)]
    simp only [heapStart]
  have henter : r.enter (smallMachine s) = smallMachine s := by
    rw [HeapRequest.enter, hstart]
    rfl
  have hcursor : (smallMachine s).nextVirtAddr = heapPage 0 := by rw [heapPage, Nat.zero_mul]; rfl
  have hsecond : OnlyHigh (pageStep true 3 (smallMachine s)) 3 (2 ^ 25) :=
    (hhigh.allocHugeStep (show 0 < heapPages by decide) hcursor
      (by decide : 3 &&& vmmAddrMask = 0) (by decide)).1
  have hfst : (request true (smallMachine s).pmm).1 = 512 * 2 ^ 25 * 4096 :=
    congrArg Prod.fst hhigh.pmmAlloc2mb
  have hsnd : (request true (pageStep true 3 (smallMachine s)).pmm).1 = 512 * 2 ^ 25 * 4096 :=
    congrArg Prod.fst hsecond.pmmAlloc2mb
  have hgrants : grants true 3 2 (smallMachine s) = [512 * 2 ^ 25 * 4096, 512 * 2 ^ 25 * 4096] := by
    rw [grants_succ, grants_succ, Function.iterate_one, Function.iterate_zero_apply, hfst, hsnd]
    rfl
  have hpages : (r.region (smallMachine s)).pages =
      [⟨true, heapStart + 0 * pageSize true, 512 * 2 ^ 25 * 4096⟩,
        ⟨true, heapStart + 1 * pageSize true, 512 * 2 ^ 25 * 4096⟩] := by
    rw [HeapRequest.region, hstart, henter, Region.pages]
    simp only [hr]
    rw [hgrants, List.mapIdx_cons, List.mapIdx_cons, List.mapIdx_nil]
  have hapart := hcoexist.apart
  rw [List.nil_append, List.flatMap_singleton, hpages, List.pairwise_pair] at hapart
  have hmem : 2 ^ 34 ∈ pageFrames true (512 * 2 ^ 25 * 4096) := by
    simp only [pageFrames, pageSize, if_true, Set.mem_ofPred_eq]
    omega
  exact Set.disjoint_left.mp hapart hmem hmem

end MathUnikernel.Vmm
