import MathUnikernel.Library.Scan
import MathUnikernel.MixedRegions

/-!
# Resetting a heap that both allocators fill

`vmm_reset_heap` takes every page directory entry below the cursor for a 2 MiB page.
-/

namespace MathUnikernel.Vmm
open Pmm RadixTree Runs Scan

/-! ## Pages handed out -/

/-- The rounds of the loop: `vmm_alloc` leaves it when its `int` counter compares above. -/
def HeapRequest.rounds (r : HeapRequest) : ℕ :=
  if r.huge then r.numPages else scan (fun k => decide (r.numPages ≤ intCounter k)) (2 ^ 32) 0

/-- The pages the call hands out. -/
def HeapRequest.pages (r : HeapRequest) (m : Machine) : List HeapPage :=
  (⟨(r.exec m).1, r.huge, grants r.huge r.flags r.rounds (r.enter m)⟩ : Region).pages

theorem allocFrom_rounds {numPages flags k n : ℕ} {m : Machine} (hn : k + n = 2 ^ 32) :
    allocFrom numPages flags k m =
      (pageStep false flags)^[scan (fun k => decide (numPages ≤ intCounter k)) n k - k] m := by
  induction n generalizing k m with
  | zero => rw [allocFrom, if_neg (by omega), scan, Nat.sub_self]; rfl
  | succ n ih =>
    have hle := le_scan (fun k => decide (numPages ≤ intCounter k)) n (k + 1)
    rw [allocFrom, scan]
    by_cases hstop : numPages ≤ intCounter k
    · rw [if_neg (by omega), if_pos (decide_eq_true hstop), Nat.sub_self]
      rfl
    · rw [if_pos ⟨by omega, by omega⟩, if_neg (by simpa using hstop), ih (by omega)]
      rw [show scan (fun k => decide (numPages ≤ intCounter k)) n (k + 1) - k =
        scan (fun k => decide (numPages ≤ intCounter k)) n (k + 1) - (k + 1) + 1 by omega,
        Function.iterate_succ_apply]
      rfl

theorem HeapRequest.exec_rounds (r : HeapRequest) (m : Machine) :
    (r.exec m).2 = (pageStep r.huge r.flags)^[r.rounds] (r.enter m) := by
  obtain ⟨huge, numPages, flags⟩ := r
  cases huge with
  | false =>
    have hrounds := @allocFrom_rounds numPages flags 0 (2 ^ 32) m (Nat.zero_add _)
    rw [Nat.sub_zero] at hrounds
    rw [HeapRequest.rounds, if_neg Bool.false_ne_true]
    exact hrounds
  | true => rfl

theorem intCounter_of_lt {k : ℕ} (hk : k < 2 ^ 31) : intCounter k = k := by
  rw [intCounter, Nat.mod_eq_of_lt (by omega), if_pos hk]

/-- Below `2 ^ 31` pages every page is handed out. -/
theorem HeapRequest.rounds_eq {r : HeapRequest} (h : r.Valid) : r.rounds = r.numPages := by
  rw [HeapRequest.rounds]
  split_ifs with hhuge
  · rfl
  · have hlt := h (by simpa using hhuge)
    refine scan_eq_of_first _ (Nat.zero_le _) (by omega) ?_ fun j _ hj => ?_
    · rw [intCounter_of_lt hlt]
      exact decide_eq_true le_rfl
    · rw [intCounter_of_lt (by omega)]
      exact decide_eq_false (by omega)

/-! ## Runs -/

inductive HeapAction
  | request (r : HeapRequest)
  | reset

/-- The machine, and the pages handed out since the previous reset. -/
structure SharedHeap where
  m : Machine
  pages : List HeapPage

inductive SharedStep : SharedHeap → HeapAction → SharedHeap → Prop
  | request {w : SharedHeap} {r : HeapRequest} :
      SharedStep w (.request r) ⟨(r.exec w.m).2, w.pages ++ r.pages w.m⟩
  | reset {w : SharedHeap} {m' : Machine} :
      vmmResetHeap w.m = some m' → SharedStep w .reset ⟨m', []⟩

/-- A reset frees the frames of the pages handed out and no frame of anyone else, of tables only
those that it unlinks. -/
structure ResetSound (w : SharedHeap) (m' : Machine) : Prop where
  only : ∀ f, w.m.pmm.used f = true → m'.pmm.used f = false →
    (∃ p ∈ w.pages, f ∈ p.frames) ∨ (w.m.IsTable f ∧ ¬m'.IsTable f)
  tables : ∀ f, m'.IsTable f → m'.pmm.used f = true
  freed : ∀ p ∈ w.pages, ∀ f ∈ p.frames, m'.pmm.used f = false

/-- Requests have flags outside the address field; at a reset no page of `vmm_alloc` is on the
heap. -/
def HeapAction.Safe : HeapAction → SharedHeap → Prop
  | request r, _ => r.flags &&& vmmAddrMask = 0 ∧ r.flags < 2 ^ 64
  | reset, w => ∀ p ∈ w.pages, p.huge = true

/-- As long as all pages are of 2 MiB, they are the blocks of a live heap. -/
def SharedInv (base : Set ℕ) (w : SharedHeap) : Prop :=
  (∀ p ∈ w.pages, p.huge = true) →
    ∃ blocks : List ℕ, Live w.m base blocks ∧
      w.pages.map HeapPage.physAddr = blocks.map fun b => 512 * b * 4096

theorem map_physAddr_pages (r : Region) : r.pages.map HeapPage.physAddr = r.physAddrs := by
  exact List.ext_getElem (by simp [Region.pages]) (by simp [Region.pages])

theorem huge_of_mem_pages {r : Region} {p : HeapPage} (hp : p ∈ r.pages) : p.huge = r.huge := by
  rw [Region.pages, List.mem_mapIdx] at hp
  obtain ⟨i, hi, rfl⟩ := hp
  rfl

/-- The loop of `vmm_alloc_huge_page`: the blocks requested are those the heap gains. -/
theorem Live.grants {m : Machine} {base : Set ℕ} {blocks : List ℕ} {flags : ℕ}
    (h : Live m base blocks) (haddr : flags &&& vmmAddrMask = 0) (hlt : flags < 2 ^ 64) (n : ℕ)
    (hready : ((pageStep true flags)^[n] m).Ready) :
    ∃ new : List ℕ, Live ((pageStep true flags)^[n] m) base (blocks ++ new) ∧
      grants true flags n m = new.map fun b => 512 * b * 4096 := by
  induction n with
  | zero => exact ⟨[], by rwa [List.append_nil], rfl⟩
  | succ n ih =>
    rw [Function.iterate_succ_apply'] at hready ⊢
    obtain ⟨new, hlive, hgrants⟩ := ih (hready.of_prefix (log_pageStep true flags _))
    obtain ⟨b, hnext⟩ := hlive.nextPage haddr hlt hready
    refine ⟨new ++ [b], ?_, ?_⟩
    · rw [← List.append_assoc]
      exact hnext.live
    · rw [grants_succ, hgrants, List.map_append]
      exact congrArg (_ ++ [·]) hnext.result

theorem length_pages (r : HeapRequest) (m : Machine) : (r.pages m).length = r.rounds := by
  rw [HeapRequest.pages, Region.pages, List.length_mapIdx, length_grants]

/-- A call keeps the invariant. -/
theorem SharedInv.request {base : Set ℕ} {w : SharedHeap} (h : SharedInv base w) {r : HeapRequest}
    (hflags : (HeapAction.request r).Safe w) (hready : (r.exec w.m).2.Ready) :
    SharedInv base ⟨(r.exec w.m).2, w.pages ++ r.pages w.m⟩ := by
  intro hall
  obtain ⟨blocks, hlive, hblocks⟩ := h fun p hp => hall p (List.mem_append_left _ hp)
  rw [r.exec_rounds] at hready ⊢
  cases hhuge : r.huge with
  | false =>
    -- a page of `vmm_alloc` would be in the list
    have hnone : r.pages w.m = [] := List.eq_nil_iff_forall_not_mem.mpr fun p hp => by
      have htrue := hall p (List.mem_append_right _ hp)
      rw [huge_of_mem_pages hp] at htrue
      exact absurd (hhuge.symm.trans htrue) (by simp)
    have hrounds : r.rounds = 0 := by rw [← length_pages r w.m, hnone, List.length_nil]
    have hstart : (r.exec w.m).1 = w.m.nextVirtAddr := by
      rw [HeapRequest.exec, hhuge]
      rfl
    refine ⟨blocks, ?_, by rw [hnone, List.append_nil, hblocks]⟩
    rw [hrounds, Function.iterate_zero_apply, HeapRequest.enter, hstart]
    exact hlive
  | true =>
    have hle := hlive.heap.le
    rw [Nat.zero_add] at hle
    have hstart : (r.exec w.m).1 = w.m.nextVirtAddr := by
      rw [HeapRequest.exec, if_pos hhuge, vmmAllocHugePage_eq hlive.nextVirtAddr hle]
    have henter : r.enter w.m = w.m := by rw [HeapRequest.enter, hstart]
    rw [henter, hhuge] at hready
    obtain ⟨new, hlive', hgrants⟩ := hlive.grants hflags.1 hflags.2 r.rounds hready
    refine ⟨blocks ++ new, by rwa [henter], ?_⟩
    rw [List.map_append, List.map_append, hblocks, HeapRequest.pages, map_physAddr_pages, henter,
      hhuge, hgrants]

theorem frames_of_huge {p : HeapPage} (hp : p.huge = true) {b : ℕ}
    (hphys : p.physAddr = 512 * b * 4096) : p.frames = block b := by
  ext f
  simp only [HeapPage.frames, pageFrames, pageSize, block, hp, hphys, if_true, Set.mem_ofPred_eq]
  omega

/-- A reset of 2 MiB pages is sound and keeps the invariant. -/
theorem SharedInv.reset {base : Set ℕ} {w : SharedHeap} (h : SharedInv base w)
    (hsafe : HeapAction.reset.Safe w) :
    ∃ m', vmmResetHeap w.m = some m' ∧ ResetSound w m' ∧ SharedInv base ⟨m', []⟩ := by
  obtain ⟨blocks, hlive, hblocks⟩ := h hsafe
  obtain ⟨m', hm', hemptied, hlive'⟩ := hlive.vmmResetHeap
  have hused := hemptied.heap.used
  simp only [List.not_mem_nil, false_and, exists_false, or_false] at hused
  refine ⟨m', hm', ⟨fun f hf hf' => ?_, fun f hf => ?_, fun p hp f hf => ?_⟩,
    fun _ => ⟨[], hlive', rfl⟩⟩
  · rcases (hlive.heap.used f).mp hf with hkept | ⟨b, hb, hfb⟩
    · rw [(hused f).mpr hkept] at hf'
      exact absurd hf' (by simp)
    · have hmem : 512 * b * 4096 ∈ w.pages.map HeapPage.physAddr :=
        hblocks ▸ List.mem_map_of_mem hb
      obtain ⟨p, hp, hphys⟩ := List.mem_map.mp hmem
      exact .inl ⟨p, hp, (frames_of_huge (hsafe p hp) hphys).symm ▸ hfb⟩
  · exact (hused f).mpr (.inr ((hemptied.isTable f).mp hf))
  · have hmem : p.physAddr ∈ blocks.map fun b => 512 * b * 4096 := hblocks ▸ List.mem_map_of_mem hp
    obtain ⟨b, hb, hphys⟩ := List.mem_map.mp hmem
    rw [frames_of_huge (hsafe p hp) hphys.symm] at hf
    exact Bool.eq_false_iff.mpr fun htrue => hlive.heap.apart b hb f hf ((hused f).mp htrue)

theorem log_sharedStep {w w' : SharedHeap} {a : HeapAction} (h : SharedStep w a w') :
    w.m.log <+: w'.m.log := by
  cases h with
  | @request r =>
    rw [r.exec_rounds]
    exact log_iterate_pageStep r.huge r.flags r.rounds (r.enter w.m)
  | reset hm' => exact (log_vmmResetHeap hm').symm ▸ List.prefix_rfl

theorem SharedInv.step {base : Set ℕ} {w w' : SharedHeap} {a : HeapAction} (h : SharedInv base w)
    (hstep : SharedStep w a w') (hsafe : a.Safe w) (hready : w'.m.Ready) :
    SharedInv base w' ∧ (a = .reset → ResetSound w w'.m) := by
  cases hstep with
  | request => exact ⟨h.request hsafe hready, fun hr => absurd hr (by simp)⟩
  | reset hm' =>
    obtain ⟨m', hm, hsound, hinv⟩ := h.reset hsafe
    obtain rfl := Option.some.inj (hm'.symm.trans hm)
    exact ⟨hinv, fun _ => hsound⟩

/-- In every run whose requests are served with blocks below byte `2 ^ 31`, and in which no page of
`vmm_alloc` is on the heap at a reset, every reset ends and is sound. -/
theorem resets_sound {m₀ : Machine} (h0 : FreshHeap m₀)
    {tr : List (SharedHeap × HeapAction × SharedHeap)} {w : SharedHeap}
    (hrun : Run SharedStep ⟨m₀, []⟩ tr w) (hsafe : ∀ x ∈ tr, x.2.1.Safe x.1) (hready : w.m.Ready) :
    (HeapAction.reset.Safe w → (vmmResetHeap w.m).isSome) ∧
      ∀ x ∈ tr, x.2.1 = .reset → ResetSound x.1 x.2.2.m := by
  have hpost : ∀ x ∈ tr, x.2.2.m.Ready := fun x hx =>
    hready.of_prefix (hrun.prefix_of_mem (fun v => v.m.log) (fun _ _ _ => log_sharedStep) hx)
  have hkeep : ∀ x ∈ tr, SharedInv {f | m₀.pmm.used f = true} x.1 →
      SharedInv {f | m₀.pmm.used f = true} x.2.2 ∧ (x.2.1 = .reset → ResetSound x.1 x.2.2.m) :=
    fun x hx hinv => hinv.step (hrun.step_of_mem hx) (hsafe x hx) (hpost x hx)
  obtain ⟨hlast, hall⟩ := hrun.invariant_of_mem (I := SharedInv {f | m₀.pmm.used f = true})
    (fun _ => ⟨[], h0.live, rfl⟩) fun x hx hinv => (hkeep x hx hinv).1
  refine ⟨fun hreset => ?_, fun x hx => (hkeep x hx (hall x hx).1).2⟩
  obtain ⟨m', hm', -⟩ := hlast.reset hreset
  rw [hm']
  rfl

/-- A page of 2 MiB, and the reset. -/
theorem resets_sound_huge : ∃ s tr w, pmmInit twoBlockMap (fun _ => 0) = some (pmmInitSuccess, s) ∧
    Run SharedStep ⟨smallMachine s, []⟩ tr w ∧
    tr.map (·.2.1) = [.request ⟨true, 1, 3⟩, .reset] ∧
    ∀ x ∈ tr, x.2.1 = .reset → ResetSound x.1 x.2.2.m := by
  obtain ⟨s, hs, hrange, htotal⟩ := freeRange_twoBlockMap
  obtain ⟨hempty, hclaimed, hstocked⟩ := hrange.smallMachine (by omega) (by omega) (by omega)
  have hfresh := freshHeap_smallMachine hempty hclaimed
  set r : HeapRequest := ⟨true, 1, 3⟩
  have hready : (r.exec (smallMachine s)).2.Ready := by
    change (vmmAllocHugePage (smallMachine s) 1 3).2.Ready
    rw [@vmmAllocHugePage_eq (smallMachine s) 0 rfl (Nat.zero_le _)]
    exact ready_allocHugeStep (b := 1) ⟨hstocked.served, fun _ h => absurd h List.not_mem_nil⟩ hrange
      (by omega) (by omega)
  have hone : Run SharedStep ⟨smallMachine s, []⟩ _ _ :=
    Run.nil.snoc (@SharedStep.request ⟨smallMachine s, []⟩ r)
  have hflags : (HeapAction.request r).Safe ⟨smallMachine s, []⟩ :=
    ⟨(by decide : 3 &&& vmmAddrMask = 0), (by decide : 3 < 2 ^ 64)⟩
  have hhuge : HeapAction.reset.Safe ⟨(r.exec (smallMachine s)).2, [] ++ r.pages (smallMachine s)⟩ :=
    fun p hp => huge_of_mem_pages hp
  obtain ⟨m', hm'⟩ := Option.isSome_iff_exists.mp
    ((resets_sound hfresh hone (fun x hx => List.mem_singleton.mp hx ▸ hflags) hready).1 hhuge)
  have hready' : m'.Ready := by
    have hlog : m'.log = (r.exec (smallMachine s)).2.log := log_vmmResetHeap hm'
    exact ⟨fun e he => hready.served e (hlog ▸ he), fun t ht => hready.low t (hlog ▸ ht)⟩
  have htwo := hone.snoc (.reset hm')
  refine ⟨s, _, _, hs, htwo, rfl, (resets_sound hfresh htwo (fun x hx => ?_) hready').2⟩
  rcases List.mem_pair.mp hx with rfl | rfl
  · exact hflags
  · exact hhuge

/-! ## A page of 4 KiB at a reset -/

/-- `pmm_free_2mb` frees at most the 512 frames from the address on, and these only if aligned. -/
theorem freed_pmmFree2mb {s : PmmContext} {physAddr f : ℕ} (hf : s.used f = true)
    (hfree : (pmmFree2mb s physAddr).used f = false) :
    physAddrToIndex physAddr % 512 = 0 ∧ physAddrToIndex physAddr ≤ f ∧
      f < physAddrToIndex physAddr + 512 := by
  by_cases halign : physAddr % 0x200000 = 0
  · obtain ⟨b, rfl⟩ : ∃ b, physAddr = 512 * b * 4096 := ⟨physAddr / 0x200000, by omega⟩
    by_cases hsize : 64 * b + 64 ≤ s.bitmapSize
    · rw [used_pmmFree2mb s hsize, hf] at hfree
      have hmem : 512 * b ≤ f ∧ f < 512 * b + 512 := by simpa using hfree
      unfold physAddrToIndex
      omega
    · have hsame : pmmFree2mb s (512 * b * 4096) = s := by
        rw [pmmFree2mb, if_neg (not_not.mpr halign)]
        exact if_pos (by unfold physAddrToIndex; omega)
      rw [hsame, hf] at hfree
      exact absurd hfree (by simp)
  · rw [pmmFree2mb, if_pos halign, hf] at hfree
    exact absurd hfree (by simp)

/-- The reset of a heap of one 4 KiB page takes the page table for a 2 MiB page; the page keeps its
frame. -/
theorem NextMixed.leak {flags top : ℕ} {m : Machine} {pages : List HeapPage}
    (h : NextMixed false flags m top pages) (hcursor : m.nextVirtAddr = heapPage 0) {f : ℕ}
    (hf : f ∈ pageFrames false (pmmAlloc m.pmm).1) (hfirst : f % 512 = 0) :
    ∃ m', vmmResetHeap (pageStep false flags m) = some m' ∧ m'.pmm.used f = true ∧
      m'.log = (pageStep false flags m).log := by
  have hnext : (pageStep false flags m).nextVirtAddr = heapStart + 4096 := by
    rw [h.nextVirtAddr, hcursor, heapPage_zero]
    rfl
  generalize hm₁ : pageStep false flags m = m₁ at hnext
  have hreset : vmmResetHeap m₁ = some { resetSlot m₁ heapStart with nextVirtAddr := heapStart } := by
    have hcursor' : (resetSlot m₁ heapStart).nextVirtAddr = heapStart + 4096 := hnext
    rw [vmmResetHeap, resetFrom, if_pos (by rw [hnext]; omega), if_pos (by simp only [heapStart]; omega),
      resetFrom, if_neg (by rw [hcursor']; omega), Option.map_some]
  refine ⟨_, hreset, ?_, rfl⟩
  have hdata : m₁.Data f := hm₁ ▸ h.next.data _ (List.mem_append_right _ (List.mem_singleton_self _)) f hf
  obtain ⟨g, hg, -⟩ := h.page.mapped.slot
  have htable : m₁.table ((pageCall false flags m).path) = some g := by
    rw [← hm₁, h.page.between.table]
    exact hg
  have hslot : (pageCall false flags m).path =
      [tableIndex heapStart 3, tableIndex heapStart 2, tableIndex heapStart 1] := by
    rw [← heapPage_zero, ← hcursor]
    rfl
  rw [hslot] at htable
  have hgTable : m₁.IsTable g := ⟨_, htable⟩
  change follow paging m₁.mem 3 m₁.root ([tableIndex heapStart 3, tableIndex heapStart 2] ++
    [tableIndex heapStart 1]) = some g at htable
  rw [follow_snoc, Option.bind_eq_some_iff] at htable
  obtain ⟨pd, hpd, hlink⟩ := htable
  have hphys := link_some hlink
  rw [← physAddrToIndex_of_table hpd] at hphys
  by_contra hfree
  obtain ⟨halign, hle, hlt⟩ := freed_pmmFree2mb hdata.1 (Bool.eq_false_iff.mpr hfree)
  rw [Machine.entry, hphys] at halign hle hlt
  obtain rfl : f = g := by omega
  exact hdata.2 hgTable

/-- One page of `vmm_alloc` and a reset. -/
theorem reset_leaks_page : ∃ s, pmmInit twoBlockMap (fun _ => 0) = some (pmmInitSuccess, s) ∧
    FreshHeap (smallMachine s) ∧ ∃ tr w, Run SharedStep ⟨smallMachine s, []⟩ tr w ∧
      tr.map (·.2.1) = [.request ⟨false, 1, 3⟩, .reset] ∧ w.m.Ready ∧
      ∃ x ∈ tr, x.2.1 = .reset ∧ ¬ResetSound x.1 x.2.2.m := by
  obtain ⟨s, hs, hrange, htotal⟩ := freeRange_twoBlockMap
  obtain ⟨hempty, hclaimed, hstocked⟩ := hrange.smallMachine (by omega) (by omega) (by omega)
  have hfresh := freshHeap_smallMachine hempty hclaimed
  set r : HeapRequest := ⟨false, 1, 3⟩
  have hvalid : r.Valid := fun _ => by decide
  have hexec : (r.exec (smallMachine s)).2 = pageStep false 3 (smallMachine s) := r.exec_eq hvalid _
  have hserved : (pageStep false 3 (smallMachine s)).Served :=
    (hstocked.mono (show 0 + 3 + 1 ≤ _ by omega)).withFrame.pageStep.served
  have hready : (pageStep false 3 (smallMachine s)).Ready := by
    refine ⟨hserved, fun t ht => ?_⟩
    rcases alloc2mb_mem_pageStep ht with hold | ⟨hf, -⟩
    · exact absurd hold List.not_mem_nil
    · exact absurd hf (by decide)
  have hcursor : (smallMachine s).nextVirtAddr = heapPage 0 := by rw [heapPage, Nat.zero_mul]; rfl
  have hnext : NextMixed false 3 (smallMachine s) 1 [] :=
    ⟨(Unmapped.inv ⟨hclaimed, rfl, by decide, fun i hi => hfresh.vacant i (by
      unfold heapPages; omega)⟩).mixed, by decide, by
      change heapStart + 4096 ≤ heapPage 1
      simp only [heapPage]
      omega, (by decide : heapStart % 4096 = 0), by decide, by decide, hserved,
      given_of_ready hready hclaimed.totalFrames_le⟩
  have hphys : (pmmAlloc s).1 = 512 * 4096 := by
    rw [pmmAlloc_of_firstFree (hrange.firstFree (by omega)), indexToPhysAddr_of_lt (by omega)]
  have hmem : 512 ∈ pageFrames false (pmmAlloc s).1 := by
    rw [hphys]
    simp only [pageFrames, pageSize, Bool.false_eq_true, if_false, Set.mem_ofPred_eq]
    omega
  obtain ⟨m', hm', hused, hlog⟩ := hnext.leak hcursor hmem rfl
  rw [← hexec] at hm' hlog hready
  have hrun : Run SharedStep ⟨smallMachine s, []⟩ _ ⟨m', []⟩ :=
    (Run.nil.snoc (@SharedStep.request ⟨smallMachine s, []⟩ r)).snoc (.reset hm')
  refine ⟨s, hs, hfresh, _, _, hrun, rfl, ⟨fun e he => hready.served e (hlog ▸ he),
    fun t ht => hready.low t (hlog ▸ ht)⟩, _, List.mem_append_right _ (List.mem_singleton_self _), rfl,
    fun hsound => ?_⟩
  have hpage : (⟨false, heapStart + 0 * pageSize false, (pmmAlloc s).1⟩ : HeapPage) ∈
      r.pages (smallMachine s) := by
    rw [HeapRequest.pages, r.rounds_eq hvalid, Region.pages]
    exact List.mem_singleton_self _
  have hfreed := hsound.freed _ (List.mem_append_right _ hpage) 512 hmem
  exact absurd (hused.symm.trans hfreed) (by simp)

end MathUnikernel.Vmm
