import MathUnikernel.DirectMap
import MathUnikernel.NicMemory

/-!
# What the network cards write to

When the memory that a card is given is the memory that its driver reads.
-/

namespace MathUnikernel.Nic
open Pmm Vmm RadixTree

/-- Free frames that were taken, with the tables left where they are. -/
theorem owned_of_free {m m' : Machine} (h : Paged m) (htables : ∀ f, m'.IsTable f ↔ m.IsTable f)
    {frames : List ℕ} (hnodup : frames.Nodup) (hfree : ∀ f ∈ frames, m.pmm.used f = false)
    (hused : ∀ f ∈ frames, m'.pmm.used f = true) : Owned m m' frames := by
  refine ⟨hnodup, fun f hf hzero => ?_, hfree, hused, fun f hf htable => ?_⟩
  · have hclash := hfree f hf
    rw [hzero, h.zero] at hclash
    exact absurd hclash (by simp)
  · have hclash := hfree f hf
    rw [h.claimed.used f ((htables f).mp htable)] at hclash
    exact absurd hclash (by simp)

/-! ## The RTL8139 -/

theorem register_rbStart (physAddr : ℕ) :
    register (bufferWrites physAddr) rbStart = some (physAddr % 2 ^ 32) := rfl

theorem rtl8139Init_eq {hhdmOffset : ℕ} {m : Machine} {physAddr : ℕ} {pmm : PmmContext}
    (h : pmmAllocContiguous m.pmm 4 = (physAddr, pmm)) : rtl8139Init hhdmOffset m =
      { m := clearBuffer physAddr { m with pmm }
        rxBuffer := (physAddr + hhdmOffset) % 2 ^ 64
        writes := bufferWrites physAddr } := by
  rw [rtl8139Init, h]

/-- Clearing frames that hold no table leaves the tables and the PMM alone. -/
theorem between_clearFrames {physAddr : ℕ} {ks : List ℕ} {m : Machine}
    (h : ∀ k ∈ ks, ¬m.IsTable (physAddrToIndex (physAddr + 4096 * k))) :
    Between m (ks.foldl (fun m k => m.clearFrame (physAddr + 4096 * k)) m) ∧
      (ks.foldl (fun m k => m.clearFrame (physAddr + 4096 * k)) m).pmm = m.pmm := by
  induction ks generalizing m with
  | nil => exact ⟨.refl m, rfl⟩
  | cons k ks ih =>
    have hfirst := between_clearFrame (h k List.mem_cons_self)
    have hrest := @ih (m.clearFrame (physAddr + 4096 * k)) fun k' hk' htable =>
      h k' (List.mem_cons_of_mem k hk') ((hfirst.isTable _).mp htable)
    rw [List.foldl_cons]
    exact ⟨hfirst.trans hrest.1, hrest.2⟩

/-- The zero-fill of free frames. -/
theorem clearBuffer_of_free {m : Machine} (hclaimed : Claimed m) {start : ℕ}
    (hfree : ∀ k < 4, m.pmm.used (start + k) = false) (pmm : PmmContext) :
    Between m (clearBuffer (start * 4096) { m with pmm }) ∧
      (clearBuffer (start * 4096) { m with pmm }).pmm = pmm := by
  obtain ⟨hbetween, hpmm⟩ := @between_clearFrames (start * 4096) (List.range 4) { m with pmm }
    fun k hk htable => by
      rw [physAddrToIndex_add] at htable
      have hclash := hclaimed.used _ htable
      rw [hfree k (List.mem_range.mp hk)] at hclash
      exact Bool.false_ne_true hclash
  exact ⟨⟨hbetween.pml4Phys, hbetween.tables⟩, hpmm⟩

/-- With four free frames in a row below 4 GiB the card fills the memory that the driver reads. -/
theorem rtlDma_of_run {m : Machine} (hpaged : Paged m) {hhdmOffset : ℕ} (hhhdm : hhdmOffset < 2 ^ 64)
    {start : ℕ} (hrun : FreeRun m.pmm 4 start) (hlow : start + 4 ≤ 2 ^ 20)
    (halloc : pmmAllocContiguous m.pmm 4 = (indexToPhysAddr start, claimRun m.pmm start 4)) :
    RtlDma hhdmOffset m (rtl8139Init hhdmOffset m) := by
  rw [indexToPhysAddr_of_lt (by omega)] at halloc
  have hbehind : behind hhdmOffset ((start * 4096 + hhdmOffset) % 2 ^ 64) = start * 4096 :=
    behind_pointer hhhdm (by omega)
  have hfree : ∀ k < 4, m.pmm.used (start + k) = false := fun k hk =>
    (hrun (start + k) (by omega) (by omega)).2
  obtain ⟨hbetween, hpmm⟩ := clearBuffer_of_free hpaged.claimed hfree (claimRun m.pmm start 4)
  rw [rtl8139Init_eq halloc]
  constructor
  · refine ⟨_, register_rbStart _, fun i hi => ?_⟩
    rw [hbehind]
    omega
  · rw [hbehind, Nat.mul_mod_left]
  · rw [hbehind, physAddrToIndex_mul]
    have hmem : ∀ f ∈ (List.range 4).map (start + ·), ∃ k < 4, start + k = f := by
      intro f hf
      obtain ⟨k, hk, hkf⟩ := List.mem_map.mp hf
      exact ⟨k, List.mem_range.mp hk, hkf⟩
    apply owned_of_free hpaged hbetween.isTable
    · exact List.nodup_range.map fun a b hab => Nat.add_left_cancel hab
    · intro f hf
      obtain ⟨k, hk, rfl⟩ := hmem f hf
      exact hfree k hk
    · intro f hf
      obtain ⟨k, hk, rfl⟩ := hmem f hf
      rw [hpmm, used_claimRun, Bool.or_eq_true, decide_eq_true_eq]
      exact .inr ⟨by omega, by omega⟩

/-- The card fills the memory that the driver reads if and only if the first four free frames in a
row lie below 4 GiB. -/
theorem rtlDma_iff {m : Machine} (h : Running m) {hhdmOffset : ℕ} (hhhdm : hhdmOffset < 2 ^ 64) :
    RtlDma hhdmOffset m (rtl8139Init hhdmOffset m) ↔
      ∃ start, IsLeast {st | FreeRun m.pmm 4 st} start ∧ start + 4 ≤ 2 ^ 20 := by
  have hT := h.totalFrames_le
  rcases pmmAllocContiguous_search m.pmm (n := 4) (by norm_num) with
    ⟨start, hleast, halloc⟩ | ⟨hnone, halloc⟩
  · have hrun : FreeRun m.pmm 4 start := hleast.1
    have hfirst := hrun start le_rfl (by omega)
    constructor
    · intro hdma
      refine ⟨start, hleast, ?_⟩
      -- the first and the last byte fix where the buffer ends
      obtain ⟨base, hbase, hprogrammed⟩ := hdma.programmed
      rw [rtl8139Init_eq halloc, indexToPhysAddr_of_lt (by omega)] at hbase hprogrammed
      have hlow := hprogrammed 0 (by norm_num)
      have hhigh := hprogrammed 16383 (by norm_num)
      rw [behind_pointer hhhdm (by omega)] at hlow hhigh
      have heq := Option.some.inj ((register_rbStart _).symm.trans hbase)
      omega
    · intro ⟨start', hleast', hlow⟩
      have heq := hleast.unique hleast'
      have hpaged := (h.of_free hfirst.1 hfirst.2).2
      apply rtlDma_of_run hpaged hhhdm hrun (by omega) halloc
  · constructor
    · intro hdma
      -- the failure value 0 is taken for an address
      have hzero := hdma.owned.nonzero 0
      rw [rtl8139Init_eq halloc, behind_pointer hhhdm (by norm_num)] at hzero
      exact absurd rfl (hzero (by decide))
    · intro ⟨start, hleast, _⟩
      exact absurd hleast.1 (hnone start)

/-! ## The I219 -/

/-- The calls that map the registers of the card. -/
def mmioCalls (hhdmOffset bar0Raw : ℕ) : List MapCall :=
  rangeCalls ((mmioBasePhys bar0Raw + hhdmOffset) % 2 ^ 64) (mmioBasePhys bar0Raw) (128 * 1024)
    mmioFlags

/-- The paths of the tables that are missing for the registers. -/
def mmioTables (hhdmOffset bar0Raw : ℕ) (m : Machine) : Finset (List (Fin 512)) :=
  (tablePaths (mmioCalls hhdmOffset bar0Raw)).filter fun q => m.table q = none

theorem i219Init_eq (hhdmOffset : ℕ) (m : Machine) (bar0Raw : ℕ) :
    i219Init hhdmOffset m bar0Raw =
      some (ringInit hhdmOffset (runCalls (mmioCalls hhdmOffset bar0Raw) m)) := by
  rw [i219Init, vmmMapRange_eq _ (by norm_num), mmioCalls]
  rfl

theorem huge_of_mem_mmioCalls {hhdmOffset bar0Raw : ℕ} {c : MapCall}
    (h : c ∈ mmioCalls hhdmOffset bar0Raw) : c.huge = false := huge_of_mem_rangeCalls h

/-- The mapping leaves the PMM with all frames but those for its tables. -/
theorem clearCount_mmio {hhdmOffset bar0Raw : ℕ} {m : Machine} (h : Paged m)
    (hanswered : (runCalls (mmioCalls hhdmOffset bar0Raw) m).Answered) :
    clearCount (runCalls (mmioCalls hhdmOffset bar0Raw) m).pmm +
      (mmioTables hhdmOffset bar0Raw m).card = clearCount m.pmm := by
  have hran := h.ran (fun c hc => huge_of_mem_mmioCalls hc) hanswered
  exact hran.clearCount (pmm_runCalls (P := Taken m.pmm) (fun s hs => hs.pmmAlloc) _ (.refl m.pmm))

/-- The sizes of the PMM stay as they are. -/
theorem sizes_runCalls (calls : List MapCall) (m : Machine) :
    (runCalls calls m).pmm.totalFrames = m.pmm.totalFrames ∧
      (runCalls calls m).pmm.bitmapSize = m.pmm.bitmapSize := by
  have htaken := pmm_runCalls (P := Taken m.pmm) (fun s hs => hs.pmmAlloc) calls (.refl m.pmm)
  exact ⟨htaken.totalFrames, htaken.bitmapSize⟩

theorem exhausted_runCalls {m : Machine} (h : Exhausted m.pmm) (calls : List MapCall) :
    Exhausted (runCalls calls m).pmm := by
  apply pmm_runCalls _ calls h
  intro s hs
  rw [pmmAlloc_of_exhausted hs]
  exact hs

/-- Where the ring has an address, the frames have not run out, and none of the requests for tables
was in vain. -/
theorem Running.answered {m : Machine} (h : Running m) {calls : List MapCall}
    (hr : (pmmAlloc (runCalls calls m).pmm).1 ≠ 0) :
    m.Answered ∧ Paged m ∧ (runCalls calls m).Answered := by
  have hnot : ¬Exhausted (runCalls calls m).pmm := by
    intro hexhausted
    rw [pmmAlloc_of_exhausted hexhausted] at hr
    exact hr rfl
  have hpaged := h.served.resolve_right fun hexhausted => hnot (exhausted_runCalls hexhausted calls)
  exact ⟨hpaged.1, hpaged.2, (h.settled.runCalls calls).resolve_right hnot⟩

/-- The ring and the buffers are 33 free frames. -/
theorem frames_le_of_owned {m m₀ : Machine} (hsize : m.pmm.totalFrames ≤ 8 * m.pmm.bitmapSize)
    {hhdmOffset : ℕ} (hhhdm : hhdmOffset < 2 ^ 64)
    (hdma : I219Dma hhdmOffset m₀ (ringInit hhdmOffset m)) :
    (pmmAlloc m.pmm).1 ≠ 0 ∧ 33 ≤ clearCount m.pmm := by
  have hnonzero := List.forall_mem_map.mp hdma.owned.nonzero
  rw [ringInit_eq] at hnonzero
  dsimp only at hnonzero
  obtain ⟨hfirst, hrest⟩ := List.forall_mem_cons.mp hnonzero
  rw [behind_pointer hhhdm (pmmAlloc_lt _)] at hfirst
  have hring : (pmmAlloc m.pmm).1 ≠ 0 := by
    intro hzero
    rw [hzero] at hfirst
    exact hfirst rfl
  have hcount := clearCount_of_pmmAlloc hsize hring
  have hsize' : (ringMachine m).pmm.totalFrames ≤ 8 * (ringMachine m).pmm.bitmapSize := by
    rw [ringMachine_pmm, pmmAlloc_totalFrames, pmmAlloc_bitmapSize]
    exact hsize
  have hbuffers := @length_le_clearCount hhdmOffset (pmmAlloc m.pmm).1 hhhdm
    (List.finRange I219.numRxDesc) (ringMachine m) hsize' fun p hp hzero => by
    have hframe := hrest p hp
    rw [hzero] at hframe
    exact hframe rfl
  rw [List.length_finRange, ringMachine_pmm] at hbuffers
  have h32 : I219.numRxDesc = 32 := rfl
  exact ⟨hring, by omega⟩

/-- The frame of the ring and the frames of the buffers. -/
structure RingFilled (hhdmOffset : ℕ) (m : Machine) (f : ℕ) (frames : List ℕ)
    (r : List ℕ × Machine) : Prop where
  ring : (pmmAlloc m.pmm).1 = f * 4096
  filled : Filled hhdmOffset (f * 4096) (List.finRange I219.numRxDesc) (ringMachine m) r frames
  nodup : (f :: frames).Nodup
  below : ∀ g ∈ f :: frames, g < m.pmm.totalFrames
  free : ∀ g ∈ f :: frames, m.pmm.used g = false
  used : ∀ g ∈ f :: frames, r.2.pmm.used g = true

theorem RingFilled.pointers {hhdmOffset : ℕ} {m : Machine} {f : ℕ} {frames : List ℕ}
    {r : List ℕ × Machine} (h : RingFilled hhdmOffset m f frames r) :
    ((f * 4096 + hhdmOffset) % 2 ^ 64) :: r.1 =
      (f :: frames).map fun g => (g * 4096 + hhdmOffset) % 2 ^ 64 :=
  congrArg (List.cons _) h.filled.pointers

/-- Only the ring's frame was written. -/
theorem RingFilled.between {hhdmOffset : ℕ} {m : Machine} {f : ℕ} {frames : List ℕ}
    {r : List ℕ × Machine} (h : RingFilled hhdmOffset m f frames r) (hpaged : Paged m) :
    Between m r.2 := by
  refine ⟨h.filled.pml4Phys, fun g hg => h.filled.mem g fun heq => ?_⟩
  have hclash := hpaged.claimed.used g hg
  rw [heq, physAddrToIndex_mul, h.free f List.mem_cons_self] at hclash
  exact Bool.false_ne_true hclash

/-- With 33 free frames the requests find 33 of them. -/
theorem exists_ringFilled {m : Machine} (hT : m.pmm.totalFrames ≤ 2 ^ 40)
    (hsize : m.pmm.totalFrames ≤ 8 * m.pmm.bitmapSize) (hhdmOffset : ℕ)
    (hframes : 33 ≤ clearCount m.pmm) :
    ∃ f frames, RingFilled hhdmOffset m f frames
      (fillRing hhdmOffset (f * 4096) (List.finRange I219.numRxDesc) (ringMachine m)) := by
  obtain ⟨f, hf, hcount⟩ := exists_firstFree hsize (by omega)
  have hlt := hf.lt_total
  have halloc := pmmAlloc_of_firstFree hf
  rw [indexToPhysAddr_of_lt (by omega)] at halloc
  have hused : ∀ g, (ringMachine m).pmm.used g = true ↔ m.pmm.used g = true ∨ g = f := by
    intro g
    rw [ringMachine_pmm, halloc, used_claimFrame, Bool.or_eq_true, decide_eq_true_eq]
  have hT' : (ringMachine m).pmm.totalFrames = m.pmm.totalFrames := pmmAlloc_totalFrames m.pmm
  have hB' : (ringMachine m).pmm.bitmapSize = m.pmm.bitmapSize := pmmAlloc_bitmapSize m.pmm
  have h32 : I219.numRxDesc = 32 := rfl
  obtain ⟨frames, hfilled⟩ := @exists_filled hhdmOffset (f * 4096) (List.finRange I219.numRxDesc)
    (List.nodup_finRange _) (ringMachine m) (hT'.trans_le hT) (by rw [hT', hB']; exact hsize) (by
      rw [List.length_finRange, ringMachine_pmm]
      omega)
  have htaken := hfilled.taken
  rw [hT'] at htaken
  refine ⟨f, frames, congrArg Prod.fst halloc, hfilled, List.nodup_cons.mpr ⟨fun hmem => ?_,
    hfilled.nodup⟩, ?_, ?_, ?_⟩
  · -- the ring's frame is in use when the buffers are asked for
    have hfree := (htaken f hmem).2.1
    rw [(hused f).mpr (.inr rfl)] at hfree
    exact absurd hfree (by simp)
  · exact List.forall_mem_cons.mpr ⟨hlt, fun g hg => (htaken g hg).1⟩
  · refine List.forall_mem_cons.mpr ⟨hf.free, fun g hg => ?_⟩
    exact free_of_kept (fun hold => (hused g).mpr (.inl hold)) (htaken g hg).2.1
  · refine List.forall_mem_cons.mpr ⟨?_, fun g hg => (htaken g hg).2.2⟩
    exact hfilled.used f ((hused f).mpr (.inr rfl))

/-- With 33 free frames the ring and the buffers are 33 of them. -/
theorem i219Dma_of_frames {m : Machine} (hpaged : Paged m)
    (hsize : m.pmm.totalFrames ≤ 8 * m.pmm.bitmapSize) {hhdmOffset : ℕ}
    (hhhdm : hhdmOffset < 2 ^ 64) (hframes : 33 ≤ clearCount m.pmm) :
    I219Dma hhdmOffset m (ringInit hhdmOffset m) := by
  have hT := hpaged.claimed.totalFrames_le
  obtain ⟨f, frames, h⟩ := exists_ringFilled hT hsize hhdmOffset hframes
  rw [ringInit_eq, h.ring]
  generalize fillRing hhdmOffset (f * 4096) (List.finRange I219.numRxDesc) (ringMachine m) = filled
    at h ⊢
  obtain ⟨pointers, m'⟩ := filled
  have hpointers := h.pointers
  have hbehind : ∀ g ∈ f :: frames,
      behind hhdmOffset ((g * 4096 + hhdmOffset) % 2 ^ 64) = g * 4096 := by
    intro g hg
    have hlt := h.below g hg
    exact behind_pointer hhhdm (by omega)
  have hring := hbehind f List.mem_cons_self
  have hlt := h.below f List.mem_cons_self
  have hmap : (((f * 4096 + hhdmOffset) % 2 ^ 64) :: pointers).map (behind hhdmOffset) =
      (f :: frames).map (· * 4096) := by
    rw [hpointers, List.map_map]
    exact List.map_congr_left hbehind
  constructor
  · refine ⟨_, _, register_rdbal _, register_rdbah _, ?_⟩
    rw [hring]
    omega
  · rw [hring]
    exact h.filled.descriptors.trans (List.tail_eq_of_cons_eq hmap).symm
  · intro p hp
    have hmem := List.mem_map_of_mem (f := behind hhdmOffset) hp
    rw [hmap] at hmem
    obtain ⟨g, -, hg⟩ := List.mem_map.mp hmem
    rw [← hg, Nat.mul_mod_left]
  · have hlist : (((f * 4096 + hhdmOffset) % 2 ^ 64) :: pointers).map
        (fun p => physAddrToIndex (behind hhdmOffset p)) = f :: frames := by
      have hframe : (fun p => physAddrToIndex (behind hhdmOffset p)) =
          physAddrToIndex ∘ behind hhdmOffset := rfl
      rw [hframe, ← List.map_map, hmap, List.map_map]
      exact (List.map_congr_left fun g _ => physAddrToIndex_mul g).trans (List.map_id _)
    dsimp only
    rw [hlist]
    exact owned_of_free hpaged (h.between hpaged).isTable h.nodup h.free h.used

/-- With frames enough the tables are found, and 33 frames are left. -/
theorem Running.mmio {m : Machine} (h : Running m) {hhdmOffset bar0Raw : ℕ}
    (hle : (mmioTables hhdmOffset bar0Raw m).card + 33 ≤ clearCount m.pmm) :
    Paged m ∧ (runCalls (mmioCalls hhdmOffset bar0Raw) m).Answered ∧
      33 ≤ clearCount (runCalls (mmioCalls hhdmOffset bar0Raw) m).pmm := by
  obtain ⟨f, hf, -⟩ := exists_firstFree h.le_size (show 0 < clearCount m.pmm by omega)
  obtain ⟨hans, hpaged⟩ := h.of_free hf.lt_total hf.free
  have haffords : Affords m (tablePaths (mmioCalls hhdmOffset bar0Raw)) :=
    ⟨h.le_size, (Nat.le_add_right _ 33).trans hle⟩
  have hanswered := haffords.runCalls hpaged (fun c hc => huge_of_mem_mmioCalls hc)
    (fun c hc q hq => mem_tablePaths.mpr (.inr ⟨c, hc, hq⟩)) hans
  have htables := clearCount_mmio hpaged hanswered
  exact ⟨hpaged, hanswered, by omega⟩

/-- The ring is where the driver reads it if and only if there are frames for it, the buffers and
the tables of the registers. -/
theorem i219Dma_iff {m : Machine} (h : Running m) {hhdmOffset : ℕ} (hhhdm : hhdmOffset < 2 ^ 64)
    (bar0Raw : ℕ) : (∃ r, i219Init hhdmOffset m bar0Raw = some r ∧ I219Dma hhdmOffset m r) ↔
      (mmioTables hhdmOffset bar0Raw m).card + 33 ≤ clearCount m.pmm := by
  obtain ⟨hT, hB⟩ := sizes_runCalls (mmioCalls hhdmOffset bar0Raw) m
  have hsize := h.le_size
  rw [← hT, ← hB] at hsize
  constructor
  · intro ⟨r, hr, hdma⟩
    rw [i219Init_eq] at hr
    obtain rfl := Option.some.inj hr
    -- the tables were taken before the ring and the buffers
    obtain ⟨hring, hframes⟩ := frames_le_of_owned hsize hhhdm hdma
    obtain ⟨-, hpaged, hanswered⟩ := h.answered hring
    have htables := clearCount_mmio hpaged hanswered
    omega
  · intro hle
    obtain ⟨hpaged, hanswered, hframes⟩ := h.mmio hle
    have hran := hpaged.ran (fun c hc => huge_of_mem_mmioCalls hc) hanswered
    have hpaged' := (hpaged.runCalls (fun c hc => huge_of_mem_mmioCalls hc) hanswered).1
    have hdma := i219Dma_of_frames hpaged' hsize hhhdm hframes
    refine ⟨_, i219Init_eq hhdmOffset m bar0Raw, hdma.ring, hdma.buffers, hdma.aligned,
      hdma.owned.nodup, hdma.owned.nonzero, fun f hf => ?_, hdma.owned.used, hdma.owned.apart⟩
    -- what was free after the mapping was free before it
    exact free_of_kept (fun hused => (hran.used f).mpr (.inl hused)) (hdma.owned.free f hf)

/-- Where the cards write is where the drivers read if and only if the frames are there, and for the
register of 32 bits below 4 GiB. -/
theorem dmaTargets_iff {m : Machine} (h : Running m) {hhdmOffset : ℕ} (hhhdm : hhdmOffset < 2 ^ 64)
    (bar0Raw : ℕ) :
    (RtlDma hhdmOffset m (rtl8139Init hhdmOffset m) ↔
      ∃ start, IsLeast {st | FreeRun m.pmm 4 st} start ∧ start + 4 ≤ 2 ^ 20) ∧
    ((∃ r, i219Init hhdmOffset m bar0Raw = some r ∧ I219Dma hhdmOffset m r) ↔
      (mmioTables hhdmOffset bar0Raw m).card + 33 ≤ clearCount m.pmm) :=
  ⟨rtlDma_iff h hhhdm, i219Dma_iff h hhhdm bar0Raw⟩

theorem running_smallMachine {s : PmmContext} (hclaimed : Claimed (smallMachine s))
    (hsize : s.totalFrames ≤ 8 * s.bitmapSize) (hzero : s.used 0 = true) :
    Running (smallMachine s) := by
  have hblank : Blank paging (smallMachine s).mem (smallMachine s).root := blank_of_zero fun _ => rfl
  refine ⟨hclaimed.totalFrames_le, hsize, .inl ⟨fun t ht => absurd ht List.not_mem_nil, hclaimed,
    fun q _ => hblank.find 3 q, hzero, fun q f i _ _ hpresent => ?_⟩⟩
  exact absurd (Nat.zero_and _) hpresent

/-- 512 free frames from 2 MiB on. -/
theorem dmaTargets_smallMap : ∃ s, pmmInit smallMap (fun _ => 0) = some (pmmInitSuccess, s) ∧
    RtlDma 0xffff800000000000 (smallMachine s) (rtl8139Init 0xffff800000000000 (smallMachine s)) ∧
    ∃ r, i219Init 0xffff800000000000 (smallMachine s) 0xfeb00000 = some r ∧
      I219Dma 0xffff800000000000 (smallMachine s) r := by
  obtain ⟨s, hs, hsize, htotal, hused⟩ := pmmInit_smallMap
  obtain ⟨-, hclaimed, -⟩ := smallMachine_facts hsize htotal hused (by omega) (by omega)
  have hlow : ∀ f < 512, s.used f = true := fun f hf => by
    have hnot := mt (hused f (by omega)).mp (by omega)
    simpa using hnot
  have hrunning := running_smallMachine hclaimed (by omega) (hlow 0 (by norm_num))
  obtain ⟨hrtl, hi219⟩ := @dmaTargets_iff _ hrunning 0xffff800000000000 (by norm_num) 0xfeb00000
  refine ⟨s, hs, hrtl.mpr ⟨512, ⟨fun j hlo hhi => ?_, fun st hst => ?_⟩, by norm_num⟩, hi219.mpr ?_⟩
  · exact ⟨by simp only [smallMachine]; omega, (hused j (by omega)).mpr hlo⟩
  · have hfirst := hst st le_rfl (by omega)
    by_contra hlt
    have hclash := hlow st (by omega)
    rw [show s.used st = false from hfirst.2] at hclash
    exact Bool.false_ne_true hclash
  · have htables : (mmioTables 0xffff800000000000 0xfeb00000 (smallMachine s)).card ≤ 97 :=
      (Finset.card_filter_le _ _).trans (card_tablePaths_le fun c hc => huge_of_mem_mmioCalls hc)
    have hsub : Finset.Ico 512 1024 ⊆ (Finset.range s.totalFrames).filter fun f => s.used f = false := by
      intro f hf
      obtain ⟨hlo, hhi⟩ := Finset.mem_Ico.mp hf
      exact Finset.mem_filter.mpr ⟨Finset.mem_range.mpr (by omega), (hused f hhi).mpr hlo⟩
    have hcount : 512 ≤ clearCount s := by
      have hcard := Finset.card_le_card hsub
      rwa [Nat.card_Ico] at hcard
    have hle : 97 + 33 ≤ clearCount s := (by norm_num : 97 + 33 ≤ 512).trans hcount
    exact (Nat.add_le_add_right htables 33).trans hle

/-! ## Through the page tables -/

/-- The direct map reaches the free frames, all below 256 TiB. -/
structure Direct (hhdmOffset : ℕ) (m : Machine) : Prop where
  aligned : hhdmOffset % 4096 = 0
  total : m.pmm.totalFrames ≤ 2 ^ 36
  walk : ∀ addr, addr / 4096 < m.pmm.totalFrames → m.pmm.used (addr / 4096) = false →
    (hwWalk m ((hhdmOffset + addr) % 2 ^ 64)).map Prod.fst = some addr

/-- It does after `vmm_init`. -/
theorem direct_of_vmmInit {entries : List MemmapEntry} (hconf : Conformant entries)
    (hroom : HasRoom entries) (bytes : ℕ → UInt8) {hhdmOffset : ℕ} {kernel : KernelAddress}
    (hlayout : Layout hhdmOffset kernel entries) (mem : ℕ → Fin 512 → ℕ) :
    ∃ s m, pmmInit entries bytes = some (pmmInitSuccess, s) ∧
      vmmInit hhdmOffset kernel entries (bootMachine s mem) = some (vmmInitSuccess, m) ∧
      Running m ∧ (m.Answered → Direct hhdmOffset m) := by
  obtain ⟨s, hs, hexact⟩ := pmmInit_exact hconf hroom bytes
  have hsized := pmmInit_sized hs
  have htotal := hlayout.totalFrames_le_direct
  have hsize : s.totalFrames ≤ 8 * s.bitmapSize := by
    rw [hsized.totalFrames, hsized.bitmapSize, bitmapSizeOf]
    omega
  have hm := vmmInit_eq hhdmOffset kernel hlayout.bootEnds (bootMachine s mem)
  have hT : s.totalFrames ≤ 2 ^ 40 := hsized.totalFrames.trans_le hlayout.totalFrames_le
  have hrunning := running_of_vmmInit hlayout.bootEnds hT hsize hm
  refine ⟨s, _, hs, hm, hrunning, fun hanswered => ⟨hlayout.aligned, ?_, fun addr hlt hfree => ?_⟩⟩
  · obtain ⟨htotal', -⟩ := sizes_runCalls (bootCalls hhdmOffset kernel entries)
      (vmmPrepPml4 (bootMachine s mem))
    have hprep : (vmmPrepPml4 (bootMachine s mem)).pmm.totalFrames = s.totalFrames :=
      pmmAlloc_totalFrames s
    rw [htotal', hprep, hsized.totalFrames]
    exact htotal
  · have hneeds := direct_of_needs hconf hexact hlayout hsized.totalFrames hanswered
      (.inl ⟨hlt.trans_le hrunning.le_size, hfree⟩)
    rw [hneeds.1]
    rfl

/-- Each byte at `rx_buffer` is the one that the card writes. -/
theorem rtl8139_reads {m : Machine} (h : Running m) {hhdmOffset : ℕ}
    (hdirect : Direct hhdmOffset m) {start : ℕ} (hleast : IsLeast {st | FreeRun m.pmm 4 st} start)
    (hlow : start + 4 ≤ 2 ^ 20) {i : ℕ} (hi : i < 4 * 4096) :
    ∃ base, register (rtl8139Init hhdmOffset m).writes rbStart = some base ∧
      (hwWalk (rtl8139Init hhdmOffset m).m
        (((rtl8139Init hhdmOffset m).rxBuffer + i) % 2 ^ 64)).map Prod.fst =
          some ((base + i) % 2 ^ 32) := by
  have hrun : FreeRun m.pmm 4 start := hleast.1
  have hfree : ∀ k < 4, m.pmm.used (start + k) = false := fun k hk =>
    (hrun (start + k) (by omega) (by omega)).2
  have hfirst := hrun start le_rfl (by omega)
  have hpaged := (h.of_free hfirst.1 hfirst.2).2
  have halloc : pmmAllocContiguous m.pmm 4 = (start * 4096, claimRun m.pmm start 4) := by
    rcases pmmAllocContiguous_search m.pmm (n := 4) (by norm_num) with
      ⟨start', hleast', halloc⟩ | ⟨hnone, -⟩
    · rw [halloc, hleast'.unique hleast, indexToPhysAddr_of_lt (by omega)]
    · exact absurd hrun (hnone start)
  have hbetween := (clearBuffer_of_free hpaged.claimed hfree (claimRun m.pmm start 4)).1
  rw [rtl8139Init_eq halloc]
  refine ⟨_, register_rbStart _, ?_⟩
  have hframe : (start * 4096 + i) / 4096 = start + i / 4096 := by omega
  have hpage := hrun (start + i / 4096) (by omega) (by omega)
  have hwalk := hdirect.walk (start * 4096 + i) (hframe ▸ hpage.1) (hframe ▸ hpage.2)
  have hpointer : ((start * 4096 + hhdmOffset) % 2 ^ 64 + i) % 2 ^ 64 =
      (hhdmOffset + (start * 4096 + i)) % 2 ^ 64 := by omega
  dsimp only
  rw [hbetween.hwWalk_eq, hpointer, hwalk]
  apply congrArg some
  omega

/-- The calls for the registers leave the direct map where it leads. -/
theorem hwWalk_mmio {m : Machine} (hpaged : Paged m) {hhdmOffset bar0Raw : ℕ}
    (hanswered : (runCalls (mmioCalls hhdmOffset bar0Raw) m).Answered)
    (haligned : hhdmOffset % 4096 = 0) (hbar : bar0Raw < 2 ^ 32) {addr : ℕ} (haddr : addr < 2 ^ 48)
    (hwalk : (hwWalk m ((hhdmOffset + addr) % 2 ^ 64)).map Prod.fst = some addr) :
    (hwWalk (runCalls (mmioCalls hhdmOffset bar0Raw) m)
      ((hhdmOffset + addr) % 2 ^ 64)).map Prod.fst = some addr := by
  have hbase : mmioBasePhys bar0Raw ≤ bar0Raw := Nat.and_le_left
  have hleaf : LeafCalls (mmioCalls hhdmOffset bar0Raw) := by
    intro c hc
    obtain ⟨k, hk, rfl⟩ := mem_rangeCalls.mp hc
    have hfield : mmioFlags &&& vmmAddrMask = 0 := by decide
    have hflags : mmioFlags < 2 ^ 64 := by decide
    refine ⟨?_, hfield, hflags⟩
    change (mmioBasePhys bar0Raw + 4096 * k) % 2 ^ 64 < 2 ^ 52
    omega
  rw [hpaged.hwWalk_runCalls (fun c hc => huge_of_mem_mmioCalls hc) hleaf hanswered]
  apply foldl_apply_of_same _ hwalk
  intro c hc hcovers
  obtain ⟨k, hk, rfl⟩ := mem_rangeCalls.mp hc
  have hpage := (covers_direct _ haligned haddr (by omega)).mp hcovers
  change (mmioBasePhys bar0Raw + 4096 * k) % 2 ^ 64 / 4096 * 4096 +
    (hhdmOffset + addr) % 2 ^ 64 % 4096 = addr
  omega

/-- Each byte at the ring and at the buffers is one of the memory that the card is given. -/
theorem i219_reads {m : Machine} (h : Running m) {hhdmOffset : ℕ} (hhhdm : hhdmOffset < 2 ^ 64)
    (hdirect : Direct hhdmOffset m) {bar0Raw : ℕ} (hbar : bar0Raw < 2 ^ 32)
    (hle : (mmioTables hhdmOffset bar0Raw m).card + 33 ≤ clearCount m.pmm) {r : I219Init}
    (hr : i219Init hhdmOffset m bar0Raw = some r) {p : ℕ} (hp : p ∈ r.rxRingVirt :: r.rxBuffersVirt)
    {i : ℕ} (hi : i < 4096) :
    (hwWalk r.m ((p + i) % 2 ^ 64)).map Prod.fst = some (behind hhdmOffset p + i) := by
  rw [i219Init_eq] at hr
  obtain rfl := Option.some.inj hr
  obtain ⟨hpaged, hanswered, hframes⟩ := h.mmio hle
  have hran := hpaged.ran (fun c hc => huge_of_mem_mmioCalls hc) hanswered
  have hpaged' := (hpaged.runCalls (fun c hc => huge_of_mem_mmioCalls hc) hanswered).1
  obtain ⟨hT, hB⟩ := sizes_runCalls (mmioCalls hhdmOffset bar0Raw) m
  have hsize := h.le_size
  rw [← hT, ← hB] at hsize
  obtain ⟨f, frames, hring⟩ := exists_ringFilled hpaged'.claimed.totalFrames_le hsize hhdmOffset
    hframes
  rw [ringInit_eq, hring.ring] at hp ⊢
  dsimp only at hp ⊢
  rw [hring.pointers] at hp
  obtain ⟨g, hg, rfl⟩ := List.mem_map.mp hp
  have hlt := hring.below g hg
  rw [hT] at hlt
  have hfree : m.pmm.used g = false :=
    free_of_kept (fun hused => (hran.used g).mpr (.inl hused)) (hring.free g hg)
  have htotal := hdirect.total
  have hframe : (g * 4096 + i) / 4096 = g := by omega
  have hwalk := hwWalk_mmio hpaged hanswered hdirect.aligned hbar (by omega)
    (hdirect.walk (g * 4096 + i) (by rwa [hframe]) (by rwa [hframe]))
  have hpointer : ((g * 4096 + hhdmOffset) % 2 ^ 64 + i) % 2 ^ 64 =
      (hhdmOffset + (g * 4096 + i)) % 2 ^ 64 := by omega
  rw [(hring.between hpaged').hwWalk_eq, hpointer, hwalk, behind_pointer hhhdm (by omega)]

/-! ## Memory above 4 GiB only -/

/-- 64 usable frames from 4 GiB on, and a kernel of one page. -/
def highMap : List MemmapEntry :=
  [⟨0x300000, 0x1000, .kernelAndModules⟩, ⟨0x100000000, 0x40000, .usable⟩]

theorem clearCount_le_of_taken {s s' : PmmContext} (h : Taken s s') : clearCount s' ≤ clearCount s := by
  apply Finset.card_le_card
  intro f hf
  obtain ⟨hlt, hfree⟩ := Finset.mem_filter.mp hf
  rw [h.totalFrames] at hlt
  exact Finset.mem_filter.mpr ⟨hlt, free_of_kept (h.kept f) hfree⟩

/-- The bitmap takes 33 of the frames. The buffer is then above 4 GiB, and the ring and its buffers
are too many. -/
theorem not_dmaTargets_highMap : ∃ s m', pmmInit highMap (fun _ => 0) = some (pmmInitSuccess, s) ∧
    vmmInit 0xffff800000000000 bootKernel highMap (bootMachine s fun _ _ => 0) =
      some (vmmInitSuccess, m') ∧
    ¬RtlDma 0xffff800000000000 m' (rtl8139Init 0xffff800000000000 m') ∧
    ¬∃ r, i219Init 0xffff800000000000 m' 0xfeb00000 = some r ∧ I219Dma 0xffff800000000000 m' r := by
  have hends : BootEnds highMap := ⟨by decide, by decide⟩
  obtain ⟨s, hs, hsize, htotal, hused⟩ := @pmmInit_facts highMap (fun _ => 0) (by decide) (by decide)
  rw [show bitmapSizeOf highMap = 2 ^ 17 + 8 by decide] at hsize
  rw [show totalFramesOf highMap = 2 ^ 20 + 64 by decide] at htotal
  have hfree : ∀ f, f < s.totalFrames → s.used f = false → 2 ^ 20 + 33 ≤ f := by
    intro f hf hclear
    have hstorage : bitmapPhysOf highMap = 0x100000000 := by decide
    have hbytes : bitmapSizeOf highMap = 2 ^ 17 + 8 := by decide
    rw [hused f (by omega), Storage, hstorage, hbytes] at hclear
    simp [Listed, highMap, MemmapEntry.available, MemmapEntry.ceiling, Visits] at hclear
    omega
  have hm' := vmmInit_eq 0xffff800000000000 bootKernel hends (bootMachine s fun _ _ => 0)
  have hrunning := running_of_vmmInit hends (by omega) (by omega) hm'
  have htaken : Taken s (runCalls (bootCalls 0xffff800000000000 bootKernel highMap)
      (vmmPrepPml4 (bootMachine s fun _ _ => 0))).pmm :=
    pmm_runCalls (P := Taken s) (fun t ht => ht.pmmAlloc) _ (Taken.refl s).pmmAlloc
  refine ⟨s, _, hs, hm', fun hdma => ?_, fun hdma => ?_⟩
  · obtain ⟨start, hleast, hlow⟩ := (rtlDma_iff hrunning (by norm_num)).mp hdma
    obtain ⟨hlt, hclear⟩ := hleast.1 start le_rfl (by omega)
    rw [htaken.totalFrames] at hlt
    have hhigh := hfree start hlt (free_of_kept (htaken.kept start) hclear)
    omega
  · have hframes := (i219Dma_iff hrunning (by norm_num) 0xfeb00000).mp hdma
    have hle := clearCount_le_of_taken htaken
    have hsub : ((Finset.range s.totalFrames).filter fun f => s.used f = false) ⊆
        Finset.Ico (2 ^ 20 + 33) (2 ^ 20 + 64) := by
      intro f hf
      obtain ⟨hlt, hclear⟩ := Finset.mem_filter.mp hf
      have hhigh := hfree f (Finset.mem_range.mp hlt) hclear
      rw [Finset.mem_range, htotal] at hlt
      exact Finset.mem_Ico.mpr ⟨hhigh, hlt⟩
    have hcount : clearCount s ≤ 31 := by
      have hcard := Finset.card_le_card hsub
      rw [Nat.card_Ico] at hcard
      exact hcard
    omega

end MathUnikernel.Nic
