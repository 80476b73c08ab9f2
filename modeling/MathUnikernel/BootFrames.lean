import MathUnikernel.DirectMap
import MathUnikernel.HeapContents

/-!
# The memory taken during boot

`pmm_alloc` hands out the lowest free frame, whatever kind of entry it is in, and `pmm_init` clears
the bitmap's storage wherever it was placed.
-/

namespace MathUnikernel.Vmm
open Pmm RadixTree

/-! ## Frames handed out -/

/-- Some request was answered with frame `f`. -/
def Machine.Handed (m : Machine) (f : ℕ) : Prop := ∃ s, .alloc s ∈ m.log ∧ FirstFree s f

/-- The frames handed out since the bitmap was `s`: they were free, they are in use, and they are
the lowest. -/
structure Handing (s : PmmContext) (m : Machine) : Prop where
  totalFrames : m.pmm.totalFrames = s.totalFrames
  bitmapSize : m.pmm.bitmapSize = s.bitmapSize
  used : ∀ f, m.pmm.used f = true ↔ s.used f = true ∨ m.Handed f
  below : ∀ f, m.Handed f → f < s.totalFrames ∧ s.used f = false
  lowest : ∀ f g, m.Handed f → g < f → m.pmm.used g = true
  /-- A request that found no frame found all of them in use, and so they stayed. -/
  failed : ∀ t, .alloc t ∈ m.log → (∃ f, FirstFree t f) ∨
    ∀ f < s.totalFrames, f < 8 * s.bitmapSize → m.pmm.used f = true

/-- A request and nothing else. -/
theorem Handing.alloc {s : PmmContext} {m m' : Machine} (h : Handing s m)
    (hpmm : m'.pmm = (pmmAlloc m.pmm).2)
    (hlog : ∀ t, .alloc t ∈ m'.log ↔ .alloc t ∈ m.log ∨ t = m.pmm) : Handing s m' := by
  rcases pmmAlloc_cases m.pmm with ⟨f, hf, halloc⟩ | ⟨hall, halloc⟩
  · have hhanded : ∀ g, m'.Handed g ↔ m.Handed g ∨ g = f := by
      intro g
      simp only [Machine.Handed, hlog, or_and_right, exists_or, exists_eq_left]
      exact or_congr_right ⟨fun hg => hg.unique hf, fun hg => hg ▸ hf⟩
    have hused : ∀ g, m'.pmm.used g = true ↔ m.pmm.used g = true ∨ g = f := by
      intro g
      rw [hpmm, halloc, used_claimFrame, Bool.or_eq_true, decide_eq_true_eq]
    refine ⟨?_, ?_, fun g => ?_, fun g hg => ?_, fun g g' hg hlt => ?_, fun t ht => ?_⟩
    · rw [hpmm, pmmAlloc_totalFrames, h.totalFrames]
    · rw [hpmm, pmmAlloc_bitmapSize, h.bitmapSize]
    · rw [hused, hhanded, h.used, or_assoc]
    · rcases (hhanded g).mp hg with hg | rfl
      · exact h.below g hg
      · exact ⟨h.totalFrames ▸ hf.lt_total, free_of_kept (fun hs => (h.used g).mpr (.inl hs)) hf.free⟩
    · rcases (hhanded g).mp hg with hg | rfl
      · exact (hused g').mpr (.inl (h.lowest g g' hg hlt))
      · exact (hused g').mpr (.inl (hf.first g' hlt))
    · rcases (hlog t).mp ht with ht | rfl
      · exact (h.failed t ht).imp_right fun hfull g hg hsize =>
          (hused g).mpr (.inl (hfull g hg hsize))
      · exact .inl ⟨f, hf⟩
  · have hnone : ¬∃ f, FirstFree m.pmm f := by
      intro ⟨f, hf⟩
      have hfull := hall f hf.lt_total hf.lt_size
      rw [hf.free] at hfull
      exact Bool.false_ne_true hfull
    have hhanded : ∀ g, m'.Handed g ↔ m.Handed g := by
      intro g
      simp only [Machine.Handed, hlog, or_and_right, exists_or, exists_eq_left]
      exact or_iff_left fun hg => hnone ⟨g, hg⟩
    have hsame : m'.pmm = m.pmm := hpmm.trans (congrArg Prod.snd halloc)
    refine ⟨hsame ▸ h.totalFrames, hsame ▸ h.bitmapSize, fun g => ?_, fun g hg => ?_,
      fun g g' hg hlt => ?_, fun t ht => ?_⟩
    · rw [hsame, hhanded, h.used]
    · exact h.below g ((hhanded g).mp hg)
    · rw [hsame]
      exact h.lowest g g' ((hhanded g).mp hg) hlt
    · rw [hsame]
      rcases (hlog t).mp ht with ht | rfl
      · exact h.failed t ht
      · exact .inr fun g hg hsize => hall g (h.totalFrames ▸ hg) (h.bitmapSize ▸ hsize)

/-- What does not ask for a frame. -/
theorem Handing.congr {s : PmmContext} {m m' : Machine} (h : Handing s m) (hpmm : m'.pmm = m.pmm)
    (hlog : m'.log = m.log) : Handing s m' := by
  have hhanded : ∀ f, m'.Handed f ↔ m.Handed f := by
    intro f
    rw [Machine.Handed, hlog]
    rfl
  refine ⟨hpmm ▸ h.totalFrames, hpmm ▸ h.bitmapSize, fun f => ?_, fun f hf => ?_,
    fun f g hf hlt => ?_, fun t ht => ?_⟩
  · rw [hpmm, hhanded, h.used]
  · exact h.below f ((hhanded f).mp hf)
  · rw [hpmm]
    exact h.lowest f g ((hhanded f).mp hf) hlt
  · rw [hpmm]
    exact h.failed t (hlog ▸ ht)

theorem Handing.runCalls {s : PmmContext} (calls : List MapCall) {m : Machine} (h : Handing s m) :
    Handing s (runCalls calls m) :=
  requests_runCalls (fun h hpmm hlog => h.alloc hpmm hlog) (fun h hpmm hlog => h.congr hpmm hlog)
    calls h

/-- The frames handed out by the whole of `vmm_init`. -/
theorem handing_boot (s : PmmContext) (mem : ℕ → Fin 512 → ℕ) (calls : List MapCall) :
    Handing s (runCalls calls (vmmPrepPml4 (bootMachine s mem))) := by
  have hstart : Handing s (bootMachine s mem) := by
    have hnone : ∀ f, ¬(bootMachine s mem).Handed f := fun f ⟨t, ht, _⟩ => List.not_mem_nil ht
    refine ⟨rfl, rfl, fun f => ?_, fun f hf => absurd hf (hnone f), fun f g hf => absurd hf (hnone f),
      fun t ht => absurd ht List.not_mem_nil⟩
    exact ⟨Or.inl, fun hf => hf.resolve_right (hnone f)⟩
  apply Handing.runCalls
  apply hstart.alloc rfl
  intro t
  rw [vmmPrepPml4_log]
  simp

/-! ## How many are handed out -/

/-- The frames that are free in `s`. -/
def freeFrameSet (s : PmmContext) : Finset ℕ :=
  (Finset.range s.totalFrames).filter fun f => s.used f = false

theorem Handing.mem_freeFrameSet {s : PmmContext} {m : Machine} (h : Handing s m) {f : ℕ}
    (hf : m.Handed f) : f ∈ freeFrameSet s := by
  obtain ⟨hlt, hclear⟩ := h.below f hf
  exact Finset.mem_filter.mpr ⟨Finset.mem_range.mpr hlt, hclear⟩

/-- When every request is answered, the frames handed out are those of the tables. -/
theorem exists_card_handed_of_answered {s : PmmContext} (hT : s.totalFrames ≤ 2 ^ 40)
    {mem : ℕ → Fin 512 → ℕ} {calls : List MapCall} (hpages : ∀ c ∈ calls, c.huge = false)
    (hans : (runCalls calls (vmmPrepPml4 (bootMachine s mem))).Answered) :
    ∃ frames : Finset ℕ, frames.card = (tablePaths calls).card ∧
      ∀ f, f ∈ frames ↔ (runCalls calls (vmmPrepPml4 (bootMachine s mem))).Handed f := by
  have hhanding := handing_boot s mem calls
  obtain ⟨f₀, hprep⟩ := @prepared_of_answered (bootMachine s mem) hT
    (hans.of_prefix (log_runCalls _ _))
  obtain ⟨hpaged, hlater⟩ := hprep.paged.runCalls hpages hans
  obtain ⟨frames, hcard, hmem⟩ := hprep.exists_card_tables hpages hans
  have hbefore : ∀ f, (vmmPrepPml4 (bootMachine s mem)).pmm.used f = true ↔
      s.used f = true ∨ f = f₀ := by
    intro f
    rw [hprep.pmm, used_claimFrame, Bool.or_eq_true, decide_eq_true_eq]
    rfl
  refine ⟨frames, hcard, fun f => (hmem f).trans ⟨fun htable => ?_, fun hf => ?_⟩⟩
  · apply ((hhanding.used f).mp (hpaged.claimed.used f htable)).resolve_left
    intro hused
    rcases hlater.fresh f htable with hold | hclear
    · have hclear := hprep.firstFree.free
      rw [← (hprep.isTable f).mp hold] at hclear
      exact Bool.false_ne_true (hclear.symm.trans hused)
    · rw [(hbefore f).mpr (.inl hused)] at hclear
      exact absurd hclear (by simp)
  · have hadded := hprep.paged.tablesAdded hpages hans
    rcases hadded.used f ((hhanding.used f).mpr (.inr hf)) with hold | htable
    · rcases (hbefore f).mp hold with hused | rfl
      · rw [(hhanding.below f hf).2] at hused
        exact absurd hused (by simp)
      · obtain ⟨q, hq⟩ := (hprep.isTable f).mpr rfl
        exact ⟨q, hadded.table q f hq⟩
    · exact htable

/-- `vmm_init` takes one frame for each table it needs, or all there are. -/
theorem exists_card_handed {s : PmmContext} (hT : s.totalFrames ≤ 2 ^ 40)
    (hsize : s.totalFrames ≤ 8 * s.bitmapSize) (mem : ℕ → Fin 512 → ℕ) {calls : List MapCall}
    (hpages : ∀ c ∈ calls, c.huge = false) :
    ∃ frames : Finset ℕ, frames ⊆ freeFrameSet s ∧
      (∀ f, f ∈ frames ↔ (runCalls calls (vmmPrepPml4 (bootMachine s mem))).Handed f) ∧
      frames.card = min (tablePaths calls).card (freeFrameSet s).card := by
  have hhanding := handing_boot s mem calls
  by_cases hcard : (tablePaths calls).card ≤ (freeFrameSet s).card
  · obtain ⟨frames, hframes, hmem⟩ := exists_card_handed_of_answered hT hpages
      (answered_of_card_le rfl hT hsize hpages hcard)
    have hsub : frames ⊆ freeFrameSet s := fun f hf => hhanding.mem_freeFrameSet ((hmem f).mp hf)
    exact ⟨frames, hsub, hmem, by rw [hframes, min_eq_left hcard]⟩
  · refine ⟨freeFrameSet s, subset_rfl, fun f => ⟨fun hf => ?_, hhanding.mem_freeFrameSet⟩, ?_⟩
    · obtain ⟨hrange, hclear⟩ := Finset.mem_filter.mp hf
      have hlt := Finset.mem_range.mp hrange
      -- some request failed, and by then all frames were in use
      have hfailed : ¬(runCalls calls (vmmPrepPml4 (bootMachine s mem))).Answered := by
        intro hans
        obtain ⟨frames, hframes, hmem⟩ := exists_card_handed_of_answered hT hpages hans
        have hsub : frames ⊆ freeFrameSet s := fun f hf =>
          hhanding.mem_freeFrameSet ((hmem f).mp hf)
        exact hcard (hframes ▸ Finset.card_le_card hsub)
      simp only [Machine.Answered, not_forall] at hfailed
      obtain ⟨t, ht, hnone⟩ := hfailed
      have hfull := (hhanding.failed t ht).resolve_left hnone f hlt (hlt.trans_le hsize)
      apply ((hhanding.used f).mp hfull).resolve_left
      rw [hclear]
      exact Bool.false_ne_true
    · exact (min_eq_right (Nat.le_of_not_le hcard)).symm

/-- Of an initial part with `k` elements, an element is left out if `k` elements lie below it. -/
theorem not_mem_initial_iff {A H : Finset ℕ} {k r : ℕ} (hsub : H ⊆ A)
    (hlow : ∀ f ∈ H, ∀ g ∈ A, g < f → g ∈ H) (hcard : H.card = min k A.card) (hr : r ∈ A) :
    r ∉ H ↔ k ≤ (A.filter (· < r)).card := by
  have hlt : (A.filter (· < r)).card < A.card := by
    apply Finset.card_lt_card
    rw [Finset.filter_ssubset]
    exact ⟨r, hr, lt_irrefl r⟩
  refine ⟨fun hnot => ?_, fun hle hmem => ?_⟩
  · have hbelow : H ⊆ A.filter (· < r) := by
      intro f hf
      refine Finset.mem_filter.mpr ⟨hsub hf, ?_⟩
      by_contra hge
      rcases Nat.lt_or_eq_of_le (Nat.le_of_not_lt hge) with hgt | heq
      · exact hnot (hlow f hf r hr hgt)
      · exact hnot (heq ▸ hf)
    have hle := Finset.card_le_card hbelow
    omega
  · have hbelow : insert r (A.filter (· < r)) ⊆ H := by
      intro g hg
      rcases Finset.mem_insert.mp hg with rfl | hg
      · exact hmem
      · obtain ⟨hgA, hgr⟩ := Finset.mem_filter.mp hg
        exact hlow r hmem g hgA hgr
    have hle' := Finset.card_le_card hbelow
    rw [Finset.card_insert_of_notMem (by simp)] at hle'
    omega

/-- A free frame is not handed out if as many free frames as `vmm_init` needs tables lie below. -/
theorem not_handed_iff {s : PmmContext} (hT : s.totalFrames ≤ 2 ^ 40)
    (hsize : s.totalFrames ≤ 8 * s.bitmapSize) (mem : ℕ → Fin 512 → ℕ) {calls : List MapCall}
    (hpages : ∀ c ∈ calls, c.huge = false) {r : ℕ} (hr : r ∈ freeFrameSet s) :
    ¬(runCalls calls (vmmPrepPml4 (bootMachine s mem))).Handed r ↔
      (tablePaths calls).card ≤ ((freeFrameSet s).filter (· < r)).card := by
  obtain ⟨frames, hsub, hmem, hcard⟩ := exists_card_handed hT hsize mem hpages
  have hhanding := handing_boot s mem calls
  have hlow : ∀ f ∈ frames, ∀ g ∈ freeFrameSet s, g < f → g ∈ frames := by
    intro f hf g hg hlt
    have hused := hhanding.lowest f g ((hmem f).mp hf) hlt
    apply (hmem g).mpr
    apply ((hhanding.used g).mp hused).resolve_left
    rw [(Finset.mem_filter.mp hg).2]
    exact Bool.false_ne_true
  rw [← hmem]
  exact not_mem_initial_iff hsub hlow hcard hr

/-! ## Reclaimable entries -/

/-- The addresses of physical memory have at most 52 bits. -/
def Physical (entries : List MemmapEntry) : Prop := ∀ e ∈ entries, e.base + e.length ≤ 2 ^ 52

/-- The frames below `f` that `pmm_init` leaves free. -/
def freeBelow (entries : List MemmapEntry) (f : ℕ) : Finset ℕ :=
  (Finset.range f).filter fun g => Listed entries g ∧ ¬Storage entries g

/-- The bitmap is apart from all frames of reclaimable entries, and below each of them there are as
many free frames as `vmm_init` needs tables. -/
def ReclaimableHigh (hhdmOffset : ℕ) (kernel : KernelAddress) (entries : List MemmapEntry) : Prop :=
  ∀ e ∈ entries, e.type = .bootloaderReclaimable → ∀ f, e.HasFrame f → ¬Storage entries f ∧
    (tablePaths (bootCalls hhdmOffset kernel entries)).card ≤ (freeBelow entries f).card

/-- The addresses of the reclaimable entries. -/
def reclaimable (entries : List MemmapEntry) : Set ℕ :=
  {addr | ∃ e ∈ entries, e.type = .bootloaderReclaimable ∧ e.Contains addr}

/-- The byte of memory at a physical address. -/
def memByte (mem : ℕ → Fin 512 → ℕ) (addr : ℕ) : UInt8 :=
  UInt8.ofNat (wordByte (mem (physAddrToIndex addr) (wordIndex addr)) (addr % 8))

/-- The byte at a physical address when the bitmap is in use. -/
def Machine.physByte (m : Machine) (addr : ℕ) : UInt8 :=
  if m.pmm.bitmapPhys ≤ addr ∧ addr < m.pmm.bitmapPhys + m.pmm.bitmapSize then
    m.pmm.bitmap (addr - m.pmm.bitmapPhys)
  else memByte m.mem addr

/-- `vmm_init` takes no frame of a reclaimable entry, and whenever it reads one, and after it, the
bytes there are those of `mem`, the memory before `pmm_init`. -/
structure Undisturbed (hhdmOffset : ℕ) (kernel : KernelAddress) (entries : List MemmapEntry)
    (mem : ℕ → Fin 512 → ℕ) (s : PmmContext) : Prop where
  handed : ∀ f, (runCalls (bootCalls hhdmOffset kernel entries)
    (vmmPrepPml4 (bootMachine s mem))).Handed f → ∀ addr ∈ reclaimable entries,
      physAddrToIndex addr ≠ f
  /-- The entries are read between the calls. -/
  contents : ∀ calls, calls <+: bootCalls hhdmOffset kernel entries → ∀ addr ∈ reclaimable entries,
    (runCalls calls (vmmPrepPml4 (bootMachine s mem))).physByte addr = memByte mem addr

theorem kernelSize_le {entries : List MemmapEntry} {bound : ℕ}
    (h : ∀ e ∈ entries, e.length ≤ bound) : kernelSize entries ≤ bound := by
  suffices hfold : ∀ size ≤ bound, entries.foldl (fun size e =>
      if e.type = .kernelAndModules then e.length else size) size ≤ bound from hfold 0 (Nat.zero_le _)
  induction entries with
  | nil => exact fun size hsize => hsize
  | cons e entries ih =>
    intro size hsize
    rw [List.foldl_cons]
    apply ih fun e' he' => h e' (List.mem_cons_of_mem e he')
    split_ifs
    · exact h e List.mem_cons_self
    · exact hsize

theorem Physical.bootEnds {entries : List MemmapEntry} (h : Physical entries) : BootEnds entries := by
  have hlength : ∀ e ∈ entries, e.length ≤ 2 ^ 52 := fun e he => by
    have := h e he
    omega
  have hkernel := kernelSize_le hlength
  refine ⟨by omega, fun e he _ => ?_⟩
  have := hlength e he
  omega

theorem Physical.getHighestUsableAddr_lt {entries : List MemmapEntry} (h : Physical entries) :
    getHighestUsableAddr entries < 2 ^ 52 + 1 := by
  apply getHighestUsableAddr_lt_of (by norm_num)
  intro e he _
  have := h e he
  exact (Nat.mod_le _ _).trans_lt (by omega)

theorem Physical.totalFrames_le {entries : List MemmapEntry} (h : Physical entries) :
    totalFramesOf entries ≤ 2 ^ 40 := by
  have hlt := h.getHighestUsableAddr_lt
  unfold totalFramesOf
  omega

theorem Physical.bitmapPhysOf_le {entries : List MemmapEntry} (h : Physical entries) :
    bitmapPhysOf entries ≤ 2 ^ 52 := by
  unfold bitmapPhysOf
  rcases placeBitmap_cases entries (bitmapSizeOf entries) with ⟨e, he, -, -, hbase⟩ | hzero
  · have := h e he
    omega
  · omega

/-- The bitmap starts at a frame, in an entry or at 0. -/
theorem bitmapPhysOf_aligned {entries : List MemmapEntry} (h : Conformant entries) :
    bitmapPhysOf entries % 4096 = 0 := by
  unfold bitmapPhysOf
  rcases placeBitmap_cases entries (bitmapSizeOf entries) with ⟨e, he, hty, -, hbase⟩ | hzero
  · rw [hbase]
    exact (h.aligned e he (available_of_usable hty)).1
  · rw [hzero]

/-- Its frames are those up to its end. -/
theorem Physical.storage_iff {entries : List MemmapEntry} (h : Physical entries)
    (hconf : Conformant entries) (f : ℕ) : Storage entries f ↔
      bitmapPhysOf entries ≤ 4096 * f ∧ 4096 * f < bitmapPhysOf entries + bitmapSizeOf entries := by
  have haligned := bitmapPhysOf_aligned hconf
  have hle := h.bitmapPhysOf_le
  have htotal := h.totalFrames_le
  have hsize : bitmapSizeOf entries ≤ 2 ^ 38 := by
    unfold bitmapSizeOf
    omega
  have hmod : (bitmapPhysOf entries + bitmapSizeOf entries) % 2 ^ 64 =
      bitmapPhysOf entries + bitmapSizeOf entries := Nat.mod_eq_of_lt (by omega)
  unfold Storage Visits
  rw [hmod, haligned]
  omega

theorem Physical.pmmInit {entries : List MemmapEntry} (h : Physical entries) (bytes : ℕ → UInt8) :
    ∃ s, pmmInit entries bytes = some (pmmInitSuccess, s) := by
  have hphys := h.bitmapPhysOf_le
  have htotal := h.totalFrames_le
  have hhighest := h.getHighestUsableAddr_lt
  apply pmmInit_isSome bytes
  · omega
  · unfold bitmapSizeOf
    omega

/-- The frames that `pmm_init` leaves free. -/
theorem mem_freeFrameSet {entries : List MemmapEntry} (hconf : Conformant entries)
    {bytes : ℕ → UInt8} {r : ℕ} {s : PmmContext} (hs : Pmm.pmmInit entries bytes = some (r, s))
    {f : ℕ} : f ∈ freeFrameSet s ↔ Listed entries f ∧ ¬Storage entries f := by
  have hsized := pmmInit_sized hs
  have hsize : s.totalFrames ≤ 8 * s.bitmapSize := by
    rw [hsized.totalFrames, hsized.bitmapSize, bitmapSizeOf]
    omega
  rw [freeFrameSet, Finset.mem_filter, Finset.mem_range]
  constructor
  · intro hfree
    exact (used_pmmInit hs (hfree.1.trans_le hsize)).mp hfree.2
  · intro hlisted
    have hlt : f < s.totalFrames := by
      rw [hsized.totalFrames]
      exact hconf.boundedEntries.lt_totalFrames_of_listed hlisted.1
    exact ⟨hlt, (used_pmmInit hs (hlt.trans_le hsize)).mpr hlisted⟩

/-- Whether `vmm_init` is handed a frame, in terms of the map. -/
theorem handed_iff {entries : List MemmapEntry} (hconf : Conformant entries)
    (hphys : Physical entries) {bytes : ℕ → UInt8} {r : ℕ} {s : PmmContext}
    (hs : Pmm.pmmInit entries bytes = some (r, s)) (mem : ℕ → Fin 512 → ℕ) {calls : List MapCall}
    (hpages : ∀ c ∈ calls, c.huge = false) (f : ℕ) :
    (runCalls calls (vmmPrepPml4 (bootMachine s mem))).Handed f ↔
      (Listed entries f ∧ ¬Storage entries f) ∧ (freeBelow entries f).card < (tablePaths calls).card := by
  have hsized := pmmInit_sized hs
  have hT : s.totalFrames ≤ 2 ^ 40 := hsized.totalFrames ▸ hphys.totalFrames_le
  have hsize : s.totalFrames ≤ 8 * s.bitmapSize := by
    rw [hsized.totalFrames, hsized.bitmapSize, bitmapSizeOf]
    omega
  have hbelow : (freeFrameSet s).filter (· < f) = freeBelow entries f := by
    ext g
    simp only [freeBelow, Finset.mem_filter, mem_freeFrameSet hconf hs, Finset.mem_range]
    exact and_comm
  rw [← mem_freeFrameSet hconf hs]
  constructor
  · intro hhanded
    have hfree := (handing_boot s mem calls).mem_freeFrameSet hhanded
    refine ⟨hfree, ?_⟩
    by_contra hle
    rw [Nat.not_lt, ← hbelow, ← not_handed_iff hT hsize mem hpages hfree] at hle
    exact hle hhanded
  · rintro ⟨hfree, hlt⟩
    by_contra hnot
    rw [not_handed_iff hT hsize mem hpages hfree, hbelow] at hnot
    exact absurd hnot (Nat.not_le_of_gt hlt)

/-! ## Contents -/

/-- Calls store to frames of tables only. -/
theorem Paged.mem_runCalls {m : Machine} (h : Paged m) {calls : List MapCall}
    (hpages : ∀ c ∈ calls, c.huge = false) (hanswered : (Vmm.runCalls calls m).Answered) {f : ℕ}
    (hf : ¬(Vmm.runCalls calls m).IsTable f) : (Vmm.runCalls calls m).mem f = m.mem f := by
  induction calls generalizing m with
  | nil => rfl
  | cons c calls ih =>
    have hpage := hpages c List.mem_cons_self
    have hrest : ∀ c' ∈ calls, c'.huge = false := fun c' hc' => hpages c' (List.mem_cons_of_mem c hc')
    have hc := h.orderly hpage (hanswered.of_prefix (log_runCalls calls (c.exec m)))
    have hpaged := h.exec hpage hc
    rw [runCalls_cons, ih hpaged hrest hanswered hf]
    apply (mapped_of_orderly h.claimed.tree hc).rest
    intro ⟨q, hq⟩
    exact hf ⟨q, (hpaged.tablesAdded hrest hanswered).table q f hq⟩

/-- What is not handed out keeps its contents, as long as no request fails. -/
theorem mem_boot {s : PmmContext} (hT : s.totalFrames ≤ 2 ^ 40) (mem : ℕ → Fin 512 → ℕ)
    {calls : List MapCall} (hpages : ∀ c ∈ calls, c.huge = false)
    (hanswered : (runCalls calls (vmmPrepPml4 (bootMachine s mem))).Answered) {f : ℕ}
    (hf : ¬(runCalls calls (vmmPrepPml4 (bootMachine s mem))).Handed f) :
    (runCalls calls (vmmPrepPml4 (bootMachine s mem))).mem f = mem f := by
  have hbooted := booted_of_answered hT mem hpages hanswered
  have hno : ¬(runCalls calls (vmmPrepPml4 (bootMachine s mem))).IsTable f := by
    intro htable
    rcases ((handing_boot s mem calls).used f).mp (hbooted.paged.claimed.used f htable) with hold | hnew
    · exact Bool.false_ne_true ((hbooted.free f htable).symm.trans hold)
    · exact hf hnew
  obtain ⟨f₀, hprep⟩ := @prepared_of_answered (bootMachine s mem) hT
    (hanswered.of_prefix (log_runCalls _ _))
  rw [hprep.paged.mem_runCalls hpages hanswered hno]
  -- the frame cleared by `vmm_prep_pml4` is the PML4
  apply Function.update_of_ne
  intro hroot
  apply hno
  exact ⟨[], (hprep.paged.tablesAdded hpages hanswered).table [] f (congrArg some hroot.symm)⟩

theorem wordByte_ones {k : ℕ} (hk : k < 8) : wordByte (2 ^ 64 - 1) k = 255 := by
  revert k
  decide

/-- The bitmap is the same whatever was in memory. -/
theorem used_boot_congr {entries : List MemmapEntry} (hconf : Conformant entries)
    (hphys : Physical entries) {bytes bytes' : ℕ → UInt8} {r r' : ℕ} {s s' : PmmContext}
    (hs : Pmm.pmmInit entries bytes = some (r, s)) (hs' : Pmm.pmmInit entries bytes' = some (r', s'))
    (mem mem' : ℕ → Fin 512 → ℕ) {calls : List MapCall} (hpages : ∀ c ∈ calls, c.huge = false) {f : ℕ}
    (hf : f < 8 * bitmapSizeOf entries) :
    (runCalls calls (vmmPrepPml4 (bootMachine s mem))).pmm.used f =
      (runCalls calls (vmmPrepPml4 (bootMachine s' mem'))).pmm.used f := by
  have hsame : s.used f = s'.used f := by
    have hlt := hf
    rw [← (pmmInit_sized hs).bitmapSize] at hlt
    rw [← (pmmInit_sized hs').bitmapSize] at hf
    rw [← Bool.not_inj_iff, Bool.eq_iff_iff, Bool.not_eq_true', Bool.not_eq_true',
      used_pmmInit hs hlt, used_pmmInit hs' hf]
  rw [Bool.eq_iff_iff, (handing_boot s mem calls).used, (handing_boot s' mem' calls).used, hsame,
    handed_iff hconf hphys hs mem hpages, handed_iff hconf hphys hs' mem' hpages]

/-- Boot data is lost under the bitmap, if not in a memory of zeros then in one of ones. -/
theorem exists_lost {entries : List MemmapEntry} (hconf : Conformant entries)
    (hphys : Physical entries) {calls : List MapCall} (hpages : ∀ c ∈ calls, c.huge = false) {f : ℕ}
    (hf : Storage entries f) : ∃ mem s, Pmm.pmmInit entries (memByte mem) = some (pmmInitSuccess, s) ∧
      ∃ addr, addr / 4096 = f ∧
        (runCalls calls (vmmPrepPml4 (bootMachine s mem))).physByte addr ≠ memByte mem addr := by
  have hframe : 4096 * f / 4096 = f := Nat.mul_div_cancel_left f (by norm_num)
  have hin := (hphys.storage_iff hconf f).mp hf
  have hbyte : ∀ {mem s}, Pmm.pmmInit entries (memByte mem) = some (pmmInitSuccess, s) →
      (runCalls calls (vmmPrepPml4 (bootMachine s mem))).physByte (4096 * f) =
        (runCalls calls (vmmPrepPml4 (bootMachine s mem))).pmm.bitmap (4096 * f - bitmapPhysOf entries) := by
    intro mem s hs
    have htaken := taken_boot s mem calls
    have hsized := pmmInit_sized hs
    rw [Machine.physByte, htaken.bitmapPhys, htaken.bitmapSize, hsized.bitmapPhys, hsized.bitmapSize]
    exact if_pos hin
  obtain ⟨s, hs⟩ := hphys.pmmInit (memByte fun _ _ => 0)
  obtain ⟨s', hs'⟩ := hphys.pmmInit (memByte fun _ _ => 2 ^ 64 - 1)
  by_contra hnone
  have hzero : (runCalls calls (vmmPrepPml4 (bootMachine s fun _ _ => 0))).physByte (4096 * f) = 0 := by
    by_contra hne
    refine hnone ⟨_, s, hs, _, hframe, fun heq => hne ?_⟩
    rw [heq, memByte, wordByte, Nat.zero_div]
    rfl
  have hones : (runCalls calls (vmmPrepPml4 (bootMachine s' fun _ _ => 2 ^ 64 - 1))).physByte (4096 * f) =
      255 := by
    by_contra hne
    refine hnone ⟨_, s', hs', _, hframe, fun heq => hne ?_⟩
    rw [heq, memByte, wordByte_ones (Nat.mod_lt _ (by norm_num))]
    rfl
  rw [hbyte hs] at hzero
  rw [hbyte hs'] at hones
  -- the first bit of the byte would be clear and set
  have hused := used_boot_congr hconf hphys hs hs' (fun _ _ => 0) (fun _ _ => 2 ^ 64 - 1) hpages
    (show 8 * (4096 * f - bitmapPhysOf entries) < 8 * bitmapSizeOf entries by omega)
  rw [PmmContext.used, PmmContext.used, ByteBitmap.getBit, ByteBitmap.getBit, Nat.mul_div_cancel_left _ (by norm_num),
    Nat.mul_mod_right, hzero, hones] at hused
  exact absurd hused (by decide)

theorem exists_frame_of_reclaimable {entries : List MemmapEntry} (hconf : Conformant entries)
    {addr : ℕ} (h : addr ∈ reclaimable entries) : ∃ e ∈ entries,
      e.type = .bootloaderReclaimable ∧ e.HasFrame (physAddrToIndex addr) := by
  obtain ⟨e, he, hty, hlo, hhi⟩ := h
  obtain ⟨hbase, hlength⟩ := hconf.aligned e he (by simp [MemmapEntry.available, hty])
  refine ⟨e, he, hty, ?_⟩
  unfold MemmapEntry.HasFrame physAddrToIndex
  omega

/-- The condition is needed. -/
theorem reclaimableHigh_of_undisturbed {entries : List MemmapEntry} (hconf : Conformant entries)
    (hphys : Physical entries) {hhdmOffset : ℕ} {kernel : KernelAddress}
    (h : ∀ mem s, Pmm.pmmInit entries (memByte mem) = some (pmmInitSuccess, s) →
      Undisturbed hhdmOffset kernel entries mem s) : ReclaimableHigh hhdmOffset kernel entries := by
  intro e he hty f hf
  have hav : e.available = true := by simp [MemmapEntry.available, hty]
  have hlisted : Listed entries f := (hconf.listed_iff f).mpr ⟨e, he, hav, hf⟩
  have hpages : ∀ c ∈ bootCalls hhdmOffset kernel entries, c.huge = false :=
    fun c hc => huge_of_mem_bootCalls hc
  obtain ⟨hlo, hhi⟩ := hf
  have hstorage : ¬Storage entries f := by
    intro hstorage
    obtain ⟨mem, s, hs, addr, haddr, hlost⟩ := exists_lost hconf hphys hpages hstorage
    exact hlost ((h mem s hs).contents _ List.prefix_rfl addr ⟨e, he, hty, by omega, by omega⟩)
  refine ⟨hstorage, ?_⟩
  obtain ⟨s, hs⟩ := hphys.pmmInit (memByte fun _ _ => 0)
  by_contra hlt
  have hhanded := (handed_iff hconf hphys hs (fun _ _ => 0) hpages f).mpr
    ⟨⟨hlisted, hstorage⟩, Nat.lt_of_not_le hlt⟩
  apply (h _ s hs).handed f hhanded (4096 * f) ⟨e, he, hty, hlo, by omega⟩
  exact Nat.mul_div_cancel_left f (by norm_num)

/-- The condition is enough. -/
theorem ReclaimableHigh.undisturbed {entries : List MemmapEntry} (hconf : Conformant entries)
    (hphys : Physical entries) {hhdmOffset : ℕ} {kernel : KernelAddress}
    (h : ReclaimableHigh hhdmOffset kernel entries) {mem : ℕ → Fin 512 → ℕ} {s : PmmContext}
    (hs : Pmm.pmmInit entries (memByte mem) = some (pmmInitSuccess, s)) :
    Undisturbed hhdmOffset kernel entries mem s := by
  have hpages : ∀ c ∈ bootCalls hhdmOffset kernel entries, c.huge = false :=
    fun c hc => huge_of_mem_bootCalls hc
  have hapart : ∀ addr ∈ reclaimable entries, ¬(runCalls (bootCalls hhdmOffset kernel entries)
      (vmmPrepPml4 (bootMachine s mem))).Handed (physAddrToIndex addr) := by
    intro addr haddr hhanded
    obtain ⟨e, he, hty, hf⟩ := exists_frame_of_reclaimable hconf haddr
    have hlt := ((handed_iff hconf hphys hs mem hpages _).mp hhanded).2
    exact absurd (h e he hty _ hf).2 (Nat.not_le_of_gt hlt)
  refine ⟨fun f hf addr haddr heq => hapart addr haddr (heq ▸ hf), fun calls hpre addr haddr => ?_⟩
  obtain ⟨e, he, hty, hf⟩ := exists_frame_of_reclaimable hconf haddr
  obtain ⟨hstorage, hcard⟩ := h e he hty _ hf
  have hsized := pmmInit_sized hs
  have hT : s.totalFrames ≤ 2 ^ 40 := hsized.totalFrames ▸ hphys.totalFrames_le
  have hsize : s.totalFrames ≤ 8 * s.bitmapSize := by
    rw [hsized.totalFrames, hsized.bitmapSize, bitmapSizeOf]
    omega
  -- with so many free frames no request fails
  have hsub : freeBelow entries (physAddrToIndex addr) ⊆ freeFrameSet s := fun g hg =>
    (mem_freeFrameSet hconf hs).mpr (Finset.mem_filter.mp hg).2
  have hanswered := answered_of_card_le rfl hT hsize hpages
    (hcard.trans (Finset.card_le_card hsub) : _ ≤ clearCount (bootMachine s mem).pmm)
  obtain ⟨rest, hrest⟩ := hpre
  have hlog := log_runCalls rest (runCalls calls (vmmPrepPml4 (bootMachine s mem)))
  rw [← runCalls_append, hrest] at hlog
  have hnot : ¬(runCalls calls (vmmPrepPml4 (bootMachine s mem))).Handed (physAddrToIndex addr) := by
    rintro ⟨t, ht, hfirst⟩
    exact hapart addr haddr ⟨t, hlog.subset ht, hfirst⟩
  have hkept := mem_boot hT mem (fun c hc => hpages c (hrest ▸ List.mem_append_left rest hc))
    (hanswered.of_prefix hlog) hnot
  have htaken := taken_boot s mem calls
  rw [Machine.physByte, if_neg, memByte, hkept, memByte]
  rw [htaken.bitmapPhys, htaken.bitmapSize, hsized.bitmapPhys, hsized.bitmapSize]
  rintro ⟨hlo, hhi⟩
  apply hstorage
  rw [hphys.storage_iff hconf]
  have haligned := bitmapPhysOf_aligned hconf
  unfold physAddrToIndex
  omega

/-- What lies in the reclaimable entries survives boot, whatever it is, exactly if the bitmap is not
placed over them and enough free frames lie below. -/
theorem undisturbed_iff {entries : List MemmapEntry} (hconf : Conformant entries)
    (hphys : Physical entries) (hhdmOffset : ℕ) (kernel : KernelAddress) :
    (∀ mem, ∃ s, pmmInit entries (memByte mem) = some (pmmInitSuccess, s) ∧
      vmmInit hhdmOffset kernel entries (bootMachine s mem) = some (vmmInitSuccess,
        runCalls (bootCalls hhdmOffset kernel entries) (vmmPrepPml4 (bootMachine s mem)))) ∧
    ((∀ mem s, pmmInit entries (memByte mem) = some (pmmInitSuccess, s) →
      Undisturbed hhdmOffset kernel entries mem s) ↔ ReclaimableHigh hhdmOffset kernel entries) := by
  refine ⟨fun mem => ?_, reclaimableHigh_of_undisturbed hconf hphys,
    fun h mem s => h.undisturbed hconf hphys⟩
  obtain ⟨s, hs⟩ := hphys.pmmInit (memByte mem)
  exact ⟨s, hs, vmmInit_eq hhdmOffset kernel hphys.bootEnds _⟩

/-- Twelve tables, and 254 free frames below the reclaimable one. -/
theorem undisturbed_bootMap : (∀ mem, ∃ s, pmmInit bootMap (memByte mem) = some (pmmInitSuccess, s)) ∧
    ∀ mem s, pmmInit bootMap (memByte mem) = some (pmmInitSuccess, s) →
      Undisturbed 0xffff800000000000 bootKernel bootMap mem s := by
  have hphys : Physical bootMap := by
    unfold Physical
    decide
  obtain ⟨hinit, hiff⟩ := undisturbed_iff conformant_bootMap hphys 0xffff800000000000 bootKernel
  refine ⟨fun mem => (hinit mem).imp fun s hs => hs.1, hiff.mpr fun e he hty f hf => ?_⟩
  simp only [bootMap, List.mem_cons, List.not_mem_nil, or_false] at he
  rcases he with rfl | rfl | rfl
  · exact absurd hty (by decide)
  · obtain ⟨hbase, hend⟩ := hf
    dsimp only at hbase hend
    obtain rfl : f = 512 := by omega
    refine ⟨by decide, ?_⟩
    have hsub : Finset.Ico 2 256 ⊆ freeBelow bootMap 512 := by
      intro g hg
      obtain ⟨hlo, hhi⟩ := Finset.mem_Ico.mp hg
      exact Finset.mem_filter.mpr ⟨Finset.mem_range.mpr (by omega), listed_bootMap hlo hhi⟩
    have hcard := Finset.card_le_card hsub
    rw [Nat.card_Ico] at hcard
    exact card_tablePaths_bootMap.trans ((by norm_num : 12 ≤ 256 - 2).trans hcard)
  · exact absurd hty (by decide)

/-- A reclaimable frame below the usable memory. -/
def lowMap : List MemmapEntry :=
  [⟨0x1000, 0x1000, .bootloaderReclaimable⟩, ⟨0x100000, 0x100000, .usable⟩]

/-- The PML4 goes into the reclaimable frame. -/
theorem disturbed_lowMap : Conformant lowMap ∧ Physical lowMap ∧
    ∃ s m', pmmInit lowMap (memByte fun _ _ => 1) = some (pmmInitSuccess, s) ∧
      vmmInit 0xffff800000000000 bootKernel lowMap (bootMachine s fun _ _ => 1) =
        some (vmmInitSuccess, m') ∧ m'.Handed 1 ∧
      ¬Undisturbed 0xffff800000000000 bootKernel lowMap (fun _ _ => 1) s := by
  have hphys : Physical lowMap := by
    unfold Physical
    decide
  obtain ⟨s, hs, hsize, htotal, hused⟩ := @pmmInit_facts lowMap (memByte fun _ _ => 1) (by decide)
    (by decide)
  rw [show bitmapSizeOf lowMap = 64 by decide] at hsize
  rw [show totalFramesOf lowMap = 512 by decide] at htotal
  have hfirst : FirstFree s 1 := by
    refine ⟨by omega, by omega, (hused 1 (by omega)).mpr (by decide), fun g hg => ?_⟩
    obtain rfl : g = 0 := by omega
    have hnot := mt (hused 0 (by omega)).mp (by decide)
    simpa using hnot
  have hmem : .alloc s ∈ (runCalls (bootCalls 0xffff800000000000 bootKernel lowMap)
      (vmmPrepPml4 (bootMachine s fun _ _ => 1))).log := by
    apply (log_runCalls _ _).subset
    rw [vmmPrepPml4_log]
    exact List.mem_append_right _ List.mem_cons_self
  refine ⟨⟨by decide, by decide, ?_⟩, hphys, s, _, hs, vmmInit_eq _ _ hphys.bootEnds _,
    ⟨s, hmem, hfirst⟩, fun h => ?_⟩
  · simp only [lowMap, MemmapEntry.Contains, List.pairwise_cons, List.mem_singleton, forall_eq,
      List.not_mem_nil, false_implies, implies_true, List.Pairwise.nil, and_true]
    intro _ addr
    omega
  · apply h.handed 1 ⟨s, hmem, hfirst⟩ 0x1000 ⟨_, List.mem_cons_self, rfl, le_rfl, by norm_num⟩
    rfl

end MathUnikernel.Vmm
