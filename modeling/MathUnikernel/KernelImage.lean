import MathUnikernel.BootFrames

/-!
# The mapping of the kernel image

`vmm_init` takes the length of the last entry of the kernel's type for the size of the kernel.  A
map may have several such entries, for the kernel and for modules.
-/

namespace MathUnikernel.Vmm
open Pmm RadixTree

/-! ## The entry that `vmm_init` takes -/

def modulesEntry (e : MemmapEntry) : Bool := e.type = .kernelAndModules

/-- The last entry of the kernel's type. -/
def lastModules (entries : List MemmapEntry) : Option MemmapEntry :=
  (entries.filter modulesEntry).getLast?

theorem kernelSize_eq_of_last {entries : List MemmapEntry} {e : MemmapEntry}
    (h : lastModules entries = some e) : kernelSize entries = e.length := by
  unfold lastModules at h
  induction entries using List.reverseRecOn with
  | nil => exact absurd h (by simp)
  | append_singleton entries e' ih =>
    rw [kernelSize, List.foldl_append, List.foldl_cons, List.foldl_nil]
    rw [List.filter_append] at h
    by_cases htype : e'.type = .kernelAndModules
    · have hlast : [e'].filter modulesEntry = [e'] := by simp [modulesEntry, htype]
      rw [hlast, List.getLast?_concat] at h
      rw [if_pos htype, Option.some.inj h]
    · have hnone : [e'].filter modulesEntry = [] := by simp [modulesEntry, htype]
      rw [hnone, List.append_nil] at h
      rw [if_neg htype]
      exact ih h

theorem exists_lastModules {entries : List MemmapEntry} {e : MemmapEntry} (he : e ∈ entries)
    (htype : e.type = .kernelAndModules) : ∃ last, lastModules entries = some last ∧
      last ∈ entries ∧ last.type = .kernelAndModules := by
  have hmem : e ∈ entries.filter modulesEntry :=
    List.mem_filter.mpr ⟨he, by simpa [modulesEntry] using htype⟩
  have hne := List.ne_nil_of_mem hmem
  refine ⟨_, List.getLast?_eq_some_getLast hne, ?_⟩
  have hlast := List.mem_filter.mp (List.getLast_mem hne)
  exact ⟨hlast.1, by simpa [modulesEntry] using hlast.2⟩

/-! ## Where the kernel is -/

/-- `n` bytes in whole pages. -/
def pageCeil (n : ℕ) : ℕ := (n + 4095) / 4096 * 4096

/-- A kernel of `size` bytes as the bootloader loads it: in an entry of its type, page to page, and
apart from the other addresses that `vmm_init` maps.  The bootloader maps these entries too, in the
half of the address space that its direct map has. -/
structure KernelLoaded (hhdmOffset : ℕ) (kernel : KernelAddress) (entries : List MemmapEntry)
    (size : ℕ) : Prop where
  placed : ∃ e ∈ entries, e.type = .kernelAndModules ∧ e.base ≤ kernel.physicalBase ∧
    kernel.physicalBase + size ≤ e.base + e.length
  reachable : ∀ e ∈ entries, e.type = .kernelAndModules → e.base + e.length ≤ 2 ^ 48
  physicalAligned : kernel.physicalBase % 4096 = 0
  virtualAligned : kernel.virtualBase % 4096 = 0
  identity : Disjoint (span48 0x0 0x400000) (span48 kernel.virtualBase (pageCeil size))
  direct : Disjoint (span48 hhdmOffset (directEnd entries))
    (span48 kernel.virtualBase (pageCeil size))

/-- Every byte of the kernel is at its place. -/
def KernelMapped (kernel : KernelAddress) (size : ℕ) (m : Machine) : Prop :=
  ∀ off < size, ∃ flags, hwWalk m ((kernel.virtualBase + off) % 2 ^ 64) =
    some (kernel.physicalBase + off, flags)

/-- An address that no call covers keeps its translation. -/
theorem hwWalk_runCalls_of_not_covers {m : Machine} (h : Paged m) {calls : List MapCall}
    {flags : ℕ} (haddr : flags &&& vmmAddrMask = 0) (hlt : flags < 2 ^ 64)
    (hpages : ∀ c ∈ calls, c.huge = false ∧ c.physAddr < 2 ^ 52 ∧ c.flags = flags)
    (hanswered : (runCalls calls m).Answered) {virtAddr : ℕ}
    (hnone : ∀ c ∈ calls, ¬c.Covers virtAddr) :
    hwWalk (runCalls calls m) virtAddr = hwWalk m virtAddr := by
  induction calls generalizing m with
  | nil => rfl
  | cons c calls ih =>
    obtain ⟨hhuge, hphys, hflags⟩ := hpages c List.mem_cons_self
    have hfirst := hanswered.of_prefix (log_runCalls calls (c.exec m))
    have horderly := h.orderly hhuge hfirst
    have hregular : Regular m c :=
      ⟨horderly.walk, hphys, fun ht => absurd (hhuge.symm.trans ht) (by simp), hflags ▸ haddr,
        hflags ▸ hlt, horderly.slot⟩
    rw [runCalls_cons, ih (h.exec hhuge horderly) (fun c' hc' => hpages c' (List.mem_cons_of_mem c hc'))
      hanswered fun c' hc' => hnone c' (List.mem_cons_of_mem c hc'),
      hwWalk_exec h.claimed.tree hregular, MapCall.apply, if_neg (hnone c List.mem_cons_self)]

namespace KernelLoaded

variable {hhdmOffset : ℕ} {kernel : KernelAddress} {entries : List MemmapEntry} {size : ℕ}

theorem kernelSize_le (h : KernelLoaded hhdmOffset kernel entries size) :
    kernelSize entries ≤ 2 ^ 48 := by
  obtain ⟨e, he, htype, -⟩ := h.placed
  obtain ⟨last, hlast, hmem, hlasttype⟩ := exists_lastModules he htype
  have hend := h.reachable last hmem hlasttype
  rw [kernelSize_eq_of_last hlast]
  omega

theorem physicalEnd_le (h : KernelLoaded hhdmOffset kernel entries size) :
    kernel.physicalBase + size ≤ 2 ^ 48 := by
  obtain ⟨e, he, htype, -, hend⟩ := h.placed
  exact hend.trans (h.reachable e he htype)

/-- A page that holds a byte of the kernel is one of the kernel's. -/
theorem mem_span48 (h : KernelLoaded hhdmOffset kernel entries size) {off virtAddr : ℕ}
    (hoff : off < size)
    (hpage : (kernel.virtualBase + off) % 2 ^ 64 % 2 ^ 48 / 4096 = virtAddr % 2 ^ 48 / 4096) :
    virtAddr % 2 ^ 48 ∈ span48 kernel.virtualBase (pageCeil size) := by
  have haligned := h.virtualAligned
  refine ⟨4096 * (off / 4096) + virtAddr % 4096, ?_, ?_⟩
  · unfold pageCeil
    omega
  · omega

/-- Of the calls of `vmm_init` only the one for its page covers a byte of the kernel. -/
theorem eq_of_covers (h : KernelLoaded hhdmOffset kernel entries size) {off : ℕ} (hoff : off < size)
    {c : MapCall} (hc : c ∈ bootCalls hhdmOffset kernel entries)
    (hcovers : c.Covers ((kernel.virtualBase + off) % 2 ^ 64)) :
    4096 * (off / 4096) < kernelSize entries ∧
      c.physAddr = kernel.physicalBase + 4096 * (off / 4096) := by
  have hend := h.physicalEnd_le
  have hkernel := h.kernelSize_le
  have hspan : c.virtAddr % 2 ^ 48 ∈ span48 kernel.virtualBase (pageCeil size) := by
    apply h.mem_span48 hoff
    rwa [MapCall.Covers, MapCall.size, huge_of_mem_bootCalls hc] at hcovers
  rcases List.mem_append.mp hc with hlow | hdirect
  · rcases List.mem_append.mp hlow with hc | hc
    · obtain ⟨k, hk, rfl⟩ := mem_rangeCalls.mp hc
      exact absurd hspan (Set.disjoint_left.mp h.identity ⟨4096 * k, hk, by dsimp only; omega⟩)
    · obtain ⟨k, hk, rfl⟩ := mem_rangeCalls.mp hc
      simp only [MapCall.Covers, MapCall.size, Bool.false_eq_true, if_false] at hcovers
      have haligned := h.virtualAligned
      obtain rfl : k = off / 4096 := by omega
      dsimp only
      omega
  · obtain ⟨e, he, hmapped, hc⟩ := mem_directCalls.mp hdirect
    obtain ⟨k, hk, rfl⟩ := mem_rangeCalls.mp hc
    have hdirectEnd := le_directEnd he hmapped
    refine absurd hspan (Set.disjoint_left.mp h.direct ⟨e.base + 4096 * k, by omega, ?_⟩)
    dsimp only
    omega

theorem pages (h : KernelLoaded hhdmOffset kernel entries size) (hphys : Physical entries) :
    ∀ c ∈ bootCalls hhdmOffset kernel entries,
      c.huge = false ∧ c.physAddr < 2 ^ 52 ∧ c.flags = vmmPresent ||| vmmWriteable := by
  intro c hc
  refine ⟨huge_of_mem_bootCalls hc, ?_⟩
  have hend := h.physicalEnd_le
  have hkernel := h.kernelSize_le
  rcases List.mem_append.mp hc with hlow | hdirect
  · rcases List.mem_append.mp hlow with hc | hc
    · obtain ⟨k, hk, rfl⟩ := mem_rangeCalls.mp hc
      exact ⟨by dsimp only; omega, rfl⟩
    · obtain ⟨k, hk, rfl⟩ := mem_rangeCalls.mp hc
      exact ⟨by dsimp only; omega, rfl⟩
  · obtain ⟨e, he, -, hc⟩ := mem_directCalls.mp hdirect
    obtain ⟨k, hk, rfl⟩ := mem_rangeCalls.mp hc
    have hentry := hphys e he
    exact ⟨by dsimp only; omega, rfl⟩

theorem mapped (h : KernelLoaded hhdmOffset kernel entries size) (hphys : Physical entries)
    {m : Machine} (hpaged : Paged m)
    (hanswered : (runCalls (bootCalls hhdmOffset kernel entries) m).Answered)
    (hsize : pageCeil size ≤ pageCeil (kernelSize entries)) :
    KernelMapped kernel size (runCalls (bootCalls hhdmOffset kernel entries) m) := by
  intro off hoff
  have hend := h.physicalEnd_le
  have hround : 4096 * (off / 4096) < kernelSize entries := by
    unfold pageCeil at hsize
    omega
  have hvirt := h.virtualAligned
  refine ⟨_, hwWalk_runCalls hpaged (by decide) (by decide) (h.pages hphys) hanswered ?_
    fun c hc hcovers => ?_⟩
  · refine ⟨_, List.mem_append_left _ (List.mem_append_right _
      (mem_rangeCalls.mpr ⟨_, hround, rfl⟩)), ?_⟩
    simp only [MapCall.Covers, MapCall.size, Bool.false_eq_true, if_false]
    omega
  · obtain ⟨-, hphysAddr⟩ := h.eq_of_covers hoff hc hcovers
    have haligned := h.physicalAligned
    rw [hphysAddr]
    omega

/-- The first page behind the last entry's length has no mapping. -/
theorem not_mapped (h : KernelLoaded hhdmOffset kernel entries size) (hphys : Physical entries)
    {m : Machine} {f : ℕ} (hprep : Prepared m f)
    (hanswered : (runCalls (bootCalls hhdmOffset kernel entries) (vmmPrepPml4 m)).Answered)
    (hsize : pageCeil (kernelSize entries) < pageCeil size) : ¬KernelMapped kernel size
      (runCalls (bootCalls hhdmOffset kernel entries) (vmmPrepPml4 m)) := by
  intro hmapped
  have hoff : pageCeil (kernelSize entries) < size := by
    unfold pageCeil at *
    omega
  obtain ⟨flags, hwalk⟩ := hmapped _ hoff
  have hnone : ∀ c ∈ bootCalls hhdmOffset kernel entries,
      ¬c.Covers ((kernel.virtualBase + pageCeil (kernelSize entries)) % 2 ^ 64) := by
    intro c hc hcovers
    obtain ⟨hlt, -⟩ := h.eq_of_covers hoff hc hcovers
    unfold pageCeil at hlt
    omega
  rw [hwWalk_runCalls_of_not_covers hprep.paged (by decide) (by decide) (h.pages hphys) hanswered
    hnone, hwWalk_eq] at hwalk
  generalize (kernel.virtualBase + pageCeil (kernelSize entries)) % 2 ^ 64 = virtAddr at hwalk
  have hpre : [tableIndex virtAddr 3] <+: pathOf virtAddr := by simp [pathOf]
  rw [hprep.paged.noHuge.leaf_none (by simp) (hprep.table _ (by simp)) hpre] at hwalk
  exact absurd hwalk (by simp)

end KernelLoaded

/-- After `vmm_init` the whole kernel is mapped exactly when the last entry of its type is as long as
the kernel, in pages. -/
theorem kernelMapped_iff {entries : List MemmapEntry} (hphys : Physical entries)
    {bytes : ℕ → UInt8} {r : ℕ} {s : PmmContext} (hs : pmmInit entries bytes = some (r, s))
    {hhdmOffset : ℕ} {kernel : KernelAddress} {size : ℕ}
    (h : KernelLoaded hhdmOffset kernel entries size) (mem : ℕ → Fin 512 → ℕ) :
    ∃ m', vmmInit hhdmOffset kernel entries (bootMachine s mem) = some (vmmInitSuccess, m') ∧
      (m'.Answered → (KernelMapped kernel size m' ↔
        ∀ e, lastModules entries = some e → pageCeil size ≤ pageCeil e.length)) := by
  refine ⟨_, vmmInit_eq hhdmOffset kernel hphys.bootEnds _, fun hanswered => ?_⟩
  have hT : s.totalFrames ≤ 2 ^ 40 := (pmmInit_sized hs).totalFrames ▸ hphys.totalFrames_le
  obtain ⟨f, hprep⟩ := @prepared_of_answered (bootMachine s mem) hT
    (hanswered.of_prefix (log_runCalls _ _))
  obtain ⟨e, he, htype, -⟩ := h.placed
  obtain ⟨last, hlast, -⟩ := exists_lastModules he htype
  have hsize := kernelSize_eq_of_last hlast
  constructor
  · intro hmapped e he
    obtain rfl : last = e := Option.some.inj (hlast.symm.trans he)
    by_contra hshort
    exact h.not_mapped hphys hprep hanswered (by rw [hsize]; omega) hmapped
  · intro hlong
    apply h.mapped hphys hprep.paged hanswered
    rw [hsize]
    exact hlong last hlast

/-! ## A kernel and a module -/

/-- `bootMap` with a kernel of two pages, and a module of one page behind it. -/
def moduleMap : List MemmapEntry :=
  [⟨0x1000, 0xff000, .usable⟩, ⟨0x200000, 0x1000, .bootloaderReclaimable⟩,
    ⟨0x300000, 0x2000, .kernelAndModules⟩, ⟨0x400000, 0x1000, .kernelAndModules⟩]

/-- `pmm_init` sees no difference. -/
theorem pmmInit_moduleMap (bytes : ℕ → UInt8) : pmmInit moduleMap bytes = pmmInit bootMap bytes :=
  rfl

/-- Neither does `vmm_init`, which maps one page of the kernel. -/
theorem bootCalls_moduleMap : bootCalls 0xffff800000000000 bootKernel moduleMap =
    bootCalls 0xffff800000000000 bootKernel bootMap :=
  rfl

theorem kernelLoaded_of_le {entries : List MemmapEntry} {size : ℕ}
    (hplaced : ∃ e ∈ entries, e.type = .kernelAndModules ∧ e.base ≤ 0x300000 ∧
      0x300000 + size ≤ e.base + e.length)
    (hreachable : ∀ e ∈ entries, e.type = .kernelAndModules → e.base + e.length ≤ 2 ^ 48)
    (hsize : size ≤ 0x2000) (hend : directEnd entries = 0x201000) :
    KernelLoaded 0xffff800000000000 bootKernel entries size := by
  have hceil : pageCeil size ≤ 0x2000 := by
    unfold pageCeil
    omega
  refine ⟨hplaced, hreachable, by decide, by decide, ?_, ?_⟩
  · apply Set.disjoint_left.mpr
    rintro v ⟨off, hoff, rfl⟩ ⟨off', hoff', heq⟩
    simp only [bootKernel] at heq
    omega
  · rw [hend]
    apply Set.disjoint_left.mpr
    rintro v ⟨off, hoff, rfl⟩ ⟨off', hoff', heq⟩
    simp only [bootKernel] at heq
    omega

theorem physical_moduleMap : Physical moduleMap := by
  unfold Physical
  decide

theorem conformant_moduleMap : Conformant moduleMap := by
  refine ⟨by decide, by decide, ?_⟩
  simp only [moduleMap, MemmapEntry.Contains, List.pairwise_cons, List.mem_cons, List.not_mem_nil,
    or_false, forall_eq_or_imp, forall_eq]
  refine ⟨⟨fun _ addr => ?_, fun _ addr => ?_, fun _ addr => ?_⟩,
    ⟨fun _ addr => ?_, fun _ addr => ?_⟩, fun _ addr => ?_, ?_⟩
  · omega
  · omega
  · omega
  · omega
  · omega
  · omega
  · simp

/-- The second page of the kernel is not mapped. -/
theorem not_kernelMapped_moduleMap : ¬∀ (entries : List MemmapEntry) (bytes : ℕ → UInt8) (r : ℕ)
    (s : PmmContext) (hhdmOffset : ℕ) (kernel : KernelAddress) (size : ℕ) (mem : ℕ → Fin 512 → ℕ)
    (m' : Machine), Conformant entries → Physical entries →
    pmmInit entries bytes = some (r, s) → KernelLoaded hhdmOffset kernel entries size →
    vmmInit hhdmOffset kernel entries (bootMachine s mem) = some (vmmInitSuccess, m') →
    m'.Answered → KernelMapped kernel size m' := by
  intro h
  obtain ⟨s, hs⟩ := physical_moduleMap.pmmInit fun _ => 0
  have hsize := (pmmInit_sized hs).totalFrames
  have hT : s.totalFrames ≤ 2 ^ 40 := hsize ▸ physical_moduleMap.totalFrames_le
  have hloaded : KernelLoaded 0xffff800000000000 bootKernel moduleMap 0x2000 :=
    kernelLoaded_of_le (by decide) (by decide) le_rfl (by decide)
  have hm' := vmmInit_eq 0xffff800000000000 bootKernel physical_moduleMap.bootEnds
    (bootMachine s fun _ _ => 0)
  have hanswered := answered_bootMap (hs ▸ (pmmInit_moduleMap _).symm)
    (vmmInit_eq 0xffff800000000000 bootKernel layout_bootMap.bootEnds (bootMachine s fun _ _ => 0))
  rw [← bootCalls_moduleMap] at hanswered
  obtain ⟨f, hprep⟩ := @prepared_of_answered (bootMachine s fun _ _ => 0) hT
    (hanswered.of_prefix (log_runCalls _ _))
  exact hloaded.not_mapped physical_moduleMap hprep hanswered (by decide)
    (h _ _ _ s _ _ _ (fun _ _ => 0) _ conformant_moduleMap physical_moduleMap hs hloaded hm' hanswered)

theorem kernelMapped_bootMap : ∃ s m', pmmInit bootMap (fun _ => 0) = some (pmmInitSuccess, s) ∧
    vmmInit 0xffff800000000000 bootKernel bootMap (bootMachine s fun _ _ => 0) =
      some (vmmInitSuccess, m') ∧ m'.Answered ∧ KernelMapped bootKernel 0x1000 m' := by
  have hphys : Physical bootMap := by
    unfold Physical
    decide
  obtain ⟨s, hs⟩ := hphys.pmmInit fun _ => 0
  have hloaded : KernelLoaded 0xffff800000000000 bootKernel bootMap 0x1000 :=
    kernelLoaded_of_le (by decide) (by decide) (by norm_num) (by decide)
  obtain ⟨m', hm', hiff⟩ := kernelMapped_iff hphys hs hloaded fun _ _ => 0
  have hanswered := answered_bootMap hs hm'
  refine ⟨s, m', hs, hm', hanswered, (hiff hanswered).mpr fun e he => ?_⟩
  obtain rfl : _ = e := Option.some.inj he
  decide

end MathUnikernel.Vmm
