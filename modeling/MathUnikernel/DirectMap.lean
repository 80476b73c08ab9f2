import MathUnikernel.MapRange
import MathUnikernel.PmmExact

/-!
# The direct map

After `vmm_init` the kernel reaches at `hhdm_offset` the frames that the physical memory manager can
return and those that hold the page tables and the bitmap.
-/

namespace MathUnikernel.Vmm
open Pmm RadixTree

/-! ## The layout of the address space -/

/-- The 48 bits that a walk uses of the addresses from `start` on. -/
def span48 (start size : ℕ) : Set ℕ := {v | ∃ off < size, v = (start + off) % 2 ^ 48}

/-- The end of the highest entry that is mapped at `hhdm_offset`. -/
def directEnd (entries : List MemmapEntry) : ℕ :=
  entries.foldl (fun top e => if directMapped e then max top (e.base + e.length) else top) 0

/-- The direct map, the first 4 MiB and the kernel lie apart. -/
structure Layout (hhdmOffset : ℕ) (kernel : KernelAddress) (entries : List MemmapEntry) : Prop where
  aligned : hhdmOffset % 4096 = 0
  direct_identity : Disjoint (span48 hhdmOffset (directEnd entries)) (span48 0x0 0x400000)
  direct_kernel : Disjoint (span48 hhdmOffset (directEnd entries))
    (span48 kernel.virtualBase (kernelSize entries))
  identity_kernel : Disjoint (span48 0x0 0x400000)
    (span48 kernel.virtualBase (kernelSize entries))

theorem le_directEnd_aux (entries : List MemmapEntry) (top : ℕ) :
    top ≤ entries.foldl (fun top e => if directMapped e then max top (e.base + e.length) else top) top ∧
    ∀ e ∈ entries, directMapped e = true → e.base + e.length ≤
      entries.foldl (fun top e => if directMapped e then max top (e.base + e.length) else top) top := by
  induction entries generalizing top with
  | nil => exact ⟨le_rfl, fun e he => absurd he List.not_mem_nil⟩
  | cons e entries ih =>
    rw [List.foldl_cons]
    obtain ⟨hle, hall⟩ := ih (if directMapped e then max top (e.base + e.length) else top)
    refine ⟨le_trans ?_ hle, fun e' he' hdirect => ?_⟩
    · split_ifs
      · exact le_max_left _ _
      · exact le_rfl
    · rcases List.mem_cons.mp he' with rfl | hmem
      · apply le_trans _ hle
        rw [if_pos hdirect]
        exact le_max_right _ _
      · exact hall e' hmem hdirect

theorem le_directEnd {entries : List MemmapEntry} {e : MemmapEntry} (he : e ∈ entries)
    (hdirect : directMapped e = true) : e.base + e.length ≤ directEnd entries :=
  (le_directEnd_aux entries 0).2 e he hdirect

/-- A range that avoids the first address is less than the whole space. -/
theorem lt_of_disjoint_span48 {start size : ℕ}
    (h : Disjoint (span48 start size) (span48 0x0 0x400000)) : size < 2 ^ 48 := by
  by_contra hge
  have hfirst : 0 ∈ span48 start size :=
    ⟨(2 ^ 48 - start % 2 ^ 48) % 2 ^ 48, by omega, by omega⟩
  have hzero : 0 ∈ span48 0x0 0x400000 := ⟨0, by norm_num, by norm_num⟩
  exact Set.disjoint_left.mp h hfirst hzero

namespace Layout

variable {hhdmOffset : ℕ} {kernel : KernelAddress} {entries : List MemmapEntry}

theorem entry_lt (h : Layout hhdmOffset kernel entries) {e : MemmapEntry} (he : e ∈ entries)
    (hdirect : directMapped e = true) : e.base + e.length < 2 ^ 48 :=
  (le_directEnd he hdirect).trans_lt (lt_of_disjoint_span48 h.direct_identity)

theorem bootEnds (h : Layout hhdmOffset kernel entries) : BootEnds entries := by
  have hkernel := lt_of_disjoint_span48 h.identity_kernel.symm
  refine ⟨by omega, fun e he hdirect => ?_⟩
  have := h.entry_lt he hdirect
  omega

theorem directMapped_of_available {e : MemmapEntry} (h : e.available = true) :
    directMapped e = true := by
  simp only [MemmapEntry.available, Bool.or_eq_true] at h
  simp only [directMapped, Bool.or_eq_true]
  exact .inl h

theorem totalFrames_le_direct (h : Layout hhdmOffset kernel entries) :
    totalFramesOf entries ≤ 2 ^ 36 := by
  have hlt : getHighestUsableAddr entries < 2 ^ 48 := by
    apply getHighestUsableAddr_lt_of (by norm_num)
    intro e he hav
    exact (Nat.mod_le _ _).trans_lt (h.entry_lt he (directMapped_of_available hav))
  unfold totalFramesOf
  omega

theorem totalFrames_le (h : Layout hhdmOffset kernel entries) : totalFramesOf entries ≤ 2 ^ 40 :=
  h.totalFrames_le_direct.trans (by norm_num)

end Layout

/-! ## Mapping the entries -/

theorem mem_directCalls {hhdmOffset : ℕ} {entries : List MemmapEntry} {c : MapCall} :
    c ∈ directCalls hhdmOffset entries ↔ ∃ e ∈ entries, directMapped e = true ∧
      c ∈ rangeCalls ((e.base + hhdmOffset) % 2 ^ 64) e.base e.length
        (vmmPresent ||| vmmWriteable) := by
  rw [directCalls, List.mem_flatMap]
  apply exists_congr
  intro e
  apply and_congr_right
  intro _
  by_cases hdirect : directMapped e = true
  · rw [if_pos hdirect]
    exact ⟨fun h => ⟨hdirect, h⟩, And.right⟩
  · rw [if_neg hdirect]
    exact ⟨fun h => absurd h List.not_mem_nil, fun h => absurd h.1 hdirect⟩

/-- Where all calls that cover an address agree on its page, the address is mapped to that page. -/
theorem hwWalk_runCalls {m : Machine} (h : Paged m) {calls : List MapCall} {flags : ℕ}
    (haddr : flags &&& vmmAddrMask = 0) (hlt : flags < 2 ^ 64)
    (hpages : ∀ c ∈ calls, c.huge = false ∧ c.physAddr < 2 ^ 52 ∧ c.flags = flags)
    (hanswered : (runCalls calls m).Answered) {virtAddr physAddr : ℕ}
    (hsome : ∃ c ∈ calls, c.Covers virtAddr)
    (hsame : ∀ c ∈ calls, c.Covers virtAddr →
      c.physAddr / 4096 * 4096 + virtAddr % 4096 = physAddr) :
    hwWalk (runCalls calls m) virtAddr = some (physAddr, flags ||| vmmPresent) := by
  have hleaf : LeafCalls calls := by
    intro c hc
    obtain ⟨-, hphys, hflags⟩ := hpages c hc
    exact ⟨hphys, hflags ▸ haddr, hflags ▸ hlt⟩
  rw [h.hwWalk_runCalls (fun c hc => (hpages c hc).1) hleaf hanswered]
  apply foldl_apply_of_covers hsome
  intro c hc hcovers
  obtain ⟨hhuge, -, hflags⟩ := hpages c hc
  have hsize : c.size = 4096 := by rw [MapCall.size, hhuge]; rfl
  have hflagsOf : c.flagsOf = flags ||| vmmPresent := by rw [MapCall.flagsOf, hhuge, hflags]; rfl
  rw [hsize, hflagsOf, hsame c hc hcovers]

/-- Round `k` of an entry covers the address of `addr` in the direct map if `addr` is on its page. -/
theorem covers_direct {hhdmOffset addr base k : ℕ} (flags : ℕ) (haligned : hhdmOffset % 4096 = 0)
    (haddr : addr < 2 ^ 48) (hbase : base + 4096 * k < 2 ^ 48) :
    (⟨false, ((base + hhdmOffset) % 2 ^ 64 + 4096 * k) % 2 ^ 64, (base + 4096 * k) % 2 ^ 64, flags⟩ :
      MapCall).Covers ((hhdmOffset + addr) % 2 ^ 64) ↔ addr / 4096 = (base + 4096 * k) / 4096 := by
  have hcall : ((base + hhdmOffset) % 2 ^ 64 + 4096 * k) % 2 ^ 64 =
      (hhdmOffset + (base + 4096 * k)) % 2 ^ 64 := by omega
  have hmod : ∀ x, x % 2 ^ 64 % 2 ^ 48 = x % 2 ^ 48 := fun x => by omega
  simp only [MapCall.Covers, MapCall.size, Bool.false_eq_true, if_false, hcall, hmod]
  generalize base + 4096 * k = phys at *
  omega

/-- After the direct map is made, an address of an aligned entry translates to itself. -/
theorem hwWalk_directCalls {m : Machine} (h : Paged m) {hhdmOffset : ℕ} {kernel : KernelAddress}
    {entries : List MemmapEntry} (hlayout : Layout hhdmOffset kernel entries)
    (hanswered : (runCalls (directCalls hhdmOffset entries) m).Answered) {e : MemmapEntry}
    (he : e ∈ entries) (hdirect : directMapped e = true) (hbase : e.base % 4096 = 0) {addr : ℕ}
    (hin : e.Contains addr) :
    hwWalk (runCalls (directCalls hhdmOffset entries) m) ((hhdmOffset + addr) % 2 ^ 64) =
      some (addr, vmmPresent ||| vmmWriteable) := by
  have haligned := hlayout.aligned
  have hend := hlayout.entry_lt he hdirect
  obtain ⟨hlo, hhi⟩ := hin
  have hflags : vmmPresent ||| vmmWriteable = (vmmPresent ||| vmmWriteable) ||| vmmPresent := rfl
  rw [hflags]
  refine hwWalk_runCalls h (by decide) (by decide) (fun c hc => ?_) hanswered ?_ fun c hc hcovers => ?_
  · obtain ⟨e', he', hdirect', hc⟩ := mem_directCalls.mp hc
    obtain ⟨k, hk, rfl⟩ := mem_rangeCalls.mp hc
    have hend' := hlayout.entry_lt he' hdirect'
    refine ⟨rfl, ?_, rfl⟩
    change (e'.base + 4096 * k) % 2 ^ 64 < 2 ^ 52
    omega
  · have hround : 4096 * ((addr - e.base) / 4096) < e.length := by omega
    refine ⟨_, mem_directCalls.mpr ⟨e, he, hdirect, mem_rangeCalls.mpr ⟨_, hround, rfl⟩⟩, ?_⟩
    apply (covers_direct _ haligned (by omega) (by omega)).mpr
    omega
  · obtain ⟨e', he', hdirect', hc⟩ := mem_directCalls.mp hc
    obtain ⟨k, hk, rfl⟩ := mem_rangeCalls.mp hc
    have hend' := hlayout.entry_lt he' hdirect'
    have hpage := (covers_direct _ haligned (by omega) (by omega)).mp hcovers
    change (e'.base + 4096 * k) % 2 ^ 64 / 4096 * 4096 + (hhdmOffset + addr) % 2 ^ 64 % 4096 = addr
    omega

/-! ## Writeable pages -/

/-- Every entry that the walk of the address goes through has `VMM_WRITEABLE`. -/
def Machine.Writeable (m : Machine) (virtAddr : ℕ) : Prop :=
  ∀ p i t f, pathOf virtAddr = p ++ i :: t → m.table p = some f → m.mem f i &&& vmmWriteable ≠ 0

theorem Machine.LinksWriteable.writeable {m : Machine} (h : m.LinksWriteable)
    {virtAddr physAddr flags : ℕ} (hwalk : hwWalk m virtAddr = some (physAddr, flags))
    (hflags : flags &&& vmmWriteable ≠ 0) : m.Writeable virtAddr := by
  intro p i t f hpath hp
  rw [hwWalk_eq, Option.map_eq_some_iff] at hwalk
  obtain ⟨leaf, hleaf, hpair⟩ := hwalk
  have hlen : p.length + (t.length + 1) = 4 := by
    have := congrArg List.length hpath
    simpa [pathOf] using this.symm
  -- an absent entry would end the walk
  have hpresent : m.mem f i &&& vmmPresent ≠ 0 := by
    intro habsent
    have hstop := find_of_stop (i := i) hp (link_absent habsent) t
    rw [Machine.leaf, hpath, hstop, leaf_absent habsent] at hleaf
    exact absurd hleaf (by simp)
  by_cases hshort : p.length < 3
  · exact h p f i hshort hp hpresent
  · have hp3 : p.length = 3 := by omega
    have hlink : paging.link (3 - p.length) (m.mem f i) = none := by
      rw [hp3]
      exact link_zero _
    have hstop := find_of_stop hp hlink t
    rw [hp3, Nat.sub_self, leaf_page hpresent] at hstop
    rw [Machine.leaf, hpath, hstop] at hleaf
    obtain rfl := Option.some.inj hleaf
    obtain rfl : leafFlags (m.mem f i) = flags := (Prod.mk.inj hpair).2
    intro hzero
    apply hflags
    rw [leafFlags, Nat.and_assoc, Nat.and_comm _ vmmWriteable, ← Nat.and_assoc, hzero]
    rfl

/-! ## After boot -/

/-- The frame of the address can be returned by `pmm_alloc`, holds a table or holds the bitmap. -/
def Machine.Needs (m : Machine) (addr : ℕ) : Prop :=
  (addr / 4096 < 8 * m.pmm.bitmapSize ∧ m.pmm.used (addr / 4096) = false) ∨
    m.IsTable (addr / 4096) ∨
    (m.pmm.bitmapPhys ≤ addr ∧ addr < m.pmm.bitmapPhys + m.pmm.bitmapSize)

/-- What such an address needs is in an entry that is mapped. -/
theorem exists_entry_of_needs {entries : List MemmapEntry}
    {bytes : ℕ → UInt8} {s : PmmContext} (hexact : ExactBitmap entries bytes s) {m : Machine}
    (hclaimed : Claimed m) (htaken : Taken s m.pmm)
    (htables : ∀ f, m.IsTable f → s.used f = false) {addr : ℕ} (hneeds : m.Needs addr) :
    ∃ e ∈ entries, e.available = true ∧ e.Contains addr := by
  have hfree : addr / 4096 < s.totalFrames → s.used (addr / 4096) = false →
      ∃ e ∈ entries, e.available = true ∧ e.Contains addr := by
    intro hlt hclear
    obtain ⟨⟨e, he, hav, hlo, hhi⟩, -⟩ := (hexact.clear_iff _ hlt).mp hclear
    exact ⟨e, he, hav, by omega, by omega⟩
  rcases hneeds with ⟨hlt, hclear⟩ | htable | ⟨hlo, hhi⟩
  · rw [htaken.bitmapSize] at hlt
    have hbefore : s.used (addr / 4096) = false := free_of_kept (htaken.kept _) hclear
    apply hfree _ hbefore
    by_contra hge
    rw [hexact.tail _ (Nat.le_of_not_lt hge) hlt] at hbefore
    exact absurd hbefore (by simp)
  · have hbefore := htables _ htable
    rcases htaken.taken _ (hclaimed.used _ htable) with hused | ⟨hlt, -⟩
    · rw [hbefore] at hused
      exact absurd hused (by simp)
    · exact hfree hlt hbefore
  · obtain ⟨e, he, hty, hlo', hhi'⟩ := hexact.storage
    rw [htaken.bitmapPhys] at hlo hhi
    rw [htaken.bitmapSize] at hhi
    exact ⟨e, he, available_of_usable hty, by omega, by omega⟩

/-- After a `vmm_init` whose requests were answered such an address is mapped. -/
theorem direct_of_needs {entries : List MemmapEntry} (hconf : Conformant entries)
    {bytes : ℕ → UInt8} {s : PmmContext} (hexact : ExactBitmap entries bytes s) {hhdmOffset : ℕ}
    {kernel : KernelAddress} (hlayout : Layout hhdmOffset kernel entries)
    (hT : s.totalFrames = totalFramesOf entries) {mem : ℕ → Fin 512 → ℕ}
    (hanswered : (runCalls (bootCalls hhdmOffset kernel entries)
      (vmmPrepPml4 (bootMachine s mem))).Answered) {addr : ℕ}
    (hneeds : (runCalls (bootCalls hhdmOffset kernel entries)
      (vmmPrepPml4 (bootMachine s mem))).Needs addr) :
    hwWalk (runCalls (bootCalls hhdmOffset kernel entries) (vmmPrepPml4 (bootMachine s mem)))
        ((hhdmOffset + addr) % 2 ^ 64) = some (addr, vmmPresent ||| vmmWriteable) ∧
      (runCalls (bootCalls hhdmOffset kernel entries) (vmmPrepPml4 (bootMachine s mem))).Writeable
        ((hhdmOffset + addr) % 2 ^ 64) := by
  have hT' : s.totalFrames ≤ 2 ^ 40 := hT.trans_le hlayout.totalFrames_le
  have hpages : ∀ c ∈ bootCalls hhdmOffset kernel entries, c.huge = false := fun c hc =>
    huge_of_mem_bootCalls hc
  have hbooted := booted_of_answered hT' mem hpages hanswered
  have hpaged := hbooted.paged
  obtain ⟨e, he, hav, hin⟩ :=
    exists_entry_of_needs hexact hpaged.claimed hbooted.taken hbooted.free hneeds
  -- the direct map is made last
  have hsplit := runCalls_append (lowCalls kernel entries) (directCalls hhdmOffset entries)
    (vmmPrepPml4 (bootMachine s mem))
  rw [bootCalls, hsplit] at hanswered hpaged ⊢
  have hlow := (booted_of_answered hT' mem (fun c hc => hpages c (List.mem_append_left _ hc))
    (hanswered.of_prefix (log_runCalls _ _))).paged
  have hwalk := hwWalk_directCalls hlow hlayout hanswered he (Layout.directMapped_of_available hav)
    (hconf.aligned e he hav).1 hin
  exact ⟨hwalk, hpaged.writeable.writeable hwalk (by decide)⟩

/-- On every conformant map with room for the bitmap and a layout without overlaps, `vmm_init` ends,
and if no request failed the kernel reaches every frame it needs through the direct map. -/
theorem directMap_after_boot {entries : List MemmapEntry} (hconf : Conformant entries)
    (hroom : HasRoom entries) (bytes : ℕ → UInt8) {hhdmOffset : ℕ} {kernel : KernelAddress}
    (hlayout : Layout hhdmOffset kernel entries) (mem : ℕ → Fin 512 → ℕ) :
    ∃ s m', pmmInit entries bytes = some (pmmInitSuccess, s) ∧
      vmmInit hhdmOffset kernel entries (bootMachine s mem) = some (vmmInitSuccess, m') ∧
      (m'.Answered → ∀ addr, m'.Needs addr →
        hwWalk m' ((hhdmOffset + addr) % 2 ^ 64) = some (addr, vmmPresent ||| vmmWriteable) ∧
        m'.Writeable ((hhdmOffset + addr) % 2 ^ 64)) := by
  obtain ⟨s, hs, hexact⟩ := pmmInit_exact hconf hroom bytes
  refine ⟨s, _, hs, vmmInit_eq hhdmOffset kernel hlayout.bootEnds _, ?_⟩
  intro hanswered addr hneeds
  exact direct_of_needs hconf hexact hlayout (pmmInit_sized hs).totalFrames hanswered hneeds

/-! ## A memory map -/

/-- One MiB of memory, a reclaimable frame above it and a kernel of one page. -/
def bootMap : List MemmapEntry :=
  [⟨0x1000, 0xff000, .usable⟩, ⟨0x200000, 0x1000, .bootloaderReclaimable⟩,
    ⟨0x300000, 0x1000, .kernelAndModules⟩]

def bootKernel : KernelAddress := ⟨0xffffffff80000000, 0x300000⟩

theorem conformant_bootMap : Conformant bootMap := by
  refine ⟨by decide, by decide, ?_⟩
  simp only [bootMap, MemmapEntry.Contains, List.pairwise_cons, List.mem_cons, List.not_mem_nil,
    or_false, forall_eq_or_imp, forall_eq]
  refine ⟨⟨fun _ addr => ?_, fun _ addr => ?_⟩, fun _ addr => ?_, ?_⟩
  · omega
  · omega
  · omega
  · simp

theorem hasRoom_bootMap : HasRoom bootMap := ⟨_, List.mem_cons_self, rfl, by decide⟩

theorem layout_bootMap : Layout 0xffff800000000000 bootKernel bootMap := by
  have hend : directEnd bootMap = 0x201000 := by decide
  have hsize : kernelSize bootMap = 0x1000 := by decide
  refine ⟨by norm_num, ?_, ?_, ?_⟩
  · rw [hend]
    apply Set.disjoint_left.mpr
    rintro v ⟨off, hoff, rfl⟩ ⟨off', hoff', heq⟩
    omega
  · rw [hend, hsize]
    apply Set.disjoint_left.mpr
    rintro v ⟨off, hoff, rfl⟩ ⟨off', hoff', heq⟩
    simp only [bootKernel] at heq
    omega
  · rw [hsize]
    apply Set.disjoint_left.mpr
    rintro v ⟨off, hoff, rfl⟩ ⟨off', hoff', heq⟩
    simp only [bootKernel] at heq
    omega

/-- The 2 MiB regions in which the map is mapped. -/
def bootRegions : List MapCall :=
  [⟨false, 0, 0, 0⟩, ⟨false, 0x200000, 0, 0⟩, ⟨false, 0xffffffff80000000, 0, 0⟩,
    ⟨false, 0xffff800000000000, 0, 0⟩, ⟨false, 0xffff800000200000, 0, 0⟩]

/-- It takes twelve tables. -/
theorem card_tablePaths_bootMap :
    (tablePaths (bootCalls 0xffff800000000000 bootKernel bootMap)).card ≤ 12 := by
  have hsub : tablePaths (bootCalls 0xffff800000000000 bootKernel bootMap) ⊆
      tablePaths bootRegions := by
    apply tablePaths_subset
    intro c hc
    have hpage := huge_of_mem_bootCalls hc
    suffices hregion : ∃ c' ∈ bootRegions, c'.huge = false ∧
        c.virtAddr / 2 ^ 21 = c'.virtAddr / 2 ^ 21 by
      obtain ⟨c', hc', hpage', hdiv⟩ := hregion
      exact ⟨c', hc', path_eq_of_div hpage hpage' hdiv⟩
    simp only [bootRegions, List.mem_cons, List.not_mem_nil, or_false, exists_eq_or_imp,
      exists_eq_left, true_and]
    rcases List.mem_append.mp hc with hlow | hdirect
    · rcases List.mem_append.mp hlow with h | h
      · obtain ⟨k, hk, rfl⟩ := mem_rangeCalls.mp h
        dsimp only
        omega
      · have hsize : kernelSize bootMap = 0x1000 := by decide
        obtain ⟨k, hk, rfl⟩ := mem_rangeCalls.mp h
        simp only [hsize, bootKernel] at hk ⊢
        omega
    · obtain ⟨e, he, hmapped, h⟩ := mem_directCalls.mp hdirect
      obtain ⟨k, hk, rfl⟩ := mem_rangeCalls.mp h
      simp only [bootMap, List.mem_cons, List.not_mem_nil, or_false] at he
      rcases he with rfl | rfl | rfl
      · dsimp only at hk ⊢
        omega
      · dsimp only at hk ⊢
        omega
      · exact absurd hmapped (by decide)
  exact (Finset.card_le_card hsub).trans (by decide)

theorem listed_bootMap {f : ℕ} (hlo : 2 ≤ f) (hhi : f < 256) :
    Listed bootMap f ∧ ¬Storage bootMap f := by
  have hphys : bitmapPhysOf bootMap = 0x1000 := by decide
  have hsize : bitmapSizeOf bootMap = 65 := by decide
  refine ⟨⟨⟨0x1000, 0xff000, .usable⟩, List.mem_cons_self, rfl, ?_⟩, ?_⟩
  · simp only [Visits, MemmapEntry.ceiling]
    omega
  · rw [Storage, hphys, hsize]
    simp only [Visits]
    omega

theorem free_bootMap {bytes : ℕ → UInt8} {s : PmmContext}
    (hs : pmmInit bootMap bytes = some (pmmInitSuccess, s)) :
    s.totalFrames = 513 ∧ s.bitmapSize = 65 ∧ 254 ≤ clearCount s := by
  have hsized := pmmInit_sized hs
  have htotal : s.totalFrames = 513 := hsized.totalFrames.trans (by decide)
  have hsize : s.bitmapSize = 65 := hsized.bitmapSize.trans (by decide)
  refine ⟨htotal, hsize, ?_⟩
  have hsub : Finset.Ico 2 256 ⊆ (Finset.range s.totalFrames).filter fun f => s.used f = false := by
    intro f hf
    obtain ⟨hlo, hhi⟩ := Finset.mem_Ico.mp hf
    refine Finset.mem_filter.mpr ⟨Finset.mem_range.mpr (by omega), ?_⟩
    exact (used_pmmInit hs (by omega)).mpr (listed_bootMap hlo hhi)
  exact (Nat.card_Ico 2 256).symm.trans_le (Finset.card_le_card hsub)

/-- On this map no request fails. -/
theorem answered_bootMap {bytes : ℕ → UInt8} {s : PmmContext} {mem : ℕ → Fin 512 → ℕ}
    {m' : Machine} (hs : pmmInit bootMap bytes = some (pmmInitSuccess, s))
    (hm' : vmmInit 0xffff800000000000 bootKernel bootMap (bootMachine s mem) =
      some (vmmInitSuccess, m')) : m'.Answered := by
  obtain ⟨htotal, hsize, hclear⟩ := free_bootMap hs
  rw [vmmInit_eq _ _ layout_bootMap.bootEnds] at hm'
  obtain rfl := (Prod.mk.inj (Option.some.inj hm')).2
  apply answered_of_card_le rfl
  · rw [bootMachine, htotal]
    norm_num
  · rw [bootMachine, htotal, hsize]
    norm_num
  · exact fun c hc => huge_of_mem_bootCalls hc
  · exact card_tablePaths_bootMap.trans ((by norm_num : 12 ≤ 254).trans hclear)

theorem directMap_bootMap : ∃ s m', pmmInit bootMap (fun _ => 0) = some (pmmInitSuccess, s) ∧
    vmmInit 0xffff800000000000 bootKernel bootMap (bootMachine s fun _ _ => 0) =
      some (vmmInitSuccess, m') ∧ m'.Answered ∧
    ∀ addr, m'.Needs addr →
      hwWalk m' ((0xffff800000000000 + addr) % 2 ^ 64) = some (addr, vmmPresent ||| vmmWriteable) ∧
      m'.Writeable ((0xffff800000000000 + addr) % 2 ^ 64) := by
  obtain ⟨s, m', hs, hm', hdirect⟩ := directMap_after_boot conformant_bootMap hasRoom_bootMap
    (fun _ => 0) layout_bootMap (fun _ _ => 0)
  have hanswered := answered_bootMap hs hm'
  exact ⟨s, m', hs, hm', hanswered, hdirect hanswered⟩

end MathUnikernel.Vmm
