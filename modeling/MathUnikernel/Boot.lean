import MathUnikernel.MapOps

/-!
# The mappings that `vmm_init` makes

`vmm_init` is a list of calls of `vmm_map_virt_to_phys` on an empty PML4.
-/

namespace MathUnikernel.Vmm
open Pmm RadixTree

/-! ## Lists of calls -/

def runCalls (calls : List MapCall) (m : Machine) : Machine :=
  calls.foldl (fun m c => c.exec m) m

theorem runCalls_cons (c : MapCall) (calls : List MapCall) (m : Machine) :
    runCalls (c :: calls) m = runCalls calls (c.exec m) := rfl

theorem runCalls_append (calls calls' : List MapCall) (m : Machine) :
    runCalls (calls ++ calls') m = runCalls calls' (runCalls calls m) := List.foldl_append

/-- The calls of `vmm_map_range`. -/
def rangeCalls (virtStart physStart size flags : ℕ) : List MapCall :=
  (List.range ((size + 4095) / 4096)).map (MapOp.range virtStart physStart size flags).call

theorem mem_rangeCalls {virtStart physStart size flags : ℕ} {c : MapCall} :
    c ∈ rangeCalls virtStart physStart size flags ↔ ∃ k, 4096 * k < size ∧
      c = ⟨false, (virtStart + 4096 * k) % 2 ^ 64, (physStart + 4096 * k) % 2 ^ 64, flags⟩ := by
  rw [rangeCalls, List.mem_map]
  apply exists_congr
  intro k
  rw [List.mem_range]
  exact and_congr (by omega) eq_comm

theorem runCalls_rangeCalls (virtStart physStart size flags : ℕ) (m : Machine) :
    runCalls (rangeCalls virtStart physStart size flags) m =
      (MapOp.range virtStart physStart size flags).after ((size + 4095) / 4096) m := by
  rw [runCalls, rangeCalls, List.foldl_map]
  rfl

theorem eq_runCalls_of_vmmMapRange {virtStart physStart size flags : ℕ} {m m' : Machine}
    (h : vmmMapRange m virtStart physStart size flags = some m') :
    m' = runCalls (rangeCalls virtStart physStart size flags) m := by
  obtain ⟨n, rfl, hle, hn⟩ := @MapOp.mapRangeFrom_after _ _ _ _ _ m _ _ h 0 rfl rfl
    fun i hi => absurd hi (Nat.not_lt_zero i)
  have hlast : n ≠ 0 → 4096 * (n - 1) < size := fun h0 => (hn (n - 1) (by omega)).1
  have hceil : (size + 4095) / 4096 = n := by omega
  rw [runCalls_rangeCalls, hceil]

/-- The loop ends unless `offset` wraps. -/
theorem mapRangeFrom_isSome {virtStart physStart size flags offset : ℕ} (m : Machine)
    (h : size + 4096 ≤ 2 ^ 64) :
    (mapRangeFrom virtStart physStart size flags offset m).isSome := by
  fun_induction mapRangeFrom virtStart physStart size flags offset m with
  | case1 offset m hlt hwrap ih => exact ih
  | case2 offset m hlt hwrap => omega
  | case3 offset m hlt => rfl

theorem vmmMapRange_eq {virtStart physStart size flags : ℕ} (m : Machine)
    (h : size + 4096 ≤ 2 ^ 64) : vmmMapRange m virtStart physStart size flags =
      some (runCalls (rangeCalls virtStart physStart size flags) m) := by
  obtain ⟨m', hm'⟩ := Option.isSome_iff_exists.mp
    (@mapRangeFrom_isSome virtStart physStart size flags 0 m h)
  rw [← eq_runCalls_of_vmmMapRange hm']
  exact hm'

/-! ## The calls of `vmm_init` -/

/-- The calls that map the entries at `hhdm_offset`. -/
def directCalls (hhdmOffset : ℕ) (entries : List MemmapEntry) : List MapCall :=
  entries.flatMap fun e =>
    if directMapped e then
      rangeCalls ((e.base + hhdmOffset) % 2 ^ 64) e.base e.length (vmmPresent ||| vmmWriteable)
    else []

/-- The calls before them: the first 4 MiB and the kernel. -/
def lowCalls (kernel : KernelAddress) (entries : List MemmapEntry) : List MapCall :=
  rangeCalls 0x0 0x0 0x400000 (vmmPresent ||| vmmWriteable) ++
    rangeCalls kernel.virtualBase kernel.physicalBase (kernelSize entries)
      (vmmPresent ||| vmmWriteable)

def bootCalls (hhdmOffset : ℕ) (kernel : KernelAddress) (entries : List MemmapEntry) :
    List MapCall := lowCalls kernel entries ++ directCalls hhdmOffset entries

/-- No loop of `vmm_init` comes within a page of `2 ^ 64`. -/
structure BootEnds (entries : List MemmapEntry) : Prop where
  kernel : kernelSize entries + 4096 ≤ 2 ^ 64
  direct : ∀ e ∈ entries, directMapped e = true → e.length + 4096 ≤ 2 ^ 64

theorem foldlM_direct (hhdmOffset : ℕ) {entries : List MemmapEntry}
    (h : ∀ e ∈ entries, directMapped e = true → e.length + 4096 ≤ 2 ^ 64) (m : Machine) :
    entries.foldlM (fun m e =>
      if directMapped e then vmmMapRange m ((e.base + hhdmOffset) % 2 ^ 64) e.base e.length
        (vmmPresent ||| vmmWriteable)
      else some m) m = some (runCalls (directCalls hhdmOffset entries) m) := by
  induction entries generalizing m with
  | nil => rfl
  | cons e entries ih =>
    have hrest := ih fun e' he' => h e' (List.mem_cons_of_mem e he')
    rw [List.foldlM_cons, directCalls, List.flatMap_cons, runCalls_append]
    by_cases he : directMapped e = true
    · rw [if_pos he, if_pos he, vmmMapRange_eq m (h e List.mem_cons_self he)]
      exact hrest _
    · rw [if_neg he, if_neg he]
      exact hrest _

theorem vmmInit_eq (hhdmOffset : ℕ) (kernel : KernelAddress) {entries : List MemmapEntry}
    (h : BootEnds entries) (m : Machine) :
    vmmInit hhdmOffset kernel entries m =
      some (vmmInitSuccess, runCalls (bootCalls hhdmOffset kernel entries) (vmmPrepPml4 m)) := by
  simp only [vmmInit]
  rw [vmmMapRange_eq _ (by norm_num), Option.bind_eq_bind, Option.bind_some,
    vmmMapRange_eq _ h.kernel, Option.bind_some, foldlM_direct hhdmOffset h.direct, Option.bind_some,
    bootCalls, runCalls_append, lowCalls, runCalls_append]
  rfl

/-! ## What calls do to the bitmap -/

section Requests

variable {P : Machine → Prop}
  (hP : ∀ {m m' : Machine}, P m → m'.pmm = (pmmAlloc m.pmm).2 →
    (∀ t, .alloc t ∈ m'.log ↔ .alloc t ∈ m.log ∨ t = m.pmm) → P m')

include hP

/-- What a request for a frame keeps, the walk keeps. -/
theorem requests_descend (virtAddr : ℕ) (levels : List ℕ) {m : Machine} (h : P m) (table : ℕ) :
    P (descend virtAddr levels m table).1 := by
  induction levels generalizing m table with
  | nil => exact h
  | cons level levels ih =>
    apply ih
    by_cases habsent : m.entry table (tableIndex virtAddr level) &&& vmmPresent = 0
    · apply hP h
      · rw [ensureTable, if_pos habsent]
        rfl
      · intro t
        rw [ensureTable, if_pos habsent]
        simp [Machine.setEntry, Machine.clearFrame, Machine.note]
    · rw [ensureTable_of_present habsent]
      exact h

/-- Requests for frames are all that calls make of the bitmap and the log. -/
theorem requests_runCalls
    (hcongr : ∀ {m m' : Machine}, P m → m'.pmm = m.pmm → m'.log = m.log → P m')
    (calls : List MapCall) {m : Machine} (h : P m) : P (runCalls calls m) := by
  induction calls generalizing m with
  | nil => exact h
  | cons c calls ih =>
    rw [runCalls_cons]
    apply ih
    apply hcongr (requests_descend hP c.virtAddr c.levels h m.pml4Phys)
    · rw [exec_eq]
      rfl
    · rw [exec_eq]
      rfl

end Requests

theorem pmm_runCalls {P : PmmContext → Prop} (hP : ∀ s, P s → P (pmmAlloc s).2)
    (calls : List MapCall) {m : Machine} (h : P m.pmm) : P (runCalls calls m).pmm := by
  apply requests_runCalls (P := fun m => P m.pmm) _ _ calls h
  · intro m m' h hpmm _
    rw [hpmm]
    exact hP m.pmm h
  · intro m m' h hpmm _
    rw [hpmm]
    exact h

theorem log_runCalls (calls : List MapCall) (m : Machine) : m.log <+: (runCalls calls m).log := by
  induction calls generalizing m with
  | nil => exact List.prefix_rfl
  | cons c calls ih => exact (exec_log m c).trans (ih (c.exec m))

/-- The frames in use are those of `s` and frames of the bitmap that were free. -/
structure Taken (s s' : PmmContext) : Prop where
  totalFrames : s'.totalFrames = s.totalFrames
  bitmapSize : s'.bitmapSize = s.bitmapSize
  bitmapPhys : s'.bitmapPhys = s.bitmapPhys
  kept : ∀ f, s.used f = true → s'.used f = true
  taken : ∀ f, s'.used f = true → s.used f = true ∨ (f < s.totalFrames ∧ f < 8 * s.bitmapSize)

theorem Taken.refl (s : PmmContext) : Taken s s := ⟨rfl, rfl, rfl, fun _ h => h, fun _ h => .inl h⟩

theorem Taken.pmmAlloc {s s' : PmmContext} (h : Taken s s') : Taken s (Pmm.pmmAlloc s').2 := by
  refine ⟨?_, ?_, ?_, fun f hf => used_of_pmmAlloc (h.kept f hf), fun f hf => ?_⟩
  · rw [pmmAlloc_totalFrames, h.totalFrames]
  · rw [pmmAlloc_bitmapSize, h.bitmapSize]
  · rw [pmmAlloc_bitmapPhys, h.bitmapPhys]
  · rcases pmmAlloc_cases s' with ⟨g, hg, heq⟩ | ⟨-, heq⟩
    · rw [heq, used_claimFrame, Bool.or_eq_true, decide_eq_true_eq] at hf
      rcases hf with hf | rfl
      · exact h.taken f hf
      · exact .inr ⟨h.totalFrames ▸ hg.lt_total, h.bitmapSize ▸ hg.lt_size⟩
    · rw [heq] at hf
      exact h.taken f hf

/-! ## Pages of 4 KiB -/

/-- Every request for a frame so far found one. -/
def Machine.Answered (m : Machine) : Prop := ∀ s, .alloc s ∈ m.log → ∃ f, FirstFree s f

theorem Machine.Answered.of_prefix {m m' : Machine} (h : m'.Answered) (hp : m.log <+: m'.log) :
    m.Answered := fun s hs => h s (hp.subset hs)

/-- The entries that lead to tables are writeable. -/
def Machine.LinksWriteable (m : Machine) : Prop :=
  ∀ q f i, q.length < 3 → m.table q = some f → m.mem f i &&& vmmPresent ≠ 0 →
    m.mem f i &&& vmmWriteable ≠ 0

/-- Only pages of 4 KiB are mapped, and frame 0 is in use. -/
structure Paged (m : Machine) : Prop where
  claimed : Claimed m
  noHuge : m.NoHuge
  zero : m.pmm.used 0 = true
  writeable : m.LinksWriteable

theorem length_path {c : MapCall} (h : c.huge = false) : c.path.length = 3 := by
  simp [MapCall.path, MapCall.levels, h]

/-- A call for a page of 4 KiB is orderly as long as its requests find frames. -/
theorem Paged.orderly {m : Machine} (h : Paged m) {c : MapCall} (hpage : c.huge = false)
    (hanswered : (c.exec m).Answered) : Orderly m c := by
  rw [exec_eq] at hanswered
  refine ⟨?_, fun hhuge => ?_⟩
  · apply regularWalk_of_asked (p := []) h.claimed rfl (levels_target c)
    · exact h.noHuge _ (length_path hpage).le
    · intro s hs hlog
      obtain ⟨f, hf⟩ := hanswered s hlog
      have hT := h.claimed.totalFrames_le
      have hlt := hf.lt_total
      rw [hs.totalFrames] at hlt
      have hne : f ≠ 0 := by
        intro h0
        have hzero := hs.used 0 h.zero
        rw [← h0, hf.free] at hzero
        exact Bool.false_ne_true hzero
      rw [pmmAlloc_of_firstFree hf, indexToPhysAddr_of_lt (by omega)]
      omega
  · rw [hpage] at hhuge
    exact absurd hhuge Bool.false_ne_true

/-! ## Writeable links -/

theorem linksWriteable_ensureTable {m : Machine} (h : m.LinksWriteable) (htree : m.Tree)
    {p : List (Fin 512)} {table : ℕ} {index : Fin 512}
    (hp : m.table p = some (physAddrToIndex table)) (hl : 3 - p.length ≠ 0)
    (hfresh : m.entry table index &&& vmmPresent = 0 → m.FreshFrame) :
    (ensureTable m table index).LinksWriteable := by
  by_cases habsent : m.entry table index &&& vmmPresent = 0
  · intro q f i hlen hq hpresent
    have hlink := tableLink_ensureTable htree hp hl habsent (hfresh habsent)
    have hne : physAddrToIndex table ≠ physAddrToIndex (pmmAlloc m.pmm).1 :=
      fun heq => (hfresh habsent).not_table ⟨p, heq ▸ hp⟩
    rw [mem_ensureTable habsent hne] at hpresent ⊢
    rw [Machine.table, Machine.root, ensureTable_pml4Phys] at hq
    by_cases hnew : f = physAddrToIndex (pmmAlloc m.pmm).1
    · -- the new table is blank
      rw [if_pos hnew] at hpresent
      exact absurd rfl hpresent
    · rw [if_neg hnew] at hpresent ⊢
      by_cases hslot : f = physAddrToIndex table ∧ i = index
      · rw [if_pos hslot]
        have halign := pmmAlloc_aligned m.pmm
        rw [show vmmWriteable = 2 ^ 1 from rfl, Nat.and_two_pow, Nat.testBit_eq_decide_div_mod_eq,
          decide_eq_true (by omega)]
        decide
      · rw [if_neg hslot] at hpresent ⊢
        rcases hlink.follow_cases hq with ⟨-, hg⟩ | hold
        · exact absurd hg hnew
        · exact h q f i hlen hold hpresent
  · rw [ensureTable_of_present habsent]
    exact h

theorem linksWriteable_descend {virtAddr : ℕ} {levels : List ℕ} {m : Machine} {table : ℕ}
    {p : List (Fin 512)} (h : m.LinksWriteable) (hwalk : Walk virtAddr levels m table p) :
    (descend virtAddr levels m table).1.LinksWriteable := by
  induction hwalk with
  | done htree hp => exact h
  | step htree hp hl hfresh hrest ih => exact ih (linksWriteable_ensureTable h htree hp hl hfresh)

/-- The leaf goes into a table that no link is in. -/
theorem linksWriteable_exec {m : Machine} (h : m.LinksWriteable) (htree : m.Tree) {c : MapCall}
    (hpage : c.huge = false) (hc : Orderly m c) : (c.exec m).LinksWriteable := by
  have hd := descended_of_orderly htree hc
  have hlinks := linksWriteable_descend h (walk_of_orderly htree hc)
  intro q f i hlen hq hpresent
  rw [exec_table htree hc] at hq
  have hother : ¬(f = physAddrToIndex (descend c.virtAddr c.levels m m.pml4Phys).2 ∧ i = c.index) := by
    intro hslot
    have hpath := hd.table
    rw [← hslot.1] at hpath
    have heq := hd.grown.tree q c.path f hq hpath
    rw [heq, length_path hpage] at hlen
    exact absurd hlen (lt_irrefl 3)
  rw [exec_eq, mem_setEntry, if_neg hother] at hpresent ⊢
  exact hlinks q f i hlen hq hpresent

/-! ## Runs of calls -/

theorem Paged.exec {m : Machine} (h : Paged m) {c : MapCall} (hpage : c.huge = false)
    (hc : Orderly m c) : Paged (c.exec m) := by
  have hm := mapped_of_orderly h.claimed.tree hc
  refine ⟨hm.claimed h.claimed, fun q hq => ?_, (hm.later h.claimed).used 0 h.zero,
    linksWriteable_exec h.writeable h.claimed.tree hpage hc⟩
  rw [hm.leaf_other]
  · exact h.noHuge q hq
  · intro hpre
    have hle := hpre.length_le
    rw [List.length_append, length_path hpage, List.length_singleton] at hle
    omega

/-- A run of calls for pages of 4 KiB whose requests find frames. -/
theorem Paged.runCalls {m : Machine} (h : Paged m) {calls : List MapCall}
    (hpages : ∀ c ∈ calls, c.huge = false) (hanswered : (runCalls calls m).Answered) :
    Paged (Vmm.runCalls calls m) ∧ Later m (Vmm.runCalls calls m) := by
  induction calls generalizing m with
  | nil => exact ⟨h, Later.refl m⟩
  | cons c calls ih =>
    have hc := h.orderly (hpages c List.mem_cons_self)
      (hanswered.of_prefix (log_runCalls calls (c.exec m)))
    have hm := mapped_of_orderly h.claimed.tree hc
    obtain ⟨hpaged, hlater⟩ := ih (h.exec (hpages c List.mem_cons_self) hc)
      (fun c' hc' => hpages c' (List.mem_cons_of_mem c hc')) hanswered
    exact ⟨hpaged, (hm.later h.claimed).trans hlater⟩

/-! ## The empty PML4 -/

/-- The machine when `vmm_init` is called; nothing is known of its memory. -/
def bootMachine (pmm : PmmContext) (mem : ℕ → Fin 512 → ℕ) : Machine where
  pmm := pmm
  mem := mem
  pml4Phys := 0
  nextVirtAddr := heapStart
  log := []

theorem vmmPrepPml4_log (m : Machine) :
    (vmmPrepPml4 m).log = m.log ++ [.alloc m.pmm, .zero (pmmAlloc m.pmm).1] := rfl

theorem emptyPml4_vmmPrepPml4 (m : Machine) : EmptyPml4 (vmmPrepPml4 m) := by
  intro i
  exact congrFun (Function.update_self (physAddrToIndex (pmmAlloc m.pmm).1) _ m.mem) i

/-- The tables before the first mapping: the PML4, in the first free frame. -/
structure Prepared (m : Machine) (f : ℕ) : Prop where
  firstFree : FirstFree m.pmm f
  pmm : (vmmPrepPml4 m).pmm = claimFrame m.pmm f
  isTable : ∀ g, (vmmPrepPml4 m).IsTable g ↔ g = f
  table : ∀ q, q ≠ [] → (vmmPrepPml4 m).table q = none
  paged : Paged (vmmPrepPml4 m)

theorem prepared_of_firstFree {m : Machine} {f : ℕ} (hf : FirstFree m.pmm f)
    (hT : m.pmm.totalFrames ≤ 2 ^ 40) : Prepared m f := by
  have hempty := emptyPml4_vmmPrepPml4 m
  have hblank : Blank paging (vmmPrepPml4 m).mem (vmmPrepPml4 m).root := blank_of_zero hempty
  have halloc := pmmAlloc_of_firstFree hf
  have hpmm : (vmmPrepPml4 m).pmm = claimFrame m.pmm f := congrArg Prod.snd halloc
  have hlt := hf.lt_total
  have hroot : (vmmPrepPml4 m).root = f := by
    have hphys : (vmmPrepPml4 m).pml4Phys = indexToPhysAddr f := congrArg Prod.fst halloc
    rw [Machine.root, hphys]
    exact physAddrToIndex_indexToPhysAddr (by omega)
  have htable : ∀ q, q ≠ [] → (vmmPrepPml4 m).table q = none := by
    intro q hq
    cases q with
    | nil => exact absurd rfl hq
    | cons i q => exact hblank.follow_cons 3 i q
  have hisTable : ∀ g, (vmmPrepPml4 m).IsTable g ↔ g = f := by
    intro g
    constructor
    · rintro ⟨q, hq⟩
      by_cases hnil : q = []
      · rw [hnil] at hq
        exact (Option.some.inj hq).symm.trans hroot
      · rw [htable q hnil] at hq
        exact absurd hq (by simp)
    · intro hg
      refine ⟨[], ?_⟩
      rw [hg, ← hroot]
      rfl
  refine ⟨hf, hpmm, hisTable, htable, ⟨tree_of_emptyPml4 hempty, fun g hg => ?_, ?_⟩, fun q _ => ?_,
    ?_, fun q g i _ hq hpresent => ?_⟩
  · rw [hpmm, used_claimFrame, (hisTable g).mp hg]
    simp
  · rw [hpmm, claimFrame_totalFrames]
    exact hT
  · exact hblank.find 3 q
  · rw [hpmm, used_claimFrame, Bool.or_eq_true, decide_eq_true_eq]
    rcases Nat.eq_zero_or_pos f with hzero | hpos
    · exact .inr hzero.symm
    · exact .inl (hf.first 0 hpos)
  · -- all entries of the PML4 are zero
    have hg := (hisTable g).mp ⟨q, hq⟩
    have hzero : (vmmPrepPml4 m).mem g i = 0 := by
      rw [hg, ← hroot]
      exact hempty i
    rw [hzero] at hpresent
    exact absurd rfl hpresent

theorem prepared_of_answered {m : Machine} (hT : m.pmm.totalFrames ≤ 2 ^ 40)
    (h : (vmmPrepPml4 m).Answered) : ∃ f, Prepared m f := by
  have hmem : .alloc m.pmm ∈ (vmmPrepPml4 m).log := by
    rw [vmmPrepPml4_log]
    exact List.mem_append_right _ List.mem_cons_self
  obtain ⟨f, hf⟩ := h m.pmm hmem
  exact ⟨f, prepared_of_firstFree hf hT⟩

/-! ## The tables of `vmm_init` -/

theorem huge_of_mem_rangeCalls {virtStart physStart size flags : ℕ} {c : MapCall}
    (h : c ∈ rangeCalls virtStart physStart size flags) : c.huge = false := by
  obtain ⟨k, -, rfl⟩ := List.mem_map.mp h
  rfl

theorem huge_of_mem_bootCalls {hhdmOffset : ℕ} {kernel : KernelAddress}
    {entries : List MemmapEntry} {c : MapCall} (h : c ∈ bootCalls hhdmOffset kernel entries) :
    c.huge = false := by
  rcases List.mem_append.mp h with hlow | hdirect
  · rcases List.mem_append.mp hlow with h | h
    · exact huge_of_mem_rangeCalls h
    · exact huge_of_mem_rangeCalls h
  · obtain ⟨e, -, he⟩ := List.mem_flatMap.mp hdirect
    split_ifs at he
    · exact huge_of_mem_rangeCalls he
    · exact absurd he List.not_mem_nil

end MathUnikernel.Vmm
