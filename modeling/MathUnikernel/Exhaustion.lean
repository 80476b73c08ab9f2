import MathUnikernel.Demands

/-!
# Memory exhaustion

`pmm_alloc` and `pmm_alloc_2mb` return 0 when they find nothing, and no caller in `vmm.c` tests for
it: the result 0 is linked, mapped and zero-filled like any other.
-/

namespace MathUnikernel.Vmm
open Pmm RadixTree FirstFit

/-! ## Pages mapped -/

/-- `m'` is `m` with the pages of `calls` mapped, all requests being served: in use are the frames
that were and those written, and memory in use other than the tables is as it was. -/
structure PagesMapped (m m' : Machine) (writes : List Write) (calls : List MapCall) : Prop where
  claimed : Claimed m'
  table : ∀ q f, m.table q = some f → m'.table q = some f
  paths : ∀ q, m'.hasTable q = true ↔ m.hasTable q = true ∨ ∃ c ∈ calls, q <+: c.path
  leaf : ∀ q, (∀ c ∈ calls, ¬c.path ++ [c.index] <+: q) → m'.leaf q = m.leaf q
  used : ∀ f, m'.pmm.used f = true ↔ m.pmm.used f = true ∨ ∃ w ∈ writes, w.frame = f
  data : ∀ f, m.Data f → m'.Data f ∧ m'.mem f = m.mem f
  bitmapSize : m'.pmm.bitmapSize = m.pmm.bitmapSize

theorem PagesMapped.refl {m : Machine} (h : Claimed m) : PagesMapped m m [] [] where
  claimed := h
  table q f hq := hq
  paths q := by simp
  leaf q _ := rfl
  used f := by simp
  data f hf := ⟨hf, rfl⟩
  bitmapSize := rfl

theorem PagesMapped.trans {m m' m'' : Machine} {writes writes' : List Write}
    {calls calls' : List MapCall} (h : PagesMapped m m' writes calls)
    (h' : PagesMapped m' m'' writes' calls') :
    PagesMapped m m'' (writes ++ writes') (calls ++ calls') where
  claimed := h'.claimed
  table q f hq := h'.table q f (h.table q f hq)
  paths q := by
    rw [h'.paths, h.paths, or_assoc]
    simp only [List.mem_append, or_and_right, exists_or]
  leaf q hq := by
    rw [h'.leaf q fun c hc => hq c (List.mem_append_right _ hc),
      h.leaf q fun c hc => hq c (List.mem_append_left _ hc)]
  used f := by
    rw [h'.used, h.used, or_assoc]
    simp only [List.mem_append, or_and_right, exists_or]
  data f hf := by
    obtain ⟨hdata, hmem⟩ := h.data f hf
    obtain ⟨hdata', hmem'⟩ := h'.data f hdata
    exact ⟨hdata', hmem'.trans hmem⟩
  bitmapSize := h'.bitmapSize.trans h.bitmapSize

/-- Calls for the same size have paths of the same length. -/
theorem length_path_eq {c c' : MapCall} (h : c.huge = c'.huge) : c.path.length = c'.path.length := by
  simp only [MapCall.path, MapCall.levels, List.length_map, h]

/-- A page that fits does so after other pages of its size were mapped. -/
theorem PagesMapped.fits {m m' : Machine} {writes : List Write} {calls : List MapCall}
    (h : PagesMapped m m' writes calls) {c : MapCall} (hsize : ∀ c' ∈ calls, c'.huge = c.huge)
    (hc : c.Fits m) : c.Fits m' := by
  refine ⟨(h.leaf _ fun c' hc' hpre => ?_).trans hc.above, ?_⟩
  · have hlen := hpre.length_le
    rw [List.length_append, List.length_singleton, length_path_eq (hsize c' hc')] at hlen
    omega
  · cases hslot : m'.table (c.path ++ [c.index]) with
    | none => rfl
    | some f =>
      rcases (h.paths _).mp (hasTable_iff.mpr ⟨f, hslot⟩) with hold | ⟨c', hc', hpre⟩
      · obtain ⟨g, hg⟩ := hasTable_iff.mp hold
        exact absurd (hc.slot.symm.trans hg) (by simp)
      · have hlen := hpre.length_le
        rw [List.length_append, List.length_singleton, length_path_eq (hsize c' hc')] at hlen
        omega

/-! ## One call -/

/-- A new table was written. -/
theorem written_of_ensureTable {m : Machine} (htree : m.Tree) {p : List (Fin 512)} {table : ℕ}
    {index : Fin 512} (hp : m.table p = some (physAddrToIndex table)) (hl : 3 - p.length ≠ 0)
    (hfresh : m.entry table index &&& vmmPresent = 0 → m.FreshFrame) {f : ℕ}
    (hf : (ensureTable m table index).IsTable f) :
    m.IsTable f ∨ ∃ w ∈ ensureTableWrites m table index, w.frame = f := by
  by_cases habsent : m.entry table index &&& vmmPresent = 0
  · have hlink := tableLink_ensureTable htree hp hl habsent (hfresh habsent)
    obtain ⟨q, hq⟩ := hf
    rw [Machine.table, ensureTable_root] at hq
    rcases hlink.follow_cases hq with ⟨-, rfl⟩ | hold
    · refine .inr ⟨.clear (pmmAlloc m.pmm).1, ?_, rfl⟩
      rw [ensureTableWrites, if_pos habsent]
      exact List.mem_cons_self
    · exact .inl ⟨q, hold⟩
  · rw [ensureTable_of_present habsent] at hf
    exact .inl hf

theorem written_of_descend {virtAddr : ℕ} {levels : List ℕ} {m : Machine} {table : ℕ}
    {p : List (Fin 512)} (hwalk : Walk virtAddr levels m table p) {f : ℕ}
    (hf : (descend virtAddr levels m table).1.IsTable f) :
    m.IsTable f ∨ ∃ w ∈ descendWrites virtAddr levels m table, w.frame = f := by
  induction hwalk with
  | done htree hp => exact .inl hf
  | step htree hp hl hfresh hwalk hrest =>
    rcases hrest hf with hold | ⟨w, hw, rfl⟩
    · rcases written_of_ensureTable htree hp hl hfresh hold with hold | ⟨w, hw, rfl⟩
      · exact .inl hold
      · exact .inr ⟨w, List.mem_append_left _ hw, rfl⟩
    · exact .inr ⟨w, List.mem_append_right _ hw, rfl⟩

/-- An orderly call. -/
theorem pagesMapped_exec {m : Machine} (hm : Claimed m) {c : MapCall} (hc : Orderly m c) :
    PagesMapped m (c.exec m) (c.writes m) [c] := by
  have hmapped := mapped_of_orderly hm.tree hc
  have hlater := hmapped.later hm
  have hT : m.pmm.totalFrames ≤ 2 ^ 52 := hm.totalFrames_le.trans (by norm_num)
  refine ⟨hmapped.claimed hm, hmapped.table, fun q => ?_, fun q hq => ?_, fun f => ?_, fun f hf => ?_,
    hmapped.bitmapSize⟩
  · simp only [hasTable_iff, List.mem_singleton, exists_eq_left]
    constructor
    · intro ⟨f, hf⟩
      exact (exec_table_cases hm.tree hc hf).imp_left fun hold => ⟨f, hold⟩
    · rintro (⟨f, hf⟩ | hpre)
      · exact ⟨f, hmapped.table q f hf⟩
      · obtain ⟨f, hf, -⟩ := hmapped.slot
        exact follow_prefix hpre hf
  · exact hmapped.leaf_other q (hq c List.mem_cons_self)
  · rw [hmapped.used hT]
    constructor
    · refine Or.imp_right fun ⟨⟨q, hq⟩, hnew⟩ => ?_
      rw [exec_table hm.tree hc] at hq
      rcases written_of_descend (walk_of_orderly hm.tree hc) ⟨q, hq⟩ with hold | ⟨w, hw, hframe⟩
      · exact absurd hold hnew
      · exact ⟨w, List.mem_append_left _ hw, hframe⟩
    · rintro (hused | ⟨w, hw, rfl⟩)
      · exact .inl hused
      · by_cases hold : m.IsTable w.frame
        · exact .inl (hm.used _ hold)
        · exact .inr ⟨(tableWritten_exec hm.tree hc).isTable w hw, hold⟩
  · exact ⟨hlater.data hf, hmapped.rest f (hlater.data hf).2⟩

/-! ## One page of the heap -/

/-- A page of the heap, wherever its frames will be. -/
def heapTarget (huge : Bool) (flags virtAddr : ℕ) : MapCall := ⟨huge, virtAddr, 0, flags⟩

theorem clearWrites_page {huge : Bool} {flags : ℕ} {m : Machine} (h : PageNext huge flags m) :
    clearWrites (mappedPage huge flags m) (mappedPage huge flags m).nextVirtAddr
        (pageSize huge / 4096) =
      (List.range (pageSize huge / 4096)).map fun i => .clear ((request huge m.pmm).1 + 4096 * i) := by
  apply clearWrites_eq
  · intro i hi
    exact ⟨_, h.fill_walk hi⟩
  · intro i hi
    exact (h.data_new (mem_pageFrames_iff.mpr ⟨i, hi, rfl⟩)).2

/-- The frames of the fill are those of the page. -/
theorem exists_clear_iff {huge : Bool} {physAddr f : ℕ} :
    (∃ w, (∃ i < pageSize huge / 4096, Write.clear (physAddr + 4096 * i) = w) ∧ w.frame = f) ↔
      f ∈ pageFrames huge physAddr := by
  rw [mem_pageFrames_iff]
  constructor
  · rintro ⟨_, ⟨i, hi, rfl⟩, hf⟩
    exact ⟨i, hi, hf⟩
  · rintro ⟨i, hi, hf⟩
    exact ⟨_, ⟨i, hi, rfl⟩, hf⟩

theorem PageNext.pagesMapped {huge : Bool} {flags : ℕ} {m : Machine} (h : PageNext huge flags m) :
    PagesMapped m (pageStep huge flags m) (pageWrites huge flags m)
      [heapTarget huge flags m.nextVirtAddr] := by
  have hclaimed := h.given.claimed h.claimed
  have hcall := pagesMapped_exec hclaimed h.regular.orderly
  have hbetween := h.between
  refine ⟨⟨hbetween.tree hcall.claimed.tree, fun f hf => ?_, ?_⟩, fun q f hq => ?_, fun q => ?_,
    fun q hq => ?_, fun f => ?_, fun f hf => ?_, ?_⟩
  · rw [h.pmm_eq]
    exact hcall.claimed.used f ((hbetween.isTable f).mp hf)
  · rw [h.pmm_eq]
    exact hcall.claimed.totalFrames_le
  · rw [hbetween.table]
    exact hcall.table q f hq
  · have hpaths := hcall.paths q
    simp only [List.mem_singleton, exists_eq_left] at hpaths ⊢
    rw [hasTable_iff, hbetween.table, ← hasTable_iff]
    exact hpaths
  · rw [hbetween.leaf]
    refine hcall.leaf q fun c hc => ?_
    rw [List.mem_singleton.mp hc]
    exact hq (heapTarget huge flags m.nextVirtAddr) List.mem_cons_self
  · rw [h.pmm_eq]
    refine (hcall.used f).trans ?_
    rw [show (withPage huge m).pmm = (request huge m.pmm).2 from rfl, h.given.used, pageWrites,
      clearWrites_page h]
    simp only [List.mem_append, or_and_right, exists_or, List.mem_map, List.mem_range]
    rw [exists_clear_iff, or_assoc]
    exact or_congr_right or_comm
  · have hold : (withPage huge m).Data f := ⟨(h.given.used f).mpr (.inl hf.1), hf.2⟩
    obtain ⟨hdata, hmem⟩ := hcall.data f hold
    refine ⟨⟨h.pmm_eq ▸ hdata.1, fun htable => hdata.2 ((hbetween.isTable f).mp htable)⟩, ?_⟩
    rw [pageStep_eq]
    refine (h.cleared.rest f fun i hi pa fl hwalk hframe => ?_).trans hmem
    rw [h.fill_walk hi] at hwalk
    obtain ⟨rfl, -⟩ := Prod.mk.inj (Option.some.inj hwalk)
    -- its frames were free
    have hfree := h.given.free _ (mem_pageFrames_iff.mpr ⟨i, hi, hframe⟩)
    exact Bool.false_ne_true (hfree.symm.trans hf.1)
  · rw [h.pmm_eq]
    refine hcall.bitmapSize.trans ?_
    cases huge
    · exact pmmAlloc_bitmapSize m.pmm
    · exact pmmAlloc2mb_bitmapSize m.pmm

theorem PageNext.card_freePages_lt {huge : Bool} {flags : ℕ} {m : Machine}
    (h : PageNext huge flags m) (hlow : LowBlocks huge m.pmm) (hne : (request huge m.pmm).1 ≠ 0) :
    (freePages huge (pageStep huge flags m).pmm).card < (freePages huge m.pmm).card := by
  have hmapped := h.pagesMapped
  refine Vmm.card_freePages_lt hmapped.bitmapSize (fun f hf => (hmapped.used f).mpr (.inl hf))
    (mem_freePages_of_ne_zero h.claimed.totalFrames_le hlow hne) ((hmapped.used _).mpr (.inr ?_))
  have haligned := h.given.aligned
  have hframe : (request huge m.pmm).1 / pageSize huge * (pageSize huge / 4096) ∈
      pageFrames huge (request huge m.pmm).1 := by
    cases huge
    · simp only [pageFrames, pageSize, Bool.false_eq_true, if_false, Set.mem_ofPred_eq] at haligned ⊢
      omega
    · simp only [pageFrames, pageSize, if_true, Set.mem_ofPred_eq] at haligned ⊢
      omega
  obtain ⟨w, ⟨i, hi, rfl⟩, hw⟩ := exists_clear_iff.mpr hframe
  refine ⟨_, List.mem_append_right _ ?_, hw⟩
  rw [clearWrites_page h]
  exact List.mem_map.mpr ⟨i, List.mem_range.mpr hi, rfl⟩

/-- A page, if it is given frames, can be put at the cursor. -/
structure PageFits (huge : Bool) (flags : ℕ) (m : Machine) : Prop where
  claimed : Claimed m
  low : LowBlocks huge m.pmm
  fits : (request huge m.pmm).1 ≠ 0 → (heapTarget huge flags m.nextVirtAddr).Fits m
  flags_addr : flags &&& vmmAddrMask = 0
  flags_lt : flags < 2 ^ 64
  aligned : m.nextVirtAddr % pageSize huge = 0
  lt : m.nextVirtAddr < 2 ^ 64

namespace PageFits

variable {huge : Bool} {flags : ℕ} {m : Machine} (h : PageFits huge flags m)
include h

theorem given (hne : (request huge m.pmm).1 ≠ 0) : Given huge m.pmm :=
  given_of_ne_zero h.claimed.totalFrames_le h.low hne

theorem fits_withPage (hne : (request huge m.pmm).1 ≠ 0) :
    (pageCall huge flags m).Fits (withPage huge m) := ⟨(h.fits hne).above, (h.fits hne).slot⟩

/-- The entry of a page whose request returned 0. -/
theorem null_mem (hzero : (request huge m.pmm).1 = 0) : ∃ w ∈ pageWrites huge flags m, w.Null := by
  have hentry : (pageCall huge flags m).newEntry &&& vmmPresent ≠ 0 ∧
      vmmGetAddr (pageCall huge flags m).newEntry = 0 := by
    have hflags : vmmGetAddr flags = 0 := h.flags_addr
    have haddr : ∀ a b : ℕ, vmmGetAddr (a ||| b) = vmmGetAddr a ||| vmmGetAddr b :=
      fun a b => Nat.and_or_distrib_right a b vmmAddrMask
    have hmask : vmmGetAddr (0 &&& vmmAddrMask) = 0 := by decide
    have hpresent : vmmGetAddr vmmPresent = 0 := by decide
    have hhuge : vmmGetAddr vmmHuge = 0 := by decide
    have hodd : ∀ a : ℕ, (a ||| vmmPresent) &&& vmmPresent ≠ 0 := fun a => by
      rw [and_vmmPresent, or_vmmPresent_odd]
      exact one_ne_zero
    unfold MapCall.newEntry pageCall
    rw [hzero]
    split_ifs
    · refine ⟨?_, ?_⟩
      · rw [Nat.or_right_comm]
        exact hodd _
      · rw [haddr, haddr, haddr, hmask, hflags, hpresent, hhuge]
        rfl
    · refine ⟨hodd _, ?_⟩
      rw [haddr, haddr, hmask, hflags, hpresent]
      rfl
  refine ⟨_, List.mem_append_left _ (List.mem_append_right _ List.mem_cons_self), hentry⟩

/-- The page is added if its request is answered and its walk links no frame 0. -/
theorem next (hne : (request huge m.pmm).1 ≠ 0)
    (hnull : ∀ w ∈ descendWrites (pageCall huge flags m).virtAddr (pageCall huge flags m).levels
      (withPage huge m) (withPage huge m).pml4Phys, ¬w.Null) : PageNext huge flags m := by
  have hgiven := h.given hne
  have horderly := (h.fits_withPage hne).orderly_of_not_null (hgiven.claimed h.claimed) hnull
  refine ⟨h.claimed, hgiven, ⟨horderly.walk, hgiven.lt, fun hhuge => ?_, h.flags_addr, h.flags_lt,
    horderly.slot⟩, h.aligned, h.lt⟩
  obtain rfl : huge = true := hhuge
  exact hgiven.aligned

/-- A page's stores use no result 0 exactly if its requests are served. -/
theorem provides_iff {requests : List Request} :
    ((∀ w ∈ pageWrites huge flags m, ¬w.Null) ∧ Provides (pageStep huge flags m).pmm requests) ↔
      Provides m.pmm (pageRequest huge ::
        (List.replicate (missing m.hasTable [] (heapTarget huge flags m.nextVirtAddr).path) .one ++
          requests)) := by
  rw [provides_page_iff h.claimed.totalFrames_le h.low]
  by_cases hne : (request huge m.pmm).1 = 0
  · obtain ⟨w, hw, hnull⟩ := h.null_mem hne
    exact iff_of_false (fun hsafe => hsafe.1 w hw hnull) fun hserved => hserved.1 hne
  · rw [and_iff_right hne]
    have hwalk := @MapCall.Fits.provides_iff _ _ (h.fits_withPage hne) ((h.given hne).claimed h.claimed)
      requests
    refine Iff.trans ?_ hwalk
    constructor
    · rintro ⟨hnull, hrest⟩
      have hdescend := fun w hw => hnull w (List.mem_append_left _ (List.mem_append_left _ hw))
      rw [(h.next hne hdescend).pmm_eq] at hrest
      exact ⟨hdescend, hrest⟩
    · rintro ⟨hdescend, hrest⟩
      have hnext := h.next hne hdescend
      have hlt := hnext.given.lt
      have haligned := hnext.given.aligned
      have h4096 : (request huge m.pmm).1 % 4096 = 0 := by
        cases huge
        · exact haligned
        · simp only [pageSize, if_true] at haligned
          omega
      refine ⟨fun w hw => ?_, hnext.pmm_eq ▸ hrest⟩
      rw [pageWrites, clearWrites_page hnext, MapCall.writes] at hw
      rcases List.mem_append.mp hw with hw | hw
      · rcases List.mem_append.mp hw with hw | hw
        · exact hdescend w hw
        · rw [List.mem_singleton.mp hw]
          rintro ⟨-, hnull⟩
          rw [(leafEntry_newEntry hnext.regular).getAddr] at hnull
          have hphys : (pageCall huge flags m).physAddr = (request huge m.pmm).1 := rfl
          omega
      · obtain ⟨i, -, rfl⟩ := List.mem_map.mp hw
        intro hnull
        have hnull : ((request huge m.pmm).1 + 4096 * i) / 4096 = 0 := hnull
        omega

theorem ne_zero_of_not_null (hnull : ∀ w ∈ pageWrites huge flags m, ¬w.Null) :
    (request huge m.pmm).1 ≠ 0 := by
  intro hzero
  obtain ⟨w, hw, hwnull⟩ := h.null_mem hzero
  exact hnull w hw hwnull

theorem next_of_not_null (hnull : ∀ w ∈ pageWrites huge flags m, ¬w.Null) :
    PageNext huge flags m := by
  apply h.next (h.ne_zero_of_not_null hnull)
  intro w hw
  exact hnull w (List.mem_append_left _ (List.mem_append_left _ hw))

end PageFits

/-! ## The loops -/

/-- The pages of a loop that starts at `virtAddr`. -/
def loopTargets (huge : Bool) (flags : ℕ) : ℕ → ℕ → List MapCall
  | 0, _ => []
  | n + 1, virtAddr =>
    heapTarget huge flags virtAddr :: loopTargets huge flags n ((virtAddr + pageSize huge) % 2 ^ 64)

theorem huge_of_mem_loopTargets {huge : Bool} {flags n virtAddr : ℕ} {c : MapCall}
    (hc : c ∈ loopTargets huge flags n virtAddr) : c.huge = huge := by
  induction n generalizing virtAddr with
  | zero => exact absurd hc List.not_mem_nil
  | succ n ih =>
    rcases List.mem_cons.mp hc with rfl | hc
    · rfl
    · exact ih hc

theorem loopTargets_subset {huge : Bool} {flags k n virtAddr : ℕ} (h : k ≤ n) {c : MapCall}
    (hc : c ∈ loopTargets huge flags k virtAddr) : c ∈ loopTargets huge flags n virtAddr := by
  induction k generalizing n virtAddr with
  | zero => exact absurd hc List.not_mem_nil
  | succ k ih =>
    obtain ⟨n, rfl⟩ := Nat.exists_eq_succ_of_ne_zero (Nat.ne_zero_of_lt h)
    rcases List.mem_cons.mp hc with rfl | hc
    · exact List.mem_cons_self
    · exact List.mem_cons_of_mem _ (ih (Nat.le_of_succ_le_succ h) hc)

/-- What pages of the heap ask for, one after the other, where `has` tells which tables are there: a
frame or a block, and a frame for each table on the way that is missing and not on the way of a page
before. -/
def heapDemand (has : List (Fin 512) → Bool) : List MapCall → List Request
  | [] => []
  | c :: calls =>
    pageRequest c.huge :: (List.replicate (missing has [] c.path) .one ++
      heapDemand (fun q => has q || decide (q <+: c.path)) calls)

theorem missing_le (has : List (Fin 512) → Bool) (p path : List (Fin 512)) :
    missing has p path ≤ path.length := by
  induction path generalizing p with
  | nil => exact le_rfl
  | cons i path ih =>
    have hrest := ih (p ++ [i])
    rw [missing, List.length_cons]
    split_ifs <;> omega

/-- Pages of 4 KiB ask for frames alone, at most four each. -/
theorem exists_heapDemand_eq {has : List (Fin 512) → Bool} {calls : List MapCall}
    (hpages : ∀ c ∈ calls, c.huge = false) :
    ∃ n ≤ 4 * calls.length, heapDemand has calls = List.replicate n .one := by
  induction calls generalizing has with
  | nil => exact ⟨0, le_rfl, rfl⟩
  | cons c calls ih =>
    have hpage := hpages c List.mem_cons_self
    obtain ⟨n, hn, hrest⟩ := @ih (fun q => has q || decide (q <+: c.path)) fun c' hc' =>
      hpages c' (List.mem_cons_of_mem c hc')
    have hlen : c.path.length = 3 := by
      rw [MapCall.path, MapCall.levels, hpage]
      rfl
    have hle := missing_le has [] c.path
    rw [hlen] at hle
    refine ⟨missing has [] c.path + n + 1, ?_, ?_⟩
    · rw [List.length_cons]
      omega
    · rw [heapDemand, hrest, List.replicate_append_replicate, List.replicate_succ, hpage]
      rfl

/-- The pages of a loop, as many as are free, can be put where the cursor comes by. -/
structure LoopFits (huge : Bool) (flags n : ℕ) (m : Machine) : Prop where
  claimed : Claimed m
  low : LowBlocks huge m.pmm
  fits : ∀ c ∈ loopTargets huge flags (min n (freePages huge m.pmm).card) m.nextVirtAddr, c.Fits m
  flags_addr : flags &&& vmmAddrMask = 0
  flags_lt : flags < 2 ^ 64
  aligned : m.nextVirtAddr % pageSize huge = 0
  lt : m.nextVirtAddr < 2 ^ 64

namespace LoopFits

variable {huge : Bool} {flags n : ℕ} {m : Machine}

theorem page (h : LoopFits huge flags (n + 1) m) : PageFits huge flags m := by
  refine ⟨h.claimed, h.low, fun hne => ?_, h.flags_addr, h.flags_lt, h.aligned, h.lt⟩
  have hfree := mem_freePages_of_ne_zero h.claimed.totalFrames_le h.low hne
  have hpos := Finset.card_pos.mpr ⟨_, hfree⟩
  apply h.fits
  apply loopTargets_subset (show 1 ≤ _ by omega)
  exact List.mem_cons_self

/-- After a page the others still can. -/
theorem tail (h : LoopFits huge flags (n + 1) m) (hne : (request huge m.pmm).1 ≠ 0)
    (hnext : PageNext huge flags m) : LoopFits huge flags n (pageStep huge flags m) := by
  have hmapped := hnext.pagesMapped
  have hfree := hnext.card_freePages_lt h.low hne
  refine ⟨hmapped.claimed, h.low.mono hmapped.bitmapSize fun f hf => (hmapped.used f).mpr (.inl hf),
    fun c hc => ?_, h.flags_addr, h.flags_lt, ?_, ?_⟩
  · rw [hnext.nextVirtAddr] at hc
    have hmem : c ∈ loopTargets huge flags (min (n + 1) (freePages huge m.pmm).card)
        m.nextVirtAddr := by
      apply loopTargets_subset
        (show min n (freePages huge (pageStep huge flags m).pmm).card + 1 ≤ _ by omega)
      exact List.mem_cons_of_mem _ hc
    refine hmapped.fits (fun c' hc' => ?_) (h.fits c hmem)
    rw [List.mem_singleton.mp hc', huge_of_mem_loopTargets hc]
    rfl
  · have haligned := h.aligned
    rw [hnext.nextVirtAddr]
    cases huge
    · simp only [pageSize, Bool.false_eq_true, if_false] at haligned ⊢
      omega
    · simp only [pageSize, if_true] at haligned ⊢
      omega
  · rw [hnext.nextVirtAddr]
    exact Nat.mod_lt _ (by norm_num)

/-- Unless a result 0 is used, the loop maps its pages. -/
theorem pagesMapped (h : LoopFits huge flags n m)
    (hnull : ∀ w ∈ loopWrites huge flags n m, ¬w.Null) :
    PagesMapped m ((pageStep huge flags)^[n] m) (loopWrites huge flags n m)
      (loopTargets huge flags n m.nextVirtAddr) := by
  induction n generalizing m with
  | zero => exact PagesMapped.refl h.claimed
  | succ n ih =>
    rw [loopWrites, List.forall_mem_append] at hnull
    have hnext := h.page.next_of_not_null hnull.1
    have hrest := ih (h.tail (h.page.ne_zero_of_not_null hnull.1) hnext) hnull.2
    rw [hnext.nextVirtAddr] at hrest
    exact hnext.pagesMapped.trans hrest

/-- No result 0 is used exactly if the demands of the pages are served. -/
theorem provides_iff (h : LoopFits huge flags n m) {has : List (Fin 512) → Bool}
    (hhas : m.hasTable = has) :
    (∀ w ∈ loopWrites huge flags n m, ¬w.Null) ↔
      Provides m.pmm (heapDemand has (loopTargets huge flags n m.nextVirtAddr)) := by
  induction n generalizing m has with
  | zero => exact iff_of_true (fun w hw => absurd hw List.not_mem_nil) trivial
  | succ n ih =>
    subst hhas
    rw [loopTargets, heapDemand]
    refine Iff.trans ?_ h.page.provides_iff
    rw [loopWrites, List.forall_mem_append]
    apply and_congr_right
    intro hnull
    have hnext := h.page.next_of_not_null hnull
    have hpaths := hnext.pagesMapped.paths
    simp only [List.mem_singleton, exists_eq_left] at hpaths
    have hne := h.page.ne_zero_of_not_null hnull
    have hrest := ih (h.tail hne hnext) (funext fun q => (Bool.eq_iff_iff.mpr ((hpaths q).trans (by simp)) :
      _ = (m.hasTable q || decide (q <+: (heapTarget huge flags m.nextVirtAddr).path))))
    rw [hnext.nextVirtAddr] at hrest
    exact hrest

end LoopFits

/-! ## The calls that allocate -/

/-- A call of one of the map functions, of `vmm_alloc` or of `vmm_alloc_huge_page`. -/
inductive VmmCall
  | map (c : MapCall)
  | heap (r : HeapRequest)

/-- The address of the first page. -/
def HeapRequest.start (r : HeapRequest) (m : Machine) : ℕ :=
  if r.huge then (m.nextVirtAddr + 0x1fffff) % 2 ^ 64 &&& 0xffffffffffe00000 else m.nextVirtAddr

theorem HeapRequest.enter_eq (r : HeapRequest) (m : Machine) :
    r.enter m = { m with nextVirtAddr := r.start m } := by
  unfold HeapRequest.enter HeapRequest.exec HeapRequest.start
  split_ifs
  · rw [vmmAllocHugePage]
  · rw [vmmAlloc]

namespace VmmCall

def exec (m : Machine) : VmmCall → Machine
  | map c => c.exec m
  | heap r => (r.exec m).2

/-- The pages that the call maps, as far as they are known before it. -/
def targets (m : Machine) : VmmCall → List MapCall
  | map c => [c]
  | heap r => loopTargets r.huge r.flags r.rounds (r.start m)

/-- The stores of the call. -/
def writes (m : Machine) : VmmCall → List Write
  | map c => c.writes m
  | heap r => loopWrites r.huge r.flags r.rounds (r.enter m)

/-- The stores through addresses that come from the physical memory manager: the page of a map call
has its caller's. -/
def ownWrites (m : Machine) : VmmCall → List Write
  | map c => descendWrites c.virtAddr c.levels m m.pml4Phys
  | heap r => loopWrites r.huge r.flags r.rounds (r.enter m)

/-- What the call asks the physical memory manager for, from the tables before it. -/
def demand (m : Machine) : VmmCall → List Request
  | map c => List.replicate (missing m.hasTable [] c.path) .one
  | heap r => heapDemand m.hasTable (loopTargets r.huge r.flags r.rounds (r.start m))

/-- The memory after a call is the memory before it with the stores applied in order. -/
theorem mem_exec (c : VmmCall) (m : Machine) :
    (c.exec m).mem = (c.writes m).foldl Write.apply m.mem := by
  cases c with
  | map c => exact Vmm.mem_exec c m
  | heap r =>
    rw [exec, r.exec_rounds, mem_iterate_pageStep]
    rfl

end VmmCall

/-- The pages of the call, as many as are free, go where neither a larger page nor a page table is in
the way; those of the heap are writeable, lie at the cursor, and are given blocks below 64 TiB. -/
structure HeapRequest.Suits (r : HeapRequest) (m : Machine) : Prop where
  fits : ∀ c ∈ loopTargets r.huge r.flags (min r.rounds (freePages r.huge m.pmm).card) (r.start m),
    c.Fits m
  flags_addr : r.flags &&& vmmAddrMask = 0
  flags_lt : r.flags < 2 ^ 64
  writeable : r.flags &&& vmmWriteable ≠ 0
  cursor : m.nextVirtAddr % 4096 = 0
  cursor_lt : m.nextVirtAddr < 2 ^ 64
  low : LowBlocks r.huge m.pmm

def VmmCall.Suits (m : Machine) : VmmCall → Prop
  | map c => c.Fits m
  | heap r => r.Suits m

theorem exists_of_mem_loopTargets {huge : Bool} {flags n virtAddr : ℕ} {c : MapCall}
    (hc : c ∈ loopTargets huge flags n virtAddr) (hlt : virtAddr + n * pageSize huge ≤ 2 ^ 64) :
    ∃ i < n, c = heapTarget huge flags (virtAddr + i * pageSize huge) := by
  have hpos : 0 < pageSize huge := by cases huge <;> decide
  induction n generalizing virtAddr with
  | zero => exact absurd hc List.not_mem_nil
  | succ n ih =>
    rw [Nat.succ_mul] at hlt
    rcases List.mem_cons.mp hc with rfl | hc
    · exact ⟨0, Nat.succ_pos n, by rw [Nat.zero_mul, Nat.add_zero]⟩
    · cases n with
      | zero => exact absurd hc List.not_mem_nil
      | succ n =>
        rw [Nat.succ_mul] at hlt
        rw [Nat.mod_eq_of_lt (by omega)] at hc
        obtain ⟨i, hi, rfl⟩ := ih hc (by rw [Nat.succ_mul]; omega)
        refine ⟨i + 1, Nat.succ_lt_succ hi, ?_⟩
        rw [Nat.succ_mul, Nat.add_assoc, Nat.add_comm (pageSize huge)]

/-- In the states that runs of the two allocators reach, a request suits whose pages, as many as are
free, have room on the heap. -/
theorem Mixed.suits {m : Machine} {top : ℕ} {pages : List HeapPage} (h : Mixed m top pages)
    (htop : top < heapLimit) {r : HeapRequest} (hflags : r.flags &&& vmmAddrMask = 0)
    (hlt : r.flags < 2 ^ 64) (hwriteable : r.flags &&& vmmWriteable ≠ 0)
    (hroom : r.start m + min r.rounds (freePages r.huge m.pmm).card * pageSize r.huge ≤ heapPage top)
    (hlow : LowBlocks r.huge m.pmm) : r.Suits m := by
  have hle := h.le_top
  have hpage := h.aligned
  unfold heapLimit at htop
  have htop64 : heapPage top + 0x1fffff < 2 ^ 64 := by
    simp only [heapPage, heapStart]
    omega
  obtain ⟨hlo, haligned⟩ : m.nextVirtAddr ≤ r.start m ∧ r.start m % pageSize r.huge = 0 := by
    unfold HeapRequest.start pageSize
    split_ifs
    · rw [align_up (by omega)]
      exact ⟨by omega, Nat.mul_mod_left _ _⟩
    · exact ⟨le_rfl, hpage⟩
  refine ⟨fun c hc => ?_, hflags, hlt, hwriteable, hpage, by omega, hlow⟩
  obtain ⟨i, hi, rfl⟩ := exists_of_mem_loopTargets hc (by omega)
  have hpos : 0 < pageSize r.huge := by unfold pageSize; split_ifs <;> omega
  have hlast := Nat.mul_le_mul_right (pageSize r.huge) hi
  rw [Nat.succ_mul] at hlast
  refine (h.adds (by omega) (by omega) ?_ r.flags).toFits
  rw [Nat.add_mul_mod_self_right]
  exact haligned

theorem HeapRequest.Suits.loopFits {r : HeapRequest} {m : Machine} (h : r.Suits m) (hm : Claimed m) :
    LoopFits r.huge r.flags r.rounds (r.enter m) := by
  rw [r.enter_eq]
  refine ⟨⟨hm.tree, hm.used, hm.totalFrames_le⟩, h.low, fun c hc => ?_, h.flags_addr, h.flags_lt, ?_, ?_⟩
  · have hfits := h.fits c hc
    exact ⟨hfits.above, hfits.slot⟩
  · change r.start m % pageSize r.huge = 0
    unfold HeapRequest.start pageSize
    split_ifs
    · rw [show (0xffffffffffe00000 : ℕ) = (2 ^ 43 - 1) <<< 21 from rfl, ByteBitmap.and_field]
      omega
    · exact h.cursor
  · change r.start m < 2 ^ 64
    unfold HeapRequest.start
    split_ifs
    · exact Nat.lt_of_le_of_lt Nat.and_le_right (by norm_num)
    · exact h.cursor_lt

/-- No result 0 becomes the address of a table or a page, and frame 0 is not cleared for one.  Memory
in use before, that of the bitmap among it, is as it was; in use are the frames that were and those
written; every table is still there and in use; and what the call does not map translates as before. -/
structure ExhaustionSafe (m : Machine) (c : VmmCall) : Prop where
  no_null : ∀ w ∈ c.ownWrites m, ¬w.Null
  data : ∀ f, m.Data f → (c.exec m).mem f = m.mem f
  used : ∀ f, (c.exec m).pmm.used f = true ↔ m.pmm.used f = true ∨ ∃ w ∈ c.writes m, w.frame = f
  claimed : Claimed (c.exec m)
  table : ∀ q f, m.table q = some f → (c.exec m).table q = some f
  walk : ∀ va, (∀ p ∈ c.targets m, ¬p.Covers va) → hwWalk (c.exec m) va = hwWalk m va

/-- A call that maps its pages leaves everything else in order. -/
theorem PagesMapped.exhaustionSafe {m : Machine} {c : VmmCall}
    (h : PagesMapped m (c.exec m) (c.writes m) (c.targets m)) (hnull : ∀ w ∈ c.ownWrites m, ¬w.Null) :
    ExhaustionSafe m c where
  no_null := hnull
  data f hf := (h.data f hf).2
  used := h.used
  claimed := h.claimed
  table := h.table
  walk va hva := by
    rw [hwWalk_eq, hwWalk_eq, h.leaf _ fun p hp hpre => hva p hp ((path_prefix_iff p va).mp hpre)]

/-- A call is safe against exhaustion exactly if the free frames before it serve what it demands. -/
theorem exhaustionSafe_iff {m : Machine} (hm : Claimed m) {c : VmmCall} (hc : c.Suits m) :
    ExhaustionSafe m c ↔ Provides m.pmm (c.demand m) := by
  cases c with
  | map c =>
    have hfits : c.Fits m := hc
    have hnil : Provides (c.exec m).pmm [] := trivial
    have hiff := @MapCall.Fits.provides_iff _ _ hfits hm []
    rw [List.append_nil, and_iff_left hnil] at hiff
    refine Iff.trans ⟨fun h => h.no_null, fun hnull => ?_⟩ hiff
    have horderly := hfits.orderly_of_not_null hm hnull
    exact @PagesMapped.exhaustionSafe m (.map c) (pagesMapped_exec hm horderly) hnull
  | heap r =>
    have hloop := HeapRequest.Suits.loopFits hc hm
    have hstart : (r.enter m).nextVirtAddr = r.start m := by rw [r.enter_eq]
    have htable : (r.enter m).hasTable = m.hasTable := rfl
    have hiff := hloop.provides_iff htable
    rw [hstart] at hiff
    refine Iff.trans ⟨fun h => h.no_null, fun hnull => ?_⟩ hiff
    have hmapped := hloop.pagesMapped hnull
    rw [hstart, ← r.exec_rounds] at hmapped
    -- entering the loop moves the cursor alone
    have hcall : PagesMapped m (r.exec m).2 (loopWrites r.huge r.flags r.rounds (r.enter m))
        (loopTargets r.huge r.flags r.rounds (r.start m)) :=
      ⟨hmapped.claimed, hmapped.table, hmapped.paths, hmapped.leaf, hmapped.used, hmapped.data,
        hmapped.bitmapSize⟩
    exact @PagesMapped.exhaustionSafe m (.heap r) hcall hnull

/-! ## A call with enough memory, and one without -/

theorem start_smallMachine (s : PmmContext) (n flags : ℕ) :
    (⟨true, n, flags⟩ : HeapRequest).start (smallMachine s) = heapStart := by
  change (heapStart + 0x1fffff) % 2 ^ 64 &&& 0xffffffffffe00000 = heapStart
  decide

theorem fits_smallMachine {s : PmmContext} (hempty : EmptyPml4 (smallMachine s)) :
    (heapTarget true 3 heapStart).Fits (smallMachine s) := by
  have hblank : Blank paging (smallMachine s).mem (smallMachine s).root := blank_of_zero hempty
  exact ⟨leaf_of_short _ le_rfl, hblank.follow_cons 3 _ _⟩

/-- A page of 2 MiB can go to the start of the heap. -/
theorem pageFits_smallMachine {s : PmmContext} (hempty : EmptyPml4 (smallMachine s))
    (hclaimed : Claimed (smallMachine s)) (hlow : LowBlocks true s) :
    PageFits true 3 (smallMachine s) :=
  ⟨hclaimed, hlow, fun _ => fits_smallMachine hempty, by decide, by decide,
    (by decide : heapStart % 0x200000 = 0), (by decide : heapStart < 2 ^ 64)⟩

theorem suits_smallMachine {s : PmmContext} (hempty : EmptyPml4 (smallMachine s))
    (hlow : LowBlocks true s) : (⟨true, 1, 3⟩ : HeapRequest).Suits (smallMachine s) := by
  refine ⟨fun c hc => ?_, by decide, by decide, by decide, (by decide : heapStart % 4096 = 0),
    (by decide : heapStart < 2 ^ 64), hlow⟩
  rw [start_smallMachine] at hc
  have hone := loopTargets_subset (min_le_left _ _) hc
  obtain rfl : c = heapTarget true 3 heapStart := List.mem_singleton.mp hone
  exact fits_smallMachine hempty

theorem FreeRange.provides {s : PmmContext} {lo hi n : ℕ} (h : FreeRange s lo hi) (hn : lo + n ≤ hi) :
    Provides s (List.replicate n .one) := by
  have hfinite : (freeBits s ∩ Set.Iio s.totalFrames).Finite :=
    (Set.finite_Iio _).subset Set.inter_subset_right
  have hsub : Set.Ico lo hi ⊆ freeBits s ∩ Set.Iio s.totalFrames := by
    intro f ⟨hlo, hhi⟩
    exact ⟨⟨hhi.trans_le h.le_size, h.free f hlo hhi⟩, hhi.trans_le h.le_total⟩
  have hcard := Set.ncard_le_ncard hsub hfinite
  rw [Set.ncard_eq_toFinset_card', Set.toFinset_Ico, Nat.card_Ico] at hcard
  refine (serves_replicate_iff n).mpr (.inr ⟨fun hzero => ?_, by omega⟩)
  have hused := h.below 0 h.pos
  exact Bool.false_ne_true (hzero.2.symm.trans hused)

/-- Where no table is there, all are missing. -/
theorem missing_of_none {has : List (Fin 512) → Bool} {p path : List (Fin 512)}
    (h : ∀ q, p.length < q.length → has q = false) : missing has p path = path.length := by
  induction path generalizing p with
  | nil => rfl
  | cons i path ih =>
    have hlen : p.length < (p ++ [i]).length := by simp
    rw [missing, h _ hlen, ih fun q hq => h q (hlen.trans hq), List.length_cons, Nat.add_comm]
    rfl

theorem hasTable_smallMachine {s : PmmContext} (hempty : EmptyPml4 (smallMachine s))
    {q : List (Fin 512)} (hq : 0 < q.length) : (smallMachine s).hasTable q = false := by
  have hblank : Blank paging (smallMachine s).mem (smallMachine s).root := blank_of_zero hempty
  cases q with
  | nil => exact absurd hq (lt_irrefl 0)
  | cons i q =>
    rw [Machine.hasTable, Machine.table, hblank.follow_cons]
    rfl

/-- The first page of the small machine takes a block and two tables. -/
theorem pageNext_smallMachine {s : PmmContext} (hrange : FreeRange s 512 1536)
    (hlow : LowBlocks true s) (htotal : s.totalFrames ≤ 2 ^ 40) :
    PageNext true 3 (smallMachine s) := by
  obtain ⟨hempty, hclaimed, hstocked⟩ := hrange.smallMachine (by omega) (by omega) htotal
  have hpage := pageFits_smallMachine hempty hclaimed hlow
  have hprovides : Provides s [.group, .one, .one] := by
    obtain ⟨-, hblock, hrest⟩ := @FreeRange.pmmAlloc2mb s 1 1536 hrange (by omega) (by omega)
    apply (provides_block_iff (hlow rfl)).mpr
    exact ⟨(hasBlock_iff s).mp hblock, @FreeRange.provides _ _ _ 2 hrest (by omega)⟩
  have hmissing : missing (smallMachine s).hasTable []
      (heapTarget true 3 (smallMachine s).nextVirtAddr).path = 2 :=
    missing_of_none fun q hq => hasTable_smallMachine hempty hq
  have hiff := @PageFits.provides_iff _ _ _ hpage []
  rw [hmissing] at hiff
  exact hpage.next_of_not_null (hiff.mpr hprovides).1

theorem loopTargets_twoPages {m : Machine} (hcursor : m.nextVirtAddr = heapStart + 0x200000) :
    loopTargets false 3 (⟨false, 2, 3⟩ : HeapRequest).rounds ((⟨false, 2, 3⟩ : HeapRequest).start m) =
      [heapTarget false 3 (heapStart + 0x200000), heapTarget false 3 (heapStart + 0x201000)] := by
  have hrounds : (⟨false, 2, 3⟩ : HeapRequest).rounds = 2 :=
    HeapRequest.rounds_eq fun _ => by norm_num
  have hstart : (⟨false, 2, 3⟩ : HeapRequest).start m = heapStart + 0x200000 := hcursor
  have hsecond : (heapStart + 0x200000 + pageSize false) % 2 ^ 64 = heapStart + 0x201000 := by decide
  rw [hrounds, hstart, loopTargets, loopTargets, loopTargets, hsecond]

/-- Two pages of 4 KiB fit behind the first page of 2 MiB. -/
theorem suits_twoPages {s : PmmContext} (hempty : EmptyPml4 (smallMachine s)) {m : Machine}
    {writes : List Write}
    (hmapped : PagesMapped (smallMachine s) m writes [heapTarget true 3 heapStart])
    (hcursor : m.nextVirtAddr = heapStart + 0x200000) : (⟨false, 2, 3⟩ : HeapRequest).Suits m := by
  refine ⟨fun c hc => ?_, by decide, by decide, by decide, ?_, ?_, fun h => absurd h (by decide)⟩
  · replace hc := loopTargets_subset (min_le_left _ _) hc
    rw [loopTargets_twoPages hcursor] at hc
    have habove : m.leaf c.path = none := by
      rw [hmapped.leaf]
      · have hblank : Blank paging (smallMachine s).mem (smallMachine s).root := blank_of_zero hempty
        exact hblank.find 3 c.path
      · intro c' hc'
        rw [List.mem_singleton.mp hc']
        rcases List.mem_pair.mp hc with rfl | rfl <;> decide
    refine ⟨habove, ?_⟩
    rcases List.mem_pair.mp hc with rfl | rfl
    · exact table_of_long m rfl _
    · exact table_of_long m rfl _
  · rw [hcursor]
    decide
  · rw [hcursor]
    decide

/-- On a machine with a page of 2 MiB on its heap there are frames for two pages of 4 KiB. -/
theorem exhaustionSafe_iff_twoBlocks : ∃ s m,
    pmmInit twoBlockMap (fun _ => 0) = some (pmmInitSuccess, s) ∧
    m = ((⟨true, 1, 3⟩ : HeapRequest).exec (smallMachine s)).2 ∧
    ExhaustionSafe m (.heap ⟨false, 2, 3⟩) := by
  obtain ⟨s, hs, hrange, htotal⟩ := freeRange_twoBlockMap
  obtain ⟨hempty, hclaimed, hstocked⟩ := hrange.smallMachine (by omega) (by omega) (by omega)
  have hlow : LowBlocks true s := fun _ b hb => by
    have hsize : s.bitmapSize = 192 := (pmmInit_sized hs).bitmapSize.trans (by decide)
    have hle := hb.le_size
    unfold heapPages
    omega
  have hnext := pageNext_smallMachine hrange hlow (by omega)
  have hmapped := hnext.pagesMapped
  have hexec : ((⟨true, 1, 3⟩ : HeapRequest).exec (smallMachine s)).2 =
      pageStep true 3 (smallMachine s) :=
    congrArg Prod.snd (@vmmAllocHugePage_eq (smallMachine s) 0 rfl (Nat.zero_le _) 1 3)
  obtain ⟨m, hm⟩ : ∃ m, m = pageStep true 3 (smallMachine s) := ⟨_, rfl⟩
  have hcursor : m.nextVirtAddr = heapStart + 0x200000 := by
    rw [hm, hnext.nextVirtAddr]
    exact (by decide : (heapStart + 0x200000) % 2 ^ 64 = heapStart + 0x200000)
  have hstock : Stocked m 8 := by
    obtain ⟨-, hblock, hrest⟩ := @FreeRange.pmmAlloc2mb s 1 1536 hrange (by omega) (by omega)
    rw [hm]
    refine Stocked.pageStep ⟨fun e he => ?_, 1024, 1536, hrest, by omega, fun f hf => absurd hf id⟩
    rw [List.mem_singleton.mp he]
    exact hblock
  obtain ⟨-, lo, hi, hfree, hle, -⟩ := hstock
  rw [← hm] at hmapped
  have hsuits : (VmmCall.heap ⟨false, 2, 3⟩).Suits m := suits_twoPages hempty hmapped hcursor
  refine ⟨s, m, hs, hm.trans hexec.symm, (exhaustionSafe_iff hmapped.claimed hsuits).mpr ?_⟩
  obtain ⟨n, hn, hdemand⟩ := @exists_heapDemand_eq m.hasTable
    (loopTargets false 3 (⟨false, 2, 3⟩ : HeapRequest).rounds ((⟨false, 2, 3⟩ : HeapRequest).start m))
    fun c hc => huge_of_mem_loopTargets hc
  rw [loopTargets_twoPages hcursor] at hn
  have hprovides : Provides m.pmm (List.replicate n .one) :=
    hfree.provides (hle.trans' (Nat.add_le_add_left hn lo))
  rw [← hdemand] at hprovides
  exact hprovides

/-- On the small machine, after one frame was taken no 2 MiB block is left.  A page allocated then
has physical address 0, and the walk of its address ends there. -/
theorem alloc_huge_maps_null : ∃ s₀ s : PmmContext,
    pmmInit smallMap (fun _ => 0) = some (pmmInitSuccess, s₀) ∧ s = (pmmAlloc s₀).2 ∧
    Claimed (smallMachine s) ∧ (VmmCall.heap ⟨true, 1, 3⟩).Suits (smallMachine s) ∧
    ¬ExhaustionSafe (smallMachine s) (.heap ⟨true, 1, 3⟩) ∧
    hwWalk (vmmMapVirtToPhysHugePage (smallMachine s) heapStart (pmmAlloc2mb s).1 3) heapStart =
      some (0, 0x83) := by
  obtain ⟨s₀, hs₀, hsize₀, htotal₀, hused₀⟩ := pmmInit_smallMap
  have hfirst : FirstFree s₀ 512 := by
    refine ⟨by omega, by omega, (hused₀ 512 (by omega)).mpr le_rfl, fun g hg => ?_⟩
    have hnot := mt (hused₀ g (by omega)).mp (by omega)
    simpa using hnot
  obtain ⟨s, hs⟩ : ∃ s, s = (pmmAlloc s₀).2 := ⟨_, rfl⟩
  rw [pmmAlloc_of_firstFree hfirst] at hs
  have hsize : s.bitmapSize = 128 := by simp [hs, hsize₀]
  have htotal : s.totalFrames = 1024 := by simp [hs, htotal₀]
  have hused : ∀ f < 1024, s.used f = false ↔ 513 ≤ f := by
    intro f hf
    rw [hs, used_claimFrame, Bool.or_eq_false_iff, hused₀ f hf, decide_eq_false_iff_not]
    omega
  have hnone : ∀ b, ¬FreeGroup s b := by
    intro b hb
    have hle := hb.le_size
    have hfree := hb.free (512 * b) le_rfl (by omega)
    have := (hused (512 * b) (by omega)).mp hfree
    omega
  have hzero : pmmAlloc2mb s = (0, s) := pmmAlloc2mb_of_none hnone
  obtain ⟨hempty, hclaimed, hstocked⟩ := smallMachine_facts hsize htotal hused (by omega) (by omega)
  have hpage := pageFits_smallMachine hempty hclaimed fun _ b hb => absurd hb (hnone b)
  have hsuits := suits_smallMachine hempty hpage.low
  refine ⟨s₀, s, hs₀, ?_, hclaimed, hsuits, fun hsafe => ?_, ?_⟩
  · rw [hs, pmmAlloc_of_firstFree hfirst]
  · have hentered : PageFits true 3 ((⟨true, 1, 3⟩ : HeapRequest).enter (smallMachine s)) :=
      (hsuits.loopFits hclaimed).page
    obtain ⟨w, hw, hnull⟩ := hentered.null_mem (congrArg Prod.fst hzero : (pmmAlloc2mb s).1 = 0)
    exact hsafe.no_null w (List.mem_append_left _ hw) hnull
  · have hreg := regular_firstPage hempty hclaimed (hstocked.mono (by omega))
      (show 0 < 2 ^ 52 by norm_num) rfl
    have hwalk := congrFun (hwWalk_exec hclaimed.tree hreg) heapStart
    rw [hzero]
    exact hwalk

end MathUnikernel.Vmm
