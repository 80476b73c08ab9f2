import MathUnikernel.Library.FirstFit
import MathUnikernel.MapWrites
import MathUnikernel.SharedHeap

/-!
# What a call asks of the physical memory manager

The requests of a call and whether they can be served follow from the tables and the bitmap before
it.
-/

namespace MathUnikernel.Vmm
open Pmm RadixTree FirstFit

/-! ## Free frames -/

/-- The frames whose bits are clear. -/
def freeBits (s : PmmContext) : Set ℕ := {f | f < 8 * s.bitmapSize ∧ s.used f = false}

theorem firstFree_iff {s : PmmContext} {f : ℕ} :
    FirstFree s f ↔ IsLeast (freeBits s) f ∧ f < s.totalFrames := by
  constructor
  · intro h
    refine ⟨⟨⟨h.lt_size, h.free⟩, fun g hg => ?_⟩, h.lt_total⟩
    by_contra hlt
    have hused := h.first g (Nat.lt_of_not_le hlt)
    exact Bool.false_ne_true (hg.2.symm.trans hused)
  · intro ⟨⟨⟨hsize, hfree⟩, hleast⟩, htotal⟩
    refine ⟨htotal, hsize, hfree, fun g hg => ?_⟩
    by_contra hused
    exact absurd (hleast ⟨hg.trans hsize, Bool.eq_false_iff.mpr hused⟩) (Nat.not_le_of_gt hg)

theorem block_subset_freeBits_iff {s : PmmContext} {b : ℕ} :
    block b ⊆ freeBits s ↔ FreeGroup s b := by
  constructor
  · intro h
    have hlast : 512 * b + 511 < 8 * s.bitmapSize := (h ⟨by omega, by omega⟩).1
    exact ⟨by omega, fun f hlo hhi => (h ⟨hlo, hhi⟩).2⟩
  · intro h f ⟨hlo, hhi⟩
    have hsize := h.le_size
    exact ⟨by omega, h.free f hlo hhi⟩

/-- What a page of either size is requested as. -/
def pageRequest (huge : Bool) : Request := if huge then .group else .one

/-- All requests are served from the frames that are free in `s`. -/
def Provides (s : PmmContext) (requests : List Request) : Prop :=
  Serves block s.totalFrames requests (freeBits s)

/-- A request for a frame. -/
theorem provides_frame_iff {s : PmmContext} (hT : s.totalFrames ≤ 2 ^ 40) {requests : List Request} :
    Provides s (.one :: requests) ↔ (pmmAlloc s).1 ≠ 0 ∧ Provides (pmmAlloc s).2 requests := by
  rcases pmmAlloc_cases s with ⟨f, hf, halloc⟩ | ⟨hall, halloc⟩
  · have hlt := hf.lt_total
    have hfree : freeBits (claimFrame s f) = freeBits s \ {f} := by
      ext g
      simp only [freeBits, claimFrame_bitmapSize, used_claimFrame, Set.mem_sdiff, Set.mem_ofPred_eq,
        Bool.or_eq_false_iff, decide_eq_false_iff_not, Set.mem_singleton_iff, and_assoc]
    have hne : indexToPhysAddr f ≠ 0 ↔ 0 < f := by
      rw [indexToPhysAddr_of_lt (by omega)]
      omega
    rw [Provides, serves_one_iff (firstFree_iff.mp hf).1, halloc, hne, Provides, hfree,
      claimFrame_totalFrames]
    exact and_congr_right fun _ => and_iff_right hlt
  · rw [halloc]
    refine iff_of_false ?_ fun h => h.1 rfl
    rintro ⟨f, hf, -, hlt, -⟩
    have hfirst := firstFree_iff.mpr ⟨hf, hlt⟩
    have hused := hall f hlt hfirst.lt_size
    exact Bool.false_ne_true (hfirst.free.symm.trans hused)

/-- A request for a block, none being free above byte `2 ^ 31`. -/
theorem provides_block_iff {s : PmmContext} (hlow : ∀ b, FreeGroup s b → b < heapPages)
    {requests : List Request} : Provides s (.group :: requests) ↔
      (pmmAlloc2mb s).1 ≠ 0 ∧ Provides (pmmAlloc2mb s).2 requests := by
  rcases pmmAlloc2mb_cases s with ⟨b, hb, hfirst, halloc⟩ | ⟨hnone, halloc⟩
  · have hlt := hlow b hb
    unfold heapPages at hlt
    have hleast : IsLeast {b | block b ⊆ freeBits s} b := by
      refine ⟨block_subset_freeBits_iff.mpr hb, fun b' hb' => ?_⟩
      by_contra hlt'
      exact hfirst b' (Nat.lt_of_not_le hlt') (block_subset_freeBits_iff.mp hb')
    have hfree : freeBits (pmmAlloc2mb s).2 = freeBits s \ block b := by
      ext g
      simp only [freeBits, pmmAlloc2mb_bitmapSize, used_pmmAlloc2mb hb hfirst (by omega : 64 * b + 64 ≤ 2 ^ 31),
        Set.mem_sdiff, Set.mem_ofPred_eq, Bool.or_eq_false_iff, decide_eq_false_iff_not, block,
        and_assoc]
    have hne : (pmmAlloc2mb s).1 ≠ 0 ↔ 0 < b := by
      rw [halloc, indexToPhysAddr_of_lt (by omega)]
      omega
    rw [Provides, serves_group_iff hleast, hne, Provides, hfree, pmmAlloc2mb_totalFrames]
  · rw [halloc]
    refine iff_of_false ?_ fun h => h.1 rfl
    rintro ⟨b, hb, -, -⟩
    exact hnone b (block_subset_freeBits_iff.mp hb.1)

/-- The blocks that `vmm_alloc_huge_page` may be given lie below byte `2 ^ 31` of the bitmap. -/
def LowBlocks (huge : Bool) (s : PmmContext) : Prop :=
  huge = true → ∀ b, FreeGroup s b → b < heapPages

theorem provides_page_iff {huge : Bool} {s : PmmContext} (hT : s.totalFrames ≤ 2 ^ 40)
    (hlow : LowBlocks huge s) {requests : List Request} :
    Provides s (pageRequest huge :: requests) ↔
      (request huge s).1 ≠ 0 ∧ Provides (request huge s).2 requests := by
  cases huge with
  | false => exact provides_frame_iff hT
  | true => exact provides_block_iff (hlow rfl)

theorem given_of_ne_zero {huge : Bool} {s : PmmContext} (hT : s.totalFrames ≤ 2 ^ 40)
    (hlow : LowBlocks huge s) (hne : (request huge s).1 ≠ 0) : Given huge s := by
  cases huge with
  | false => exact given_frame ((hasFrame_iff s).mpr hne) hT
  | true =>
    have hserved := (hasBlock_iff s).mpr hne
    obtain ⟨b, hb, -, -⟩ := id hserved
    exact given_block hserved ⟨b, hlow rfl b hb, hb⟩

/-- Fewer frames are free later. -/
theorem LowBlocks.mono {huge : Bool} {s s' : PmmContext} (h : LowBlocks huge s)
    (hsize : s'.bitmapSize = s.bitmapSize) (hused : ∀ f, s.used f = true → s'.used f = true) :
    LowBlocks huge s' := by
  intro hhuge b hb
  refine h hhuge b ⟨hsize ▸ hb.le_size, fun f hlo hhi => ?_⟩
  exact free_of_kept (hused f) (hb.free f hlo hhi)

/-- The pages all of whose frames are free, by their number. -/
def freePages (huge : Bool) (s : PmmContext) : Finset ℕ :=
  (Finset.range (8 * s.bitmapSize)).filter fun p =>
    ∀ i < pageSize huge / 4096, s.used (p * (pageSize huge / 4096) + i) = false

/-- A page that is given was among them. -/
theorem mem_freePages_of_ne_zero {huge : Bool} {s : PmmContext} (hT : s.totalFrames ≤ 2 ^ 40)
    (hlow : LowBlocks huge s) (hne : (request huge s).1 ≠ 0) :
    (request huge s).1 / pageSize huge ∈ freePages huge s := by
  rw [freePages, Finset.mem_filter, Finset.mem_range]
  cases huge with
  | false =>
    rcases pmmAlloc_cases s with ⟨f, hf, halloc⟩ | ⟨-, halloc⟩
    · have hlt := hf.lt_total
      have hsize := hf.lt_size
      have hpage : (request false s).1 / pageSize false = f := by
        change (pmmAlloc s).1 / 4096 = f
        rw [halloc, indexToPhysAddr_of_lt (by omega)]
        omega
      rw [hpage]
      refine ⟨hsize, fun g hg => ?_⟩
      simp only [pageSize, Bool.false_eq_true, if_false] at hg ⊢
      rw [show f * (4096 / 4096) + g = f by omega]
      exact hf.free
    · exact absurd (congrArg Prod.fst halloc) hne
  | true =>
    rcases pmmAlloc2mb_cases s with ⟨b, hb, -, halloc⟩ | ⟨-, halloc⟩
    · have hlt := hlow rfl b hb
      have hsize := hb.le_size
      unfold heapPages at hlt
      have hpage : (request true s).1 / pageSize true = b := by
        change (pmmAlloc2mb s).1 / 0x200000 = b
        rw [halloc, indexToPhysAddr_of_lt (by omega)]
        omega
      rw [hpage]
      refine ⟨by omega, fun g hg => ?_⟩
      simp only [pageSize, if_true] at hg ⊢
      exact hb.free _ (by omega) (by omega)
    · exact absurd (congrArg Prod.fst halloc) hne

/-- When a page of them is taken, fewer are left. -/
theorem card_freePages_lt {huge : Bool} {s s' : PmmContext} (hsize : s'.bitmapSize = s.bitmapSize)
    (hused : ∀ f, s.used f = true → s'.used f = true) {p : ℕ} (hp : p ∈ freePages huge s)
    (htaken : s'.used (p * (pageSize huge / 4096)) = true) :
    (freePages huge s').card < (freePages huge s).card := by
  have hpos : 0 < pageSize huge / 4096 := by cases huge <;> decide
  apply Finset.card_lt_card
  refine Finset.ssubset_iff_subset_ne.mpr ⟨fun q hq => ?_, fun heq => ?_⟩
  · obtain ⟨hrange, hfree⟩ := Finset.mem_filter.mp hq
    refine Finset.mem_filter.mpr ⟨hsize ▸ hrange, fun i hi => ?_⟩
    exact free_of_kept (hused _) (hfree i hi)
  · rw [← heq] at hp
    have hfree := (Finset.mem_filter.mp hp).2 0 hpos
    exact Bool.false_ne_true (hfree.symm.trans htaken)

/-! ## Stores of the heap calls -/

/-- The frames that a zero-fill clears. -/
def clearWrites (m : Machine) (virtAddr : ℕ) : ℕ → List Write
  | 0 => []
  | pages + 1 =>
    clearWrites m virtAddr pages ++
      ((hwWalk (clearMapped m virtAddr pages) ((virtAddr + 4096 * pages) % 2 ^ 64)).map
        fun v => Write.clear v.1).toList

theorem mem_clearMapped_eq (m : Machine) (virtAddr pages : ℕ) :
    (clearMapped m virtAddr pages).mem =
      (clearWrites m virtAddr pages).foldl Write.apply m.mem := by
  induction pages with
  | zero =>
    unfold clearMapped
    rfl
  | succ pages ih =>
    rw [clearMapped_succ, clearWrites, List.foldl_append, ← ih]
    cases hwWalk (clearMapped m virtAddr pages) ((virtAddr + 4096 * pages) % 2 ^ 64) with
    | none => rfl
    | some v => rfl

/-- The stores of one page: its tables, its entry and the zero-fill. -/
def pageWrites (huge : Bool) (flags : ℕ) (m : Machine) : List Write :=
  (pageCall huge flags m).writes (withPage huge m) ++
    clearWrites (mappedPage huge flags m) (mappedPage huge flags m).nextVirtAddr (pageSize huge / 4096)

theorem mem_pageStep (huge : Bool) (flags : ℕ) (m : Machine) :
    (pageStep huge flags m).mem = (pageWrites huge flags m).foldl Write.apply m.mem := by
  have hmem : (pageStep huge flags m).mem = (clearedPage huge flags m).mem := by
    rw [pageStep_eq]
    rfl
  rw [hmem, clearedPage, mem_clearMapped_eq, pageWrites, List.foldl_append]
  congr 1
  exact mem_exec (pageCall huge flags m) (withPage huge m)

def loopWrites (huge : Bool) (flags : ℕ) : ℕ → Machine → List Write
  | 0, _ => []
  | n + 1, m => pageWrites huge flags m ++ loopWrites huge flags n (pageStep huge flags m)

theorem mem_iterate_pageStep (huge : Bool) (flags n : ℕ) (m : Machine) :
    ((pageStep huge flags)^[n] m).mem = (loopWrites huge flags n m).foldl Write.apply m.mem := by
  induction n generalizing m with
  | zero => rfl
  | succ n ih => rw [Function.iterate_succ_apply, ih, loopWrites, List.foldl_append, mem_pageStep]

/-- The frames that a fill clears, when the page lies in frames that hold no table. -/
theorem clearWrites_eq {m : Machine} {virtAddr physAddr pages : ℕ}
    (hwalk : ∀ i < pages, ∃ fl,
      hwWalk m ((virtAddr + 4096 * i) % 2 ^ 64) = some (physAddr + 4096 * i, fl))
    (hdata : ∀ i < pages, ¬m.IsTable (physAddrToIndex (physAddr + 4096 * i))) :
    clearWrites m virtAddr pages =
      (List.range pages).map fun i => .clear (physAddr + 4096 * i) := by
  induction pages with
  | zero => rfl
  | succ pages ih =>
    have hbefore : Cleared m (clearMapped m virtAddr pages) virtAddr pages := by
      refine cleared_clearMapped fun i hi pa fl h => ?_
      obtain ⟨fl', h'⟩ := hwalk i (Nat.lt_succ_of_lt hi)
      rw [h'] at h
      rw [← (Prod.mk.inj (Option.some.inj h)).1]
      exact hdata i (Nat.lt_succ_of_lt hi)
    obtain ⟨fl, hlast⟩ := hwalk pages (Nat.lt_succ_self pages)
    rw [clearWrites, ih (fun i hi => hwalk i (Nat.lt_succ_of_lt hi))
      (fun i hi => hdata i (Nat.lt_succ_of_lt hi)), hbefore.between.hwWalk_eq, hlast, List.range_succ,
      List.map_append]
    rfl

/-! ## Tables on the way -/

/-- A table is at the end of the path. -/
def Machine.hasTable (m : Machine) (q : List (Fin 512)) : Bool := (m.table q).isSome

theorem hasTable_iff {m : Machine} {q : List (Fin 512)} :
    m.hasTable q = true ↔ ∃ f, m.table q = some f := Option.isSome_iff_exists

/-- How many tables on the way from `p` to the end of a path are not there yet. -/
def missing (has : List (Fin 512) → Bool) : List (Fin 512) → List (Fin 512) → ℕ
  | _, [] => 0
  | p, i :: path => (if has (p ++ [i]) then 0 else 1) + missing has (p ++ [i]) path

/-- Only the paths below `p` matter. -/
theorem missing_congr {has has' : List (Fin 512) → Bool} {p path : List (Fin 512)}
    (h : ∀ q, p.length < q.length → has q = has' q) : missing has p path = missing has' p path := by
  induction path generalizing p with
  | nil => rfl
  | cons i path ih =>
    have hlen : p.length < (p ++ [i]).length := by simp
    rw [missing, missing, h _ hlen, ih fun q hq => h q (hlen.trans hq)]

namespace Write

/-- The store links or maps physical frame 0, or clears it. -/
def Null : Write → Prop
  | clear physAddr => physAddrToIndex physAddr = 0
  | entry _ _ value => value &&& vmmPresent ≠ 0 ∧ vmmGetAddr value = 0

end Write

/-- Where the entry is absent, a request that returns 0 is put into it. -/
theorem null_mem_ensureTableWrites {m : Machine} {table : ℕ} {index : Fin 512}
    (habsent : m.entry table index &&& vmmPresent = 0) (hzero : (pmmAlloc m.pmm).1 = 0) :
    ∃ w ∈ ensureTableWrites m table index, w.Null := by
  refine ⟨.entry table index ((pmmAlloc m.pmm).1 ||| vmmPresent ||| vmmWriteable), ?_, ?_⟩
  · rw [ensureTableWrites, if_pos habsent]
    exact List.mem_cons_of_mem _ List.mem_cons_self
  · rw [hzero]
    exact ⟨by decide, by decide⟩

/-- A new table is not at frame 0. -/
theorem not_null_ensureTableWrites {m : Machine} {table : ℕ} {index : Fin 512}
    (hfresh : m.entry table index &&& vmmPresent = 0 → m.FreshFrame) :
    ∀ w ∈ ensureTableWrites m table index, ¬w.Null := by
  intro w hw
  by_cases habsent : m.entry table index &&& vmmPresent = 0
  · have haligned := pmmAlloc_aligned m.pmm
    have hne := (hfresh habsent).ne_zero
    have hlt := (hfresh habsent).lt
    rw [ensureTableWrites, if_pos habsent, tableEntry_eq haligned] at hw
    rcases List.mem_pair.mp hw with rfl | rfl
    · intro hnull
      have hnull : (pmmAlloc m.pmm).1 / 4096 = 0 := hnull
      omega
    · rintro ⟨-, hnull⟩
      rw [vmmGetAddr_eq] at hnull
      omega
  · rw [ensureTableWrites, if_neg habsent] at hw
    exact absurd hw List.not_mem_nil

/-! ## The requests of a walk -/

/-- Unless frame 0 is linked, the walk takes fresh frames only. -/
theorem regularWalk_of_not_null {virtAddr : ℕ} {levels : List ℕ} {m : Machine} {table : ℕ}
    {p : List (Fin 512)} (hm : Claimed m) (hp : m.table p = some (physAddrToIndex table))
    (hlevels : Levels (3 - p.length) levels)
    (hleaf : m.leaf (p ++ levels.map (tableIndex virtAddr)) = none)
    (hnull : ∀ w ∈ descendWrites virtAddr levels m table, ¬w.Null) :
    RegularWalk virtAddr levels m table := by
  induction levels generalizing m table p with
  | nil => trivial
  | cons level levels ih =>
    obtain ⟨rfl, hl, hlevels⟩ := levels_cons hlevels
    have hfresh : m.entry table (tableIndex virtAddr (3 - p.length)) &&& vmmPresent = 0 →
        m.FreshFrame := by
      intro habsent
      apply hm.freshFrame
      intro hzero
      obtain ⟨w, hw, hwnull⟩ := null_mem_ensureTableWrites habsent hzero
      exact hnull w (List.mem_append_left _ hw) hwnull
    have hnohuge : m.entry table (tableIndex virtAddr (3 - p.length)) &&& vmmPresent ≠ 0 →
        3 - p.length = 1 → m.entry table (tableIndex virtAddr (3 - p.length)) &&& vmmHuge = 0 :=
      fun hpresent hone => not_huge_of_leaf hp hone hleaf hpresent
    have hgrown := grown_ensureTable hm.tree hp hl hfresh
    have hnext := table_ensureTable hm.tree hp hl hfresh hnohuge
    refine ⟨hfresh, hnohuge, ih (hgrown.claimed hm) hnext (hlevels _) ?_ fun w hw => ?_⟩
    · rw [hgrown.leaf, List.append_assoc]
      exact hleaf
    · exact hnull w (List.mem_append_right _ hw)

/-- The frames that a walk requests are as many as tables are missing on its way, and all requests are
served unless frame 0 is linked. -/
theorem provides_descend_iff {virtAddr : ℕ} {levels : List ℕ} {m : Machine} {table : ℕ}
    {p : List (Fin 512)} (hm : Claimed m) (hp : m.table p = some (physAddrToIndex table))
    (hlevels : Levels (3 - p.length) levels)
    (hleaf : m.leaf (p ++ levels.map (tableIndex virtAddr)) = none) {requests : List Request} :
    ((∀ w ∈ descendWrites virtAddr levels m table, ¬w.Null) ∧
        Provides (descend virtAddr levels m table).1.pmm requests) ↔
      Provides m.pmm (List.replicate (missing m.hasTable p (levels.map (tableIndex virtAddr))) .one ++
        requests) := by
  induction levels generalizing m table p with
  | nil => exact and_iff_right fun w hw => absurd hw List.not_mem_nil
  | cons level levels ih =>
    obtain ⟨rfl, hl, hlevels⟩ := levels_cons hlevels
    set index := tableIndex virtAddr (3 - p.length) with hindex
    have hnohuge : m.entry table index &&& vmmPresent ≠ 0 → 3 - p.length = 1 →
        m.entry table index &&& vmmHuge = 0 :=
      fun hpresent hone => not_huge_of_leaf hp hone hleaf hpresent
    have hleaf' : m.leaf (p ++ [index] ++ levels.map (tableIndex virtAddr)) = none := by
      rw [List.append_assoc]
      exact hleaf
    rw [List.map_cons, missing, descendWrites, List.forall_mem_append, and_assoc]
    by_cases habsent : m.entry table index &&& vmmPresent = 0
    · have hnone : ¬m.hasTable (p ++ [index]) = true := by
        rw [hasTable_iff, Machine.table, follow_snoc]
        rw [Machine.table] at hp
        have hlink : paging.link (3 - p.length) (m.mem (physAddrToIndex table) index) = none :=
          link_absent habsent
        rw [hp, Option.bind_some, hlink]
        simp
      rw [if_neg hnone, Nat.add_comm, List.replicate_succ, List.cons_append,
        provides_frame_iff hm.totalFrames_le]
      by_cases hzero : (pmmAlloc m.pmm).1 = 0
      · obtain ⟨w, hw, hwnull⟩ := null_mem_ensureTableWrites habsent hzero
        exact iff_of_false (fun h => h.1 w hw hwnull) fun h => h.1 hzero
      · have hfresh : m.entry table index &&& vmmPresent = 0 → m.FreshFrame :=
          fun _ => hm.freshFrame hzero
        have hgrown := grown_ensureTable hm.tree hp hl hfresh
        have hnext := table_ensureTable hm.tree hp hl hfresh hnohuge
        have hpmm : (ensureTable m table index).pmm = (pmmAlloc m.pmm).2 := by
          rw [ensureTable, if_pos habsent]
          rfl
        -- below the new table none is there, before and after
        have hbelow : missing m.hasTable (p ++ [index]) (levels.map (tableIndex virtAddr)) =
            missing (ensureTable m table index).hasTable (p ++ [index])
              (levels.map (tableIndex virtAddr)) := by
          apply missing_congr
          intro q hlen
          rw [Bool.eq_iff_iff, hasTable_iff, hasTable_iff]
          constructor
          · rintro ⟨f, hf⟩
            exact ⟨f, hgrown.table q f hf⟩
          rintro ⟨f, hf⟩
          rcases table_ensureTable_cases hm.tree hp hl hfresh hf with hold | rfl
          · exact ⟨f, hold⟩
          · exact absurd hlen (lt_irrefl _)
        rw [and_iff_right (not_null_ensureTableWrites hfresh), and_iff_right hzero, ← hpmm, hbelow]
        refine ih (hgrown.claimed hm) hnext (hlevels _) ?_
        rw [hgrown.leaf]
        exact hleaf'
    · have hnext := table_ensureTable hm.tree hp hl (fun h => absurd h habsent) hnohuge
      rw [ensureTable_of_present habsent] at hnext
      have hsome : m.hasTable (p ++ [index]) = true := hasTable_iff.mpr ⟨_, hnext⟩
      rw [if_pos hsome, Nat.zero_add, descend, ensureTableWrites, if_neg habsent,
        ensureTable_of_present habsent, and_iff_right fun w hw => absurd hw List.not_mem_nil]
      exact ih hm hnext (hlevels _) hleaf'

/-- A map call that fits: which frames it requests, and that it is orderly when they are there. -/
theorem MapCall.Fits.provides_iff {c : MapCall} {m : Machine} (h : c.Fits m) (hm : Claimed m)
    {requests : List Request} :
    ((∀ w ∈ descendWrites c.virtAddr c.levels m m.pml4Phys, ¬w.Null) ∧
        Provides (c.exec m).pmm requests) ↔
      Provides m.pmm (List.replicate (missing m.hasTable [] c.path) .one ++ requests) := by
  rw [exec_eq]
  exact provides_descend_iff (p := []) hm rfl (levels_target c) h.above

theorem MapCall.Fits.orderly_of_not_null {c : MapCall} {m : Machine} (h : c.Fits m) (hm : Claimed m)
    (hnull : ∀ w ∈ descendWrites c.virtAddr c.levels m m.pml4Phys, ¬w.Null) : Orderly m c :=
  ⟨regularWalk_of_not_null (p := []) hm rfl (levels_target c) h.above hnull, fun _ => h.slot⟩

end MathUnikernel.Vmm
