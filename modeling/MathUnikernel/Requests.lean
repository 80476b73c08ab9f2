import MathUnikernel.PageMap
import MathUnikernel.PmmInit

/-!
# Served requests

A call whose requests to the physical memory manager are all served is a regular call, as long as
the bitmap has the frames of all tables in use.
-/

namespace MathUnikernel.Vmm
open Pmm RadixTree

/-! ## Requests in the log -/

/-- The search of `pmm_alloc` finds a frame, at an address other than 0. -/
def HasFrame (s : PmmContext) : Prop := ∃ f, FirstFree s f ∧ indexToPhysAddr f ≠ 0

/-- The search of `pmm_alloc_2mb` finds a block, at an address other than 0. -/
def HasBlock (s : PmmContext) : Prop :=
  ∃ b, FreeGroup s b ∧ (∀ b' < b, ¬FreeGroup s b') ∧ indexToPhysAddr (512 * b) ≠ 0

theorem hasFrame_iff (s : PmmContext) : HasFrame s ↔ (pmmAlloc s).1 ≠ 0 := by
  refine ⟨fun ⟨f, hf, hne⟩ => ?_, fun hne => ?_⟩
  · rwa [pmmAlloc_of_firstFree hf]
  · rcases pmmAlloc_cases s with ⟨f, hf, h⟩ | ⟨-, h⟩ <;> rw [h] at hne
    · exact ⟨f, hf, hne⟩
    · exact absurd rfl hne

theorem hasBlock_iff (s : PmmContext) : HasBlock s ↔ (pmmAlloc2mb s).1 ≠ 0 := by
  refine ⟨fun ⟨b, hb, hfirst, hne⟩ => ?_, fun hne => ?_⟩
  · rwa [pmmAlloc2mb_of_first hb hfirst]
  · rcases pmmAlloc2mb_cases s with ⟨b, hb, hfirst, h⟩ | ⟨-, h⟩ <;> rw [h] at hne
    · exact ⟨b, hb, hfirst, hne⟩
    · exact absurd rfl hne

/-- A request is served if the state it was made in has what it asks for. -/
def Event.Served : Event → Prop
  | .alloc s => HasFrame s
  | .alloc2mb s => HasBlock s
  | _ => True

/-- Every request so far was served. -/
def Machine.Served (m : Machine) : Prop := ∀ e ∈ m.log, e.Served

theorem Machine.Served.of_prefix {m m' : Machine} (h : m'.Served) (hp : m.log <+: m'.log) :
    m.Served := fun e he => h e (hp.subset he)

theorem ensureTable_log (m : Machine) (table : ℕ) (index : Fin 512) :
    m.log <+: (ensureTable m table index).log := by
  unfold ensureTable
  split_ifs
  · exact List.prefix_append m.log _
  · exact List.prefix_rfl

theorem descend_log (virtAddr : ℕ) (levels : List ℕ) (m : Machine) (table : ℕ) :
    m.log <+: (descend virtAddr levels m table).1.log := by
  induction levels generalizing m table with
  | nil => exact List.prefix_rfl
  | cons level levels ih => exact (ensureTable_log m table _).trans (ih _ _)

theorem exec_log (m : Machine) (c : MapCall) : m.log <+: (c.exec m).log := by
  rw [exec_eq]
  exact descend_log c.virtAddr c.levels m m.pml4Phys

/-- The last frame of a fill. -/
theorem clearMapped_succ (m : Machine) (virtAddr pages : ℕ) :
    clearMapped m virtAddr (pages + 1) =
      (hwWalk (clearMapped m virtAddr pages) ((virtAddr + 4096 * pages) % 2 ^ 64)).elim
        (clearMapped m virtAddr pages) fun v => (clearMapped m virtAddr pages).clearFrame v.1 := by
  unfold clearMapped
  rw [List.range_succ, List.foldl_append, List.foldl_cons, List.foldl_nil]
  split <;> rename_i hwalk <;> rw [hwalk] <;> rfl

/-- What the clearing of a frame keeps, a zero-fill keeps. -/
theorem clearMapped_keeps {α : Type} {g : Machine → α} (hg : ∀ m a, g (m.clearFrame a) = g m)
    (m : Machine) (virtAddr pages : ℕ) : g (clearMapped m virtAddr pages) = g m := by
  induction pages with
  | zero => unfold clearMapped; rfl
  | succ pages ih =>
    rw [clearMapped_succ, ← ih]
    cases hwWalk (clearMapped m virtAddr pages) ((virtAddr + 4096 * pages) % 2 ^ 64) with
    | none => rfl
    | some v => exact hg _ _

theorem clearMapped_log (m : Machine) (virtAddr pages : ℕ) :
    (clearMapped m virtAddr pages).log = m.log := clearMapped_keeps (fun _ _ => rfl) m virtAddr pages

theorem clearMapped_pmm (m : Machine) (virtAddr pages : ℕ) :
    (clearMapped m virtAddr pages).pmm = m.pmm := clearMapped_keeps (fun _ _ => rfl) m virtAddr pages

/-- The map functions request no blocks. -/
theorem alloc2mb_mem_exec {m : Machine} {c : MapCall} {s : PmmContext}
    (h : .alloc2mb s ∈ (c.exec m).log) : .alloc2mb s ∈ m.log := by
  rw [exec_eq] at h
  change .alloc2mb s ∈ (descend c.virtAddr c.levels m m.pml4Phys).1.log at h
  generalize m.pml4Phys = table at h
  generalize c.levels = levels at h
  induction levels generalizing m table with
  | nil => exact h
  | cons level levels ih =>
    have hstep := ih _ h
    unfold ensureTable at hstep
    split_ifs at hstep
    · simpa using List.mem_append.mp hstep
    · exact hstep

/-! ## Claimed tables -/

/-- The tables form a tree, and the bitmap, whose frames are physical addresses of at most 52 bits,
has all of them in use. -/
structure Claimed (m : Machine) : Prop where
  tree : m.Tree
  used : ∀ f, m.IsTable f → m.pmm.used f = true
  totalFrames_le : m.pmm.totalFrames ≤ 2 ^ 40

theorem Claimed.freshFrame {m : Machine} (h : Claimed m) (hr : (pmmAlloc m.pmm).1 ≠ 0) :
    m.FreshFrame := by
  have hT := h.totalFrames_le
  rcases pmmAlloc_cases m.pmm with ⟨f, hf, he⟩ | ⟨-, he⟩
  · have hlt := hf.lt_total
    have hindex : physAddrToIndex (pmmAlloc m.pmm).1 = f := by
      rw [he]
      exact physAddrToIndex_indexToPhysAddr (by omega)
    refine ⟨hr, ?_, fun htable => ?_⟩
    · rw [he, indexToPhysAddr_of_lt (by omega)]
      omega
    · have hused := h.used _ htable
      rw [hindex, hf.free] at hused
      exact Bool.false_ne_true hused
  · rw [he] at hr
    exact absurd rfl hr

/-- The frames of the new tables have been taken. -/
theorem Claimed.of_used {m m' : Machine} (hm : Claimed m) (htree : m'.Tree)
    (htotal : m'.pmm.totalFrames = m.pmm.totalFrames)
    (hused : ∀ f, m'.pmm.used f = true ↔ m.pmm.used f = true ∨ (m'.IsTable f ∧ ¬m.IsTable f)) :
    Claimed m' := by
  refine ⟨htree, fun f hf => ?_, htotal.trans_le hm.totalFrames_le⟩
  rw [hused]
  by_cases hold : m.IsTable f
  · exact .inl (hm.used f hold)
  · exact .inr ⟨hf, hold⟩

theorem Grown.claimed {m m' : Machine} (h : Grown m m') (hm : Claimed m) : Claimed m' :=
  hm.of_used h.tree h.totalFrames (h.used (hm.totalFrames_le.trans (by norm_num)))

theorem Mapped.claimed {m m' : Machine} {path : List (Fin 512)} {index : Fin 512} {entry : ℕ}
    (h : Mapped m m' path index entry) (hm : Claimed m) : Claimed m' :=
  hm.of_used h.tree h.totalFrames (h.used (hm.totalFrames_le.trans (by norm_num)))

/-- No page directory entry is a leaf. -/
def Machine.NoHuge (m : Machine) : Prop := ∀ q : List (Fin 512), q.length ≤ 3 → m.leaf q = none

/-- Where a walk ends in no page, a present page directory entry on its way is not a leaf. -/
theorem not_huge_of_leaf {m : Machine} {p t : List (Fin 512)} {f : ℕ} {index : Fin 512}
    (hp : m.table p = some f) (hlen : 3 - p.length = 1) (hleaf : m.leaf (p ++ index :: t) = none)
    (hpresent : m.mem f index &&& vmmPresent ≠ 0) : m.mem f index &&& vmmHuge = 0 := by
  by_contra hhuge
  have hstop : paging.link (3 - p.length) (m.mem f index) = none := hlen ▸ link_huge hhuge
  have hsome := find_of_stop hp hstop t
  rw [hlen, leaf_huge hpresent hhuge] at hsome
  rw [Machine.leaf, hsome] at hleaf
  exact absurd hleaf (by simp)

/-- A request of the machine `m` or of a later one. -/
structure Asked (m : Machine) (s : PmmContext) : Prop where
  totalFrames : s.totalFrames = m.pmm.totalFrames
  used : ∀ f, m.pmm.used f = true → s.used f = true

/-- The requests of a walk. -/
theorem asked_of_mem_descend {virtAddr : ℕ} {levels : List ℕ} {m : Machine} {table : ℕ}
    {s : PmmContext} (h : .alloc s ∈ (descend virtAddr levels m table).1.log) :
    .alloc s ∈ m.log ∨ Asked m s := by
  induction levels generalizing m table with
  | nil => exact .inl h
  | cons level levels ih =>
    have hrest := ih h
    unfold ensureTable at hrest
    split_ifs at hrest with habsent
    · rcases hrest with hmem | hasked
      · rcases List.mem_append.mp hmem with hmem | hmem
        · exact .inl hmem
        · obtain rfl : s = m.pmm := by simpa using hmem
          exact .inr ⟨rfl, fun _ h => h⟩
      · refine .inr ⟨hasked.totalFrames.trans (pmmAlloc_totalFrames m.pmm), fun f hf => ?_⟩
        exact hasked.used f (used_of_pmmAlloc hf)
    · exact hrest

/-- A walk that ends in no page and whose requests are answered with an address other than 0 takes
fresh frames only. -/
theorem regularWalk_of_asked {virtAddr : ℕ} {levels : List ℕ} {m : Machine} {table : ℕ}
    {p : List (Fin 512)} (hm : Claimed m) (hp : m.table p = some (physAddrToIndex table))
    (hlevels : Levels (3 - p.length) levels)
    (hleaf : m.leaf (p ++ levels.map (tableIndex virtAddr)) = none)
    (hasked : ∀ s, Asked m s → .alloc s ∈ (descend virtAddr levels m table).1.log →
      (pmmAlloc s).1 ≠ 0) : RegularWalk virtAddr levels m table := by
  induction levels generalizing m table p with
  | nil => trivial
  | cons level levels ih =>
    obtain ⟨rfl, hl, hlevels⟩ := levels_cons hlevels
    have hfresh : m.entry table (tableIndex virtAddr (3 - p.length)) &&& vmmPresent = 0 →
        m.FreshFrame := by
      intro habsent
      apply hm.freshFrame
      apply hasked m.pmm ⟨rfl, fun _ h => h⟩
      apply (descend_log virtAddr levels _ _).subset
      rw [ensureTable, if_pos habsent]
      exact List.mem_append_right _ List.mem_cons_self
    have hnohuge : m.entry table (tableIndex virtAddr (3 - p.length)) &&& vmmPresent ≠ 0 →
        3 - p.length = 1 → m.entry table (tableIndex virtAddr (3 - p.length)) &&& vmmHuge = 0 :=
      fun hpresent hone => not_huge_of_leaf hp hone hleaf hpresent
    have hgrown := grown_ensureTable hm.tree hp hl hfresh
    have hnext := table_ensureTable hm.tree hp hl hfresh hnohuge
    have hT : m.pmm.totalFrames ≤ 2 ^ 52 := hm.totalFrames_le.trans (by omega)
    refine ⟨hfresh, hnohuge, ih (hgrown.claimed hm) hnext (hlevels _) ?_ fun s hs => ?_⟩
    · rw [hgrown.leaf, List.append_assoc]
      exact hleaf
    · exact hasked s ⟨hs.totalFrames.trans hgrown.totalFrames,
        fun f hf => hs.used f ((hgrown.used hT f).mpr (.inl hf))⟩

/-- A walk that ends in no page and whose requests are served takes fresh frames only. -/
theorem regularWalk_of_served {virtAddr : ℕ} {levels : List ℕ} {m : Machine} {table : ℕ}
    {p : List (Fin 512)} (hm : Claimed m) (hp : m.table p = some (physAddrToIndex table))
    (hlevels : Levels (3 - p.length) levels)
    (hleaf : m.leaf (p ++ levels.map (tableIndex virtAddr)) = none)
    (hserved : (descend virtAddr levels m table).1.Served) : RegularWalk virtAddr levels m table :=
  regularWalk_of_asked hm hp hlevels hleaf fun s _ hs => (hasFrame_iff s).mp (hserved (.alloc s) hs)

/-- No walk ends in a page at the PML4 or at a PDPT. -/
theorem leaf_of_short (m : Machine) {q : List (Fin 512)} (hq : q.length ≤ 2) : m.leaf q = none := by
  have hnone : ∀ level entry, 2 ≤ level → paging.leaf level entry = none := fun level entry hl => by
    simp only [paging]
    rw [if_neg (by omega : ¬level = 0), if_neg (by omega : ¬(level = 1 ∧ entry &&& vmmHuge ≠ 0))]
    exact ite_self none
  rcases @stop_or_follow _ _ _ _ paging m.mem 3 m.root q with ⟨p, i, t, f, rfl, hf, hstop⟩ | ⟨g, hg⟩
  · refine (find_of_stop hf hstop t).trans (hnone _ _ ?_)
    simp only [List.length_append, List.length_cons] at hq
    omega
  · exact find_of_follow hg

/-- No path of four indices leads to a table. -/
theorem table_of_long (m : Machine) {p : List (Fin 512)} (hp : p.length = 3) (i : Fin 512) :
    m.table (p ++ [i]) = none := by
  rw [Machine.table, follow_snoc, hp]
  cases follow paging m.mem 3 m.root p with
  | none => rfl
  | some f => exact link_zero _

/-- The walk of the call ends in no larger page, and the entry it sets links to no table. -/
structure MapCall.Fits (c : MapCall) (m : Machine) : Prop where
  above : m.leaf c.path = none
  slot : m.table (c.path ++ [c.index]) = none

/-- A call that fits is orderly if its requests are served. -/
theorem MapCall.Fits.orderly {c : MapCall} {m : Machine} (h : c.Fits m) (hm : Claimed m)
    (hserved : (c.exec m).Served) : Orderly m c := by
  rw [exec_eq] at hserved
  exact ⟨regularWalk_of_served (p := []) hm rfl (levels_target c) h.above hserved, fun _ => h.slot⟩

/-! ## Enough memory -/

/-- The frames below `lo` are in use, those from `lo` to `hi` are free. -/
structure FreeRange (s : PmmContext) (lo hi : ℕ) : Prop where
  pos : 0 < lo
  below : ∀ f < lo, s.used f = true
  free : ∀ f, lo ≤ f → f < hi → s.used f = false
  le_total : hi ≤ s.totalFrames
  le_size : hi ≤ 8 * s.bitmapSize
  lt : hi < 2 ^ 40

theorem FreeRange.firstFree {s : PmmContext} {lo hi : ℕ} (h : FreeRange s lo hi) (hlt : lo < hi) :
    FirstFree s lo :=
  ⟨hlt.trans_le h.le_total, hlt.trans_le h.le_size, h.free lo le_rfl hlt, h.below⟩

theorem FreeRange.hasFrame {s : PmmContext} {lo hi : ℕ} (h : FreeRange s lo hi) (hlt : lo < hi) :
    HasFrame s := by
  have hpos := h.pos
  have hhi := h.lt
  refine ⟨lo, h.firstFree hlt, ?_⟩
  rw [indexToPhysAddr_of_lt (by omega)]
  omega

theorem FreeRange.pmmAlloc {s : PmmContext} {lo hi : ℕ} (h : FreeRange s lo hi) (hlt : lo < hi) :
    FreeRange (Pmm.pmmAlloc s).2 (lo + 1) hi := by
  rw [pmmAlloc_of_firstFree (h.firstFree hlt)]
  refine ⟨Nat.succ_pos lo, fun f hf => ?_, fun f hlo hhi => ?_, ?_, ?_, h.lt⟩
  · rw [used_claimFrame]
    by_cases hfl : f = lo
    · simp [hfl]
    · simp [h.below f (by omega)]
  · rw [used_claimFrame, h.free f (by omega) hhi]
    simp only [Bool.false_or, decide_eq_false_iff_not]
    omega
  · simpa using h.le_total
  · simpa using h.le_size

/-- A block at the start of the range goes first. -/
theorem FreeRange.pmmAlloc2mb {s : PmmContext} {b hi : ℕ} (h : FreeRange s (512 * b) hi)
    (hle : 512 * b + 512 ≤ hi) (hlow : 64 * b + 64 ≤ 2 ^ 31) :
    FreeGroup s b ∧ HasBlock s ∧ FreeRange (Pmm.pmmAlloc2mb s).2 (512 * b + 512) hi := by
  have hsize := h.le_size
  have hpos := h.pos
  have hfree : FreeGroup s b := ⟨by omega, fun f hlo hhi => h.free f hlo (by omega)⟩
  have hfirst : ∀ b' < b, ¬FreeGroup s b' := fun b' hb' hfree' => by
    have htrue := h.below (512 * b') (by omega)
    rw [hfree'.free (512 * b') le_rfl (by omega)] at htrue
    exact Bool.false_ne_true htrue
  have hused := used_pmmAlloc2mb hfree hfirst hlow
  refine ⟨hfree, ⟨b, hfree, hfirst, ?_⟩, Nat.succ_pos _, fun f hf => ?_, fun f hlo hhi => ?_, ?_, ?_,
    h.lt⟩
  · rw [indexToPhysAddr_of_lt (by omega)]
    omega
  · rw [hused]
    by_cases hfb : f < 512 * b
    · rw [h.below f hfb, Bool.true_or]
    · rw [decide_eq_true (by omega), Bool.or_true]
  · rw [hused, h.free f (by omega) hhi, decide_eq_false (by omega), Bool.or_false]
  · simpa using h.le_total
  · simpa using hsize

/-- At least `n` requests for a frame can still be served without the frames of `R`, which are free,
and all requests so far were. -/
structure Stocked (m : Machine) (n : ℕ) (R : Set ℕ := ∅) : Prop where
  served : m.Served
  range : ∃ lo hi, FreeRange m.pmm lo hi ∧ lo + n ≤ hi ∧ ∀ f ∈ R, hi ≤ f ∧ m.pmm.used f = false

variable {R : Set ℕ}

theorem Stocked.mono {m : Machine} {n k : ℕ} (h : Stocked m n R) (hk : k ≤ n) : Stocked m k R := by
  obtain ⟨hserved, lo, hi, hrange, hle, hR⟩ := h
  exact ⟨hserved, lo, hi, hrange, by omega, hR⟩

theorem Stocked.ensureTable {m : Machine} {n : ℕ} (h : Stocked m (n + 1) R) (table : ℕ)
    (index : Fin 512) : Stocked (ensureTable m table index) n R := by
  unfold Vmm.ensureTable
  split_ifs with habsent
  · obtain ⟨hserved, lo, hi, hrange, hle, hR⟩ := h
    refine ⟨fun e he => ?_, lo + 1, hi, hrange.pmmAlloc (by omega), by omega, fun f hf => ?_⟩
    · rcases List.mem_append.mp he with he | he
      · exact hserved e he
      · have hframe := hrange.hasFrame (by omega)
        simp only [List.mem_cons, List.not_mem_nil, or_false] at he
        rcases he with rfl | rfl | rfl
        · exact hframe
        · trivial
        · trivial
    · obtain ⟨hhi, hfree⟩ := hR f hf
      refine ⟨hhi, ?_⟩
      have hlt : lo < hi := by omega
      change (Pmm.pmmAlloc m.pmm).2.used f = false
      rw [pmmAlloc_of_firstFree (hrange.firstFree hlt), used_claimFrame, hfree,
        decide_eq_false (by omega), Bool.or_false]
  · exact h.mono (Nat.le_succ n)

theorem Stocked.descend {levels : List ℕ} {m : Machine} {n : ℕ}
    (h : Stocked m (levels.length + n) R) (virtAddr table : ℕ) :
    Stocked (descend virtAddr levels m table).1 n R := by
  induction levels generalizing m table with
  | nil => exact h.mono (by simp)
  | cons level levels ih =>
    refine ih (Stocked.ensureTable (h.mono ?_) _ _) _
    simp only [List.length_cons]
    omega

theorem Stocked.exec {m : Machine} {n : ℕ} (h : Stocked m (n + 3) R) (c : MapCall) :
    Stocked (c.exec m) n R := by
  have hlen : c.levels.length ≤ 3 := by
    unfold MapCall.levels
    split_ifs <;> simp
  have hd := (h.mono (show c.levels.length + n ≤ n + 3 by omega)).descend c.virtAddr m.pml4Phys
  rw [exec_eq]
  exact ⟨hd.served, hd.range⟩

/-! ## A small machine -/

/-- An empty PML4 in frame 2. -/
def smallMachine (pmm : PmmContext) : Machine where
  pmm := pmm
  mem := fun _ _ => 0
  pml4Phys := 0x2000
  nextVirtAddr := heapStart
  log := []

theorem FreeRange.smallMachine {s : PmmContext} {lo hi : ℕ} (h : FreeRange s lo hi) (hlo : 2 < lo)
    (hle : lo ≤ hi) (htotal : s.totalFrames ≤ 2 ^ 40) :
    EmptyPml4 (smallMachine s) ∧ Claimed (smallMachine s) ∧ Stocked (smallMachine s) (hi - lo) := by
  have hempty : EmptyPml4 (Vmm.smallMachine s) := fun _ => rfl
  have hblank : Blank paging (Vmm.smallMachine s).mem (Vmm.smallMachine s).root := blank_of_zero hempty
  refine ⟨hempty, ⟨tree_of_emptyPml4 hempty, fun f ⟨q, hq⟩ => ?_, htotal⟩,
    fun e he => absurd he List.not_mem_nil, lo, hi, h, by omega, fun f hf => absurd hf id⟩
  cases q with
  | nil =>
    obtain rfl : (Vmm.smallMachine s).root = f := Option.some.inj hq
    have hroot : (Vmm.smallMachine s).root = 2 := by
      simp [Machine.root, Vmm.smallMachine, physAddrToIndex]
    rw [hroot]
    exact h.below 2 hlo
  | cons i q => rw [Machine.table, hblank.follow_cons] at hq; exact absurd hq (by simp)

theorem smallMachine_facts {s : PmmContext} {lo : ℕ} (hsize : s.bitmapSize = 128)
    (htotal : s.totalFrames = 1024) (hused : ∀ f < 1024, s.used f = false ↔ lo ≤ f) (hlo : 2 < lo)
    (hhi : lo ≤ 1024) :
    EmptyPml4 (smallMachine s) ∧ Claimed (smallMachine s) ∧
      Stocked (smallMachine s) (1024 - lo) := by
  refine FreeRange.smallMachine ⟨by omega, fun f hf => ?_, fun f hlo hhi => (hused f hhi).mpr hlo,
    htotal.ge, by omega, by omega⟩ hlo hhi (by omega)
  have hnot := mt (hused f (by omega)).mp (by omega)
  simpa using hnot

/-- The first page of the heap, mapped to the block at `physAddr`. -/
def firstPage (physAddr : ℕ) : MapCall := ⟨true, heapStart, physAddr, 3⟩

theorem regular_firstPage {s : PmmContext} (hempty : EmptyPml4 (smallMachine s))
    (hclaimed : Claimed (smallMachine s)) (hstocked : Stocked (smallMachine s) 2) {physAddr : ℕ}
    (hlt : physAddr < 2 ^ 52) (haligned : physAddr % 0x200000 = 0) :
    Regular (smallMachine s) (firstPage physAddr) := by
  have hstock : Stocked (smallMachine s) ((firstPage physAddr).levels.length + 0) := hstocked
  have hserved := (hstock.descend heapStart (smallMachine s).pml4Phys).served
  have hblank : Blank paging (smallMachine s).mem (smallMachine s).root := blank_of_zero hempty
  refine ⟨regularWalk_of_served (p := []) hclaimed rfl (levels_target (firstPage physAddr))
    (leaf_of_short _ le_rfl) hserved, hlt, fun _ => haligned, ?_, ?_, fun _ => hblank.follow_cons 3 _ _⟩
  · exact (by decide : 3 &&& vmmAddrMask = 0)
  · exact (by decide : 3 < 2 ^ 64)

end MathUnikernel.Vmm
