import MathUnikernel.BootTables

/-!
# Ranges of pages

What `vmm_map_range` maps among pages of any size, when its requests are served.
-/

namespace MathUnikernel.Vmm
open Pmm RadixTree

/-! ## Runs of calls for pages of 4 KiB -/

/-- The path of the table with the entries for the 4 KiB pages around `va`. -/
def pagePath (va : ℕ) : List (Fin 512) := [3, 2, 1].map (tableIndex va)

theorem path_of_page {c : MapCall} (h : c.huge = false) : c.path = pagePath c.virtAddr := by
  simp [MapCall.path, MapCall.levels, pagePath, h]

/-- The entry that the last of the calls for page `index` of the table at `path` writes. -/
def lastEntry (calls : List MapCall) (path : List (Fin 512)) (index : Fin 512) : Option ℕ :=
  calls.foldl (fun last c => if c.path = path ∧ c.index = index then some c.newEntry else last) none

theorem lastEntry_snoc (calls : List MapCall) (c : MapCall) (path : List (Fin 512))
    (index : Fin 512) : lastEntry (calls ++ [c]) path index =
      if c.path = path ∧ c.index = index then some c.newEntry else lastEntry calls path index := by
  rw [lastEntry, List.foldl_append]
  rfl

theorem present_newEntry {c : MapCall} (h : c.huge = false) : c.newEntry &&& vmmPresent ≠ 0 := by
  rw [MapCall.newEntry, h, and_vmmPresent]
  exact (or_vmmPresent_odd _).trans_ne one_ne_zero

theorem present_lastEntry {calls : List MapCall} (hpages : ∀ c ∈ calls, c.huge = false)
    {path : List (Fin 512)} {index : Fin 512} {entry : ℕ}
    (h : lastEntry calls path index = some entry) : entry &&& vmmPresent ≠ 0 := by
  induction calls using List.reverseRecOn with
  | nil => exact absurd h (by simp [lastEntry])
  | append_singleton calls c ih =>
    rw [lastEntry_snoc] at h
    split_ifs at h
    · rw [← Option.some.inj h]
      exact present_newEntry (hpages c (List.mem_append_right _ (List.mem_singleton_self c)))
    · exact ih (fun c' hc' => hpages c' (List.mem_append_left _ hc')) h

/-- What calls for pages of 4 KiB do to the tables. -/
structure Ran (m m' : Machine) (calls : List MapCall) : Prop where
  claimed : Claimed m'
  leaf_short : ∀ q : List (Fin 512), q.length ≤ 3 → m'.leaf q = m.leaf q
  table : ∀ q f, m.table q = some f → m'.table q = some f
  paths : ∀ q, (∃ f, m'.table q = some f) ↔
    (∃ f, m.table q = some f) ∨ ∃ c ∈ calls, q <+: c.path
  totalFrames : m'.pmm.totalFrames = m.pmm.totalFrames
  used : ∀ f, m'.pmm.used f = true ↔ m.pmm.used f = true ∨ (m'.IsTable f ∧ ¬m.IsTable f)
  fresh : ∀ f, m'.IsTable f → m.IsTable f ∨ m.pmm.used f = false
  written : ∀ p j entry, lastEntry calls p j = some entry →
    ∃ f, m'.table p = some f ∧ m'.mem f j = entry

theorem ran_nil {m : Machine} (hm : Claimed m) : Ran m m [] := by
  refine ⟨hm, fun _ _ => rfl, fun _ _ h => h, fun q => by simp, rfl, fun f => by tauto,
    fun f hf => .inl hf, fun p j entry h => ?_⟩
  exact absurd h (by simp [lastEntry])

/-- One more call. -/
theorem Ran.snoc {m m₁ : Machine} {calls : List MapCall} (h : Ran m m₁ calls)
    (hpages : ∀ c ∈ calls, c.huge = false) {c : MapCall} (hpage : c.huge = false)
    (hc : Orderly m₁ c) : Ran m (c.exec m₁) (calls ++ [c]) := by
  have hm := mapped_of_orderly h.claimed.tree hc
  have hT : m₁.pmm.totalFrames ≤ 2 ^ 52 := h.claimed.totalFrames_le.trans (by omega)
  refine ⟨hm.claimed h.claimed, fun q hq => ?_, fun q f hq => hm.table q f (h.table q f hq),
    fun q => ?_, hm.totalFrames.trans h.totalFrames, fun f => ?_, fun f hf => ?_,
    fun p j entry hlast => ?_⟩
  · rw [hm.leaf_other, h.leaf_short q hq]
    intro hpre
    have hle := hpre.length_le
    rw [List.length_append, length_path hpage, List.length_singleton] at hle
    omega
  · have hstep : (∃ f, (c.exec m₁).table q = some f) ↔
        (∃ f, m₁.table q = some f) ∨ q <+: c.path := by
      constructor
      · intro ⟨f, hf⟩
        exact (exec_table_cases h.claimed.tree hc hf).imp_left fun hold => ⟨f, hold⟩
      · intro hq
        rcases hq with ⟨f, hf⟩ | hq
        · exact ⟨f, hm.table q f hf⟩
        · obtain ⟨f, hf, -⟩ := hm.slot
          exact follow_prefix hq hf
    simp only [hstep, h.paths q, List.mem_append, List.mem_singleton, or_and_right, exists_or,
      exists_eq_left, or_assoc]
  · have hgrow : m.IsTable f → m₁.IsTable f := fun ⟨q, hq⟩ => ⟨q, h.table q f hq⟩
    have hgrow' : m₁.IsTable f → (c.exec m₁).IsTable f := fun ⟨q, hq⟩ => ⟨q, hm.table q f hq⟩
    exact added_trans (h.used f) (hm.used hT f) hgrow hgrow'
  · rcases hm.fresh hT f hf with hold | hfree
    · exact h.fresh f hold
    · exact .inr (free_of_kept (fun hused => (h.used f).mpr (.inl hused)) hfree)
  · rw [lastEntry_snoc] at hlast
    split_ifs at hlast with hslot
    · obtain ⟨rfl, rfl⟩ := hslot
      rw [← Option.some.inj hlast]
      exact hm.slot
    · obtain ⟨f, hf, hentry⟩ := h.written p j entry hlast
      refine ⟨f, hm.table p f hf, ?_⟩
      rw [hm.entry_other p f j hf, hentry]
      · rw [hentry]
        exact present_lastEntry hpages hlast
      · intro heq
        obtain ⟨rfl, rfl⟩ := Prod.mk.inj heq
        exact hslot ⟨rfl, rfl⟩

/-- Calls for pages of 4 KiB, none on a larger page. -/
structure PageCalls (m : Machine) (calls : List MapCall) : Prop where
  page : ∀ c ∈ calls, c.huge = false
  above : ∀ c ∈ calls, m.leaf c.path = none

theorem PageCalls.init {m : Machine} {calls : List MapCall} {c : MapCall}
    (h : PageCalls m (calls ++ [c])) : PageCalls m calls :=
  ⟨fun c' hc' => h.page c' (List.mem_append_left _ hc'),
    fun c' hc' => h.above c' (List.mem_append_left _ hc')⟩

theorem PageCalls.last {m : Machine} {calls : List MapCall} {c : MapCall}
    (h : PageCalls m (calls ++ [c])) : c.huge = false ∧ m.leaf c.path = none :=
  ⟨h.page c (List.mem_append_right _ (List.mem_singleton_self c)),
    h.above c (List.mem_append_right _ (List.mem_singleton_self c))⟩

theorem runCalls_snoc (calls : List MapCall) (c : MapCall) (m : Machine) :
    runCalls (calls ++ [c]) m = c.exec (runCalls calls m) := runCalls_append calls [c] m

/-- The last call of a served run is orderly. -/
theorem PageCalls.orderly {m m₁ : Machine} {calls : List MapCall} {c : MapCall}
    (h : PageCalls m (calls ++ [c])) (hran : Ran m m₁ calls) (hserved : (c.exec m₁).Served) :
    Orderly m₁ c := by
  obtain ⟨hpage, habove⟩ := h.last
  have hfits : c.Fits m₁ := by
    constructor
    · rw [hran.leaf_short c.path (length_path hpage).le]
      exact habove
    · exact table_of_long m₁ (length_path hpage) c.index
  exact hfits.orderly hran.claimed hserved

theorem PageCalls.ran {m : Machine} (hm : Claimed m) {calls : List MapCall} (h : PageCalls m calls)
    (hserved : (runCalls calls m).Served) : Ran m (runCalls calls m) calls := by
  induction calls using List.reverseRecOn with
  | nil => exact ran_nil hm
  | append_singleton calls c ih =>
    rw [runCalls_snoc] at hserved ⊢
    have hran := ih h.init (hserved.of_prefix (exec_log _ c))
    exact hran.snoc h.init.page h.last.1 (h.orderly hran hserved)

/-! ## What the hardware finds -/

/-- Calls whose leaves hold a physical address and flags. -/
def LeafCalls (calls : List MapCall) : Prop :=
  ∀ c ∈ calls, c.physAddr < 2 ^ 52 ∧ c.flags &&& vmmAddrMask = 0 ∧ c.flags < 2 ^ 64

theorem LeafCalls.regular {m : Machine} {calls : List MapCall} (h : LeafCalls calls) {c : MapCall}
    (hc : c ∈ calls) (hpage : c.huge = false) (horderly : Orderly m c) : Regular m c := by
  obtain ⟨hphys, haddr, hlt⟩ := h c hc
  exact ⟨horderly.walk, hphys, fun hhuge => absurd (hpage.symm.trans hhuge) Bool.false_ne_true, haddr,
    hlt, horderly.slot⟩

/-- A served run updates the map call by call. -/
theorem hwWalk_runCalls_eq {m : Machine} (hm : Claimed m) {calls : List MapCall}
    (h : PageCalls m calls) (hleaf : LeafCalls calls) (hserved : (runCalls calls m).Served) :
    hwWalk (runCalls calls m) = calls.foldl (fun f c => c.apply f) (hwWalk m) := by
  induction calls using List.reverseRecOn with
  | nil => rfl
  | append_singleton calls c ih =>
    rw [runCalls_snoc] at hserved ⊢
    have hserved' := hserved.of_prefix (exec_log _ c)
    have hran := h.init.ran hm hserved'
    have hregular := hleaf.regular (List.mem_append_right _ (List.mem_singleton_self c)) h.last.1
      (h.orderly hran hserved)
    rw [hwWalk_exec hran.claimed.tree hregular, List.foldl_append,
      ih h.init (fun c' hc' => hleaf c' (List.mem_append_left _ hc')) hserved']
    rfl

/-- So does a run whose requests were answered. -/
theorem Paged.hwWalk_runCalls {m : Machine} (h : Paged m) {calls : List MapCall}
    (hpages : ∀ c ∈ calls, c.huge = false) (hleaf : LeafCalls calls)
    (hanswered : (Vmm.runCalls calls m).Answered) :
    hwWalk (Vmm.runCalls calls m) = calls.foldl (fun f c => c.apply f) (hwWalk m) := by
  induction calls using List.reverseRecOn with
  | nil => rfl
  | append_singleton calls c ih =>
    rw [runCalls_snoc] at hanswered ⊢
    have hbefore := hanswered.of_prefix (exec_log _ c)
    have hinit : ∀ c' ∈ calls, c' ∈ calls ++ [c] := fun c' hc' => List.mem_append_left _ hc'
    have hlast : c ∈ calls ++ [c] := List.mem_append_right _ (List.mem_singleton_self c)
    obtain ⟨hpaged, -⟩ := h.runCalls (fun c' hc' => hpages c' (hinit c' hc')) hbefore
    have hregular := hleaf.regular hlast (hpages c hlast) (hpaged.orderly (hpages c hlast) hanswered)
    rw [hwWalk_exec hpaged.claimed.tree hregular, List.foldl_append,
      ih (fun c' hc' => hpages c' (hinit c' hc')) (fun c' hc' => hleaf c' (hinit c' hc')) hbefore]
    rfl

theorem foldl_apply_of_not_covers {calls : List MapCall} {va : ℕ}
    (h : ∀ c ∈ calls, ¬c.Covers va) (f : PageMap) :
    calls.foldl (fun f c => c.apply f) f va = f va := by
  induction calls using List.reverseRecOn with
  | nil => rfl
  | append_singleton calls c ih =>
    have hlast := h c (List.mem_append_right _ (List.mem_singleton_self c))
    rw [List.foldl_append, List.foldl_cons, List.foldl_nil, MapCall.apply, if_neg hlast]
    exact ih fun c' hc' => h c' (List.mem_append_left _ hc')

/-- Where the calls that cover an address agree on it. -/
theorem foldl_apply_of_covers {calls : List MapCall} {va : ℕ} {page : ℕ × ℕ}
    (hsome : ∃ c ∈ calls, c.Covers va)
    (hsame : ∀ c ∈ calls, c.Covers va →
      (c.physAddr / c.size * c.size + va % c.size, c.flagsOf) = page) (f : PageMap) :
    calls.foldl (fun f c => c.apply f) f va = some page := by
  induction calls using List.reverseRecOn with
  | nil => exact absurd hsome (by simp)
  | append_singleton calls c ih =>
    have hlast := hsame c (List.mem_append_right _ (List.mem_singleton_self c))
    rw [List.foldl_append, List.foldl_cons, List.foldl_nil, MapCall.apply]
    by_cases hcovers : c.Covers va
    · rw [if_pos hcovers, hlast hcovers]
    · rw [if_neg hcovers]
      apply ih _ fun c' hc' => hsame c' (List.mem_append_left _ hc')
      obtain ⟨c', hc', hcov'⟩ := hsome
      rcases List.mem_append.mp hc' with hmem | hmem
      · exact ⟨c', hmem, hcov'⟩
      · rw [List.mem_singleton.mp hmem] at hcov'
        exact absurd hcov' hcovers

/-- Where the calls agree with what was mapped. -/
theorem foldl_apply_of_same {calls : List MapCall} {va physAddr : ℕ}
    (hsame : ∀ c ∈ calls, c.Covers va → c.physAddr / c.size * c.size + va % c.size = physAddr)
    {f : PageMap} (hf : (f va).map Prod.fst = some physAddr) :
    (calls.foldl (fun f c => c.apply f) f va).map Prod.fst = some physAddr := by
  induction calls using List.reverseRecOn with
  | nil => exact hf
  | append_singleton calls c ih =>
    have hlast := hsame c (List.mem_append_right _ (List.mem_singleton_self c))
    rw [List.foldl_append, List.foldl_cons, List.foldl_nil, MapCall.apply]
    by_cases hcovers : c.Covers va
    · rw [if_pos hcovers, Option.map_some, hlast hcovers]
    · rw [if_neg hcovers]
      exact ih fun c' hc' => hsame c' (List.mem_append_left _ hc')

/-- The walk takes 48 bits of an address. -/
theorem tableIndex_eq_of_page {va va' : ℕ} (h : va % 2 ^ 48 / 4096 = va' % 2 ^ 48 / 4096)
    {level : ℕ} (hlevel : level ≤ 3) : tableIndex va level = tableIndex va' level := by
  apply Fin.ext
  rw [tableIndex_val, tableIndex_val]
  obtain rfl | rfl | rfl | rfl : level = 0 ∨ level = 1 ∨ level = 2 ∨ level = 3 := by omega
  · omega
  · omega
  · omega
  · omega

theorem pagePath_eq_of_page {va va' : ℕ} (h : va % 2 ^ 48 / 4096 = va' % 2 ^ 48 / 4096) :
    pagePath va = pagePath va' := by
  have hindex := @tableIndex_eq_of_page va va' h
  simp only [pagePath, List.map_cons, List.map_nil, @hindex 3 (by omega), @hindex 2 (by omega),
    @hindex 1 (by omega)]

theorem pathOf_eq (va : ℕ) : pathOf va = pagePath va ++ [tableIndex va 0] := rfl

theorem pathOf_eq_of_page {va va' : ℕ} (h : va % 2 ^ 48 / 4096 = va' % 2 ^ 48 / 4096) :
    pathOf va = pathOf va' := by
  rw [pathOf_eq, pathOf_eq, pagePath_eq_of_page h, tableIndex_eq_of_page h (Nat.zero_le 3)]

theorem vmmGetAddr_lt (entry : ℕ) : vmmGetAddr entry + 4096 ≤ 2 ^ 52 := by
  rw [vmmGetAddr_eq]
  omega

/-- Physical addresses have 52 bits. -/
theorem hwWalk_lt {m : Machine} {va physAddr flags : ℕ}
    (h : hwWalk m va = some (physAddr, flags)) : physAddr < 2 ^ 52 := by
  have hlt := vmmGetAddr_lt
  unfold hwWalk at h
  dsimp only at h
  split_ifs at h
  · have hphys := (Prod.mk.inj (Option.some.inj h)).1
    have hpde := hlt (m.entry (vmmGetAddr (m.entry (vmmGetAddr (m.entry m.pml4Phys (tableIndex va 3)))
      (tableIndex va 2))) (tableIndex va 1))
    omega
  · have hphys := (Prod.mk.inj (Option.some.inj h)).1
    have hpte := hlt (m.entry (vmmGetAddr (m.entry (vmmGetAddr (m.entry (vmmGetAddr
      (m.entry m.pml4Phys (tableIndex va 3))) (tableIndex va 2))) (tableIndex va 1)))
      (tableIndex va 0))
    omega

/-- Where no larger page is, a leaf is a page of 4 KiB. -/
theorem size_of_pageLeaf {m : Machine} {va : ℕ} (habove : m.leaf (pagePath va) = none) {v : Leaf}
    (h : m.leaf (pathOf va) = some v) : v.size = 4096 := by
  rw [pathOf_eq] at h
  rcases @stop_or_follow _ _ _ _ paging m.mem 3 m.root (pagePath va) with
    ⟨p, i, t, f, hsplit, hf, hstop⟩ | ⟨f, hf⟩
  · -- the walk ends above the table
    rw [hsplit] at h habove
    rw [Machine.leaf, List.append_assoc, List.cons_append, find_of_stop hf hstop] at h
    rw [Machine.leaf, find_of_stop hf hstop, h] at habove
    exact absurd habove (by simp)
  · have hlevel : 3 - (pagePath va).length = 0 := rfl
    have hstop := find_of_stop (i := tableIndex va 0) hf (hlevel ▸ link_zero _) []
    rw [Machine.leaf, hstop, hlevel] at h
    by_cases hpresent : m.mem f (tableIndex va 0) &&& vmmPresent = 0
    · rw [leaf_absent hpresent] at h
      exact absurd h (by simp)
    · rw [leaf_page hpresent] at h
      rw [← Option.some.inj h]

/-- Addresses on one page of 4 KiB translate to one frame. -/
theorem hwWalk_same_page {m : Machine} {va va' : ℕ} (habove : m.leaf (pagePath va) = none)
    (hpage : va % 2 ^ 48 / 4096 = va' % 2 ^ 48 / 4096) {physAddr : ℕ}
    (h : (hwWalk m va).map Prod.fst = some (physAddr + va % 4096)) :
    (hwWalk m va').map Prod.fst = some (physAddr + va' % 4096) := by
  rw [hwWalk_eq] at h ⊢
  rw [← pathOf_eq_of_page hpage]
  cases hleaf : m.leaf (pathOf va) with
  | none =>
    rw [hleaf] at h
    exact absurd h (by simp)
  | some v =>
    have hsize := size_of_pageLeaf habove hleaf
    rw [hleaf] at h
    simp only [Option.map_some, Option.some.injEq, hsize] at h ⊢
    omega

/-! ## The range -/

/-- Every byte of the range translates, and no other page changes its translation. -/
structure MapsRange (m m' : Machine) (virtStart physStart size : ℕ) : Prop where
  maps : ∀ d, d < size → (hwWalk m' (virtStart + d)).map Prod.fst = some (physStart + d)
  other : ∀ va, (∀ d, d < size → (virtStart + d) % 2 ^ 48 / 4096 ≠ va % 2 ^ 48 / 4096) →
    hwWalk m' va = hwWalk m va

/-- A call of `vmm_map_range` whose starts lie equally far into their pages, over no larger page. -/
structure RangeRequest (m : Machine) (virtStart physStart size flags : ℕ) : Prop where
  claimed : Claimed m
  virt_le : virtStart + size ≤ 2 ^ 64
  phys_le : physStart + size ≤ 2 ^ 64
  offset_eq : virtStart % 4096 = physStart % 4096
  flags_addr : flags &&& vmmAddrMask = 0
  flags_lt : flags < 2 ^ 64
  above : ∀ d, d < size → m.leaf (pagePath (virtStart + d)) = none
  served : ∀ m', vmmMapRange m virtStart physStart size flags = some m' → m'.Served

/-- The pages of 4 KiB around the addresses from `va` on. -/
theorem page_add (va d : ℕ) :
    (va + d) % 2 ^ 48 / 4096 = (va / 4096 + (va % 4096 + d) / 4096) % 2 ^ 36 := by
  omega

/-- The bytes that the rounds of a range do not reach are on the page of its last byte. -/
theorem page_last {va d size : ℕ} (hd : d < size)
    (hround : ¬4096 * ((va % 4096 + d) / 4096) < size) :
    (va + (size - 1)) % 2 ^ 48 / 4096 = (va + d) % 2 ^ 48 / 4096 := by
  rw [page_add, page_add va d]
  omega

theorem round_of_page {va k d : ℕ} (hd : va % 4096 + d < 2 ^ 48) (hk : k < 2 ^ 36)
    (h : (va + d) % 2 ^ 48 / 4096 = (va + 4096 * k) % 2 ^ 48 / 4096) :
    k = (va % 4096 + d) / 4096 := by
  have hround : (va % 4096 + 4096 * k) / 4096 = k := by omega
  rw [page_add va d, page_add va (4096 * k), hround] at h
  generalize va / 4096 = page at h
  omega

theorem covers_rangeCall {virtStart physAddr flags k va : ℕ} :
    (⟨false, (virtStart + 4096 * k) % 2 ^ 64, physAddr, flags⟩ : MapCall).Covers va ↔
      va % 2 ^ 48 / 4096 = (virtStart + 4096 * k) % 2 ^ 48 / 4096 := by
  have hmod : (virtStart + 4096 * k) % 2 ^ 64 % 2 ^ 48 = (virtStart + 4096 * k) % 2 ^ 48 := by omega
  simp only [MapCall.Covers, MapCall.size, Bool.false_eq_true, if_false, hmod]

theorem pagePath_mod (va : ℕ) : pagePath (va % 2 ^ 64) = pagePath va := by
  apply pagePath_eq_of_page
  omega

namespace RangeRequest

variable {m m' : Machine} {virtStart physStart size flags : ℕ}

theorem pageCalls (h : RangeRequest m virtStart physStart size flags) :
    PageCalls m (rangeCalls virtStart physStart size flags) := by
  constructor
  · intro c hc
    exact huge_of_mem_rangeCalls hc
  · intro c hc
    obtain ⟨k, hk, rfl⟩ := mem_rangeCalls.mp hc
    rw [path_of_page rfl]
    change m.leaf (pagePath ((virtStart + 4096 * k) % 2 ^ 64)) = none
    rw [pagePath_mod]
    exact h.above (4096 * k) hk

theorem leafCalls (h : RangeRequest m virtStart physStart size flags)
    (hphys : physStart + size ≤ 2 ^ 52) : LeafCalls (rangeCalls virtStart physStart size flags) := by
  intro c hc
  obtain ⟨k, hk, rfl⟩ := mem_rangeCalls.mp hc
  exact ⟨(Nat.mod_le _ _).trans_lt (by omega), h.flags_addr, h.flags_lt⟩

theorem ran (h : RangeRequest m virtStart physStart size flags)
    (hm' : vmmMapRange m virtStart physStart size flags = some m') :
    Ran m m' (rangeCalls virtStart physStart size flags) := by
  have hserved := h.served m' hm'
  rw [eq_runCalls_of_vmmMapRange hm'] at hserved ⊢
  exact h.pageCalls.ran h.claimed hserved

theorem hwWalk_eq (h : RangeRequest m virtStart physStart size flags)
    (hphys : physStart + size ≤ 2 ^ 52)
    (hm' : vmmMapRange m virtStart physStart size flags = some m') :
    hwWalk m' =
      (rangeCalls virtStart physStart size flags).foldl (fun f c => c.apply f) (hwWalk m) := by
  have hserved := h.served m' hm'
  rw [eq_runCalls_of_vmmMapRange hm'] at hserved ⊢
  exact hwWalk_runCalls_eq h.claimed h.pageCalls (h.leafCalls hphys) hserved

/-- Pages that the range does not meet keep their translation. -/
theorem hwWalk_other (h : RangeRequest m virtStart physStart size flags)
    (hphys : physStart + size ≤ 2 ^ 52)
    (hm' : vmmMapRange m virtStart physStart size flags = some m') {va : ℕ}
    (hva : ∀ k, 4096 * k < size → (virtStart + 4096 * k) % 2 ^ 48 / 4096 ≠ va % 2 ^ 48 / 4096) :
    hwWalk m' va = hwWalk m va := by
  rw [h.hwWalk_eq hphys hm']
  apply foldl_apply_of_not_covers
  intro c hc hcovers
  obtain ⟨k, hk, rfl⟩ := mem_rangeCalls.mp hc
  exact hva k hk (covers_rangeCall.mp hcovers).symm

/-- The pages of the loop are mapped. -/
theorem hwWalk_page (h : RangeRequest m virtStart physStart size flags)
    (hphys : physStart + size ≤ 2 ^ 52) (hvirt : virtStart % 4096 + size ≤ 2 ^ 48)
    (hm' : vmmMapRange m virtStart physStart size flags = some m') {d : ℕ} (hd : d < size)
    (hround : 4096 * ((virtStart % 4096 + d) / 4096) < size) :
    (hwWalk m' (virtStart + d)).map Prod.fst = some (physStart + d) := by
  have hoffset := h.offset_eq
  suffices hcalls : (rangeCalls virtStart physStart size flags).foldl (fun f c => c.apply f)
      (hwWalk m) (virtStart + d) = some (physStart + d, flags ||| vmmPresent) by
    rw [h.hwWalk_eq hphys hm', hcalls]
    rfl
  apply foldl_apply_of_covers
  · refine ⟨_, mem_rangeCalls.mpr ⟨_, hround, rfl⟩, covers_rangeCall.mpr ?_⟩
    omega
  · intro c hc hcovers
    obtain ⟨k, hk, rfl⟩ := mem_rangeCalls.mp hc
    have hpage := covers_rangeCall.mp hcovers
    have hsize : (⟨false, (virtStart + 4096 * k) % 2 ^ 64, (physStart + 4096 * k) % 2 ^ 64, flags⟩ :
      MapCall).size = 4096 := rfl
    have hk' : k = (virtStart % 4096 + d) / 4096 := round_of_page (by omega) (by omega) hpage
    rw [hsize]
    apply Prod.ext
    · change (physStart + 4096 * k) % 2 ^ 64 / 4096 * 4096 + (virtStart + d) % 4096 = physStart + d
      omega
    · rfl

/-- A range with a byte that is mapped as asked ends below `2 ^ 52`, and its pages are distinct. -/
theorem fits (h : RangeRequest m virtStart physStart size flags) (hsize : size ≠ 0)
    (hm' : vmmMapRange m virtStart physStart size flags = some m')
    (hmaps : MapsRange m m' virtStart physStart size) :
    physStart + size ≤ 2 ^ 52 ∧ virtStart % 4096 + size ≤ 2 ^ 48 := by
  have hoffset := h.offset_eq
  constructor
  · have hlast := hmaps.maps (size - 1) (by omega)
    obtain ⟨⟨physAddr, _⟩, hwalk, hfst⟩ := Option.map_eq_some_iff.mp hlast
    have hlt := hwWalk_lt hwalk
    have hphys : physAddr = physStart + (size - 1) := hfst
    omega
  · by_contra hlong
    -- the first page comes back after `2 ^ 48` bytes
    have hfirst := hmaps.maps 0 (by omega)
    have habove : m'.leaf (pagePath (virtStart + 0)) = none := by
      rw [(h.ran hm').leaf_short _ (by simp [pagePath])]
      exact h.above 0 (by omega)
    have hagain := hmaps.maps (2 ^ 48 - virtStart % 4096) (by omega)
    have hstart : physStart + 0 = physStart / 4096 * 4096 + (virtStart + 0) % 4096 := by omega
    rw [hstart] at hfirst
    have hpage : (virtStart + 0) % 2 ^ 48 / 4096 =
        (virtStart + (2 ^ 48 - virtStart % 4096)) % 2 ^ 48 / 4096 := by
      rw [page_add, page_add virtStart (2 ^ 48 - virtStart % 4096)]
      omega
    have hsame := hwWalk_same_page habove hpage hfirst
    rw [hsame] at hagain
    have hphys := Option.some.inj hagain
    omega

end RangeRequest

theorem Stocked.runCalls {calls : List MapCall} {m : Machine} {n : ℕ} {R : ℕ → Prop}
    (h : Stocked m (3 * calls.length + n) R) : Stocked (runCalls calls m) n R := by
  induction calls generalizing m with
  | nil => exact h.mono (by simp)
  | cons c calls ih =>
    apply ih
    apply Stocked.exec
    apply h.mono
    rw [List.length_cons]
    omega

/-- A request on the small machine. -/
theorem rangeRequest_smallMachine {s : PmmContext} (hempty : EmptyPml4 (smallMachine s))
    (hclaimed : Claimed (smallMachine s)) {n : ℕ} (hstocked : Stocked (smallMachine s) (3 * n))
    {start size : ℕ} (hsize : size ≤ 4096 * n) (hstart : start + size ≤ 2 ^ 64) :
    RangeRequest (smallMachine s) start start size 3 := by
  have hblank : Blank paging (smallMachine s).mem (smallMachine s).root := blank_of_zero hempty
  refine ⟨hclaimed, hstart, hstart, rfl, by decide, by norm_num, fun d _ => hblank.find 3 _,
    fun m' hm' => ?_⟩
  rw [eq_runCalls_of_vmmMapRange hm']
  refine (@Stocked.runCalls _ _ 0 _ (hstocked.mono ?_)).served
  rw [rangeCalls, List.length_map, List.length_range]
  omega

/-- `vmm_map_range` maps what it is asked to map if and only if the loop reaches the last page of
the range or that page is mapped as asked already, and the range fits below `2 ^ 52` and into the
`2 ^ 48` bytes that the tables tell apart. -/
theorem mapsRange_iff {m : Machine} {virtStart physStart size flags : ℕ}
    (h : RangeRequest m virtStart physStart size flags) :
    (∃ m', vmmMapRange m virtStart physStart size flags = some m' ∧
      MapsRange m m' virtStart physStart size) ↔
      size = 0 ∨ (physStart + size ≤ 2 ^ 52 ∧ virtStart % 4096 + size ≤ 2 ^ 48 ∧
        (virtStart % 4096 + size ≤ 4096 * ((size + 4095) / 4096) ∨
          (hwWalk m (virtStart + (size - 1))).map Prod.fst = some (physStart + (size - 1)))) := by
  have hoffset := h.offset_eq
  constructor
  · intro hsome
    obtain ⟨m', hm', hmaps⟩ := hsome
    by_cases hsize : size = 0
    · exact .inl hsize
    obtain ⟨hphys, hvirt⟩ := h.fits hsize hm' hmaps
    refine .inr ⟨hphys, hvirt, or_iff_not_imp_left.mpr fun hlast => ?_⟩
    -- no round covers the last page
    rw [← h.hwWalk_other hphys hm']
    · exact hmaps.maps (size - 1) (by omega)
    · intro k hk hpage
      have hround := round_of_page (by omega) (by omega) hpage.symm
      omega
  · intro hfits
    by_cases hsize : size = 0
    · have hm' := @vmmMapRange_eq virtStart physStart size flags m (by omega)
      subst hsize
      exact ⟨m, hm', fun d hd => absurd hd (Nat.not_lt_zero d), fun va _ => rfl⟩
    · obtain ⟨hphys, hvirt, hlast⟩ := hfits.resolve_left hsize
      have hm' := @vmmMapRange_eq virtStart physStart size flags m (by omega)
      refine ⟨_, hm', fun d hd => ?_, fun va hva => ?_⟩
      · by_cases hround : 4096 * ((virtStart % 4096 + d) / 4096) < size
        · exact h.hwWalk_page hphys hvirt hm' hd hround
        · -- the last page, which was mapped before
          have hmapped := hlast.resolve_left (by omega)
          have hpage := page_last hd hround
          rw [h.hwWalk_other hphys hm']
          · have habove := h.above (size - 1) (by omega)
            have hstart : physStart + (size - 1) =
                (physStart + (size - 1)) / 4096 * 4096 + (virtStart + (size - 1)) % 4096 := by omega
            rw [hstart] at hmapped
            rw [hwWalk_same_page habove hpage hmapped]
            apply congrArg some
            omega
          · intro k hk heq
            have hk' := round_of_page (by omega) (by omega) heq.symm
            omega
      · apply h.hwWalk_other hphys hm'
        intro k hk
        exact hva (4096 * k) hk

/-- The first half of a page. -/
theorem mapsRange_smallMap : ∃ s, pmmInit smallMap (fun _ => 0) = some (pmmInitSuccess, s) ∧
    ∃ m', vmmMapRange (smallMachine s) 0x1000 0x1000 0x800 3 = some m' ∧
      MapsRange (smallMachine s) m' 0x1000 0x1000 0x800 := by
  obtain ⟨s, hs, hsize, htotal, hused⟩ := pmmInit_smallMap
  obtain ⟨hempty, hclaimed, hstocked⟩ :=
    smallMachine_facts hsize htotal hused (by omega) (by omega)
  have hrequest := @rangeRequest_smallMachine s hempty hclaimed 1
    (hstocked.mono (by omega)) 0x1000 0x800 (by norm_num) (by norm_num)
  exact ⟨s, hs, (mapsRange_iff hrequest).mpr (.inr (by norm_num))⟩

/-- A page of bytes from the middle of a page on: its second half is on the next page, which the
loop does not reach. -/
theorem not_mapsRange_middle : ∃ s, pmmInit smallMap (fun _ => 0) = some (pmmInitSuccess, s) ∧
    RangeRequest (smallMachine s) 0x1800 0x1800 0x1000 3 ∧
    ∀ m', vmmMapRange (smallMachine s) 0x1800 0x1800 0x1000 3 = some m' →
      hwWalk m' 0x2000 = none ∧ ¬MapsRange (smallMachine s) m' 0x1800 0x1800 0x1000 := by
  obtain ⟨s, hs, hsize, htotal, hused⟩ := pmmInit_smallMap
  obtain ⟨hempty, hclaimed, hstocked⟩ :=
    smallMachine_facts hsize htotal hused (by omega) (by omega)
  have hrequest := @rangeRequest_smallMachine s hempty hclaimed 1
    (hstocked.mono (by omega)) 0x1800 0x1000 (by norm_num) (by norm_num)
  have hblank : Blank paging (smallMachine s).mem (smallMachine s).root := blank_of_zero hempty
  refine ⟨s, hs, hrequest, fun m' hm' => ?_⟩
  have hnext : hwWalk m' 0x2000 = none := by
    rw [hrequest.hwWalk_other (by norm_num) hm', Vmm.hwWalk_eq, Machine.leaf, hblank.find 3]
    · rfl
    · intro k hk
      omega
  refine ⟨hnext, fun hmaps => ?_⟩
  have hbyte := hmaps.maps 0x800 (by norm_num)
  rw [hnext] at hbyte
  exact absurd hbyte (by simp)

end MathUnikernel.Vmm
