import MathUnikernel.MapRange

/-!
# The tables that a range needs

`vmm_map_range` takes one frame for each slot of the upper three levels that is missing, and a
second call with the same arguments changes nothing.
-/

namespace MathUnikernel.Vmm
open Pmm RadixTree

/-! ## Slots of the upper levels -/

/-- The entries that lead down from a table along the indices are all present. -/
def Machine.PresentFrom (m : Machine) (table : ℕ) : List (Fin 512) → Prop
  | [] => True
  | index :: slot => m.entry table index &&& vmmPresent ≠ 0 ∧
      m.PresentFrom (vmmGetAddr (m.entry table index)) slot

/-- The slot is named by the indices that lead to it from the PML4 on. -/
def Machine.Present (m : Machine) (slot : List (Fin 512)) : Prop := m.PresentFrom m.pml4Phys slot

/-- A PML4, PDPT or PD slot that the walk of an address of the range goes through. -/
def RangeSlot (virtStart size : ℕ) (slot : List (Fin 512)) : Prop :=
  slot ≠ [] ∧ ∃ d, d < size ∧ slot <+: pagePath (virtStart + d)

theorem presentFrom_iff {m : Machine} {slot : List (Fin 512)} {level table : ℕ}
    (hlevel : slot.length ≤ level)
    (hleaf : find paging m.mem level (physAddrToIndex table) slot = none) :
    m.PresentFrom table slot ↔
      ∃ f, follow paging m.mem level (physAddrToIndex table) slot = some f := by
  induction slot generalizing level table with
  | nil => exact ⟨fun _ => ⟨_, rfl⟩, fun _ => trivial⟩
  | cons index slot ih =>
    have hpos : level ≠ 0 := by
      rw [List.length_cons] at hlevel
      omega
    rw [Machine.PresentFrom, follow]
    by_cases habsent : m.entry table index &&& vmmPresent = 0
    · have hlink : paging.link level (m.mem (physAddrToIndex table) index) = none :=
        link_absent habsent
      rw [hlink]
      simp [habsent]
    · have hhuge : level = 1 → m.entry table index &&& vmmHuge = 0 := by
        intro hone
        by_contra hhuge
        subst hone
        have hlink : paging.link 1 (m.mem (physAddrToIndex table) index) = none := link_huge hhuge
        simp only [find, hlink] at hleaf
        have hpage : paging.leaf 1 (m.mem (physAddrToIndex table) index) = some _ :=
          leaf_huge habsent hhuge
        rw [hpage] at hleaf
        exact absurd hleaf (by simp)
      have hlink : paging.link level (m.mem (physAddrToIndex table) index) =
          some (physAddrToIndex (vmmGetAddr (m.entry table index))) := link_table habsent hpos hhuge
      simp only [find, hlink] at hleaf
      rw [hlink, Option.bind_some, ← ih _ hleaf]
      · exact and_iff_right habsent
      · rw [List.length_cons] at hlevel
        omega

/-- Where no larger page is, a slot is present if and only if it leads to a table. -/
theorem present_iff {m : Machine} {slot path : List (Fin 512)} (hbelow : slot <+: path)
    (hlength : path.length ≤ 3) (habove : m.leaf path = none) :
    m.Present slot ↔ ∃ f, m.table slot = some f := by
  apply presentFrom_iff (hbelow.length_le.trans hlength)
  cases hfind : find paging m.mem 3 (physAddrToIndex m.pml4Phys) slot with
  | none => rfl
  | some leaf =>
    obtain ⟨rest, rfl⟩ := hbelow
    have hlong : m.leaf (slot ++ rest) = some leaf := find_append_of_some hfind rest
    rw [hlong] at habove
    exact absurd habove (by simp)

/-! ## The frames taken -/

/-- The frames of the tables that a run adds. -/
theorem Ran.used_iff {m m' : Machine} {calls : List MapCall} (h : Ran m m' calls) (f : ℕ) :
    (m.pmm.used f = false ∧ m'.pmm.used f = true) ↔ m'.IsTable f ∧ ¬m.IsTable f := by
  have hused := h.used f
  constructor
  · intro ⟨hfree, hafter⟩
    rcases hused.mp hafter with hold | hnew
    · rw [hold] at hfree
      exact absurd hfree (by simp)
    · exact hnew
  · intro hnew
    refine ⟨?_, hused.mpr (.inr hnew)⟩
    exact (h.fresh f hnew.1).resolve_left hnew.2

/-- They are as many as the paths without a table that the calls go through. -/
theorem Ran.encard_taken {m m' : Machine} {calls : List MapCall} (h : Ran m m' calls) :
    {f | m.pmm.used f = false ∧ m'.pmm.used f = true}.encard =
      {q | (∃ c ∈ calls, q <+: c.path) ∧ m.table q = none}.encard := by
  have htable : ∀ q, q ∈ {q | (∃ c ∈ calls, q <+: c.path) ∧ m.table q = none} →
      ∃ f, m'.table q = some f := fun q hq => (h.paths q).mpr (.inr hq.1)
  have hinj : Set.InjOn (fun q => (m'.table q).getD 0)
      {q | (∃ c ∈ calls, q <+: c.path) ∧ m.table q = none} := ?_
  rw [← hinj.encard_image]
  · apply congrArg Set.encard
    ext f
    rw [Set.mem_ofPred_eq, h.used_iff f, Set.mem_image]
    constructor
    · intro ⟨⟨q, hq⟩, hold⟩
      have hnone : m.table q = none := by
        cases hbefore : m.table q with
        | none => rfl
        | some g =>
          have hg := h.table q g hbefore
          rw [hq] at hg
          exact absurd ⟨q, hbefore.trans hg.symm⟩ hold
      have hpath : ∃ c ∈ calls, q <+: c.path := by
        apply ((h.paths q).mp ⟨f, hq⟩).resolve_left
        rw [hnone]
        simp
      exact ⟨q, ⟨hpath, hnone⟩, by rw [hq, Option.getD_some]⟩
    · intro ⟨q, hq, heq⟩
      obtain ⟨g, hg⟩ := htable q hq
      rw [hg, Option.getD_some] at heq
      subst heq
      refine ⟨⟨q, hg⟩, fun ⟨p, hp⟩ => ?_⟩
      -- a frame holds one table
      rw [h.claimed.tree p q g (h.table p g hp) hg, hq.2] at hp
      exact absurd hp (by simp)
  · intro q hq q' hq' heq
    obtain ⟨g, hg⟩ := htable q hq
    obtain ⟨g', hg'⟩ := htable q' hq'
    simp only [hg, hg', Option.getD_some] at heq
    exact h.claimed.tree q q' g hg (heq ▸ hg')

/-- Where only pages of 4 KiB are mapped, calls whose requests find frames run so. -/
theorem Paged.ran {m : Machine} (h : Paged m) {calls : List MapCall}
    (hpages : ∀ c ∈ calls, c.huge = false) (hanswered : (Vmm.runCalls calls m).Answered) :
    Ran m (Vmm.runCalls calls m) calls := by
  induction calls using List.reverseRecOn with
  | nil => exact ran_nil h.claimed
  | append_singleton calls c ih =>
    rw [runCalls_snoc] at hanswered ⊢
    have hinit : ∀ c' ∈ calls, c'.huge = false := fun c' hc' =>
      hpages c' (List.mem_append_left _ hc')
    have hbefore := hanswered.of_prefix (exec_log _ c)
    have hpage := hpages c (List.mem_append_right _ (List.mem_singleton_self c))
    exact (ih hinit hbefore).snoc hinit hpage
      ((h.runCalls hinit hbefore).1.orderly hpage hanswered)

/-- The free frames of `m` are those of `m'` and the new tables. -/
theorem Ran.clearCount {m m' : Machine} {calls : List MapCall} (h : Ran m m' calls)
    (htaken : Taken m.pmm m'.pmm) : Pmm.clearCount m'.pmm +
      ((tablePaths calls).filter fun q => m.table q = none).card = Pmm.clearCount m.pmm := by
  have hpaths : {q | (∃ c ∈ calls, q <+: c.path) ∧ m.table q = none} =
      ↑((tablePaths calls).filter fun q => m.table q = none) := by
    ext q
    rw [Set.mem_ofPred_eq, Finset.mem_coe, Finset.mem_filter, mem_tablePaths]
    by_cases hroot : q = []
    · simp [hroot, Machine.table]
    · simp [hroot]
  have hcard := h.encard_taken
  rw [hpaths, Set.encard_coe_eq_coe_finsetCard] at hcard
  have hfinite := Set.finite_of_encard_eq_coe hcard
  rw [hfinite.encard_eq_coe_toFinset_card, ENat.natCast_inj] at hcard
  rw [← hcard]
  apply clearCount_mark _ _ _ h.totalFrames
  · intro f hf
    obtain ⟨hfree, hused⟩ := hfinite.mem_toFinset.mp hf
    have hold := htaken.taken f hused
    rw [hfree] at hold
    exact ⟨(hold.resolve_left (by simp)).1, hfree⟩
  · intro f
    rw [Bool.eq_iff_iff, Bool.or_eq_true, decide_eq_true_eq, hfinite.mem_toFinset,
      Set.mem_ofPred_eq]
    constructor
    · intro hused
      by_cases hold : m.pmm.used f = true
      · exact .inl hold
      · exact .inr ⟨Bool.eq_false_iff.mpr hold, hused⟩
    · intro hcases
      rcases hcases with hold | hnew
      · exact (h.used f).mpr (.inl hold)
      · exact hnew.2

/-! ## The same calls again -/

/-- Calls whose tables exist write their leaves and do nothing else. -/
structure Rerun (m r : Machine) (calls : List MapCall) : Prop where
  ran : Ran m r calls
  same : r = { m with mem := r.mem }
  mem_cases : ∀ f j, r.mem f j = m.mem f j ∨
    ∃ p entry, m.table p = some f ∧ lastEntry calls p j = some entry

theorem lastEntry_of_snoc {calls : List MapCall} {c : MapCall} {p : List (Fin 512)} {j : Fin 512}
    (h : ∃ entry, lastEntry calls p j = some entry) :
    ∃ entry, lastEntry (calls ++ [c]) p j = some entry := by
  rw [lastEntry_snoc]
  split_ifs
  · exact ⟨_, rfl⟩
  · exact h

theorem Rerun.snoc {m r : Machine} {calls : List MapCall} (h : Rerun m r calls)
    (hserved : r.Served) {c : MapCall} (hcalls : PageCalls m (calls ++ [c]))
    (htable : ∃ f, m.table c.path = some f) : Rerun m (c.exec r) (calls ++ [c]) := by
  obtain ⟨f, hf⟩ := htable
  have hfr := h.ran.table _ _ hf
  -- the walk adds no table, so no frame is asked for
  have hdescend : (descend c.virtAddr c.levels r r.pml4Phys).1 = r :=
    descend_of_table (p := []) rfl hfr
  have hlog : (c.exec r).log = r.log := by
    rw [exec_eq, hdescend]
    rfl
  have horderly : Orderly r c := by
    apply hcalls.orderly h.ran
    intro e he
    rw [hlog] at he
    exact hserved e he
  have hran := h.ran.snoc hcalls.init.page hcalls.last.1 horderly
  have hslot := (descended_of_orderly h.ran.claimed.tree horderly).table
  rw [hdescend, hfr] at hslot
  have hexec : c.exec r =
      r.setEntry (descend c.virtAddr c.levels r r.pml4Phys).2 c.index c.newEntry := by
    rw [exec_eq, hdescend]
  refine ⟨hran, ?_, fun g j => ?_⟩
  · rw [hexec, Machine.setEntry, h.same]
  · rw [hexec, mem_setEntry, ← Option.some.inj hslot]
    split_ifs with hwritten
    · obtain ⟨rfl, rfl⟩ := hwritten
      refine .inr ⟨c.path, c.newEntry, hf, ?_⟩
      rw [lastEntry_snoc, if_pos ⟨rfl, rfl⟩]
    · rcases h.mem_cases g j with hkept | ⟨p, entry, hp, hlast⟩
      · exact .inl hkept
      · obtain ⟨entry', hlast'⟩ := lastEntry_of_snoc ⟨entry, hlast⟩
        exact .inr ⟨p, entry', hp, hlast'⟩

theorem rerun_runCalls {m : Machine} (hm : Claimed m) (hserved : m.Served) {calls : List MapCall}
    (hcalls : PageCalls m calls) (htables : ∀ c ∈ calls, ∃ f, m.table c.path = some f) :
    Rerun m (runCalls calls m) calls := by
  induction calls using List.reverseRecOn with
  | nil => exact ⟨ran_nil hm, rfl, fun f j => .inl rfl⟩
  | append_singleton calls c ih =>
    have hrun := ih hcalls.init fun c' hc' => htables c' (List.mem_append_left _ hc')
    rw [runCalls_snoc]
    apply hrun.snoc _ hcalls
    · exact htables c (List.mem_append_right _ (List.mem_singleton_self c))
    · rw [hrun.same]
      exact hserved

/-- A second run of the calls leaves the machine as it is. -/
theorem Rerun.eq {m m' r : Machine} {calls : List MapCall} (hrun : Ran m m' calls)
    (h : Rerun m' r calls) : r = m' := by
  have hmem : r.mem = m'.mem := by
    funext f j
    rcases h.mem_cases f j with hkept | ⟨p, entry, hp, hlast⟩
    · exact hkept
    · -- both runs wrote the last entry of the calls
      obtain ⟨g, hg, hfirst⟩ := hrun.written p j entry hlast
      obtain ⟨g', hg', hagain⟩ := h.ran.written p j entry hlast
      have hgf : g = f := Option.some.inj (hg.symm.trans hp)
      have hg'f : g' = f := Option.some.inj (hg'.symm.trans (h.ran.table p f hp))
      rw [← hgf, hfirst, hgf, ← hg'f, hagain]
  rw [h.same, hmem]

/-! ## `vmm_map_range` -/

theorem exists_rangeCall_iff {virtStart physStart size flags : ℕ} (hvirt : virtStart % 4096 = 0)
    (slot : List (Fin 512)) :
    (∃ c ∈ rangeCalls virtStart physStart size flags, slot <+: c.path) ↔
      ∃ d, d < size ∧ slot <+: pagePath (virtStart + d) := by
  constructor
  · intro ⟨c, hc, hslot⟩
    obtain ⟨k, hk, rfl⟩ := mem_rangeCalls.mp hc
    rw [path_of_page rfl] at hslot
    refine ⟨4096 * k, hk, ?_⟩
    rw [← pagePath_mod]
    exact hslot
  · intro ⟨d, hd, hslot⟩
    refine ⟨_, mem_rangeCalls.mpr ⟨d / 4096, by omega, rfl⟩, ?_⟩
    rw [path_of_page rfl]
    change slot <+: pagePath ((virtStart + 4096 * (d / 4096)) % 2 ^ 64)
    rw [pagePath_mod, @pagePath_eq_of_page _ (virtStart + d) (by omega)]
    exact hslot

/-- `vmm_map_range` takes as many frames as slots of the range were missing, and the same call again
takes none and changes nothing. -/
theorem vmmMapRange_tables {m : Machine} (hm : Claimed m) {virtStart physStart size flags : ℕ}
    (hvirt : virtStart % 4096 = 0) (hsize : size % 4096 = 0) (hlt : size < 2 ^ 64)
    (habove : ∀ d, d < size → m.leaf (pagePath (virtStart + d)) = none) :
    ∃ m', vmmMapRange m virtStart physStart size flags = some m' ∧ (m'.Served →
      {f | m.pmm.used f = false ∧ m'.pmm.used f = true}.encard =
        {slot | RangeSlot virtStart size slot ∧ ¬m.Present slot}.encard ∧
      (∀ f, m.pmm.used f = true → m'.pmm.used f = true) ∧
      vmmMapRange m' virtStart physStart size flags = some m') := by
  have hend : size + 4096 ≤ 2 ^ 64 := by omega
  refine ⟨_, vmmMapRange_eq m hend, fun hserved => ?_⟩
  rw [vmmMapRange_eq _ hend]
  have hpaths : ∀ c ∈ rangeCalls virtStart physStart size flags,
      c.path.length ≤ 3 ∧ m.leaf c.path = none := by
    intro c hc
    obtain ⟨k, hk, rfl⟩ := mem_rangeCalls.mp hc
    refine ⟨(length_path rfl).le, ?_⟩
    rw [path_of_page rfl]
    change m.leaf (pagePath ((virtStart + 4096 * k) % 2 ^ 64)) = none
    rw [pagePath_mod]
    exact habove (4096 * k) hk
  have hcalls : PageCalls m (rangeCalls virtStart physStart size flags) :=
    ⟨fun c hc => huge_of_mem_rangeCalls hc, fun c hc => (hpaths c hc).2⟩
  have hran := hcalls.ran hm hserved
  refine ⟨?_, fun f hf => (hran.used f).mpr (.inl hf), ?_⟩
  · rw [hran.encard_taken]
    apply congrArg Set.encard
    ext slot
    rw [Set.mem_ofPred_eq, Set.mem_ofPred_eq, RangeSlot, exists_rangeCall_iff hvirt]
    by_cases hroot : slot = []
    · simp [hroot, Machine.table]
    by_cases hrange : ∃ d, d < size ∧ slot <+: pagePath (virtStart + d)
    · obtain ⟨d, hd, hbelow⟩ := hrange
      rw [present_iff hbelow (by simp [pagePath]) (habove d hd), Option.eq_none_iff_forall_ne_some]
      simp only [hroot, ne_eq, not_false_eq_true, true_and, not_exists]
    · simp [hrange]
  · -- the second run finds all its tables
    have hagain : PageCalls (runCalls (rangeCalls virtStart physStart size flags) m)
        (rangeCalls virtStart physStart size flags) := by
      refine ⟨hcalls.page, fun c hc => ?_⟩
      rw [hran.leaf_short _ (hpaths c hc).1]
      exact hcalls.above c hc
    have hrerun := rerun_runCalls hran.claimed hserved hagain fun c hc =>
      (hran.paths c.path).mpr (.inr ⟨c, hc, List.prefix_rfl⟩)
    exact congrArg some (hrerun.eq hran)

/-- The last page under one page table and the first under the next, on the small machine: a PDPT, a
PD and two page tables. -/
theorem vmmMapRange_tables_smallMap :
    ∃ s, pmmInit smallMap (fun _ => 0) = some (pmmInitSuccess, s) ∧
      ∃ m', vmmMapRange (smallMachine s) 0x1ff000 0x1ff000 0x2000 3 = some m' ∧
        {f | s.used f = false ∧ m'.pmm.used f = true}.encard =
          {slot | RangeSlot 0x1ff000 0x2000 slot ∧ ¬(smallMachine s).Present slot}.encard ∧
        {slot | RangeSlot 0x1ff000 0x2000 slot ∧ ¬(smallMachine s).Present slot}.encard = 4 ∧
        vmmMapRange m' 0x1ff000 0x1ff000 0x2000 3 = some m' := by
  obtain ⟨s, hs, hsize, htotal, hused⟩ := pmmInit_smallMap
  obtain ⟨hempty, hclaimed, hstocked⟩ :=
    smallMachine_facts hsize htotal hused (by omega) (by omega)
  have hrequest := @rangeRequest_smallMachine s hempty hclaimed 2
    (hstocked.mono (by omega)) 0x1ff000 0x2000 (by norm_num) (by norm_num)
  obtain ⟨m', hm', htables⟩ := @vmmMapRange_tables _ hclaimed 0x1ff000 0x1ff000 0x2000 3
    (by norm_num) (by norm_num) (by norm_num) hrequest.above
  obtain ⟨hcard, -, hagain⟩ := htables (hrequest.served m' hm')
  have hpaths : ∀ slot, (∃ d, d < 0x2000 ∧ slot <+: pagePath (0x1ff000 + d)) ↔
      slot <+: pagePath 0x1ff000 ∨ slot <+: pagePath 0x200000 := by
    intro slot
    constructor
    · intro ⟨d, hd, hslot⟩
      by_cases hfirst : d < 0x1000
      · rw [@pagePath_eq_of_page _ 0x1ff000 (by omega)] at hslot
        exact .inl hslot
      · rw [@pagePath_eq_of_page _ 0x200000 (by omega)] at hslot
        exact .inr hslot
    · intro hslot
      rcases hslot with hslot | hslot
      · exact ⟨0, by norm_num, hslot⟩
      · exact ⟨0x1000, by norm_num, hslot⟩
  have hslots : {slot | RangeSlot 0x1ff000 0x2000 slot ∧ ¬(smallMachine s).Present slot} =
      ↑(((pagePath 0x1ff000).inits ++ (pagePath 0x200000).inits).toFinset.erase []) := by
    ext slot
    rw [Set.mem_ofPred_eq, RangeSlot, hpaths, Finset.mem_coe, Finset.mem_erase, List.mem_toFinset,
      List.mem_append, List.mem_inits, List.mem_inits]
    apply and_iff_left_of_imp
    intro ⟨hne, _⟩
    obtain ⟨index, slot', rfl⟩ := List.exists_cons_of_ne_nil hne
    simp [Machine.Present, Machine.PresentFrom, Machine.entry, smallMachine]
  refine ⟨s, hs, m', hm', hcard, ?_, hagain⟩
  rw [hslots, Set.encard_coe_eq_coe_finsetCard]
  exact congrArg _ (by decide : Finset.card _ = 4)

end MathUnikernel.Vmm
