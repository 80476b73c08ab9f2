import MathUnikernel.Boot
import MathUnikernel.PmmCounter

/-!
# The tables that `vmm_init` needs

How many frames a list of calls takes depends on the addresses alone.
-/

namespace MathUnikernel.Vmm
open Pmm RadixTree

/-! ## The tables of a list of calls -/

/-- The paths of the tables that lead to the pages of the calls, the PML4's among them. -/
def tablePaths (calls : List MapCall) : Finset (List (Fin 512)) :=
  insert [] (calls.flatMap fun c => c.path.inits).toFinset

theorem mem_tablePaths {calls : List MapCall} {q : List (Fin 512)} :
    q ∈ tablePaths calls ↔ q = [] ∨ ∃ c ∈ calls, q <+: c.path := by
  simp [tablePaths, List.mem_inits]

/-- Pages in the same 2 MiB need the same tables. -/
theorem path_eq_of_div {c c' : MapCall} (hpage : c.huge = false) (hpage' : c'.huge = false)
    (h : c.virtAddr / 2 ^ 21 = c'.virtAddr / 2 ^ 21) : c.path = c'.path := by
  have hindex : ∀ level, 1 ≤ level → level ≤ 3 →
      tableIndex c.virtAddr level = tableIndex c'.virtAddr level := by
    intro level hlo hhi
    apply Fin.ext
    rw [tableIndex_val, tableIndex_val]
    obtain rfl | rfl | rfl : level = 1 ∨ level = 2 ∨ level = 3 := by omega
    · omega
    · omega
    · omega
  simp only [MapCall.path, MapCall.levels, hpage, hpage', Bool.false_eq_true, if_false, List.map_cons,
    List.map_nil, hindex 3 (by omega) le_rfl, hindex 2 (by omega) (by omega),
    hindex 1 le_rfl (by omega)]

theorem tablePaths_subset {calls calls' : List MapCall}
    (h : ∀ c ∈ calls, ∃ c' ∈ calls', c.path = c'.path) : tablePaths calls ⊆ tablePaths calls' := by
  intro q hq
  apply mem_tablePaths.mpr
  apply (mem_tablePaths.mp hq).imp_right
  intro ⟨c, hc, hpre⟩
  obtain ⟨c', hc', heq⟩ := h c hc
  exact ⟨c', hc', heq ▸ hpre⟩

/-- Three tables for each call, and the PML4. -/
theorem card_tablePaths_le {calls : List MapCall} (hpages : ∀ c ∈ calls, c.huge = false) :
    (tablePaths calls).card ≤ 1 + 3 * calls.length := by
  induction calls with
  | nil => exact (Finset.card_singleton _).le
  | cons c calls ih =>
    have hrest := ih fun c' hc' => hpages c' (List.mem_cons_of_mem c hc')
    have hsub : tablePaths (c :: calls) ⊆ tablePaths calls ∪ c.path.inits.toFinset.erase [] := by
      intro q hq
      rw [Finset.mem_union, Finset.mem_erase, List.mem_toFinset, List.mem_inits]
      rcases mem_tablePaths.mp hq with hnil | ⟨c', hc', hpre⟩
      · exact .inl (mem_tablePaths.mpr (.inl hnil))
      · rcases List.mem_cons.mp hc' with rfl | hmem
        · by_cases hnil : q = []
          · exact .inl (mem_tablePaths.mpr (.inl hnil))
          · exact .inr ⟨hnil, hpre⟩
        · exact .inl (mem_tablePaths.mpr (.inr ⟨c', hmem, hpre⟩))
    have hnil : [] ∈ c.path.inits.toFinset := by simp
    have hinits : c.path.inits.toFinset.card ≤ 4 := by
      apply (List.toFinset_card_le _).trans
      rw [List.length_inits, length_path (hpages c List.mem_cons_self)]
    have herase := Finset.card_erase_add_one hnil
    have hunion := (Finset.card_le_card hsub).trans (Finset.card_union_le _ _)
    rw [List.length_cons]
    omega

/-- What the calls need and is not there yet can be taken from the free frames. -/
structure Affords (m : Machine) (paths : Finset (List (Fin 512))) : Prop where
  le_size : m.pmm.totalFrames ≤ 8 * m.pmm.bitmapSize
  missing : (paths.filter fun q => m.table q = none).card ≤ clearCount m.pmm

/-- While frames are free a request finds one, and takes one. -/
theorem exists_firstFree {s : PmmContext} (hsize : s.totalFrames ≤ 8 * s.bitmapSize)
    (hpos : 0 < clearCount s) : ∃ f, FirstFree s f ∧ clearCount (pmmAlloc s).2 + 1 = clearCount s := by
  obtain ⟨g, hg⟩ := Finset.card_pos.mp hpos
  obtain ⟨hrange, hclear⟩ := Finset.mem_filter.mp hg
  have hlt := Finset.mem_range.mp hrange
  rcases pmmAlloc_cases s with ⟨f, hf, halloc⟩ | ⟨hall, -⟩
  · refine ⟨f, hf, ?_⟩
    rw [halloc]
    apply clearCount_mark s (claimFrame s f) {f} (by simp)
    · intro g' hg'
      rw [Finset.mem_singleton.mp hg']
      exact ⟨hf.lt_total, hf.free⟩
    · intro g'
      rw [used_claimFrame]
      simp
  · rw [hall g hlt (hlt.trans_le hsize)] at hclear
    exact absurd hclear (by simp)

/-- Adding a table that is needed and affordable. -/
theorem Affords.ensureTable {m : Machine} {paths : Finset (List (Fin 512))} (h : Affords m paths)
    (hm : Claimed m) (hzero : m.pmm.used 0 = true) {p : List (Fin 512)} {table : ℕ}
    {index : Fin 512} (hp : m.table p = some (physAddrToIndex table)) (hl : 3 - p.length ≠ 0)
    (hneeded : p ++ [index] ∈ paths) (hanswered : m.Answered) :
    (m.entry table index &&& vmmPresent = 0 → m.FreshFrame) ∧
      Affords (Vmm.ensureTable m table index) paths ∧ (Vmm.ensureTable m table index).Answered := by
  by_cases habsent : m.entry table index &&& vmmPresent = 0
  · have hnone : m.table (p ++ [index]) = none := by
      rw [Machine.table, follow_snoc]
      rw [Machine.table] at hp
      rw [hp]
      exact link_absent habsent
    have hmissing : p ++ [index] ∈ paths.filter fun q => m.table q = none :=
      Finset.mem_filter.mpr ⟨hneeded, hnone⟩
    obtain ⟨f, hf, hcount⟩ := exists_firstFree h.le_size
      ((Finset.card_pos.mpr ⟨_, hmissing⟩).trans_le h.missing)
    have hT := hm.totalFrames_le
    have hlt := hf.lt_total
    have hne : f ≠ 0 := by
      intro h0
      rw [← h0, hf.free] at hzero
      exact Bool.false_ne_true hzero
    have hfresh : m.FreshFrame := by
      apply hm.freshFrame
      rw [pmmAlloc_of_firstFree hf, indexToPhysAddr_of_lt (by omega)]
      omega
    have hpmm : (Vmm.ensureTable m table index).pmm = (pmmAlloc m.pmm).2 := by
      rw [Vmm.ensureTable, if_pos habsent]
      rfl
    have hlink := tableLink_ensureTable hm.tree hp hl habsent hfresh
    have hgrown : Grown m (Vmm.ensureTable m table index) :=
      grown_ensureTable hm.tree hp hl fun _ => hfresh
    refine ⟨fun _ => hfresh, ⟨?_, ?_⟩, fun s hs => ?_⟩
    · rw [hpmm, pmmAlloc_totalFrames, pmmAlloc_bitmapSize]
      exact h.le_size
    · -- one path less is missing
      have hsub : (paths.filter fun q => (Vmm.ensureTable m table index).table q = none) ⊆
          (paths.filter fun q => m.table q = none).erase (p ++ [index]) := by
        intro q hq
        obtain ⟨hqpaths, hqnone⟩ := Finset.mem_filter.mp hq
        refine Finset.mem_erase.mpr ⟨fun heq => ?_, Finset.mem_filter.mpr ⟨hqpaths, ?_⟩⟩
        · rw [Machine.table, Machine.root, ensureTable_pml4Phys, heq] at hqnone
          exact absurd (hlink.follow_self.symm.trans hqnone) (by simp)
        · cases hold : m.table q with
          | none => rfl
          | some g =>
            rw [hgrown.table q g hold] at hqnone
            exact absurd hqnone (by simp)
      have hle := Finset.card_le_card hsub
      have herase := Finset.card_erase_add_one hmissing
      have hbefore := h.missing
      rw [hpmm]
      omega
    · rw [Vmm.ensureTable, if_pos habsent] at hs
      rcases List.mem_append.mp hs with hold | hnew
      · exact hanswered s hold
      · obtain rfl : s = m.pmm := by simpa using hnew
        exact ⟨f, hf⟩
  · refine ⟨fun h0 => absurd h0 habsent, ?_⟩
    rw [ensureTable_of_present habsent]
    exact ⟨h, hanswered⟩

theorem Affords.descend {virtAddr : ℕ} {levels : List ℕ} {m : Machine} {table : ℕ}
    {p : List (Fin 512)} {paths : Finset (List (Fin 512))} (h : Affords m paths) (hm : Claimed m)
    (hzero : m.pmm.used 0 = true) (hp : m.table p = some (physAddrToIndex table))
    (hlevels : Levels (3 - p.length) levels)
    (hleaf : m.leaf (p ++ levels.map (tableIndex virtAddr)) = none)
    (hneeded : ∀ q, q <+: p ++ levels.map (tableIndex virtAddr) → q ∈ paths)
    (hanswered : m.Answered) :
    Affords (descend virtAddr levels m table).1 paths ∧
      (Vmm.descend virtAddr levels m table).1.Answered := by
  induction levels generalizing m table p with
  | nil => exact ⟨h, hanswered⟩
  | cons level levels ih =>
    obtain ⟨rfl, hl, hlevels⟩ := levels_cons hlevels
    have hsplit : p ++ ((3 - p.length) :: levels).map (tableIndex virtAddr) =
        p ++ [tableIndex virtAddr (3 - p.length)] ++ levels.map (tableIndex virtAddr) := by simp
    rw [hsplit] at hneeded
    obtain ⟨hfresh, haffords, hanswered'⟩ :=
      h.ensureTable hm hzero hp hl (hneeded _ (List.prefix_append _ _)) hanswered
    have hnohuge : m.entry table (tableIndex virtAddr (3 - p.length)) &&& vmmPresent ≠ 0 →
        3 - p.length = 1 → m.entry table (tableIndex virtAddr (3 - p.length)) &&& vmmHuge = 0 :=
      fun hpresent hone => not_huge_of_leaf hp hone hleaf hpresent
    have hgrown := grown_ensureTable hm.tree hp hl hfresh
    have hnext := table_ensureTable hm.tree hp hl hfresh hnohuge
    have hT : m.pmm.totalFrames ≤ 2 ^ 52 := hm.totalFrames_le.trans (by omega)
    apply ih haffords (hgrown.claimed hm) ((hgrown.used hT 0).mpr (.inl hzero)) hnext
      (hlevels _) ?_ hneeded hanswered'
    rw [hgrown.leaf, ← hsplit]
    exact hleaf

/-- A call whose tables can be afforded finds frames for them. -/
theorem Affords.exec {m : Machine} {paths : Finset (List (Fin 512))} (h : Affords m paths)
    (hm : Paged m) {c : MapCall} (hpage : c.huge = false) (hneeded : ∀ q, q <+: c.path → q ∈ paths)
    (hanswered : m.Answered) : Affords (c.exec m) paths ∧ (c.exec m).Answered := by
  obtain ⟨haffords, hanswered'⟩ := h.descend (p := []) hm.claimed hm.zero rfl (levels_target c)
    (hm.noHuge _ (length_path hpage).le) hneeded hanswered
  have hans : (c.exec m).Answered := by
    rw [exec_eq]
    exact hanswered'
  have htable := exec_table hm.claimed.tree (hm.orderly hpage hans)
  refine ⟨⟨?_, ?_⟩, hans⟩
  · rw [exec_eq]
    exact haffords.le_size
  · simp only [htable]
    rw [exec_eq]
    exact haffords.missing

/-- Calls for pages of 4 KiB find all frames they need. -/
theorem Affords.runCalls {m : Machine} {paths : Finset (List (Fin 512))} (h : Affords m paths)
    (hm : Paged m) {calls : List MapCall} (hpages : ∀ c ∈ calls, c.huge = false)
    (hneeded : ∀ c ∈ calls, ∀ q, q <+: c.path → q ∈ paths) (hanswered : m.Answered) :
    (runCalls calls m).Answered := by
  induction calls generalizing m with
  | nil => exact hanswered
  | cons c calls ih =>
    have hpage := hpages c List.mem_cons_self
    obtain ⟨haffords, hans⟩ := h.exec hm hpage (hneeded c List.mem_cons_self) hanswered
    apply ih haffords (hm.exec hpage (hm.orderly hpage hans))
    · exact fun c' hc' => hpages c' (List.mem_cons_of_mem c hc')
    · exact fun c' hc' => hneeded c' (List.mem_cons_of_mem c hc')
    · exact hans

/-- As many frames as the calls of `vmm_init` need tables are enough for them. -/
theorem answered_of_card_le {m : Machine} {calls : List MapCall} (hlog : m.log = [])
    (hT : m.pmm.totalFrames ≤ 2 ^ 40) (hsize : m.pmm.totalFrames ≤ 8 * m.pmm.bitmapSize)
    (hpages : ∀ c ∈ calls, c.huge = false) (hcard : (tablePaths calls).card ≤ clearCount m.pmm) :
    (runCalls calls (vmmPrepPml4 m)).Answered := by
  have hroot : [] ∈ tablePaths calls := Finset.mem_insert_self _ _
  obtain ⟨f, hf, hcount⟩ := exists_firstFree hsize
    ((Finset.card_pos.mpr ⟨_, hroot⟩).trans_le hcard)
  have hprep := prepared_of_firstFree hf hT
  have hpmm : (vmmPrepPml4 m).pmm = (pmmAlloc m.pmm).2 := rfl
  have haffords : Affords (vmmPrepPml4 m) (tablePaths calls) := by
    refine ⟨?_, ?_⟩
    · rw [hpmm, pmmAlloc_totalFrames, pmmAlloc_bitmapSize]
      exact hsize
    · have hsub : ((tablePaths calls).filter fun q => (vmmPrepPml4 m).table q = none) ⊆
          (tablePaths calls).erase [] := by
        intro q hq
        obtain ⟨hqpaths, hqnone⟩ := Finset.mem_filter.mp hq
        refine Finset.mem_erase.mpr ⟨fun hnil => ?_, hqpaths⟩
        rw [hnil] at hqnone
        exact absurd hqnone (by simp [Machine.table])
      have hle := Finset.card_le_card hsub
      have herase := Finset.card_erase_add_one hroot
      rw [hpmm]
      omega
  apply haffords.runCalls hprep.paged hpages
  · exact fun c hc q hq => mem_tablePaths.mpr (.inr ⟨c, hc, hq⟩)
  · intro s hs
    rw [vmmPrepPml4_log, hlog] at hs
    obtain rfl : s = m.pmm := by simpa using hs
    exact ⟨f, hf⟩

/-! ## The tables after the calls -/

/-- The tables are the old ones and those on the paths of the calls, and frames are taken for them
only. -/
structure TablesAdded (m m' : Machine) (calls : List MapCall) : Prop where
  table : ∀ q f, m.table q = some f → m'.table q = some f
  paths : ∀ q, (∃ f, m'.table q = some f) ↔
    (∃ f, m.table q = some f) ∨ ∃ c ∈ calls, q <+: c.path
  used : ∀ f, m'.pmm.used f = true → m.pmm.used f = true ∨ m'.IsTable f

theorem Paged.tablesAdded {m : Machine} (h : Paged m) {calls : List MapCall}
    (hpages : ∀ c ∈ calls, c.huge = false) (hanswered : (Vmm.runCalls calls m).Answered) :
    TablesAdded m (Vmm.runCalls calls m) calls := by
  induction calls generalizing m with
  | nil => exact ⟨fun _ _ hq => hq, fun q => by simp [Vmm.runCalls], fun f hf => .inl hf⟩
  | cons c calls ih =>
    have hpage := hpages c List.mem_cons_self
    have hc := h.orderly hpage (hanswered.of_prefix (log_runCalls calls (c.exec m)))
    have hm := mapped_of_orderly h.claimed.tree hc
    have hrest := ih (h.exec hpage hc) (fun c' hc' => hpages c' (List.mem_cons_of_mem c hc')) hanswered
    have hT : m.pmm.totalFrames ≤ 2 ^ 52 := h.claimed.totalFrames_le.trans (by omega)
    rw [runCalls_cons]
    refine ⟨fun q f hq => hrest.table q f (hm.table q f hq), fun q => ?_, fun f hf => ?_⟩
    · have hstep : (∃ f, (c.exec m).table q = some f) ↔ (∃ f, m.table q = some f) ∨ q <+: c.path := by
        constructor
        · rintro ⟨f, hf⟩
          exact (exec_table_cases h.claimed.tree hc hf).imp_left fun hold => ⟨f, hold⟩
        · intro hq
          rcases hq with ⟨f, hf⟩ | hq
          · exact ⟨f, hm.table q f hf⟩
          · obtain ⟨f, hf, -⟩ := hm.slot
            exact follow_prefix hq hf
      rw [hrest.paths q, hstep, List.exists_mem_cons_iff, or_assoc]
    · rcases hrest.used f hf with hold | htable
      · rcases (hm.used hT f).mp hold with hbefore | ⟨⟨q, hq⟩, -⟩
        · exact .inl hbefore
        · exact .inr ⟨q, hrest.table q f hq⟩
      · exact .inr htable

/-- After the calls of `vmm_init` the tables are at the paths they need. -/
theorem Prepared.table_iff {m : Machine} {f : ℕ} (h : Prepared m f) {calls : List MapCall}
    (hpages : ∀ c ∈ calls, c.huge = false)
    (hanswered : (runCalls calls (vmmPrepPml4 m)).Answered) (q : List (Fin 512)) :
    (∃ g, (runCalls calls (vmmPrepPml4 m)).table q = some g) ↔ q ∈ tablePaths calls := by
  rw [(h.paged.tablesAdded hpages hanswered).paths q, mem_tablePaths]
  apply or_congr_left
  refine ⟨fun ⟨g, hg⟩ => ?_, fun hnil => ?_⟩
  · by_contra hq
    rw [h.table q hq] at hg
    exact absurd hg (by simp)
  · rw [hnil]
    exact ⟨_, rfl⟩

/-- They are as many as those paths. -/
theorem Prepared.exists_card_tables {m : Machine} {f : ℕ} (h : Prepared m f) {calls : List MapCall}
    (hpages : ∀ c ∈ calls, c.huge = false)
    (hanswered : (runCalls calls (vmmPrepPml4 m)).Answered) :
    ∃ frames : Finset ℕ, frames.card = (tablePaths calls).card ∧
      ∀ g, g ∈ frames ↔ (runCalls calls (vmmPrepPml4 m)).IsTable g := by
  have htable := h.table_iff hpages hanswered
  have htree := (h.paged.runCalls hpages hanswered).1.claimed.tree
  refine ⟨(tablePaths calls).image fun q => ((runCalls calls (vmmPrepPml4 m)).table q).getD 0, ?_,
    fun g => ?_⟩
  · apply Finset.card_image_of_injOn
    intro q hq q' hq' heq
    obtain ⟨g, hg⟩ := (htable q).mpr hq
    obtain ⟨g', hg'⟩ := (htable q').mpr hq'
    simp only [hg, hg', Option.getD_some] at heq
    exact htree q q' g hg (heq ▸ hg')
  · rw [Finset.mem_image]
    refine ⟨fun ⟨q, hq, heq⟩ => ?_, fun ⟨q, hq⟩ => ?_⟩
    · obtain ⟨g', hg'⟩ := (htable q).mpr hq
      rw [hg', Option.getD_some] at heq
      exact ⟨q, heq ▸ hg'⟩
    · exact ⟨q, (htable q).mp ⟨g, hq⟩, by rw [hq, Option.getD_some]⟩

/-! ## After the calls -/

theorem nextVirtAddr_runCalls (calls : List MapCall) (m : Machine) :
    (runCalls calls m).nextVirtAddr = m.nextVirtAddr := by
  induction calls generalizing m with
  | nil => rfl
  | cons c calls ih =>
    rw [runCalls_cons, ih, exec_eq]
    change (descend c.virtAddr c.levels m m.pml4Phys).1.nextVirtAddr = m.nextVirtAddr
    generalize m.pml4Phys = table
    induction c.levels generalizing m table with
    | nil => rfl
    | cons level levels ih =>
      rw [descend, ih]
      unfold ensureTable
      split_ifs <;> rfl

theorem taken_boot (s : PmmContext) (mem : ℕ → Fin 512 → ℕ) (calls : List MapCall) :
    Taken s (runCalls calls (vmmPrepPml4 (bootMachine s mem))).pmm :=
  pmm_runCalls (fun _ h => h.pmmAlloc) _ (Taken.refl s).pmmAlloc

/-- The machine after calls on the empty PML4, when the bitmap was `s`. -/
structure Booted (s : PmmContext) (calls : List MapCall) (m : Machine) : Prop where
  paged : Paged m
  taken : Taken s m.pmm
  /-- The tables are in frames that were free. -/
  free : ∀ f, m.IsTable f → s.used f = false
  table_iff : ∀ q, (∃ f, m.table q = some f) ↔ q ∈ tablePaths calls
  nextVirtAddr : m.nextVirtAddr = heapStart

theorem booted_of_answered {s : PmmContext} (hT : s.totalFrames ≤ 2 ^ 40) (mem : ℕ → Fin 512 → ℕ)
    {calls : List MapCall} (hpages : ∀ c ∈ calls, c.huge = false)
    (hanswered : (runCalls calls (vmmPrepPml4 (bootMachine s mem))).Answered) :
    Booted s calls (runCalls calls (vmmPrepPml4 (bootMachine s mem))) := by
  obtain ⟨f, hprep⟩ := @prepared_of_answered (bootMachine s mem) hT
    (hanswered.of_prefix (log_runCalls _ _))
  obtain ⟨hpaged, hlater⟩ := hprep.paged.runCalls hpages hanswered
  refine ⟨hpaged, ?_, fun g hg => ?_, hprep.table_iff hpages hanswered, ?_⟩
  · exact taken_boot s mem calls
  · rcases hlater.fresh g hg with hold | hfree
    · rw [(hprep.isTable g).mp hold]
      exact hprep.firstFree.free
    · rw [hprep.pmm, used_claimFrame, Bool.or_eq_false_iff] at hfree
      exact hfree.1
  · exact nextVirtAddr_runCalls calls _

/-- A walk that leaves the tables early finds no page if none are larger than 4 KiB. -/
theorem Machine.NoHuge.leaf_none {m : Machine} (h : m.NoHuge) {q q' : List (Fin 512)}
    (hlen : q.length ≤ 3) (hnone : m.table q = none) (hpre : q <+: q') : m.leaf q' = none := by
  rcases @stop_or_follow _ _ _ _ paging m.mem 3 m.root q with ⟨p, i, t, f, rfl, hf, hstop⟩ | ⟨g, hg⟩
  · obtain ⟨u, rfl⟩ := hpre
    have hleaf := h _ hlen
    rw [Machine.leaf, find_of_stop hf hstop] at hleaf
    rw [Machine.leaf, List.append_assoc, List.cons_append, find_of_stop hf hstop]
    exact hleaf
  · rw [Machine.table, hg] at hnone
    exact absurd hnone (by simp)

end MathUnikernel.Vmm
