import MathUnikernel.HeapSessions
import MathUnikernel.MapOps

/-!
# What the mapping functions write

Every entry that a mapping function sets and every frame that it clears lies in a page table, as
long as no call runs into a page of the other size.
-/

namespace MathUnikernel.Vmm
open Pmm RadixTree Runs

/-! ## Writes -/

/-- A store of the mapping functions: a frame cleared, or an entry set. -/
inductive Write
  | clear (physAddr : ℕ)
  | entry (table : ℕ) (index : Fin 512) (value : ℕ)

namespace Write

def frame : Write → ℕ
  | clear physAddr => physAddrToIndex physAddr
  | entry table _ _ => physAddrToIndex table

def apply (mem : ℕ → Fin 512 → ℕ) (w : Write) : ℕ → Fin 512 → ℕ :=
  match w with
  | clear physAddr => Function.update mem (physAddrToIndex physAddr) fun _ => 0
  | entry table index value =>
    Function.update mem (physAddrToIndex table)
      (Function.update (mem (physAddrToIndex table)) index value)

end Write

/-- The stores of `ensureTable`. -/
def ensureTableWrites (m : Machine) (table : ℕ) (index : Fin 512) : List Write :=
  if m.entry table index &&& vmmPresent = 0 then
    [.clear (pmmAlloc m.pmm).1,
      .entry table index ((pmmAlloc m.pmm).1 ||| vmmPresent ||| vmmWriteable)]
  else []

/-- The stores of the walk. -/
def descendWrites (virtAddr : ℕ) : List ℕ → Machine → ℕ → List Write
  | [], _, _ => []
  | level :: levels, m, currentTable =>
    let index := tableIndex virtAddr level
    let m' := ensureTable m currentTable index
    ensureTableWrites m currentTable index ++
      descendWrites virtAddr levels m' (vmmGetAddr (m'.entry currentTable index))

def MapCall.writes (c : MapCall) (m : Machine) : List Write :=
  descendWrites c.virtAddr c.levels m m.pml4Phys ++
    [.entry (descend c.virtAddr c.levels m m.pml4Phys).2 c.index c.newEntry]

theorem mem_ensureTable_eq (m : Machine) (table : ℕ) (index : Fin 512) :
    (ensureTable m table index).mem = (ensureTableWrites m table index).foldl Write.apply m.mem := by
  unfold ensureTable ensureTableWrites
  split_ifs <;> rfl

theorem mem_descend (virtAddr : ℕ) (levels : List ℕ) (m : Machine) (table : ℕ) :
    (descend virtAddr levels m table).1.mem =
      (descendWrites virtAddr levels m table).foldl Write.apply m.mem := by
  induction levels generalizing m table with
  | nil => rfl
  | cons level levels ih =>
    rw [descendWrites, List.foldl_append, ← mem_ensureTable_eq]
    exact ih _ _

/-- The memory after a call is the memory before it with the stores applied in order. -/
theorem mem_exec (c : MapCall) (m : Machine) :
    (c.exec m).mem = (c.writes m).foldl Write.apply m.mem := by
  rw [exec_eq, MapCall.writes, List.foldl_append, ← mem_descend]
  rfl

/-! ## Frames granted as tables -/

/-- Frame `f` is the PML4, or `pmm_alloc` returned it and it was linked as a table. -/
def Machine.Granted (m : Machine) (f : ℕ) : Prop :=
  f = m.root ∨ ∃ s, .alloc s ∈ m.log ∧ .table (pmmAlloc s).1 ∈ m.log ∧
    f = physAddrToIndex (pmmAlloc s).1

theorem Machine.Granted.mono {m m' : Machine} {f : ℕ} (h : m.Granted f) (hroot : m'.root = m.root)
    (hlog : m.log <+: m'.log) : m'.Granted f := by
  rcases h with h | ⟨s, halloc, htable, hf⟩
  · exact .inl (h.trans hroot.symm)
  · exact .inr ⟨s, hlog.subset halloc, hlog.subset htable, hf⟩

theorem ensureTable_root (m : Machine) (table : ℕ) (index : Fin 512) :
    (ensureTable m table index).root = m.root :=
  congrArg physAddrToIndex (ensureTable_pml4Phys m table index)

/-- Adding a table: what is written lies in tables, and the tables and the frames granted grow by
the same frame. -/
structure TableWritten (m m' : Machine) (writes : List Write) : Prop where
  isTable : ∀ w ∈ writes, m'.IsTable w.frame
  granted : ∀ f, m'.IsTable f → m.IsTable f ∨ m'.Granted f
  only : ∀ f, m'.Granted f → m.Granted f ∨ m'.IsTable f

theorem tableWritten_ensureTable {m : Machine} (htree : m.Tree) {p : List (Fin 512)} {table : ℕ}
    {index : Fin 512} (hp : m.table p = some (physAddrToIndex table)) (hl : 3 - p.length ≠ 0)
    (hfresh : m.entry table index &&& vmmPresent = 0 → m.FreshFrame) :
    TableWritten m (ensureTable m table index) (ensureTableWrites m table index) := by
  by_cases habsent : m.entry table index &&& vmmPresent = 0
  · have hlink := tableLink_ensureTable htree hp hl habsent (hfresh habsent)
    have htable : ∀ q, (ensureTable m table index).table q =
        follow paging (ensureTable m table index).mem 3 m.root q := fun q => by
      rw [Machine.table, ensureTable_root]
    have hnew : (ensureTable m table index).IsTable (physAddrToIndex (pmmAlloc m.pmm).1) :=
      ⟨p ++ [index], (htable _).trans hlink.follow_self⟩
    have hlog : (ensureTable m table index).log =
        m.log ++ [.alloc m.pmm, .zero (pmmAlloc m.pmm).1, .table (pmmAlloc m.pmm).1] := by
      rw [ensureTable, if_pos habsent]
      rfl
    refine ⟨fun w hw => ?_, fun f hf => ?_, fun f hf => ?_⟩
    · rw [ensureTableWrites, if_pos habsent] at hw
      rcases List.mem_pair.mp hw with rfl | rfl
      · exact hnew
      · exact ⟨p, (htable p).trans (hlink.follow_of_some hp)⟩
    · obtain ⟨q, hq⟩ := hf
      rw [htable] at hq
      rcases hlink.follow_cases hq with ⟨-, rfl⟩ | hold
      · exact .inr (.inr ⟨m.pmm, by rw [hlog]; simp, by rw [hlog]; simp, rfl⟩)
      · exact .inl ⟨q, hold⟩
    · rcases hf with hroot | ⟨s, halloc, hmem, rfl⟩
      · exact .inl (.inl (hroot.trans (ensureTable_root m table index)))
      · rw [hlog] at halloc hmem
        -- an old request and an old link, or else the frame is the new one
        by_cases hsame : (pmmAlloc s).1 = (pmmAlloc m.pmm).1
        · exact .inr (hsame ▸ hnew)
        · have halloc' : .alloc s ∈ m.log := by
            rcases List.mem_append.mp halloc with h | h
            · exact h
            · obtain rfl : s = m.pmm := by simpa using h
              exact absurd rfl hsame
          have hmem' : .table (pmmAlloc s).1 ∈ m.log := by
            rcases List.mem_append.mp hmem with h | h
            · exact h
            · exact absurd (by simpa using h) hsame
          exact .inl (.inr ⟨s, halloc', hmem', rfl⟩)
  · rw [ensureTable_of_present habsent, ensureTableWrites, if_neg habsent]
    exact ⟨fun w hw => absurd hw List.not_mem_nil, fun f hf => .inl hf, fun f hf => .inl hf⟩

theorem tableWritten_descend {virtAddr : ℕ} {levels : List ℕ} {m : Machine} {table : ℕ}
    {p : List (Fin 512)} (hwalk : Walk virtAddr levels m table p) :
    TableWritten m (descend virtAddr levels m table).1 (descendWrites virtAddr levels m table) := by
  induction hwalk with
  | done htree hp => exact ⟨fun w hw => absurd hw List.not_mem_nil, fun f hf => .inl hf, fun f hf => .inl hf⟩
  | step htree hp hl hfresh hwalk hrest =>
    have hfirst := tableWritten_ensureTable htree hp hl hfresh
    have hgrowing := hwalk.descended.grown
    refine ⟨fun w hw => ?_, fun f hf => ?_, fun f hf => ?_⟩
    · rcases List.mem_append.mp hw with hw | hw
      · exact hgrowing.isTable (hfirst.isTable w hw)
      · exact hrest.isTable w hw
    · rcases hrest.granted f hf with hold | hnew
      · refine (hfirst.granted f hold).imp_right fun hgranted => ?_
        exact hgranted.mono (congrArg physAddrToIndex hgrowing.pml4Phys) (descend_log _ _ _ _)
      · exact .inr hnew
    · rcases hrest.only f hf with hold | hnew
      · exact (hfirst.only f hold).imp_right hgrowing.isTable
      · exact .inr hnew

theorem tableWritten_exec {m : Machine} (htree : m.Tree) {c : MapCall} (hc : Orderly m c) :
    TableWritten m (c.exec m) (c.writes m) := by
  have hd := descended_of_orderly htree hc
  have hwalk := tableWritten_descend (walk_of_orderly htree hc)
  have hisTable : ∀ f, (c.exec m).IsTable f ↔
      (descend c.virtAddr c.levels m m.pml4Phys).1.IsTable f := fun f =>
    exists_congr fun q => by rw [exec_table htree hc]
  have hgranted : ∀ f, (c.exec m).Granted f ↔
      (descend c.virtAddr c.levels m m.pml4Phys).1.Granted f := fun f => by
    rw [exec_eq]
    exact Iff.rfl
  refine ⟨fun w hw => ?_, fun f hf => ?_, fun f hf => ?_⟩
  · rw [hisTable]
    rcases List.mem_append.mp hw with hw | hw
    · exact hwalk.isTable w hw
    · rw [List.mem_singleton.mp hw]
      exact ⟨c.path, hd.table⟩
  · rw [hgranted]
    exact hwalk.granted f ((hisTable f).mp hf)
  · rw [hisTable]
    exact hwalk.only f ((hgranted f).mp hf)

/-! ## Pages -/

theorem size_of_leaf {level entry : ℕ} {v : Leaf} (h : paging.leaf level entry = some v) :
    (level = 0 ∧ v.size = 4096) ∨ (level = 1 ∧ v.size = 0x200000) := by
  simp only [paging] at h
  split_ifs at h with hp hz hh
  · exact .inl ⟨hz, by rw [← Option.some.inj h]⟩
  · exact .inr ⟨hh.1, by rw [← Option.some.inj h]⟩

/-- Where a call fits, a page that it covers is of the size of the call. -/
theorem MapCall.Fits.size_eq {c : MapCall} {m : Machine} (h : c.Fits m) {q : List (Fin 512)}
    (hq : c.path ++ [c.index] <+: q) {v : Leaf} (hv : m.leaf q = some v) : v.size = c.size := by
  rcases @stop_or_follow _ _ _ _ paging m.mem 3 m.root q with ⟨p, i, t, f, rfl, hf, hstop⟩ | ⟨g, hg⟩
  · have hleaf := (find_of_stop hf hstop t).symm.trans hv
    have hpath : c.path <+: p ++ i :: t := (List.prefix_append _ _).trans hq
    have hshort : ¬p ++ [i] <+: c.path := by
      rintro ⟨u, hu⟩
      have habove := find_of_stop hf hstop u
      rw [List.append_assoc] at hu
      change p ++ i :: u = c.path at hu
      rw [hu, hleaf] at habove
      exact absurd (h.above.symm.trans habove) (by simp)
    have hlong : ¬c.path ++ [c.index] <+: p := by
      intro hp
      obtain ⟨g, hg⟩ := follow_prefix hp hf
      exact absurd (h.slot.symm.trans hg) (by simp)
    have hlen : p.length = c.path.length := by
      rcases Nat.lt_trichotomy p.length c.path.length with hlt | heq | hlt
      · refine absurd (List.prefix_of_prefix_length_le ⟨t, by simp⟩ hpath ?_) hshort
        rw [List.length_append, List.length_singleton]
        omega
      · exact heq
      · refine absurd (List.prefix_of_prefix_length_le hq (List.prefix_append p _) ?_) hlong
        rw [List.length_append, List.length_singleton]
        omega
    rw [hlen, three_sub_length_path] at hleaf
    unfold MapCall.size
    unfold MapCall.target at hleaf
    split_ifs at hleaf ⊢ with hhuge
    · rcases size_of_leaf hleaf with ⟨hz, -⟩ | ⟨-, hsize⟩
      · exact absurd hz one_ne_zero
      · exact hsize
    · rcases size_of_leaf hleaf with ⟨-, hsize⟩ | ⟨hz, -⟩
      · exact hsize
      · exact absurd hz zero_ne_one
  · rw [Machine.leaf, find_of_follow hg] at hv
    exact absurd hv (by simp)

/-- Every address that was mapped is so still, unless the call mapped its page anew. -/
def KeepsPages (m : Machine) (c : MapCall) (m' : Machine) : Prop :=
  ∀ va v, m.leaf (pathOf va) = some v →
    (c.Covers va ∧ v.size = c.size) ∨ m'.leaf (pathOf va) = some v

theorem keepsPages_exec {m : Machine} (htree : m.Tree) {c : MapCall} (hfits : c.Fits m)
    (hc : Orderly m c) : KeepsPages m c (c.exec m) := by
  intro va v hv
  by_cases hcov : c.Covers va
  · exact .inl ⟨hcov, hfits.size_eq ((path_prefix_iff c va).mpr hcov) hv⟩
  · refine .inr (Eq.trans ?_ hv)
    exact (mapped_of_orderly htree hc).leaf_other _ (mt (path_prefix_iff c va).mp hcov)

/-! ## Runs -/

/-- What the rest of the kernel does between two operations: it claims frames and writes memory
outside the tables. -/
structure Elsewhere (m m' : Machine) : Prop where
  between : Between m m'
  used : ∀ f, m.pmm.used f = true → m'.pmm.used f = true
  totalFrames : m'.pmm.totalFrames = m.pmm.totalFrames
  log : m.log <+: m'.log

inductive MapEvent
  | map (op : MapOp)
  | other

inductive MapEventStep : Machine → MapEvent → Machine → Prop
  | map {m m' : Machine} {op : MapOp} : op.exec m = some m' → MapEventStep m (.map op) m'
  | other {m m' : Machine} : Elsewhere m m' → MapEventStep m .other m'

/-- Every call of the operation fits the machine it is made on. -/
def MapOp.Fits (op : MapOp) (m : Machine) : Prop :=
  ∀ k, op.Round k → (op.call k).Fits (op.after k m)

/-- All tables are claimed, and were granted as tables. -/
structure TablesGranted (m : Machine) : Prop where
  claimed : Claimed m
  granted : ∀ f, m.IsTable f → m.Granted f

theorem tablesGranted_of_emptyPml4 {m : Machine} (h : EmptyPml4 m) (hm : Claimed m) :
    TablesGranted m := by
  have hblank : Blank paging m.mem m.root := blank_of_zero h
  refine ⟨hm, fun f ⟨q, hq⟩ => .inl ?_⟩
  cases q with
  | nil => exact (Option.some.inj hq).symm
  | cons i q =>
    rw [Machine.table, hblank.follow_cons] at hq
    exact absurd hq (by simp)

theorem TablesGranted.exec {m : Machine} (h : TablesGranted m) {c : MapCall} (hc : Orderly m c) :
    TablesGranted (c.exec m) ∧ Later m (c.exec m) := by
  have hm := mapped_of_orderly h.claimed.tree hc
  refine ⟨⟨hm.claimed h.claimed, fun f hf => ?_⟩, hm.later h.claimed⟩
  rcases (tableWritten_exec h.claimed.tree hc).granted f hf with hold | hnew
  · exact (h.granted f hold).mono (congrArg physAddrToIndex hm.pml4Phys) (exec_log m c)
  · exact hnew

theorem TablesGranted.after {m : Machine} (h : TablesGranted m) {op : MapOp} (hfits : op.Fits m)
    {k : ℕ} (hk : ∀ j < k, op.Round j) (hserved : (op.after k m).Served) :
    TablesGranted (op.after k m) ∧ ∀ j ≤ k, Later (op.after j m) (op.after k m) := by
  induction k with
  | zero =>
    refine ⟨h, fun j hj => ?_⟩
    rw [Nat.le_zero.mp hj]
    exact Later.refl _
  | succ k ih =>
    obtain ⟨hgranted, hlater⟩ := ih (fun j hj => hk j (Nat.lt_succ_of_lt hj))
      (hserved.of_prefix (op.after_log (Nat.le_succ k) m))
    rw [op.after_succ] at hserved ⊢
    have hc := (hfits k (hk k (Nat.lt_succ_self k))).orderly hgranted.claimed hserved
    obtain ⟨hgranted', hlater'⟩ := hgranted.exec hc
    refine ⟨hgranted', fun j hj => ?_⟩
    rcases Nat.le_succ_iff.mp hj with hj | rfl
    · exact (hlater j hj).trans hlater'
    · rw [op.after_succ]
      exact Later.refl _

theorem TablesGranted.elsewhere {m m' : Machine} (h : TablesGranted m) (he : Elsewhere m m') :
    TablesGranted m' ∧ Later m m' := by
  refine ⟨⟨⟨he.between.tree h.claimed.tree, fun f hf => ?_,
    he.totalFrames.trans_le h.claimed.totalFrames_le⟩, fun f hf => ?_⟩, he.used, fun f hf => .inl ?_⟩
  · exact he.used f (h.claimed.used f ((he.between.isTable f).mp hf))
  · exact (h.granted f ((he.between.isTable f).mp hf)).mono he.between.root he.log
  · exact (he.between.isTable f).mp hf

theorem log_mapEventStep {m m' : Machine} {e : MapEvent} (h : MapEventStep m e m') :
    m.log <+: m'.log := by
  cases h with
  | map hop => exact MapOp.exec_log_le hop
  | other he => exact he.log

theorem TablesGranted.step {m m' : Machine} {e : MapEvent} (h : TablesGranted m)
    (hstep : MapEventStep m e m') (hfits : ∀ op, e = .map op → op.Fits m) (hserved : m'.Served) :
    TablesGranted m' ∧ Later m m' := by
  cases hstep with
  | @map _ op hop =>
    obtain ⟨n, rfl, hn⟩ := MapOp.exec_after hop
    obtain ⟨hgranted, hlater⟩ := h.after (hfits op rfl) hn hserved
    exact ⟨hgranted, hlater 0 (Nat.zero_le n)⟩
  | other he => exact h.elsewhere he

/-- A run of operations that fit keeps every table claimed and granted. -/
theorem tablesGranted_of_run {m₀ m : Machine} (h0 : TablesGranted m₀)
    {tr : List (Machine × MapEvent × Machine)} (hrun : Run MapEventStep m₀ tr m)
    (hfits : ∀ x ∈ tr, ∀ op, x.2.1 = .map op → op.Fits x.1) (hserved : m.Served) :
    TablesGranted m ∧ ∀ x ∈ tr, Later x.1 m := by
  have hpost : ∀ x ∈ tr, x.2.2.Served := fun x hx =>
    hserved.of_prefix (hrun.prefix_of_mem Machine.log (fun _ _ _ => log_mapEventStep) hx)
  have hstep : ∀ x ∈ tr, TablesGranted x.1 → TablesGranted x.2.2 ∧ Later x.1 x.2.2 := fun x hx hv =>
    hv.step (hrun.step_of_mem hx) (hfits x hx) (hpost x hx)
  obtain ⟨hlast, hall⟩ := hrun.invariant_of_mem h0 fun x hx hv => (hstep x hx hv).1
  have hlater : ∀ x ∈ tr, Later x.1 x.2.2 := fun x hx => (hstep x hx (hall x hx).1).2
  exact ⟨hlast, fun x hx => (hlater x hx).trans
    (hrun.rel_of_mem Later.refl (fun _ _ _ => Later.trans) hlater hx)⟩

/-! ## Tables only -/

/-- After every run of operations whose calls all fit, the next operation writes only into tables,
never into a frame that held data at any time before, and keeps every page but those it maps. -/
theorem mapping_writes {m₀ m : Machine} (h0 : EmptyPml4 m₀) (hclaimed : Claimed m₀)
    {tr : List (Machine × MapEvent × Machine)} (hrun : Run MapEventStep m₀ tr m)
    (hfits : ∀ x ∈ tr, ∀ op, x.2.1 = .map op → op.Fits x.1) {op : MapOp} (hop : op.Fits m) {k : ℕ}
    (hk : op.Round k) (hserved : (op.after (k + 1) m).Served) :
    (∀ w ∈ (op.call k).writes (op.after k m), (op.after (k + 1) m).Granted w.frame ∧
      (∀ x ∈ tr, ¬x.1.Data w.frame) ∧ ∀ j ≤ k, ¬(op.after j m).Data w.frame) ∧
    KeepsPages (op.after k m) (op.call k) (op.after (k + 1) m) := by
  have hm : m.Served := hserved.of_prefix (op.after_log (Nat.zero_le (k + 1)) m)
  obtain ⟨hgranted, hbefore⟩ :=
    tablesGranted_of_run (tablesGranted_of_emptyPml4 h0 hclaimed) hrun hfits hm
  obtain ⟨hafter, hrounds⟩ := hgranted.after hop (fun j hj => hk.of_le (Nat.le_of_lt hj))
    (hserved.of_prefix (op.after_log (Nat.le_succ k) m))
  rw [op.after_succ] at hserved ⊢
  have hc := (hop k hk).orderly hafter.claimed hserved
  obtain ⟨hlast, hlater⟩ := hafter.exec hc
  have hdata : ∀ v f, Later v (op.after k m) → ((op.call k).exec (op.after k m)).IsTable f →
      ¬v.Data f := fun v f hv hf hd => ((hv.trans hlater).data hd).2 hf
  refine ⟨fun w hw => ?_, keepsPages_exec hafter.claimed.tree (hop k hk) hc⟩
  have htable := (tableWritten_exec hafter.claimed.tree hc).isTable w hw
  refine ⟨hlast.granted _ htable, fun x hx => ?_, fun j hj => hdata _ _ (hrounds j hj) htable⟩
  exact hdata _ _ ((hbefore x hx).trans (hrounds 0 (Nat.zero_le k))) htable

/-- The small pages at the start of the heap. -/
def smallPage (i : ℕ) : MapCall := ⟨false, heapStart + 4096 * i, 0x200000 + 4096 * i, 3⟩

theorem fits_page {c : MapCall} {m : Machine} (h : c.Fits m) : (MapOp.page c).Fits m := by
  intro k hk
  obtain rfl : k = 0 := hk
  exact h

/-- The first small page of the heap and the one after it, on the small machine. -/
theorem mapping_writes_small : ∃ s m, pmmInit smallMap (fun _ => 0) = some (pmmInitSuccess, s) ∧
    Run MapEventStep (smallMachine s) [(smallMachine s, .map (.page (smallPage 0)), m)] m ∧
    hwWalk m heapStart = some (0x200000, 3) ∧
    (∀ w ∈ (smallPage 1).writes m, ((smallPage 1).exec m).Granted w.frame ∧
      ¬(smallMachine s).Data w.frame) ∧
    KeepsPages m (smallPage 1) ((smallPage 1).exec m) := by
  obtain ⟨s, hs, hsize, htotal, hused⟩ := pmmInit_smallMap
  obtain ⟨hempty, hclaimed, hstocked⟩ :=
    smallMachine_facts hsize htotal hused (by omega) (by omega)
  have hblank : Blank paging (smallMachine s).mem (smallMachine s).root := blank_of_zero hempty
  have hfits : (smallPage 0).Fits (smallMachine s) :=
    ⟨hblank.find 3 _, hblank.follow_cons 3 _ _⟩
  have hstock := (hstocked.mono (show 0 + 3 + 3 ≤ _ by omega)).exec (smallPage 0)
  have horderly := hfits.orderly hclaimed hstock.served
  have hmapped := mapped_of_orderly hclaimed.tree horderly
  have hrun : Run MapEventStep (smallMachine s) _ _ :=
    Run.nil.snoc (.map (rfl : MapOp.exec (.page (smallPage 0)) _ = _))
  have hwalk := hwWalk_exec hclaimed.tree (⟨horderly.walk, by decide, fun h => absurd h (by decide),
    by decide, by decide, fun h => absurd h (by decide)⟩ : Regular (smallMachine s) _)
  -- the second page is in the same page table
  have hfits' : (smallPage 1).Fits ((smallPage 0).exec (smallMachine s)) := by
    refine ⟨?_, table_of_long _ rfl _⟩
    rw [hmapped.leaf_other _ (by decide)]
    exact hblank.find 3 _
  have hserved := (hstock.exec (smallPage 1)).served
  obtain ⟨hwrites, hkeeps⟩ := mapping_writes hempty hclaimed hrun (fun x hx op hop => by
      rw [List.mem_singleton.mp hx] at hop ⊢
      obtain rfl := MapEvent.map.inj hop
      exact fits_page hfits) (fits_page hfits') (rfl : (MapOp.page _).Round 0) hserved
  refine ⟨s, _, hs, hrun, ?_, fun w hw => ?_, hkeeps⟩
  · rw [hwalk, MapCall.apply, if_pos (by decide)]
    rfl
  · obtain ⟨hgranted, hdata, -⟩ := hwrites w hw
    exact ⟨hgranted, hdata _ (List.mem_singleton_self _)⟩

/-! ## A small page inside a large one -/

theorem present_of_link {level entry f : ℕ} (h : paging.link level entry = some f) :
    entry &&& vmmPresent ≠ 0 := fun habsent => by
  rw [link_absent habsent] at h
  exact absurd h (by simp)

theorem ensureTableWrites_of_present {m : Machine} {table : ℕ} {index : Fin 512}
    (h : m.entry table index &&& vmmPresent ≠ 0) : ensureTableWrites m table index = [] := if_neg h

/-- Where a 2 MiB page is mapped, a 4 KiB call takes the page's first frame for a page table: it
adds no table and writes into that frame. -/
theorem writes_on_hugePage {m : Machine} {i b : ℕ} (hs : HasSlot m i b) {off : ℕ}
    (hoff : off < 0x200000) (physAddr flags : ℕ) :
    ∃ index value, (⟨false, heapPage i + off, physAddr, flags⟩ : MapCall).writes m =
        [.entry (512 * b * 4096) index value] ∧
      (⟨false, heapPage i + off, physAddr, flags⟩ : MapCall).exec m =
        m.setEntry (512 * b * 4096) index value := by
  obtain ⟨pd, hpd, hp, -, haddr⟩ := hs
  have hpath := slot_prefix_pathOf i hoff
  simp only [slotTable, slotIndex, pathOf, List.map_cons, List.map_nil, List.cons_append,
    List.nil_append, List.cons_prefix_cons, List.nil_prefix, and_true] at hpath
  obtain ⟨h3, h2, h1⟩ := hpath
  rw [slotTable, List.map_cons, List.map_cons, List.map_nil, h3, h2] at hpd
  rw [slotIndex, h1] at hp haddr
  have hframe := physAddrToIndex_of_table hpd
  rw [Machine.table, follow, Option.bind_eq_some_iff] at hpd
  obtain ⟨g, hg, hpd⟩ := hpd
  have hpml4e : m.entry m.pml4Phys (tableIndex (heapPage i + off) 3) &&& vmmPresent ≠ 0 :=
    present_of_link hg
  rw [follow, Option.bind_eq_some_iff] at hpd
  obtain ⟨g', hg', -⟩ := hpd
  rw [← link_some hg] at hg'
  have hpdpte : m.entry (vmmGetAddr (m.entry m.pml4Phys (tableIndex (heapPage i + off) 3)))
      (tableIndex (heapPage i + off) 2) &&& vmmPresent ≠ 0 := present_of_link hg'
  rw [← hframe] at hp haddr
  have hpde := hp
  rw [← Machine.entry] at hpde haddr
  refine ⟨tableIndex (heapPage i + off) 0, (⟨false, heapPage i + off, physAddr, flags⟩ :
    MapCall).newEntry, ?_, ?_⟩
  · simp only [MapCall.writes, MapCall.levels, Bool.false_eq_true, if_false, descendWrites, descend,
      ensureTable_of_present hpml4e, ensureTable_of_present hpdpte, ensureTable_of_present hpde,
      ensureTableWrites_of_present hpml4e, ensureTableWrites_of_present hpdpte,
      ensureTableWrites_of_present hpde, haddr, List.nil_append]
    rfl
  · rw [exec_eq]
    simp only [MapCall.levels, Bool.false_eq_true, if_false, descend, ensureTable_of_present hpml4e,
      ensureTable_of_present hpdpte, ensureTable_of_present hpde, haddr]
    rfl

theorem elsewhere_withBlock (m : Machine) (h : HasBlock m.pmm) (hlow : HasLowBlock m.pmm) :
    Elsewhere m (withBlock m) := by
  obtain ⟨b, -, -, -, hused⟩ := pmmAlloc2mb_of_low h hlow
  exact ⟨⟨rfl, fun _ _ => rfl⟩, fun f hf => (hused f).mpr (.inl hf), pmmAlloc2mb_totalFrames m.pmm,
    List.prefix_append _ _⟩

/-- A block is claimed and mapped at `HEAP_START`; mapping a 4 KiB page inside it writes into the
block. -/
theorem mapping_writes_data : ∃ s, pmmInit twoBlockMap (fun _ => 0) = some (pmmInitSuccess, s) ∧
    EmptyPml4 (smallMachine s) ∧ Claimed (smallMachine s) ∧ ∃ tr m, Run MapEventStep (smallMachine s) tr m ∧
      ∃ c : MapCall, c.flags &&& vmmAddrMask = 0 ∧ (c.exec m).Served ∧
        ∃ w ∈ c.writes m, ¬(c.exec m).Granted w.frame ∧ m.Data w.frame := by
  obtain ⟨s, hs, hrange, htotal⟩ := freeRange_twoBlockMap
  obtain ⟨hempty, hclaimed, hstocked⟩ := hrange.smallMachine (by omega) (by omega) (by omega)
  have hready : (allocHugeStep (smallMachine s) 3).Ready :=
    ready_allocHugeStep (b := 1) ⟨hstocked.served, fun _ h => absurd h List.not_mem_nil⟩ hrange
      (by omega) (by omega)
  obtain ⟨b, hnext⟩ :=
    (freshHeap_smallMachine hempty hclaimed).live.nextPage (by decide) (by decide) hready
  have hlow : HasLowBlock (smallMachine s).pmm := ⟨b, hnext.low, hnext.free⟩
  have hrun : Run MapEventStep (smallMachine s) _ ((blockCall (smallMachine s) 3).exec (withBlock _)) :=
    (Run.nil.snoc (.other (elsewhere_withBlock _ (hasBlock_of_served hnext.served) hlow))).snoc
      (@MapEventStep.map _ _ (.page (blockCall (smallMachine s) 3)) rfl)
  have hslot : HasSlot _ 0 b := hnext.hasSlot
  obtain ⟨index, value, hwrites, hexec⟩ :=
    writes_on_hugePage hslot (show 4096 < 0x200000 by norm_num) 0 3
  have hframe : (Write.entry (512 * b * 4096) index value).frame ∈ block b := by
    simp only [Write.frame, physAddrToIndex, block, Set.mem_ofPred_eq]
    omega
  have hnot := hnext.not_table hframe
  have hT := hnext.claimed.totalFrames_le
  refine ⟨s, hs, hempty, hclaimed, _, _, hrun, ⟨false, heapPage 0 + 4096, 0, 3⟩, by decide, ?_, _,
    hwrites ▸ List.mem_singleton_self _, fun hgranted => ?_, ?_, hnot⟩
  · rw [hexec]
    refine hnext.served.of_prefix ?_
    rw [allocHugeStep_log]
    exact List.prefix_append _ _
  · rw [hexec] at hgranted
    rcases (tableWritten_exec hnext.claimed.tree hnext.regular.orderly).only _ hgranted with
      hroot | htable
    · rcases hroot with hroot | ⟨s', halloc, -⟩
      · exact hnot ⟨[], congrArg some (hroot.trans
          (congrArg physAddrToIndex hnext.mapped.pml4Phys.symm)).symm⟩
      · simp [withBlock, Machine.note, smallMachine] at halloc
    · exact hnot htable
  · exact (hnext.mapped.used (by omega) _).mpr (.inl ((hnext.used _).mpr (.inr hframe)))

end MathUnikernel.Vmm
