import MathUnikernel.PageTables

/-!
# What one call of a map function does
-/

namespace MathUnikernel.Vmm
open Pmm RadixTree

/-! ## One call -/

/-- `m'` is `m` after entry `index` of the table at `path` was set to `entry`, with tables added on
the way to it. -/
structure Mapped (m m' : Machine) (path : List (Fin 512)) (index : Fin 512) (entry : ℕ) : Prop where
  pml4Phys : m'.pml4Phys = m.pml4Phys
  nextVirtAddr : m'.nextVirtAddr = m.nextVirtAddr
  tree : m'.Tree
  slot : ∃ f, m'.table path = some f ∧ m'.mem f index = entry
  leaf_self : ∀ q, path ++ [index] <+: q → m'.leaf q = paging.leaf (3 - path.length) entry
  leaf_other : ∀ q, ¬path ++ [index] <+: q → m'.leaf q = m.leaf q
  table : ∀ q f, m.table q = some f → m'.table q = some f
  entry_other : ∀ q f j, m.table q = some f → m.mem f j &&& vmmPresent ≠ 0 →
    (q, j) ≠ (path, index) → m'.mem f j = m.mem f j
  table_cases : ∀ q f, m'.table q = some f → m.table q = some f ∨ q.length ≤ path.length
  rest : ∀ f, ¬m'.IsTable f → m'.mem f = m.mem f
  bitmapSize : m'.pmm.bitmapSize = m.pmm.bitmapSize
  totalFrames : m'.pmm.totalFrames = m.pmm.totalFrames
  used : m.pmm.totalFrames ≤ 2 ^ 52 →
    ∀ f, m'.pmm.used f = true ↔ m.pmm.used f = true ∨ (m'.IsTable f ∧ ¬m.IsTable f)
  fresh : m.pmm.totalFrames ≤ 2 ^ 52 → ∀ f, m'.IsTable f → m.IsTable f ∨ m.pmm.used f = false

theorem mem_setEntry (m : Machine) (table : ℕ) (index : Fin 512) (entry f : ℕ) (j : Fin 512) :
    (m.setEntry table index entry).mem f j =
      if f = physAddrToIndex table ∧ j = index then entry else m.mem f j := by
  simp only [Machine.setEntry]
  by_cases hf : f = physAddrToIndex table
  · subst hf
    by_cases hj : j = index
    · simp [hj]
    · simp [hj]
  · simp [hf]

theorem setEntry_self (m : Machine) (table : ℕ) (index : Fin 512) (entry : ℕ) :
    (m.setEntry table index entry).mem (physAddrToIndex table) index = entry := by
  rw [mem_setEntry, if_pos ⟨rfl, rfl⟩]

theorem leafWrite_setEntry {m : Machine} (htree : m.Tree) {path : List (Fin 512)} {table entry : ℕ}
    {index : Fin 512} (hp : m.table path = some (physAddrToIndex table))
    (hold : paging.link (3 - path.length) (m.entry table index) = none)
    (hnew : paging.link (3 - path.length) entry = none) :
    LeafWrite paging m.mem (m.setEntry table index entry).mem 3 m.root path
      (physAddrToIndex table) index := by
  refine ⟨htree, hp, hold, (setEntry_self m table index entry).symm ▸ hnew, fun f j hfj q hq => ?_⟩
  rw [mem_setEntry, if_neg fun h => hfj (by rw [h.1, h.2])]

/-- Writing a leaf over an entry that does not link. -/
theorem Descended.setEntry {m m' : Machine} {path : List (Fin 512)} {table entry : ℕ}
    {index : Fin 512} (hd : Descended m m' path table)
    (hold : paging.link (3 - path.length) (m'.entry table index) = none)
    (hnew : paging.link (3 - path.length) entry = none) :
    Mapped m (m'.setEntry table index entry) path index entry := by
  obtain ⟨h, hp, hcases⟩ := hd
  have hmem := mem_setEntry m' table index entry
  have hself := setEntry_self m' table index entry
  have hwrite := leafWrite_setEntry h.tree hp hold hnew
  have htable : ∀ q, (m'.setEntry table index entry).table q = m'.table q := hwrite.follow_eq
  have hisTable : ∀ f, (m'.setEntry table index entry).IsTable f ↔ m'.IsTable f := fun f =>
    exists_congr fun q => by rw [htable]
  refine ⟨h.pml4Phys, h.nextVirtAddr, hwrite.tree_after, ⟨_, (htable path).trans hp, hself⟩,
    fun q hq => ?_, fun q hq => ?_, fun q f hq => ?_, fun q f j hq hj hne => ?_, fun q f hq => ?_,
    fun f hf => ?_, h.bitmapSize, h.totalFrames, fun hT f => ?_, fun hT f hf => ?_⟩
  · exact (hwrite.find_of_prefix hq).trans (congrArg _ hself)
  · exact (hwrite.find_of_not_prefix hq).trans (h.leaf q)
  · exact (htable q).trans (h.table q f hq)
  · rw [hmem, if_neg, h.entry q f j hq hj]
    rintro ⟨rfl, rfl⟩
    exact hne (by rw [h.tree q path _ (h.table q _ hq) hp])
  · exact hcases q f ((htable q).symm.trans hq)
  · rw [hisTable] at hf
    funext j
    rw [hmem, if_neg, h.rest f hf]
    rintro ⟨rfl, -⟩
    exact hf ⟨path, hp⟩
  · rw [hisTable]
    exact h.used hT f
  · exact h.fresh hT f ((hisTable f).mp hf)

/-- A call of `vmm_map_virt_to_phys`, or of `vmm_map_virt_to_phys_huge_page`. -/
structure MapCall where
  huge : Bool
  virtAddr : ℕ
  physAddr : ℕ
  flags : ℕ

namespace MapCall

def exec (c : MapCall) (m : Machine) : Machine :=
  if c.huge then vmmMapVirtToPhysHugePage m c.virtAddr c.physAddr c.flags
  else vmmMapVirtToPhys m c.virtAddr c.physAddr c.flags

def size (c : MapCall) : ℕ := if c.huge then 0x200000 else 4096

/-- The levels of the tables above the one that gets the leaf. -/
def levels (c : MapCall) : List ℕ := if c.huge then [3, 2] else [3, 2, 1]

/-- The level of the table that gets the leaf. -/
def target (c : MapCall) : ℕ := if c.huge then 1 else 0

def path (c : MapCall) : List (Fin 512) := c.levels.map (tableIndex c.virtAddr)

def index (c : MapCall) : Fin 512 := tableIndex c.virtAddr c.target

/-- The entry the call writes. -/
def newEntry (c : MapCall) : ℕ :=
  if c.huge then (c.physAddr &&& vmmAddrMask) ||| c.flags ||| vmmPresent ||| vmmHuge
  else (c.physAddr &&& vmmAddrMask) ||| c.flags ||| vmmPresent

/-- The flags of the leaf. -/
def flagsOf (c : MapCall) : ℕ :=
  if c.huge then c.flags ||| vmmPresent ||| vmmHuge else c.flags ||| vmmPresent

/-- `va` lies on the target page. -/
def Covers (c : MapCall) (va : ℕ) : Prop := va % 2 ^ 48 / c.size = c.virtAddr % 2 ^ 48 / c.size

instance (c : MapCall) (va : ℕ) : Decidable (c.Covers va) := inferInstanceAs (Decidable (_ = _))

end MapCall

/-- What virtual addresses translate to: a physical address and the flags of the page. -/
abbrev PageMap := ℕ → Option (ℕ × ℕ)

/-- The call as an update of the map. -/
def MapCall.apply (c : MapCall) (f : PageMap) : PageMap := fun va =>
  if c.Covers va then some (c.physAddr / c.size * c.size + va % c.size, c.flagsOf) else f va

/-- A call whose tables come from fresh frames and whose leaf displaces no table. -/
structure Orderly (m : Machine) (c : MapCall) : Prop where
  walk : RegularWalk c.virtAddr c.levels m m.pml4Phys
  slot : c.huge = true → m.table (c.path ++ [c.index]) = none

/-- An orderly call for an aligned page of physical memory, with flags outside the address field. -/
structure Regular (m : Machine) (c : MapCall) : Prop where
  walk : RegularWalk c.virtAddr c.levels m m.pml4Phys
  phys_lt : c.physAddr < 2 ^ 52
  aligned : c.huge = true → c.physAddr % 0x200000 = 0
  flags_addr : c.flags &&& vmmAddrMask = 0
  flags_lt : c.flags < 2 ^ 64
  slot : c.huge = true → m.table (c.path ++ [c.index]) = none

theorem Regular.orderly {m : Machine} {c : MapCall} (h : Regular m c) : Orderly m c :=
  ⟨h.walk, h.slot⟩

theorem exec_eq (m : Machine) (c : MapCall) :
    c.exec m = (descend c.virtAddr c.levels m m.pml4Phys).1.setEntry
      (descend c.virtAddr c.levels m m.pml4Phys).2 c.index c.newEntry := by
  obtain ⟨huge, virtAddr, physAddr, flags⟩ := c
  cases huge <;> rfl

theorem three_sub_length_path (c : MapCall) : 3 - c.path.length = c.target := by
  obtain ⟨huge, virtAddr, physAddr, flags⟩ := c
  cases huge <;> rfl

theorem newEntry_eq (c : MapCall) : c.newEntry = (c.physAddr &&& vmmAddrMask) ||| c.flagsOf := by
  unfold MapCall.newEntry MapCall.flagsOf
  split_ifs
  · simp only [Nat.or_assoc]
  · exact Nat.or_assoc _ _ _

theorem or_vmmPresent_odd (a : ℕ) : (a ||| vmmPresent) % 2 = 1 := by
  have h : (a ||| vmmPresent).testBit 0 = true := by
    rw [Nat.testBit_or, show vmmPresent.testBit 0 = true from rfl, Bool.or_true]
  simpa using h

/-- The flags of the leaf stay clear of the address field. -/
theorem flagsOf_facts {m : Machine} {c : MapCall} (hc : Regular m c) :
    c.flagsOf &&& vmmAddrMask = 0 ∧ c.flagsOf < 2 ^ 64 ∧ c.flagsOf % 2 = 1 := by
  have haddr : (c.flags ||| vmmPresent) &&& vmmAddrMask = 0 := by
    rw [Nat.and_or_distrib_right, hc.flags_addr]
    rfl
  have hlt : c.flags ||| vmmPresent < 2 ^ 64 := Nat.or_lt_two_pow hc.flags_lt (by decide)
  unfold MapCall.flagsOf
  split_ifs
  · refine ⟨?_, Nat.or_lt_two_pow hlt (by decide), ?_⟩
    · rw [Nat.and_or_distrib_right, haddr]
      rfl
    · rw [Nat.or_assoc, Nat.or_comm vmmPresent, ← Nat.or_assoc]
      exact or_vmmPresent_odd _
  · exact ⟨haddr, hlt, or_vmmPresent_odd _⟩

theorem leafEntry_newEntry {m : Machine} {c : MapCall} (hc : Regular m c) :
    LeafEntry c.newEntry c.physAddr c.flagsOf := by
  obtain ⟨haddr, hlt, hodd⟩ := flagsOf_facts hc
  rw [newEntry_eq]
  exact leafEntry_or hc.phys_lt haddr hlt hodd

theorem newEntry_present {m : Machine} {c : MapCall} (hc : Regular m c) :
    c.newEntry &&& vmmPresent ≠ 0 := by
  rw [and_vmmPresent, (leafEntry_newEntry hc).present]
  exact one_ne_zero

theorem newEntry_huge {c : MapCall} (h : c.huge = true) : c.newEntry &&& vmmHuge ≠ 0 := by
  rw [MapCall.newEntry, if_pos h]
  exact and_vmmHuge_or _

theorem link_newEntry (c : MapCall) : paging.link c.target c.newEntry = none := by
  unfold MapCall.target
  split_ifs with hhuge
  · exact link_huge (newEntry_huge hhuge)
  · exact link_zero _

theorem link_newEntry_path (c : MapCall) : paging.link (3 - c.path.length) c.newEntry = none := by
  rw [three_sub_length_path]
  exact link_newEntry c

/-- The hardware reads the written entry as the page of the call. -/
theorem leaf_newEntry {m : Machine} {c : MapCall} (hc : Regular m c) :
    paging.leaf c.target c.newEntry =
      some ⟨c.physAddr / c.size * c.size, c.size, c.flagsOf⟩ := by
  have hentry := leafEntry_newEntry hc
  have hp := newEntry_present hc
  unfold MapCall.target MapCall.size
  split_ifs with hhuge
  · have haligned := hc.aligned hhuge
    have hbase : c.physAddr / 4096 * 4096 / 0x200000 * 0x200000 = c.physAddr / 0x200000 * 0x200000 := by
      omega
    rw [leaf_huge hp (newEntry_huge hhuge), hentry.getAddr, hentry.flags, hbase]
  · rw [leaf_page hp, hentry.getAddr, hentry.flags]

/-! ## Paths and pages -/

/-- Two numbers agree below `512 * n` when their lowest digits and the rest below `n` agree. -/
theorem mod_mul_iff (a b n : ℕ) :
    a % (512 * n) = b % (512 * n) ↔ a / 512 % n = b / 512 % n ∧ a % 512 = b % 512 := by
  rw [Nat.mod_mul, Nat.mod_mul]
  omega

theorem tableIndex_eq_iff (x y level : ℕ) :
    tableIndex x level = tableIndex y level ↔
      x / 4096 / 512 ^ level % 512 = y / 4096 / 512 ^ level % 512 := by
  have hpow : 2 ^ (12 + level * 9) = 4096 * 512 ^ level := by
    rw [Nat.pow_add, Nat.mul_comm level, Nat.pow_mul]
  rw [Fin.ext_iff, tableIndex_val, tableIndex_val, hpow, ← Nat.div_div_eq_div_mul,
    ← Nat.div_div_eq_div_mul]

/-- The target path leads the walk of exactly the addresses on the target page. -/
theorem path_prefix_iff (c : MapCall) (va : ℕ) :
    c.path ++ [c.index] <+: pathOf va ↔ c.Covers va := by
  obtain ⟨huge, x, physAddr, flags⟩ := c
  have hpage : ∀ z : ℕ, z % 2 ^ 48 / 4096 = z / 4096 % (512 * (512 * (512 * 512))) := fun z => by
    omega
  have hhuge : ∀ z : ℕ, z % 2 ^ 48 / 0x200000 = z / 4096 / 512 % (512 * (512 * 512)) := fun z => by
    omega
  have hdiv : ∀ z : ℕ, z / 512 / 512 = z / 512 ^ 2 ∧ z / 512 ^ 2 / 512 = z / 512 ^ 3 := fun z => by
    omega
  cases huge
  · simp only [MapCall.path, MapCall.levels, MapCall.index, MapCall.target, MapCall.Covers,
      MapCall.size, pathOf, if_false, List.map_cons, List.map_nil, List.cons_append, List.nil_append,
      List.cons_prefix_cons, List.nil_prefix, and_true, Bool.false_eq_true, tableIndex_eq_iff, hpage,
      mod_mul_iff, hdiv, Nat.pow_one, Nat.pow_zero, Nat.div_one]
    tauto
  · simp only [MapCall.path, MapCall.levels, MapCall.index, MapCall.target, MapCall.Covers,
      MapCall.size, pathOf, if_true, List.map_cons, List.map_nil, List.cons_append, List.nil_append,
      List.cons_prefix_cons, List.nil_prefix, and_true, tableIndex_eq_iff, hhuge, mod_mul_iff, hdiv,
      Nat.pow_one]
    tauto

/-! ## Calls and runs -/

/-- A walk along existing tables adds none. -/
theorem descend_of_table {virtAddr : ℕ} {levels : List ℕ} {m : Machine} {table : ℕ}
    {p : List (Fin 512)} {f : ℕ} (hp : m.table p = some (physAddrToIndex table))
    (hf : m.table (p ++ levels.map (tableIndex virtAddr)) = some f) :
    (descend virtAddr levels m table).1 = m := by
  induction levels generalizing table p with
  | nil => rfl
  | cons level levels ih =>
    have hsplit : p ++ (level :: levels).map (tableIndex virtAddr) =
        p ++ [tableIndex virtAddr level] ++ levels.map (tableIndex virtAddr) := by simp
    rw [hsplit] at hf
    obtain ⟨g, hg⟩ := follow_prefix (List.prefix_append _ _) hf
    have hlink := hg
    rw [Machine.table] at hp
    rw [follow_snoc, hp, Option.bind_some] at hlink
    have hpresent : m.entry table (tableIndex virtAddr level) &&& vmmPresent ≠ 0 := by
      intro habsent
      have hnone : paging.link (3 - p.length)
          (m.mem (physAddrToIndex table) (tableIndex virtAddr level)) = none := link_absent habsent
      rw [hnone] at hlink
      exact absurd hlink (by simp)
    have hframe : g = physAddrToIndex (vmmGetAddr (m.entry table (tableIndex virtAddr level))) := by
      simp only [paging] at hlink
      split_ifs at hlink
      exact (Option.some.inj hlink).symm
    rw [descend, ensureTable_of_present hpresent]
    refine ih (p := p ++ [tableIndex virtAddr level]) ?_ hf
    rw [← hframe]
    exact hg

theorem levels_target (c : MapCall) : Levels 3 c.levels := by
  obtain ⟨huge, virtAddr, physAddr, flags⟩ := c
  cases huge <;> simp [MapCall.levels, Levels]

theorem walk_of_orderly {m : Machine} (htree : m.Tree) {c : MapCall} (hc : Orderly m c) :
    Walk c.virtAddr c.levels m m.pml4Phys [] :=
  walk_of_regular htree rfl (levels_target c) hc.walk

theorem descended_of_orderly {m : Machine} (htree : m.Tree) {c : MapCall} (hc : Orderly m c) :
    Descended m (descend c.virtAddr c.levels m m.pml4Phys).1 c.path
      (descend c.virtAddr c.levels m m.pml4Phys).2 :=
  (walk_of_orderly htree hc).descended

/-- The entry an orderly call overwrites links to no table. -/
theorem link_old {m : Machine} (htree : m.Tree) {c : MapCall} (hc : Orderly m c) :
    paging.link (3 - c.path.length) ((descend c.virtAddr c.levels m m.pml4Phys).1.entry
      (descend c.virtAddr c.levels m m.pml4Phys).2 c.index) = none := by
  have hd := descended_of_orderly htree hc
  by_cases hhuge : c.huge = true
  · cases hlink : paging.link (3 - c.path.length)
      ((descend c.virtAddr c.levels m m.pml4Phys).1.entry
        (descend c.virtAddr c.levels m m.pml4Phys).2 c.index) with
    | none => rfl
    | some f =>
      have htable : (descend c.virtAddr c.levels m m.pml4Phys).1.table (c.path ++ [c.index]) =
          some f := by
        have hp := hd.table
        rw [Machine.table] at hp ⊢
        rw [follow_snoc, hp]
        exact hlink
      rcases hd.table_cases _ _ htable with h | h
      · rw [hc.slot hhuge] at h
        exact absurd h (by simp)
      · simp at h
  · rw [three_sub_length_path, MapCall.target, if_neg hhuge]
    exact link_zero _

/-- What an orderly call does to the tree of tables. -/
theorem mapped_of_orderly {m : Machine} (htree : m.Tree) {c : MapCall} (hc : Orderly m c) :
    Mapped m (c.exec m) c.path c.index c.newEntry := by
  rw [exec_eq]
  exact (descended_of_orderly htree hc).setEntry (link_old htree hc) (link_newEntry_path c)

/-- The leaf moves no table: the tables are those the walk leaves. -/
theorem exec_table {m : Machine} (htree : m.Tree) {c : MapCall} (hc : Orderly m c)
    (q : List (Fin 512)) :
    (c.exec m).table q = (descend c.virtAddr c.levels m m.pml4Phys).1.table q := by
  have hd := descended_of_orderly htree hc
  rw [exec_eq]
  exact (leafWrite_setEntry hd.grown.tree hd.table (link_old htree hc)
    (link_newEntry_path c)).follow_eq q

theorem mapped_of_regular {m : Machine} (htree : m.Tree) {c : MapCall} (hc : Regular m c) :
    Mapped m (c.exec m) c.path c.index c.newEntry := mapped_of_orderly htree hc.orderly

/-- A call whose tables are all there adds none. -/
theorem isTable_of_table {m : Machine} (htree : m.Tree) {c : MapCall} (hc : Regular m c) {f : ℕ}
    (hf : m.table c.path = some f) {g : ℕ} (hg : (c.exec m).IsTable g) : m.IsTable g := by
  obtain ⟨q, hq⟩ := hg
  rw [exec_table htree hc.orderly, descend_of_table (p := []) rfl hf] at hq
  exact ⟨q, hq⟩

/-- The tables a walk adds are on its path. -/
theorem Walk.table_cases {virtAddr : ℕ} {levels : List ℕ} {m : Machine} {table : ℕ}
    {p : List (Fin 512)} (h : Walk virtAddr levels m table p) {q : List (Fin 512)} {f : ℕ}
    (hq : (descend virtAddr levels m table).1.table q = some f) :
    m.table q = some f ∨ q <+: p ++ levels.map (tableIndex virtAddr) := by
  induction h with
  | done htree hp => exact .inl hq
  | step htree hp hl hfresh hrest ih =>
    rw [List.map_cons, List.append_cons]
    rcases ih hq with hq | hq
    · refine (table_ensureTable_cases htree hp hl hfresh hq).imp_right fun hq => ?_
      rw [hq]
      exact List.prefix_append _ _
    · exact .inr hq

theorem exec_table_cases {m : Machine} (htree : m.Tree) {c : MapCall} (hc : Orderly m c)
    {q : List (Fin 512)} {f : ℕ} (hq : (c.exec m).table q = some f) :
    m.table q = some f ∨ q <+: c.path := by
  rw [exec_table htree hc] at hq
  exact (walk_of_orderly htree hc).table_cases hq

/-- A regular call updates what the hardware walk finds on its page and nowhere else. -/
theorem hwWalk_exec {m : Machine} (htree : m.Tree) {c : MapCall} (hc : Regular m c) :
    hwWalk (c.exec m) = c.apply (hwWalk m) := by
  have hmapped := mapped_of_regular htree hc
  funext va
  rw [hwWalk_eq, MapCall.apply]
  split_ifs with hcov
  · rw [hmapped.leaf_self _ ((path_prefix_iff c va).mpr hcov), three_sub_length_path,
      leaf_newEntry hc]
    rfl
  · rw [hmapped.leaf_other _ fun h => hcov ((path_prefix_iff c va).mp h), ← hwWalk_eq]

/-! ## Unchanged tables -/

/-- The tables are where and what they were. -/
structure Between (m m' : Machine) : Prop where
  pml4Phys : m'.pml4Phys = m.pml4Phys
  tables : ∀ f, m.IsTable f → m'.mem f = m.mem f

theorem Between.root {m m' : Machine} (h : Between m m') : m'.root = m.root :=
  congrArg physAddrToIndex h.pml4Phys

theorem Between.agreeOff {m m' : Machine} (h : Between m m') (path : List (Fin 512)) :
    AgreeOff paging m.mem m'.mem 3 m.root path := by
  intro q f j hq _
  rw [h.tables f ⟨q, hq⟩]

theorem Between.table {m m' : Machine} (h : Between m m') (q : List (Fin 512)) :
    m'.table q = m.table q := by
  rw [Machine.table, h.root]
  obtain ⟨i⟩ : Nonempty (Fin 512) := inferInstance
  exact (h.agreeOff (q ++ [i])).follow_eq q fun hq => by simpa using hq.length_le

theorem Between.leaf {m m' : Machine} (h : Between m m') (q : List (Fin 512)) :
    m'.leaf q = m.leaf q := by
  rw [Machine.leaf, h.root]
  obtain ⟨i⟩ : Nonempty (Fin 512) := inferInstance
  exact (h.agreeOff (q ++ [i])).find_eq q fun hq => by simpa using hq.length_le

theorem Between.isTable {m m' : Machine} (h : Between m m') (f : ℕ) : m'.IsTable f ↔ m.IsTable f :=
  exists_congr fun q => by rw [h.table]

theorem Between.tree {m m' : Machine} (h : Between m m') (htree : m.Tree) : m'.Tree := by
  intro p q f hp hq
  rw [← Machine.table, h.table] at hp hq
  exact htree p q f hp hq

theorem Between.hwWalk_eq {m m' : Machine} (h : Between m m') : hwWalk m' = hwWalk m := by
  funext va
  rw [Vmm.hwWalk_eq, Vmm.hwWalk_eq, h.leaf]

theorem Between.refl (m : Machine) : Between m m := ⟨rfl, fun _ _ => rfl⟩

theorem Between.trans {m m' m'' : Machine} (h : Between m m') (h' : Between m' m'') :
    Between m m'' :=
  ⟨h'.pml4Phys.trans h.pml4Phys, fun f hf =>
    (h'.tables f ((h.isTable f).mpr hf)).trans (h.tables f hf)⟩

theorem between_clearFrame {m : Machine} {physAddr : ℕ}
    (h : ¬m.IsTable (physAddrToIndex physAddr)) : Between m (m.clearFrame physAddr) := by
  refine ⟨rfl, fun f hf => Function.update_of_ne ?_ _ _⟩
  rintro rfl
  exact h hf

/-- The PML4 has no present entry. -/
def EmptyPml4 (m : Machine) : Prop := ∀ i, m.entry m.pml4Phys i = 0

theorem tree_of_emptyPml4 {m : Machine} (h : EmptyPml4 m) : m.Tree := by
  have hblank : Blank paging m.mem m.root := blank_of_zero h
  intro p q f hp hq
  cases p with
  | cons i p => rw [hblank.follow_cons] at hp; exact absurd hp (by simp)
  | nil =>
    cases q with
    | cons i q => rw [hblank.follow_cons] at hq; exact absurd hq (by simp)
    | nil => rfl

end MathUnikernel.Vmm
