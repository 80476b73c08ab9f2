import MathUnikernel.Library.RadixTree
import MathUnikernel.PmmSpec
import MathUnikernel.Vmm

/-!
# Page tables as a map from virtual to physical pages

The tables under the PML4 form a radix tree.  A call of one of the two map functions changes what
the hardware walk finds on its target page and nowhere else.
-/

namespace MathUnikernel.Vmm
open Pmm RadixTree

/-! ## Entries -/

theorem testBit_vmmAddrMask (i : ℕ) : vmmAddrMask.testBit i = decide (12 ≤ i ∧ i < 52) := by
  rw [show vmmAddrMask = (2 ^ 40 - 1) <<< 12 from rfl, Nat.testBit_shiftLeft,
    Nat.testBit_two_pow_sub_one, ← Bool.decide_and]
  exact decide_eq_decide.mpr (by omega)

theorem vmmGetAddr_eq (e : ℕ) : vmmGetAddr e = e % 2 ^ 52 / 4096 * 4096 := by
  rw [vmmGetAddr, show vmmAddrMask = (2 ^ 40 - 1) <<< 12 from rfl, ByteBitmap.and_field]
  omega

theorem and_vmmPresent (e : ℕ) : e &&& vmmPresent = e % 2 := Nat.and_one_is_mod e

theorem and_vmmHuge (e : ℕ) : e &&& vmmHuge = e / 128 % 2 * 128 := by
  rw [show vmmHuge = 2 ^ 7 from rfl, Nat.and_two_pow, Nat.testBit_eq_decide_div_mod_eq]
  by_cases h : e / 2 ^ 7 % 2 = 1
  · rw [decide_eq_true h, Bool.toNat_true]
    omega
  · rw [decide_eq_false h, Bool.toNat_false]
    omega

theorem tableIndex_val (virtAddr level : ℕ) :
    (tableIndex virtAddr level : ℕ) = virtAddr / 2 ^ (12 + level * 9) % 512 := by
  change (virtAddr >>> (12 + level * 9)) &&& (2 ^ 9 - 1) = _
  rw [Nat.and_two_pow_sub_one_eq_mod, Nat.shiftRight_eq_div_pow]

/-- An entry for a new table. -/
theorem tableEntry_eq {phys : ℕ} (h : phys % 4096 = 0) :
    phys ||| vmmPresent ||| vmmWriteable = phys + 3 := by
  obtain ⟨k, rfl⟩ : ∃ k, phys = k * 2 ^ 12 := ⟨phys / 4096, by omega⟩
  rw [Nat.or_assoc, ← Nat.shiftLeft_eq, Nat.shiftLeft_add_eq_or_of_lt (by decide)]
  rfl

/-- An entry for a page: an address in the address field, flags outside it. -/
structure LeafEntry (entry phys flags : ℕ) : Prop where
  getAddr : vmmGetAddr entry = phys / 4096 * 4096
  flags : leafFlags entry = flags
  present : entry % 2 = 1

theorem testBit_leafMask (i : ℕ) :
    (0xFFF0000000000FFF : ℕ).testBit i = decide (i < 64 ∧ ¬(12 ≤ i ∧ i < 52)) := by
  rw [show (0xFFF0000000000FFF : ℕ) = (2 ^ 64 - 1) ^^^ vmmAddrMask from rfl, Nat.testBit_xor,
    Nat.testBit_two_pow_sub_one, testBit_vmmAddrMask]
  by_cases h : 12 ≤ i ∧ i < 52
  · simp [h, show i < 64 by omega]
  · simp [h]

theorem leafEntry_or {phys flags : ℕ} (hphys : phys < 2 ^ 52) (hflags : flags &&& vmmAddrMask = 0)
    (hlt : flags < 2 ^ 64) (hpresent : flags % 2 = 1) :
    LeafEntry ((phys &&& vmmAddrMask) ||| flags) phys flags := by
  have hclear : ∀ i, 12 ≤ i → i < 52 → flags.testBit i = false := by
    intro i hlo hhi
    have hbit : (flags &&& vmmAddrMask).testBit i = false := by rw [hflags, Nat.zero_testBit]
    simpa [Nat.testBit_and, testBit_vmmAddrMask, hlo, hhi] using hbit
  refine ⟨?_, ?_, ?_⟩
  · rw [← Nat.mod_eq_of_lt hphys, ← vmmGetAddr_eq, Nat.mod_eq_of_lt hphys]
    refine Nat.eq_of_testBit_eq fun i => ?_
    simp only [vmmGetAddr, Nat.testBit_and, Nat.testBit_or, testBit_vmmAddrMask]
    by_cases hi : 12 ≤ i ∧ i < 52
    · simp [hi, hclear i hi.1 hi.2]
    · simp [hi]
  · refine Nat.eq_of_testBit_eq fun i => ?_
    simp only [leafFlags, Nat.testBit_and, Nat.testBit_or, testBit_vmmAddrMask, testBit_leafMask]
    by_cases hi : i < 64
    · by_cases hmid : 12 ≤ i ∧ i < 52
      · simp [hmid, hclear i hmid.1 hmid.2]
      · simp [hi, hmid]
    · rw [Nat.testBit_lt_two_pow (hlt.trans_le (Nat.pow_le_pow_right (by omega) (by omega)))]
      simp [hi]
  · have h0 : ((phys &&& vmmAddrMask) ||| flags).testBit 0 = true := by
      simp [hpresent]
    simpa using h0

theorem and_vmmHuge_or (e : ℕ) : (e ||| vmmHuge) &&& vmmHuge ≠ 0 := by
  intro h
  have hbit : ((e ||| vmmHuge) &&& vmmHuge).testBit 7 = true := by
    rw [Nat.testBit_and, Nat.testBit_or, show vmmHuge.testBit 7 = true from rfl, Bool.or_true]
    rfl
  rw [h] at hbit
  exact Bool.false_ne_true hbit

/-! ## The tree of tables -/

/-- What a walk ends in: the page at `base` of `size` bytes. -/
structure Leaf where
  base : ℕ
  size : ℕ
  flags : ℕ

/-- How the hardware reads the entries of a table of each level, the PML4's level being 3. -/
def paging : Reading ℕ ℕ Leaf where
  link level entry :=
    if entry &&& vmmPresent = 0 ∨ level = 0 ∨ (level = 1 ∧ entry &&& vmmHuge ≠ 0) then none
    else some (physAddrToIndex (vmmGetAddr entry))
  leaf level entry :=
    if entry &&& vmmPresent = 0 then none
    else if level = 0 then some ⟨vmmGetAddr entry, 4096, leafFlags entry⟩
    else if level = 1 ∧ entry &&& vmmHuge ≠ 0 then
      some ⟨vmmGetAddr entry / 0x200000 * 0x200000, 0x200000, leafFlags entry⟩
    else none

/-- The indices of an address, the PML4's first. -/
def pathOf (virtAddr : ℕ) : List (Fin 512) := [3, 2, 1, 0].map (tableIndex virtAddr)

def Machine.root (m : Machine) : ℕ := physAddrToIndex m.pml4Phys

/-- The frame of the table at the end of a path. -/
def Machine.table (m : Machine) (path : List (Fin 512)) : Option ℕ := follow paging m.mem 3 m.root path

def Machine.leaf (m : Machine) (path : List (Fin 512)) : Option Leaf := find paging m.mem 3 m.root path

/-- Frame `f` holds one of the tables. -/
def Machine.IsTable (m : Machine) (f : ℕ) : Prop := ∃ path, m.table path = some f

def Machine.Tree (m : Machine) : Prop := RadixTree.Tree paging m.mem 3 m.root

theorem link_absent {level entry : ℕ} (h : entry &&& vmmPresent = 0) :
    paging.link level entry = none := if_pos (.inl h)

theorem leaf_absent {level entry : ℕ} (h : entry &&& vmmPresent = 0) :
    paging.leaf level entry = none := if_pos h

theorem link_zero (entry : ℕ) : paging.link 0 entry = none := if_pos (.inr (.inl rfl))

theorem link_huge {entry : ℕ} (h : entry &&& vmmHuge ≠ 0) : paging.link 1 entry = none :=
  if_pos (.inr (.inr ⟨rfl, h⟩))

theorem link_table {level entry : ℕ} (hp : entry &&& vmmPresent ≠ 0) (hl : level ≠ 0)
    (hh : level = 1 → entry &&& vmmHuge = 0) :
    paging.link level entry = some (physAddrToIndex (vmmGetAddr entry)) :=
  if_neg (by rintro (h | h | ⟨h, h'⟩) <;> simp_all)

theorem leaf_page {entry : ℕ} (hp : entry &&& vmmPresent ≠ 0) :
    paging.leaf 0 entry = some ⟨vmmGetAddr entry, 4096, leafFlags entry⟩ :=
  (if_neg hp).trans (if_pos rfl)

theorem leaf_huge {entry : ℕ} (hp : entry &&& vmmPresent ≠ 0) (hh : entry &&& vmmHuge ≠ 0) :
    paging.leaf 1 entry =
      some ⟨vmmGetAddr entry / 0x200000 * 0x200000, 0x200000, leafFlags entry⟩ :=
  (if_neg hp).trans ((if_neg one_ne_zero).trans (if_pos ⟨rfl, hh⟩))

theorem hwWalk_eq (m : Machine) (virtAddr : ℕ) :
    hwWalk m virtAddr =
      (m.leaf (pathOf virtAddr)).map fun v => (v.base + virtAddr % v.size, v.flags) := by
  have hentry : ∀ table index, m.mem (physAddrToIndex table) index = m.entry table index :=
    fun _ _ => rfl
  simp only [hwWalk, Machine.leaf, pathOf, List.map_cons, List.map_nil, find, Machine.root, hentry,
    Nat.add_one_sub_one]
  set pml4e := m.entry m.pml4Phys (tableIndex virtAddr 3)
  by_cases h3 : pml4e &&& vmmPresent = 0
  · simp only [link_absent h3, leaf_absent h3, if_pos h3, Option.map_none]
  simp only [if_neg h3, link_table h3 (show 3 ≠ 0 by omega) (by omega), hentry]
  set pdpte := m.entry (vmmGetAddr pml4e) (tableIndex virtAddr 2)
  by_cases h2 : pdpte &&& vmmPresent = 0
  · simp only [link_absent h2, leaf_absent h2, if_pos h2, Option.map_none]
  simp only [if_neg h2, link_table h2 (show 2 ≠ 0 by omega) (by omega), hentry]
  set pde := m.entry (vmmGetAddr pdpte) (tableIndex virtAddr 1)
  by_cases h1 : pde &&& vmmPresent = 0
  · simp only [link_absent h1, leaf_absent h1, if_pos h1, Option.map_none]
  rw [if_neg h1]
  by_cases hh : pde &&& vmmHuge ≠ 0
  · simp only [if_pos hh, link_huge hh, leaf_huge h1 hh, Option.map_some]
  simp only [if_neg hh, link_table h1 one_ne_zero fun _ => not_not.mp hh, hentry]
  set pte := m.entry (vmmGetAddr pde) (tableIndex virtAddr 0)
  by_cases h0 : pte &&& vmmPresent = 0
  · simp only [link_absent h0, leaf_absent h0, if_pos h0, Option.map_none]
  · simp only [if_neg h0, link_zero, leaf_page h0, Option.map_some]

/-! ## A table on demand -/

theorem pmmAlloc_aligned (s : PmmContext) : (pmmAlloc s).1 % 4096 = 0 := by
  rcases pmmAlloc_cases s with ⟨f, -, h⟩ | ⟨-, h⟩ <;> rw [h]
  · unfold indexToPhysAddr
    omega
  · rfl

/-- A served request claims the frame whose address it returns. -/
theorem used_pmmAlloc {s : PmmContext} (hr : (pmmAlloc s).1 ≠ 0) (hT : s.totalFrames ≤ 2 ^ 52)
    (f : ℕ) : (pmmAlloc s).2.used f = true ↔
      s.used f = true ∨ f = physAddrToIndex (pmmAlloc s).1 := by
  rcases pmmAlloc_cases s with ⟨g, hg, h⟩ | ⟨-, h⟩
  · have hlt := hg.lt_total
    rw [h, used_claimFrame, physAddrToIndex_indexToPhysAddr (by omega)]
    simp
  · rw [h] at hr
    exact absurd rfl hr

/-- The frame a served request returns was free. -/
theorem free_pmmAlloc {s : PmmContext} (hr : (pmmAlloc s).1 ≠ 0) (hT : s.totalFrames ≤ 2 ^ 52) :
    s.used (physAddrToIndex (pmmAlloc s).1) = false := by
  rcases pmmAlloc_cases s with ⟨g, hg, h⟩ | ⟨-, h⟩
  · have hlt := hg.lt_total
    rw [h, physAddrToIndex_indexToPhysAddr (by omega)]
    exact hg.free
  · rw [h] at hr
    exact absurd rfl hr

/-- `pmm_alloc` would return a frame: a non-zero physical address that no table is at. -/
structure Machine.FreshFrame (m : Machine) : Prop where
  ne_zero : (pmmAlloc m.pmm).1 ≠ 0
  lt : (pmmAlloc m.pmm).1 < 2 ^ 52
  not_table : ¬m.IsTable (physAddrToIndex (pmmAlloc m.pmm).1)

/-- `m'` is `m` with further blank tables linked where nothing was. -/
structure Grown (m m' : Machine) : Prop where
  pml4Phys : m'.pml4Phys = m.pml4Phys
  nextVirtAddr : m'.nextVirtAddr = m.nextVirtAddr
  tree : m'.Tree
  leaf : ∀ q, m'.leaf q = m.leaf q
  table : ∀ q f, m.table q = some f → m'.table q = some f
  entry : ∀ q f j, m.table q = some f → m.mem f j &&& vmmPresent ≠ 0 → m'.mem f j = m.mem f j
  rest : ∀ f, ¬m'.IsTable f → m'.mem f = m.mem f
  bitmapSize : m'.pmm.bitmapSize = m.pmm.bitmapSize
  totalFrames : m'.pmm.totalFrames = m.pmm.totalFrames
  used : m.pmm.totalFrames ≤ 2 ^ 52 →
    ∀ f, m'.pmm.used f = true ↔ m.pmm.used f = true ∨ (m'.IsTable f ∧ ¬m.IsTable f)
  fresh : m.pmm.totalFrames ≤ 2 ^ 52 → ∀ f, m'.IsTable f → m.IsTable f ∨ m.pmm.used f = false

/-- What two growths of `T` add to a set, they add as one growth. -/
theorem added_trans {A A' A'' T T' T'' : Prop} (h : A' ↔ A ∨ (T' ∧ ¬T)) (h' : A'' ↔ A' ∨ (T'' ∧ ¬T'))
    (hmono : T → T') (hmono' : T' → T'') : A'' ↔ A ∨ (T'' ∧ ¬T) := by
  rw [h', h, or_assoc]
  apply or_congr_right
  constructor
  · rintro (⟨hnew, hold⟩ | ⟨hnew, hold⟩)
    · exact ⟨hmono' hnew, hold⟩
    · exact ⟨hnew, fun ht => hold (hmono ht)⟩
  · rintro ⟨hnew, hold⟩
    by_cases hmid : T'
    · exact .inl ⟨hmid, hold⟩
    · exact .inr ⟨hnew, hmid⟩

theorem Grown.refl {m : Machine} (h : m.Tree) : Grown m m :=
  ⟨rfl, rfl, h, fun _ => rfl, fun _ _ h => h, fun _ _ _ _ _ => rfl, fun _ _ => rfl, rfl, rfl,
    fun _ f => by tauto, fun _ f hf => .inl hf⟩

theorem Grown.isTable {m m' : Machine} (h : Grown m m') {f : ℕ} (hf : m.IsTable f) : m'.IsTable f :=
  hf.imp fun q hq => h.table q f hq

theorem Grown.trans {m m' m'' : Machine} (h : Grown m m') (h' : Grown m' m'') : Grown m m'' where
  pml4Phys := h'.pml4Phys.trans h.pml4Phys
  nextVirtAddr := h'.nextVirtAddr.trans h.nextVirtAddr
  tree := h'.tree
  leaf q := (h'.leaf q).trans (h.leaf q)
  table q f hq := h'.table q f (h.table q f hq)
  entry q f j hq hj := by
    have hkeep := h.entry q f j hq hj
    exact (h'.entry q f j (h.table q f hq) (hkeep ▸ hj)).trans hkeep
  rest f hf := (h'.rest f hf).trans (h.rest f fun hn => hf (h'.isTable hn))
  bitmapSize := h'.bitmapSize.trans h.bitmapSize
  totalFrames := h'.totalFrames.trans h.totalFrames
  used hT f := added_trans (h.used hT f) (h'.used (h.totalFrames ▸ hT) f) h.isTable h'.isTable
  fresh hT f hf := by
    rcases h'.fresh (h.totalFrames ▸ hT) f hf with hf | hfree
    · exact h.fresh hT f hf
    · exact .inr (free_of_kept (fun hused => (h.used hT f).mpr (.inl hused)) hfree)

theorem ensureTable_of_present {m : Machine} {table : ℕ} {index : Fin 512}
    (h : m.entry table index &&& vmmPresent ≠ 0) : ensureTable m table index = m := if_neg h

/-- The memory after a table was added. -/
theorem mem_ensureTable {m : Machine} {table : ℕ} {index : Fin 512}
    (h : m.entry table index &&& vmmPresent = 0)
    (hne : physAddrToIndex table ≠ physAddrToIndex (pmmAlloc m.pmm).1) (f : ℕ) (j : Fin 512) :
    (ensureTable m table index).mem f j =
      if f = physAddrToIndex (pmmAlloc m.pmm).1 then 0
      else if f = physAddrToIndex table ∧ j = index then (pmmAlloc m.pmm).1 + 3
      else m.mem f j := by
  rw [ensureTable, if_pos h]
  simp only [Machine.setEntry, Machine.clearFrame, tableEntry_eq (pmmAlloc_aligned m.pmm)]
  by_cases hf : f = physAddrToIndex (pmmAlloc m.pmm).1
  · rw [hf, Function.update_of_ne (Ne.symm hne), Function.update_self, if_pos rfl]
  · rw [if_neg hf]
    by_cases ht : f = physAddrToIndex table
    · subst ht
      rw [Function.update_self, Function.update_of_ne hne]
      by_cases hj : j = index
      · rw [hj, Function.update_self, if_pos ⟨rfl, rfl⟩]
      · rw [Function.update_of_ne hj, if_neg fun h => hj h.2]
        rfl
    · rw [Function.update_of_ne ht, Function.update_of_ne hf, if_neg fun h => ht h.1]
      rfl

theorem blank_of_zero {mem : ℕ → Fin 512 → ℕ} {f : ℕ} (h : ∀ j, mem f j = 0) : Blank paging mem f :=
  fun l j => by rw [h j]; exact ⟨link_absent rfl, leaf_absent rfl⟩

theorem link_tableEntry {level phys : ℕ} (hl : level ≠ 0) (h : phys % 4096 = 0)
    (hlt : phys < 2 ^ 52) : paging.link level (phys + 3) = some (physAddrToIndex phys) := by
  rw [link_table (by rw [and_vmmPresent]; omega) hl fun _ => by rw [and_vmmHuge]; omega]
  congr 2
  rw [vmmGetAddr_eq]
  omega

theorem tableLink_ensureTable {m : Machine} (htree : m.Tree) {p : List (Fin 512)} {table : ℕ}
    {index : Fin 512} (hp : m.table p = some (physAddrToIndex table)) (hl : 3 - p.length ≠ 0)
    (habsent : m.entry table index &&& vmmPresent = 0) (hfresh : m.FreshFrame) :
    TableLink paging m.mem (ensureTable m table index).mem 3 m.root p (physAddrToIndex table) index
      (physAddrToIndex (pmmAlloc m.pmm).1) := by
  have hne : physAddrToIndex table ≠ physAddrToIndex (pmmAlloc m.pmm).1 :=
    fun h => hfresh.not_table ⟨p, h ▸ hp⟩
  have hmem := mem_ensureTable habsent hne
  refine ⟨htree, hp, fun q hq => hfresh.not_table ⟨q, hq⟩, link_absent habsent, leaf_absent habsent,
    ?_, blank_of_zero fun j => ?_, fun f j hf hfj => ?_⟩
  · rw [hmem, if_neg hne, if_pos ⟨rfl, rfl⟩]
    exact link_tableEntry hl (pmmAlloc_aligned m.pmm) hfresh.lt
  · rw [hmem, if_pos rfl]
  · rw [hmem, if_neg hf, if_neg fun h => hfj (by rw [h.1, h.2])]

theorem ensureTable_pml4Phys (m : Machine) (table : ℕ) (index : Fin 512) :
    (ensureTable m table index).pml4Phys = m.pml4Phys := by
  unfold ensureTable
  split_ifs <;> rfl

theorem grown_ensureTable {m : Machine} (htree : m.Tree) {p : List (Fin 512)} {table : ℕ}
    {index : Fin 512} (hp : m.table p = some (physAddrToIndex table)) (hl : 3 - p.length ≠ 0)
    (hfresh : m.entry table index &&& vmmPresent = 0 → m.FreshFrame) :
    Grown m (ensureTable m table index) := by
  by_cases habsent : m.entry table index &&& vmmPresent = 0
  · have hlink := tableLink_ensureTable htree hp hl habsent (hfresh habsent)
    have hroot : (ensureTable m table index).root = m.root :=
      congrArg physAddrToIndex (ensureTable_pml4Phys m table index)
    have hpmm : (ensureTable m table index).pmm = (pmmAlloc m.pmm).2 := by
      rw [ensureTable, if_pos habsent]
      rfl
    have htable : ∀ q, (ensureTable m table index).table q =
        follow paging (ensureTable m table index).mem 3 m.root q := fun q => by
      rw [Machine.table, hroot]
    refine ⟨ensureTable_pml4Phys m table index, ?_, ?_, fun q => ?_, fun q f hq => ?_, ?_, ?_, ?_, ?_, ?_,
      fun hT f ⟨q, hq⟩ => ?_⟩
    · rw [ensureTable, if_pos habsent]
      rfl
    · rw [Machine.Tree, hroot]
      exact hlink.tree_after
    · rw [Machine.leaf, hroot]
      exact hlink.find_eq q
    · rw [htable]
      exact hlink.follow_of_some hq
    · intro q f j hq hj
      refine hlink.rest f j (fun hf => hlink.fresh q (hf ▸ hq)) fun hfj => hj ?_
      rw [(Prod.mk.inj hfj).1, (Prod.mk.inj hfj).2]
      exact habsent
    · intro f hf
      funext j
      refine hlink.rest f j (fun hg => hf ⟨p ++ [index], ?_⟩) fun hfj => hf ⟨p, ?_⟩
      · rw [htable, hg]
        exact hlink.follow_self
      · rw [htable, (Prod.mk.inj hfj).1]
        exact hlink.follow_of_some hp
    · rw [hpmm, pmmAlloc_bitmapSize]
    · rw [hpmm, pmmAlloc_totalFrames]
    · intro hT f
      rw [hpmm, used_pmmAlloc (hfresh habsent).ne_zero hT]
      refine or_congr_right ⟨fun hf => ?_, fun ⟨⟨q, hq⟩, hf⟩ => ?_⟩
      · subst hf
        exact ⟨⟨p ++ [index], (htable _).trans hlink.follow_self⟩, (hfresh habsent).not_table⟩
      · rw [htable] at hq
        rcases hlink.follow_cases hq with ⟨-, hg⟩ | hq
        · exact hg
        · exact absurd ⟨q, hq⟩ hf
    · rw [htable] at hq
      rcases hlink.follow_cases hq with ⟨-, hg⟩ | hq
      · exact .inr (hg ▸ free_pmmAlloc (hfresh habsent).ne_zero hT)
      · exact .inl ⟨q, hq⟩
  · rw [ensureTable_of_present habsent]
    exact Grown.refl htree

/-- The only new table is the one at `p ++ [index]`. -/
theorem table_ensureTable_cases {m : Machine} (htree : m.Tree) {p : List (Fin 512)} {table : ℕ}
    {index : Fin 512} (hp : m.table p = some (physAddrToIndex table)) (hl : 3 - p.length ≠ 0)
    (hfresh : m.entry table index &&& vmmPresent = 0 → m.FreshFrame) {q : List (Fin 512)} {f : ℕ}
    (hq : (ensureTable m table index).table q = some f) : m.table q = some f ∨ q = p ++ [index] := by
  by_cases habsent : m.entry table index &&& vmmPresent = 0
  · have hlink := tableLink_ensureTable htree hp hl habsent (hfresh habsent)
    rw [Machine.table, Machine.root, ensureTable_pml4Phys] at hq
    exact (hlink.follow_cases hq).symm.imp_right And.left
  · rw [ensureTable_of_present habsent] at hq
    exact .inl hq

/-! ## The walk of the map functions -/

/-- Every table the walk adds is in a fresh frame, and no page directory entry it passes through is
a leaf. -/
def RegularWalk (virtAddr : ℕ) : List ℕ → Machine → ℕ → Prop
  | [], _, _ => True
  | level :: levels, m, currentTable =>
    let index := tableIndex virtAddr level
    let entry := m.entry currentTable index
    let m' := ensureTable m currentTable index
    (entry &&& vmmPresent = 0 → m.FreshFrame) ∧
    (entry &&& vmmPresent ≠ 0 → level = 1 → entry &&& vmmHuge = 0) ∧
    RegularWalk virtAddr levels m' (vmmGetAddr (m'.entry currentTable index))

/-- The levels of a walk that has come down to a table of level `l`. -/
def Levels : ℕ → List ℕ → Prop
  | _, [] => True
  | l, level :: levels => level = l ∧ l ≠ 0 ∧ Levels (l - 1) levels

theorem levels_cons {p : List (Fin 512)} {level : ℕ} {levels : List ℕ}
    (h : Levels (3 - p.length) (level :: levels)) :
    level = 3 - p.length ∧ 3 - p.length ≠ 0 ∧ ∀ i, Levels (3 - (p ++ [i]).length) levels := by
  refine ⟨h.1, h.2.1, fun i => ?_⟩
  rw [List.length_append, List.length_singleton, ← Nat.sub_sub]
  exact h.2.2

/-- After the test the entry links, and the next table is the one it links to. -/
theorem table_ensureTable {m : Machine} (htree : m.Tree) {p : List (Fin 512)} {table : ℕ}
    {index : Fin 512} (hp : m.table p = some (physAddrToIndex table)) (hl : 3 - p.length ≠ 0)
    (hfresh : m.entry table index &&& vmmPresent = 0 → m.FreshFrame)
    (hhuge : m.entry table index &&& vmmPresent ≠ 0 → 3 - p.length = 1 →
      m.entry table index &&& vmmHuge = 0) :
    (ensureTable m table index).table (p ++ [index]) =
      some (physAddrToIndex (vmmGetAddr ((ensureTable m table index).entry table index))) := by
  have hgrown := grown_ensureTable htree hp hl hfresh
  have hp' := hgrown.table p _ hp
  by_cases habsent : m.entry table index &&& vmmPresent = 0
  · have hf := hfresh habsent
    have hne : physAddrToIndex table ≠ physAddrToIndex (pmmAlloc m.pmm).1 :=
      fun h => hf.not_table ⟨p, h ▸ hp⟩
    have hentry : (ensureTable m table index).entry table index = (pmmAlloc m.pmm).1 + 3 := by
      rw [Machine.entry, mem_ensureTable habsent hne, if_neg hne, if_pos ⟨rfl, rfl⟩]
    have haddr : vmmGetAddr ((pmmAlloc m.pmm).1 + 3) = (pmmAlloc m.pmm).1 := by
      have halign := pmmAlloc_aligned m.pmm
      have hlt := hf.lt
      rw [vmmGetAddr_eq]
      omega
    rw [Machine.table, follow_snoc]
    rw [Machine.table] at hp'
    rw [hp', Option.bind_some, hentry, haddr]
    have hmem : (ensureTable m table index).mem (physAddrToIndex table) index =
      (pmmAlloc m.pmm).1 + 3 := hentry
    rw [hmem]
    exact link_tableEntry hl (pmmAlloc_aligned m.pmm) hf.lt
  · rw [ensureTable_of_present habsent, Machine.table, follow_snoc]
    rw [Machine.table] at hp
    rw [hp, Option.bind_some]
    exact link_table habsent hl (hhuge habsent)

/-- What the walk does: it grows the tree, and `current_table` ends at the path walked. -/
structure Descended (m m' : Machine) (path : List (Fin 512)) (table : ℕ) : Prop where
  grown : Grown m m'
  table : m'.table path = some (physAddrToIndex table)
  table_cases : ∀ q f, m'.table q = some f → m.table q = some f ∨ q.length ≤ path.length

/-- A regular walk, step by step: the path to the table it is at, and the next table. -/
inductive Walk (virtAddr : ℕ) : List ℕ → Machine → ℕ → List (Fin 512) → Prop
  | done {m : Machine} {table : ℕ} {p : List (Fin 512)} (htree : m.Tree)
      (hp : m.table p = some (physAddrToIndex table)) : Walk virtAddr [] m table p
  | step {levels : List ℕ} {m : Machine} {table : ℕ} {p : List (Fin 512)} (htree : m.Tree)
      (hp : m.table p = some (physAddrToIndex table)) (hl : 3 - p.length ≠ 0)
      (hfresh : m.entry table (tableIndex virtAddr (3 - p.length)) &&& vmmPresent = 0 →
        m.FreshFrame)
      (hrest : Walk virtAddr levels (ensureTable m table (tableIndex virtAddr (3 - p.length)))
        (vmmGetAddr ((ensureTable m table (tableIndex virtAddr (3 - p.length))).entry table
          (tableIndex virtAddr (3 - p.length)))) (p ++ [tableIndex virtAddr (3 - p.length)])) :
      Walk virtAddr ((3 - p.length) :: levels) m table p

theorem walk_of_regular {virtAddr : ℕ} {levels : List ℕ} {m : Machine} {table : ℕ}
    {p : List (Fin 512)} (htree : m.Tree) (hp : m.table p = some (physAddrToIndex table))
    (hlevels : Levels (3 - p.length) levels) (hreg : RegularWalk virtAddr levels m table) :
    Walk virtAddr levels m table p := by
  induction levels generalizing m table p with
  | nil => exact .done htree hp
  | cons level levels ih =>
    obtain ⟨rfl, hl, hrest⟩ := levels_cons hlevels
    obtain ⟨hfresh, hhuge, hreg⟩ := hreg
    have hgrown := grown_ensureTable htree hp hl hfresh
    have hnext := table_ensureTable htree hp hl hfresh hhuge
    exact .step htree hp hl hfresh (ih hgrown.tree hnext (hrest _) hreg)

theorem Walk.descended {virtAddr : ℕ} {levels : List ℕ} {m : Machine} {table : ℕ}
    {p : List (Fin 512)} (h : Walk virtAddr levels m table p) :
    Descended m (descend virtAddr levels m table).1 (p ++ levels.map (tableIndex virtAddr))
      (descend virtAddr levels m table).2 := by
  induction h with
  | done htree hp => exact ⟨Grown.refl htree, by simpa [descend] using hp, fun q f hq => .inl hq⟩
  | step htree hp hl hfresh hwalk hrest =>
    have hgrown := grown_ensureTable htree hp hl hfresh
    rw [List.append_assoc] at hrest
    refine ⟨hgrown.trans hrest.grown, hrest.table, fun q f hq => ?_⟩
    rcases hrest.table_cases q f hq with hq | hq
    · refine (table_ensureTable_cases htree hp hl hfresh hq).imp_right fun hq => ?_
      simp [hq]
    · exact .inr hq

end MathUnikernel.Vmm
