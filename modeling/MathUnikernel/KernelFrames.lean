import MathUnikernel.KernelBoot
import MathUnikernel.PmmOwnership

/-!
# Frames that the kernel keeps

The frames of the page tables, of the bitmap and of the table of functions, and what the physical
memory manager hands out after boot.
-/

namespace MathUnikernel.Vmm
open Pmm RadixTree Runs

/-! ## Frames handed out -/

/-- The frames returned for a request. -/
def Event.frames : Event → Set ℕ
  | .alloc s => granted (pmmAlloc s).1 1
  | .alloc2mb s => granted (pmmAlloc2mb s).1 512
  | _ => ∅

/-- The frames made tables. -/
def tableFrames (log : List Event) : Set ℕ := {f | ∃ p, .table p ∈ log ∧ physAddrToIndex p = f}

/-- No request is answered with a frame of `K` or of a table made before it. -/
def Spared (K : Set ℕ) (log : List Event) : Prop :=
  ∀ before e, before ++ [e] <+: log → Disjoint e.frames (K ∪ tableFrames before)

theorem spared_snoc {K : Set ℕ} {log : List Event} {e : Event} :
    Spared K (log ++ [e]) ↔ Spared K log ∧ Disjoint e.frames (K ∪ tableFrames log) := by
  constructor
  · intro h
    exact ⟨fun before e' hpre => h before e' (hpre.trans (List.prefix_append _ _)),
      h log e List.prefix_rfl⟩
  · intro ⟨hlog, he⟩ before e' hpre
    rcases List.prefix_concat_iff.mp hpre with heq | hpre
    · obtain ⟨rfl, hlast⟩ := List.append_inj' heq rfl
      obtain rfl := List.singleton_inj.mp hlast
      exact he
    · exact hlog before e' hpre

theorem tableFrames_snoc (log : List Event) {e : Event} (he : ∀ p, e ≠ .table p) :
    tableFrames (log ++ [e]) = tableFrames log := by
  ext f
  have hne : ∀ p, .table p ≠ e := fun p h => he p h.symm
  simp [tableFrames, hne]

theorem tableFrames_table (log : List Event) (p : ℕ) :
    tableFrames (log ++ [.table p]) = tableFrames log ∪ {physAddrToIndex p} := by
  ext f
  simp only [tableFrames, List.mem_append, List.mem_singleton, Event.table.injEq,
    Set.mem_ofPred_eq, Set.mem_union, Set.mem_singleton_iff, or_and_right, exists_or, exists_eq_left]
  exact or_congr_right eq_comm

/-- A request is answered with free frames of the bitmap. -/
theorem free_of_mem_frames {s : PmmContext} (hT : s.totalFrames ≤ 2 ^ 52) {f : ℕ}
    (hf : f ∈ (Event.alloc s).frames) : f < 8 * s.bitmapSize ∧ s.used f = false := by
  obtain ⟨hne, hlo, hhi⟩ := hf
  obtain ⟨g, hg, -⟩ := (hasFrame_iff s).mpr hne
  have hlt := hg.lt_total
  rw [pmmAlloc_of_firstFree hg, indexToPhysAddr_of_lt (by omega)] at hlo hhi
  obtain rfl : f = g := by omega
  exact ⟨hg.lt_size, hg.free⟩

theorem free_of_mem_frames_2mb {s : PmmContext} {b f : ℕ} (hfree : FreeGroup s b)
    (hresult : (pmmAlloc2mb s).1 = 512 * b * 4096) (hf : f ∈ (Event.alloc2mb s).frames) :
    f < 8 * s.bitmapSize ∧ s.used f = false := by
  obtain ⟨-, hlo, hhi⟩ := hf
  have hsize := hfree.le_size
  rw [hresult] at hlo hhi
  exact ⟨by omega, hfree.free f (by omega) (by omega)⟩

/-! ## The guard -/

/-- The frames of `K` and of the tables are out of the memory manager's hands, and have been in all
requests so far.  The tables are `T` and those made since the log began. -/
structure Guarded (K T : Set ℕ) (m : Machine) : Prop where
  kept : ∀ f ∈ K ∪ tableFrames m.log, f < 8 * m.pmm.bitmapSize → m.pmm.used f = true
  spared : Spared K m.log
  apart : Disjoint (tableFrames m.log) K
  tables : ∀ f, m.IsTable f ↔ f ∈ T ∨ f ∈ tableFrames m.log

/-- A request that is answered with free frames. -/
theorem Guarded.note {K T : Set ℕ} {m m' : Machine} (h : Guarded K T m) {e : Event}
    (hlog : m'.log = m.log ++ [e]) (he : ∀ p, e ≠ .table p)
    (hfree : ∀ f ∈ e.frames, f < 8 * m.pmm.bitmapSize ∧ m.pmm.used f = false)
    (hused : ∀ f, m.pmm.used f = true → m'.pmm.used f = true)
    (hsize : m'.pmm.bitmapSize = m.pmm.bitmapSize) (htable : ∀ f, m'.IsTable f ↔ m.IsTable f) :
    Guarded K T m' := by
  have hframes := tableFrames_snoc m.log he
  rw [← hlog] at hframes
  refine ⟨fun f hf hlt => ?_, ?_, ?_, fun f => ?_⟩
  · rw [hframes] at hf
    exact hused f (h.kept f hf (hsize ▸ hlt))
  · rw [hlog]
    apply spared_snoc.mpr ⟨h.spared, ?_⟩
    apply Set.disjoint_left.mpr
    intro f hf hmem
    obtain ⟨hlt, hclear⟩ := hfree f hf
    rw [h.kept f hmem hlt] at hclear
    exact absurd hclear (by simp)
  · rw [hframes]
    exact h.apart
  · rw [hframes, htable]
    exact h.tables f

/-- What only changes data and the log's other events. -/
theorem Guarded.congr {K T : Set ℕ} {m m' : Machine} (h : Guarded K T m) (hpmm : m'.pmm = m.pmm)
    (hlog : m'.log = m.log) (htable : ∀ f, m'.IsTable f ↔ m.IsTable f) : Guarded K T m' := by
  refine ⟨fun f hf hlt => ?_, hlog ▸ h.spared, hlog ▸ h.apart, fun f => ?_⟩
  · rw [hlog] at hf
    rw [hpmm] at hlt ⊢
    exact h.kept f hf hlt
  · rw [htable, hlog]
    exact h.tables f

/-- A call of `pmm_alloc`. -/
def Machine.takeFrame (m : Machine) : Machine :=
  { m.note [.alloc m.pmm] with pmm := (pmmAlloc m.pmm).2 }

theorem Guarded.takeFrame {K T : Set ℕ} {m : Machine} (h : Guarded K T m)
    (hT : m.pmm.totalFrames ≤ 2 ^ 52) : Guarded K T m.takeFrame := by
  apply h.note rfl
  · exact fun _ => Event.noConfusion
  · exact fun _ => free_of_mem_frames hT
  · exact fun _ => used_of_pmmAlloc
  · exact pmmAlloc_bitmapSize m.pmm
  · exact fun _ => Iff.rfl

/-- A frame in use, not of `K`, becomes a table. -/
theorem Guarded.table {K T : Set ℕ} {m m' : Machine} (h : Guarded K T m) {p : ℕ}
    (hlog : m'.log = m.log ++ [.zero p, .table p]) (hpmm : m'.pmm = m.pmm)
    (hused : m.pmm.used (physAddrToIndex p) = true) (hK : physAddrToIndex p ∉ K)
    (htable : ∀ f, m'.IsTable f ↔ m.IsTable f ∨ f = physAddrToIndex p) : Guarded K T m' := by
  have hzero : tableFrames (m.log ++ [.zero p]) = tableFrames m.log :=
    tableFrames_snoc _ fun _ => Event.noConfusion
  have hsplit : m'.log = m.log ++ [.zero p] ++ [.table p] := by rw [hlog, List.append_assoc]; rfl
  have hframes : tableFrames m'.log = tableFrames m.log ∪ {physAddrToIndex p} := by
    rw [hsplit, tableFrames_table, hzero]
  refine ⟨fun f hf hlt => ?_, ?_, ?_, fun f => ?_⟩
  · rw [hpmm] at hlt ⊢
    rw [hframes, ← Set.union_assoc] at hf
    rcases hf with hf | rfl
    · exact h.kept f hf hlt
    · exact hused
  · rw [hsplit]
    apply spared_snoc.mpr ⟨spared_snoc.mpr ⟨h.spared, ?_⟩, ?_⟩
    · exact Set.empty_disjoint _
    · exact Set.empty_disjoint _
  · rw [hframes]
    exact Set.disjoint_union_left.mpr ⟨h.apart, Set.disjoint_singleton_left.mpr hK⟩
  · rw [htable, h.tables, hframes, or_assoc]
    rfl

theorem Guarded.ensureTable {K T : Set ℕ} {m : Machine} (h : Guarded K T m) (htree : m.Tree)
    (hT : m.pmm.totalFrames ≤ 2 ^ 52) {p : List (Fin 512)} {table : ℕ} {index : Fin 512}
    (hp : m.table p = some (physAddrToIndex table)) (hl : 3 - p.length ≠ 0)
    (hfresh : m.entry table index &&& vmmPresent = 0 → m.FreshFrame) :
    Guarded K T (ensureTable m table index) := by
  by_cases habsent : m.entry table index &&& vmmPresent = 0
  · have hne := (hfresh habsent).ne_zero
    have hlink := tableLink_ensureTable htree hp hl habsent (hfresh habsent)
    have hgrown := grown_ensureTable htree hp hl hfresh
    have hmem : physAddrToIndex (pmmAlloc m.pmm).1 ∈ (Event.alloc m.pmm).frames :=
      ⟨hne, le_rfl, Nat.lt_succ_self _⟩
    have hlog : (Vmm.ensureTable m table index).log = m.takeFrame.log ++
        [.zero (pmmAlloc m.pmm).1, .table (pmmAlloc m.pmm).1] := by
      rw [Vmm.ensureTable, if_pos habsent]
      simp [Machine.takeFrame, Machine.note, Machine.setEntry, Machine.clearFrame]
    apply (h.takeFrame hT).table hlog
    · rw [Vmm.ensureTable, if_pos habsent]
      rfl
    · exact (used_pmmAlloc hne hT _).mpr (.inr rfl)
    · intro hK
      obtain ⟨hlt, hclear⟩ := free_of_mem_frames hT hmem
      rw [h.kept _ (.inl hK) hlt] at hclear
      exact absurd hclear (by simp)
    · intro f
      have hself : (Vmm.ensureTable m table index).table (p ++ [index]) =
          some (physAddrToIndex (pmmAlloc m.pmm).1) := by
        rw [Machine.table, Machine.root, ensureTable_pml4Phys]
        exact hlink.follow_self
      constructor
      · rintro ⟨q, hq⟩
        rcases table_ensureTable_cases htree hp hl hfresh hq with hold | rfl
        · exact .inl ⟨q, hold⟩
        · exact .inr (Option.some.inj (hq.symm.trans hself))
      · rintro (hold | rfl)
        · exact hgrown.isTable hold
        · exact ⟨_, hself⟩
  · rw [ensureTable_of_present habsent]
    exact h

theorem Guarded.descend {K T : Set ℕ} {virtAddr : ℕ} {levels : List ℕ} {m : Machine} {table : ℕ}
    {p : List (Fin 512)} (h : Guarded K T m) (hT : m.pmm.totalFrames ≤ 2 ^ 52)
    (hwalk : Walk virtAddr levels m table p) : Guarded K T (descend virtAddr levels m table).1 := by
  induction hwalk with
  | done htree hp => exact h
  | step htree hp hl hfresh hrest ih =>
    have hgrown := grown_ensureTable htree hp hl hfresh
    exact ih (h.ensureTable htree hT hp hl hfresh) (hgrown.totalFrames.trans_le hT)

theorem Guarded.exec {K T : Set ℕ} {m : Machine} (h : Guarded K T m) (htree : m.Tree)
    (hT : m.pmm.totalFrames ≤ 2 ^ 52) {c : MapCall} (hc : Orderly m c) : Guarded K T (c.exec m) := by
  apply (h.descend hT (walk_of_orderly htree hc)).congr
  · rw [exec_eq]
    rfl
  · rw [exec_eq]
    rfl
  · exact fun f => exists_congr fun q => by rw [exec_table htree hc]

/-- The blocks that `vmm_alloc_huge_page` takes are not among the frames kept. -/
theorem Guarded.allocHugeStep {K T : Set ℕ} {m : Machine} (h : Guarded K T m) {kept : Set ℕ}
    {blocks : List ℕ} {flags b : ℕ} (hnext : NextPage m kept blocks flags b) :
    Guarded K T (allocHugeStep m flags) := by
  have hT := hnext.claimed.totalFrames_le
  have hblock : Guarded K T (withBlock m) := by
    apply h.note rfl
    · exact fun _ => Event.noConfusion
    · exact fun f => free_of_mem_frames_2mb hnext.free hnext.result
    · exact fun f hf => (hnext.used f).mpr (.inl hf)
    · exact pmmAlloc2mb_bitmapSize m.pmm
    · exact fun _ => Iff.rfl
  have hexec := hblock.exec hnext.claimed.tree (by omega) hnext.regular.orderly
  have hpmm := hnext.pmm
  have hlog := allocHugeStep_log m flags
  -- the last two events are for the page and its zero-fill
  have hframes : tableFrames (Vmm.allocHugeStep m flags).log =
      tableFrames ((blockCall m flags).exec (withBlock m)).log := by
    rw [hlog, ← List.singleton_append, ← List.append_assoc, tableFrames_snoc _ fun _ =>
      Event.noConfusion, tableFrames_snoc _ fun _ => Event.noConfusion]
  refine ⟨fun f hf hlt => ?_, ?_, hframes ▸ hexec.apart, fun f => ?_⟩
  · rw [hpmm] at hlt ⊢
    exact hexec.kept f (hframes ▸ hf) hlt
  · rw [hlog, ← List.singleton_append, ← List.append_assoc]
    apply spared_snoc.mpr ⟨spared_snoc.mpr ⟨hexec.spared, ?_⟩, ?_⟩
    · exact Set.empty_disjoint _
    · exact Set.empty_disjoint _
  · rw [hnext.between.isTable, hframes]
    exact hexec.tables f

/-! ## Outside the heap -/

/-- Addresses outside the heap lead where they led, and frame `f` holds what it held. -/
structure Intact (f : ℕ) (m m' : Machine) : Prop where
  walk : ∀ va, va % 2 ^ 48 ∉ span48 heapStart (2 ^ 46) → hwWalk m' va = hwWalk m va
  mem : m'.mem f = m.mem f

theorem Intact.refl (f : ℕ) (m : Machine) : Intact f m m := ⟨fun _ _ => rfl, rfl⟩

theorem Intact.trans {f : ℕ} {m m' m'' : Machine} (h : Intact f m m') (h' : Intact f m' m'') :
    Intact f m m'' :=
  ⟨fun va hva => (h'.walk va hva).trans (h.walk va hva), h'.mem.trans h.mem⟩

/-- A word of the frame, read through an address outside the heap. -/
theorem Intact.readWord {f : ℕ} {m m' : Machine} (h : Intact f m m') {va pa fl : ℕ}
    (hva : va % 2 ^ 48 ∉ span48 heapStart (2 ^ 46)) (hwalk : hwWalk m va = some (pa, fl))
    (hf : physAddrToIndex pa = f) : m'.readWord va = m.readWord va := by
  rw [readWord_of_walk hwalk, readWord_of_walk ((h.walk va hva).trans hwalk), Machine.entry,
    Machine.entry, hf, h.mem]

theorem NextPage.intact {m : Machine} {kept : Set ℕ} {blocks : List ℕ} {flags b f : ℕ}
    (h : NextPage m kept blocks flags b) (hf : f ∉ block b)
    (hno : ¬(allocHugeStep m flags).IsTable f) : Intact f m (allocHugeStep m flags) := by
  refine ⟨fun va hva => ?_, h.mem_old hf hno⟩
  have hother : ¬(blockCall m flags).Covers va := by
    intro hcov
    apply hva
    apply mem_span48_of_covers h.length_lt
    rw [← h.nextVirtAddr]
    exact hcov
  rw [h.between.hwWalk_eq, hwWalk_exec h.claimed.tree h.regular, MapCall.apply, if_neg hother]
  rfl

theorem Heap.intact_resetSlot {m : Machine} {kept : Set ℕ} {k b f : ℕ} {blocks : List ℕ}
    (h : Heap m kept k (b :: blocks)) (hf : ¬m.IsTable f) :
    Intact f m (Vmm.resetSlot m (heapPage k)) := by
  have hslot : HasSlot m k b := h.slot 0 b rfl
  have hcleared := slotCleared_resetSlot h.tree hslot
  have hle := h.le
  rw [List.length_cons] at hle
  refine ⟨fun va hva => ?_, ?_⟩
  · rw [hwWalk_eq, hwWalk_eq, hcleared.leaf_other]
    intro hpre
    have hcov := (path_prefix_iff ⟨true, heapPage k, 0, 0⟩ va).mp hpre
    exact hva (mem_span48_of_covers (by omega) hcov)
  · obtain ⟨pd, hpd, -⟩ := hslot
    have hframe := physAddrToIndex_of_table hpd
    apply Function.update_of_ne
    intro heq
    exact hf ⟨slotTable k, by rw [heq, hpd]; exact congrArg some hframe.symm⟩

theorem Heap.intact_resetFrom {m : Machine} {kept : Set ℕ} {k f : ℕ} {blocks : List ℕ}
    (h : Heap m kept k blocks) (hnext : m.nextVirtAddr = heapPage (k + blocks.length))
    (hf : ¬m.IsTable f) {m' : Machine} (hm' : Vmm.resetFrom (heapPage k) m = some m') :
    Intact f m m' := by
  induction blocks generalizing m k with
  | nil =>
    obtain rfl : m = m' := Option.some.inj ((resetFrom_last hnext).symm.trans hm')
    exact .refl f m
  | cons b blocks ih =>
    obtain ⟨hrest, hcleared⟩ := h.resetSlot
    have hle := h.le
    rw [List.length_cons] at hnext hle
    obtain ⟨hround, hnext'⟩ := resetFrom_round hnext hle
    apply (h.intact_resetSlot hf).trans
    apply ih hrest hnext' _ (hround ▸ hm')
    intro ⟨q, hq⟩
    exact hf ⟨q, (hcleared.table q).symm.trans hq⟩

theorem Live.intact_vmmResetHeap {m m' : Machine} {base : Set ℕ} {blocks : List ℕ}
    (h : Live m base blocks) {f : ℕ} (hf : ¬m.IsTable f) (hm' : Vmm.vmmResetHeap m = some m') :
    Intact f m m' := by
  rw [Vmm.vmmResetHeap, Option.map_eq_some_iff] at hm'
  obtain ⟨m₁, hm₁, rfl⟩ := hm'
  have hintact := h.heap.intact_resetFrom (by rw [h.nextVirtAddr, Nat.zero_add]) hf
    (heapPage_zero ▸ hm₁)
  exact ⟨hintact.walk, hintact.mem⟩

theorem bitmapSize_resetFrom {addr : ℕ} {m m' : Machine} (h : resetFrom addr m = some m') :
    m'.pmm.bitmapSize = m.pmm.bitmapSize := by
  fun_induction resetFrom addr m with
  | case1 addr m hlt hwrap ih => exact (ih h).trans (pmmFree2mb_bitmapSize m.pmm _)
  | case2 addr m hlt hwrap => exact absurd h (by simp)
  | case3 addr m hlt => rw [Option.some.inj h]

theorem bitmapSize_vmmResetHeap {m m' : Machine} (h : vmmResetHeap m = some m') :
    m'.pmm.bitmapSize = m.pmm.bitmapSize := by
  rw [vmmResetHeap, Option.map_eq_some_iff] at h
  obtain ⟨m₁, hm₁, rfl⟩ := h
  exact (bitmapSize_resetFrom hm₁ : m₁.pmm.bitmapSize = m.pmm.bitmapSize)

/-- A frame taken for the kernel's own use. -/
theorem Live.takeFrame {m : Machine} {base : Set ℕ} {blocks : List ℕ} (h : Live m base blocks) :
    ∃ base', base ⊆ base' ∧ Live m.takeFrame base' blocks := by
  have hheap := h.heap
  rcases pmmAlloc_cases m.pmm with ⟨f, hf, halloc⟩ | ⟨-, halloc⟩
  · have hpmm : m.takeFrame.pmm = claimFrame m.pmm f := congrArg Prod.snd halloc
    refine ⟨base ∪ {f}, Set.subset_union_left, ⟨hheap.tree, ?_, fun g hg => .inr hg, fun g => ?_,
      fun b hb g hg => ?_, hheap.nodup, fun b hb => ?_, hheap.le, hheap.slot, fun i hi hk => ?_⟩,
      h.nextVirtAddr⟩
    · rw [hpmm, claimFrame_totalFrames]
      exact hheap.totalFrames_le
    · have hold := hheap.used g
      rw [hpmm, used_claimFrame, Bool.or_eq_true, decide_eq_true_eq, hold]
      change ((g ∈ base ∨ m.IsTable g) ∨ ∃ b ∈ blocks, g ∈ block b) ∨ g = f ↔
        ((g ∈ base ∨ g = f) ∨ m.IsTable g) ∨ ∃ b ∈ blocks, g ∈ block b
      generalize (∃ b ∈ blocks, g ∈ block b) = inBlocks
      tauto
    · have hold := hheap.apart b hb g hg
      have hused := (hheap.used g).mpr (.inr ⟨b, hb, hg⟩)
      rintro ((hbase | rfl) | htable)
      · exact hold (.inl hbase)
      · rw [hf.free] at hused
        exact Bool.false_ne_true hused
      · exact hold (.inr htable)
    · rw [hpmm, claimFrame_bitmapSize]
      exact hheap.low b hb
    · exact ⟨(hheap.vacant i hi hk).table, (hheap.vacant i hi hk).leaf⟩
  · have hpmm : m.takeFrame.pmm = m.pmm := congrArg Prod.snd halloc
    exact ⟨base, subset_rfl, hheap.between ⟨rfl, fun _ _ => rfl⟩ hpmm, h.nextVirtAddr⟩

end MathUnikernel.Vmm
