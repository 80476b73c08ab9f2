import MathUnikernel.Tlb

/-!
# The heap through a TLB

Runs of the heap calls and of the workload's stores on a processor that keeps translations, and may
fill and drop them at any time.
-/

namespace MathUnikernel.Vmm
open Pmm RadixTree Runs WalkCache

/-! ## The calls -/

theorem NextPage.root {m : Machine} {kept : Set ℕ} {blocks : List ℕ} {flags b : ℕ}
    (h : NextPage m kept blocks flags b) : (allocHugeStep m flags).root = m.root :=
  h.between.root.trans (congrArg physAddrToIndex h.mapped.pml4Phys)

/-- The new page is writeable from its first address to its last. -/
theorem NextPage.fill_writeable {m : Machine} {kept : Set ℕ} {blocks : List ℕ} {flags b : ℕ}
    (h : NextPage m kept blocks flags b)
    (hlinks : ((blockCall m flags).exec (withBlock m)).LinksWriteable) {i : ℕ} (hi : i < 512) :
    ∃ fl, hwWalk ((blockCall m flags).exec (withBlock m)) ((m.nextVirtAddr + 4096 * i) % 2 ^ 64) =
      some (512 * b * 4096 + 4096 * i, fl) ∧ fl &&& vmmWriteable ≠ 0 := by
  have hlen := h.length_lt
  have hmod : (heapPage blocks.length + 4096 * i) % 2 ^ 64 = heapPage blocks.length + 4096 * i := by
    unfold heapPages at hlen
    simp only [heapPage, heapStart]
    omega
  rw [h.nextVirtAddr, hmod]
  exact h.hasSlot.hwWalk_writeable hlinks (by omega)

theorem NextPage.safe {m : Machine} {kept : Set ℕ} {blocks : List ℕ} {flags b : ℕ}
    (h : NextPage m kept blocks flags b) (hlinks : m.LinksWriteable)
    (hflags : flags &&& vmmWriteable ≠ 0) :
    SafeStores m.root (allocHugeStep m flags).mem m.mem (allocHugeStepOps m flags) := by
  have hlinks' : (withBlock m).LinksWriteable := hlinks
  have hmap := safe_exec hlinks' h.claimed.tree h.regular.orderly hflags
  have hroot : ((blockCall m flags).exec (withBlock m)).root = m.root :=
    congrArg physAddrToIndex h.mapped.pml4Phys
  have hcursor : ((blockCall m flags).exec (withBlock m)).nextVirtAddr = m.nextVirtAddr :=
    h.mapped.nextVirtAddr
  have hmem : (allocHugeStep m flags).mem =
      (clearMapped ((blockCall m flags).exec (withBlock m)) m.nextVirtAddr 512).mem := by
    rw [allocHugeStep_eq, hcursor]
    rfl
  have hmapped := linksWriteable_exec_of_flags hlinks' h.claimed.tree h.regular.orderly hflags
  rw [hmem, allocHugeStepOps]
  apply hmap.append
  change SafeStores m.root _ _ _
  rw [← hroot]
  apply safe_clearMapped hmapped
  intro i hi
  obtain ⟨fl, hwalk, hgranted⟩ := h.fill_writeable hmapped hi
  refine ⟨_, fl, hwalk, hgranted, h.fill_not_table i hi _ fl ?_⟩
  rw [hcursor]
  exact hwalk

theorem Live.safe_allocHugeOps {m : Machine} {base : Set ℕ} {blocks : List ℕ} {flags : ℕ}
    (h : Live m base blocks) (hlinks : m.LinksWriteable) (haddr : flags &&& vmmAddrMask = 0)
    (hlt : flags < 2 ^ 64) (hflags : flags &&& vmmWriteable ≠ 0) (n : ℕ)
    (hready : ((Vmm.allocHugeStep · flags)^[n] m).Ready) :
    SafeStores m.root ((Vmm.allocHugeStep · flags)^[n] m).mem m.mem (allocHugeOps flags n m) ∧
      ((Vmm.allocHugeStep · flags)^[n] m).root = m.root := by
  induction n generalizing m blocks with
  | zero => exact ⟨safe_nil (hlinks.upper rfl), rfl⟩
  | succ n ih =>
    rw [Function.iterate_succ_apply] at hready ⊢
    have hone := hready.of_prefix (log_iterate (Vmm.allocHugeStep m flags) flags n)
    obtain ⟨b, hnext⟩ := h.nextPage haddr hlt hone
    have hsafe := hnext.safe hlinks hflags
    have hlinks' : (Vmm.allocHugeStep m flags).LinksWriteable := by
      have hupper := hsafe.finish
      rwa [← hnext.root] at hupper
    obtain ⟨hrest, hroot⟩ := ih hnext.live hlinks' hready
    rw [hnext.root] at hrest hroot
    exact ⟨hsafe.append hrest, hroot⟩

theorem Live.safe_vmmAllocHugePage {m : Machine} {base : Set ℕ} {blocks : List ℕ} {n flags : ℕ}
    (h : Live m base blocks) (hlinks : m.LinksWriteable) (haddr : flags &&& vmmAddrMask = 0)
    (hlt : flags < 2 ^ 64) (hflags : flags &&& vmmWriteable ≠ 0)
    (hready : (Vmm.vmmAllocHugePage m n flags).2.Ready) :
    SafeStores m.root (Vmm.vmmAllocHugePage m n flags).2.mem m.mem
        (vmmAllocHugePageOps m n flags) ∧
      (Vmm.vmmAllocHugePage m n flags).2.root = m.root := by
  have hle := h.heap.le
  rw [Nat.zero_add] at hle
  have halign : (m.nextVirtAddr + 0x1fffff) % 2 ^ 64 &&& 0xffffffffffe00000 = m.nextVirtAddr := by
    rw [h.nextVirtAddr, align_heapPage hle]
  rw [vmmAllocHugePage_eq h.nextVirtAddr hle] at hready ⊢
  rw [vmmAllocHugePageOps, halign]
  exact h.safe_allocHugeOps hlinks haddr hlt hflags n hready

theorem resetOps_round {m : Machine} {k n : ℕ} (hnext : m.nextVirtAddr = heapPage (k + (n + 1)))
    (hle : k + (n + 1) ≤ heapPages) :
    resetOps (heapPage k) m =
      resetSlotOps m (heapPage k) ++ resetOps (heapPage (k + 1)) (resetSlot m (heapPage k)) := by
  have hstep : heapPage k + 0x200000 = heapPage (k + 1) := by
    simp only [heapPage]
    ring
  rw [resetOps, if_pos, if_pos, hstep]
  · unfold heapPages at hle
    simp only [heapPage, heapStart]
    omega
  · rw [hnext]
    simp only [heapPage]
    omega

theorem Heap.safe_resetOps {m : Machine} {kept : Set ℕ} {k : ℕ} {blocks : List ℕ}
    (h : Heap m kept k blocks) (hlinks : m.LinksWriteable)
    (hnext : m.nextVirtAddr = heapPage (k + blocks.length)) :
    ∃ m', Vmm.resetFrom (heapPage k) m = some m' ∧ m'.root = m.root ∧
      SafeStores m.root m'.mem m.mem (resetOps (heapPage k) m) := by
  induction blocks generalizing m k with
  | nil =>
    refine ⟨m, resetFrom_last hnext, rfl, ?_⟩
    rw [resetOps, if_neg]
    · exact safe_nil (hlinks.upper rfl)
    · rw [hnext]
      exact lt_irrefl _
  | cons b blocks ih =>
    have hle := h.le
    rw [List.length_cons] at hnext hle
    obtain ⟨hround, hnext'⟩ := resetFrom_round hnext hle
    have hslot : HasSlot m k b := h.slot 0 b rfl
    obtain ⟨m', hm', hroot, hrest⟩ :=
      ih h.resetSlot.1 (linksWriteable_resetSlot hlinks h.tree hslot) hnext'
    refine ⟨m', hround.trans hm', hroot, ?_⟩
    rw [resetOps_round hnext hle]
    exact (safe_resetSlot hlinks h.tree hslot).append hrest

theorem Live.safe_vmmResetHeap {m m' : Machine} {base : Set ℕ} {blocks : List ℕ}
    (h : Live m base blocks) (hlinks : m.LinksWriteable) (hm' : Vmm.vmmResetHeap m = some m') :
    SafeStores m.root m'.mem m.mem (resetOps heapStart m) ∧ m'.root = m.root := by
  obtain ⟨m₁, hm₁, hroot, hsafe⟩ :=
    h.heap.safe_resetOps hlinks (by rw [Nat.zero_add, h.nextVirtAddr])
  rw [heapPage_zero] at hm₁ hsafe
  rw [Vmm.vmmResetHeap, hm₁, Option.map_some, Option.some.injEq] at hm'
  subst hm'
  exact ⟨hsafe, hroot⟩

/-- A store of the workload to a page of the heap. -/
theorem Live.safe_storeByte {m : Machine} {base : Set ℕ} {blocks : List ℕ}
    (h : Live m base blocks) (hlinks : m.LinksWriteable) {virtAddr : ℕ} (byte : UInt8)
    (hlo : heapStart ≤ virtAddr) (hhi : virtAddr < m.nextVirtAddr) :
    SafeStores m.root (m.storeByte virtAddr byte).mem m.mem [storeOp virtAddr byte] := by
  obtain ⟨i, hi, off, hoff, rfl⟩ := exists_heapPage hlo (h.nextVirtAddr ▸ hhi)
  have hslot := h.heap.slot i blocks[i] (List.getElem?_eq_getElem hi)
  rw [Nat.zero_add] at hslot
  obtain ⟨fl, hwalk, hgranted⟩ := hslot.hwWalk_writeable hlinks hoff
  have hbetween := (h.store byte hlo hhi).between
  have hkeeps := keeps_of_between hbetween
  have hdone := (linksWriteable_of_between hlinks hbetween).upper hbetween.root
  have hleaf := hwalk
  rw [hwWalk_eq, Option.map_eq_some_iff] at hleaf
  obtain ⟨v, hv, heq⟩ := hleaf
  have hphys : v.physAddr (heapPage i + off) = 512 * blocks[i] * 4096 + off := (Prod.mk.inj heq).1
  have hmem : (m.storeByte (heapPage i + off) byte).mem = Function.update m.mem
      (v.frame (heapPage i + off))
      (Function.update (m.mem (v.frame (heapPage i + off))) (wordIndex (v.physAddr (heapPage i + off)))
        (setWordByte (m.mem (v.frame (heapPage i + off)) (wordIndex (v.physAddr (heapPage i + off))))
          (v.physAddr (heapPage i + off) % 8) byte)) := by
    rw [Machine.storeByte, hwalk, Leaf.frame, hphys]
    rfl
  rw [hmem] at hkeeps hdone ⊢
  obtain rfl := (Prod.mk.inj heq).2
  exact ⟨hlinks.upper rfl, v, hv, hgranted, fun p hp => absurd hp (Set.notMem_empty p), hkeeps,
    hdone, rfl, rfl⟩

/-! ## Runs -/

/-- An act on the heap, as its operations. -/
def TlbCall (m : Machine) (act : WorkloadAct) (ops : List CpuOp) (m' : Machine) : Prop :=
  WorkloadStep m act m' ∧ ops = act.ops m

abbrev Cpu := WalkCache.State Machine ℕ (Fin 512) ℕ Leaf

/-- The processor of a machine, as `cr3` was just loaded. -/
def freshCpu (m : Machine) : Cpu := ⟨m, m.mem, ⟨∅, ∅⟩, ∅, []⟩

/-- The steps of the processor, `cr3` at the given frame. -/
abbrev CpuStep (root : ℕ) : Cpu → WalkCache.Event WorkloadAct → Cpu → Prop :=
  WalkCache.Step paging Leaf.Writeable 3 root TlbCall

/-- What an access to an address may find. -/
def Cpu.Translates (root : ℕ) (s : Cpu) (virtAddr : ℕ) (r : Option Leaf) : Prop :=
  s.cache.Translates paging s.mem 3 root (pathOf virtAddr) r

/-- What is asked of an act: pages are writeable. -/
def WorkloadAct.Writes : WorkloadAct → Prop
  | .call (.alloc _ flags) => flags &&& vmmWriteable ≠ 0
  | _ => True

/-- The acts of a run. -/
def actsOf (tr : List (Cpu × WalkCache.Event WorkloadAct × Cpu)) : List WorkloadAct :=
  tr.filterMap fun x => match x.2.1 with
    | .call act => some act
    | _ => none

theorem actsOf_append (tr tr' : List (Cpu × WalkCache.Event WorkloadAct × Cpu)) :
    actsOf (tr ++ tr') = actsOf tr ++ actsOf tr' := List.filterMap_append

theorem spec_of_step {root : ℕ} {s t : Cpu} {e : WalkCache.Event WorkloadAct}
    (h : CpuStep root s e t) :
    (∃ act, e = .call act ∧ WorkloadStep s.spec act t.spec) ∨
      ((∀ act, e ≠ .call act) ∧ t.spec = s.spec) := by
  cases h with
  | call _ hcall => exact .inl ⟨_, rfl, hcall.1⟩
  | write | flush | access | fill => exact .inr ⟨by simp, rfl⟩

/-- The acts of a run form a history. -/
theorem history_of_run {root : ℕ} {s t : Cpu} {tr : List (Cpu × WalkCache.Event WorkloadAct × Cpu)}
    (hrun : Run (CpuStep root) s tr t) :
    ∃ tr', Run WorkloadStep s.spec tr' t.spec ∧ tr'.map (·.2.1) = actsOf tr := by
  induction hrun with
  | nil => exact ⟨[], .nil, rfl⟩
  | @snoc tr t u e _ hstep ih =>
    obtain ⟨tr', hrun', hacts⟩ := ih
    rw [actsOf, List.filterMap_append, ← actsOf, ← hacts]
    rcases spec_of_step hstep with ⟨act, rfl, hact⟩ | ⟨hne, hspec⟩
    · exact ⟨_, hrun'.snoc hact, by simp⟩
    · rw [hspec]
      refine ⟨tr', hrun', ?_⟩
      cases e with
      | call act => exact absurd rfl (hne act)
      | op | fill => simp

/-- The machine of any state of a history has a live heap. -/
theorem live_of_history {m₀ m : Machine} (h0 : FreshHeap m₀)
    {tr : List (Machine × WorkloadAct × Machine)} (hrun : Run WorkloadStep m₀ tr m)
    (hready : m.Ready) : ∃ blocks, Live m {f | m₀.pmm.used f = true} blocks := by
  obtain ⟨c, blocks, -, hsame, hlive⟩ := same_of_history h0 hrun (ready_of_history hrun hready)
  exact ⟨blocks, hsame.live hlive⟩

theorem safe_act {m m' : Machine} {base : Set ℕ} {blocks : List ℕ} (h : Live m base blocks)
    (hlinks : m.LinksWriteable) {act : WorkloadAct} (hwrites : act.Writes)
    (hstep : WorkloadStep m act m') (hready : m'.Ready) :
    SafeStores m.root m'.mem m.mem (act.ops m) ∧ m'.root = m.root := by
  cases hstep with
  | alloc haddr hlt => exact h.safe_vmmAllocHugePage hlinks haddr hlt hwrites hready
  | reset hm' => exact h.safe_vmmResetHeap hlinks hm'
  | @store virtAddr byte hlo hhi =>
    exact ⟨h.safe_storeByte hlinks byte hlo hhi, (h.store byte hlo hhi).between.root⟩

theorem log_cpuStep {root : ℕ} {s t : Cpu} {e : WalkCache.Event WorkloadAct}
    (h : CpuStep root s e t) : s.spec.log <+: t.spec.log := by
  rcases spec_of_step h with ⟨act, -, hact⟩ | ⟨-, hspec⟩
  · exact log_workloadStep hact
  · rw [hspec]

theorem inv_of_run {m₀ : Machine} (h0 : FreshHeap m₀) (hlinks : m₀.LinksWriteable) {s : Cpu}
    {tr : List (Cpu × WalkCache.Event WorkloadAct × Cpu)}
    (hrun : Run (CpuStep m₀.root) (freshCpu m₀) tr s) (hready : s.spec.Ready)
    (hwrites : ∀ act ∈ actsOf tr, act.Writes) :
    WalkCache.Inv paging (UpperWriteable m₀.root) Leaf.Writeable 3 m₀.root Machine.mem s ∧
      s.spec.root = m₀.root := by
  induction hrun with
  | nil => exact ⟨⟨coherent_empty, safe_nil (hlinks.upper rfl)⟩, rfl⟩
  | @snoc tr s t e hrun hstep ih =>
    have hready' := hready.of_prefix (log_cpuStep hstep)
    rw [actsOf_append] at hwrites
    obtain ⟨hinv, hroot⟩ := ih hready' fun act hact => hwrites act (List.mem_append_left _ hact)
    obtain ⟨tr', hhistory, -⟩ := history_of_run hrun
    obtain ⟨blocks, hlive⟩ := live_of_history h0 hhistory hready'
    have hcalled : ∀ act ops, e = .call act → TlbCall s.spec act ops t.spec →
        UpperWriteable m₀.root s.spec.mem →
          SafeStores m₀.root t.spec.mem s.spec.mem ops ∧ t.spec.root = m₀.root := by
      rintro act ops rfl ⟨hact, rfl⟩ hupper
      rw [← hroot] at hupper ⊢
      exact safe_act hlive hupper (hwrites act (by simp [actsOf])) hact hready
    refine ⟨hinv.step hstep fun act ops he hcall hupper => (hcalled act ops he hcall hupper).1, ?_⟩
    cases hstep with
    | call htodo hcall =>
      have hupper := hinv.safe.start
      rw [(hinv.idle htodo).1] at hupper
      exact (hcalled _ _ rfl hcall hupper).2
    | write | flush | access | fill => exact hroot

end MathUnikernel.Vmm
