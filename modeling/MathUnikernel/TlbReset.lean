import MathUnikernel.TlbRuns

/-!
# The flush of a reset

A round of `vmm_reset_heap` clears one page directory entry and flushes the first page below it.
Where the entry was one of 4 KiB pages, the others stay cached.
-/

namespace MathUnikernel.Vmm
open Pmm RadixTree Runs WalkCache

/-- The entry that the round for page `k` clears. -/
def slotPath (k : ℕ) : List (Fin 512) := slotTable k ++ [slotIndex k]

theorem pathOf_eq_append (virtAddr : ℕ) :
    pathOf virtAddr = [3, 2, 1].map (tableIndex virtAddr) ++ [tableIndex virtAddr 0] := rfl

theorem pathOf_heapPage (k : ℕ) : pathOf (heapPage k) = slotPath k ++ [tableIndex (heapPage k) 0] :=
  pathOf_eq_append (heapPage k)

theorem length_slotPath (k : ℕ) : (slotPath k).length = 3 := rfl

theorem rewritten_resetSlot {m : Machine} (htree : m.Tree) {k pd : ℕ}
    (hpd : m.table (slotTable k) = some pd) :
    Rewritten paging m.mem (resetSlot m (heapPage k)).mem 3 m.root (slotPath k) := by
  have hframe : physAddrToIndex (m.pageDirectory (heapPage k)) = pd := physAddrToIndex_of_table hpd
  have hmem : ∀ f j, (f, j) ≠ (pd, slotIndex k) →
      (resetSlot m (heapPage k)).mem f j = m.mem f j := by
    intro f j hne
    refine (mem_setEntry _ (m.pageDirectory (heapPage k)) (slotIndex k) 0 f j).trans (if_neg ?_)
    rintro ⟨rfl, rfl⟩
    exact hne (by rw [hframe])
  refine ⟨htree.agreeOff hpd fun f j hne q hq => hmem f j hne, fun q f hpre hq => ?_⟩
  funext j
  apply hmem
  intro heq
  rw [(Prod.mk.inj heq).1] at hq
  rw [htree q (slotTable k) pd hq hpd] at hpre
  have hlen := hpre.length_le
  rw [length_slotPath, slotTable, List.length_map] at hlen
  exact absurd hlen (by decide)

/-- The pages below a slot: the huge page, or the 4 KiB pages of its table. -/
theorem ends_below_slot {m : Machine} {k : ℕ} {p : List (Fin 512)} {v : Leaf}
    (hpre : slotPath k <+: p) (hends : Ends paging m.mem 3 m.root p v) :
    p = slotPath k ∨ ∃ pt j, p = slotPath k ++ [j] ∧ m.table (slotPath k) = some pt ∧
      m.mem pt j &&& vmmPresent ≠ 0 := by
  obtain ⟨p', i, f, rfl, hf, hlink, hleaf⟩ := hends
  rcases List.prefix_concat_iff.mp hpre with heq | hpre'
  · exact .inl heq.symm
  · obtain ⟨t, rfl⟩ := hpre'
    obtain ⟨pt, hpt⟩ := follow_prefix (List.prefix_append (slotPath k) t) hf
    have hnil : t = [] := by
      by_contra hne
      obtain ⟨j, t, rfl⟩ := List.exists_cons_of_ne_nil hne
      have hnone := follow_append_of_none (table_of_long m (length_slotPath k) j) t
      rw [List.append_assoc] at hnone
      rw [List.singleton_append, hf] at hnone
      exact absurd hnone (by simp)
    subst hnil
    rw [List.append_nil] at hf hleaf ⊢
    obtain rfl : pt = f := Option.some.inj (hpt.symm.trans hf)
    refine .inr ⟨pt, i, rfl, hpt, fun habsent => ?_⟩
    rw [leaf_absent habsent] at hleaf
    exact absurd hleaf (by simp)

/-- A round that begins: the operations of the round for page `k` are what is left to do, and the
TLB agrees with the tables. -/
structure RoundBegins (m : Machine) (k : ℕ) (s : Cpu) : Prop where
  mem : s.mem = m.mem
  todo : s.todo = resetSlotOps m (heapPage k)
  coherent : Coherent paging m.mem 3 m.root ∅ s.cache

/-- The states of a round: before the store, between it and the flush, and after the flush. -/
inductive InRound (m : Machine) (k : ℕ) (s : Cpu) : Prop
  | before : RoundBegins m k s → InRound m k s
  | stored : s.mem = (resetSlot m (heapPage k)).mem → s.todo = [invlpg (heapPage k)] →
      Torn paging m.mem (resetSlot m (heapPage k)).mem 3 m.root (slotPath k) s.cache → InRound m k s
  | flushed : s.mem = (resetSlot m (heapPage k)).mem → s.todo = [] →
      Coherent paging (resetSlot m (heapPage k)).mem 3 m.root ∅ s.cache → InRound m k s

/-- The slot maps no 4 KiB page but its first. -/
def OneFlush (m : Machine) (k : ℕ) : Prop :=
  ∀ pt, m.table (slotPath k) = some pt → ∀ j ≠ tableIndex (heapPage k) 0,
    m.mem pt j &&& vmmPresent = 0

theorem InRound.step {m : Machine} (htree : m.Tree) {k pd : ℕ}
    (hpd : m.table (slotTable k) = some pd) (hone : OneFlush m k) {s t : Cpu}
    {e : WalkCache.Event WorkloadAct} (h : InRound m k s) (hstep : CpuStep m.root s e t)
    (hcall : ∀ act, e ≠ .call act) : InRound m k t := by
  have hrewritten := rewritten_resetSlot htree hpd
  cases h with
  | before hbegins =>
    obtain ⟨hmem, htodo, hcoherent⟩ := hbegins
    cases hstep with
    | call _ _ => exact absurd rfl (hcall _)
    | write hop =>
      -- from here on the cached walks into the slot belong to the old tables
      rw [htodo, resetSlotOps, Write.op] at hop
      obtain ⟨hhead, rfl⟩ := List.cons.inj hop
      obtain ⟨rfl, rfl⟩ := Op.write.inj hhead
      apply InRound.stored
      · rw [hmem]
        rfl
      · rfl
      · exact hrewritten.torn hcoherent
    | flush hop | access hop _ _ =>
      rw [htodo, resetSlotOps, Write.op] at hop
      exact absurd (List.cons.inj hop).1 (by simp)
    | fill hf =>
      rw [hmem] at hf
      exact .before ⟨hmem, htodo, hcoherent.fill hf⟩
  | stored hmem htodo htorn =>
    cases hstep with
    | call _ _ => exact absurd rfl (hcall _)
    | @flush q rest hop =>
      rw [htodo, invlpg] at hop
      obtain ⟨hhead, rfl⟩ := List.cons.inj hop
      obtain rfl := Op.flush.inj hhead
      refine .flushed hmem rfl ?_
      -- `invlpg` drops the page of its address, which has to be the only one below the slot
      apply htorn.flush
      intro p v hpre hends
      rw [pathOf_heapPage]
      rcases ends_below_slot hpre hends with rfl | ⟨pt, j, rfl, hpt, hpresent⟩
      · exact List.prefix_append _ _
      · by_cases hj : j = tableIndex (heapPage k) 0
        · rw [hj]
        · exact absurd (hone pt hpt j hj) hpresent
    | write hop | access hop _ _ =>
      rw [htodo, invlpg] at hop
      exact absurd (List.cons.inj hop).1 (by simp)
    | fill hf =>
      rw [hmem] at hf
      exact .stored hmem htodo (hrewritten.torn_fill htorn hf)
  | flushed hmem htodo hcoherent =>
    cases hstep with
    | call _ _ => exact absurd rfl (hcall _)
    | write hop | flush hop | access hop _ _ =>
      rw [htodo] at hop
      exact absurd hop (by simp)
    | fill hf =>
      rw [hmem] at hf
      exact .flushed hmem htodo (hcoherent.fill hf)

theorem InRound.of_run {m : Machine} (htree : m.Tree) {k pd : ℕ}
    (hpd : m.table (slotTable k) = some pd) (hone : OneFlush m k) {s t : Cpu}
    {tr : List (Cpu × WalkCache.Event WorkloadAct × Cpu)} (hs : RoundBegins m k s)
    (hrun : Run (CpuStep m.root) s tr t) (hcall : ∀ x ∈ tr, ∀ act, x.2.1 ≠ .call act) :
    InRound m k t := by
  refine (hrun.invariant_of_guard (G := fun _ e => ∀ act, e ≠ .call act) (.before hs) ?_ hcall).1
  intro u e v hu he hstep
  exact hu.step htree hpd hone hstep he

/-! ## A page that stays cached -/

end MathUnikernel.Vmm
