import MathUnikernel.HeapSessions

/-!
# The contents of heap pages

Bytes are read and written through the page tables.
-/

namespace MathUnikernel.Vmm
open Pmm RadixTree

/-! ## Bytes -/

/-- Byte `k` of a word, the lowest first. -/
def wordByte (word k : ℕ) : ℕ := word / 256 ^ k % 256

def setWordByte (word k : ℕ) (byte : UInt8) : ℕ :=
  (word / 256 ^ (k + 1) * 256 + byte.toNat) * 256 ^ k + word % 256 ^ k

theorem wordByte_setWordByte (word k : ℕ) (byte : UInt8) :
    wordByte (setWordByte word k byte) k = byte.toNat := by
  have hpos : 0 < 256 ^ k := Nat.pos_of_ne_zero (by positivity)
  have hlt : byte.toNat < 256 := byte.toNat_lt
  rw [wordByte, setWordByte, Nat.add_comm, Nat.add_mul_div_right _ _ hpos,
    Nat.div_eq_of_lt (Nat.mod_lt _ hpos), Nat.zero_add]
  omega

/-- The word of its frame that a physical address lies in. -/
def wordIndex (physAddr : ℕ) : Fin 512 := ⟨physAddr % 4096 / 8, by omega⟩

/-- The byte at an address; `none` for a page fault. -/
def Machine.readByte (m : Machine) (virtAddr : ℕ) : Option ℕ :=
  (hwWalk m virtAddr).map fun v => wordByte (m.entry v.1 (wordIndex v.1)) (v.1 % 8)

/-- A byte stored through the page tables; a page fault stores nothing. -/
def Machine.storeByte (m : Machine) (virtAddr : ℕ) (byte : UInt8) : Machine :=
  match hwWalk m virtAddr with
  | some (physAddr, _) =>
    m.setEntry physAddr (wordIndex physAddr)
      (setWordByte (m.entry physAddr (wordIndex physAddr)) (physAddr % 8) byte)
  | none => m

/-- What a store does: it changes at most the frame its address leads to. -/
structure Stored (m m' : Machine) (virtAddr : ℕ) : Prop where
  pml4Phys : m'.pml4Phys = m.pml4Phys
  pmm : m'.pmm = m.pmm
  nextVirtAddr : m'.nextVirtAddr = m.nextVirtAddr
  log : m'.log = m.log
  rest : ∀ f, (∀ pa fl, hwWalk m virtAddr = some (pa, fl) → physAddrToIndex pa ≠ f) →
    m'.mem f = m.mem f

theorem stored_storeByte (m : Machine) (virtAddr : ℕ) (byte : UInt8) :
    Stored m (m.storeByte virtAddr byte) virtAddr := by
  unfold Machine.storeByte
  cases hwalk : hwWalk m virtAddr with
  | none => exact ⟨rfl, rfl, rfl, rfl, fun f _ => rfl⟩
  | some v =>
    refine ⟨rfl, rfl, rfl, rfl, fun f hf => ?_⟩
    exact Function.update_of_ne (hf v.1 v.2 hwalk).symm _ _

/-- A store through an address that leads to no table leaves the tables alone. -/
theorem Stored.between {m m' : Machine} {virtAddr : ℕ} (h : Stored m m' virtAddr)
    (hno : ∀ pa fl, hwWalk m virtAddr = some (pa, fl) → ¬m.IsTable (physAddrToIndex pa)) :
    Between m m' := by
  refine ⟨h.pml4Phys, fun f hf => h.rest f fun pa fl hwalk hpa => ?_⟩
  exact hno pa fl hwalk (hpa ▸ hf)

/-- What was stored is read back. -/
theorem readByte_storeByte {m : Machine} {virtAddr : ℕ} {byte : UInt8} {v : ℕ × ℕ}
    (hwalk : hwWalk m virtAddr = some v) (hno : ¬m.IsTable (physAddrToIndex v.1)) :
    (m.storeByte virtAddr byte).readByte virtAddr = some byte.toNat := by
  have hbetween := (stored_storeByte m virtAddr byte).between fun pa fl h => by
    obtain rfl := Option.some.inj (hwalk.symm.trans h)
    exact hno
  rw [Machine.readByte, hbetween.hwWalk_eq, hwalk, Option.map_some, Machine.storeByte, hwalk]
  refine congrArg some (Eq.trans ?_ (wordByte_setWordByte (m.entry v.1 (wordIndex v.1)) (v.1 % 8) byte))
  exact congrArg (wordByte · (v.1 % 8)) (setEntry_self m v.1 (wordIndex v.1) _)

theorem readByte_of_walk {m : Machine} {virtAddr pa fl : ℕ} (hwalk : hwWalk m virtAddr = some (pa, fl)) :
    m.readByte virtAddr = some (wordByte (m.entry pa (wordIndex pa)) (pa % 8)) := by
  rw [Machine.readByte, hwalk, Option.map_some]

/-- Where an address leads to one frame with the same contents, the byte read is the same. -/
theorem readByte_congr {m m' : Machine} {virtAddr pa fl fl' : ℕ}
    (hwalk : hwWalk m virtAddr = some (pa, fl)) (hwalk' : hwWalk m' virtAddr = some (pa, fl'))
    (hmem : m'.mem (physAddrToIndex pa) = m.mem (physAddrToIndex pa)) :
    m'.readByte virtAddr = m.readByte virtAddr := by
  rw [readByte_of_walk hwalk, readByte_of_walk hwalk', Machine.entry, Machine.entry, hmem]

theorem readByte_of_zero {m : Machine} {virtAddr pa fl : ℕ} (hwalk : hwWalk m virtAddr = some (pa, fl))
    (hmem : m.mem (physAddrToIndex pa) = fun _ => 0) : m.readByte virtAddr = some 0 := by
  rw [readByte_of_walk hwalk, Machine.entry, hmem]
  simp [wordByte]

/-! ## What adding pages does to memory -/

/-- The fill leaves the frames it goes through zero. -/
theorem mem_of_fill {m : Machine} {flags b f : ℕ}
    (hno : ∀ i < 512, ∀ pa fl, hwWalk ((blockCall m flags).exec (withBlock m))
      ((((blockCall m flags).exec (withBlock m)).nextVirtAddr + 4096 * i) % 2 ^ 64) = some (pa, fl) →
        ¬((blockCall m flags).exec (withBlock m)).IsTable (physAddrToIndex pa))
    (hfill : ∀ i < 512, ∃ fl, hwWalk ((blockCall m flags).exec (withBlock m))
      ((((blockCall m flags).exec (withBlock m)).nextVirtAddr + 4096 * i) % 2 ^ 64) =
        some (512 * b * 4096 + 4096 * i, fl)) (hf : f ∈ block b) :
    (allocHugeStep m flags).mem f = fun _ => 0 := by
  obtain ⟨hlo, hhi⟩ := hf
  obtain ⟨fl, hwalk⟩ := hfill (f - 512 * b) (by omega)
  have hzero := mem_clearMapped hno (show f - 512 * b < 512 by omega) hwalk
  rw [physAddrToIndex_add, Nat.add_sub_cancel' hlo] at hzero
  rw [allocHugeStep_eq]
  exact hzero

theorem NextPage.mem_new {m : Machine} {kept : Set ℕ} {blocks : List ℕ} {flags b : ℕ}
    (h : NextPage m kept blocks flags b) {f : ℕ} (hf : f ∈ block b) :
    (allocHugeStep m flags).mem f = fun _ => 0 :=
  mem_of_fill h.fill_not_table (fun _ => h.fill_walk) hf

theorem NextPage.mem_old {m : Machine} {kept : Set ℕ} {blocks : List ℕ} {flags b : ℕ}
    (h : NextPage m kept blocks flags b) {f : ℕ} (hf : f ∉ block b)
    (hno : ¬(allocHugeStep m flags).IsTable f) : (allocHugeStep m flags).mem f = m.mem f := by
  rw [h.between.isTable] at hno
  have hmapped : ((blockCall m flags).exec (withBlock m)).mem f = m.mem f := h.mapped.rest f hno
  rw [allocHugeStep_eq]
  refine (h.cleared.rest f ?_).trans hmapped
  intro i hi pa fl hwalk hpa
  obtain ⟨fl', hfill⟩ := h.fill_walk hi
  obtain ⟨rfl, -⟩ := Prod.mk.inj (Option.some.inj (hwalk.symm.trans hfill))
  apply hf
  rw [← hpa]
  simp only [physAddrToIndex, block, Set.mem_ofPred_eq]
  omega

/-- What a call of `vmm_alloc_huge_page` does to memory: the new blocks are zero, and of the other
frames only those of tables change. -/
theorem Live.contents {m : Machine} {base : Set ℕ} {blocks : List ℕ} {flags : ℕ}
    (h : Live m base blocks) (haddr : flags &&& vmmAddrMask = 0) (hlt : flags < 2 ^ 64) (n : ℕ)
    (hready : ((Vmm.allocHugeStep · flags)^[n] m).Ready) :
    ∃ new : List ℕ, new.length = n ∧ Live ((Vmm.allocHugeStep · flags)^[n] m) base (blocks ++ new) ∧
      (∀ b ∈ new, ∀ f ∈ block b, ((Vmm.allocHugeStep · flags)^[n] m).mem f = fun _ => 0) ∧
      ∀ f, (∀ b ∈ new, f ∉ block b) → ¬((Vmm.allocHugeStep · flags)^[n] m).IsTable f →
        ((Vmm.allocHugeStep · flags)^[n] m).mem f = m.mem f := by
  induction n with
  | zero => exact ⟨[], rfl, by rwa [List.append_nil], by simp, fun f _ _ => rfl⟩
  | succ n ih =>
    rw [Function.iterate_succ_apply'] at hready ⊢
    obtain ⟨new, hlen, hlive, hzero, hrest⟩ := ih (hready.of_prefix (log_allocHugeStep _ flags))
    obtain ⟨b, hnext⟩ := hlive.nextPage haddr hlt hready
    have hlive' := hnext.live
    have hheap := hlive'.heap
    refine ⟨new ++ [b], by simp [hlen], by rwa [← List.append_assoc], fun b' hb' f hf => ?_,
      fun f hf hno => ?_⟩
    · rcases List.mem_append.mp hb' with hnew | hlast
      · have hother : f ∉ block b := fun hfb => by
          simp only [block, Set.mem_ofPred_eq] at hf hfb
          obtain rfl : b' = b := by omega
          exact hnext.not_mem (List.mem_append_right _ hnew)
        have hdata : ¬(Vmm.allocHugeStep ((Vmm.allocHugeStep · flags)^[n] m) flags).IsTable f :=
          fun htable => hheap.apart b' (by simp [hnew]) f hf (.inr htable)
        rw [hnext.mem_old hother hdata]
        exact hzero b' hnew f hf
      · rw [List.mem_singleton.mp hlast] at hf
        exact hnext.mem_new hf
    · have hold := hnext.mem_old (hf b (by simp)) hno
      rw [hold]
      apply hrest f fun b' hb' => hf b' (by simp [hb'])
      rintro ⟨q, hq⟩
      exact hno ⟨q, hnext.pageAdded.table q f hq⟩

end MathUnikernel.Vmm
