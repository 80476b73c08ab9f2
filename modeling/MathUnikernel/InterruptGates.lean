import MathUnikernel.Descriptors

/-!
# Interrupt gates

What the processor finds in the tables after `gdt_init` and `idt_init`.
-/

namespace MathUnikernel.Descriptors
open Fields Lib

/-! ## The tables -/

theorem memset_outside (mem : Memory) {s a : UInt64} (c : UInt8) {n : UInt64}
    (h : ∀ i < n.toNat, index s i ≠ a) : (memset mem s c n).2 a = mem a := by
  have hkeep : ∀ k ≤ n.toNat, (List.range k).foldl
      (fun mem i => Function.update mem (index s i) c) mem a = mem a := by
    intro k hk
    induction k with
    | zero => rfl
    | succ k ih =>
      rw [List.range_succ, List.foldl_append, List.foldl_cons, List.foldl_nil,
        Function.update_of_ne (h k hk).symm]
      exact ih (by omega)
  exact hkeep _ le_rfl

theorem setDescriptors_succ (idt : UInt64) (isrStubTable : ℕ → UInt64) (n : ℕ) (mem : Memory) :
    setDescriptors idt isrStubTable (n + 1) mem =
      idtSetDescriptor idt n (isrStubTable n) fullKernelAuthority
        (setDescriptors idt isrStubTable n mem) := by
  rw [setDescriptors, List.range_succ, List.foldl_append]
  rfl

section
variable {idt : UInt64} (hidt : idt.toNat + 4120 ≤ 2 ^ 64) (isrStubTable : ℕ → UInt64)
  (mem : Memory)

theorem setDescriptors_outside {a : UInt64} {n : ℕ} (hn : n ≤ 256)
    (h : ∀ i < 4120, index idt i ≠ a) : setDescriptors idt isrStubTable n mem a = mem a := by
  induction n with
  | zero => rfl
  | succ n ih =>
    rw [setDescriptors_succ, idtSetDescriptor, putAll_outside _ _ h]
    · exact ih (by omega)
    · intro store hstore
      have hbounds := size_descriptorStores n (isrStubTable n) fullKernelAuthority store hstore
      omega

theorem idtInit_outside {a : UInt64} (h : ∀ i < 4120, index idt i ≠ a) :
    (idtInit idt isrStubTable mem).2 a = mem a := by
  dsimp only [idtInit]
  rw [putAll_outside _ _ h, setDescriptors_outside _ _ (by decide) h, memset_outside]
  · exact fun i hi => h i (hi.trans (by decide))
  · simp [totalInterrupts, idtLimit, idtBase]

include hidt

theorem readEntry_setDescriptors {n v : ℕ} (hn : n ≤ 256) (hv : v < 256) :
    readEntry idt (setDescriptors idt isrStubTable n mem) v =
      if v < n then descriptor (isrStubTable v) fullKernelAuthority else readEntry idt mem v := by
  induction n with
  | zero => rfl
  | succ n ih =>
    rw [setDescriptors_succ, readEntry_idtSetDescriptor hidt _ _ _ (by omega) hv, ih (by omega)]
    by_cases heq : v = n
    · simp [heq]
    · simp only [if_neg heq, show v < n + 1 ↔ v < n by omega]

/-- After `idt_init` the first 48 vectors have their stubs and the others no gate. -/
theorem readEntry_idtInit {v : ℕ} (hv : v < 256) :
    readEntry idt (idtInit idt isrStubTable mem).2 v =
      if v < 48 then descriptor (isrStubTable v) fullKernelAuthority else ⟨0, 0, 0, 0, 0, 0, 0⟩ := by
  have hpointer : readEntry idt (idtInit idt isrStubTable mem).2 v =
      readEntry idt (setDescriptors idt isrStubTable 48 (memset mem idt 0 4096).2) v := by
    have hread : ∀ f : Field, f.offset + f.size ≤ 16 →
        fetch (index idt) (idtEntry v f) (idtInit idt isrStubTable mem).2 =
          fetch (index idt) (idtEntry v f)
            (setDescriptors idt isrStubTable 48 (memset mem idt 0 4096).2) := by
      intro f hf
      have hend : (idtEntry v f).offset + (idtEntry v f).size ≤ 4096 := by
        unfold idtEntry
        dsimp only
        omega
      apply fetch_putAll_of_apart _ _ _ (index_inj hidt)
      · have happart : ∀ g : Field, 4096 ≤ g.offset → g.Apart (idtEntry v f) :=
          fun g hg => .inr (hend.trans hg)
        simp only [List.mem_cons, List.not_mem_nil, or_false, forall_eq_or_imp, forall_eq]
        exact ⟨⟨happart _ (by decide), by decide⟩, ⟨happart _ (by decide), by decide⟩,
          happart _ (by decide), by decide⟩
      · omega
    ext <;> exact hread _ (by decide)
  have hzero : readEntry idt (memset mem idt 0 4096).2 v = ⟨0, 0, 0, 0, 0, 0, 0⟩ := by
    have hread : ∀ f : Field, f.offset + f.size ≤ 16 →
        fetch (index idt) (idtEntry v f) (memset mem idt 0 4096).2 = 0 := by
      intro f hf
      apply fetch_memset
      unfold idtEntry
      exact (show 16 * v + f.offset + f.size ≤ 4096 by omega)
    ext <;> exact hread _ (by decide)
  rw [hpointer, readEntry_setDescriptors hidt _ _ (by decide) hv, hzero]

theorem loadRegister_idtInit :
    loadRegister idt idtLimit idtBase (idtInit idt isrStubTable mem).2 = ⟨4095, idt⟩ := by
  have hinj := index_inj hidt
  have hlimit : fetch (index idt) idtLimit (idtInit idt isrStubTable mem).2 = 4095 % 256 ^ 2 :=
    fetch_putAll_of_mem _ _ _ _ hinj (by simp [Field.Apart, totalInterrupts, idtLimit, idtBase])
      (by simp [totalInterrupts, idtLimit, idtBase]) (by simp)
  have hbase : fetch (index idt) idtBase (idtInit idt isrStubTable mem).2 =
      idt.toNat % 256 ^ 8 :=
    fetch_putAll_of_mem _ _ _ _ hinj (by simp [Field.Apart, totalInterrupts, idtLimit, idtBase])
      (by simp [totalInterrupts, idtLimit, idtBase]) (by simp)
  rw [loadRegister, hlimit, hbase, Nat.mod_eq_of_lt (show idt.toNat < 256 ^ 8 from idt.toNat_lt),
    UInt64.ofNat_toNat]
  rfl

end

/-! ## The segments -/

section
variable {gdt : UInt64} (hgdt : gdt.toNat + 40 ≤ 2 ^ 64) (mem : Memory)
include hgdt

theorem fetch_gdtInit {f : Field} {v : ℕ} (h : (f, v) ∈ gdtStores gdt) :
    fetch (index gdt) f (gdtInit gdt mem).2 = v % 256 ^ f.size :=
  fetch_putAll_of_mem _ _ _ _ (index_inj hgdt)
    (by simp [gdtStores, gdtEntry, gdtBase, gdtLimit, Field.Apart])
    (by simp [gdtStores, gdtEntry, gdtBase, gdtLimit]) h

theorem loadRegister_gdtInit : loadRegister gdt gdtLimit gdtBase (gdtInit gdt mem).2 = ⟨23, gdt⟩ := by
  rw [loadRegister, fetch_gdtInit hgdt mem (v := 23) (by simp [gdtStores]),
    fetch_gdtInit hgdt mem (v := gdt.toNat) (by simp [gdtStores])]
  have hbase : gdt.toNat % 256 ^ gdtBase.size = gdt.toNat := Nat.mod_eq_of_lt gdt.toNat_lt
  rw [hbase, UInt64.ofNat_toNat]
  rfl

/-- The code and the data descriptor, in any memory that keeps the structure. -/
theorem descriptorAt_gdtInit {mem' : Memory}
    (hkept : ∀ i < 40, mem' (index gdt i) = (gdtInit gdt mem).2 (index gdt i)) :
    descriptorAt ⟨23, gdt⟩ 0x08 mem' = some (createDescriptor 0x9a 0xa) ∧
      descriptorAt ⟨23, gdt⟩ 0x10 mem' = some (createDescriptor 0x92 0x0) := by
  have hread : ∀ (i : ℕ) (d : UInt64), i < 3 → (gdtEntry i, d.toNat) ∈ gdtStores gdt →
      UInt64.ofNat (fetch (index gdt) (gdtEntry i) mem') = d := by
    intro i d hi hmem
    have hkept' : fetch (index gdt) (gdtEntry i) mem' =
        fetch (index gdt) (gdtEntry i) (gdtInit gdt mem).2 := by
      apply fetch_congr
      intro j hlo hhi
      have hend : j < 8 * i + 8 := hhi
      exact hkept j (by omega)
    have hd : d.toNat % 256 ^ (gdtEntry i).size = d.toNat := Nat.mod_eq_of_lt d.toNat_lt
    rw [hkept', fetch_gdtInit hgdt mem hmem, hd, UInt64.ofNat_toNat]
  constructor
  · rw [descriptorAt, if_pos (by norm_num)]
    exact congrArg some (hread 1 _ (by decide) (by simp [gdtStores]))
  · rw [descriptorAt, if_pos (by norm_num)]
    exact congrArg some (hread 2 _ (by decide) (by simp [gdtStores]))

end

theorem toNat_parts (a : ℕ) : a % 2 ^ 16 + 2 ^ 16 * (a / 2 ^ 16 % 2 ^ 16) + 2 ^ 32 * (a / 2 ^ 32) = a := by
  omega

/-- `enter` reads the table entry of its vector. -/
theorem enter_eq (gdtr : TableRegister) (idt : UInt64) {v : ℕ} (hv : v < 256) (mem : Memory) :
    enter gdtr ⟨4095, idt⟩ v mem =
      let e := readEntry idt mem v
      let rip := UInt64.ofNat (e.isrLow + 2 ^ 16 * e.isrMid + 2 ^ 32 * e.isrHigh)
      if e.attributes / 128 = 1 ∧ (e.attributes % 16 = 14 ∨ e.attributes % 16 = 15) ∧
          Canonical rip ∧ (descriptorAt gdtr e.kernelCs mem).any isKernelCode then
        some ⟨rip, e.kernelCs / 4 * 4, e.ist % 8, decide (e.attributes % 16 = 15)⟩
      else none := by
  rw [enter, if_pos (show 16 * v + 15 ≤ 4095 by omega)]
  rfl

theorem readEntry_congr {idt : UInt64} {mem mem' : Memory} {v : ℕ} (hv : v < 256)
    (h : ∀ i < 4120, mem' (index idt i) = mem (index idt i)) :
    readEntry idt mem' v = readEntry idt mem v := by
  have hread : ∀ f : Field, f.offset + f.size ≤ 16 →
      fetch (index idt) (idtEntry v f) mem' = fetch (index idt) (idtEntry v f) mem := by
    intro f hf
    apply fetch_congr
    intro i _ hhi
    have hend : i < 16 * v + f.offset + f.size := hhi
    exact h i (by omega)
  ext <;> exact hread _ (by decide)

/-- After `gdt_init` and `idt_init` the segments are loaded without a fault, and while the two
structures are kept each of the first 48 vectors runs its own stub in the kernel's code segment, on
the current stack and with interrupts disabled; no other vector has a gate. -/
theorem vectors_reach_stubs {gdt idt : UInt64} (hgdt : gdt.toNat + 40 ≤ 2 ^ 64)
    (hidt : idt.toNat + 4120 ≤ 2 ^ 64)
    (hapart : gdt.toNat + 40 ≤ idt.toNat ∨ idt.toNat + 4120 ≤ gdt.toNat) (isrStubTable : ℕ → UInt64)
    (hcanonical : ∀ v < 48, Canonical (isrStubTable v)) (mem mem' : Memory)
    (hgdtKept : ∀ i < 40, mem' (index gdt i) =
      (idtInit idt isrStubTable (gdtInit gdt mem).2).2 (index gdt i))
    (hidtKept : ∀ i < 4120, mem' (index idt i) =
      (idtInit idt isrStubTable (gdtInit gdt mem).2).2 (index idt i)) :
    let gdtr := loadRegister gdt gdtLimit gdtBase (gdtInit gdt mem).2
    let idtr := loadRegister idt idtLimit idtBase (idtInit idt isrStubTable (gdtInit gdt mem).2).2
    loadGdt gdtr (gdtInit gdt mem).2 = some ⟨0x08, 0x10⟩ ∧
      ∀ v < 256, enter gdtr idtr v mem' =
        if v < 48 then some ⟨isrStubTable v, 0x08, 0, false⟩ else none := by
  intro gdtr idtr
  have hgdtr : gdtr = ⟨23, gdt⟩ := loadRegister_gdtInit hgdt mem
  have hidtr : idtr = ⟨4095, idt⟩ := loadRegister_idtInit hidt isrStubTable _
  have hcode : isKernelCode (createDescriptor 0x9a 0xa) = true := by decide
  have hdata : isKernelData (createDescriptor 0x92 0x0) = true := by decide
  rw [hgdtr, hidtr]
  constructor
  · obtain ⟨h8, h10⟩ := descriptorAt_gdtInit hgdt mem fun _ _ => rfl
    rw [loadGdt, h8, h10, Option.any_some, Option.any_some, hcode, hdata]
    rfl
  · intro v hv
    have hentry := readEntry_congr hv hidtKept
    rw [readEntry_idtInit hidt _ _ hv] at hentry
    have hkept : ∀ i < 40, mem' (index gdt i) = (gdtInit gdt mem).2 (index gdt i) := by
      intro i hi
      rw [hgdtKept i hi]
      apply idtInit_outside
      intro j hj heq
      have hnat := congrArg UInt64.toNat heq
      simp only [index, UInt64.toNat_add, UInt64.toNat_ofNat'] at hnat
      omega
    obtain ⟨h8, -⟩ := descriptorAt_gdtInit hgdt mem hkept
    rw [enter_eq _ _ hv, hentry]
    by_cases hlow : v < 48
    · have hrip : UInt64.ofNat ((isrStubTable v).toNat % 2 ^ 16 +
          2 ^ 16 * ((isrStubTable v).toNat / 2 ^ 16 % 2 ^ 16) +
          2 ^ 32 * ((isrStubTable v).toNat / 2 ^ 32)) = isrStubTable v := by
        rw [toNat_parts, UInt64.ofNat_toNat]
      have hcs : (descriptorAt ⟨23, gdt⟩ gdtKernel mem').any isKernelCode = true := by
        rw [show descriptorAt ⟨23, gdt⟩ gdtKernel mem' = _ from h8]
        exact hcode
      have hkind : fullKernelAuthority.toNat / 128 = 1 ∧ fullKernelAuthority.toNat % 16 = 14 := by
        decide
      simp only [if_pos hlow, descriptor, hrip]
      rw [if_pos ⟨hkind.1, .inl hkind.2, hcanonical v hlow, hcs⟩, hkind.2]
      rfl
    · simp [hlow]

/-- Stubs of sixteen bytes each. -/
def linkedStubs (v : ℕ) : UInt64 := 0xffffffff80001000 + UInt64.ofNat (16 * v)

/-- The structures lie in the kernel image; vector 43 is that of line 11. -/
theorem vectors_reach_stubs_line11 :
    let mem := (gdtInit 0xffffffff80004000 fun _ => 0).2
    let mem' := (idtInit 0xffffffff80005000 linkedStubs mem).2
    enter (loadRegister 0xffffffff80004000 gdtLimit gdtBase mem)
      (loadRegister 0xffffffff80005000 idtLimit idtBase mem') 43 mem' =
        some ⟨0xffffffff800012b0, 0x08, 0, false⟩ := by
  have hgdt : (0xffffffff80004000 : UInt64).toNat + 40 ≤ 2 ^ 64 := by decide
  have hidt : (0xffffffff80005000 : UInt64).toNat + 4120 ≤ 2 ^ 64 := by decide
  have hapart : (0xffffffff80004000 : UInt64).toNat + 40 ≤ (0xffffffff80005000 : UInt64).toNat ∨
      (0xffffffff80005000 : UInt64).toNat + 4120 ≤ (0xffffffff80004000 : UInt64).toNat := by decide
  have hcanonical : ∀ v < 48, Canonical (linkedStubs v) := by decide
  exact (vectors_reach_stubs hgdt hidt hapart linkedStubs hcanonical (fun _ => 0) _ (fun _ _ => rfl)
    fun _ _ => rfl).2 43 (by decide)

end MathUnikernel.Descriptors
