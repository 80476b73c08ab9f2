import MathUnikernel.Library.ByteBitmap
import MathUnikernel.Library.Fields
import MathUnikernel.Memmove

/-!
# The descriptor tables

`gdt.c`, `gdt_load.S` and the tables of `idt.c`, byte by byte as the processor reads them.
-/

namespace MathUnikernel.Descriptors
open ByteBitmap Fields Lib

/-! ## `gdt.c` -/

def createDescriptor (accessByte flags : UInt8) : UInt64 :=
  accessByte.toUInt64 <<< 40 ||| flags.toUInt64 <<< 52

/-- `entries[i]` of `struct gdt_context`. -/
def gdtEntry (i : ℕ) : Field := ⟨8 * i, 8⟩

/-- `pointer`, which is packed. -/
def gdtLimit : Field := ⟨24, 2⟩
def gdtBase : Field := ⟨26, 8⟩

def gdtInitSuccess : UInt8 := (1 : UInt8) <<< 1

/-- The stores of `gdt_init` with the structure at `gdt`. -/
def gdtStores (gdt : UInt64) : List (Field × ℕ) :=
  [(gdtEntry 0, (createDescriptor 0x00 0x0).toNat),
    (gdtEntry 1, (createDescriptor 0x9a 0xa).toNat),
    (gdtEntry 2, (createDescriptor 0x92 0x0).toNat),
    (gdtBase, gdt.toNat),
    (gdtLimit, 24 - 1)]

/-- `gdt_init` up to `load_gdt`. -/
def gdtInit (gdt : UInt64) (mem : Memory) : UInt8 × Memory :=
  (gdtInitSuccess, putAll (index gdt) (gdtStores gdt) mem)

/-! ## `idt.c` -/

/-- `struct idt_entry`, which is packed. -/
def isrLow : Field := ⟨0, 2⟩
def kernelCs : Field := ⟨2, 2⟩
def ist : Field := ⟨4, 1⟩
def attributes : Field := ⟨5, 1⟩
def isrMid : Field := ⟨6, 2⟩
def isrHigh : Field := ⟨8, 4⟩
def reserved : Field := ⟨12, 4⟩

/-- A field of `entries[vector]` of `struct idt_context`. -/
def idtEntry (vector : ℕ) (f : Field) : Field := ⟨16 * vector + f.offset, f.size⟩

def idtLimit : Field := ⟨4096, 2⟩
def idtBase : Field := ⟨4098, 8⟩
def totalInterrupts : Field := ⟨4112, 8⟩

def gdtKernel : ℕ := 0x08
def fullKernelAuthority : UInt8 := 0x8e
def idtInitSuccess : UInt8 := (1 : UInt8) <<< 2

/-- The stores of `idt_set_descriptor`. -/
def descriptorStores (vector : ℕ) (virtAddr : UInt64) (flags : UInt8) : List (Field × ℕ) :=
  [(idtEntry vector isrLow, (virtAddr &&& 0xffff).toNat),
    (idtEntry vector isrMid, ((virtAddr >>> 16) &&& 0xffff).toNat),
    (idtEntry vector isrHigh, ((virtAddr >>> 32) &&& 0xffffffff).toNat),
    (idtEntry vector kernelCs, gdtKernel),
    (idtEntry vector attributes, flags.toNat),
    (idtEntry vector reserved, 0),
    (idtEntry vector ist, 0)]

def idtSetDescriptor (idt : UInt64) (vector : ℕ) (virtAddr : UInt64) (flags : UInt8)
    (mem : Memory) : Memory := putAll (index idt) (descriptorStores vector virtAddr flags) mem

/-- `for(size_t i = 0; i < n; i++) p[i] = (uint8_t)c;` -/
def memset (mem : Memory) (s : UInt64) (c : UInt8) (n : UInt64) : UInt64 × Memory :=
  (s, (List.range n.toNat).foldl (fun mem i => Function.update mem (index s i) c) mem)

/-- The first `n` turns of the loop of `idt_init`. -/
def setDescriptors (idt : UInt64) (isrStubTable : ℕ → UInt64) (n : ℕ) (mem : Memory) : Memory :=
  (List.range n).foldl
    (fun mem vector => idtSetDescriptor idt vector (isrStubTable vector) fullKernelAuthority mem) mem

/-- `idt_init` up to `load_idt`, with the structure at `idt`. -/
def idtInit (idt : UInt64) (isrStubTable : ℕ → UInt64) (mem : Memory) : UInt8 × Memory :=
  let mem := (memset mem idt 0 4096).2
  let mem := setDescriptors idt isrStubTable 48 mem
  (idtInitSuccess,
    putAll (index idt) [(totalInterrupts, 0), (idtLimit, 4096 - 1), (idtBase, idt.toNat)] mem)

/-! ## The processor -/

/-- What `lgdt` and `lidt` load. -/
structure TableRegister where
  limit : ℕ
  base : UInt64

def loadRegister (struct : UInt64) (limit base : Field) (mem : Memory) : TableRegister :=
  ⟨fetch (index struct) limit mem, UInt64.ofNat (fetch (index struct) base mem)⟩

/-- The descriptor of a selector into the global table, other than the null selector. -/
def descriptorAt (gdtr : TableRegister) (selector : ℕ) (mem : Memory) : Option UInt64 :=
  if selector / 4 % 2 = 0 ∧ selector / 8 ≠ 0 ∧ 8 * (selector / 8) + 7 ≤ gdtr.limit then
    some (UInt64.ofNat (fetch (index gdtr.base) ⟨8 * (selector / 8), 8⟩ mem))
  else none

def accessByte (descriptor : UInt64) : UInt8 := (descriptor >>> 40).toUInt8

/-- The upper four bits of a descriptor's flags field. -/
def flagBits (descriptor : UInt64) : UInt8 := (descriptor >>> 52).toUInt8 &&& 0xf

/-- A present code segment of the kernel's privilege level in 64-bit mode. -/
def isKernelCode (d : UInt64) : Bool :=
  bit (accessByte d) 7 && !bit (accessByte d) 6 && !bit (accessByte d) 5 && bit (accessByte d) 4 &&
    bit (accessByte d) 3 && bit (flagBits d) 1 && !bit (flagBits d) 2

/-- A present writable data segment of the kernel's privilege level. -/
def isKernelData (d : UInt64) : Bool :=
  bit (accessByte d) 7 && !bit (accessByte d) 6 && !bit (accessByte d) 5 && bit (accessByte d) 4 &&
    !bit (accessByte d) 3 && bit (accessByte d) 1

/-- The selectors after `load_gdt`, or nothing where a load faults. -/
structure Segments where
  cs : ℕ
  data : ℕ
  deriving DecidableEq

/-- `load_gdt` after `lgdt`: the data segments with 0x10 and a far return to 0x08. -/
def loadGdt (gdtr : TableRegister) (mem : Memory) : Option Segments :=
  if (descriptorAt gdtr 0x10 mem).any isKernelData ∧ (descriptorAt gdtr 0x08 mem).any isKernelCode
  then some ⟨0x08, 0x10⟩ else none

/-- Bits 47 to 63 of an address agree. -/
def Canonical (a : UInt64) : Prop := a.toNat / 2 ^ 47 = 0 ∨ a.toNat / 2 ^ 47 = 2 ^ 17 - 1

instance (a : UInt64) : Decidable (Canonical a) := inferInstanceAs (Decidable (_ ∨ _))

/-- Where an interrupt goes on. -/
structure Entry where
  rip : UInt64
  cs : ℕ
  stack : ℕ
  interrupts : Bool
  deriving DecidableEq

/-- An interrupt through the gate of its vector; `none` where the processor raises a fault in its
place.  Of the gates, type 14 clears the interrupt flag and type 15 does not. -/
def enter (gdtr idtr : TableRegister) (vector : ℕ) (mem : Memory) : Option Entry :=
  if 16 * vector + 15 ≤ idtr.limit then
    let read f := fetch (index idtr.base) (idtEntry vector f) mem
    let rip := UInt64.ofNat (read isrLow + 2 ^ 16 * read isrMid + 2 ^ 32 * read isrHigh)
    let kind := read attributes % 16
    if read attributes / 128 = 1 ∧ (kind = 14 ∨ kind = 15) ∧ Canonical rip ∧
        (descriptorAt gdtr (read kernelCs) mem).any isKernelCode then
      some ⟨rip, read kernelCs / 4 * 4, read ist % 8, decide (kind = 15)⟩
    else none
  else none

/-! ## Addresses -/

theorem index_inj {p : UInt64} {size : ℕ} (h : p.toNat + size ≤ 2 ^ 64) :
    ∀ i < size, ∀ j < size, index p i = index p j → i = j := by
  intro i hi j hj heq
  have hnat := congrArg UInt64.toNat heq
  simp only [index, UInt64.toNat_add, UInt64.toNat_ofNat'] at hnat
  omega

/-- `memset` fills its bytes. -/
theorem memset_index (mem : Memory) (s : UInt64) (c : UInt8) {n : UInt64} {i : ℕ}
    (hi : i < n.toNat) : (memset mem s c n).2 (index s i) = c := by
  have hfill : ∀ k, ∀ i < k, (List.range k).foldl
      (fun mem i => Function.update mem (index s i) c) mem (index s i) = c := by
    intro k
    induction k with
    | zero => exact fun i hi => absurd hi (Nat.not_lt_zero i)
    | succ k ih =>
      intro i hi
      rw [List.range_succ, List.foldl_append, List.foldl_cons, List.foldl_nil]
      by_cases heq : index s i = index s k
      · rw [heq, Function.update_self]
      · rw [Function.update_of_ne heq]
        exact ih i (by rcases Nat.lt_succ_iff_lt_or_eq.mp hi with h | rfl; exacts [h, absurd rfl heq])
  exact hfill _ i hi

theorem value_zero (n : ℕ) : value (List.replicate n 0) = 0 := by
  induction n with
  | zero => rfl
  | succ n ih => rw [List.replicate_succ, value, ih]; rfl

theorem fetch_memset (mem : Memory) (s : UInt64) {n : UInt64} {f : Field}
    (hf : f.offset + f.size ≤ n.toNat) : fetch (index s) f (memset mem s 0 n).2 = 0 := by
  have hzero : (List.range f.size).map (fun i => (memset mem s 0 n).2 (index s (f.offset + i))) =
      List.replicate f.size 0 := by
    apply List.eq_replicate_iff.mpr
    refine ⟨by simp, fun b hb => ?_⟩
    obtain ⟨i, hi, rfl⟩ := List.mem_map.mp hb
    exact memset_index mem s 0 (by have := List.mem_range.mp hi; omega)
  rw [fetch, hzero, value_zero]

/-! ## Entries -/

/-- `struct idt_entry` as numbers. -/
@[ext] structure IdtEntry where
  isrLow : ℕ
  kernelCs : ℕ
  ist : ℕ
  attributes : ℕ
  isrMid : ℕ
  isrHigh : ℕ
  reserved : ℕ

def readEntry (idt : UInt64) (mem : Memory) (vector : ℕ) : IdtEntry :=
  let read f := fetch (index idt) (idtEntry vector f) mem
  ⟨read isrLow, read kernelCs, read ist, read attributes, read isrMid, read isrHigh, read reserved⟩

/-- The entry that `idt_set_descriptor` makes. -/
def descriptor (virtAddr : UInt64) (flags : UInt8) : IdtEntry where
  isrLow := virtAddr.toNat % 2 ^ 16
  kernelCs := gdtKernel
  ist := 0
  attributes := flags.toNat
  isrMid := virtAddr.toNat / 2 ^ 16 % 2 ^ 16
  isrHigh := virtAddr.toNat / 2 ^ 32
  reserved := 0

theorem pairwise_descriptorStores (vector : ℕ) (virtAddr : UInt64) (flags : UInt8) :
    (descriptorStores vector virtAddr flags).Pairwise fun s t => s.1.Apart t.1 := by
  simp [descriptorStores, idtEntry, Field.Apart, isrLow, isrMid, isrHigh, kernelCs, attributes,
    reserved, ist]

theorem size_descriptorStores (vector : ℕ) (virtAddr : UInt64) (flags : UInt8) :
    ∀ store ∈ descriptorStores vector virtAddr flags,
      16 * vector ≤ store.1.offset ∧ store.1.offset + store.1.size ≤ 16 * vector + 16 := by
  simp [descriptorStores, idtEntry, isrLow, isrMid, isrHigh, kernelCs, attributes, reserved, ist]

theorem toNat_and_low (a : UInt64) : (a &&& 0xffff).toNat = a.toNat % 2 ^ 16 := by
  rw [UInt64.toNat_and]
  exact Nat.and_two_pow_sub_one_eq_mod _ 16

theorem toNat_high (a : UInt64) : ((a >>> 32) &&& 0xffffffff).toNat = a.toNat / 2 ^ 32 := by
  rw [UInt64.toNat_and, UInt64.toNat_shiftRight, Nat.shiftRight_eq_div_pow]
  refine (Nat.and_two_pow_sub_one_eq_mod _ 32).trans (Nat.mod_eq_of_lt ?_)
  exact Nat.div_lt_of_lt_mul a.toNat_lt

section
variable {idt : UInt64} (hidt : idt.toNat + 4120 ≤ 2 ^ 64) (mem : Memory) (virtAddr : UInt64)
  (flags : UInt8)
include hidt

/-- A table in memory is a function from the vectors to the entries, and `idt_set_descriptor`
changes it at one vector. -/
theorem readEntry_idtSetDescriptor {vector v : ℕ} (hvector : vector < 256) (hv : v < 256) :
    readEntry idt (idtSetDescriptor idt vector virtAddr flags mem) v =
      if v = vector then descriptor virtAddr flags else readEntry idt mem v := by
  have hinj := index_inj hidt
  have hsize := size_descriptorStores vector virtAddr flags
  have hpair := pairwise_descriptorStores vector virtAddr flags
  by_cases heq : v = vector
  · subst heq
    have hread : ∀ {f : Field} {x : ℕ}, (idtEntry v f, x) ∈ descriptorStores v virtAddr flags →
        fetch (index idt) (idtEntry v f) (idtSetDescriptor idt v virtAddr flags mem) =
          x % 256 ^ f.size := fun h => fetch_putAll_of_mem _ _ _ _ hinj hpair
            (fun s hs => by have := hsize s hs; omega) h
    rw [if_pos rfl]
    ext
    · refine (hread (f := isrLow) (x := (virtAddr &&& 0xffff).toNat) (by simp [descriptorStores])).trans ?_
      rw [toNat_and_low]
      exact Nat.mod_mod _ _
    · exact hread (f := kernelCs) (x := gdtKernel) (by simp [descriptorStores])
    · exact hread (f := ist) (x := 0) (by simp [descriptorStores])
    · refine (hread (f := attributes) (x := flags.toNat) (by simp [descriptorStores])).trans ?_
      exact Nat.mod_eq_of_lt flags.toNat_lt
    · refine (hread (f := isrMid) (x := ((virtAddr >>> 16) &&& 0xffff).toNat)
        (by simp [descriptorStores])).trans ?_
      rw [toNat_and_low, UInt64.toNat_shiftRight, Nat.shiftRight_eq_div_pow]
      exact Nat.mod_mod _ _
    · refine (hread (f := isrHigh) (x := ((virtAddr >>> 32) &&& 0xffffffff).toNat)
        (by simp [descriptorStores])).trans ?_
      rw [toNat_high]
      exact Nat.mod_eq_of_lt (Nat.div_lt_of_lt_mul virtAddr.toNat_lt)
    · exact hread (f := reserved) (x := 0) (by simp [descriptorStores])
  · have hread : ∀ f : Field, f.offset + f.size ≤ 16 →
        fetch (index idt) (idtEntry v f) (idtSetDescriptor idt vector virtAddr flags mem) =
          fetch (index idt) (idtEntry v f) mem := by
      intro f hf
      apply fetch_putAll_of_apart _ _ _ hinj
      · intro store hstore
        have hbounds := hsize store hstore
        refine ⟨?_, by omega⟩
        unfold Field.Apart idtEntry
        dsimp only
        omega
      · unfold idtEntry
        dsimp only
        omega
    rw [if_neg heq]
    ext <;> exact hread _ (by decide)

end

end MathUnikernel.Descriptors
