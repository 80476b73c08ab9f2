import MathUnikernel.Pmm

/-!
# The virtual memory manager

The functions of `vmm.c`.  Physical memory is the array of 512 eight-byte words in every frame; the
kernel reaches it at `hhdm_offset`, so a table is named by its physical address.  The PMM bitmap is
a component of its own.  The log is a ghost: which allocation requests were made and what became of
their results.
-/

namespace MathUnikernel.Vmm
open Pmm

def vmmInitSuccess : ℕ := 1 <<< 4

def vmmPresent : ℕ := 1 <<< 0
def vmmWriteable : ℕ := 1 <<< 1
def vmmHuge : ℕ := 1 <<< 7
def vmmAddrMask : ℕ := 0x000FFFFFFFFFF000
def vmmIndexMask : ℕ := 0x1FF
def vmmGetAddr (entry : ℕ) : ℕ := entry &&& vmmAddrMask

def heapStart : ℕ := 0xffff900000000000

inductive Event
  /-- `pmm_alloc` was called in this state. -/
  | alloc (pmm : PmmContext)
  /-- `pmm_alloc_2mb` was called in this state. -/
  | alloc2mb (pmm : PmmContext)
  /-- A table entry was pointed at this result. -/
  | table (physAddr : ℕ)
  /-- A leaf entry was pointed at this result. -/
  | leaf (physAddr : ℕ)
  /-- The memory behind this result was zero-filled. -/
  | zero (physAddr : ℕ)

structure Machine where
  pmm : PmmContext
  mem : ℕ → Fin 512 → ℕ
  pml4Phys : ℕ
  nextVirtAddr : ℕ
  log : List Event

def Machine.note (m : Machine) (events : List Event) : Machine := { m with log := m.log ++ events }

/-! ## Tables -/

def tableIndex (virtAddr level : ℕ) : Fin 512 :=
  ⟨(virtAddr >>> (12 + level * 9)) &&& vmmIndexMask, Nat.lt_of_le_of_lt Nat.and_le_right (by decide)⟩

/-- `((page_table_t*)(table + hhdm_offset))->entries[index]`. -/
def Machine.entry (m : Machine) (table : ℕ) (index : Fin 512) : ℕ :=
  m.mem (physAddrToIndex table) index

def Machine.setEntry (m : Machine) (table : ℕ) (index : Fin 512) (entry : ℕ) : Machine :=
  { m with
    mem := Function.update m.mem (physAddrToIndex table)
      (Function.update (m.mem (physAddrToIndex table)) index entry) }

/-- `memset` of one frame to 0. -/
def Machine.clearFrame (m : Machine) (physAddr : ℕ) : Machine :=
  { m with mem := Function.update m.mem (physAddrToIndex physAddr) fun _ => 0 }

def vmmPrepPml4 (m : Machine) : Machine :=
  let (pml4Phys, pmm) := pmmAlloc m.pmm
  let m := { m.note [.alloc m.pmm, .zero pml4Phys] with pmm, pml4Phys }
  m.clearFrame pml4Phys

/-- The test of the walk: a new table where the entry is not present. -/
def ensureTable (m : Machine) (table : ℕ) (index : Fin 512) : Machine :=
  if m.entry table index &&& vmmPresent = 0 then
    let (newTablePhys, pmm) := pmmAlloc m.pmm
    let m := { m.note [.alloc m.pmm, .zero newTablePhys, .table newTablePhys] with pmm }
    (m.clearFrame newTablePhys).setEntry table index (newTablePhys ||| vmmPresent ||| vmmWriteable)
  else m

/-- The loop over `level` of both map functions; it yields `current_table`. -/
def descend (virtAddr : ℕ) : List ℕ → Machine → ℕ → Machine × ℕ
  | [], m, currentTable => (m, currentTable)
  | level :: levels, m, currentTable =>
    let index := tableIndex virtAddr level
    let m := ensureTable m currentTable index
    descend virtAddr levels m (vmmGetAddr (m.entry currentTable index))

def vmmMapVirtToPhys (m : Machine) (virtAddr physAddr flags : ℕ) : Machine :=
  let (m, currentTable) := descend virtAddr [3, 2, 1] m m.pml4Phys
  m.setEntry currentTable (tableIndex virtAddr 0) ((physAddr &&& vmmAddrMask) ||| flags ||| vmmPresent)

def vmmMapVirtToPhysHugePage (m : Machine) (virtAddr physAddr flags : ℕ) : Machine :=
  let (m, currentTable) := descend virtAddr [3, 2] m m.pml4Phys
  m.setEntry currentTable (tableIndex virtAddr 1)
    ((physAddr &&& vmmAddrMask) ||| flags ||| vmmPresent ||| vmmHuge)

/-- The loop of `vmm_map_range`.  When `offset += 4096` wraps it never ends: `none`. -/
def mapRangeFrom (virtStart physStart size flags offset : ℕ) (m : Machine) : Option Machine :=
  if offset < size then
    if offset + 4096 < 2 ^ 64 then
      mapRangeFrom virtStart physStart size flags (offset + 4096)
        (vmmMapVirtToPhys m ((virtStart + offset) % 2 ^ 64) ((physStart + offset) % 2 ^ 64) flags)
    else none
  else some m
termination_by size - offset
decreasing_by omega

def vmmMapRange (m : Machine) (virtStart physStart size flags : ℕ) : Option Machine :=
  mapRangeFrom virtStart physStart size flags 0 m

/-- `struct limine_kernel_address_response`. -/
structure KernelAddress where
  virtualBase : ℕ
  physicalBase : ℕ

/-- The entries that `vmm_init` maps at `hhdm_offset`. -/
def directMapped (e : MemmapEntry) : Bool :=
  e.type = .usable || e.type = .bootloaderReclaimable || e.type = .framebuffer

/-- The length of the last entry of the kernel's type. -/
def kernelSize (entries : List MemmapEntry) : ℕ :=
  entries.foldl (fun size e => if e.type = .kernelAndModules then e.length else size) 0

def vmmInit (hhdmOffset : ℕ) (kernel : KernelAddress) (entries : List MemmapEntry) (m : Machine) :
    Option (ℕ × Machine) := do
  let flags := vmmPresent ||| vmmWriteable
  let m ← vmmMapRange (vmmPrepPml4 m) 0x0 0x0 0x400000 flags
  let m ← vmmMapRange m kernel.virtualBase kernel.physicalBase (kernelSize entries) flags
  let m ← entries.foldlM (fun m e =>
    if directMapped e then vmmMapRange m ((e.base + hhdmOffset) % 2 ^ 64) e.base e.length flags
    else some m) m
  return (vmmInitSuccess, m)

/-! ## The hardware walk -/

/-- The bits of an entry outside the address field. -/
def leafFlags (entry : ℕ) : ℕ := entry &&& 0xFFF0000000000FFF

/-- Four levels, three when the page directory entry has `VMM_HUGE`: the physical address and the
flags of the leaf. -/
def hwWalk (m : Machine) (virtAddr : ℕ) : Option (ℕ × ℕ) :=
  let pml4e := m.entry m.pml4Phys (tableIndex virtAddr 3)
  if pml4e &&& vmmPresent = 0 then none
  else
    let pdpte := m.entry (vmmGetAddr pml4e) (tableIndex virtAddr 2)
    if pdpte &&& vmmPresent = 0 then none
    else
      let pde := m.entry (vmmGetAddr pdpte) (tableIndex virtAddr 1)
      if pde &&& vmmPresent = 0 then none
      else if pde &&& vmmHuge ≠ 0 then
        some (vmmGetAddr pde / 0x200000 * 0x200000 + virtAddr % 0x200000, leafFlags pde)
      else
        let pte := m.entry (vmmGetAddr pde) (tableIndex virtAddr 0)
        if pte &&& vmmPresent = 0 then none
        else some (vmmGetAddr pte + virtAddr % 4096, leafFlags pte)

/-- `memset((void*)virtAddr, 0, 4096 * pages)` through the mapping; an access that has no
translation would fault, and so would one to a page without `VMM_WRITEABLE`, which is not checked
here. -/
@[irreducible] def clearMapped (m : Machine) (virtAddr pages : ℕ) : Machine :=
  (List.range pages).foldl (fun m i =>
    match hwWalk m ((virtAddr + 4096 * i) % 2 ^ 64) with
    | some (physAddr, _) => m.clearFrame physAddr
    | none => m) m

/-! ## The heap -/

/-- The counter of `vmm_alloc` after `k` increments, an `int`, compared as a `uint64_t`. -/
def intCounter (k : ℕ) : ℕ :=
  if k % 2 ^ 32 < 2 ^ 31 then k % 2 ^ 32 else 2 ^ 64 - 2 ^ 32 + k % 2 ^ 32

def allocStep (m : Machine) (flags : ℕ) : Machine :=
  let (physAddr, pmm) := pmmAlloc m.pmm
  let m := { m.note [.alloc m.pmm] with pmm }
  let m := vmmMapVirtToPhys m m.nextVirtAddr physAddr flags
  let m := clearMapped m m.nextVirtAddr 1
  { m.note [.leaf physAddr, .zero physAddr] with nextVirtAddr := (m.nextVirtAddr + 4096) % 2 ^ 64 }

/-- The loop of `vmm_alloc`; after `2 ^ 32` rounds the counter has taken every value below
`num_pages`. -/
def allocFrom (numPages flags k : ℕ) (m : Machine) : Machine :=
  if intCounter k < numPages ∧ k < 2 ^ 32 then
    allocFrom numPages flags (k + 1) (allocStep m flags)
  else m
termination_by 2 ^ 32 - k
decreasing_by omega

def vmmAlloc (m : Machine) (numPages flags : ℕ) : ℕ × Machine :=
  (m.nextVirtAddr, allocFrom numPages flags 0 m)

def allocHugeStep (m : Machine) (flags : ℕ) : Machine :=
  let (physAddr, pmm) := pmmAlloc2mb m.pmm
  let m := { m.note [.alloc2mb m.pmm] with pmm }
  let m := vmmMapVirtToPhysHugePage m m.nextVirtAddr physAddr flags
  let m := clearMapped m m.nextVirtAddr 512
  { m.note [.leaf physAddr, .zero physAddr] with
    nextVirtAddr := (m.nextVirtAddr + 0x200000) % 2 ^ 64 }

def vmmAllocHugePage (m : Machine) (numPages flags : ℕ) : ℕ × Machine :=
  let startAddr := (m.nextVirtAddr + 0x1fffff) % 2 ^ 64 &&& 0xffffffffffe00000
  let m := { m with nextVirtAddr := startAddr }
  (startAddr, (allocHugeStep · flags)^[numPages] m)

/-- One round of `vmm_reset_heap`. -/
def resetSlot (m : Machine) (addr : ℕ) : Machine :=
  let pdpt := vmmGetAddr (m.entry m.pml4Phys (tableIndex addr 3))
  let pd := vmmGetAddr (m.entry pdpt (tableIndex addr 2))
  let phys := vmmGetAddr (m.entry pd (tableIndex addr 1))
  let m := { m with pmm := pmmFree2mb m.pmm phys }
  m.setEntry pd (tableIndex addr 1) 0

/-- The loop of `vmm_reset_heap`.  When `addr += 0x200000` wraps it never ends: `none`. -/
def resetFrom (addr : ℕ) (m : Machine) : Option Machine :=
  if addr < m.nextVirtAddr then
    if addr + 0x200000 < 2 ^ 64 then resetFrom (addr + 0x200000) (resetSlot m addr) else none
  else some m
termination_by 2 ^ 64 - addr
decreasing_by omega

def vmmResetHeap (m : Machine) : Option Machine :=
  (resetFrom heapStart m).map fun m => { m with nextVirtAddr := heapStart }

end MathUnikernel.Vmm
