import MathUnikernel.HeapContents
import MathUnikernel.Loader

/-!
# The main loop of the kernel

The loop of `kernel_main`: its three states, the loops of the heap functions round by round, the
workload's own steps, and frames that arrive in between.  The output fields of the API, which only
an empty branch reads, are left out.
-/

namespace MathUnikernel.MainLoop
open Vmm Network

def mb : ℕ := 1 <<< 20

/-- `num_pages` of the POLLING state. -/
def numPages (payloadByteCount : ℕ) : ℕ :=
  let numPages := payloadByteCount / (2 * mb)
  if payloadByteCount % (2 * mb) ≠ 0 then numPages + 1 else numPages

/-- The flags of the kernel's own allocation. -/
def payloadFlags : ℕ := vmmPresent ||| vmmWriteable

inductive Place
  /-- POLLING, in the functions of `network.c` and `loader.c`. -/
  | polling
  /-- POLLING, in the loop of `vmm_alloc_huge_page` with so many pages to go. -/
  | mapping (startAddr left : ℕ)
  /-- EXECUTING, at `workload()`. -/
  | calling
  /-- EXECUTING, in the workload. -/
  | workload
  /-- EXECUTING, in the workload's call of `vmm_alloc_huge_page`. -/
  | growing (flags left : ℕ)
  /-- EXECUTING, in the loop of `vmm_reset_heap`. -/
  | resetting (addr : ℕ)
  | extracting
  deriving DecidableEq

/-- `dest` and `written` are ghosts: the arguments of the last call of `network_set_dest`, and the
addresses that frames were stored at in the current session. -/
structure Kernel where
  place : Place
  loader : Loader
  m : Machine
  payloadByteCount : ℕ
  payloadMem : ℕ
  dest : ℕ × ℕ
  written : List ℕ

/-- The first assignment of `vmm_alloc_huge_page`. -/
def alignCursor (m : Machine) : Machine :=
  { m with nextVirtAddr := (m.nextVirtAddr + 0x1fffff) % 2 ^ 64 &&& 0xffffffffffe00000 }

/-- The POLLING state between the two heap functions. -/
def Kernel.poll (k : Kernel) : Kernel :=
  match k.loader.pc with
  | .alloc size =>
    { k with
      place := .mapping (alignCursor k.m).nextVirtAddr (numPages size)
      m := alignCursor k.m
      payloadByteCount := size }
  | .loaded _ _ => { k with place := .calling }
  | _ => { k with loader := k.loader.step }

/-- One step of `kernel_main`.  The workload has steps of its own. -/
def Kernel.main (k : Kernel) : Kernel :=
  match k.place with
  | .polling => k.poll
  | .mapping startAddr (left + 1) =>
    { k with place := .mapping startAddr left, m := allocHugeStep k.m payloadFlags }
  | .mapping startAddr 0 =>
    { k with
      place := .polling
      loader := { k.loader with pc := .setDest startAddr k.payloadByteCount }
      payloadMem := startAddr
      dest := (startAddr, k.payloadByteCount) }
  | .calling => { k with place := .workload }
  | .workload => k
  | .growing flags (left + 1) =>
    { k with place := .growing flags left, m := allocHugeStep k.m flags }
  | .growing _ 0 => { k with place := .workload }
  | .resetting addr =>
    if addr < k.m.nextVirtAddr then
      { k with place := .resetting ((addr + 0x200000) % 2 ^ 64), m := resetSlot k.m addr }
    else { k with place := .extracting, m := { k.m with nextVirtAddr := heapStart } }
  | .extracting =>
    -- a new session
    { k with place := .polling, loader := { k.loader with pc := .resetDone }, written := [] }

/-- A store of the handler; a page fault writes nothing. -/
def Kernel.store (k : Kernel) (s : ℕ × UInt8) : Kernel :=
  { k with
    m := k.m.storeByte s.1 s.2
    written := if (hwWalk k.m s.1).isSome then k.written ++ [s.1] else k.written }

/-- The handler runs on a frame. -/
def Kernel.receive (k : Kernel) (data : Frame) : Kernel :=
  let r := networkReceiveFrame k.loader.net data
  r.stores.foldl Kernel.store { k with loader := { k.loader with net := r.net } }

inductive MainEvent
  | main
  | receive (data : Frame)
  /-- The workload calls `api->alloc_huge_page`, writes to a heap page, or returns. -/
  | alloc (numPages flags : ℕ)
  | store (virtAddr : ℕ) (byte : UInt8)
  | ret

inductive MainStep : Kernel → MainEvent → Kernel → Prop
  | main (k : Kernel) : MainStep k .main k.main
  | receive (k : Kernel) (data : Frame) : MainStep k (.receive data) (k.receive data)
  | alloc {k : Kernel} {numPages flags : ℕ} :
      k.place = .workload → flags &&& vmmAddrMask = 0 → flags < 2 ^ 64 →
      MainStep k (.alloc numPages flags)
        { k with place := .growing flags numPages, m := alignCursor k.m }
  | store {k : Kernel} {virtAddr : ℕ} {byte : UInt8} :
      k.place = .workload → heapStart ≤ virtAddr → virtAddr < k.m.nextVirtAddr →
      MainStep k (.store virtAddr byte) { k with m := k.m.storeByte virtAddr byte }
  | ret {k : Kernel} :
      k.place = .workload → MainStep k .ret { k with place := .resetting heapStart }

/-- The loop begins.  A frame may have come since interrupts were enabled. -/
structure Kernel.Starts (k : Kernel) : Prop where
  place : k.place = .polling
  pc : k.loader.pc = .resetDone
  hdrLen : k.loader.net.hdrLen ≤ headerFrameSize
  rxExpected : k.loader.net.rxExpected = 0
  written : k.written = []
  heap : FreshHeap k.m

end MathUnikernel.MainLoop
