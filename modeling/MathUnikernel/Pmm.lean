import MathUnikernel.Library.ByteBitmap
import MathUnikernel.Library.Scan

/-!
# The physical memory manager

The functions of `pmm.c`.  Addresses, sizes and frame indices are natural numbers, reduced modulo
`2 ^ 64` where the `uint64_t` arithmetic of the source can overflow.  The bitmap is the sequence of
bytes behind `pmm.bitmap`; a set bit is a frame in use.
-/

namespace MathUnikernel.Pmm
open ByteBitmap Scan

/-- `LIMINE_MEMMAP_*`. -/
inductive MemmapType
  | usable
  | reserved
  | acpiReclaimable
  | acpiNvs
  | badMemory
  | bootloaderReclaimable
  | kernelAndModules
  | framebuffer
  deriving DecidableEq

/-- `struct limine_memmap_entry`. -/
structure MemmapEntry where
  base : ℕ
  length : ℕ
  type : MemmapType

/-- The types `pmm_init` hands to the allocator. -/
def MemmapEntry.available (e : MemmapEntry) : Bool :=
  e.type = .usable || e.type = .bootloaderReclaimable

/-- `base + length` in `uint64_t`. -/
def MemmapEntry.ceiling (e : MemmapEntry) : ℕ := (e.base + e.length) % 2 ^ 64

/-- `struct pmm_context`.  `bitmapPhys` is the physical address the bitmap pointer maps. -/
structure PmmContext where
  bitmap : Bitmap
  bitmapPhys : ℕ
  bitmapSize : ℕ
  totalFrames : ℕ
  freeFrames : ℕ

def pmmInitSuccess : ℕ := 1 <<< 3

def physAddrToIndex (addr : ℕ) : ℕ := addr / 4096

def indexToPhysAddr (index : ℕ) : ℕ := index * 4096 % 2 ^ 64

def claimFrame (s : PmmContext) (frameIndex : ℕ) : PmmContext :=
  let byteIndex := frameIndex / 8
  let bitIndex := frameIndex % 8
  if s.bitmap byteIndex &&& mask bitIndex = 0 then
    { s with
      bitmap := Function.update s.bitmap byteIndex (s.bitmap byteIndex ||| mask bitIndex)
      freeFrames := (s.freeFrames + (2 ^ 64 - 1)) % 2 ^ 64 }
  else s

def freeFrame (s : PmmContext) (frameIndex : ℕ) : PmmContext :=
  let byteIndex := frameIndex / 8
  let bitIndex := frameIndex % 8
  if s.bitmap byteIndex &&& mask bitIndex ≠ 0 then
    { s with
      bitmap := Function.update s.bitmap byteIndex (s.bitmap byteIndex &&& ~~~mask bitIndex)
      freeFrames := (s.freeFrames + 1) % 2 ^ 64 }
  else s

def getHighestUsableAddr (entries : List MemmapEntry) : ℕ :=
  entries.foldl (fun largestAddr current =>
    if current.available && decide (largestAddr < current.ceiling) then current.ceiling
    else largestAddr) 0

/-- The first loop of `pmm_init`: the first usable entry that is big enough, address 0 otherwise. -/
def placeBitmap (entries : List MemmapEntry) (bitmapSize : ℕ) : ℕ :=
  match entries.find? fun current => current.type = .usable && decide (bitmapSize ≤ current.length) with
  | some current => current.base
  | none => 0

/-- `for (; addr < stop; addr += 4096) body(addr / 4096)`.  When `addr += 4096` wraps, the counter
starts again below 4096 with the same low bits and the loop never ends: `none`. -/
def forFrames (body : PmmContext → ℕ → PmmContext) (stop addr : ℕ) (s : PmmContext) :
    Option PmmContext :=
  if addr < stop then
    if addr + 4096 < 2 ^ 64 then
      forFrames body stop (addr + 4096) (body s (physAddrToIndex addr))
    else none
  else some s
termination_by stop - addr
decreasing_by omega

/-- `pmm_init`, with `mem` the bytes of physical memory before the call. -/
def pmmInit (entries : List MemmapEntry) (mem : ℕ → UInt8) : Option (ℕ × PmmContext) := do
  let ceilingAddr := getHighestUsableAddr entries
  let totalFrames := (ceilingAddr + 4095) % 2 ^ 64 / 4096
  let bitmapSize := (totalFrames + 7) / 8
  let bitmapPhysicalAddr := placeBitmap entries bitmapSize
  let cleared : PmmContext :=
    { bitmap := fill (fun i => mem (bitmapPhysicalAddr + i)) 0 bitmapSize 0xff
      bitmapPhys := bitmapPhysicalAddr
      bitmapSize
      totalFrames
      freeFrames := 0 }
  let freed ← entries.foldlM (fun s current =>
    if current.available then forFrames freeFrame current.ceiling current.base s else some s) cleared
  let claimed ← forFrames claimFrame ((bitmapPhysicalAddr + bitmapSize) % 2 ^ 64)
    bitmapPhysicalAddr freed
  return (pmmInitSuccess, claimed)

/-- First fit over bytes, then over the bits of the byte found. -/
def pmmAlloc (s : PmmContext) : ℕ × PmmContext :=
  let byteIndex := scan (fun i => s.bitmap i != 0xff) s.bitmapSize 0
  if s.bitmapSize ≤ byteIndex then (0, s)
  else
    -- a byte other than 0xff has a clear bit, so the `while` over bits ends below 8
    let bitIndex := scan (fun b => s.bitmap byteIndex &&& mask b == 0) 8 0
    let frameIndex := byteIndex * 8 + bitIndex
    if s.totalFrames ≤ frameIndex then (0, s)
    else (indexToPhysAddr frameIndex, claimFrame s frameIndex)

def pmmFree (s : PmmContext) (physAddr : ℕ) : PmmContext :=
  if physAddr &&& 0xfff ≠ 0 then s else freeFrame s (physAddrToIndex physAddr)

/-- `is_valid` of `pmm_alloc_2mb` at `byte_index`. -/
def groupIsZero (bitmap : Bitmap) (byteIndex : ℕ) : Bool :=
  (List.range 64).all fun entry => bitmap (byteIndex + entry) == 0

/-- `for (int i = ...; i < stop; i++) bitmap[i] = 0xff` from a non-negative `i`.  An `i` of `2 ^ 31`
is the `int` that wrapped: it compares as a `uint64_t` above every `stop`. -/
def fillInt (stop i : ℕ) (bitmap : Bitmap) : Bitmap :=
  if i < stop ∧ i < 2 ^ 31 then fillInt stop (i + 1) (Function.update bitmap i 0xff) else bitmap
termination_by stop - i
decreasing_by omega

/-- The marking loop of `pmm_alloc_2mb`; its counter starts at `(int)byte_index`. -/
def markGroup (bitmap : Bitmap) (byteIndex : ℕ) : Bitmap :=
  if byteIndex % 2 ^ 32 < 2 ^ 31 then fillInt (byteIndex + 64) (byteIndex % 2 ^ 32) bitmap
  else bitmap

def pmmAlloc2mb (s : PmmContext) : ℕ × PmmContext :=
  let byteIndex := 64 * scan (fun group => groupIsZero s.bitmap (64 * group)) (s.bitmapSize / 64) 0
  if s.bitmapSize < byteIndex + 64 then (0, s)
  else (indexToPhysAddr (byteIndex * 8), { s with bitmap := markGroup s.bitmap byteIndex })

def pmmFree2mb (s : PmmContext) (physAddr : ℕ) : PmmContext :=
  if physAddr % 0x200000 ≠ 0 then s
  else
    let byteIndex := physAddrToIndex physAddr / 8
    if s.bitmapSize < byteIndex + 64 then s
    else { s with bitmap := fill s.bitmap byteIndex (byteIndex + 64) 0x00 }

/-- The loop of `pmm_alloc_contiguous` up to the claims: the start of the run it finds. -/
def searchContiguous (s : PmmContext) (numFrames i foundFrames startFrame : ℕ) : Option ℕ :=
  if i < s.totalFrames then
    let byteIndex := i / 8
    let bitIndex := i % 8
    let skip := bitIndex = 0 ∧ s.bitmap byteIndex = 0xff
    let foundFrames := if skip then 0 else foundFrames
    let i' := if skip then i + 7 else i
    if s.bitmap byteIndex &&& mask bitIndex = 0 then
      let startFrame := if foundFrames = 0 then i' else startFrame
      if foundFrames + 1 = numFrames then some startFrame
      else searchContiguous s numFrames (i' + 1) (foundFrames + 1) startFrame
    else searchContiguous s numFrames (i' + 1) 0 startFrame
  else none
termination_by s.totalFrames - i
decreasing_by all_goals (split_ifs <;> omega)

def pmmAllocContiguous (s : PmmContext) (numFrames : ℕ) : ℕ × PmmContext :=
  match searchContiguous s numFrames 0 0 0 with
  | some startFrame =>
    (indexToPhysAddr startFrame,
      (List.range numFrames).foldl (fun s j => claimFrame s (startFrame + j)) s)
  | none => (0, s)

end MathUnikernel.Pmm
