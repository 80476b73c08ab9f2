import MathUnikernel.Library.ByteBitmap
import MathUnikernel.Library.Loops

/-!
# The PCI bus scan

`pci.c`, with the parts of `idt.c`, `pic.c`, `network.c` and the two network drivers that connect a
card to its interrupt.  A configuration space gives the dword at each aligned offset of a function.
-/

namespace MathUnikernel.Pci
open ByteBitmap Loops

/-- `bus`, `slot` and `func`. -/
structure PciFunction where
  bus : UInt8
  slot : UInt8
  func : UInt8
  deriving DecidableEq

abbrev Config := PciFunction → UInt8 → UInt32

def intelVendorId : UInt16 := 0x8086
def realtekVendorId : UInt16 := 0x10ec
def pciInitSuccess : UInt16 := (1 : UInt16) <<< 8

/-- The functions `nic_poll` is set to. -/
inductive PollFn
  | i219PollRx
  | rtl8139Poll
  deriving DecidableEq

/-- The functions in `irq_handlers`. -/
inductive IrqHandler
  | i219InterruptHandler
  | rtl8139InterruptHandler
  deriving DecidableEq

/-- The configuration space, the mask registers of the two interrupt controllers, `irq_handlers` and
`nic_poll`. -/
structure Machine where
  config : Config
  pic1Data : UInt8
  pic2Data : UInt8
  irqHandlers : UInt8 → Option IrqHandler
  nicPoll : Option PollFn

/-- Before the scan: no handler and no poll function. -/
def Machine.boot (config : Config) (pic1Data pic2Data : UInt8) : Machine where
  config
  pic1Data
  pic2Data
  irqHandlers _ := none
  nicPoll := none

/-! ## Configuration space -/

def pciReadDword (config : Config) (f : PciFunction) (offset : UInt8) : UInt32 :=
  config f (offset &&& 0xfc)

def pciWriteDword (config : Config) (f : PciFunction) (offset : UInt8) (data : UInt32) : Config :=
  Function.update config f (Function.update (config f) (offset &&& 0xfc) data)

section Capabilities
variable (config : Config) (f : PciFunction)

/-- Bit 4 of the status register. -/
def hasCapabilities : Bool :=
  let status : UInt16 := ((pciReadDword config f 0x04 >>> 16) &&& 0xffff).toUInt16
  status &&& (1 : UInt16) <<< 4 != 0

def firstPtr : UInt8 := (pciReadDword config f 0x34 &&& 0xff).toUInt8

def capId (capPtr : UInt8) : UInt8 := (pciReadDword config f capPtr &&& 0xff).toUInt8

def nextPtr (capPtr : UInt8) : UInt8 := ((pciReadDword config f capPtr >>> 8) &&& 0xff).toUInt8

/-- The `while` of `pci_wake_device`: the pointer it stops at, 0 or the power management capability.
A chain that has not ended after 256 pointers never ends: `none`. -/
def walkCapabilities : Option UInt8 :=
  (forLoop (fun capPtr => capPtr != 0 && capId config f capPtr != 0x01) (nextPtr config f)
    (fun _ s => some s) 256 (firstPtr config f) ()).map Prod.fst

def pciWakeDevice : Option Config :=
  if hasCapabilities config f then
    (walkCapabilities config f).map fun capPtr =>
      if capPtr = 0 then config
      else
        let pmcsr := pciReadDword config f (capPtr + 4)
        if pmcsr &&& 0x03 ≠ 0 then pciWriteDword config f (capPtr + 4) (pmcsr &&& ~~~0x03)
        else config
  else some config

end Capabilities

/-! ## Interrupts -/

def registerIrqHandler (irq : UInt8) (handler : IrqHandler) (m : Machine) : Machine :=
  if irq < 16 then { m with irqHandlers := Function.update m.irqHandlers irq (some handler) } else m

/-- `(uint8_t)(1 << irq)`; the processor takes the count of an `int` shift modulo 32. -/
def irqBit (irq : UInt8) : UInt8 := ((1 : UInt32) <<< irq.toUInt32).toUInt8

def picUnmask (irq : UInt8) (m : Machine) : Machine :=
  if irq < 8 then { m with pic1Data := m.pic1Data &&& ~~~irqBit irq }
  else
    { m with
      pic1Data := m.pic1Data &&& ~~~irqBit 2
      pic2Data := m.pic2Data &&& ~~~irqBit (irq - 8) }

def networkSetPollFn (fn : PollFn) (m : Machine) : Machine := { m with nicPoll := some fn }

/-- The last calls of `i219_init`.  Everything before them programs the card behind its BAR. -/
def i219Init (irq : UInt8) (m : Machine) : Machine :=
  registerIrqHandler irq .i219InterruptHandler (picUnmask irq m)

/-- The last calls of `rtl8139_init`. -/
def rtl8139Init (irq : UInt8) (m : Machine) : Machine :=
  registerIrqHandler irq .rtl8139InterruptHandler (picUnmask irq m)

/-! ## The scan -/

section Header
variable (config : Config) (f : PciFunction)

def vendor : UInt16 := (pciReadDword config f 0 &&& 0xffff).toUInt16

def baseClass : UInt8 := ((pciReadDword config f 0x08 >>> 24) &&& 0xff).toUInt8

def subClass : UInt8 := ((pciReadDword config f 0x08 >>> 16) &&& 0xff).toUInt8

def irqLine : UInt8 := (pciReadDword config f 0x3c &&& 0xff).toUInt8

end Header

/-- The `switch` of `pci_scan_bus`.  It has no default: the controller of another vendor is left
without a driver. -/
def startDriver (vendor : UInt16) (irq : UInt8) (m : Machine) : Machine :=
  if vendor = intelVendorId then networkSetPollFn .i219PollRx (i219Init irq m)
  else if vendor = realtekVendorId then networkSetPollFn .rtl8139Poll (rtl8139Init irq m)
  else m

/-- What `pci_scan_bus` does with the controller it stops at. -/
def initController (m : Machine) (f : PciFunction) : Option (UInt16 × Machine) :=
  (pciWakeDevice m.config f).map fun config =>
    let commandReg := pciReadDword config f 0x04 ||| (1 : UInt32) <<< 1 ||| (1 : UInt32) <<< 2
    let config := pciWriteDword config f 0x04 commandReg
    let irq := irqLine config f
    if irq = 0xff then
      let irqReg := (pciReadDword config f 0x3c &&& 0xffffff00) ||| 11
      let config := pciWriteDword config f 0x3c irqReg
      (pciInitSuccess, startDriver (vendor m.config f) 11 { m with config })
    else (pciInitSuccess, startDriver (vendor m.config f) irq { m with config })

/-- Bus by bus, slot by slot, function by function. -/
def scanOrder : List PciFunction :=
  (List.range 256).flatMap fun bus => (List.range 32).flatMap fun slot => (List.range 8).map fun func =>
    ⟨UInt8.ofNat bus, UInt8.ofNat slot, UInt8.ofNat func⟩

/-- The loops of `pci_scan_bus` with the functions `rest` before them. -/
def scanFunctions (m : Machine) : List PciFunction → Option (UInt16 × Machine)
  | [] => some (0, m)
  | f :: rest =>
    if vendor m.config f = 0xffff then scanFunctions m rest
    else if baseClass m.config f ≠ 0x02 ∨ subClass m.config f ≠ 0x00 then scanFunctions m rest
    else initController m f

def pciScanBus (m : Machine) : Option (UInt16 × Machine) := scanFunctions m scanOrder

/-! ## Lines -/

theorem irqBit_of_lt {irq : UInt8} (h : irq.toNat < 8) : irqBit irq = mask irq.toNat := by
  rw [← UInt8.ofNat_toNat (x := irq)]
  generalize irq.toNat = k at h
  interval_cases k <;> decide

/-- Interrupts on `irq` reach the processor: its mask bit is clear, and for the second controller
the bit of the cascade too. -/
def Machine.Unmasked (m : Machine) (irq : UInt8) : Prop :=
  if irq < 8 then bit m.pic1Data irq.toNat = false
  else bit m.pic2Data (irq.toNat - 8) = false ∧ bit m.pic1Data 2 = false

theorem bit_and_not_mask (b : UInt8) {k : ℕ} (hk : k < 8) : bit (b &&& ~~~mask k) k = false := by
  rw [bit_and, bit_not _ hk, bit_mask hk hk]
  simp

theorem unmasked_picUnmask {irq : UInt8} (h : irq < 16) (m : Machine) :
    (picUnmask irq m).Unmasked irq := by
  unfold Machine.Unmasked picUnmask
  have hirq : irq.toNat < 16 := h
  split_ifs with hlow
  · have hlow' : irq.toNat < 8 := hlow
    simp only [irqBit_of_lt hlow']
    exact bit_and_not_mask _ hlow'
  · have hlow' : ¬irq.toNat < 8 := hlow
    have hsub : (irq - 8).toNat = irq.toNat - 8 := UInt8.toNat_sub_of_le _ _ (not_lt.mp hlow')
    have hcascade : irqBit 2 = mask 2 := by decide
    simp only [irqBit_of_lt (hsub ▸ (by omega) : (irq - 8).toNat < 8), hsub, hcascade]
    exact ⟨bit_and_not_mask _ (by omega), bit_and_not_mask _ (by omega)⟩

end MathUnikernel.Pci
