import MathUnikernel.PciScan

/-!
# The bus scan through its ports

`pci.c` down to its port accesses: the address register at `0xcf8`, the data register at `0xcfc`, and
the host bridge that puts a configuration space behind them.
-/

namespace MathUnikernel.Pci

/-! ## The host bridge -/

def pciConfigAddress : UInt16 := 0xcf8
def pciConfigData : UInt16 := 0xcfc

/-- The machine with the address register of its host bridge. -/
structure Bridge extends Machine where
  address : UInt32

/-- The function and the offset that an address names.  Bit 31 enables it, the bits below the bus
and the two lowest are not decoded. -/
def decode (address : UInt32) : Option (PciFunction × UInt8) :=
  if address &&& 0x80000000 = 0 then none
  else
    some (⟨(address >>> 16).toUInt8, (address >>> 11 &&& 0x1f).toUInt8,
      (address >>> 8 &&& 0x07).toUInt8⟩, (address &&& 0xfc).toUInt8)

/-- The effects of the ports of the bridge.  `none` stands for a program that does not end. -/
abbrev PortM := StateT Bridge Option

def outl (port : UInt16) (val : UInt32) : PortM Unit :=
  modify fun b =>
    if port = pciConfigAddress then { b with address := val }
    else if port = pciConfigData then
      match decode b.address with
      | some (f, offset) =>
        { b with config := Function.update b.config f (Function.update (b.config f) offset val) }
      | none => b
    else b

/-- A port where nothing answers reads as ones. -/
def inl (port : UInt16) : PortM UInt32 := do
  let b ← get
  if port = pciConfigAddress then return b.address
  else if port = pciConfigData then
    match decode b.address with
    | some (f, offset) => return b.config f offset
    | none => return 0xffffffff
  else return 0xffffffff

/-! ## The functions of `pci.c` -/

namespace Ports

/-- What both accesses put in the address register. -/
def configAddress (f : PciFunction) (offset : UInt8) : UInt32 :=
  let lbus := f.bus.toUInt32
  let lslot := f.slot.toUInt32
  let lfunc := f.func.toUInt32
  lbus <<< 16 ||| lslot <<< 11 ||| lfunc <<< 8 ||| (offset &&& 0xfc).toUInt32 ||| 0x80000000

def pciReadDword (f : PciFunction) (offset : UInt8) : PortM UInt32 := do
  outl pciConfigAddress (configAddress f offset)
  inl pciConfigData

def pciWriteDword (f : PciFunction) (offset : UInt8) (data : UInt32) : PortM Unit := do
  outl pciConfigAddress (configAddress f offset)
  outl pciConfigData data

/-- The `while` of `pci_wake_device`. -/
def walkCapabilities (f : PciFunction) : ℕ → UInt8 → PortM Unit
  | 0, _ => failure
  | fuel + 1, capPtr => do
    if capPtr ≠ 0 then
      let capHeader ← pciReadDword f capPtr
      let capId := (capHeader &&& 0xff).toUInt8
      let nextPtr := ((capHeader >>> 8) &&& 0xff).toUInt8
      if capId = 0x01 then
        let pmcsr ← pciReadDword f (capPtr + 4)
        if pmcsr &&& 0x03 ≠ 0 then
          pciWriteDword f (capPtr + 4) (pmcsr &&& ~~~0x03)
      else
        walkCapabilities f fuel nextPtr

def pciWakeDevice (f : PciFunction) : PortM Unit := do
  let reg1 ← pciReadDword f 0x04
  let status : UInt16 := ((reg1 >>> 16) &&& 0xffff).toUInt16
  if status &&& (1 : UInt16) <<< 4 != 0 then
    let reg13 ← pciReadDword f 0x34
    walkCapabilities f 256 (reg13 &&& 0xff).toUInt8

/-- The controller at which the scan stops: from `bar0` to the `return`. -/
def initController (f : PciFunction) (vendor : UInt16) : PortM UInt16 := do
  -- the drivers get `bar0`; what they program behind it is not configuration space
  let _ ← pciReadDword f 0x10
  pciWakeDevice f
  let commandReg ← pciReadDword f 0x04
  pciWriteDword f 0x04 (commandReg ||| (1 : UInt32) <<< 1 ||| (1 : UInt32) <<< 2)
  let reg15 ← pciReadDword f 0x3c
  let irqLine := (reg15 &&& 0xff).toUInt8
  if irqLine = 0xff then
    let irqReg ← pciReadDword f 0x3c
    pciWriteDword f 0x3c ((irqReg &&& 0xffffff00) ||| 11)
    modify fun b => { b with toMachine := startDriver vendor 11 b.toMachine }
  else
    modify fun b => { b with toMachine := startDriver vendor irqLine b.toMachine }
  return pciInitSuccess

def scanFunctions : List PciFunction → PortM UInt16
  | [] => return 0
  | f :: rest => do
    let reg0 ← pciReadDword f 0
    let vendor := (reg0 &&& 0xffff).toUInt16
    if vendor = 0xffff then scanFunctions rest
    else
      let reg3 ← pciReadDword f 0x08
      let baseClass := ((reg3 >>> 24) &&& 0xff).toUInt8
      let subClass := ((reg3 >>> 16) &&& 0xff).toUInt8
      if baseClass ≠ 0x02 ∨ subClass ≠ 0x00 then scanFunctions rest
      else initController f vendor

def pciScanBus : PortM UInt16 := scanFunctions scanOrder

end Ports

/-! ## Addresses -/

/-- A slot has five bits of an address, a function number three. -/
def Addressable (f : PciFunction) : Prop := f.slot < 32 ∧ f.func < 8

theorem high_bits {b : UInt8} {k : ℕ} (h : b.toNat < 2 ^ k) (i : ℕ) (hi : i < 8) (hk : k ≤ i) :
    b.toBitVec[i] = false := by
  rw [BitVec.getElem_eq_testBit_toNat]
  apply Nat.testBit_lt_two_pow
  exact h.trans_le (Nat.pow_le_pow_right (by decide) hk)

section
variable {f : PciFunction} {offset : UInt8}

theorem enabled_configAddress : Ports.configAddress f offset &&& 0x80000000 ≠ 0 := by
  intro h
  have hbit := congrArg (fun w : UInt32 => w.toBitVec[31]) h
  simp [Ports.configAddress] at hbit

/-- The fields do not run into each other. -/
theorem decode_configAddress (hf : Addressable f) :
    decode (Ports.configAddress f offset) = some (f, offset &&& 0xfc) := by
  have hslot := @high_bits f.slot 5 hf.1
  have hfunc := @high_bits f.func 3 hf.2
  rw [decode, if_neg enabled_configAddress]
  congr 2
  · congr 1
    all_goals
      apply UInt8.eq_of_toBitVec_eq
      apply BitVec.eq_of_getElem_eq
      intro i hi
      interval_cases i <;> simp [Ports.configAddress, hslot, hfunc]
  · apply UInt8.eq_of_toBitVec_eq
    apply BitVec.eq_of_getElem_eq
    intro i hi
    interval_cases i <;> simp [Ports.configAddress]

theorem addressable_of_decode {address : UInt32} (h : decode address = some (f, offset)) :
    Addressable f := by
  rw [decode] at h
  split_ifs at h
  obtain ⟨rfl, -⟩ := Prod.mk.inj (Option.some.inj h)
  constructor <;>
  · rw [UInt8.lt_iff_toNat_lt, UInt32.toNat_toUInt8, UInt32.toNat_and]
    exact (Nat.mod_le _ _).trans_lt (Nat.and_le_right.trans_lt (by decide))

theorem mem_scanOrder : f ∈ scanOrder ↔ Addressable f := by
  simp only [scanOrder, List.mem_flatMap, List.mem_range, List.mem_map]
  constructor
  · rintro ⟨bus, hbus, slot, hslot, func, hfunc, rfl⟩
    constructor
    · rw [UInt8.lt_iff_toNat_lt, UInt8.toNat_ofNat_of_lt' (hslot.trans (by decide))]
      exact hslot
    · rw [UInt8.lt_iff_toNat_lt, UInt8.toNat_ofNat_of_lt' (hfunc.trans (by decide))]
      exact hfunc
  · intro hf
    refine ⟨f.bus.toNat, f.bus.toNat_lt, f.slot.toNat, hf.1, f.func.toNat, hf.2, ?_⟩
    simp only [UInt8.ofNat_toNat]

/-- No function is scanned twice. -/
theorem nodup_scanOrder : scanOrder.Nodup := by
  have hinj : ∀ {m k n : ℕ}, m ≤ 256 → k ∈ List.range m → n ∈ List.range m →
      UInt8.ofNat k = UInt8.ofNat n → k = n := by
    intro m k n hm hk hn h
    have hkn := congrArg UInt8.toNat h
    rwa [UInt8.toNat_ofNat_of_lt' ((List.mem_range.mp hk).trans_le hm),
      UInt8.toNat_ofNat_of_lt' ((List.mem_range.mp hn).trans_le hm)] at hkn
  rw [scanOrder, List.nodup_flatMap]
  constructor
  · intro bus _
    rw [List.nodup_flatMap]
    constructor
    · intro slot _
      apply List.Nodup.map_on _ List.nodup_range
      intro k hk n hn h
      exact hinj (by decide) hk hn (congrArg PciFunction.func h)
    · apply List.Pairwise.imp_of_mem _ List.nodup_range
      intro k n hk hn hne f hfk hfn
      obtain ⟨_, -, rfl⟩ := List.mem_map.mp hfk
      obtain ⟨_, -, hsame⟩ := List.mem_map.mp hfn
      exact hne (hinj (by decide) hk hn (congrArg PciFunction.slot hsame).symm)
  · apply List.Pairwise.imp_of_mem _ List.nodup_range
    intro k n hk hn hne f hfk hfn
    obtain ⟨_, -, hfk⟩ := List.mem_flatMap.mp hfk
    obtain ⟨_, -, rfl⟩ := List.mem_map.mp hfk
    obtain ⟨_, -, hfn⟩ := List.mem_flatMap.mp hfn
    obtain ⟨_, -, hsame⟩ := List.mem_map.mp hfn
    exact hne (hinj le_rfl hk hn (congrArg PciFunction.bus hsame).symm)

/-- The functions scanned are those an address can name. -/
theorem mem_scanOrder_iff_decode :
    f ∈ scanOrder ↔ ∀ offset, decode (Ports.configAddress f offset) = some (f, offset &&& 0xfc) :=
  mem_scanOrder.trans
    ⟨fun hf _ => decode_configAddress hf, fun h => addressable_of_decode (h 0)⟩

end

/-! ## Accesses -/

section
variable {f : PciFunction} (hf : Addressable f) (offset : UInt8) (b : Bridge)
include hf

theorem run_pciReadDword : (Ports.pciReadDword f offset).run b =
    some (pciReadDword b.config f offset, { b with address := Ports.configAddress f offset }) := by
  simp [Ports.pciReadDword, outl, inl, decode_configAddress hf, pciConfigAddress, pciConfigData,
    pciReadDword]

theorem run_pciWriteDword (data : UInt32) : (Ports.pciWriteDword f offset data).run b =
    some ((), { b with
      config := pciWriteDword b.config f offset data
      address := Ports.configAddress f offset }) := by
  simp [Ports.pciWriteDword, outl, decode_configAddress hf, pciConfigAddress, pciConfigData,
    pciWriteDword]

/-! ## The scan -/

/-- The walk writes what the walk over the space writes, whatever the address register is left at. -/
theorem run_walkCapabilities (fuel : ℕ) (capPtr : UInt8) :
    ∃ address, (Ports.walkCapabilities f fuel capPtr).run b =
      (Loops.forLoop (goesOn b.config f) (nextPtr b.config f) (fun _ s => some s) fuel capPtr ()).map
        fun stop => ((), { b with
          config :=
            if stop.1 = 0 then b.config
            else
              let pmcsr := pciReadDword b.config f (stop.1 + 4)
              if pmcsr &&& 0x03 ≠ 0 then pciWriteDword b.config f (stop.1 + 4) (pmcsr &&& ~~~0x03)
              else b.config
          address }) := by
  induction fuel generalizing capPtr b with
  | zero => exact ⟨b.address, rfl⟩
  | succ fuel ih =>
    rw [Ports.walkCapabilities, Loops.forLoop]
    -- the end of the list, the capability it looks for, or any other
    by_cases hzero : capPtr = 0
    · refine ⟨b.address, ?_⟩
      simp [hzero, goesOn]
    by_cases hid : capId b.config f capPtr = 0x01
    · refine ⟨Ports.configAddress f (capPtr + 4), ?_⟩
      have hstop : goesOn b.config f capPtr = false := by simp [goesOn, hid]
      have hhead : (pciReadDword b.config f capPtr &&& 0xff).toUInt8 = 0x01 := hid
      simp only [ne_eq, hzero, not_false_eq_true, if_true, StateT.run_bind, run_pciReadDword hf,
        Option.bind_eq_bind, Option.bind_some, hhead, hstop, Bool.false_eq_true, if_false,
        Option.map_some]
      by_cases hpower : pciReadDword b.config f (capPtr + 4) &&& 0x03 = 0
      · simp [hpower]
      · simp [hpower, run_pciWriteDword hf]
    · obtain ⟨address, hrun⟩ := ih { b with address := Ports.configAddress f capPtr }
        (nextPtr b.config f capPtr)
      refine ⟨address, ?_⟩
      have hgo : goesOn b.config f capPtr = true := by simp [goesOn, hzero, hid]
      have hhead : (pciReadDword b.config f capPtr &&& 0xff).toUInt8 ≠ 0x01 := hid
      simp only [ne_eq, hzero, not_false_eq_true, if_true, StateT.run_bind, run_pciReadDword hf,
        Option.bind_eq_bind, Option.bind_some, hhead, hgo, if_false]
      exact hrun

theorem run_pciWakeDevice : ∃ address, (Ports.pciWakeDevice f).run b =
    (pciWakeDevice b.config f).map fun config => ((), { b with config, address }) := by
  by_cases hcaps : hasCapabilities b.config f = true
  · obtain ⟨address, hrun⟩ := run_walkCapabilities hf
      { b with address := Ports.configAddress f 0x34 } 256 (firstPtr b.config f)
    refine ⟨address, ?_⟩
    have hstatus : ((pciReadDword b.config f 0x04 >>> 16) &&& 0xffff).toUInt16 &&&
        (1 : UInt16) <<< 4 != 0 := hcaps
    simp only [Ports.pciWakeDevice, StateT.run_bind, run_pciReadDword hf, Option.bind_eq_bind,
      Option.bind_some, hstatus, if_true]
    refine hrun.trans ?_
    rw [pciWakeDevice, if_pos hcaps, walkCapabilities, Option.map_map, Option.map_map]
    rfl
  · refine ⟨Ports.configAddress f 0x04, ?_⟩
    have hstatus : ¬((pciReadDword b.config f 0x04 >>> 16) &&& 0xffff).toUInt16 &&&
        (1 : UInt16) <<< 4 != 0 := hcaps
    simp only [Ports.pciWakeDevice, StateT.run_bind, run_pciReadDword hf, Option.bind_eq_bind,
      Option.bind_some, hstatus, pciWakeDevice, hcaps]
    rfl

theorem run_initController : ∃ address, (Ports.initController f (vendor b.config f)).run b =
    (initController b.toMachine f).map fun r => (r.1, { r.2 with address }) := by
  -- the read of `bar0` leaves its address in the register
  obtain ⟨address, hwake⟩ := run_pciWakeDevice hf { b with address := Ports.configAddress f 0x10 }
  rw [Ports.initController, initController]
  simp only [StateT.run_bind, run_pciReadDword hf, Option.bind_eq_bind, Option.bind_some, hwake]
  cases pciWakeDevice b.config f with
  | none => exact ⟨address, rfl⟩
  | some config =>
    -- with or without a new line, the last access is to its dword
    refine ⟨Ports.configAddress f 0x3c, ?_⟩
    simp only [Option.map_some, Option.bind_some, run_pciWriteDword hf]
    by_cases hline : irqLine (pciWriteDword config f 0x04
        (pciReadDword config f 0x04 ||| (1 : UInt32) <<< 1 ||| (1 : UInt32) <<< 2)) f = 0xff
    · have hbyte := hline
      rw [irqLine] at hbyte
      simp only [hbyte, hline, if_true, StateT.run_bind, run_pciReadDword hf, run_pciWriteDword hf,
        Option.bind_eq_bind, Option.bind_some]
      rfl
    · have hbyte := hline
      rw [irqLine] at hbyte
      simp only [hbyte, hline, if_false]
      rfl

end

/-- Function by function the scan does what the scan over the space does. -/
theorem run_scanFunctions {fs : List PciFunction} (hfs : ∀ f ∈ fs, Addressable f) (b : Bridge) :
    ∃ address, (Ports.scanFunctions fs).run b =
      (scanFunctions b.toMachine fs).map fun r => (r.1, { r.2 with address }) := by
  induction fs generalizing b with
  | nil => exact ⟨b.address, rfl⟩
  | cons f rest ih =>
    have hf := hfs f (List.mem_cons_self ..)
    have hrest := fun f hf => hfs f (List.mem_cons_of_mem _ hf)
    rw [Ports.scanFunctions, scanFunctions]
    simp only [StateT.run_bind, run_pciReadDword hf, Option.bind_eq_bind, Option.bind_some]
    by_cases habsent : vendor b.config f = 0xffff
    · have hword := habsent
      rw [vendor] at hword
      simp only [hword, habsent, if_true]
      exact ih hrest _
    have hword := habsent
    rw [vendor] at hword
    simp only [hword, habsent, if_false, StateT.run_bind, run_pciReadDword hf, Option.bind_eq_bind,
      Option.bind_some]
    by_cases hclass : baseClass b.config f ≠ 0x02 ∨ subClass b.config f ≠ 0x00
    · have hbytes := hclass
      rw [baseClass, subClass] at hbytes
      simp only [hbytes, hclass, if_true]
      exact ih hrest _
    · have hbytes := hclass
      rw [baseClass, subClass] at hbytes
      simp only [hbytes, hclass, if_false]
      exact run_initController hf { b with address := Ports.configAddress f 0x08 }

/-- The functions scanned are those that an address can name, each once.  From any content of the
address register the scan through the ports returns what the scan over the space returns, and leaves
the space, the masks, the handlers and the poll function as that does. -/
theorem scan_through_ports :
    (∀ f, f ∈ scanOrder ↔
      ∀ offset, decode (Ports.configAddress f offset) = some (f, offset &&& 0xfc)) ∧
    scanOrder.Nodup ∧
    ∀ b : Bridge, (Ports.pciScanBus.run b).map (fun r => (r.1, r.2.toMachine)) =
      pciScanBus b.toMachine := by
  refine ⟨fun f => mem_scanOrder_iff_decode, nodup_scanOrder, fun b => ?_⟩
  obtain ⟨address, hrun⟩ := run_scanFunctions (fun f hf => mem_scanOrder.mp hf) b
  rw [Ports.pciScanBus, hrun, Option.map_map, pciScanBus]
  exact congrFun Option.map_id _

end MathUnikernel.Pci
