import MathUnikernel.Pci

/-!
# What the bus scan leaves behind

`pci_scan_bus` stops at the first Ethernet controller it meets.  The network works afterwards when
that controller has a driver and its interrupt line can have a handler.
-/

namespace MathUnikernel.Pci
open ByteBitmap Loops

/-! ## The capability walk -/

/-- The list of every function that exists ends. -/
def AcyclicCapabilities (config : Config) : Prop :=
  ∀ f, vendor config f ≠ 0xffff → hasCapabilities config f = true →
    ∃ k, (nextPtr config f)^[k] (firstPtr config f) = 0

/-- The walk goes on from this pointer. -/
def goesOn (config : Config) (f : PciFunction) (capPtr : UInt8) : Bool :=
  capPtr != 0 && capId config f capPtr != 0x01

theorem walkCapabilities_of_end {config : Config} {f : PciFunction} {n : ℕ} (hn : n < 256)
    (hstop : goesOn config f ((nextPtr config f)^[n] (firstPtr config f)) = false)
    (hmore : ∀ k < n, goesOn config f ((nextPtr config f)^[k] (firstPtr config f)) = true) :
    walkCapabilities config f = some ((nextPtr config f)^[n] (firstPtr config f)) := by
  have hnext : ∀ k < n, nextPtr config f ((nextPtr config f)^[k] (firstPtr config f)) =
      (nextPtr config f)^[k + 1] (firstPtr config f) := fun k _ =>
    (Function.iterate_succ_apply' _ k _).symm
  obtain ⟨s, hs, -⟩ := @forLoop_rounds UInt8 Unit (goesOn config f) (nextPtr config f)
    (fun _ s => some s) (fun _ _ => True) n
    (fun k => (nextPtr config f)^[k] (firstPtr config f)) hmore hstop hnext
    (fun _ _ s _ => ⟨s, rfl, trivial⟩) () trivial 256 hn
  exact congrArg (Option.map Prod.fst) hs

/-- A walk that ends does so within 256 pointers. -/
theorem exists_walk_end {config : Config} {f : PciFunction}
    (h : ∃ k, goesOn config f ((nextPtr config f)^[k] (firstPtr config f)) = false) :
    ∃ n < 256, goesOn config f ((nextPtr config f)^[n] (firstPtr config f)) = false ∧
      ∀ k < n, goesOn config f ((nextPtr config f)^[k] (firstPtr config f)) = true := by
  have hend := exists_end_lt_card h
  rwa [← FinEnum.card_eq_fintypeCard, FinEnum.card_UInt8] at hend

theorem walkCapabilities_isSome {config : Config} {f : PciFunction}
    (h : ∃ k, (nextPtr config f)^[k] (firstPtr config f) = 0) :
    ∃ capPtr, walkCapabilities config f = some capPtr := by
  obtain ⟨n, hn, hstop, hmore⟩ := exists_walk_end (h.imp fun k hk => by rw [goesOn, hk]; rfl)
  exact ⟨_, walkCapabilities_of_end hn hstop hmore⟩

/-- The first power management capability of a function. -/
def powerCapability (config : Config) (f : PciFunction) : Option UInt8 :=
  if hasCapabilities config f then (walkCapabilities config f).filter (· != 0) else none

/-- The power state of the function is kept in the dword of its interrupt line. -/
def powerInLine (config : Config) (f : PciFunction) : Bool :=
  (powerCapability config f).any fun capPtr => (capPtr + 4) &&& 0xfc == 0x3c

theorem toNat_and_fc (b : UInt8) : (b &&& 0xfc).toNat = b.toNat / 4 * 4 := by
  have hb := b.toNat_lt
  rw [UInt8.toNat_and, show (0xfc : UInt8).toNat = (2 ^ 6 - 1) <<< 2 by rfl, and_field]
  omega

theorem toNat_and_three (b : UInt8) : (b &&& 0x03).toNat = b.toNat % 4 := by
  rw [UInt8.toNat_and, show (0x03 : UInt8).toNat = 2 ^ 2 - 1 by rfl, Nat.and_two_pow_sub_one_eq_mod]

theorem irqLine_eq (config : Config) (f : PciFunction) :
    irqLine config f = (pciReadDword config f 0x3c).toUInt8 := by
  rw [irqLine, UInt32.toUInt8_and]
  exact UInt8.and_neg_one

@[simp] theorem pciReadDword_write (config : Config) (f : PciFunction) (offset offset' : UInt8)
    (data : UInt32) : pciReadDword (pciWriteDword config f offset data) f offset' =
      if offset' &&& 0xfc = offset &&& 0xfc then data else pciReadDword config f offset' := by
  simp [pciReadDword, pciWriteDword, Function.update_apply]

theorem irqLine_write_of_ne (config : Config) (f : PciFunction) {offset : UInt8}
    (h : offset &&& 0xfc ≠ 0x3c) (data : UInt32) :
    irqLine (pciWriteDword config f offset data) f = irqLine config f := by
  rw [irqLine, irqLine, pciReadDword_write, if_neg (fun heq => h (heq.symm.trans rfl))]

theorem irqLine_wake (config : Config) (f : PciFunction) (capPtr : UInt8) :
    irqLine (let pmcsr := pciReadDword config f (capPtr + 4)
        if pmcsr &&& 0x03 ≠ 0 then pciWriteDword config f (capPtr + 4) (pmcsr &&& ~~~0x03)
        else config) f =
      if (capPtr + 4) &&& 0xfc == 0x3c then irqLine config f &&& 0xfc else irqLine config f := by
  dsimp only
  by_cases hoffset : (capPtr + 4) &&& 0xfc = 0x3c
  · have hsame : pciReadDword config f (capPtr + 4) = pciReadDword config f 0x3c := by
      rw [pciReadDword, hoffset]
      rfl
    rw [hsame, if_pos (beq_iff_eq.mpr hoffset)]
    by_cases hasleep : pciReadDword config f 0x3c &&& 0x03 ≠ 0
    · rw [if_pos hasleep, irqLine_eq, pciReadDword_write, if_pos (by rw [hoffset]; rfl),
        UInt32.toUInt8_and, irqLine_eq]
      rfl
    · rw [if_neg hasleep]
      have hlow : irqLine config f &&& 0x03 = 0 := by
        rw [irqLine_eq]
        exact (UInt32.toUInt8_and _ _).symm.trans (congrArg UInt32.toUInt8 (not_not.mp hasleep))
      have hmod := (toNat_and_three _).symm.trans (congrArg UInt8.toNat hlow)
      apply UInt8.toNat_inj.mp
      rw [toNat_and_fc]
      simp only [UInt8.toNat_zero] at hmod
      omega
  · have hother : ((capPtr + 4) &&& 0xfc == 0x3c) = false := beq_eq_false_iff_ne.mpr hoffset
    rw [hother, if_neg Bool.false_ne_true]
    split_ifs
    · exact irqLine_write_of_ne config f hoffset _
    · rfl

/-- Waking a device clears the low bits of its interrupt line when they are its power state. -/
theorem irqLine_pciWakeDevice {config : Config} {f : PciFunction}
    (h : hasCapabilities config f = true → ∃ k, (nextPtr config f)^[k] (firstPtr config f) = 0) :
    ∃ config', pciWakeDevice config f = some config' ∧ irqLine config' f =
      if powerInLine config f then irqLine config f &&& 0xfc else irqLine config f := by
  unfold pciWakeDevice powerInLine powerCapability
  by_cases hcaps : hasCapabilities config f = true
  · obtain ⟨capPtr, hwalk⟩ := walkCapabilities_isSome (h hcaps)
    rw [if_pos hcaps, if_pos hcaps, hwalk, Option.map_some]
    refine ⟨_, rfl, ?_⟩
    by_cases hzero : capPtr = 0
    · simp [hzero]
    · have hkept : (some capPtr).filter (· != 0) = some capPtr := by simp [hzero]
      rw [if_neg hzero, hkept, Option.any_some]
      exact irqLine_wake config f capPtr
  · rw [if_neg hcaps, if_neg hcaps]
    exact ⟨config, rfl, rfl⟩

/-! ## The controller at which the scan stops -/

def isEthernet (config : Config) (f : PciFunction) : Bool :=
  baseClass config f = 0x02 && subClass config f = 0x00

def firstController (config : Config) : Option PciFunction :=
  scanOrder.find? fun f => vendor config f ≠ 0xffff && isEthernet config f

theorem scanFunctions_eq (m : Machine) (fs : List PciFunction) : scanFunctions m fs =
    match fs.find? fun f => vendor m.config f ≠ 0xffff && isEthernet m.config f with
    | some f => initController m f
    | none => some (0, m) := by
  induction fs with
  | nil => rfl
  | cons f rest ih =>
    rw [scanFunctions, List.find?_cons]
    by_cases habsent : vendor m.config f = 0xffff
    · simp [habsent, ih]
    · by_cases hclass : baseClass m.config f ≠ 0x02 ∨ subClass m.config f ≠ 0x00
      · have hno : isEthernet m.config f = false := by
          simp only [isEthernet, Bool.and_eq_false_iff, decide_eq_false_iff_not]
          exact hclass
        simp [habsent, hclass, hno, ih]
      · have hyes : isEthernet m.config f = true := by
          simpa [isEthernet] using hclass
        simp [habsent, hclass, hyes]

/-- The interrupt line a controller is left with. -/
def finalLine (config : Config) (f : PciFunction) : UInt8 :=
  let woken := if powerInLine config f then irqLine config f &&& 0xfc else irqLine config f
  if woken = 0xff then 11 else woken

theorem initController_eq {m : Machine} {f : PciFunction}
    (h : hasCapabilities m.config f = true →
      ∃ k, (nextPtr m.config f)^[k] (firstPtr m.config f) = 0) :
    ∃ config, irqLine config f = finalLine m.config f ∧ initController m f =
      some (pciInitSuccess,
        startDriver (vendor m.config f) (finalLine m.config f) { m with config }) := by
  obtain ⟨config, hwake, hline⟩ := irqLine_pciWakeDevice h
  unfold initController finalLine
  rw [hwake, Option.map_some]
  dsimp only
  rw [← hline, irqLine_write_of_ne config f (by decide)]
  split_ifs with hlost
  · refine ⟨_, ?_, rfl⟩
    rw [irqLine_eq, pciReadDword_write, if_pos rfl, UInt32.toUInt8_or, UInt32.toUInt8_and]
    rw [show (0xffffff00 : UInt32).toUInt8 = 0 by rfl, UInt8.and_zero, UInt8.zero_or]
    rfl
  · exact ⟨_, irqLine_write_of_ne config f (by decide) _, rfl⟩

/-! ## Success and a working network -/

/-- The poll function and the handler of the driver for a vendor. -/
def driverOf (vendor : UInt16) : Option (PollFn × IrqHandler) :=
  if vendor = intelVendorId then some (.i219PollRx, .i219InterruptHandler)
  else if vendor = realtekVendorId then some (.rtl8139Poll, .rtl8139InterruptHandler)
  else none

theorem driverOf_absent : driverOf 0xffff = none := by decide

theorem startDriver_of_some {v : UInt16} {d : PollFn × IrqHandler} (h : driverOf v = some d)
    (irq : UInt8) (m : Machine) :
    startDriver v irq m = networkSetPollFn d.1 (registerIrqHandler irq d.2 (picUnmask irq m)) := by
  unfold driverOf at h
  unfold startDriver i219Init rtl8139Init
  split_ifs at h ⊢
  · cases h
    rfl
  · cases h
    rfl

theorem startDriver_of_none {v : UInt16} (h : driverOf v = none) (irq : UInt8) (m : Machine) :
    startDriver v irq m = m := by
  unfold driverOf at h
  unfold startDriver
  split_ifs at h ⊢
  rfl

/-- Frames reach the driver `d`, by polling and by the interrupt line that `f` has. -/
structure Connected (m : Machine) (f : PciFunction) (d : PollFn × IrqHandler) : Prop where
  poll : m.nicPoll = some d.1
  handler : m.irqHandlers (irqLine m.config f) = some d.2
  unmasked : m.Unmasked (irqLine m.config f)

theorem picUnmask_config (irq : UInt8) (m : Machine) : (picUnmask irq m).config = m.config := by
  unfold picUnmask
  split_ifs <;> rfl

theorem picUnmask_irqHandlers (irq : UInt8) (m : Machine) :
    (picUnmask irq m).irqHandlers = m.irqHandlers := by
  unfold picUnmask
  split_ifs <;> rfl

theorem connected_startDriver {v : UInt16} {d : PollFn × IrqHandler} (hd : driverOf v = some d)
    {irq : UInt8} (hirq : irq < 16) {m : Machine} {f : PciFunction}
    (hline : irqLine m.config f = irq) : Connected (startDriver v irq m) f d := by
  rw [startDriver_of_some hd, registerIrqHandler, if_pos hirq]
  have hleft : irqLine (picUnmask irq m).config f = irq := by rw [picUnmask_config, hline]
  constructor
  · rfl
  · exact (congrArg _ hleft).trans (Function.update_self irq _ _)
  · change Machine.Unmasked _ (irqLine (picUnmask irq m).config f)
    rw [hleft]
    exact unmasked_picUnmask hirq m

/-- A driver that has a poll function and a handler was started with a line below 16. -/
theorem lt_of_connected_startDriver {v : UInt16} {irq : UInt8} {m : Machine} {f : PciFunction}
    {d : PollFn × IrqHandler} (hpoll : m.nicPoll = none) (hnone : ∀ i, m.irqHandlers i = none)
    (h : Connected (startDriver v irq m) f d) : (driverOf v).isSome = true ∧ irq < 16 := by
  cases hv : driverOf v with
  | none =>
    have hset := h.poll
    rw [startDriver_of_none hv, hpoll] at hset
    exact absurd hset (by simp)
  | some d' =>
    refine ⟨rfl, ?_⟩
    by_contra hirq
    have hset := h.handler
    rw [startDriver_of_some hv, registerIrqHandler, if_neg hirq] at hset
    change (picUnmask irq m).irqHandlers _ = _ at hset
    rw [picUnmask_irqHandlers, hnone] at hset
    exact absurd hset (by simp)

/-- The scan succeeds exactly when there is an Ethernet controller with a driver, and then such a
controller is connected. -/
def Reports (config : Config) (result : Option (UInt16 × Machine)) : Prop :=
  ∃ r m, result = some (r, m) ∧
    (r = pciInitSuccess ↔
      ∃ f ∈ scanOrder, isEthernet config f = true ∧ (driverOf (vendor config f)).isSome = true) ∧
    (r = pciInitSuccess → ∃ f ∈ scanOrder, ∃ d, isEthernet config f = true ∧
      driverOf (vendor config f) = some d ∧ Connected m f d)

/-- The vendor has a driver and the interrupt line can have a handler, or is missing for good. -/
def Serviceable (config : Config) (f : PciFunction) : Prop :=
  (driverOf (vendor config f)).isSome = true ∧
    (irqLine config f < 16 ∨ irqLine config f = 0xff ∧ powerInLine config f = false)

theorem finalLine_lt_iff (config : Config) (f : PciFunction) : finalLine config f < 16 ↔
    irqLine config f < 16 ∨ irqLine config f = 0xff ∧ powerInLine config f = false := by
  unfold finalLine
  cases hpower : powerInLine config f with
  | false =>
    simp only [Bool.false_eq_true, if_false, and_true]
    by_cases hlost : irqLine config f = 0xff
    · simp [hlost]
    · rw [if_neg hlost]
      exact ⟨.inl, fun h => h.resolve_right hlost⟩
  | true =>
    have hfc := toNat_and_fc (irqLine config f)
    have hnever : irqLine config f &&& 0xfc ≠ 0xff := by
      intro h
      rw [h, show (0xff : UInt8).toNat = 255 by rfl] at hfc
      omega
    simp only [if_true, if_neg hnever, Bool.true_eq_false, and_false, or_false,
      UInt8.lt_iff_toNat_lt, hfc, show (16 : UInt8).toNat = 16 by rfl]
    omega

section Reports
variable {config : Config} (hcaps : AcyclicCapabilities config) (pic1Data pic2Data : UInt8)
include hcaps

theorem pciScanBus_of_first {f : PciFunction} (hfirst : firstController config = some f) :
    ∃ config', irqLine config' f = finalLine config f ∧
      pciScanBus (.boot config pic1Data pic2Data) = some (pciInitSuccess,
        startDriver (vendor config f) (finalLine config f) (.boot config' pic1Data pic2Data)) := by
  have hstop : vendor config f ≠ 0xffff ∧ isEthernet config f = true := by
    simpa using List.find?_some hfirst
  obtain ⟨config', hline, hinit⟩ := @initController_eq (.boot config pic1Data pic2Data) f
    (hcaps f hstop.1)
  refine ⟨config', hline, ?_⟩
  unfold firstController at hfirst
  rw [pciScanBus, scanFunctions_eq]
  change (match scanOrder.find? fun f => vendor config f ≠ 0xffff && isEthernet config f with
    | some f => initController _ f | none => _) = _
  rw [hfirst]
  exact hinit

theorem serviceable_of_reports (h : Reports config (pciScanBus (.boot config pic1Data pic2Data)))
    {f : PciFunction} (hfirst : firstController config = some f) : Serviceable config f := by
  obtain ⟨config', -, hscan⟩ := pciScanBus_of_first hcaps pic1Data pic2Data hfirst
  obtain ⟨r, m, hres, -, hworks⟩ := h
  obtain ⟨rfl, rfl⟩ := Prod.mk.inj (Option.some.inj (hscan.symm.trans hres))
  obtain ⟨g, -, d, -, -, hconnected⟩ := hworks rfl
  obtain ⟨hdriver, hlt⟩ := lt_of_connected_startDriver rfl (fun _ => rfl) hconnected
  exact ⟨hdriver, (finalLine_lt_iff config f).mp hlt⟩

theorem reports_of_serviceable (h : ∀ f, firstController config = some f → Serviceable config f) :
    Reports config (pciScanBus (.boot config pic1Data pic2Data)) := by
  cases hfirst : firstController config with
  | none =>
    have hnone : ¬∃ f ∈ scanOrder,
        isEthernet config f = true ∧ (driverOf (vendor config f)).isSome = true := by
      rintro ⟨f, hf, heth, hdriver⟩
      have hexists : vendor config f ≠ 0xffff := by
        intro habsent
        rw [habsent, driverOf_absent] at hdriver
        exact Bool.false_ne_true hdriver
      have hstop := List.find?_eq_none.mp hfirst f hf
      simp [heth, hexists] at hstop
    have hfail : (0 : UInt16) ≠ pciInitSuccess := by decide
    unfold firstController at hfirst
    refine ⟨0, .boot config pic1Data pic2Data, ?_, iff_of_false hfail hnone,
      fun h => absurd h hfail⟩
    rw [pciScanBus, scanFunctions_eq]
    change (match scanOrder.find? fun f => vendor config f ≠ 0xffff && isEthernet config f with
      | some f => initController _ f | none => _) = _
    rw [hfirst]
  | some f =>
    have hmem : f ∈ scanOrder := List.mem_of_find?_eq_some hfirst
    have hstop : vendor config f ≠ 0xffff ∧ isEthernet config f = true := by
      simpa using List.find?_some hfirst
    obtain ⟨config', hline, hscan⟩ := pciScanBus_of_first hcaps pic1Data pic2Data hfirst
    obtain ⟨hdriver, hserviceable⟩ := h f hfirst
    obtain ⟨d, hd⟩ := Option.isSome_iff_exists.mp hdriver
    have hlt := (finalLine_lt_iff config f).mpr hserviceable
    refine ⟨_, _, hscan, iff_of_true rfl ⟨f, hmem, hstop.2, hdriver⟩, fun _ => ?_⟩
    exact ⟨f, hmem, d, hstop.2, hd, connected_startDriver hd hlt hline⟩

/-- The scan is right about the network exactly when the first Ethernet controller can be
serviced. -/
theorem reports_pciScanBus_iff : Reports config (pciScanBus (.boot config pic1Data pic2Data)) ↔
    ∀ f, firstController config = some f → Serviceable config f :=
  ⟨fun h _ hfirst => serviceable_of_reports hcaps pic1Data pic2Data h hfirst,
    reports_of_serviceable hcaps pic1Data pic2Data⟩

end Reports

/-! ## A machine with one card -/

def card : PciFunction := ⟨0, 31, 6⟩

/-- An Ethernet controller at 0:31.6 without capabilities, and nothing else. -/
def oneCard (vendorId : UInt16) (line : UInt8) : Config := fun f offset =>
  if f = card then
    if offset = 0x00 then vendorId.toUInt32
    else if offset = 0x08 then 0x02000000
    else if offset = 0x3c then line.toUInt32
    else 0
  else 0xffffffff

theorem card_mem_scanOrder : card ∈ scanOrder := by
  simp only [scanOrder, List.mem_flatMap, List.mem_range, List.mem_map]
  exact ⟨0, by decide, 31, by decide, 6, by decide, rfl⟩

theorem eq_card_of_present {vendorId : UInt16} {line : UInt8} {f : PciFunction}
    (h : vendor (oneCard vendorId line) f ≠ 0xffff) : f = card := by
  by_contra hne
  apply h
  simp only [vendor, pciReadDword, oneCard, if_neg hne]
  rfl

theorem read_oneCard (vendorId : UInt16) (line offset : UInt8) :
    pciReadDword (oneCard vendorId line) card offset =
      if offset &&& 0xfc = 0x00 then vendorId.toUInt32
      else if offset &&& 0xfc = 0x08 then 0x02000000
      else if offset &&& 0xfc = 0x3c then line.toUInt32
      else 0 := by
  rw [pciReadDword, oneCard, if_pos rfl]

theorem acyclic_oneCard (vendorId : UInt16) (line : UInt8) :
    AcyclicCapabilities (oneCard vendorId line) := by
  intro f hf hcaps
  have hstatus : pciReadDword (oneCard vendorId line) card 0x04 = 0 := by
    simp [read_oneCard, show (0x04 : UInt8) &&& 0xfc = 0x04 by decide]
  rw [eq_card_of_present hf, hasCapabilities, hstatus] at hcaps
  exact absurd hcaps (by decide)

theorem firstController_oneCard {vendorId : UInt16} {line : UInt8}
    (h : vendor (oneCard vendorId line) card ≠ 0xffff) :
    firstController (oneCard vendorId line) = some card := by
  cases hfirst : firstController (oneCard vendorId line) with
  | none =>
    have heth : isEthernet (oneCard vendorId line) card = true := by
      have hclass : pciReadDword (oneCard vendorId line) card 0x08 = 0x02000000 := by
        simp [read_oneCard, show (0x08 : UInt8) &&& 0xfc = 0x08 by decide]
      rw [isEthernet, baseClass, subClass, hclass]
      decide
    have hstop := List.find?_eq_none.mp hfirst card card_mem_scanOrder
    simp [h, heth] at hstop
  | some f =>
    have hstop := List.find?_some hfirst
    have hexists : vendor (oneCard vendorId line) f ≠ 0xffff := by
      simpa using (Bool.and_eq_true_iff.mp hstop).1
    rw [eq_card_of_present hexists]

/-- A Broadcom card makes the scan succeed without a driver. -/
theorem not_reports_oneCard : ¬∀ (config : Config) (pic1Data pic2Data : UInt8),
    AcyclicCapabilities config → Reports config (pciScanBus (.boot config pic1Data pic2Data)) := by
  intro h
  have hcaps := acyclic_oneCard 0x14e4 11
  have hfirst : firstController (oneCard 0x14e4 11) = some card :=
    firstController_oneCard (by decide)
  have hdriver := (serviceable_of_reports hcaps 0xff 0xff (h _ 0xff 0xff hcaps) hfirst).1
  exact absurd hdriver (by decide)

theorem reports_oneCard :
    Reports (oneCard 0x8086 11) (pciScanBus (.boot (oneCard 0x8086 11) 0xff 0xff)) := by
  apply (reports_pciScanBus_iff (acyclic_oneCard 0x8086 11) 0xff 0xff).mpr
  intro f hfirst
  have hcard : firstController (oneCard 0x8086 11) = some card :=
    firstController_oneCard (by decide)
  obtain rfl : card = f := Option.some.inj (hcard.symm.trans hfirst)
  exact ⟨by decide, .inl (by decide)⟩

end MathUnikernel.Pci
