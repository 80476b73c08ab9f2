import MathUnikernel.PciPorts
import MathUnikernel.PicDelivery

/-!
# From the bus to the handler

The card that `pci_scan_bus` stops at, and the requests of its line in the runs of the interrupt
controllers.
-/

namespace MathUnikernel.Pic
open ByteBitmap Pci Runs

/-! ## Masks over runs -/

/-- A bit that is clear stays clear. -/
theorem bit_and_of_clear {b : UInt8} {k : ℕ} (h : bit b k = false) (c : UInt8) :
    bit (b &&& c) k = false := by
  rw [bit_and, h, Bool.false_and]

/-- `pic_unmask` of any line leaves an enabled line enabled. -/
theorem Pair.Enabled.picUnmask {p : Pair} (hready : p.Ready 32 40) {n : Irq} (h : p.Enabled n)
    (irq : UInt8) : (Pic.picUnmask irq p).Enabled n := by
  have hmasks := (picUnmask_eq hready irq (Machine.boot (fun _ _ => 0) 0 0)).1
  have hmask1 := congrArg Machine.pic1Data hmasks
  have hmask2 := congrArg Machine.pic2Data hmasks
  have hclear1 : ∀ i, bit p.pic1.imr i = false → bit (Pic.picUnmask irq p).pic1.imr i = false := by
    intro i hi
    change (Pic.picUnmask irq p).pic1.imr = _ at hmask1
    rw [hmask1, Pci.picUnmask]
    split_ifs <;> exact bit_and_of_clear hi _
  have hclear2 : ∀ i, bit p.pic2.imr i = false → bit (Pic.picUnmask irq p).pic2.imr i = false := by
    intro i hi
    change (Pic.picUnmask irq p).pic2.imr = _ at hmask2
    rw [hmask2, Pci.picUnmask]
    split_ifs
    · exact hi
    · exact bit_and_of_clear hi _
  unfold Pair.Enabled Controller.enabled at h ⊢
  split_ifs at h ⊢
  · rw [Bool.not_eq_true'] at h ⊢
    exact hclear1 _ h
  · rw [Bool.not_eq_true', Bool.not_eq_true'] at h ⊢
    exact ⟨hclear2 _ h.1, hclear1 _ h.2⟩

/-- After `pic_remap` only `pic_unmask` changes how the controllers are set up. -/
theorem setup_step {s t : System} {e : Event} (h : Serviced s) (hout : s.Remapped)
    (hstep : Step s e t) :
    SameSetup t.pics s.pics ∨ ∃ irq, t.pics = Pic.picUnmask irq s.pics := by
  cases hstep with
  | request _ _ => exact .inl (sameSetup_setLevels _ (fun l => l.request _) _)
  | cascade _ _ => exact .inl (sameSetup_setLevels 2 (fun l => l.request _) _)
  | withdraw _ _ => exact .inl (sameSetup_setLevels _ (fun l => l.withdraw _) _)
  | write hpc => exact absurd hpc (hout _)
  | remapped _ | sti _ | cli _ | call _ | iret _ => exact .inl (SameSetup.refl _)
  | unmask irq _ => exact .inr ⟨irq, rfl⟩
  | interrupt _ _ hack =>
    have hsame := sameSetup_acknowledge s.pics
    rw [hack] at hsame
    exact .inl hsame
  | eoi hpc => exact .inl (requested_eoi s.pics (h.due _ (by simp [hpc, Pc.due]))).2.2

/-- A line that was unmasked once is never masked again. -/
theorem enabled_of_run {p : Pair} {s t : System} {tr : List (System × Event × System)} {n : Irq}
    (hs : Inv p s) (hout : s.Remapped) (hen : s.pics.Enabled n) (hrun : Run Step s tr t) :
    Inv p t ∧ t.Remapped ∧ t.pics.Enabled n := by
  apply (hrun.invariant (I := fun u => Inv p u ∧ u.Remapped ∧ u.pics.Enabled n) ⟨hs, hout, hen⟩
    _).1
  rintro u e v ⟨hu, hrem, henabled⟩ hstep
  have hserviced := hu.serviced hrem
  refine ⟨hu.step hstep, hrem.step hstep, ?_⟩
  rcases setup_step hserviced hrem hstep with hsame | ⟨irq, hunmask⟩
  · exact henabled.congr hsame
  · rw [hunmask]
    exact henabled.picUnmask hserviced.ready irq

/-! ## The card -/

section
variable {config : Config} {f : PciFunction} {d : PollFn × IrqHandler} {n : Irq}

/-- The state that the scan leaves, from the masks of the controllers and with no handler before. -/
theorem scan_connects (hcaps : AcyclicCapabilities config)
    (hfirst : firstController config = some f) (hd : driverOf (vendor config f) = some d)
    (hline : finalLine config f = UInt8.ofNat n) {p : Pair} (hready : p.Ready 32 40)
    (address : UInt32) :
    ∃ b, Ports.pciScanBus.run ⟨.boot config p.pic1.imr p.pic2.imr, address⟩ =
        some (pciInitSuccess, b) ∧
      b.nicPoll = some d.1 ∧ b.irqHandlers (UInt8.ofNat n) = some d.2 ∧
      b.pic1Data = (Pic.picUnmask (UInt8.ofNat n) p).pic1.imr ∧
      b.pic2Data = (Pic.picUnmask (UInt8.ofNat n) p).pic2.imr := by
  obtain ⟨config', hline', hscan⟩ := pciScanBus_of_first hcaps p.pic1.imr p.pic2.imr hfirst
  obtain ⟨address', hrun⟩ := run_scanFunctions (fun f hf => mem_scanOrder.mp hf)
    ⟨.boot config p.pic1.imr p.pic2.imr, address⟩
  rw [hline, startDriver_of_some hd, registerIrqHandler, if_pos (ofNat_lt n)] at hscan
  refine ⟨_, hrun.trans (congrArg (Option.map _) hscan), rfl, Function.update_self _ _ _, ?_, ?_⟩
  all_goals
    have hmasks := (picUnmask_eq hready (UInt8.ofNat n) (.boot config' p.pic1.imr p.pic2.imr)).1
  · exact (congrArg Machine.pic1Data hmasks).symm
  · exact (congrArg Machine.pic2Data hmasks).symm

/-- The scan stops at a card with a driver and a usable line.  It leaves the poll function and the
handler of that driver, and the line unmasked.  In every run from there on the line stays so, and a
request of it is served: once the devices leave the lines as they are, the kernel and the controllers
can always go on until the handler is called, and do so only for a bounded number of steps. -/
theorem card_served (hcaps : AcyclicCapabilities config)
    (hfirst : firstController config = some f) (hd : driverOf (vendor config f) = some d)
    (hline : finalLine config f = UInt8.ofNat n) (hn : n ≠ 2) {p : Pair}
    {tr : List (System × Event × System)} {s : System} (hboot : Run Step (boot p) tr s)
    (hpc : s.pc = .running) (address : UInt32) :
    (∃ b, Ports.pciScanBus.run ⟨.boot config s.pics.pic1.imr s.pics.pic2.imr, address⟩ =
        some (pciInitSuccess, b) ∧
      b.nicPoll = some d.1 ∧ b.irqHandlers (UInt8.ofNat n) = some d.2 ∧
      b.pic1Data = (Pic.picUnmask (UInt8.ofNat n) s.pics).pic1.imr ∧
      b.pic2Data = (Pic.picUnmask (UInt8.ofNat n) s.pics).pic2.imr) ∧
    ∀ tr₁ t, Run Step { s with pics := Pic.picUnmask (UInt8.ofNat n) s.pics } tr₁ t →
      t.pics.Enabled n ∧
      (t.pc = .running → t.interrupts = true → t.pics.Requested n →
        ∀ tr₂ u, Run Step t tr₂ u → (∀ x ∈ tr₂, Quiet x.1 x.2.1) →
          (∀ x ∈ tr₂, x.2.1 ≠ .call (UInt8.ofNat n)) →
          tr₂.length ≤ rank t ∧ ∃ e v, Step u e v ∧ Quiet u e) := by
  have hinv := (inv_of_run hboot).1
  have hout : s.Remapped := remapped_of hpc fun _ => by simp
  have hready := (hinv.serviced hout).ready
  refine ⟨scan_connects hcaps hfirst hd hline hready address, ?_⟩
  intro tr₁ t hrun
  -- the scan's `pic_unmask` is a step of the system
  have hunmask : Step s (.unmask (UInt8.ofNat n)) _ := .unmask _ hpc
  obtain ⟨hinv', hout', hen⟩ := enabled_of_run (hinv.step hunmask) (hout.step hunmask)
    (enabled_picUnmask hready n) hrun
  refine ⟨hen, fun _ hif hreq tr₂ u hrest hquiet hcall => ?_⟩
  have hwaits : Waits n t := ⟨hen, .inl hreq, fun _ => hif⟩
  exact hwaits.served hinv' hout' hn hrest hquiet hcall

end

theorem finalLine_oneCard : finalLine (oneCard 0x8086 11) card = 11 := by
  have hcaps : hasCapabilities (oneCard 0x8086 11) card = false := by decide
  have hpower : powerInLine (oneCard 0x8086 11) card = false := by
    simp [powerInLine, powerCapability, hcaps]
  rw [finalLine, hpower]
  decide

/-- An Intel card on line 11, and its first request. -/
theorem card_served_oneCard :
    (∃ b, Ports.pciScanBus.run ⟨.boot (oneCard 0x8086 11) 0xff 0xff, 0⟩ =
        some (pciInitSuccess, b) ∧ b.irqHandlers 11 = some .i219InterruptHandler) ∧
      ∃ e v, Step line11 e v ∧ Quiet line11 e := by
  obtain ⟨tr, hboot⟩ := run_remap coldPair
  have hdriver : driverOf (vendor (oneCard 0x8086 11) card) =
      some (.i219PollRx, .i219InterruptHandler) := by decide
  obtain ⟨⟨b, hscan, -, hhandler, -⟩, hserved⟩ := @card_served _ _ _ ⟨11, by decide⟩
    (acyclic_oneCard 0x8086 11) (firstController_oneCard (by decide)) hdriver finalLine_oneCard
    (by decide) _ _ _ hboot rfl 0
  refine ⟨⟨b, hscan, hhandler⟩, ?_⟩
  have hsti : Step ⟨picUnmask 11 (picRemap 32 40 coldPair), false, .running⟩ .sti _ := .sti rfl
  have hrun : Run Step _ _ line11 := (Run.nil.snoc hsti).snoc (.request (by decide) (by decide))
  exact ((hserved _ line11 hrun).2 rfl rfl (by decide) [] line11 .nil (by simp) (by simp)).2

end MathUnikernel.Pic
