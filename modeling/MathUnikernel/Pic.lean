import MathUnikernel.Library.Arbiter
import MathUnikernel.Pci

/-!
# The interrupt controllers

`pic.c` and the pair of 8259A controllers that it programs.
-/

namespace MathUnikernel.Pic
open Arbiter ByteBitmap Pci

/-! ## A controller -/

/-- What the data port takes next of the initialization words. -/
inductive Icw
  | icw2
  | icw3
  | icw4
  deriving DecidableEq

/-- The registers that only the processor writes. -/
structure Setup where
  icw1 : UInt8
  icw2 : UInt8
  icw3 : UInt8
  icw4 : UInt8
  imr : UInt8
  awaits : Option Icw
  deriving DecidableEq

structure Controller extends Setup where
  levels : State (Fin 8)
  deriving DecidableEq

def picEoi : UInt8 := 0x20
def icw1Init : UInt8 := 0x11
def icw48086 : UInt8 := 0x01

namespace Controller

/-- The first initialization word clears the masks and all levels.  Of the other commands only the
non-specific end of interrupt is modelled. -/
def outbCommand (value : UInt8) (c : Controller) : Controller :=
  if bit value 4 then
    { c with icw1 := value, icw4 := 0, imr := 0, awaits := some .icw2, levels := ⟨∅, ∅⟩ }
  else if value = picEoi then { c with levels := c.levels.finish }
  else c

/-- Bit 1 of the first word says that there is no other controller, bit 0 that a fourth word
follows. -/
def Setup.write (value : UInt8) (c : Setup) : Setup :=
  match c.awaits with
  | none => { c with imr := value }
  | some .icw2 =>
    { c with
      icw2 := value
      awaits := if bit c.icw1 1 then (if bit c.icw1 0 then some .icw4 else none) else some .icw3 }
  | some .icw3 =>
    { c with icw3 := value, awaits := if bit c.icw1 0 then some .icw4 else none }
  | some .icw4 => { c with icw4 := value, awaits := none }

def outbData (value : UInt8) (c : Controller) : Controller :=
  { c with toSetup := Setup.write value c.toSetup }

def inbData (c : Controller) : UInt8 := c.imr

def enabled (c : Controller) (i : Fin 8) : Bool := !bit c.imr i

def candidates (c : Controller) : Finset (Fin 8) := c.levels.candidates c.enabled

/-- The level that the controller acknowledges.  Bit 1 of the fourth word ends its service at
once. -/
def acknowledge (c : Controller) : Option (Fin 8) × Controller :=
  match first c.candidates with
  | some i =>
    (some i, { c with levels := if bit c.icw4 1 then c.levels.withdraw i else c.levels.serve i })
  | none => (none, c)

/-- The second word gives the upper five bits of the vectors. -/
def vector (c : Controller) (i : Fin 8) : UInt8 := (c.icw2 &&& 0xf8) ||| UInt8.ofNat i

end Controller

/-! ## The pair -/

structure Pair where
  pic1 : Controller
  pic2 : Controller
  deriving DecidableEq

/-- The interrupt lines are the inputs of the first controller and then those of the second. -/
abbrev Irq := Fin 16

def line1 (i : Fin 8) : Irq := Fin.castAdd 8 i

def line2 (j : Fin 8) : Irq := Fin.natAdd 8 j

/-- The input of the first controller that the second one is connected to. -/
abbrev cascadeInput : Fin 8 := 2

/-- The input of its controller that a line is connected to. -/
def input (irq : Irq) : Fin 8 := ⟨irq.val % 8, Nat.mod_lt _ (by decide)⟩

namespace Pair

def levels (p : Pair) (irq : Irq) : State (Fin 8) :=
  if irq.val < 8 then p.pic1.levels else p.pic2.levels

def setLevels (irq : Irq) (f : State (Fin 8) → State (Fin 8)) (p : Pair) : Pair :=
  if irq.val < 8 then { p with pic1 := { p.pic1 with levels := f p.pic1.levels } }
  else { p with pic2 := { p.pic2 with levels := f p.pic2.levels } }

def Requested (p : Pair) (irq : Irq) : Prop := input irq ∈ (p.levels irq).requested

instance (p : Pair) (irq : Irq) : Decidable (p.Requested irq) :=
  inferInstanceAs (Decidable (_ ∈ _))

def request (irq : Irq) : Pair → Pair := setLevels irq fun s => s.request (input irq)

def withdraw (irq : Irq) : Pair → Pair := setLevels irq fun s => s.withdraw (input irq)

/-- The output of the second controller is input 2 of the first. -/
def cascade (p : Pair) : Pair := p.request 2

/-- No mask keeps the line from the processor. -/
def Enabled (p : Pair) (n : Irq) : Prop :=
  if n.val < 8 then p.pic1.enabled (input n) = true
  else p.pic2.enabled (input n) = true ∧ p.pic1.enabled 2 = true

/-- The vector that the processor reads, and the line whose request this takes.  When the request
has gone, a controller answers with its last level and takes nothing into service. -/
def acknowledge (p : Pair) : UInt8 × Option Irq × Pair :=
  match p.pic1.acknowledge with
  | (none, _) => (p.pic1.vector 7, none, p)
  | (some i, pic1) =>
    if bit p.pic1.icw3 i then
      if (p.pic2.icw3 &&& 7).toNat = i.val then
        match p.pic2.acknowledge with
        | (none, _) => (p.pic2.vector 7, none, ⟨pic1, p.pic2⟩)
        | (some j, pic2) => (p.pic2.vector j, some (line2 j), ⟨pic1, pic2⟩)
      else (0xff, none, ⟨pic1, p.pic2⟩)
    else (p.pic1.vector i, some (line1 i), ⟨pic1, p.pic2⟩)

end Pair

/-! ## `pic.c` -/

def pic1Command : UInt16 := 0x20
def pic1Data : UInt16 := 0x21
def pic2Command : UInt16 := 0xa0
def pic2Data : UInt16 := 0xa1

/-- The port and the value of one `outb`. -/
abbrev Write := UInt16 × UInt8

namespace Pair

def outb (p : Pair) (w : Write) : Pair :=
  if w.1 = pic1Command then { p with pic1 := p.pic1.outbCommand w.2 }
  else if w.1 = pic1Data then { p with pic1 := p.pic1.outbData w.2 }
  else if w.1 = pic2Command then { p with pic2 := p.pic2.outbCommand w.2 }
  else if w.1 = pic2Data then { p with pic2 := p.pic2.outbData w.2 }
  else p

/-- A read of one of the two data ports. -/
def inb (p : Pair) (port : UInt16) : UInt8 :=
  if port = pic1Data then p.pic1.inbData else p.pic2.inbData

end Pair

/-- The writes of `pic_remap` after it has read the masks. -/
def remapWrites (offset1 offset2 mask1 mask2 : UInt8) : List Write :=
  [(pic1Command, icw1Init), (pic2Command, icw1Init),
    (pic1Data, offset1), (pic2Data, offset2),
    (pic1Data, 4), (pic2Data, 2),
    (pic1Data, icw48086), (pic2Data, icw48086),
    (pic1Data, mask1), (pic2Data, mask2)]

def picRemap (offset1 offset2 : UInt8) (p : Pair) : Pair :=
  (remapWrites offset1 offset2 (p.inb pic1Data) (p.inb pic2Data)).foldl Pair.outb p

def picUnmask (irq : UInt8) (p : Pair) : Pair :=
  if irq < 8 then p.outb (pic1Data, p.inb pic1Data &&& ~~~irqBit irq)
  else
    let irq := irq - 8
    let p := p.outb (pic1Data, p.inb pic1Data &&& ~~~irqBit 2)
    p.outb (pic2Data, p.inb pic2Data &&& ~~~irqBit irq)

/-- The ports to which `pic_send_eoi` writes `PIC_EOI`. -/
def eoiPorts (irq : UInt8) : List UInt16 :=
  if irq ≥ 8 then [pic2Command, pic1Command] else [pic1Command]

def picSendEoi (irq : UInt8) (p : Pair) : Pair :=
  (eoiPorts irq).foldl (fun p port => p.outb (port, picEoi)) p

/-! ## Setup -/

/-- Two pairs that differ in their levels only. -/
structure SameSetup (p q : Pair) : Prop where
  pic1 : p.pic1.toSetup = q.pic1.toSetup
  pic2 : p.pic2.toSetup = q.pic2.toSetup

theorem SameSetup.refl (p : Pair) : SameSetup p p := ⟨rfl, rfl⟩

theorem SameSetup.trans {p q r : Pair} (h : SameSetup p q) (h' : SameSetup q r) : SameSetup p r :=
  ⟨h.pic1.trans h'.pic1, h.pic2.trans h'.pic2⟩

section
variable {c c' : Controller} {p q : Pair}

theorem toSetup_outbCommand (h : c.toSetup = c'.toSetup) (value : UInt8) :
    (c.outbCommand value).toSetup = (c'.outbCommand value).toSetup := by
  unfold Controller.outbCommand
  split_ifs
  · simp only [Setup.mk.injEq, and_true, true_and]
    exact ⟨congrArg Setup.icw2 h, congrArg Setup.icw3 h⟩
  · exact h
  · exact h

theorem SameSetup.outb (h : SameSetup p q) (w : Write) : SameSetup (p.outb w) (q.outb w) := by
  unfold Pair.outb
  split_ifs
  · exact ⟨toSetup_outbCommand h.pic1 _, h.pic2⟩
  · exact ⟨congrArg (Controller.Setup.write w.2) h.pic1, h.pic2⟩
  · exact ⟨h.pic1, toSetup_outbCommand h.pic2 _⟩
  · exact ⟨h.pic1, congrArg (Controller.Setup.write w.2) h.pic2⟩
  · exact h

theorem sameSetup_setLevels (irq : Irq) (f : State (Fin 8) → State (Fin 8)) (p : Pair) :
    SameSetup (p.setLevels irq f) p := by
  unfold Pair.setLevels
  split_ifs <;> exact ⟨rfl, rfl⟩

theorem toSetup_acknowledge (c : Controller) : c.acknowledge.2.toSetup = c.toSetup := by
  unfold Controller.acknowledge
  split <;> rfl

theorem sameSetup_acknowledge (p : Pair) : SameSetup p.acknowledge.2.2 p := by
  have hpic1 := toSetup_acknowledge p.pic1
  have hpic2 := toSetup_acknowledge p.pic2
  unfold Pair.acknowledge
  split
  · exact SameSetup.refl p
  · rename_i heq
    rw [heq] at hpic1
    split_ifs
    · split
      · exact ⟨hpic1, rfl⟩
      · rename_i heq'
        rw [heq'] at hpic2
        exact ⟨hpic1, hpic2⟩
    · exact ⟨hpic1, rfl⟩
    · exact ⟨hpic1, rfl⟩

end

/-- Vectors from `offset1` and `offset2` on, with the second controller at input 2 of the first, and
the mask registers at the data ports. -/
structure Pair.Ready (offset1 offset2 : UInt8) (p : Pair) : Prop where
  vector1 : p.pic1.icw2 = offset1
  vector2 : p.pic2.icw2 = offset2
  cascade1 : p.pic1.icw3 = 4
  cascade2 : p.pic2.icw3 = 2
  mode1 : p.pic1.icw4 = icw48086
  mode2 : p.pic2.icw4 = icw48086
  awaits1 : p.pic1.awaits = none
  awaits2 : p.pic2.awaits = none

theorem Pair.Ready.of_sameSetup {offset1 offset2 : UInt8} {p q : Pair}
    (h : q.Ready offset1 offset2) (hsame : SameSetup p q) : p.Ready offset1 offset2 where
  vector1 := (congrArg Setup.icw2 hsame.pic1).trans h.vector1
  vector2 := (congrArg Setup.icw2 hsame.pic2).trans h.vector2
  cascade1 := (congrArg Setup.icw3 hsame.pic1).trans h.cascade1
  cascade2 := (congrArg Setup.icw3 hsame.pic2).trans h.cascade2
  mode1 := (congrArg Setup.icw4 hsame.pic1).trans h.mode1
  mode2 := (congrArg Setup.icw4 hsame.pic2).trans h.mode2
  awaits1 := (congrArg Setup.awaits hsame.pic1).trans h.awaits1
  awaits2 := (congrArg Setup.awaits hsame.pic2).trans h.awaits2

section
variable (p : Pair) (value : UInt8)

@[simp] theorem outb_pic1Command :
    p.outb (pic1Command, value) = { p with pic1 := p.pic1.outbCommand value } := rfl

@[simp] theorem outb_pic1Data :
    p.outb (pic1Data, value) = { p with pic1 := p.pic1.outbData value } := rfl

@[simp] theorem outb_pic2Command :
    p.outb (pic2Command, value) = { p with pic2 := p.pic2.outbCommand value } := rfl

@[simp] theorem outb_pic2Data :
    p.outb (pic2Data, value) = { p with pic2 := p.pic2.outbData value } := rfl

end

/-- One controller of `pic_remap`. -/
theorem controller_remap (offset link mask : UInt8) (c : Controller) :
    ((((c.outbCommand icw1Init).outbData offset).outbData link).outbData icw48086).outbData mask =
      { icw1 := icw1Init, icw2 := offset, icw3 := link, icw4 := icw48086, imr := mask
        awaits := none, levels := ⟨∅, ∅⟩ } := by
  have hinit : bit icw1Init 4 = true := by decide
  have hlink : bit icw1Init 1 = false := by decide
  have hmode : bit icw1Init 0 = true := by decide
  simp [Controller.outbCommand, Controller.outbData, Controller.Setup.write, hinit, hlink, hmode]

/-- Whatever state the controllers were in, they are programmed as the arguments say and keep their
masks. -/
theorem picRemap_eq (offset1 offset2 : UInt8) (p : Pair) :
    picRemap offset1 offset2 p =
      { pic1 :=
          { icw1 := icw1Init, icw2 := offset1, icw3 := 4, icw4 := icw48086, imr := p.pic1.imr
            awaits := none, levels := ⟨∅, ∅⟩ }
        pic2 :=
          { icw1 := icw1Init, icw2 := offset2, icw3 := 2, icw4 := icw48086, imr := p.pic2.imr
            awaits := none, levels := ⟨∅, ∅⟩ } } := by
  simp only [picRemap, remapWrites, List.foldl_cons, List.foldl_nil, outb_pic1Command,
    outb_pic1Data, outb_pic2Command, outb_pic2Data, controller_remap]
  rfl

theorem ready_picRemap (offset1 offset2 : UInt8) (p : Pair) :
    (picRemap offset1 offset2 p).Ready offset1 offset2 := by
  rw [picRemap_eq]
  exact ⟨rfl, rfl, rfl, rfl, rfl, rfl, rfl, rfl⟩

/-! ## Masks -/

/-- The mask registers as the bus scan sees them. -/
def masks (p : Pair) (m : Machine) : Machine :=
  { m with pic1Data := p.pic1.imr, pic2Data := p.pic2.imr }

theorem outbData_of_ready {c : Controller} (h : c.awaits = none) (value : UInt8) :
    c.outbData value = { c with imr := value } := by
  simp [Controller.outbData, Controller.Setup.write, h]

/-- On the ports `pic_unmask` does to the mask registers what it does to them in the bus scan, and
leaves all else as it is. -/
theorem picUnmask_eq {offset1 offset2 : UInt8} {p : Pair} (h : p.Ready offset1 offset2)
    (irq : UInt8) (m : Machine) :
    masks (picUnmask irq p) m = Pci.picUnmask irq (masks p m) ∧
      (picUnmask irq p).Ready offset1 offset2 ∧
      (picUnmask irq p).pic1.levels = p.pic1.levels ∧
      (picUnmask irq p).pic2.levels = p.pic2.levels := by
  unfold picUnmask Pci.picUnmask
  split_ifs
  · simp only [outb_pic1Data, outbData_of_ready h.awaits1]
    exact ⟨rfl, ⟨h.1, h.2, h.3, h.4, h.5, h.6, h.7, h.8⟩, trivial, trivial⟩
  · simp only [outb_pic1Data, outb_pic2Data, outbData_of_ready h.awaits1,
      outbData_of_ready h.awaits2]
    exact ⟨rfl, ⟨h.1, h.2, h.3, h.4, h.5, h.6, h.7, h.8⟩, trivial, trivial⟩

/-! ## Interrupts -/

/-- The vector of a line after `pic_remap(32, 40)`. -/
def lineVector (irq : Irq) : UInt8 := 32 + UInt8.ofNat irq

/-- What the processor reads from the pair after `pic_remap(32, 40)`, and what the read changes. -/
inductive Acknowledged (p : Pair) (vector : UInt8) (taken : Option Irq) (q : Pair) : Prop
  | spurious (hfirst : first p.pic1.candidates = none) (hvector : vector = lineVector 7)
      (htaken : taken = none) (hq : q = p)
  | pic1 (i : Fin 8) (hfirst : first p.pic1.candidates = some i) (hi : i ≠ 2)
      (hvector : vector = lineVector (line1 i)) (htaken : taken = some (line1 i))
      (hq : q = { p with pic1 := { p.pic1 with levels := p.pic1.levels.serve i } })
  | gone (hfirst : first p.pic1.candidates = some 2) (hfirst2 : first p.pic2.candidates = none)
      (hvector : vector = lineVector 15) (htaken : taken = none)
      (hq : q = { p with pic1 := { p.pic1 with levels := p.pic1.levels.serve 2 } })
  | pic2 (j : Fin 8) (hfirst : first p.pic1.candidates = some 2)
      (hfirst2 : first p.pic2.candidates = some j) (hvector : vector = lineVector (line2 j))
      (htaken : taken = some (line2 j))
      (hq : q =
        { pic1 := { p.pic1 with levels := p.pic1.levels.serve 2 }
          pic2 := { p.pic2 with levels := p.pic2.levels.serve j } })

theorem Controller.acknowledge_of_mode {c : Controller} (h : c.icw4 = icw48086) :
    c.acknowledge = match first c.candidates with
      | some i => (some i, { c with levels := c.levels.serve i })
      | none => (none, c) := by
  have hmode : bit icw48086 1 = false := by decide
  unfold Controller.acknowledge
  rw [h, hmode]
  rfl

theorem acknowledge_spec {p q : Pair} (h : p.Ready 32 40) {vector : UInt8} {taken : Option Irq}
    (hack : p.acknowledge = (vector, taken, q)) : Acknowledged p vector taken q := by
  have hvector1 : ∀ i : Fin 8, p.pic1.vector i = lineVector (line1 i) := by
    unfold Controller.vector
    rw [h.vector1]
    decide
  have hvector2 : ∀ i : Fin 8, p.pic2.vector i = lineVector (line2 i) := by
    unfold Controller.vector
    rw [h.vector2]
    decide
  have hlink : ∀ i : Fin 8, bit 4 i = true ↔ i = 2 := by decide
  have hid : ((2 : UInt8) &&& 7).toNat = (2 : Fin 8).val := by decide
  unfold Pair.acknowledge at hack
  rw [Controller.acknowledge_of_mode h.mode1, Controller.acknowledge_of_mode h.mode2, h.cascade1,
    h.cascade2, hid] at hack
  cases hpic1 : first p.pic1.candidates with
  | none =>
    simp only [hpic1, hvector1, Prod.mk.injEq] at hack
    exact .spurious hpic1 hack.1.symm hack.2.1.symm hack.2.2.symm
  | some i =>
    by_cases hi : i = 2
    · subst hi
      simp only [hpic1, (hlink 2).mpr rfl, if_true] at hack
      cases hpic2 : first p.pic2.candidates with
      | none =>
        simp only [hpic2, hvector2, Prod.mk.injEq] at hack
        exact .gone hpic1 hpic2 hack.1.symm hack.2.1.symm hack.2.2.symm
      | some j =>
        simp only [hpic2, hvector2, Prod.mk.injEq] at hack
        exact .pic2 j hpic1 hpic2 hack.1.symm hack.2.1.symm hack.2.2.symm
    · rw [hpic1] at hack
      simp only [if_neg (mt (hlink i).mp hi), hvector1, Prod.mk.injEq] at hack
      exact .pic1 i hpic1 hi hack.1.symm hack.2.1.symm hack.2.2.symm

end MathUnikernel.Pic
