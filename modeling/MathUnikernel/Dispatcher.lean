import MathUnikernel.DisplayNumbers
import MathUnikernel.Interrupts
import MathUnikernel.PicRuns

/-!
# The dispatcher

`interrupt_dispatcher` of `idt.c`, called by the stubs with the frame that they build.
-/

namespace MathUnikernel.Isr
open Display Pci WordStack

/-- A string literal up to its `'\0'`. -/
def literal (s : String) : List UInt8 :=
  (s.toList.map fun c => UInt8.ofNat c.toNat).takeWhile (· ≠ 0)

/-- What the dispatcher reads and writes.  `δ` is the state of the devices and of the driver that a
handler works on. -/
structure Kernel (δ : Type*) where
  totalInterrupts : UInt64
  irqHandlers : UInt8 → Option IrqHandler
  terminal : Terminal
  pics : Pic.Pair
  devices : δ

/-! ## `idt.c` -/

section
variable (font : Font) (buffer : ℕ → UInt8)

/-- `PRINTS`, `PRINTD`, `PRINTH`, `PRINTLN` and `PRINTF`. -/
def prints (msg : String) (t : Terminal) : Terminal :=
  fbPrint font (msg.toList.map fun c => UInt8.ofNat c.toNat) t

def printd (val : Word) (t : Terminal) : Terminal := fbPrintDec font buffer (UInt64.ofBitVec val) t

def printh (val : Word) (t : Terminal) : Terminal := fbPrintHex font (UInt64.ofBitVec val) t

def println (t : Terminal) : Terminal := fbPutchar font newline t

def printf (msg : String) (val : Word) (t : Terminal) : Terminal :=
  printd font buffer val (fbPutchar font 0x20 (prints font msg t))

/-- The report of an exception. -/
def panic (frame : InterruptFrame) (t : Terminal) : Terminal :=
  let t := prints font "\n--- !!! MATH UNIKERNEL PANIC !!! ---\n" t
  let t := println font (printd font buffer frame.interruptNumber
    (prints font "Exception Vector: " t))
  let t := println font (printh font frame.errorCode (prints font "Error Code:       " t))
  let t := println font (printh font frame.rip (prints font "RIP (Address):    " t))
  let t := prints font "\n--- REGISTER SNAPSHOT ---\n" t
  let t := println font (printf font buffer "RBX:" frame.rbx (printf font buffer "RAX:" frame.rax t))
  let t := println font (printf font buffer "RDX:" frame.rdx (printf font buffer "RCX:" frame.rcx t))
  let t := println font (printf font buffer "RSI:" frame.rsi (printf font buffer "RDI:" frame.rdi t))
  prints font "\nHalting system to prevent data corruption...\n" t

variable {δ : Type*} (run : IrqHandler → Kernel δ → Kernel δ)

/-- The state that `interrupt_dispatcher` leaves, and whether it returns: after an exception it ends
in `hcf`. -/
def interruptDispatcher (frame : InterruptFrame) (k : Kernel δ) : Kernel δ × Bool :=
  if frame.interruptNumber < 32 then
    ({ k with
        totalInterrupts := k.totalInterrupts + 1
        terminal := panic font buffer frame k.terminal }, false)
  else if 32 ≤ frame.interruptNumber ∧ frame.interruptNumber ≤ 47 then
    let irq := UInt8.ofNat (frame.interruptNumber - 32).toNat
    let k := match k.irqHandlers irq with
      | some handler => run handler k
      | none => k
    ({ k with pics := Pic.picSendEoi irq k.pics }, true)
  else (k, true)

/-! ## The report -/

theorem prints_eq (msg : String) (t : Terminal) : prints font msg t = putchars font (literal msg) t :=
  fbPrint_eq font _ t

/-- The characters of `PRINTF`. -/
def labelled (msg : String) (val : Word) : List UInt8 :=
  literal msg ++ [0x20] ++ decimal (UInt64.ofBitVec val)

theorem printf_eq (msg : String) (val : Word) (t : Terminal) :
    printf font buffer msg val t = putchars font (labelled msg val) t := by
  rw [printf, printd, fbPrintDec_eq, prints_eq, labelled, putchars_append, putchars_append]
  rfl

theorem println_eq (t : Terminal) : println font t = putchars font [newline] t := rfl

/-- The characters of the report. -/
def report (vector errorCode rip : Word) (regs : Reg → Word) : List UInt8 :=
  literal "\n--- !!! MATH UNIKERNEL PANIC !!! ---\n" ++
    (literal "Exception Vector: " ++ decimal (UInt64.ofBitVec vector) ++ [newline]) ++
    (literal "Error Code:       " ++ hexadecimal (UInt64.ofBitVec errorCode) ++ [newline]) ++
    (literal "RIP (Address):    " ++ hexadecimal (UInt64.ofBitVec rip) ++ [newline]) ++
    literal "\n--- REGISTER SNAPSHOT ---\n" ++
    (labelled "RAX:" (regs .rax) ++ labelled "RBX:" (regs .rbx) ++ [newline]) ++
    (labelled "RCX:" (regs .rcx) ++ labelled "RDX:" (regs .rdx) ++ [newline]) ++
    (labelled "RDI:" (regs .rdi) ++ labelled "RSI:" (regs .rsi) ++ [newline]) ++
    literal "\nHalting system to prevent data corruption...\n"

/-- The frame that shows the interrupted code. -/
def frameOf (regs : Reg → Word) (vector : Fin 48) (i : Interrupted) (errorCode : Word) :
    InterruptFrame where
  r15 := regs .r15
  r14 := regs .r14
  r13 := regs .r13
  r12 := regs .r12
  r11 := regs .r11
  r10 := regs .r10
  r9 := regs .r9
  r8 := regs .r8
  rbp := regs .rbp
  rdi := regs .rdi
  rsi := regs .rsi
  rdx := regs .rdx
  rcx := regs .rcx
  rbx := regs .rbx
  rax := regs .rax
  interruptNumber := BitVec.ofNat 64 vector
  errorCode := errorWord vector errorCode
  rip := i.rip
  cs := i.cs
  rflags := i.rflags
  rsp := i.rsp
  ss := i.ss

theorem panic_frameOf (regs : Reg → Word) (vector : Fin 48) (i : Interrupted) (errorCode : Word)
    (t : Terminal) : panic font buffer (frameOf regs vector i errorCode) t =
      putchars font (report (BitVec.ofNat 64 vector) (errorWord vector errorCode) i.rip regs) t := by
  simp only [panic, report, prints_eq, printf_eq, println_eq, printd, printh, fbPrintDec_eq,
    fbPrintHex_eq, putchars_append, frameOf]

theorem number_lt (vector : Fin 48) : BitVec.ofNat 64 vector < (32 : Word) ↔ vector.val < 32 := by
  revert vector
  decide

theorem number_irq : ∀ vector : Fin 48, 32 ≤ vector.val →
    ((32 : Word) ≤ BitVec.ofNat 64 vector ∧ BitVec.ofNat 64 vector ≤ (47 : Word)) ∧
      (BitVec.ofNat 64 vector - (32 : Word)).toNat = vector.val - 32 := by
  decide

/-- In the runs of the controllers the kernel stops where the dispatcher does not return, and runs
the same handler. -/
theorem dispatch_eq (vector : Fin 48) : Pic.dispatch (UInt8.ofNat vector) =
    if vector.val < 32 then .halted else .handler (UInt8.ofNat (vector.val - 32)) := by
  revert vector
  decide

theorem load_dispatcherEntry (vector : Fin 48) (i : Interrupted) (errorCode ret : Word) (s : Cpu) :
    InterruptFrame.load (dispatcherEntry vector ret (deliver vector i errorCode s)).mem
        ((dispatcherEntry vector ret (deliver vector i errorCode s)).regs .rdi) =
      frameOf s.regs vector i errorCode :=
  load_frameWords (onStack_dispatcherEntry vector i errorCode ret s)

/-- An exception, whatever code it interrupts, is counted and reported with its vector, the error
code that the processor pushed (0 where it pushes none), the interrupted instruction and registers,
and the dispatcher does not return.  A hardware interrupt runs the handler of its line, if there is
one, then ends the interrupt at the controllers of that line, and the dispatcher returns. -/
theorem interrupt_dispatched (vector : Fin 48) (i : Interrupted) (errorCode ret : Word) (s : Cpu)
    (k : Kernel δ) :
    let frame := InterruptFrame.load
      (dispatcherEntry vector ret (deliver vector i errorCode s)).mem
      ((dispatcherEntry vector ret (deliver vector i errorCode s)).regs .rdi)
    let irq := UInt8.ofNat (vector.val - 32)
    let handled := (k.irqHandlers irq).elim k fun handler => run handler k
    interruptDispatcher font buffer run frame k =
      if vector.val < 32 then
        ({ k with
            totalInterrupts := k.totalInterrupts + 1
            terminal := putchars font (report (BitVec.ofNat 64 vector)
              (if vector.val ∈ errVectors then errorCode else 0) i.rip s.regs) k.terminal }, false)
      else ({ handled with pics := Pic.picSendEoi irq handled.pics }, true) := by
  intro frame irq handled
  have hframe : frame = frameOf s.regs vector i errorCode :=
    load_dispatcherEntry vector i errorCode ret s
  have hnumber : (frameOf s.regs vector i errorCode).interruptNumber = BitVec.ofNat 64 vector := rfl
  rw [hframe, interruptDispatcher, hnumber]
  by_cases hlow : vector.val < 32
  · rw [if_pos hlow, if_pos ((number_lt vector).mpr hlow), panic_frameOf]
    rfl
  · obtain ⟨hrange, hirq⟩ := number_irq vector (not_lt.mp hlow)
    rw [if_neg hlow, if_neg (mt (number_lt vector).mp hlow), if_pos hrange, hirq]
    dsimp only [handled, irq]
    cases k.irqHandlers (UInt8.ofNat (vector.val - 32)) <;> rfl

end

end MathUnikernel.Isr
