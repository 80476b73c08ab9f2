import MathUnikernel.Library.WordStack

/-!
# Interrupt entry and return

The stubs of `isr.S` and the frame that they pass to `interrupt_dispatcher`.  Every access of the
stubs is to a quadword, and all of them lie a multiple of eight bytes apart.
-/

namespace MathUnikernel.Isr
open WordStack

abbrev Word := BitVec 64

/-- The general registers, without `rsp`. -/
inductive Reg
  | rax | rbx | rcx | rdx | rsi | rdi | rbp | r8 | r9 | r10 | r11 | r12 | r13 | r14 | r15
  deriving DecidableEq

/-- `mem` gives the quadword at an address. -/
structure Cpu where
  regs : Reg → Word
  rsp : Word
  mem : Word → Word

def Cpu.push (s : Cpu) (w : Word) : Cpu :=
  { s with rsp := s.rsp - 8, mem := Function.update s.mem (s.rsp - 8) w }

/-- The instructions of the stubs other than `call` and the jumps between them. -/
inductive Op
  | pushq (r : Reg)
  | pushImm (w : Word)
  | popq (r : Reg)
  | movRsp (r : Reg)
  | addRsp (w : Word)

def step (s : Cpu) : Op → Cpu
  | .pushq r => s.push (s.regs r)
  | .pushImm w => s.push w
  | .popq r => { s with regs := Function.update s.regs r (s.mem s.rsp), rsp := s.rsp + 8 }
  | .movRsp r => { s with regs := Function.update s.regs r s.rsp }
  | .addRsp w => { s with rsp := s.rsp + w }

def run (s : Cpu) (ops : List Op) : Cpu := ops.foldl step s

/-! ## `isr.S` -/

/-- `isr_common` before the call. -/
def isrCommonSave : List Op :=
  [.pushq .rax, .pushq .rbx, .pushq .rcx, .pushq .rdx,
    .pushq .rsi, .pushq .rdi, .pushq .rbp, .pushq .r8,
    .pushq .r9, .pushq .r10, .pushq .r11, .pushq .r12,
    .pushq .r13, .pushq .r14, .pushq .r15,
    .movRsp .rdi]

/-- `isr_common` between the call and `iretq`. -/
def isrCommonRestore : List Op :=
  [.popq .r15, .popq .r14, .popq .r13, .popq .r12,
    .popq .r11, .popq .r10, .popq .r9, .popq .r8,
    .popq .rbp, .popq .rdi, .popq .rsi, .popq .rdx,
    .popq .rcx, .popq .rbx, .popq .rax,
    .addRsp 16]

def isrNoErr (vector : ℕ) : List Op := [.pushImm 0, .pushImm (BitVec.ofNat 64 vector)]

def isrErr (vector : ℕ) : List Op := [.pushImm (BitVec.ofNat 64 vector)]

/-- The vectors declared with `isr_err`. -/
def errVectors : List ℕ := [8, 10, 11, 12, 13, 14, 17, 21, 29, 30]

/-- `isr_stub_0` to `isr_stub_47` before the jump to `isr_common`. -/
def isrStub (vector : Fin 48) : List Op :=
  if vector.val ∈ errVectors then isrErr vector else isrNoErr vector

/-- The state in which `interrupt_dispatcher` starts: `call` has pushed the address `ret`. -/
def dispatcherEntry (vector : Fin 48) (ret : Word) (s : Cpu) : Cpu :=
  (run s (isrStub vector ++ isrCommonSave)).push ret

/-- A stub up to its `iretq`.  The dispatcher takes the state at its entry to the state after its
`ret`, or never returns. -/
def isr (dispatcher : Cpu → Option Cpu) (vector : Fin 48) (ret : Word) (s : Cpu) : Option Cpu :=
  (dispatcher (dispatcherEntry vector ret s)).map fun s' => run s' isrCommonRestore

/-! ## The processor -/

/-- What the processor pushes of the interrupted code. -/
structure Interrupted where
  rip : Word
  cs : Word
  rflags : Word
  rsp : Word
  ss : Word

def pushInterrupted (i : Interrupted) (s : Cpu) : Cpu :=
  ((((s.push i.ss).push i.rsp).push i.rflags).push i.cs).push i.rip

/-- The delivery of an interrupt on the stack of `s`. -/
def deliver (vector : Fin 48) (i : Interrupted) (errorCode : Word) (s : Cpu) : Cpu :=
  if vector.val ∈ errVectors then (pushInterrupted i s).push errorCode else pushInterrupted i s

def iretq (s : Cpu) : Interrupted where
  rip := s.mem s.rsp
  cs := s.mem (s.rsp + 8)
  rflags := s.mem (s.rsp + 16)
  rsp := s.mem (s.rsp + 24)
  ss := s.mem (s.rsp + 32)

/-! ## `struct interrupt_frame` -/

/-- The fields in the order of `idt.h`. -/
structure InterruptFrame where
  r15 : Word
  r14 : Word
  r13 : Word
  r12 : Word
  r11 : Word
  r10 : Word
  r9 : Word
  r8 : Word
  rbp : Word
  rdi : Word
  rsi : Word
  rdx : Word
  rcx : Word
  rbx : Word
  rax : Word
  interruptNumber : Word
  errorCode : Word
  rip : Word
  cs : Word
  rflags : Word
  rsp : Word
  ss : Word

/-- The `i`-th field of a packed structure of quadwords. -/
def field (mem : Word → Word) (frame : Word) (i : ℕ) : Word := mem (frame + i • 8)

def InterruptFrame.load (mem : Word → Word) (frame : Word) : InterruptFrame :=
  ⟨field mem frame 0, field mem frame 1, field mem frame 2, field mem frame 3, field mem frame 4,
    field mem frame 5, field mem frame 6, field mem frame 7, field mem frame 8, field mem frame 9,
    field mem frame 10, field mem frame 11, field mem frame 12, field mem frame 13,
    field mem frame 14, field mem frame 15, field mem frame 16, field mem frame 17,
    field mem frame 18, field mem frame 19, field mem frame 20, field mem frame 21⟩

/-- A call of the dispatcher entered at `s` has come back with `s'`, by the calling convention and
without a change to the frame.  Every other register and the rest of memory may differ. -/
structure Returned (s s' : Cpu) : Prop where
  rsp : s'.rsp = s.rsp + 8
  saved : ∀ r ∈ [Reg.rbx, .rbp, .r12, .r13, .r14, .r15], s'.regs r = s.regs r
  frame : ∀ i < 22, field s'.mem (s.regs .rdi) i = field s.mem (s.regs .rdi) i

/-! ## Pushes and pops -/

theorem room (n : ℕ) (hn : n < 2 ^ 61) : Room (8 : Word) n := by
  intro i hpos hle heq
  have hnat := congrArg BitVec.toNat heq
  rw [nsmul_eq_mul, BitVec.toNat_mul, BitVec.natCast_eq_ofNat, BitVec.toNat_ofNat] at hnat
  change i % 2 ^ 64 * 8 % 2 ^ 64 = 0 at hnat
  omega

theorem run_append (s : Cpu) (ops ops' : List Op) : run s (ops ++ ops') = run (run s ops) ops' :=
  List.foldl_append

/-- The stack of a state up to `base`. -/
def Cpu.Stack (s : Cpu) (base : Word) (ws : List Word) : Prop := OnStack 8 s.mem s.rsp base ws

theorem Cpu.Stack.push {s : Cpu} {base : Word} {ws : List Word} (h : s.Stack base ws)
    (hlen : ws.length < 2 ^ 61) (w : Word) : (s.push w).Stack base (w :: ws) :=
  OnStack.push h (room _ hlen) w

theorem run_pushq (rs : List Reg) {s : Cpu} {base : Word} {ws : List Word} (h : s.Stack base ws)
    (hlen : ws.length + rs.length < 2 ^ 61) :
    (run s (rs.map .pushq)).Stack base ((rs.map s.regs).reverse ++ ws) ∧
      (run s (rs.map .pushq)).regs = s.regs := by
  induction rs generalizing s ws with
  | nil => exact ⟨h, rfl⟩
  | cons r rs ih =>
    rw [List.length_cons] at hlen
    have hrest := @ih (s.push (s.regs r)) _ (h.push (by omega) (s.regs r))
      (by rw [List.length_cons]; omega)
    rw [List.map_cons, List.map_cons, List.reverse_cons, List.append_assoc]
    exact hrest

/-- Popping registers that were pushed with the values `f`. -/
theorem run_popq (rs : List Reg) (hnodup : rs.Nodup) (f : Reg → Word) {s : Cpu} {base : Word}
    {ws : List Word} (h : s.Stack base (rs.map f ++ ws)) :
    (run s (rs.map .popq)).Stack base ws ∧
      ∀ r, (run s (rs.map .popq)).regs r = if r ∈ rs then f r else s.regs r := by
  induction rs generalizing s with
  | nil => exact ⟨h, fun r => rfl⟩
  | cons r rs ih =>
    obtain ⟨hr, hnodup⟩ := List.nodup_cons.mp hnodup
    have hhead : s.mem s.rsp = f r := OnStack.head h
    obtain ⟨hstack, hregs⟩ := @ih hnodup (step s (.popq r)) (OnStack.pop h)
    refine ⟨hstack, ?_⟩
    intro r'
    refine (hregs r').trans ?_
    by_cases hr' : r' = r
    · rw [hr', if_neg hr, if_pos List.mem_cons_self]
      exact (Function.update_self _ _ _).trans hhead
    · have hmem : r' ∈ r :: rs ↔ r' ∈ rs := by simp [hr']
      simp only [hmem]
      split_ifs
      · rfl
      · exact Function.update_of_ne hr' _ _

/-! ## The frame -/

/-- The registers in the order in which `isr_common` pushes them. -/
def savedRegs : List Reg :=
  [.rax, .rbx, .rcx, .rdx, .rsi, .rdi, .rbp, .r8, .r9, .r10, .r11, .r12, .r13, .r14, .r15]

/-- The pops go through the registers in the opposite order. -/
theorem isrCommonRestore_eq :
    isrCommonRestore = savedRegs.reverse.map .popq ++ [.addRsp 16] := rfl

theorem mem_savedRegs (r : Reg) : r ∈ savedRegs.reverse := by
  cases r <;> decide

def errorWord (vector : Fin 48) (errorCode : Word) : Word :=
  if vector.val ∈ errVectors then errorCode else 0

/-- What the processor and the stub push, the last word first. -/
def stubWords (vector : Fin 48) (i : Interrupted) (errorCode : Word) : List Word :=
  [BitVec.ofNat 64 vector, errorWord vector errorCode, i.rip, i.cs, i.rflags, i.rsp, i.ss]

def frameWords (regs : Reg → Word) (vector : Fin 48) (i : Interrupted) (errorCode : Word) :
    List Word := savedRegs.reverse.map regs ++ stubWords vector i errorCode

section
variable (vector : Fin 48) (i : Interrupted) (errorCode ret : Word) (s : Cpu)

theorem stack_pushInterrupted :
    (pushInterrupted i s).Stack s.rsp [i.rip, i.cs, i.rflags, i.rsp, i.ss] := by
  have h0 : s.Stack s.rsp [] := OnStack.nil
  have h1 := h0.push (by decide) i.ss
  have h2 := h1.push (by simp) i.rsp
  have h3 := h2.push (by simp) i.rflags
  have h4 := h3.push (by simp) i.cs
  exact h4.push (by simp) i.rip

/-- Both kinds of stubs leave the error code, or a 0 in its place, below the vector. -/
theorem stack_isrStub :
    (run (deliver vector i errorCode s) (isrStub vector)).Stack s.rsp
        (stubWords vector i errorCode) ∧
      (run (deliver vector i errorCode s) (isrStub vector)).regs = s.regs := by
  have hpushed := stack_pushInterrupted i s
  unfold deliver isrStub stubWords errorWord
  split_ifs with herr
  · have hcode := hpushed.push (by simp) errorCode
    exact ⟨hcode.push (by simp) _, rfl⟩
  · have hzero := hpushed.push (by simp) 0
    exact ⟨hzero.push (by simp) _, rfl⟩

theorem dispatcherEntry_eq : dispatcherEntry vector ret s =
    (step (run (run s (isrStub vector)) (savedRegs.map .pushq)) (.movRsp .rdi)).push ret := by
  rw [dispatcherEntry, run_append]
  rfl

theorem rsp_dispatcherEntry :
    (dispatcherEntry vector ret s).rsp + 8 = (dispatcherEntry vector ret s).regs .rdi := by
  rw [dispatcherEntry_eq]
  exact sub_add_cancel _ _

/-- The argument of the dispatcher points to the frame, and the return address lies below it. -/
theorem onStack_dispatcherEntry : OnStack 8
    (dispatcherEntry vector ret (deliver vector i errorCode s)).mem
    ((dispatcherEntry vector ret (deliver vector i errorCode s)).regs .rdi) s.rsp
    (frameWords s.regs vector i errorCode) := by
  obtain ⟨hstub, hregs⟩ := stack_isrStub vector i errorCode s
  have hframe := (run_pushq savedRegs hstub (by simp [stubWords, savedRegs])).1
  rw [hregs, ← List.map_reverse] at hframe
  have hlen : (frameWords s.regs vector i errorCode).length < 2 ^ 61 := by
    change 22 < 2 ^ 61
    decide
  -- `call` pushes one more word below the frame
  have hentry : (dispatcherEntry vector ret (deliver vector i errorCode s)).Stack s.rsp
      (ret :: frameWords s.regs vector i errorCode) := by
    rw [dispatcherEntry_eq]
    exact Cpu.Stack.push hframe hlen ret
  rw [← rsp_dispatcherEntry]
  exact OnStack.pop hentry

end

/-- The frame as `interrupt_dispatcher` reads it. -/
theorem load_frameWords {regs : Reg → Word} {vector : Fin 48} {i : Interrupted} {errorCode : Word}
    {mem : Word → Word} {frame base : Word}
    (h : OnStack 8 mem frame base (frameWords regs vector i errorCode)) :
    InterruptFrame.load mem frame =
      { r15 := regs .r15, r14 := regs .r14, r13 := regs .r13, r12 := regs .r12, r11 := regs .r11
        r10 := regs .r10, r9 := regs .r9, r8 := regs .r8, rbp := regs .rbp, rdi := regs .rdi
        rsi := regs .rsi, rdx := regs .rdx, rcx := regs .rcx, rbx := regs .rbx, rax := regs .rax
        interruptNumber := BitVec.ofNat 64 vector, errorCode := errorWord vector errorCode
        rip := i.rip, cs := i.cs, rflags := i.rflags, rsp := i.rsp, ss := i.ss } := by
  simp only [InterruptFrame.load, InterruptFrame.mk.injEq]
  exact ⟨h.word_eq rfl, h.word_eq rfl, h.word_eq rfl, h.word_eq rfl, h.word_eq rfl, h.word_eq rfl,
    h.word_eq rfl, h.word_eq rfl, h.word_eq rfl, h.word_eq rfl, h.word_eq rfl, h.word_eq rfl,
    h.word_eq rfl, h.word_eq rfl, h.word_eq rfl, h.word_eq rfl, h.word_eq rfl, h.word_eq rfl,
    h.word_eq rfl, h.word_eq rfl, h.word_eq rfl, h.word_eq rfl⟩

/-- From an unchanged frame the return path restores every register. -/
theorem restore_frameWords {regs : Reg → Word} {vector : Fin 48} {i : Interrupted}
    {errorCode : Word} {s : Cpu} {base : Word}
    (h : s.Stack base (frameWords regs vector i errorCode)) :
    (run s isrCommonRestore).Stack base [i.rip, i.cs, i.rflags, i.rsp, i.ss] ∧
      ∀ r, (run s isrCommonRestore).regs r = regs r := by
  obtain ⟨hstack, hregs⟩ := run_popq savedRegs.reverse (by decide) regs h
  rw [isrCommonRestore_eq, run_append]
  constructor
  · -- `addq $16` drops the vector and the error code
    have hrip := OnStack.pop (OnStack.pop hstack)
    rw [add_assoc] at hrip
    exact hrip
  · intro r
    exact (hregs r).trans (if_pos (mem_savedRegs r))

theorem iretq_of_stack {s : Cpu} {base : Word} {i : Interrupted}
    (h : s.Stack base [i.rip, i.cs, i.rflags, i.rsp, i.ss]) : iretq s = i := by
  have hcs : s.mem (s.rsp + 1 • 8) = i.cs := OnStack.word_eq h rfl
  have hrflags : s.mem (s.rsp + 2 • 8) = i.rflags := OnStack.word_eq h rfl
  have hrsp : s.mem (s.rsp + 3 • 8) = i.rsp := OnStack.word_eq h rfl
  have hss : s.mem (s.rsp + 4 • 8) = i.ss := OnStack.word_eq h rfl
  unfold iretq
  rw [OnStack.head h]
  change Interrupted.mk _ (s.mem (s.rsp + 1 • 8)) (s.mem (s.rsp + 2 • 8)) (s.mem (s.rsp + 3 • 8))
    (s.mem (s.rsp + 4 • 8)) = i
  rw [hcs, hrflags, hrsp, hss]

/-- An interrupt on any vector: the frame shows the interrupted code, and when the dispatcher comes
back every register is as it was and the stack pointer is at the `rip` that the processor pushed, so
that `iretq` resumes the interrupted code. -/
theorem isr_transparent (vector : Fin 48) (i : Interrupted) (errorCode ret : Word) (s : Cpu) :
    InterruptFrame.load (dispatcherEntry vector ret (deliver vector i errorCode s)).mem
        ((dispatcherEntry vector ret (deliver vector i errorCode s)).regs .rdi) =
      { r15 := s.regs .r15, r14 := s.regs .r14, r13 := s.regs .r13, r12 := s.regs .r12
        r11 := s.regs .r11, r10 := s.regs .r10, r9 := s.regs .r9, r8 := s.regs .r8
        rbp := s.regs .rbp, rdi := s.regs .rdi, rsi := s.regs .rsi, rdx := s.regs .rdx
        rcx := s.regs .rcx, rbx := s.regs .rbx, rax := s.regs .rax
        interruptNumber := BitVec.ofNat 64 vector
        errorCode := if vector.val ∈ errVectors then errorCode else 0
        rip := i.rip, cs := i.cs, rflags := i.rflags, rsp := i.rsp, ss := i.ss } ∧
    ∀ (dispatcher : Cpu → Option Cpu) (s' : Cpu),
      dispatcher (dispatcherEntry vector ret (deliver vector i errorCode s)) = some s' →
      Returned (dispatcherEntry vector ret (deliver vector i errorCode s)) s' →
      ∃ final, isr dispatcher vector ret (deliver vector i errorCode s) = some final ∧
        (∀ r, final.regs r = s.regs r) ∧ final.rsp = (pushInterrupted i s).rsp ∧
        iretq final = i := by
  have hentry := onStack_dispatcherEntry vector i errorCode ret s
  refine ⟨load_frameWords hentry, ?_⟩
  intro dispatcher s' hreturn h
  have hrsp : s'.rsp = (dispatcherEntry vector ret (deliver vector i errorCode s)).regs .rdi := by
    rw [h.rsp, rsp_dispatcherEntry]
  have hframe : s'.Stack s.rsp (frameWords s.regs vector i errorCode) := by
    unfold Cpu.Stack
    rw [hrsp]
    exact hentry.congr h.frame
  obtain ⟨hstack, hregs⟩ := restore_frameWords hframe
  refine ⟨run s' isrCommonRestore, ?_, hregs, ?_, iretq_of_stack hstack⟩
  · rw [isr, hreturn, Option.map_some]
  · -- both stack pointers are five words below the top
    exact add_right_cancel (hstack.base.trans (stack_pushInterrupted i s).base.symm)

/-- A dispatcher that leaves other values in all registers it may change. -/
def scratchDispatcher (s : Cpu) : Option Cpu :=
  some { s with
    regs := fun r =>
      if r ∈ [Reg.rbx, .rbp, .r12, .r13, .r14, .r15] then s.regs r else 0xdead
    rsp := s.rsp + 8 }

/-- Code at `0x401000` that takes a page fault. -/
def faulting : Interrupted := ⟨0x401000, 0x08, 0x202, 0x7ff8, 0x10⟩

theorem isr_transparent_pageFault : ∃ final,
    isr scratchDispatcher 14 0x402000 (deliver 14 faulting 2 ⟨fun _ => 7, 0x7ff0, fun _ => 0⟩) =
      some final ∧ (∀ r, final.regs r = 7) ∧
      final.rsp = (pushInterrupted faulting ⟨fun _ => 7, 0x7ff0, fun _ => 0⟩).rsp ∧
      iretq final = faulting :=
  (isr_transparent 14 faulting 2 0x402000 ⟨fun _ => 7, 0x7ff0, fun _ => 0⟩).2 scratchDispatcher _ rfl
    ⟨rfl, fun _ hr => if_pos hr, fun _ _ => rfl⟩

end MathUnikernel.Isr
