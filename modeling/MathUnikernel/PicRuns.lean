import MathUnikernel.Library.Runs
import MathUnikernel.Pic

/-!
# Interrupts over whole runs

The two controllers, the devices on their lines and the kernel, from the first write of `pic_remap`
on.  Between any two accesses of the kernel devices may raise a line or lower it again.
-/

namespace MathUnikernel.Pic
open Arbiter ByteBitmap Pci Runs

/-- Where the kernel is: in `pic_remap` with the writes still to come, outside the dispatcher, in it
before the handler of an interrupt, in `pic_send_eoi` with the ports still to come, or stopped. -/
inductive Pc
  | remap (rest : List Write)
  | running
  | handler (irq : UInt8)
  | eoi (rest : List UInt16)
  | halted
  deriving DecidableEq

/-- `interrupts` is the interrupt flag. -/
structure System where
  pics : Pair
  interrupts : Bool
  pc : Pc

/-- `interrupt_dispatcher` up to the call of the handler.  The table has no gate above vector 47, and
the dispatcher stops for an exception. -/
def dispatch (vector : UInt8) : Pc :=
  if 32 ≤ vector ∧ vector ≤ 47 then .handler (vector - 32) else .halted

inductive Event
  | request (irq : Irq)
  | withdraw (irq : Irq)
  | cascade
  | write
  | remapped
  | unmask (irq : UInt8)
  | sti
  | cli
  | interrupt (vector : UInt8) (taken : Option Irq)
  | call (irq : UInt8)
  | eoi
  | iret
  deriving DecidableEq

/-- An edge on a line whose request waits already changes nothing and is no step.  The processor may
find that the request has gone, so an interrupt needs none. -/
inductive Step : System → Event → System → Prop
  | request {s : System} {irq : Irq} (hirq : irq ≠ 2) (hnot : ¬s.pics.Requested irq) :
      Step s (.request irq) { s with pics := s.pics.request irq }
  | withdraw {s : System} {irq : Irq} (hirq : irq ≠ 2) (hreq : s.pics.Requested irq) :
      Step s (.withdraw irq) { s with pics := s.pics.withdraw irq }
  | cascade {s : System} (hint : s.pics.pic2.candidates.Nonempty) (hnot : ¬s.pics.Requested 2) :
      Step s .cascade { s with pics := s.pics.cascade }
  | write {s : System} {w : Write} {rest : List Write} (hpc : s.pc = .remap (w :: rest)) :
      Step s .write { s with pics := s.pics.outb w, pc := .remap rest }
  | remapped {s : System} (hpc : s.pc = .remap []) : Step s .remapped { s with pc := .running }
  | unmask {s : System} (irq : UInt8) (hpc : s.pc = .running) :
      Step s (.unmask irq) { s with pics := picUnmask irq s.pics }
  | sti {s : System} (hpc : s.pc = .running) : Step s .sti { s with interrupts := true }
  | cli {s : System} (hpc : s.pc = .running) : Step s .cli { s with interrupts := false }
  | interrupt {s : System} {vector : UInt8} {taken : Option Irq} {pics : Pair}
      (hpc : s.pc = .running) (hif : s.interrupts = true)
      (hack : s.pics.acknowledge = (vector, taken, pics)) :
      Step s (.interrupt vector taken) ⟨pics, false, dispatch vector⟩
  | call {s : System} {irq : UInt8} (hpc : s.pc = .handler irq) :
      Step s (.call irq) { s with pc := .eoi (eoiPorts irq) }
  | eoi {s : System} {port : UInt16} {rest : List UInt16} (hpc : s.pc = .eoi (port :: rest)) :
      Step s .eoi { s with pics := s.pics.outb (port, picEoi), pc := .eoi rest }
  | iret {s : System} (hpc : s.pc = .eoi []) :
      Step s .iret { s with interrupts := true, pc := .running }

/-- The kernel enters `pic_remap(32, 40)` with interrupts disabled and reads the masks. -/
def boot (p : Pair) : System where
  pics := p
  interrupts := false
  pc := .remap (remapWrites 32 40 (p.inb pic1Data) (p.inb pic2Data))

/-! ## Programming the controllers -/

section
variable {p : Pair} {irq : Irq} {f : State (Fin 8) → State (Fin 8)}

/-- What is in service when `f` changes requests only. -/
theorem inService_setLevels (hf : ∀ s, (f s).inService = s.inService) :
    (p.setLevels irq f).pic1.levels.inService = p.pic1.levels.inService ∧
      (p.setLevels irq f).pic2.levels.inService = p.pic2.levels.inService := by
  unfold Pair.setLevels
  split_ifs
  · exact ⟨hf _, rfl⟩
  · exact ⟨rfl, hf _⟩

end

/-- During `pic_remap`: the setup is what the writes so far make of the state before them, and a
controller whose first word has been written has nothing in service. -/
structure Remapping (p : Pair) (s : System) (rest : List Write) : Prop where
  written : ∃ done, done ++ rest = remapWrites 32 40 (p.inb pic1Data) (p.inb pic2Data) ∧
    SameSetup s.pics (done.foldl Pair.outb p)
  idle1 : pic1Command ∉ rest.map Prod.fst → s.pics.pic1.levels.Idle
  idle2 : pic2Command ∉ rest.map Prod.fst → s.pics.pic2.levels.Idle
  disabled : s.interrupts = false

/-- The ports to which an end of interrupt is still to be written. -/
def Pc.due : Pc → List UInt16
  | .handler irq => eoiPorts irq
  | .eoi rest => rest
  | _ => []

/-- After `pic_remap`: at most one level of each controller is in service, and none when no end of
interrupt is due to it. -/
structure Serviced (s : System) : Prop where
  ready : s.pics.Ready 32 40
  card1 : s.pics.pic1.levels.inService.card ≤ 1
  card2 : s.pics.pic2.levels.inService.card ≤ 1
  idle1 : pic1Command ∉ s.pc.due → s.pics.pic1.levels.Idle
  idle2 : pic2Command ∉ s.pc.due → s.pics.pic2.levels.Idle
  due : ∀ port ∈ s.pc.due, port = pic1Command ∨ port = pic2Command
  disabled : s.pc ≠ .running → s.interrupts = false
  going : s.pc ≠ .halted
  registered : ∀ irq, s.pc = .handler irq → irq < 16

/-- The kernel has left `pic_remap`. -/
def System.Remapped (s : System) : Prop := ∀ rest, s.pc ≠ .remap rest

/-- The invariant of all runs from `boot p`. -/
structure Inv (p : Pair) (s : System) : Prop where
  remapping : ∀ rest, s.pc = .remap rest → Remapping p s rest
  serviced : s.Remapped → Serviced s

/-! ## Steps of the devices -/

section
variable {p : Pair} {s : System} {q : Pair}

theorem Serviced.quiet (h : Serviced s) (hsame : SameSetup q s.pics)
    (h1 : q.pic1.levels.inService = s.pics.pic1.levels.inService)
    (h2 : q.pic2.levels.inService = s.pics.pic2.levels.inService) :
    Serviced { s with pics := q } where
  ready := h.ready.of_sameSetup hsame
  card1 := (congrArg Finset.card h1).trans_le h.card1
  card2 := (congrArg Finset.card h2).trans_le h.card2
  idle1 hdue := h1.trans (h.idle1 hdue)
  idle2 hdue := h2.trans (h.idle2 hdue)
  due := h.due
  disabled := h.disabled
  going := h.going
  registered := h.registered

theorem Remapping.quiet {rest : List Write} (h : Remapping p s rest) (hsame : SameSetup q s.pics)
    (h1 : q.pic1.levels.inService = s.pics.pic1.levels.inService)
    (h2 : q.pic2.levels.inService = s.pics.pic2.levels.inService) :
    Remapping p { s with pics := q } rest where
  written := by
    obtain ⟨done, hdone, hset⟩ := h.written
    exact ⟨done, hdone, hsame.trans hset⟩
  idle1 hnot := h1.trans (h.idle1 hnot)
  idle2 hnot := h2.trans (h.idle2 hnot)
  disabled := h.disabled

/-- A step that only makes or takes back requests. -/
theorem Inv.quiet (h : Inv p s) (hsame : SameSetup q s.pics)
    (h1 : q.pic1.levels.inService = s.pics.pic1.levels.inService)
    (h2 : q.pic2.levels.inService = s.pics.pic2.levels.inService) :
    Inv p { s with pics := q } where
  remapping rest hpc := (h.remapping rest hpc).quiet hsame h1 h2
  serviced hpc := (h.serviced hpc).quiet hsame h1 h2

theorem Inv.setLevels (h : Inv p s) (irq : Irq) {f : State (Fin 8) → State (Fin 8)}
    (hf : ∀ s, (f s).inService = s.inService) :
    Inv p { s with pics := s.pics.setLevels irq f } :=
  h.quiet (sameSetup_setLevels irq f _) (inService_setLevels hf).1 (inService_setLevels hf).2

end

/-! ## Steps of `pic_remap` -/

theorem idle_outbCommand (c : Controller) : (c.outbCommand icw1Init).levels.Idle := by
  have hinit : bit icw1Init 4 = true := by decide
  unfold Controller.outbCommand
  rw [hinit]
  rfl

/-- The writes to the command ports start the initialization. -/
theorem value_of_command (offset1 offset2 mask1 mask2 : UInt8) :
    ∀ w ∈ remapWrites offset1 offset2 mask1 mask2, w.1 = pic1Command ∨ w.1 = pic2Command →
      w.2 = icw1Init := by
  simp [remapWrites, pic1Command, pic1Data, pic2Command, pic2Data]

theorem Remapping.write {p : Pair} {s : System} {w : Write} {rest : List Write}
    (h : Remapping p s (w :: rest)) :
    Remapping p { s with pics := s.pics.outb w, pc := .remap rest } rest := by
  obtain ⟨done, hdone, hset⟩ := h.written
  have hw : w ∈ remapWrites 32 40 (p.inb pic1Data) (p.inb pic2Data) := by
    rw [← hdone]
    simp
  have hinit := value_of_command _ _ _ _ w hw
  refine ⟨⟨done ++ [w], by rw [List.append_assoc]; exact hdone, ?_⟩, ?_, ?_, h.disabled⟩
  · rw [List.foldl_append]
    exact hset.outb w
  · intro hnot
    by_cases hport : w.1 = pic1Command
    · rw [Pair.outb, if_pos hport, hinit (.inl hport)]
      exact idle_outbCommand _
    · have hidle := h.idle1 (by simp only [List.map_cons, List.mem_cons, not_or]; exact ⟨Ne.symm hport, hnot⟩)
      unfold Pair.outb
      split_ifs <;> exact hidle
  · intro hnot
    by_cases hport : w.1 = pic2Command
    · have h1 : w.1 ≠ pic1Command := by rw [hport]; decide
      have h2 : w.1 ≠ pic1Data := by rw [hport]; decide
      rw [Pair.outb, if_neg h1, if_neg h2, if_pos hport, hinit (.inr hport)]
      exact idle_outbCommand _
    · have hidle := h.idle2 (by simp only [List.map_cons, List.mem_cons, not_or]; exact ⟨Ne.symm hport, hnot⟩)
      unfold Pair.outb
      split_ifs <;> exact hidle

theorem Remapping.remapped {p : Pair} {s : System} (h : Remapping p s []) :
    Serviced { s with pc := .running } where
  ready := by
    obtain ⟨done, hdone, hset⟩ := h.written
    rw [List.append_nil] at hdone
    rw [hdone] at hset
    exact (ready_picRemap 32 40 p).of_sameSetup hset
  card1 := by simp [show s.pics.pic1.levels.inService = ∅ from h.idle1 (by simp)]
  card2 := by simp [show s.pics.pic2.levels.inService = ∅ from h.idle2 (by simp)]
  idle1 _ := h.idle1 (by simp)
  idle2 _ := h.idle2 (by simp)
  due := by simp [Pc.due]
  disabled hpc := absurd rfl hpc
  going := by simp
  registered := by simp

/-! ## Steps of the kernel -/

section
variable {s : System} (h : Serviced s)
include h

theorem Serviced.idle (hpc : s.pc = .running) :
    s.pics.pic1.levels.Idle ∧ s.pics.pic2.levels.Idle :=
  ⟨h.idle1 (by simp [hpc, Pc.due]), h.idle2 (by simp [hpc, Pc.due])⟩

theorem Serviced.unmask (irq : UInt8) : Serviced { s with pics := picUnmask irq s.pics } := by
  obtain ⟨-, hready, h1, h2⟩ := picUnmask_eq h.ready irq (Machine.boot (fun _ _ => 0) 0 0)
  refine ⟨hready, ?_, ?_, ?_, ?_, h.due, h.disabled, h.going, h.registered⟩
  · simp only [h1]; exact h.card1
  · simp only [h2]; exact h.card2
  · simp only [h1]; exact h.idle1
  · simp only [h2]; exact h.idle2

theorem Serviced.setInterrupts (hpc : s.pc = .running) (b : Bool) :
    Serviced { s with interrupts := b } :=
  ⟨h.ready, h.card1, h.card2, h.idle1, h.idle2, h.due, fun hne => absurd hpc hne, h.going,
    h.registered⟩

theorem Serviced.call {irq : UInt8} (hpc : s.pc = .handler irq) :
    Serviced { s with pc := .eoi (eoiPorts irq) } := by
  have hdue : s.pc.due = eoiPorts irq := by rw [hpc]; rfl
  have h1 := h.idle1
  have h2 := h.idle2
  have hports := h.due
  rw [hdue] at h1 h2 hports
  exact ⟨h.ready, h.card1, h.card2, h1, h2, hports, fun _ => h.disabled (by simp [hpc]), by simp,
    by simp⟩

theorem Serviced.iret (hpc : s.pc = .eoi []) :
    Serviced { s with interrupts := true, pc := .running } := by
  refine ⟨h.ready, h.card1, h.card2, fun _ => h.idle1 ?_, fun _ => h.idle2 ?_, ?_, ?_, by simp,
    by simp⟩
  · simp [hpc, Pc.due]
  · simp [hpc, Pc.due]
  · simp [Pc.due]
  · exact fun hne => absurd rfl hne

end

theorem outbCommand_eoi (c : Controller) :
    c.outbCommand picEoi = { c with levels := c.levels.finish } := by
  have hinit : bit picEoi 4 = false := by decide
  simp [Controller.outbCommand, hinit]

/-- The end of interrupt leaves the controller it is written to with nothing in service. -/
theorem Serviced.eoi {s : System} (h : Serviced s) {port : UInt16} {rest : List UInt16}
    (hpc : s.pc = .eoi (port :: rest)) :
    Serviced { s with pics := s.pics.outb (port, picEoi), pc := .eoi rest } := by
  have hdue : s.pc.due = port :: rest := by rw [hpc]; rfl
  have hports := h.due
  have h1 := h.idle1
  have h2 := h.idle2
  rw [hdue] at hports h1 h2
  have hrest : ∀ q ∈ rest, q = pic1Command ∨ q = pic2Command :=
    fun q hq => hports q (List.mem_cons_of_mem _ hq)
  have hdisabled : s.interrupts = false := h.disabled (by simp [hpc])
  have hne : pic1Command ≠ pic2Command := by decide
  rcases hports port List.mem_cons_self with rfl | rfl
  · have hidle := State.idle_finish h.card1
    rw [outb_pic1Command, outbCommand_eoi]
    refine ⟨h.ready.of_sameSetup ⟨rfl, rfl⟩, ?_, h.card2, fun _ => hidle, ?_, hrest,
      fun _ => hdisabled, by simp, by simp⟩
    · exact (congrArg Finset.card hidle).trans_le (by simp)
    · intro hnot
      exact h2 (fun hmem => (List.mem_cons.mp hmem).elim hne.symm hnot)
  · have hidle := State.idle_finish h.card2
    rw [outb_pic2Command, outbCommand_eoi]
    refine ⟨h.ready.of_sameSetup ⟨rfl, rfl⟩, h.card1, ?_, ?_, fun _ => hidle, hrest,
      fun _ => hdisabled, by simp, by simp⟩
    · exact (congrArg Finset.card hidle).trans_le (by simp)
    · intro hnot
      exact h1 (fun hmem => (List.mem_cons.mp hmem).elim hne hnot)

/-! ## Interrupts -/

/-- The vector of a line, or the last vector of a controller for a request that has gone. -/
inductive Arrives : UInt8 → Option Irq → Prop
  | line (irq : Irq) (hirq : irq ≠ 2) : Arrives (lineVector irq) (some irq)
  | spurious1 : Arrives (lineVector 7) none
  | spurious2 : Arrives (lineVector 15) none

theorem dispatch_line (irq : Irq) : dispatch (lineVector irq) = .handler (UInt8.ofNat irq) := by
  revert irq
  decide

theorem dispatch_ne_remap (vector : UInt8) (rest : List Write) : dispatch vector ≠ .remap rest := by
  unfold dispatch
  split_ifs <;> simp

theorem dispatch_ne_running (vector : UInt8) : dispatch vector ≠ .running := by
  unfold dispatch
  split_ifs <;> simp

theorem eoiPorts_line (irq : Irq) : eoiPorts (UInt8.ofNat irq) =
    if irq.val < 8 then [pic1Command] else [pic2Command, pic1Command] := by
  revert irq
  decide

theorem ofNat_lt (irq : Irq) : UInt8.ofNat irq < 16 := by
  revert irq
  decide

/-- The dispatcher is entered for a line. -/
theorem Serviced.enter {pics : Pair} (hready : pics.Ready 32 40) (irq : Irq)
    (h1 : pics.pic1.levels.inService.card ≤ 1) (h2 : pics.pic2.levels.inService.card ≤ 1)
    (hidle : irq.val < 8 → pics.pic2.levels.Idle) :
    Serviced ⟨pics, false, .handler (UInt8.ofNat irq)⟩ := by
  have hdue : (Pc.handler (UInt8.ofNat irq)).due =
      if irq.val < 8 then [pic1Command] else [pic2Command, pic1Command] := eoiPorts_line irq
  refine ⟨hready, h1, h2, fun hnot => ?_, fun hnot => ?_, ?_, fun _ => rfl, by simp, ?_⟩
  · simp only [hdue] at hnot
    exact absurd (by split_ifs <;> simp) hnot
  · simp only [hdue] at hnot
    by_cases hlow : irq.val < 8
    · exact hidle hlow
    · simp [hlow] at hnot
  · simp only [hdue]
    split_ifs <;> simp
  · intro n hn
    rw [← Pc.handler.inj hn]
    exact ofNat_lt irq

theorem card_le_of_idle {t : State (Fin 8)} (h : t.Idle) : t.inService.card ≤ 1 :=
  (congrArg Finset.card h).trans_le (by simp)

theorem Serviced.interrupt {s : System} (h : Serviced s) {vector : UInt8} {taken : Option Irq}
    {pics : Pair} (hpc : s.pc = .running) (hack : s.pics.acknowledge = (vector, taken, pics)) :
    Serviced ⟨pics, false, dispatch vector⟩ ∧ Arrives vector taken := by
  obtain ⟨hidle1, hidle2⟩ := h.idle hpc
  have hsame := sameSetup_acknowledge s.pics
  rw [hack] at hsame
  have hready := h.ready.of_sameSetup hsame
  have hcard1 := card_le_of_idle hidle1
  have hcard2 := card_le_of_idle hidle2
  rcases acknowledge_spec h.ready hack with ⟨-, rfl, rfl, rfl⟩ | ⟨i, -, hi, rfl, rfl, rfl⟩ |
    ⟨-, -, rfl, rfl, rfl⟩ | ⟨j, -, -, rfl, rfl, rfl⟩
  · rw [dispatch_line]
    exact ⟨Serviced.enter hready 7 hcard1 hcard2 fun _ => hidle2, .spurious1⟩
  · have hline : line1 i ≠ 2 := fun heq => hi (Fin.castAdd_injective 8 8 heq)
    rw [dispatch_line]
    exact ⟨Serviced.enter hready _ (hidle1.card_serve i).le hcard2 fun _ => hidle2, .line _ hline⟩
  · rw [dispatch_line]
    refine ⟨Serviced.enter hready 15 (hidle1.card_serve 2).le hcard2 ?_, .spurious2⟩
    exact fun hlow => absurd hlow (by decide)
  · have hline : ∀ j : Fin 8, line2 j ≠ (2 : Irq) := by decide
    rw [dispatch_line]
    refine ⟨Serviced.enter hready _ (hidle1.card_serve 2).le (hidle2.card_serve j).le ?_,
      .line _ (hline j)⟩
    exact fun hlow => absurd hlow (by simp [line2])

/-! ## Runs -/

theorem inv_boot (p : Pair) : Inv p (boot p) where
  remapping rest hpc := by
    obtain rfl := Pc.remap.inj hpc
    refine ⟨⟨[], rfl, SameSetup.refl p⟩, fun hnot => ?_, fun hnot => ?_, rfl⟩
    · exact absurd (by simp [remapWrites]) hnot
    · exact absurd (by simp [remapWrites]) hnot
  serviced hne := absurd rfl (hne _)

theorem Inv.of_serviced {p : Pair} {s : System} (h : Serviced s) (hpc : s.Remapped) : Inv p s where
  remapping rest heq := absurd heq (hpc rest)
  serviced _ := h

theorem remapped_of {s : System} {pc : Pc} (h : s.pc = pc) (hne : ∀ rest, pc ≠ .remap rest) :
    s.Remapped := fun rest heq => hne rest (h.symm.trans heq)

theorem Inv.step {p : Pair} {s t : System} {e : Event} (h : Inv p s) (hstep : Step s e t) :
    Inv p t := by
  cases hstep with
  | request _ _ => exact h.setLevels _ (f := fun s => s.request _) fun _ => rfl
  | withdraw _ _ => exact h.setLevels _ (f := fun s => s.withdraw _) fun _ => rfl
  | cascade _ _ => exact h.setLevels 2 (f := fun s => s.request _) fun _ => rfl
  | write hpc =>
    refine ⟨fun rest heq => ?_, fun hne => absurd rfl (hne _)⟩
    obtain rfl := Pc.remap.inj heq
    exact (h.remapping _ hpc).write
  | remapped hpc => exact .of_serviced (h.remapping _ hpc).remapped fun _ => by simp
  | unmask irq hpc =>
    have hout := remapped_of hpc fun _ => by simp
    exact .of_serviced ((h.serviced hout).unmask irq) hout
  | sti hpc | cli hpc =>
    have hout := remapped_of hpc fun _ => by simp
    exact .of_serviced ((h.serviced hout).setInterrupts hpc _) hout
  | interrupt hpc hif hack =>
    have hout := remapped_of hpc fun _ => by simp
    exact .of_serviced ((h.serviced hout).interrupt hpc hack).1 (dispatch_ne_remap _)
  | call hpc =>
    exact .of_serviced ((h.serviced (remapped_of hpc fun _ => by simp)).call hpc) fun _ => by simp
  | eoi hpc =>
    exact .of_serviced ((h.serviced (remapped_of hpc fun _ => by simp)).eoi hpc) fun _ => by simp
  | iret hpc =>
    exact .of_serviced ((h.serviced (remapped_of hpc fun _ => by simp)).iret hpc) fun _ => by simp

theorem System.Remapped.step {s t : System} {e : Event} (h : s.Remapped) (hstep : Step s e t) :
    t.Remapped := by
  intro rest
  cases hstep with
  | request _ _ | withdraw _ _ | cascade _ _ | unmask _ _ | sti _ | cli _ => exact h rest
  | write hpc => exact absurd hpc (h _)
  | remapped _ | call _ | eoi _ | iret _ => simp
  | interrupt _ _ _ => exact dispatch_ne_remap _ rest

theorem Step.interrupted {s t : System} {vector : UInt8} {taken : Option Irq}
    (h : Step s (.interrupt vector taken) t) :
    s.pc = .running ∧ s.pics.acknowledge = (vector, taken, t.pics) := by
  cases h with
  | interrupt hpc _ hack => exact ⟨hpc, hack⟩

theorem inv_of_run {p : Pair} {tr : List (System × Event × System)} {s : System}
    (hrun : Run Step (boot p) tr s) : Inv p s ∧ ∀ x ∈ tr, Inv p x.1 ∧ Inv p x.2.2 :=
  hrun.invariant (inv_boot p) fun _ _ _ => Inv.step

/-- The writes of `pic_remap` one after the other. -/
theorem run_writes {s₀ s : System} {tr : List (System × Event × System)} {rest : List Write}
    (hrun : Run Step s₀ tr s) (hpc : s.pc = .remap rest) :
    ∃ tr', Run Step s₀ tr' { s with pics := rest.foldl Pair.outb s.pics, pc := .running } := by
  induction rest generalizing tr s with
  | nil => exact ⟨_, hrun.snoc (.remapped hpc)⟩
  | cons w rest ih => exact ih (hrun.snoc (.write hpc)) rfl

theorem run_remap (p : Pair) :
    ∃ tr, Run Step (boot p) tr ⟨picRemap 32 40 p, false, .running⟩ := run_writes .nil rfl

/-- Controllers without a setup. -/
def coldPair : Pair :=
  ⟨⟨⟨0, 0, 0, 0, 0xff, none⟩, ⟨∅, ∅⟩⟩, ⟨⟨0, 0, 0, 0, 0xff, none⟩, ⟨∅, ∅⟩⟩⟩

/-- A card on line 11 has raised its first interrupt. -/
def line11 : System where
  pics := (picUnmask 11 (picRemap 32 40 coldPair)).request ⟨11, by decide⟩
  interrupts := true
  pc := .running

/-- Line 11 is unmasked and interrupts are enabled. -/
theorem run_open11 : ∃ tr, Run Step (boot coldPair) tr
    ⟨picUnmask 11 (picRemap 32 40 coldPair), true, .running⟩ := by
  obtain ⟨tr, hrun⟩ := run_remap coldPair
  have hunmask := hrun.snoc (.unmask 11 rfl)
  exact ⟨_, hunmask.snoc (.sti rfl)⟩

theorem request_line11 : Step ⟨picUnmask 11 (picRemap 32 40 coldPair), true, .running⟩
    (.request ⟨11, by decide⟩) line11 := .request (by decide) (by decide)

theorem run_line11 : ∃ tr, Run Step (boot coldPair) tr line11 := by
  obtain ⟨tr, hrun⟩ := run_open11
  exact ⟨_, hrun.snoc request_line11⟩

/-- The kernel is interrupted for line 11, calls its handler and returns. -/
theorem run_served11 : ∃ tr s tr' t, Run Step line11 tr s ∧
    tr.map (·.2.1) = [.cascade, .interrupt 43 (some 11)] ∧ s.pc = .handler 11 ∧
    Run Step s tr' t ∧ tr'.map (·.2.1) = [.call 11, .eoi, .eoi, .iret] ∧ t.pc = .running := by
  have hcascade : Step line11 .cascade { line11 with pics := line11.pics.cascade } :=
    .cascade (by decide) (by decide)
  have hack : line11.pics.cascade.acknowledge =
      (43, some 11, line11.pics.cascade.acknowledge.2.2) := by decide
  have hentered := (Run.nil.snoc hcascade).snoc (.interrupt rfl rfl hack)
  have hdispatch : dispatch 43 = .handler 11 := by decide
  rw [hdispatch] at hentered
  have hcalled := (Run.nil : Run Step _ [] _).snoc
    (.call (rfl : (⟨line11.pics.cascade.acknowledge.2.2, false, .handler 11⟩ : System).pc = _))
  have heoi := (hcalled.snoc (.eoi rfl)).snoc (.eoi rfl)
  exact ⟨_, _, _, _, hentered, rfl, rfl, heoi.snoc (.iret rfl), rfl, rfl⟩

/-- Whatever the controllers and the devices did before, the kernel is interrupted only on the
vectors 32 to 47, each time for the line of the vector or on the last vector of a controller whose
request has gone.  The dispatcher never stops, reads `irq_handlers` in its bounds, and leaves nothing
in service. -/
theorem irqs_serviced {p : Pair} {tr : List (System × Event × System)} {s : System}
    (hrun : Run Step (boot p) tr s) :
    (∀ x ∈ tr, ∀ vector taken, x.2.1 = .interrupt vector taken → Arrives vector taken) ∧
      s.pc ≠ .halted ∧ (∀ irq, s.pc = .handler irq → irq < 16) ∧
      (s.pc = .running → s.pics.pic1.levels.Idle ∧ s.pics.pic2.levels.Idle) := by
  obtain ⟨hend, hall⟩ := inv_of_run hrun
  refine ⟨fun x hx vector taken he => ?_, fun hpc => ?_, fun irq hpc => ?_, fun hpc => ?_⟩
  · have hstep := hrun.step_of_mem hx
    rw [he] at hstep
    obtain ⟨hpc, hack⟩ := hstep.interrupted
    exact (((hall x hx).1.serviced (remapped_of hpc fun _ => by simp)).interrupt hpc hack).2
  · exact (hend.serviced (remapped_of hpc fun _ => by simp)).going hpc
  · exact (hend.serviced (remapped_of hpc fun _ => by simp)).registered irq hpc
  · exact (hend.serviced (remapped_of hpc fun _ => by simp)).idle hpc

/-- One interrupt for line 11, seen in the dispatcher and after its return. -/
theorem irqs_serviced_line11 : ∃ tr s tr' t, Run Step (boot coldPair) tr s ∧
    (∃ x ∈ tr, x.2.1 = .interrupt 43 (some 11)) ∧ Arrives 43 (some 11) ∧ s.pc ≠ .halted ∧
    s.pc = .handler 11 ∧ (11 : UInt8) < 16 ∧ Run Step s tr' t ∧ t.pc = .running ∧
    t.pics.pic1.levels.Idle ∧ t.pics.pic2.levels.Idle := by
  obtain ⟨tr₀, hrun₀⟩ := run_line11
  obtain ⟨tr, s, tr', t, hrun, hlabels, hpc, hrun', -, hpc'⟩ := run_served11
  have hentered := hrun₀.append hrun
  obtain ⟨harrives, hgoing, hbounds, -⟩ := irqs_serviced hentered
  obtain ⟨x, hx, hevent⟩ : ∃ x ∈ tr, x.2.1 = .interrupt 43 (some 11) := by
    apply List.exists_of_mem_map
    rw [hlabels]
    simp
  have hmem := List.mem_append_right tr₀ hx
  obtain ⟨hidle1, hidle2⟩ := (irqs_serviced (hentered.append hrun')).2.2.2 hpc'
  exact ⟨_, s, tr', t, hentered, ⟨x, hmem, hevent⟩, harrives x hmem _ _ hevent, hgoing, hpc,
    hbounds _ hpc, hrun', hpc', hidle1, hidle2⟩

end MathUnikernel.Pic
