import MathUnikernel.Library.Mailbox
import MathUnikernel.I219Delivery

/-!
# The I219 as a mailbox

The ring with the Interrupt Cause Read register, which `i219_interrupt_handler` reads before it calls
`i219_poll_rx`.
-/

namespace MathUnikernel.I219
open Mailbox Network Runs

/-- `rxt0` is the bit of `ICR` that a received frame sets; the handler is about to read the register
if `reading`. -/
structure System where
  driver : Driver
  rxt0 : Bool
  reading : Bool

/-- Reading `ICR` clears it. -/
def System.step (s : System) : Event → Option System
  | .nic p => (s.driver.step (.nic p)).map fun driver => { s with driver, rxt0 := true }
  | .poll =>
    if s.reading then none else (s.driver.step .poll).map fun driver => { s with driver }
  | .irq =>
    if s.driver.handler = none ∧ s.reading = false then some { s with reading := true } else none
  | .cpu =>
    if s.reading then (s.driver.step .irq).map fun driver => ⟨driver, false, false⟩
    else (s.driver.step .cpu).map fun driver => { s with driver }

def SystemStep (s : System) (e : Event) (s' : System) : Prop := s.step e = some s'

/-- One of the contexts is in `i219_poll_rx`. -/
def Driver.polling (s : Driver) : Bool := s.main.isSome || s.handler.isSome

def System.mailbox (s : System) : Mailbox.State Frame :=
  ofLogs (goodFrames s.driver.stored) s.driver.passed s.rxt0 s.driver.polling

/-- The frame that an event brings, unless the card reports errors. -/
def Event.brings : Event → List Frame
  | .nic p => goodFrames [p]
  | _ => []

structure SystemInv (s : System) : Prop where
  ring : ∃ d, RingInv s.driver d
  reading : s.reading = true → s.driver.Free

/-! ## What a statement does to the logs -/

@[simp] theorem statement_stored (s : Driver) (pc : PollPc) :
    (s.statement pc).1.stored = s.stored := by
  cases pc with
  | deliver packet length errors =>
    simp only [Driver.statement]
    split_ifs <;> rfl
  | _ => rfl

@[simp] theorem statement_main (s : Driver) (pc : PollPc) : (s.statement pc).1.main = s.main := by
  cases pc with
  | deliver packet length errors =>
    simp only [Driver.statement]
    split_ifs <;> rfl
  | _ => rfl

@[simp] theorem statement_handler (s : Driver) (pc : PollPc) :
    (s.statement pc).1.handler = s.handler := by
  cases pc with
  | deliver packet length errors =>
    simp only [Driver.statement]
    split_ifs <;> rfl
  | _ => rfl

theorem statement_passed (s : Driver) (pc : PollPc) :
    (s.statement pc).1.passed = s.passed ∨ ∃ f, (s.statement pc).1.passed = s.passed ++ [f] := by
  cases pc with
  | deliver packet length errors =>
    simp only [Driver.statement]
    split_ifs
    · exact .inl rfl
    · exact .inr ⟨_, rfl⟩
  | _ => exact .inl rfl

/-- `i219_poll_rx` returns from its test only. -/
theorem test_of_returned {s : Driver} {pc : PollPc} (h : (s.statement pc).2 = none) :
    pc = .test ∧ (s.desc s.rxTail).dd = false := by
  cases pc with
  | test =>
    refine ⟨rfl, ?_⟩
    by_contra hdd
    simp [Driver.statement, hdd] at h
  | deliver packet length errors =>
    simp only [Driver.statement] at h
    split_ifs at h
  | _ => exact absurd h (by simp [Driver.statement])

theorem RingInv.passed_first {s : Driver} {d : ℕ} (h : RingInv s d) : s.passed <+: goodFrames s.stored :=
  h.inOrder.passed

/-- What the next statement does, whichever context it belongs to. -/
structure Turn (s t : Driver) (pc : PollPc) : Prop where
  polling : s.polling = true
  stored : t.stored = s.stored
  passed : t.passed = (s.statement pc).1.passed
  /-- If no context is left in `i219_poll_rx`, the last one has found the ring empty. -/
  left : t.polling = false → t.Drained ∧ t.passed = s.passed

theorem turn_of_cpu {s t : Driver} (hstep : Step s .cpu t) : ∃ pc, Turn s t pc := by
  unfold Step Driver.step at hstep
  cases hhandler : s.handler with
  | some pc =>
    simp only [hhandler] at hstep
    obtain rfl := Option.some.inj hstep
    refine ⟨pc, by simp [Driver.polling, hhandler], statement_stored s pc, rfl, fun hleft => ?_⟩
    have hnone : (s.statement pc).1.main = none ∧ (s.statement pc).2 = none := by
      simpa [Driver.polling] using hleft
    obtain ⟨rfl, hdd⟩ := test_of_returned hnone.2
    exact ⟨⟨hnone.1, hnone.2, hdd⟩, rfl⟩
  | none =>
    cases hmain : s.main with
    | some pc =>
      simp only [hhandler, hmain] at hstep
      obtain rfl := Option.some.inj hstep
      refine ⟨pc, by simp [Driver.polling, hmain], statement_stored s pc, rfl, fun hleft => ?_⟩
      have hnone : (s.statement pc).2 = none ∧ (s.statement pc).1.handler = none := by
        simpa [Driver.polling] using hleft
      obtain ⟨rfl, hdd⟩ := test_of_returned hnone.1
      exact ⟨⟨hnone.1, hnone.2, hdd⟩, rfl⟩
    | none =>
      simp only [hhandler, hmain] at hstep
      exact absurd hstep (by simp)

/-- A turn, seen from the mailbox: a frame may be taken out, and the consumer may leave. -/
theorem RingInv.moves_cpu {s t : Driver} {d : ℕ} (h : RingInv t d) (hstep : Step s .cpu t)
    (rung : Bool) : Moves (ofLogs (goodFrames s.stored) s.passed rung s.polling)
      (ofLogs (goodFrames t.stored) t.passed rung t.polling) [] := by
  obtain ⟨pc, hturn⟩ := turn_of_cpu hstep
  have hfirst := h.passed_first
  rw [hturn.polling]
  cases hpolling : t.polling with
  | true =>
    rw [hturn.stored] at hfirst ⊢
    rcases statement_passed s pc with hsame | ⟨f, hmore⟩
    · rw [hturn.passed, hsame]
      exact .stay
    · rw [hturn.passed, hmore] at hfirst ⊢
      exact .step (.of_take hfirst _ _)
  | false =>
    obtain ⟨hdrained, hsame⟩ := hturn.left hpolling
    have hall := (h.inOrder.drained hdrained).1
    rw [hturn.stored, hsame] at hall ⊢
    have hempty : (ofLogs (goodFrames s.stored) s.passed rung true).pending = [] := by
      rw [hall]
      exact List.drop_length
    exact .step (.leave _ hempty)

/-- A packet stored without errors is an entry put in; one with errors only rings. -/
theorem RingInv.moves_receive {s : Driver} {d : ℕ} (h : RingInv s d) (p : Packet) (rung : Bool) :
    Moves (ofLogs (goodFrames s.stored) s.passed rung s.polling)
      (ofLogs (goodFrames (s.receive p).stored) s.passed true s.polling) (goodFrames [p]) := by
  have hstored : goodFrames (s.receive p).stored = goodFrames s.stored ++ goodFrames [p] :=
    goodFrames_append _ _
  rw [hstored]
  by_cases herrors : p.errors = 0
  · have hone : goodFrames [p] = [p.bytes] := by simp [goodFrames, herrors]
    rw [hone]
    exact .step (.of_put h.passed_first _ _)
  · have hnone : goodFrames [p] = [] := by simp [goodFrames, herrors]
    rw [hnone, List.append_nil]
    exact .step (.ring _)

/-! ## The system -/

theorem SystemInv.step {s s' : System} {e : Event} (h : SystemInv s)
    (hfree : e = .irq → s.driver.Free) (hstep : SystemStep s e s') :
    SystemInv s' ∧ Moves s.mailbox s'.mailbox e.brings := by
  obtain ⟨⟨d, hinv⟩, hreading⟩ := h
  unfold SystemStep System.step at hstep
  cases e with
  | nic p =>
    obtain ⟨t, ht, rfl⟩ := Option.map_eq_some_iff.mp hstep
    have hinv' := hinv.step (e := .nic p) (fun he => by simp at he) ht
    unfold Driver.step at ht
    simp only at ht
    split_ifs at ht with hok
    obtain rfl := Option.some.inj ht
    exact ⟨⟨hinv', hreading⟩, hinv.moves_receive p _⟩
  | poll =>
    simp only at hstep
    split_ifs at hstep with hnot
    obtain ⟨t, ht, rfl⟩ := Option.map_eq_some_iff.mp hstep
    have hinv' := hinv.step (e := .poll) (fun he => by simp at he) ht
    unfold Driver.step at ht
    simp only at ht
    split_ifs at ht with hok
    obtain rfl := Option.some.inj ht
    refine ⟨⟨hinv', fun hr => absurd hr hnot⟩, ?_⟩
    exact .step (.enter _)
  | irq =>
    simp only at hstep
    split_ifs at hstep with hok
    obtain rfl := Option.some.inj hstep
    exact ⟨⟨⟨d, hinv⟩, fun _ => hfree rfl⟩, .stay⟩
  | cpu =>
    simp only at hstep
    split_ifs at hstep with hr
    · obtain ⟨t, ht, rfl⟩ := Option.map_eq_some_iff.mp hstep
      have hinv' := hinv.step (e := .irq) (fun _ => hreading hr) ht
      unfold Driver.step at ht
      simp only at ht
      split_ifs at ht with hok
      obtain rfl := Option.some.inj ht
      refine ⟨⟨hinv', fun hr' => absurd hr' (by simp)⟩, ?_⟩
      have hanswer : System.mailbox ⟨{ s.driver with handler := some .test }, false, false⟩ =
          { s.mailbox with rung := false, serving := true } := by
        ext1
        · rfl
        · rfl
        · rfl
        · exact Bool.or_true _
      rw [hanswer]
      exact .step (.answer _)
    · obtain ⟨t, ht, rfl⟩ := Option.map_eq_some_iff.mp hstep
      obtain ⟨d', hinv'⟩ := hinv.step (e := .cpu) (fun he => by simp at he) ht
      exact ⟨⟨⟨d', hinv'⟩, fun hr' => absurd hr' hr⟩, hinv'.moves_cpu ht s.rxt0⟩

/-- The card with its driver, while no interrupt comes in the middle of a packet. -/
def receiver : Receiver System Event Frame where
  Step := SystemStep
  Allowed s e := e = .irq → s.driver.Free
  Inv := SystemInv
  mailbox := System.mailbox
  brings := Event.brings
  step _ _ _ h hfree hstep := h.step hfree hstep

/-! ## Runs from `i219_init` -/

def start (desc : ℕ → Descriptor) (buffer : ℕ → ℕ → UInt8) : System :=
  ⟨i219Init desc buffer, false, false⟩

theorem systemInv_start (desc : ℕ → Descriptor) (buffer : ℕ → ℕ → UInt8) :
    SystemInv (start desc buffer) :=
  ⟨⟨0, ringInv_i219Init desc buffer⟩, fun h => absurd h (by simp [start])⟩

/-- No frame without errors is left in the ring unless `ICR` will raise an interrupt for it, or a
context is in `i219_poll_rx`. -/
theorem i219_heard {desc : ℕ → Descriptor} {buffer : ℕ → ℕ → UInt8}
    {tr : List (System × Event × System)} {s : System}
    (hrun : Run SystemStep (start desc buffer) tr s)
    (hfree : ∀ x ∈ tr, x.2.1 = .irq → x.1.driver.Free) :
    s.driver.passed <+: receiver.brought tr ∧
      (s.driver.passed ≠ receiver.brought tr → s.rxt0 = true ∨ s.driver.polling = true) := by
  obtain ⟨-, hcontents, hheard⟩ := receiver.of_run hrun hfree (systemInv_start desc buffer) rfl
  rw [← hcontents]
  refine ⟨List.prefix_append _ _, fun hne => hheard fun hnone => hne ?_⟩
  rw [hnone, List.append_nil]
  rfl

theorem step_nic {s : System} {p : Packet} (h : s.driver.rdh ≠ s.driver.rdt ∧ p.Valid) :
    SystemStep s (.nic p) ⟨s.driver.receive p, true, s.reading⟩ := by
  unfold SystemStep System.step Driver.step
  simp only [if_pos h]
  rfl

/-- `i219_poll_rx` passes a packet on, and another one waits for the interrupt. -/
theorem i219_heard_waiting : ∃ tr s, Run SystemStep (start (fun _ => ⟨0, 0, 0⟩) fun _ _ => 0) tr s ∧
    tr.map (·.2.1) = .nic onePacket :: .nic onePacket :: .poll :: List.replicate 5 .cpu ∧
    s.driver.passed = [[0xC3]] ∧ receiver.brought tr = [[0xC3], [0xC3]] ∧
    (s.rxt0 = true ∨ s.driver.polling = true) := by
  obtain ⟨s, hs⟩ := Option.isSome_iff_exists.mp (by decide :
    ((Event.nic onePacket :: .nic onePacket :: .poll :: List.replicate 5 Event.cpu).foldlM System.step
      (start (fun _ => ⟨0, 0, 0⟩) fun _ _ => 0)).isSome = true)
  obtain ⟨tr, hrun, hlabels⟩ :=
    exists_run_of_foldlM (fun _ _ _ h => h : ∀ s e t, System.step s e = some t → SystemStep s e t) hs
  have hpassed : s.driver.passed = [[0xC3]] := by
    obtain rfl := Option.some.inj hs
    rfl
  have hbrought : receiver.brought tr = [[0xC3], [0xC3]] := receiver.brought_of_labels hlabels
  obtain ⟨-, hheard⟩ := i219_heard hrun fun x hx hirq =>
    absurd hirq (ne_of_not_mem_labels hlabels (by simp) x hx)
  refine ⟨tr, s, hrun, hlabels, hpassed, hbrought, hheard ?_⟩
  rw [hpassed, hbrought]
  decide

end MathUnikernel.I219
