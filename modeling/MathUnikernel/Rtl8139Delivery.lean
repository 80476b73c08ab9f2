import MathUnikernel.Rtl8139Mailbox

/-!
# What the RTL8139 delivers

Every frame once and in order, with an interrupt for whatever still waits.
-/

namespace MathUnikernel.Rtl8139
open Mailbox Network Ring Runs

/-! ## Runs from `rtl8139_init` -/

theorem ringInv_rtl8139Init : RingInv rtl8139Init 0 := by
  refine ⟨⟨rfl, rfl, le_rfl, by decide, fun p hp => absurd hp List.not_mem_nil, fun k p _ hp => ?_⟩,
    .alone rfl ⟨rfl, rfl⟩⟩
  exact absurd (lt_of_getElem? hp) (Nat.not_lt_zero k)

/-- The card with its driver, while no interrupt comes in the middle of a packet. -/
def receiver : Receiver System Event Frame where
  Step := SystemStep
  Allowed s e := e = .irq → s.Free
  Inv s := ∃ d, RingInv s d
  mailbox := System.mailbox
  brings := Event.brings
  step := by
    rintro s e t ⟨d, h⟩ hfree hstep
    exact h.step hfree hstep

variable {tr : List (System × Event × System)} {s : System}

theorem receiver_of_run (hrun : Run SystemStep rtl8139Init tr s)
    (hfree : ∀ x ∈ tr, x.2.1 = .irq → x.1.Free) :
    (∃ d, RingInv s d) ∧ s.passed ++ s.mailbox.pending = receiver.brought tr ∧ Heard s.mailbox :=
  receiver.of_run hrun hfree ⟨0, ringInv_rtl8139Init⟩ rfl

/-- What has come, in `received`, is passed on in order, each frame once and as it came. -/
structure Delivers (s : System) (received : List Frame) : Prop where
  stored : frames s.stored = received
  passed : s.passed <+: received
  /-- What is still to be passed on is in the buffer. -/
  unread : ∀ k p, s.passed.length ≤ k → s.stored[k]? = some p →
    Stored s.rxBuffer (offset (s.stored.take k) % ringSize) p
  /-- Between two calls the card's own bit says whether anything is left. -/
  bufferEmpty : s.handler = none → s.Free → (s.bufferEmpty = true ↔ s.passed = received)
  /-- Nothing waits that no interrupt will fetch. -/
  heard : s.passed ≠ received → rok s.isr = true ∨ s.handler.any HandlerPc.Serving = true

/-- A packet that has not been passed on comes after the register at `0x38`. -/
theorem RingInv.le_passed {s : System} {d : ℕ} (h : RingInv s d) : d ≤ s.passed.length := by
  obtain ⟨n, hd, hle, hn⟩ := h.passed_eq
  rwa [hn, frames_take_length hle]

theorem RingInv.delivers {s : System} {d : ℕ} (h : RingInv s d) (hheard : Heard s.mailbox) :
    Delivers s (frames s.stored) where
  stored := rfl
  passed := h.passed
  unread k p hk hp := h.core.unread k p (h.le_passed.trans hk) hp
  bufferEmpty hhandler hfree := by
    rw [h.core.bufferEmpty_iff, (h.at_of_free hhandler hfree).passed]
    constructor
    · intro hall
      rw [hall, List.take_length]
    · intro heq
      have hlen := congrArg List.length heq
      rwa [frames_take_length h.core.d_le, frames_length] at hlen
  heard hne := by
    apply hheard
    intro hnone
    apply hne
    rw [← h.passed_append, hnone, List.append_nil]

/-- In every interleaving of the card, the main context and the handler in which no interrupt comes
while the main context is in the middle of a packet. -/
theorem ring_delivers (hrun : Run SystemStep rtl8139Init tr s)
    (hfree : ∀ x ∈ tr, x.2.1 = .irq → x.1.Free) : Delivers s (receiver.brought tr) := by
  obtain ⟨⟨d, hinv⟩, hcontents, hheard⟩ := receiver_of_run hrun hfree
  rw [← hcontents, hinv.passed_append]
  exact hinv.delivers hheard

/-- A frame of one byte. -/
def onePacket : Packet := ⟨1, 0, [0xC3], [0, 0, 0, 0]⟩

/-- The packet has come. -/
def loaded : System := rtl8139Init.receive onePacket

theorem step_loaded : SystemStep rtl8139Init (.nic onePacket) loaded := by
  have hok : onePacket.Valid ∧ rtl8139Init.Accepts onePacket := by decide
  unfold SystemStep System.step
  simp only [hok, and_self, if_true]
  rfl

theorem loaded_free : ∀ x ∈ [(rtl8139Init, Event.nic onePacket, loaded)], x.2.1 = .irq → x.1.Free := by
  intro x hx hirq
  rw [List.mem_singleton.mp hx] at hirq
  exact absurd hirq (by simp)

/-- `rtl8139_poll` passes a frame on, and another one comes. -/
theorem ring_delivers_loaded : ∃ tr s, Run SystemStep rtl8139Init tr s ∧
    tr.map (·.2.1) =
      .nic onePacket :: .poll :: (List.replicate 6 .cpu ++ [.nic onePacket]) ∧
    s.passed = [[0xC3]] ∧ Delivers s [[0xC3], [0xC3]] := by
  obtain ⟨s, hs⟩ := Option.isSome_iff_exists.mp (by decide :
    ((Event.nic onePacket :: .poll :: (List.replicate 6 Event.cpu ++ [.nic onePacket])).foldlM
      System.step rtl8139Init).isSome = true)
  obtain ⟨tr, hrun, hlabels⟩ :=
    exists_run_of_foldlM (fun _ _ _ h => h : ∀ s e t, System.step s e = some t → SystemStep s e t) hs
  have hpassed : s.passed = [[0xC3]] := by
    obtain rfl := Option.some.inj hs
    rfl
  have hbrought : receiver.brought tr = [[0xC3], [0xC3]] := receiver.brought_of_labels hlabels
  have hdelivers := ring_delivers hrun fun x hx hirq =>
    absurd hirq (ne_of_not_mem_labels hlabels (by simp) x hx)
  rw [hbrought] at hdelivers
  exact ⟨tr, s, hrun, hlabels, hpassed, hdelivers⟩

/-! ## The handler drains the ring -/

/-- The handler is in `rtl8139_poll`, and what it leaves alone. -/
structure Polling (s₀ s : System) : Prop where
  inv : ∃ d, RingInv s d
  handler : ∃ pc, s.handler = some (.poll pc)
  stored : s.stored = s₀.stored
  main : s.main = s₀.main

/-- The handler has returned, and every frame has been passed on. -/
structure System.Drained (s₀ s : System) : Prop where
  handler : s.handler = none
  passed : s.passed = frames s.stored
  stored : s.stored = s₀.stored
  main : s.main = s₀.main

def PollPc.rank : PollPc → ℕ
  | .deliver _ _ => 0
  | .length _ => 1
  | .header => 2
  | .test => 3
  | .writeRegister => 4
  | .advance _ => 5

/-- What is left to do: the frames, and the statements to the next one. -/
def System.rank (s : System) : ℕ :=
  8 * s.mailbox.pending.length + match s.handler with
    | some (.poll pc) => pc.rank
    | _ => 6

theorem pending_length (s : System) :
    s.mailbox.pending.length = s.stored.length - s.passed.length := by
  change ((frames s.stored).drop s.passed.length).length = _
  rw [List.length_drop, frames_length]

/-- Each statement brings the handler nearer to its end: a frame is one less to pass on. -/
theorem rank_lt {s : System} {d : ℕ} {pc next : PollPc} (h : Core s d) (hok : pc.Ok s d)
    (hnext : (s.statement pc).2 = some next) :
    8 * (s.stored.length - (s.statement pc).1.passed.length) + next.rank <
      8 * (s.stored.length - s.passed.length) + pc.rank := by
  cases pc with
  | deliver packetHeader totalLen =>
    obtain ⟨p, hp, hfirst, hpassed⟩ := h.deliver_passed hok
    obtain rfl := Option.some.inj hnext
    have hlen := congrArg List.length hfirst
    rw [frames_take_length (lt_of_getElem? hp)] at hlen
    have hlt := lt_of_getElem? hp
    rw [hpassed, hlen]
    rw [List.length_append, List.length_singleton] at hlen
    simp only [PollPc.rank]
    omega
  | test =>
    obtain rfl : next = .header := by
      unfold System.statement at hnext
      simp only at hnext
      split_ifs at hnext
      exact (Option.some.inj hnext).symm
    exact Nat.add_lt_add_left (by decide) _
  | _ =>
    obtain rfl := Option.some.inj hnext
    exact Nat.add_lt_add_left (by simp [PollPc.rank]) _

theorem Polling.step {s₀ s : System} (h : Polling s₀ s) :
    ∃ t, SystemStep s .cpu t ∧ (System.Drained s₀ t ∨ (Polling s₀ t ∧ t.rank < s.rank)) := by
  obtain ⟨⟨d, hinv⟩, ⟨pc, hpc⟩, hstored, hmain⟩ := h
  have hstep : SystemStep s .cpu
      { (s.statement pc).1 with handler := (s.statement pc).2.map .poll } := by
    unfold SystemStep System.step
    simp only [hpc]
    rfl
  have hok : pc.Ok s d := (hinv.at_of_handler hpc).1
  obtain ⟨hinv', -⟩ := hinv.handlerPoll hpc
  have hstored' := (statement_stored s pc).trans hstored
  have hmain' := (statement_main s pc).trans hmain
  refine ⟨_, hstep, ?_⟩
  cases hnext : (s.statement pc).2 with
  | none =>
    obtain rfl := test_of_returned hnext
    have hempty := (hinv.core.test hok).returned hnext
    have hall := hinv.passed_append
    rw [hempty, List.append_nil] at hall
    exact .inl ⟨rfl, hall, hstored', hmain'⟩
  | some next =>
    rw [hnext] at hinv'
    refine .inr ⟨⟨hinv', ⟨next, rfl⟩, hstored', hmain'⟩, ?_⟩
    have hlt := rank_lt hinv.core hok hnext
    unfold System.rank
    rw [pending_length, pending_length, hpc]
    change 8 * ((s.statement pc).1.stored.length - _) + next.rank < _
    rw [statement_stored]
    exact hlt

/-- The handler before its branch, and after it if the bit was set. -/
theorem run_to_branch {s : System} (h : s.handler = none) :
    ∃ tr', Run SystemStep s tr' { s with
        isr := s.isr &&& ~~~s.isr
        handler := if rok s.isr then some (.poll .test) else none } ∧
      tr'.map (·.2.1) = [.irq, .cpu, .cpu, .cpu] ∧ ∀ x ∈ tr', x.2.1 = .irq → x.1 = s := by
  have hirq : SystemStep s .irq { s with handler := some .readIsr } := if_pos h
  have hread : SystemStep { s with handler := some .readIsr } .cpu
      { s with handler := some (.ackIsr s.isr) } := rfl
  have hack : SystemStep { s with handler := some (.ackIsr s.isr) } .cpu
      { s with isr := s.isr &&& ~~~s.isr, handler := some (.branch s.isr) } := rfl
  have hbranch : SystemStep
      { s with isr := s.isr &&& ~~~s.isr, handler := some (.branch s.isr) } .cpu
      { s with
        isr := s.isr &&& ~~~s.isr
        handler := if rok s.isr then some (.poll .test) else none } := rfl
  exact ⟨_, (((Run.nil.snoc hirq).snoc hread).snoc hack).snoc hbranch, rfl, by simp⟩

/-- From any state of the invariant in which somebody knows about what waits. -/
theorem RingInv.drains {s : System} {d : ℕ} (hinv : RingInv s d) (hheard : Heard s.mailbox)
    (hhandler : s.handler = none) (hmain : s.Free) :
    ∃ tr' t k, Run SystemStep s tr' t ∧ tr'.map (·.2.1) = .irq :: List.replicate k .cpu ∧
      (∀ x ∈ tr', x.2.1 = .irq → x.1 = s) ∧ System.Drained s t := by
  obtain ⟨tr', hrun', hlabels, hirq⟩ := run_to_branch hhandler
  cases hrok : rok s.isr with
  | false =>
    rw [hrok] at hrun'
    refine ⟨tr', _, 3, hrun', hlabels, hirq, rfl, ?_, rfl, rfl⟩
    have hall := hinv.passed_append
    have hnone : s.mailbox.pending = [] := by
      by_contra hne
      rcases hheard hne with hrung | hserving
      · exact absurd (hrung.symm.trans hrok) (by simp)
      · change s.handler.any _ = true at hserving
        rw [hhandler] at hserving
        exact absurd hserving (by simp)
    rw [hnone, List.append_nil] at hall
    exact hall
  | true =>
    rw [hrok] at hrun'
    have hstart : Polling s
        { s with isr := s.isr &&& ~~~s.isr, handler := some (.poll .test) } := by
      refine ⟨⟨d, ?_⟩, ⟨.test, rfl⟩, rfl, rfl⟩
      exact hinv.withHandler (hinv.at_of_free hhandler hmain) hmain (.poll .test) (fun _ hu => hu) rfl
    obtain ⟨tr'', t, hrun'', hdrained, hcpu⟩ :=
      exists_run_of_rank System.rank (fun _ => Polling.step) hstart
    have hreplicate : tr''.map (·.2.1) = List.replicate tr''.length .cpu := by
      rw [List.eq_replicate_iff]
      refine ⟨List.length_map _, fun e he => ?_⟩
      obtain ⟨x, hx, rfl⟩ := List.mem_map.mp he
      exact hcpu x hx
    refine ⟨tr' ++ tr'', t, 3 + tr''.length, hrun'.append hrun'', ?_, fun x hx hxirq => ?_, hdrained⟩
    · rw [List.map_append, hlabels, hreplicate, List.replicate_add]
      rfl
    · rcases List.mem_append.mp hx with hx | hx
      · exact hirq x hx hxirq
      · exact absurd ((hcpu x hx).symm.trans hxirq) (by simp)

/-- One interrupt is enough: without the card the handler comes to its end, and every frame that has
come has been passed on. -/
theorem ring_drains (hrun : Run SystemStep rtl8139Init tr s)
    (hfree : ∀ x ∈ tr, x.2.1 = .irq → x.1.Free) (hhandler : s.handler = none) (hmain : s.Free) :
    ∃ tr' t k, Run SystemStep s tr' t ∧ tr'.map (·.2.1) = .irq :: List.replicate k .cpu ∧
      System.Drained s t := by
  obtain ⟨⟨d, hinv⟩, -, hheard⟩ := receiver_of_run hrun hfree
  obtain ⟨tr', t, k, hrun', hlabels, -, hdrained⟩ := hinv.drains hheard hhandler hmain
  exact ⟨tr', t, k, hrun', hlabels, hdrained⟩

/-- The frame is passed on. -/
theorem ring_drains_loaded : ∃ tr t k, Run SystemStep loaded tr t ∧
    tr.map (·.2.1) = .irq :: List.replicate k .cpu ∧ t.passed = [[0xC3]] := by
  obtain ⟨tr, t, k, hrun, hlabels, hdrained⟩ :=
    ring_drains (Run.nil.snoc step_loaded) loaded_free rfl (.inl rfl)
  refine ⟨tr, t, k, hrun, hlabels, ?_⟩
  rw [hdrained.passed, hdrained.stored]
  rfl

end MathUnikernel.Rtl8139
