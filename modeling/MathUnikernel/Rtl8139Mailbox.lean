import MathUnikernel.Library.Mailbox
import MathUnikernel.Rtl8139Ring

/-!
# The RTL8139 as a mailbox

The card and its driver refine a mailbox: the bell is bit 0 of the interrupt status, and the interrupt
handler answers it.
-/

namespace MathUnikernel.Rtl8139
open Mailbox Network Ring Runs

/-! ## The interrupt status -/

theorem rok_eq_true_iff (isr : UInt16) : rok isr = true ↔ isr.toNat % 2 = 1 := by
  unfold rok rokBit
  rw [decide_eq_true_iff, ne_eq, ← UInt16.toNat_inj, UInt16.toNat_and]
  change ¬isr.toNat &&& 1 = 0 ↔ _
  rw [Nat.and_one_is_mod]
  omega

/-- A set bit stays until it is written back. -/
theorem rok_or (a b : UInt16) : rok (a ||| b) = (rok a || rok b) := by
  rw [Bool.eq_iff_iff, Bool.or_eq_true, rok_eq_true_iff, rok_eq_true_iff, rok_eq_true_iff,
    UInt16.toNat_or, Nat.or_mod_two_eq_one]

theorem rok_rokBit : rok rokBit = true := by decide

/-- Writing back what was read clears the bit exactly if it was read. -/
theorem rok_ack (a isr : UInt16) : rok (a &&& ~~~isr) = (rok a && !rok isr) := by
  rw [Bool.eq_iff_iff, Bool.and_eq_true, Bool.not_eq_true', ← Bool.not_eq_true, rok_eq_true_iff,
    rok_eq_true_iff, rok_eq_true_iff, UInt16.toNat_and, Nat.and_mod_two_eq_one]
  have hlt := isr.toNat_lt
  have hnot : (~~~isr).toNat = 2 ^ 16 - 1 - isr.toNat := UInt16.toNat_not isr
  omega

/-! ## The contexts -/

/-- What holds before the statement at a position, or between two calls. -/
def Position (s : System) (d : ℕ) : Option PollPc → Prop
  | none => At s d d
  | some pc => pc.Ok s d

def HandlerPc.Ok (s : System) (d : ℕ) : HandlerPc → Prop
  | .poll pc => pc.Ok s d
  | _ => At s d d

/-- Either the main context is running, or the handler while the main context is between two
packets. -/
inductive Contexts (s : System) (d : ℕ) : Prop
  | alone (handler : s.handler = none) (position : Position s d s.main)
  | handling (pc : HandlerPc) (handler : s.handler = some pc) (position : pc.Ok s d) (free : s.Free)

structure RingInv (s : System) (d : ℕ) : Prop where
  core : Core s d
  contexts : Contexts s d

/-- The handler has seen the bit, and has not found the ring empty since. -/
def HandlerPc.Serving : HandlerPc → Bool
  | .branch isr => rok isr
  | .poll _ => true
  | _ => false

/-- The card and the driver as a mailbox. -/
def System.mailbox (s : System) : Mailbox.State Frame :=
  Mailbox.ofLogs (frames s.stored) s.passed (rok s.isr) (s.handler.any HandlerPc.Serving)

/-- The frame that an event brings. -/
def Event.brings : Event → List Frame
  | .nic p => [p.bytes]
  | _ => []

theorem frames_length (ps : List Packet) : (frames ps).length = ps.length := List.length_map _

theorem frames_singleton (p : Packet) : frames [p] = [p.bytes] := rfl

theorem frames_append (ps qs : List Packet) : frames (ps ++ qs) = frames ps ++ frames qs :=
  List.map_append

theorem frames_take_length {ps : List Packet} {k : ℕ} (h : k ≤ ps.length) :
    (frames (ps.take k)).length = k := by
  rw [frames_length, List.length_take, Nat.min_eq_left h]

/-- The frames that wait while the packets from `k` on are left. -/
theorem At.pending {s : System} {j k : ℕ} (h : At s j k) (hk : k ≤ s.stored.length) :
    s.mailbox.pending = frames (s.stored.drop k) := by
  change (frames s.stored).drop s.passed.length = _
  rw [h.passed, frames_take_length hk]
  exact List.map_drop.symm

/-! ## The card -/

theorem At.receive {s : System} {j k : ℕ} (h : At s j k) (hj : j ≤ s.stored.length)
    (hk : k ≤ s.stored.length) (p : Packet) : At (s.receive p) j k := by
  refine ⟨?_, ?_⟩
  · change s.rxReadPtr = offset ((s.stored ++ [p]).take j) % ringSize
    rw [List.take_append_of_le_length hj, h.pointer]
  · change s.passed = frames ((s.stored ++ [p]).take k)
    rw [List.take_append_of_le_length hk, h.passed]

/-- What the card does leaves every position as it was. -/
theorem PollPc.Ok.receive {s : System} {d : ℕ} {pc : PollPc} (h : pc.Ok s d) (hcore : Core s d)
    (p : Packet) : pc.Ok (s.receive p) d := by
  have hd := hcore.d_le
  have hkeep : ∀ q, s.stored[d]? = some q → (s.stored ++ [p])[d]? = some q := by
    intro q hq
    rw [List.getElem?_append_left (lt_of_getElem? hq), hq]
  cases pc with
  | test => exact @At.receive s d d h hd hd p
  | header => exact ⟨h.1.receive hd hd p, h.2.imp hkeep⟩
  | length packetHeader => exact ⟨h.1.receive hd hd p, h.2.imp fun q hq => ⟨hkeep q hq.1, hq.2⟩⟩
  | deliver packetHeader totalLen =>
    exact ⟨h.1.receive hd hd p, h.2.imp fun q hq => ⟨hkeep q hq.1, hq.2⟩⟩
  | advance totalLen =>
    obtain ⟨hat, q, hq, hlen⟩ := h
    exact ⟨hat.receive hd (lt_of_getElem? hq) p, q, hkeep q hq, hlen⟩
  | writeRegister =>
    refine ⟨h.1.receive h.2 h.2 p, ?_⟩
    change d < (s.stored ++ [p]).length
    rw [List.length_append]
    exact Nat.lt_add_right _ h.2

theorem Position.receive {s : System} {d : ℕ} {c : Option PollPc} (h : Position s d c)
    (hcore : Core s d) (p : Packet) : Position (s.receive p) d c := by
  cases c with
  | none => exact @At.receive s d d h hcore.d_le hcore.d_le p
  | some pc => exact @PollPc.Ok.receive s d pc h hcore p

theorem HandlerPc.Ok.receive {s : System} {d : ℕ} {pc : HandlerPc} (h : pc.Ok s d)
    (hcore : Core s d) (p : Packet) : pc.Ok (s.receive p) d := by
  cases pc with
  | poll pc => exact @PollPc.Ok.receive s d pc h hcore p
  | _ => exact @At.receive s d d h hcore.d_le hcore.d_le p

theorem RingInv.receive {s : System} {d : ℕ} (h : RingInv s d) {p : Packet} (hp : p.Valid)
    (haccepts : s.Accepts p) : RingInv (s.receive p) d := by
  refine ⟨h.core.receive hp haccepts, ?_⟩
  cases h.contexts with
  | alone hhandler hpos => exact .alone hhandler (hpos.receive h.core p)
  | handling pc hhandler hpos hfree => exact .handling pc hhandler (hpos.receive h.core p) hfree

theorem frames_take_prefix (ps : List Packet) (k : ℕ) : frames (ps.take k) <+: frames ps := by
  refine ⟨frames (ps.drop k), ?_⟩
  rw [← frames_append, List.take_append_drop]

/-- At every position the calls so far are those for the first packets. -/
theorem PollPc.Ok.passed {s : System} {d : ℕ} {pc : PollPc} (h : pc.Ok s d) (hcore : Core s d) :
    ∃ n, d ≤ n ∧ n ≤ s.stored.length ∧ s.passed = frames (s.stored.take n) := by
  cases pc with
  | test => exact ⟨d, le_rfl, hcore.d_le, At.passed h⟩
  | advance =>
    obtain ⟨hat, p, hp, -⟩ := h
    exact ⟨d + 1, Nat.le_succ d, lt_of_getElem? hp, hat.passed⟩
  | writeRegister => exact ⟨d + 1, Nat.le_succ d, h.2, h.1.passed⟩
  | _ => exact ⟨d, le_rfl, hcore.d_le, h.1.passed⟩

theorem RingInv.passed_eq {s : System} {d : ℕ} (h : RingInv s d) :
    ∃ n, d ≤ n ∧ n ≤ s.stored.length ∧ s.passed = frames (s.stored.take n) := by
  cases h.contexts with
  | alone hhandler hpos =>
    cases hmain : s.main with
    | none =>
      rw [hmain] at hpos
      exact ⟨d, le_rfl, h.core.d_le, At.passed hpos⟩
    | some pc =>
      rw [hmain] at hpos
      exact @PollPc.Ok.passed s d pc hpos h.core
  | handling pc _ hpos =>
    cases pc with
    | poll pc => exact @PollPc.Ok.passed s d pc hpos h.core
    | _ => exact ⟨d, le_rfl, h.core.d_le, At.passed hpos⟩

theorem RingInv.passed {s : System} {d : ℕ} (h : RingInv s d) : s.passed <+: frames s.stored := by
  obtain ⟨n, -, -, hn⟩ := h.passed_eq
  rw [hn]
  exact frames_take_prefix _ _

theorem RingInv.passed_append {s : System} {d : ℕ} (h : RingInv s d) :
    s.passed ++ s.mailbox.pending = frames s.stored := ofLogs_append h.passed

/-- A packet stored is an entry put in. -/
theorem RingInv.moves_receive {s : System} {d : ℕ} (h : RingInv s d) (p : Packet) :
    Moves s.mailbox (s.receive p).mailbox [p.bytes] := by
  have hrung : rok (s.isr ||| rokBit) = true := by rw [rok_or, rok_rokBit, Bool.or_true]
  have hput : (s.receive p).mailbox = ofLogs (frames s.stored ++ [p.bytes]) s.passed true
      (s.handler.any HandlerPc.Serving) := by
    rw [← hrung, ← frames_singleton, ← frames_append]
    rfl
  rw [hput]
  exact .step (.of_put h.passed _ _)

/-! ## The driver -/

@[simp] theorem statement_main (s : System) (pc : PollPc) : (s.statement pc).1.main = s.main := by
  cases pc <;> rfl

@[simp] theorem statement_handler (s : System) (pc : PollPc) :
    (s.statement pc).1.handler = s.handler := by
  cases pc <;> rfl

@[simp] theorem statement_isr (s : System) (pc : PollPc) : (s.statement pc).1.isr = s.isr := by
  cases pc <;> rfl

@[simp] theorem statement_stored (s : System) (pc : PollPc) :
    (s.statement pc).1.stored = s.stored := by
  cases pc <;> rfl

theorem test_of_returned {s : System} {pc : PollPc} (h : (s.statement pc).2 = none) : pc = .test := by
  cases pc with
  | test => rfl
  | _ => exact absurd h (by simp [System.statement])

/-- What a statement of `rtl8139_poll` may do. -/
structure Advances (s : System) (pc : PollPc) (d' : ℕ) : Prop where
  core : Core (s.statement pc).1 d'
  position : Position (s.statement pc).1 d' (s.statement pc).2
  passed : (s.statement pc).1.passed = s.passed ∨
    ∃ f, (s.statement pc).1.passed = s.passed ++ [f] ∧ s.passed ++ [f] <+: frames s.stored
  /-- It returns only from an empty ring. -/
  returned : (s.statement pc).2 = none → s.mailbox.pending = []

theorem Core.test {s : System} {d : ℕ} (h : Core s d) (hok : At s d d) : Advances s .test d := by
  have hstay : (s.statement .test).1.passed = s.passed := rfl
  by_cases hempty : s.bufferEmpty = true
  · have hnext : (s.statement .test).2 = none := if_pos hempty
    refine ⟨h, ?_, .inl hstay, fun _ => ?_⟩
    · rw [hnext]
      exact hok
    · rw [hok.pending h.d_le, h.bufferEmpty_iff.mp hempty, List.drop_length]
      rfl
  · have hnext : (s.statement .test).2 = some .header := if_neg hempty
    have hlt : d < s.stored.length :=
      Nat.lt_of_le_of_ne h.d_le fun heq => hempty (h.bufferEmpty_iff.mpr heq)
    refine ⟨h, ?_, .inl hstay, fun hnone => ?_⟩
    · rw [hnext]
      exact ⟨hok, _, List.getElem?_eq_getElem hlt⟩
    · rw [hnext] at hnone
      exact absurd hnone (by simp)

theorem frames_take_succ {ps : List Packet} {k : ℕ} {p : Packet} (h : ps[k]? = some p) :
    frames (ps.take (k + 1)) = frames (ps.take k) ++ [p.bytes] := by
  rw [List.take_add_one, h, frames_append]
  rfl

/-- The frame passed on is the next one. -/
theorem Core.deliver_passed {s : System} {d : ℕ} {packetHeader totalLen : ℕ} (h : Core s d)
    (hok : (PollPc.deliver packetHeader totalLen).Ok s d) :
    ∃ p, s.stored[d]? = some p ∧ s.passed ++ [p.bytes] = frames (s.stored.take (d + 1)) ∧
      (s.statement (.deliver packetHeader totalLen)).1.passed = s.passed ++ [p.bytes] := by
  obtain ⟨hat, p, hp, rfl, rfl⟩ := hok
  have hstored := h.unread d p le_rfl hp
  rw [← hat.pointer] at hstored
  refine ⟨p, hp, ?_, ?_⟩
  · rw [frames_take_succ hp, hat.passed]
  · exact congrArg (s.passed ++ ·) (hstored.frame (h.valid p (List.mem_of_getElem? hp)))

theorem Core.deliver {s : System} {d : ℕ} {packetHeader totalLen : ℕ} (h : Core s d)
    (hok : (PollPc.deliver packetHeader totalLen).Ok s d) :
    Advances s (.deliver packetHeader totalLen) d := by
  obtain ⟨p, hp, hfirst, hpassed⟩ := h.deliver_passed hok
  obtain ⟨hat, q, hq, rfl, rfl⟩ := hok
  obtain rfl : p = q := Option.some.inj (hp.symm.trans hq)
  refine ⟨⟨h.addr, h.ptr, h.d_le, h.room, h.valid, h.unread⟩, ⟨⟨hat.pointer, ?_⟩, p, hp, rfl⟩,
    .inr ⟨_, hpassed, ?_⟩, fun hnone => absurd hnone (by simp [System.statement])⟩
  · rw [hpassed, hfirst]
    rfl
  · rw [hfirst]
    exact frames_take_prefix _ _

theorem Core.statement {s : System} {d : ℕ} {pc : PollPc} (h : Core s d) (hok : pc.Ok s d) :
    ∃ d', Advances s pc d' := by
  cases pc with
  | test => exact ⟨d, h.test hok⟩
  | header =>
    obtain ⟨hat, p, hp⟩ := hok
    exact ⟨d, h, ⟨hat, p, hp, rfl⟩, .inl rfl, fun hnone => absurd hnone (by simp [System.statement])⟩
  | length packetHeader =>
    obtain ⟨hat, p, hp, rfl⟩ := hok
    have hstored := h.unread d p le_rfl hp
    rw [← hat.pointer] at hstored
    have hlen := hstored.totalLen_eq (h.valid p (List.mem_of_getElem? hp))
    exact ⟨d, h, ⟨hat, p, hp, rfl, hlen⟩, .inl rfl,
      fun hnone => absurd hnone (by simp [System.statement])⟩
  | deliver packetHeader totalLen => exact ⟨d, h.deliver hok⟩
  | advance totalLen =>
    obtain ⟨hat, p, hp, rfl⟩ := hok
    have hnext := advance_packet hp (h.valid p (List.mem_of_getElem? hp))
    rw [← hat.pointer] at hnext
    refine ⟨d, ⟨h.addr, h.ptr, h.d_le, h.room, h.valid, h.unread⟩,
      ⟨⟨hnext, hat.passed⟩, lt_of_getElem? hp⟩, .inl rfl,
      fun hnone => absurd hnone (by simp [System.statement])⟩
  | writeRegister =>
    obtain ⟨hat, hlt⟩ := hok
    exact ⟨d + 1, h.writeRegister hlt hat.pointer, ⟨hat.pointer, hat.passed⟩, .inl rfl,
      fun hnone => absurd hnone (by simp [System.statement])⟩

/-- The interrupt status and the contexts are no part of the ring. -/
theorem Core.withContexts {s : System} {d : ℕ} (h : Core s d) (isr : UInt16) (main : Option PollPc)
    (handler : Option HandlerPc) : Core { s with isr, main, handler } d :=
  ⟨h.addr, h.ptr, h.d_le, h.room, h.valid, h.unread⟩

theorem PollPc.Ok.withContexts {s : System} {d : ℕ} {pc : PollPc} (h : pc.Ok s d) (isr : UInt16)
    (main : Option PollPc) (handler : Option HandlerPc) :
    pc.Ok { s with isr, main, handler } d := by
  cases pc with
  | test =>
    have hat : At s d d := h
    exact ⟨hat.pointer, hat.passed⟩
  | _ => exact ⟨⟨h.1.pointer, h.1.passed⟩, h.2⟩

theorem Position.withContexts {s : System} {d : ℕ} {c : Option PollPc} (h : Position s d c)
    (isr : UInt16) (main : Option PollPc) (handler : Option HandlerPc) :
    Position { s with isr, main, handler } d c := by
  cases c with
  | none => exact ⟨h.pointer, h.passed⟩
  | some pc => exact @PollPc.Ok.withContexts s d pc h isr main handler

theorem HandlerPc.Ok.withContexts {s : System} {d : ℕ} {pc : HandlerPc} (h : pc.Ok s d)
    (isr : UInt16) (main : Option PollPc) (handler : Option HandlerPc) :
    pc.Ok { s with isr, main, handler } d := by
  cases pc with
  | poll pc => exact @PollPc.Ok.withContexts s d pc h isr main handler
  | _ => exact @PollPc.Ok.withContexts s d .test h isr main handler

/-- What a statement of `rtl8139_poll` does to the mailbox. -/
theorem Advances.moves {s t : System} {pc : PollPc} {d' : ℕ} (h : Advances s pc d')
    (hstored : t.stored = s.stored) (hisr : t.isr = s.isr)
    (hpassed : t.passed = (s.statement pc).1.passed)
    (hserving : t.mailbox.serving = s.mailbox.serving) : Moves s.mailbox t.mailbox [] := by
  have hlogs : t.mailbox = ofLogs (frames s.stored) t.passed (rok s.isr) s.mailbox.serving := by
    rw [← hserving, ← hisr, ← hstored]
    rfl
  rw [hlogs, hpassed]
  rcases h.passed with hsame | ⟨f, hmore, hfirst⟩
  · rw [hsame]
    exact .stay
  · rw [hmore]
    exact .step (.of_take hfirst _ _)

/-! ## The whole system -/

theorem RingInv.main {s : System} {d : ℕ} {pc : PollPc} (h : RingInv s d)
    (hhandler : s.handler = none) (hpc : s.main = some pc) :
    (∃ d', RingInv { (s.statement pc).1 with main := (s.statement pc).2 } d') ∧
      Moves s.mailbox { (s.statement pc).1 with main := (s.statement pc).2 }.mailbox [] := by
  cases h.contexts with
  | alone _ hpos =>
    rw [hpc] at hpos
    obtain ⟨d', hadv⟩ := h.core.statement hpos
    have hnone : (s.statement pc).1.handler = none := by rw [statement_handler, hhandler]
    refine ⟨⟨d', hadv.core.withContexts _ _ _, .alone hnone ?_⟩, hadv.moves ?_ ?_ rfl ?_⟩
    · exact hadv.position.withContexts _ _ (s.statement pc).1.handler
    · exact statement_stored s pc
    · exact statement_isr s pc
    · change ((s.statement pc).1.handler).any _ = s.handler.any _
      rw [statement_handler]
  | handling q hq => exact absurd (hq.symm.trans hhandler) (by simp)

/-- The handler's turn in `rtl8139_poll`. -/
theorem RingInv.handlerPoll {s : System} {d : ℕ} {pc : PollPc} (h : RingInv s d)
    (hpc : s.handler = some (.poll pc)) :
    (∃ d', RingInv { (s.statement pc).1 with handler := (s.statement pc).2.map .poll } d') ∧
      Moves s.mailbox { (s.statement pc).1 with handler := (s.statement pc).2.map .poll }.mailbox
        [] := by
  cases h.contexts with
  | alone hhandler => exact absurd (hhandler.symm.trans hpc) (by simp)
  | handling q hq hpos hfree =>
    obtain rfl : q = .poll pc := Option.some.inj (hq.symm.trans hpc)
    obtain ⟨d', hadv⟩ := @Core.statement s d pc h.core hpos
    have hfree' : (s.statement pc).1.Free := by
      unfold System.Free
      rw [statement_main]
      exact hfree
    have hserving : s.mailbox.serving = true := by
      change s.handler.any _ = true
      rw [hpc]
      rfl
    cases hnext : (s.statement pc).2 with
    | none =>
      have hpos' := hadv.position
      rw [hnext] at hpos'
      have hat : Position { (s.statement pc).1 with handler := none } d'
          (s.statement pc).1.main := by
        rcases hfree' with hmain | hmain <;> rw [hmain] <;> exact ⟨hpos'.pointer, hpos'.passed⟩
      refine ⟨⟨d', hadv.core.withContexts _ _ _, .alone rfl hat⟩, ?_⟩
      have hempty := hadv.returned hnext
      obtain rfl := test_of_returned hnext
      exact .step (.leave s.mailbox hempty)
    | some next =>
      have hpos' := hadv.position
      rw [hnext] at hpos'
      refine ⟨⟨d', hadv.core.withContexts _ _ _, .handling (.poll next) rfl ?_ hfree'⟩,
        hadv.moves ?_ ?_ rfl ?_⟩
      · exact @PollPc.Ok.withContexts _ d' next hpos' _ _ _
      · exact statement_stored s pc
      · exact statement_isr s pc
      · rw [hserving]
        rfl

/-- Outside `rtl8139_poll` the handler leaves the ring alone. -/
theorem RingInv.withHandler {s t : System} {d : ℕ} (h : RingInv s d) (hat : At s d d)
    (hfree : s.Free) (pc : HandlerPc) (hpc : ∀ u, At u d d → pc.Ok u d)
    (ht : t = { s with isr := t.isr, handler := some pc }) : RingInv t d := by
  rw [ht]
  exact ⟨h.core.withContexts _ _ _, .handling pc rfl (hpc _ ⟨hat.pointer, hat.passed⟩) hfree⟩

theorem RingInv.at_of_handler {s : System} {d : ℕ} {pc : HandlerPc} (h : RingInv s d)
    (hpc : s.handler = some pc) : pc.Ok s d ∧ s.Free := by
  cases h.contexts with
  | alone hhandler => exact absurd (hhandler.symm.trans hpc) (by simp)
  | handling q hq hpos hfree =>
    obtain rfl : q = pc := Option.some.inj (hq.symm.trans hpc)
    exact ⟨hpos, hfree⟩

theorem RingInv.at_of_free {s : System} {d : ℕ} (h : RingInv s d) (hhandler : s.handler = none)
    (hfree : s.Free) : At s d d := by
  cases h.contexts with
  | alone _ hpos =>
    rcases hfree with hmain | hmain <;> rw [hmain] at hpos <;> exact hpos
  | handling pc hpc => exact absurd (hpc.symm.trans hhandler) (by simp)

theorem serving_eq {s : System} {pc : HandlerPc} (h : s.handler = some pc) :
    s.mailbox.serving = pc.Serving := by
  change s.handler.any _ = _
  rw [h]
  rfl

/-- Between two packets the main context may go on. -/
theorem At.position {s : System} {d : ℕ} (h : At s d d) (hfree : s.Free) : Position s d s.main := by
  rcases hfree with hmain | hmain <;> rw [hmain] <;> exact h

/-- The bell is answered by the write that clears it. -/
theorem RingInv.ackIsr {s : System} {d : ℕ} {isr : UInt16} (h : RingInv s d)
    (hpc : s.handler = some (.ackIsr isr)) :
    RingInv { s with isr := s.isr &&& ~~~isr, handler := some (.branch isr) } d ∧
      Moves s.mailbox
        { s with isr := s.isr &&& ~~~isr, handler := some (.branch isr) }.mailbox [] := by
  obtain ⟨hat, hfree⟩ := h.at_of_handler hpc
  have hserving : s.mailbox.serving = false := serving_eq hpc
  refine ⟨h.withHandler hat hfree (.branch isr) (fun _ hu => hu) rfl, ?_⟩
  cases hrok : rok isr with
  | true =>
    have hanswer : System.mailbox
        { s with isr := s.isr &&& ~~~isr, handler := some (.branch isr) } =
        { s.mailbox with rung := false, serving := true } := by
      ext1
      · rfl
      · rfl
      · change rok (s.isr &&& ~~~isr) = false
        rw [rok_ack, hrok, Bool.not_true, Bool.and_false]
      · exact hrok
    rw [hanswer]
    exact .step (.answer _)
  | false =>
    apply Moves.of_eq
    ext1
    · rfl
    · rfl
    · change rok (s.isr &&& ~~~isr) = rok s.isr
      rw [rok_ack, hrok, Bool.not_false, Bool.and_true]
    · rw [hserving]
      exact hrok

/-- The handler's turn. -/
theorem RingInv.handler {s : System} {d : ℕ} {pc : HandlerPc} (h : RingInv s d)
    (hpc : s.handler = some pc) :
    (∃ d', RingInv { (s.handlerStatement pc).1 with handler := (s.handlerStatement pc).2 } d') ∧
      Moves s.mailbox
        { (s.handlerStatement pc).1 with handler := (s.handlerStatement pc).2 }.mailbox [] := by
  have hserving := serving_eq hpc
  cases pc with
  | poll pc => exact h.handlerPoll hpc
  | readIsr =>
    obtain ⟨hat, hfree⟩ := h.at_of_handler hpc
    refine ⟨⟨d, h.withHandler hat hfree (.ackIsr s.isr) (fun _ hu => hu) rfl⟩, .of_eq ?_⟩
    ext1
    · rfl
    · rfl
    · rfl
    · exact hserving.symm
  | ackIsr isr => exact ⟨⟨d, (h.ackIsr hpc).1⟩, (h.ackIsr hpc).2⟩
  | branch isr =>
    obtain ⟨hat, hfree⟩ := h.at_of_handler hpc
    cases hrok : rok isr with
    | true =>
      have hnext : s.handlerStatement (.branch isr) = (s, some (.poll .test)) := by
        simp [System.handlerStatement, hrok]
      rw [hnext]
      refine ⟨⟨d, h.withHandler hat hfree (.poll .test) (fun _ hu => hu) rfl⟩, .of_eq ?_⟩
      ext1
      · rfl
      · rfl
      · rfl
      · exact (hserving.trans hrok).symm
    | false =>
      have hnext : s.handlerStatement (.branch isr) = (s, none) := by
        simp [System.handlerStatement, hrok]
      rw [hnext]
      refine ⟨⟨d, h.core.withContexts s.isr s.main none, .alone rfl ?_⟩, .of_eq ?_⟩
      · exact (At.position hat hfree).withContexts s.isr s.main none
      · ext1
        · rfl
        · rfl
        · rfl
        · exact (hserving.trans hrok).symm

/-- Another cause may ring the bell without an entry. -/
theorem System.moves_raise (s : System) (bits : UInt16) :
    Moves s.mailbox { s with isr := s.isr ||| bits }.mailbox [] := by
  have hrung : rok (s.isr ||| bits) = (rok s.isr || rok bits) := rok_or _ _
  cases hbits : rok bits with
  | true =>
    have hring : System.mailbox { s with isr := s.isr ||| bits } = { s.mailbox with rung := true } := by
      ext1
      · rfl
      · rfl
      · change rok (s.isr ||| bits) = true
        rw [hrung, hbits, Bool.or_true]
      · rfl
    rw [hring]
    exact .step (.ring _)
  | false =>
    apply Moves.of_eq
    ext1
    · rfl
    · rfl
    · change rok (s.isr ||| bits) = rok s.isr
      rw [hrung, hbits, Bool.or_false]
    · rfl

/-- Every step keeps the invariant and is a move of the mailbox, as long as no interrupt comes while
the main context is in the middle of a packet. -/
theorem RingInv.step {s s' : System} {d : ℕ} {e : Event} (h : RingInv s d)
    (hfree : e = .irq → s.Free) (hstep : SystemStep s e s') :
    (∃ d', RingInv s' d') ∧ Moves s.mailbox s'.mailbox e.brings := by
  unfold SystemStep System.step at hstep
  cases e with
  | nic p =>
    simp only at hstep
    split_ifs at hstep with hok
    obtain rfl := Option.some.inj hstep
    exact ⟨⟨d, h.receive hok.1 hok.2⟩, h.moves_receive p⟩
  | raise bits =>
    obtain rfl := Option.some.inj hstep
    refine ⟨⟨d, h.core.withContexts _ _ _, ?_⟩, s.moves_raise bits⟩
    cases h.contexts with
    | alone hhandler hpos => exact .alone hhandler (hpos.withContexts _ _ _)
    | handling pc hhandler hpos hfree => exact .handling pc hhandler (hpos.withContexts _ _ _) hfree
  | poll =>
    simp only at hstep
    split_ifs at hstep with hok
    obtain rfl := Option.some.inj hstep
    obtain ⟨hmain, hhandler⟩ := hok
    refine ⟨⟨d, h.core.withContexts _ _ _, .alone hhandler ?_⟩, .stay⟩
    cases h.contexts with
    | alone _ hpos =>
      rw [hmain] at hpos
      exact ⟨hpos.pointer, hpos.passed⟩
    | handling q hq => exact absurd (hq.symm.trans hhandler) (by simp)
  | irq =>
    simp only at hstep
    split_ifs at hstep with hok
    obtain rfl := Option.some.inj hstep
    have hfree := hfree rfl
    refine ⟨⟨d, h.withHandler (h.at_of_free hok hfree) hfree .readIsr (fun _ hu => hu) rfl⟩, .of_eq ?_⟩
    ext1
    · rfl
    · rfl
    · rfl
    · change false = s.handler.any _
      rw [hok]
      rfl
  | cpu =>
    cases hhandler : s.handler with
    | some pc =>
      simp only [hhandler] at hstep
      obtain rfl := Option.some.inj hstep
      exact h.handler hhandler
    | none =>
      cases hmain : s.main with
      | some pc =>
        simp only [hhandler, hmain] at hstep
        obtain rfl := Option.some.inj hstep
        exact h.main hhandler hmain
      | none =>
        simp only [hhandler, hmain] at hstep
        exact absurd hstep (by simp)

end MathUnikernel.Rtl8139
