import MathUnikernel.Library.Runs
import MathUnikernel.Library.Ring
import MathUnikernel.Network

/-!
# The I219 receive ring

The ring that `i219_init` sets up, the network card that fills it, and `i219_poll_rx`, one step for
each statement.  The same function runs in the main context, which `read_ethernet` polls from, and in
the interrupt handler, which runs to its end before the main context goes on.
-/

namespace MathUnikernel.I219
open ByteStore Network

def numRxDesc : ℕ := 32
def rxBufSize : ℕ := 2048

/-- `struct i219_rx_descriptor`, as far as the driver reads it.  The `addr` of descriptor `i` is the
buffer `i` throughout. -/
structure Descriptor where
  length : ℕ
  status : UInt8
  errors : UInt8

/-- `status & 0x01`, Descriptor Done. -/
def Descriptor.dd (d : Descriptor) : Bool := d.status &&& 0x01 ≠ 0

@[simp] theorem Descriptor.dd_cleared (d : Descriptor) :
    Descriptor.dd { d with status := 0 } = false := by
  simp [Descriptor.dd]

/-- What the card stores: the bytes of a frame, and what it reports in the descriptor. -/
structure Packet where
  bytes : Frame
  status : UInt8
  errors : UInt8

def Packet.descriptor (p : Packet) : Descriptor := ⟨p.bytes.length, p.status, p.errors⟩

/-- A packet fits the buffer size of `RCTL`, and its descriptor is done. -/
def Packet.Valid (p : Packet) : Prop := p.bytes.length ≤ rxBufSize ∧ p.descriptor.dd = true

instance (p : Packet) : Decidable p.Valid := inferInstanceAs (Decidable (_ ∧ _))

/-- The frames that are to be passed on. -/
def goodFrames (packets : List Packet) : List Frame :=
  (packets.filter fun p => p.errors = 0).map (·.bytes)

/-- Positions in `i219_poll_rx`, with the locals of one round. -/
inductive PollPc
  /-- `while (rx_ring_virt[rx_tail].status & 0x01)`. -/
  | test
  | packet
  | length (packet : ℕ)
  | errors (packet length : ℕ)
  /-- The branch on `errors`. -/
  | deliver (packet length : ℕ) (errors : UInt8)
  /-- `rx_ring_virt[rx_tail].status = 0`. -/
  | clear
  /-- `rx_tail = (rx_tail + 1) % NUM_RX_DESC`. -/
  | advance
  /-- `reg_write(RDT, rx_tail)`. -/
  | writeTail
  deriving DecidableEq

/-- The ring in memory, the registers `RDH` and `RDT`, `rx_tail`, and where the two contexts are in
`i219_poll_rx`.  Three ghosts: the packets stored by the card, the calls of `network_receive_frame`,
and how many descriptors have been cleared. -/
structure Driver where
  desc : ℕ → Descriptor
  buffer : ℕ → ℕ → UInt8
  rdh : ℕ
  rdt : ℕ
  rxTail : ℕ
  main : Option PollPc
  handler : Option PollPc
  stored : List Packet
  passed : List Frame
  processed : ℕ

/-- After `i219_init`: every status is 0, the rest of the ring is whatever the frames held. -/
def i219Init (desc : ℕ → Descriptor) (buffer : ℕ → ℕ → UInt8) : Driver where
  desc i := { desc i with status := 0 }
  buffer := buffer
  rdh := 0
  rdt := numRxDesc - 1
  rxTail := 0
  main := none
  handler := none
  stored := []
  passed := []
  processed := 0

/-- The card fills the descriptor at its head. -/
def Driver.receive (s : Driver) (p : Packet) : Driver :=
  { s with
    desc := Function.update s.desc s.rdh p.descriptor
    buffer := Function.update s.buffer s.rdh (write (s.buffer s.rdh) (storesFrom id 0 p.bytes))
    rdh := (s.rdh + 1) % numRxDesc
    stored := s.stored ++ [p] }

/-- One statement of `i219_poll_rx`, and the position after it. -/
def Driver.statement (s : Driver) : PollPc → Driver × Option PollPc
  | .test => (s, if (s.desc s.rxTail).dd then some .packet else none)
  | .packet => (s, some (.length s.rxTail))
  | .length packet => (s, some (.errors packet (s.desc s.rxTail).length))
  | .errors packet length => (s, some (.deliver packet length (s.desc s.rxTail).errors))
  | .deliver packet length errors =>
    if errors ≠ 0 then (s, some .clear)
    else ({ s with passed := s.passed ++ [(List.range length).map (s.buffer packet)] }, some .clear)
  | .clear =>
    ({ s with
        desc := Function.update s.desc s.rxTail { s.desc s.rxTail with status := 0 }
        processed := s.processed + 1 }, some .advance)
  | .advance => ({ s with rxTail := (s.rxTail + 1) % numRxDesc }, some .writeTail)
  | .writeTail => ({ s with rdt := s.rxTail }, some .test)

inductive Event
  /-- The card stores a packet. -/
  | nic (p : Packet)
  /-- The main context calls `nic_poll`. -/
  | poll
  /-- The interrupt handler begins. -/
  | irq
  /-- The next statement. -/
  | cpu

/-- The card may fill descriptors from `RDH` up to but not including `RDT`. -/
def Driver.step (s : Driver) : Event → Option Driver
  | .nic p => if s.rdh ≠ s.rdt ∧ p.Valid then some (s.receive p) else none
  | .poll => if s.main = none ∧ s.handler = none then some { s with main := some .test } else none
  | .irq => if s.handler = none then some { s with handler := some .test } else none
  | .cpu =>
    match s.handler with
    | some pc => let (s', pc') := s.statement pc; some { s' with handler := pc' }
    | none =>
      match s.main with
      | some pc => let (s', pc') := s.statement pc; some { s' with main := pc' }
      | none => none

def Step (s : Driver) (e : Event) (s' : Driver) : Prop := s.step e = some s'

/-- The main context has decided about the descriptor at `rx_tail` and has not cleared it. -/
def PollPc.Holding : PollPc → Prop
  | .packet | .length _ | .errors _ _ | .deliver _ _ _ | .clear => True
  | _ => False

/-- The driver has drained the ring. -/
structure Driver.Drained (s : Driver) : Prop where
  main : s.main = none
  handler : s.handler = none
  dd : (s.desc s.rxTail).dd = false

end MathUnikernel.I219
