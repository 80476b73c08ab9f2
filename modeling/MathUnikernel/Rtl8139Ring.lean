import MathUnikernel.Library.ByteStore
import MathUnikernel.Library.Ring
import MathUnikernel.Rtl8139

/-!
# The RTL8139 with its driver

The card writes packets into the receive buffer, `rtl8139_poll` takes them out, one step for each
statement, and `rtl8139_interrupt_handler` runs to its end before the main context goes on.
-/

namespace MathUnikernel.Rtl8139
open ByteStore Network Ring Runs

/-- What the card writes for a frame: two bytes of receive status, the length with the checksum, the
frame and the checksum. -/
structure Packet where
  statusLow : UInt8
  statusHigh : UInt8
  bytes : Frame
  crc : List UInt8

def Packet.image (p : Packet) : List UInt8 :=
  [p.statusLow, p.statusHigh, UInt8.ofNat (p.bytes.length + 4),
    UInt8.ofNat ((p.bytes.length + 4) / 256)] ++ p.bytes ++ p.crc

/-- The bytes of the ring that a packet takes up. -/
def Packet.size (p : Packet) : ℕ := (p.bytes.length + 8 + 3) / 4 * 4

/-- The card stores no empty frame, and none that is as large as the ring. -/
structure Packet.Valid (p : Packet) : Prop where
  bytes : p.bytes ≠ []
  crc : p.crc.length = 4
  size : p.size < ringSize

instance (p : Packet) : Decidable p.Valid :=
  decidable_of_iff (p.bytes ≠ [] ∧ p.crc.length = 4 ∧ p.size < ringSize)
    ⟨fun h => ⟨h.1, h.2.1, h.2.2⟩, fun h => ⟨h.bytes, h.crc, h.size⟩⟩

def frames (packets : List Packet) : List Frame := packets.map (·.bytes)

/-- Where in the stream of everything stored the packets end. -/
def offset (packets : List Packet) : ℕ := (packets.map Packet.size).sum

/-- `ROK`, bit 0. -/
def rokBit : UInt16 := 1

def rok (isr : UInt16) : Bool := isr &&& rokBit ≠ 0

/-- The bytes that `network_receive_frame` is given the place and the length of. -/
def frameAt (rxBuffer : ℕ → UInt8) (slice : ℕ × ℕ) : Frame :=
  (List.range slice.2).map fun i => rxBuffer (slice.1 + i)

/-- Positions in `rtl8139_poll`, with the locals of one round. -/
inductive PollPc
  /-- `while (!(inb(global_bar0 + 0x37) & 0x01))`. -/
  | test
  | header
  | length (packetHeader : ℕ)
  | deliver (packetHeader totalLen : ℕ)
  /-- Both assignments to `rx_read_ptr`. -/
  | advance (totalLen : ℕ)
  /-- `outw(global_bar0 + 0x38, rx_read_ptr - 16)`. -/
  | writeRegister
  deriving DecidableEq

/-- Positions in `rtl8139_interrupt_handler`. -/
inductive HandlerPc
  | readIsr
  /-- `outw(global_bar0 + ISR, isr)`. -/
  | ackIsr (isr : UInt16)
  | branch (isr : UInt16)
  | poll (pc : PollPc)
  deriving DecidableEq

/-- The buffer, the offset the card writes at, its registers `0x38` and `0x3E`, `rx_read_ptr`, and
where the two contexts are.  Two ghosts: the packets stored and the frames passed on. -/
structure System where
  rxBuffer : ℕ → UInt8
  rxBufAddr : ℕ
  readRegister : ℕ
  isr : UInt16
  rxReadPtr : ℕ
  main : Option PollPc
  handler : Option HandlerPc
  stored : List Packet
  passed : List Frame

/-- After `rtl8139_init`.  The register at `0x38` is `0xFFF0` after a reset. -/
def rtl8139Init : System where
  rxBuffer := fun _ => 0
  rxBufAddr := 0
  readRegister := 0xFFF0
  isr := 0
  rxReadPtr := 0
  main := none
  handler := none
  stored := []
  passed := []

/-- Where the card takes the driver to be. -/
def System.rxBufPtr (s : System) : ℕ := (s.readRegister + 16) % ringSize

/-- Bit 0 of the register at `0x37`. -/
def System.bufferEmpty (s : System) : Bool := s.rxBufAddr = s.rxBufPtr

/-- The card stores a packet if the ring is empty, or if it stays short of the driver. -/
def System.Accepts (s : System) (p : Packet) : Prop :=
  s.bufferEmpty = true ∨ p.size < (ringSize + s.rxBufPtr - s.rxBufAddr) % ringSize

instance (s : System) (p : Packet) : Decidable (s.Accepts p) := inferInstanceAs (Decidable (_ ∨ _))

/-- A packet is stored in one piece, over the end of the ring if it has to be. -/
def System.receive (s : System) (p : Packet) : System :=
  { s with
    rxBuffer := write s.rxBuffer (storesFrom id s.rxBufAddr p.image)
    rxBufAddr := (s.rxBufAddr + p.bytes.length + 8 + 3) / 4 * 4 % ringSize
    isr := s.isr ||| rokBit
    stored := s.stored ++ [p] }

/-- `rx_read_ptr - 16`, the 16 bits that `outw` takes. -/
def registerValue (rxReadPtr : ℕ) : ℕ := (((rxReadPtr : ℤ) - 16) % 2 ^ 16).toNat

/-- One statement of `rtl8139_poll`, and the position after it. -/
def System.statement (s : System) : PollPc → System × Option PollPc
  | .test => (s, if s.bufferEmpty then none else some .header)
  | .header => (s, some (.length s.rxReadPtr))
  | .length packetHeader => (s, some (.deliver packetHeader (totalLen s.rxBuffer packetHeader)))
  | .deliver packetHeader totalLen =>
    let received := (frameSlice packetHeader totalLen).toList.map (frameAt s.rxBuffer)
    ({ s with passed := s.passed ++ received }, some (.advance totalLen))
  | .advance totalLen =>
    ({ s with rxReadPtr := Rtl8139.advance s.rxReadPtr totalLen }, some .writeRegister)
  | .writeRegister => ({ s with readRegister := registerValue s.rxReadPtr }, some .test)

/-- One statement of `rtl8139_interrupt_handler`.  Writing a bit back clears it. -/
def System.handlerStatement (s : System) : HandlerPc → System × Option HandlerPc
  | .readIsr => (s, some (.ackIsr s.isr))
  | .ackIsr isr => ({ s with isr := s.isr &&& ~~~isr }, some (.branch isr))
  | .branch isr => (s, if rok isr then some (.poll .test) else none)
  | .poll pc => ((s.statement pc).1, (s.statement pc).2.map .poll)

inductive Event
  /-- The card stores a packet. -/
  | nic (p : Packet)
  /-- The card sets bits of the interrupt status. -/
  | raise (bits : UInt16)
  /-- The main context calls `nic_poll`. -/
  | poll
  /-- The interrupt handler begins. -/
  | irq
  /-- The next statement. -/
  | cpu

def System.step (s : System) : Event → Option System
  | .nic p => if p.Valid ∧ s.Accepts p then some (s.receive p) else none
  | .raise bits => some { s with isr := s.isr ||| bits }
  | .poll => if s.main = none ∧ s.handler = none then some { s with main := some .test } else none
  | .irq => if s.handler = none then some { s with handler := some .readIsr } else none
  | .cpu =>
    match s.handler with
    | some pc => let (s', pc') := s.handlerStatement pc; some { s' with handler := pc' }
    | none =>
      match s.main with
      | some pc => let (s', pc') := s.statement pc; some { s' with main := pc' }
      | none => none

def SystemStep (s : System) (e : Event) (s' : System) : Prop := s.step e = some s'

/-- The main context is not in the middle of a packet. -/
def System.Free (s : System) : Prop := s.main = none ∨ s.main = some .test

/-! ## Packets -/

theorem Packet.size_mod_four (p : Packet) : p.size % 4 = 0 := by
  unfold size
  omega

theorem Packet.size_pos (p : Packet) : 0 < p.size := by
  unfold size
  omega

@[simp] theorem offset_nil : offset [] = 0 := rfl

@[simp] theorem offset_append (ps qs : List Packet) : offset (ps ++ qs) = offset ps + offset qs := by
  simp [offset]

@[simp] theorem offset_singleton (p : Packet) : offset [p] = p.size := by
  simp [offset]

theorem offset_take_succ {ps : List Packet} {k : ℕ} {p : Packet} (h : ps[k]? = some p) :
    offset (ps.take (k + 1)) = offset (ps.take k) + p.size := by
  rw [List.take_add_one, h, offset_append]
  exact congrArg (offset (ps.take k) + ·) (offset_singleton p)

theorem offset_mod_four (ps : List Packet) : offset ps % 4 = 0 := by
  induction ps with
  | nil => rfl
  | cons p ps ih =>
    have hsplit : offset (p :: ps) = p.size + offset ps := rfl
    have hsize := p.size_mod_four
    omega

theorem offset_take_le (ps : List Packet) (k : ℕ) : offset (ps.take k) ≤ offset ps := by
  have hsplit := offset_append (ps.take k) (ps.drop k)
  rw [List.take_append_drop] at hsplit
  omega

theorem offset_take_mono (ps : List Packet) {j k : ℕ} (h : j ≤ k) :
    offset (ps.take j) ≤ offset (ps.take k) := by
  have hle := offset_take_le (ps.take k) j
  rwa [List.take_take, Nat.min_eq_left h] at hle

/-- Only all the packets together end where the last one ends. -/
theorem offset_take_lt {ps : List Packet} {k : ℕ} (h : k < ps.length) :
    offset (ps.take k) < offset ps := by
  have hnext := offset_take_succ (List.getElem?_eq_getElem h)
  have hle := offset_take_le ps (k + 1)
  have hpos := ps[k].size_pos
  omega

theorem Packet.image_length {p : Packet} (h : p.crc.length = 4) :
    p.image.length = p.bytes.length + 8 := by
  simp [image, h]

theorem Packet.image_length_le {p : Packet} (h : p.crc.length = 4) : p.image.length ≤ p.size := by
  rw [image_length h]
  unfold size
  omega

/-- The length field and the subtraction of the checksum do not overflow. -/
theorem Packet.Valid.length_lt {p : Packet} (h : p.Valid) : p.bytes.length + 4 < ringSize := by
  have hsize := h.size
  unfold Packet.size ringSize at *
  omega

/-- The buffer holds a packet from the given place on. -/
def Stored (rxBuffer : ℕ → UInt8) (start : ℕ) (p : Packet) : Prop :=
  ∀ i (h : i < p.image.length), rxBuffer (start + i) = p.image[i]

/-- The driver reads the length that the card has written. -/
theorem Stored.totalLen_eq {rxBuffer : ℕ → UInt8} {start : ℕ} {p : Packet}
    (h : Stored rxBuffer start p) (hp : p.Valid) :
    totalLen rxBuffer start = p.bytes.length + 4 := by
  have hlen := Packet.image_length hp.crc
  have hshort := hp.length_lt
  have hlow : rxBuffer (start + 2) = UInt8.ofNat (p.bytes.length + 4) := h 2 (by omega)
  have hhigh : rxBuffer (start + 3) = UInt8.ofNat ((p.bytes.length + 4) / 256) := h 3 (by omega)
  unfold totalLen
  unfold ringSize at hshort
  rw [hlow, hhigh, UInt8.toNat_ofNat', UInt8.toNat_ofNat']
  omega

theorem Packet.image_bytes (p : Packet) {i : ℕ} (hi : i < p.bytes.length)
    (h : i + 4 < p.image.length) : p.image[i + 4] = p.bytes[i] := by
  simp [image, hi]

/-- The driver passes on the frame that the card has stored. -/
theorem Stored.frame {rxBuffer : ℕ → UInt8} {start : ℕ} {p : Packet} (h : Stored rxBuffer start p)
    (hp : p.Valid) :
    (frameSlice start (p.bytes.length + 4)).toList.map (frameAt rxBuffer) = [p.bytes] := by
  have hpos := List.length_pos_iff.mpr hp.bytes
  have hlong : 4 < p.bytes.length + 4 := by omega
  have hbytes : frameAt rxBuffer (start + 4, p.bytes.length) = p.bytes := by
    unfold frameAt
    apply List.ext_getElem
    · simp
    · intro i hi hi'
      have hin : i + 4 < p.image.length := by
        rw [Packet.image_length hp.crc]
        omega
      rw [List.getElem_map, List.getElem_range, ← p.image_bytes hi' hin, ← h (i + 4) hin]
      exact congrArg rxBuffer (by omega)
  unfold frameSlice
  rw [if_pos hlong]
  simp [hbytes]

/-- What the card has just written. -/
theorem stored_write (rxBuffer : ℕ → UInt8) (start : ℕ) (p : Packet) :
    Stored (write rxBuffer (storesFrom id start p.image)) start p := by
  intro i hi
  exact @write_storesFrom _ _ _ id start p.image rxBuffer (fun j k _ _ _ _ h => h) i hi

/-! ## The ring -/

/-- The ring, apart from what a context is doing with it.  The register at `0x38` was last written
after `d` packets. -/
structure Core (s : System) (d : ℕ) : Prop where
  addr : s.rxBufAddr = offset s.stored % ringSize
  ptr : s.rxBufPtr = offset (s.stored.take d) % ringSize
  d_le : d ≤ s.stored.length
  room : offset s.stored < offset (s.stored.take d) + ringSize
  valid : ∀ p ∈ s.stored, p.Valid
  unread : ∀ k p, d ≤ k → s.stored[k]? = some p →
    Stored s.rxBuffer (offset (s.stored.take k) % ringSize) p

/-- The card says that the ring is empty exactly if every packet has been taken out. -/
theorem Core.bufferEmpty_iff {s : System} {d : ℕ} (h : Core s d) :
    s.bufferEmpty = true ↔ d = s.stored.length := by
  unfold System.bufferEmpty
  rw [decide_eq_true_iff, h.addr, h.ptr]
  constructor
  · intro heq
    by_contra hne
    have hlt := offset_take_lt (Nat.lt_of_le_of_ne h.d_le hne)
    exact mod_ne hlt h.room heq.symm
  · intro heq
    rw [heq, List.take_length]

/-- A packet that the card accepts leaves the ring short of full. -/
theorem Core.room_receive {s : System} {d : ℕ} (h : Core s d) {p : Packet} (hp : p.Valid)
    (haccepts : s.Accepts p) : offset s.stored + p.size < offset (s.stored.take d) + ringSize := by
  rcases haccepts with hempty | hless
  · rw [h.bufferEmpty_iff.mp hempty, List.take_length]
    have hsize := hp.size
    omega
  · have hroom := h.room
    have hle := offset_take_le s.stored d
    rw [h.addr, h.ptr] at hless
    unfold ringSize at *
    omega

/-- The stream goes on where the new packet ends. -/
theorem Core.next_addr {s : System} {d : ℕ} (h : Core s d) (p : Packet) :
    (s.rxBufAddr + p.bytes.length + 8 + 3) / 4 * 4 % ringSize =
      (offset s.stored + p.size) % ringSize := by
  have haligned := offset_mod_four s.stored
  rw [h.addr]
  unfold Packet.size ringSize
  omega

theorem lt_of_getElem? {ps : List Packet} {k : ℕ} {p : Packet} (h : ps[k]? = some p) :
    k < ps.length := (List.getElem?_eq_some_iff.mp h).1

/-- A packet in the ring is not written over by the next one. -/
theorem Core.stored_receive {s : System} {d : ℕ} (h : Core s d) {p : Packet} (hp : p.Valid)
    (haccepts : s.Accepts p) {k : ℕ} {q : Packet} (hk : d ≤ k) (hq : s.stored[k]? = some q) :
    Stored (s.receive p).rxBuffer (offset (s.stored.take k) % ringSize) q := by
  intro i hi
  have hroom := h.room_receive hp haccepts
  have hmono := offset_take_mono s.stored hk
  have hnext := offset_take_succ hq
  have hend := offset_take_le s.stored (k + 1)
  have hsize := Packet.image_length_le (h.valid q (List.mem_of_getElem? hq)).crc
  have hnew := Packet.image_length_le hp.crc
  change write s.rxBuffer (storesFrom id s.rxBufAddr p.image) _ = _
  rw [write_storesFrom_outside, h.unread k q hk hq i hi]
  intro j hj hj' heq
  rw [h.addr] at hj hj'
  obtain ⟨m, rfl⟩ := Nat.exists_eq_add_of_le hj
  exact add_mod_ne (by omega) (by omega) heq.symm

theorem Core.receive {s : System} {d : ℕ} (h : Core s d) {p : Packet} (hp : p.Valid)
    (haccepts : s.Accepts p) : Core (s.receive p) d := by
  have hlen : (s.stored ++ [p]).length = s.stored.length + 1 := by simp
  have htake : ∀ k ≤ s.stored.length, (s.stored ++ [p]).take k = s.stored.take k :=
    fun k hk => List.take_append_of_le_length hk
  refine ⟨?_, ?_, ?_, ?_, ?_, ?_⟩
  · change _ = offset (s.stored ++ [p]) % ringSize
    rw [offset_append, offset_singleton]
    exact h.next_addr p
  · change s.rxBufPtr = offset ((s.stored ++ [p]).take d) % ringSize
    rw [htake d h.d_le, h.ptr]
  · change d ≤ (s.stored ++ [p]).length
    rw [hlen]
    exact Nat.le_succ_of_le h.d_le
  · change offset (s.stored ++ [p]) < offset ((s.stored ++ [p]).take d) + ringSize
    rw [htake d h.d_le, offset_append, offset_singleton]
    exact h.room_receive hp haccepts
  · intro q hq
    rcases List.mem_append.mp hq with hq | hq
    · exact h.valid q hq
    · rwa [List.mem_singleton.mp hq]
  · intro k q hk hq
    change (s.stored ++ [p])[k]? = some q at hq
    change Stored _ (offset ((s.stored ++ [p]).take k) % ringSize) q
    by_cases hlast : k = s.stored.length
    · rw [hlast, List.getElem?_concat_length] at hq
      rw [hlast, htake _ le_rfl, List.take_length, ← h.addr, ← Option.some.inj hq]
      exact stored_write _ _ _
    · have hlt : k < s.stored.length := by
        have := (List.getElem?_eq_some_iff.mp hq).1
        omega
      rw [htake k hlt.le]
      exact h.stored_receive hp haccepts hk (by rwa [List.getElem?_append_left hlt] at hq)

/-! ## The driver -/

/-- `rx_read_ptr` is at packet `k`, and the packets before packet `n` have been passed on. -/
structure At (s : System) (k n : ℕ) : Prop where
  pointer : s.rxReadPtr = offset (s.stored.take k) % ringSize
  passed : s.passed = frames (s.stored.take n)

/-- What holds at a position of the context that is running. -/
def PollPc.Ok (s : System) (d : ℕ) : PollPc → Prop
  | .test => At s d d
  | .header => At s d d ∧ ∃ p, s.stored[d]? = some p
  | .length packetHeader => At s d d ∧ ∃ p, s.stored[d]? = some p ∧ packetHeader = s.rxReadPtr
  | .deliver packetHeader totalLen =>
    At s d d ∧ ∃ p, s.stored[d]? = some p ∧ packetHeader = s.rxReadPtr ∧
      totalLen = p.bytes.length + 4
  | .advance totalLen =>
    At s d (d + 1) ∧ ∃ p, s.stored[d]? = some p ∧ totalLen = p.bytes.length + 4
  | .writeRegister => At s (d + 1) (d + 1) ∧ d < s.stored.length

/-- One packet further. -/
theorem advance_packet {ps : List Packet} {k : ℕ} {p : Packet} (h : ps[k]? = some p)
    (hp : p.Valid) : advance (offset (ps.take k) % ringSize) (p.bytes.length + 4) =
      offset (ps.take (k + 1)) % ringSize := by
  have hlt : offset (ps.take k) % ringSize < ringSize := Nat.mod_lt _ (by decide)
  have hlen := hp.length_lt
  have haligned := offset_mod_four (ps.take k)
  rw [advance_eq_mod hlt, offset_take_succ h]
  · unfold Packet.size ringSize at *
    omega
  · unfold ringSize at hlen
    omega
  · have hsize := hp.size
    unfold Fits rxBufferSize
    unfold Packet.size ringSize at *
    omega

/-- The card gets back the place that the driver has written. -/
theorem register_pointer (a : ℕ) :
    (registerValue (a % ringSize) + 16) % ringSize = a % ringSize := by
  unfold registerValue ringSize
  omega

/-- The register moves over one packet. -/
theorem Core.writeRegister {s : System} {d : ℕ} (h : Core s d) (hlt : d < s.stored.length)
    (hptr : s.rxReadPtr = offset (s.stored.take (d + 1)) % ringSize) :
    Core { s with readRegister := registerValue s.rxReadPtr } (d + 1) := by
  have hmono := offset_take_mono s.stored (Nat.le_succ d)
  refine ⟨h.addr, ?_, hlt, ?_, h.valid, fun k p hk => h.unread k p (Nat.le_of_succ_le hk)⟩
  · change (registerValue s.rxReadPtr + 16) % ringSize = _
    rw [hptr, register_pointer]
  · exact h.room.trans_le (Nat.add_le_add_right hmono ringSize)

end MathUnikernel.Rtl8139
