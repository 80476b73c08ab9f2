import MathUnikernel.Library.ByteBitmap
import MathUnikernel.Library.Runs
import MathUnikernel.Network

/-!
# The RTL8139 receive ring

`rtl8139_poll` over whatever the card has written into the receive buffer.
-/

namespace MathUnikernel.Rtl8139
open Network Runs

/-- `4 * 4096`, what `rtl8139_init` allocates. -/
def rxBufferSize : ℕ := 4 * 4096

def ringSize : ℕ := 8192

/-- `rx_read_ptr`, what was last written to the register at `0x38`, and a ghost: the frames passed
to `network_receive_frame`. -/
structure Driver where
  rxReadPtr : ℕ
  readRegister : ℕ
  passed : List Frame

/-- Before the first packet. -/
def initial : Driver := ⟨0, 0, []⟩

/-- `*(uint16_t*)(packet_header + 2)`. -/
def totalLen (rxBuffer : ℕ → UInt8) (rxReadPtr : ℕ) : ℕ :=
  (rxBuffer (rxReadPtr + 2)).toNat + (rxBuffer (rxReadPtr + 3)).toNat * 256

/-- The arguments of `network_receive_frame`, as an offset into the buffer and a length. -/
def frameSlice (rxReadPtr totalLen : ℕ) : Option (ℕ × ℕ) :=
  if 4 < totalLen then some (rxReadPtr + 4, totalLen - 4) else none

/-- `(rx_read_ptr + total_len + 4 + 3) & ~3`, and the subtraction after it. -/
def advance (rxReadPtr totalLen : ℕ) : ℕ :=
  let next := (rxReadPtr + totalLen + 4 + 3) % 2 ^ 32 &&& 0xFFFFFFFC
  -- the ring is subtracted once, however long the packet is
  if ringSize ≤ next then next - ringSize else next

/-- One round of the loop of `rtl8139_poll`, with the buffer as the card has left it. -/
def Driver.round (s : Driver) (rxBuffer : ℕ → UInt8) : Driver :=
  -- the length is the card's, and is not checked
  let totalLen := totalLen rxBuffer s.rxReadPtr
  let frames := (frameSlice s.rxReadPtr totalLen).toList.map fun (start, length) =>
    (List.range length).map fun i => rxBuffer (start + i)
  let rxReadPtr := advance s.rxReadPtr totalLen
  { rxReadPtr
    readRegister := (rxReadPtr + 2 ^ 32 - 16) % 2 ^ 16
    passed := s.passed ++ frames }

/-- The rounds of any number of calls; the buffer may change in between. -/
def Step (s : Driver) (rxBuffer : ℕ → UInt8) (s' : Driver) : Prop := s' = s.round rxBuffer

/-! ## One round -/

theorem totalLen_lt (rxBuffer : ℕ → UInt8) (rxReadPtr : ℕ) :
    totalLen rxBuffer rxReadPtr < 2 ^ 16 := by
  have hlow : (rxBuffer (rxReadPtr + 2)).toNat < 256 := UInt8.toNat_lt _
  have hhigh : (rxBuffer (rxReadPtr + 3)).toNat < 256 := UInt8.toNat_lt _
  unfold totalLen
  omega

theorem and_not_three (x : ℕ) : x % 2 ^ 32 &&& 0xFFFFFFFC = x % 2 ^ 32 / 4 * 4 := by
  have hfield : (0xFFFFFFFC : ℕ) = (2 ^ 30 - 1) <<< 2 := rfl
  rw [hfield, ByteBitmap.and_field]
  omega

theorem advance_eq {rxReadPtr totalLen : ℕ} (hptr : rxReadPtr < ringSize)
    (hlen : totalLen < 2 ^ 16) : advance rxReadPtr totalLen =
      if ringSize ≤ (rxReadPtr + totalLen + 7) / 4 * 4
      then (rxReadPtr + totalLen + 7) / 4 * 4 - ringSize
      else (rxReadPtr + totalLen + 7) / 4 * 4 := by
  have hsmall : (rxReadPtr + totalLen + 4 + 3) % 2 ^ 32 = rxReadPtr + totalLen + 7 := by
    unfold ringSize at hptr
    omega
  unfold advance
  rw [and_not_three, hsmall]

/-- The packet ends far enough before the end of the buffer. -/
def Fits (rxReadPtr totalLen : ℕ) : Prop := rxReadPtr + totalLen + 7 < rxBufferSize

instance (rxReadPtr totalLen : ℕ) : Decidable (Fits rxReadPtr totalLen) :=
  inferInstanceAs (Decidable (_ < _))

/-- The pointer stays below the size of the ring if and only if the packet fits. -/
theorem advance_lt_iff {rxReadPtr totalLen : ℕ} (hptr : rxReadPtr < ringSize)
    (hlen : totalLen < 2 ^ 16) : advance rxReadPtr totalLen < ringSize ↔ Fits rxReadPtr totalLen := by
  rw [advance_eq hptr hlen]
  unfold Fits rxBufferSize ringSize at *
  split_ifs with hwrap
  · omega
  · omega

theorem advance_mod_four {rxReadPtr totalLen : ℕ} (hptr : rxReadPtr < ringSize)
    (hlen : totalLen < 2 ^ 16) : advance rxReadPtr totalLen % 4 = 0 := by
  rw [advance_eq hptr hlen]
  unfold ringSize at *
  split_ifs with hwrap
  · omega
  · omega

/-- One subtraction is enough for packets that fit. -/
theorem advance_eq_mod {rxReadPtr totalLen : ℕ} (hptr : rxReadPtr < ringSize)
    (hlen : totalLen < 2 ^ 16) (hfits : Fits rxReadPtr totalLen) :
    advance rxReadPtr totalLen = (rxReadPtr + totalLen + 7) / 4 * 4 % ringSize := by
  rw [advance_eq hptr hlen]
  unfold Fits rxBufferSize ringSize at *
  split_ifs with hwrap
  · omega
  · omega

/-! ## Runs -/

/-- The pointer is in the ring after the round, and what the round read was in the buffer. -/
structure InRing (s : Driver) (rxBuffer : ℕ → UInt8) (s' : Driver) : Prop where
  aligned : s'.rxReadPtr % 4 = 0
  lt : s'.rxReadPtr < ringSize
  header : s.rxReadPtr + 4 ≤ rxBufferSize
  slice : ∀ start length, frameSlice s.rxReadPtr (totalLen rxBuffer s.rxReadPtr) =
    some (start, length) → start + length ≤ rxBufferSize

theorem inRing_round_iff {s : Driver} (hptr : s.rxReadPtr < ringSize) (rxBuffer : ℕ → UInt8) :
    InRing s rxBuffer (s.round rxBuffer) ↔
      Fits s.rxReadPtr (totalLen rxBuffer s.rxReadPtr) := by
  have hlen := totalLen_lt rxBuffer s.rxReadPtr
  constructor
  · intro h
    exact (advance_lt_iff hptr hlen).mp h.lt
  · intro hfits
    refine ⟨advance_mod_four hptr hlen, (advance_lt_iff hptr hlen).mpr hfits, ?_, ?_⟩
    · unfold ringSize at hptr
      unfold rxBufferSize
      omega
    · intro start length hslice
      unfold frameSlice at hslice
      split_ifs at hslice with hlong
      obtain ⟨rfl, rfl⟩ := Prod.mk.inj (Option.some.inj hslice)
      unfold Fits rxBufferSize at *
      omega

/-- While all packets fit, the pointer is in the ring. -/
theorem rxReadPtr_lt_of_run {tr : List (Driver × (ℕ → UInt8) × Driver)} {s : Driver}
    (h : Run Step initial tr s)
    (hfits : ∀ x ∈ tr, Fits x.1.rxReadPtr (totalLen x.2.1 x.1.rxReadPtr)) :
    s.rxReadPtr < ringSize ∧
      ∀ x ∈ tr, x.1.rxReadPtr < ringSize ∧ x.2.2.rxReadPtr < ringSize := by
  have hstart : initial.rxReadPtr < ringSize := by decide
  apply h.invariant_of_mem (I := fun s => s.rxReadPtr < ringSize) hstart
  intro x hx hptr
  rw [h.step_of_mem hx]
  exact (advance_lt_iff hptr (totalLen_lt _ _)).mpr (hfits x hx)

/-- In a run from the initial state every round stays in the ring and in the buffer if and only if
every packet fits. -/
theorem inRing_of_run_iff {tr : List (Driver × (ℕ → UInt8) × Driver)} {s : Driver}
    (h : Run Step initial tr s) :
    (∀ x ∈ tr, InRing x.1 x.2.1 x.2.2) ↔
      ∀ x ∈ tr, Fits x.1.rxReadPtr (totalLen x.2.1 x.1.rxReadPtr) := by
  constructor
  · intro hring x hx
    have hstart : initial.rxReadPtr < ringSize := by decide
    have hbefore := h.invariant_of_mem (I := fun s => s.rxReadPtr < ringSize) hstart
      fun y hy _ => (hring y hy).lt
    apply (inRing_round_iff (hbefore.2 x hx).1 x.2.1).mp
    rw [← h.step_of_mem hx]
    exact hring x hx
  · intro hfits x hx
    have hptr := ((rxReadPtr_lt_of_run h hfits).2 x hx).1
    rw [h.step_of_mem hx]
    exact (inRing_round_iff hptr x.2.1).mpr (hfits x hx)

/-- A buffer whose first packet has the length in its header. -/
def packetOf (low high : UInt8) : ℕ → UInt8 := fun i => if i = 2 then low else if i = 3 then high else 0

/-- A packet of 64 bytes. -/
theorem inRing_of_run_packet : ∃ tr, Run Step initial tr (initial.round (packetOf 64 0)) ∧
    ∀ x ∈ tr, InRing x.1 x.2.1 x.2.2 := by
  have hrun : Run Step initial [(initial, packetOf 64 0, initial.round (packetOf 64 0))]
      (initial.round (packetOf 64 0)) := Run.nil.snoc rfl
  refine ⟨_, hrun, (inRing_of_run_iff hrun).mpr fun x hx => ?_⟩
  rw [List.mem_singleton.mp hx]
  decide

/-- The length `0xFFF0`. -/
theorem not_inRing_of_run : ∃ tr s, Run Step initial tr s ∧ s.rxReadPtr = 57332 ∧
    ¬∀ x ∈ tr, InRing x.1 x.2.1 x.2.2 := by
  have hptr : (initial.round (packetOf 0xF0 0xFF)).rxReadPtr = 57332 := by decide
  refine ⟨_, _, Run.nil.snoc rfl, hptr, fun h => ?_⟩
  have hlt := (h _ (List.mem_append_right _ (List.mem_singleton_self _))).lt
  rw [hptr] at hlt
  exact absurd hlt (by decide)

end MathUnikernel.Rtl8139
