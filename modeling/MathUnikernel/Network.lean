import MathUnikernel.Library.ByteStore

/-!
# Receiving frames

The static variables of `network.c` and its interrupt-side function.  A frame is the list of its
bytes; its length is the `length` argument.
-/

namespace MathUnikernel.Network
open ByteStore

def ethHeaderSize : ℕ := 14
def headerFrameSize : ℕ := 16
def ethertypeCustom : ℕ := 0x88B5

abbrev Frame := List UInt8

/-- The static variables.  `hdrBuf` has 16 bytes; what the code does at an index is recorded with
the access. -/
structure Net where
  rxDest : ℕ
  rxExpected : ℕ
  rxReceived : ℕ
  rxReady : Bool
  hdrBuf : ℕ → UInt8
  hdrLen : ℕ
  hdrRead : ℕ
  hdrDone : Bool

/-- What one call does: the variables after it, its stores to `hdr_buf`, and those through
`rx_dest`, each an address and a byte. -/
structure Reception where
  net : Net
  hdrWrites : List (ℕ × UInt8)
  stores : List (ℕ × UInt8)

def etherType (data : Frame) : ℕ := ((data.getD 12 0).toNat <<< 8) ||| (data.getD 13 0).toNat

/-- `data + ETH_HEADER_SIZE`, of `length - ETH_HEADER_SIZE` bytes. -/
def payload (data : Frame) : List UInt8 := data.drop ethHeaderSize

/-- The loop that appends to the destination. -/
def appendPayload (s : Net) : List UInt8 → Net × List (ℕ × UInt8)
  | [] => (s, [])
  | byte :: bytes =>
    if s.rxExpected ≤ s.rxReceived then (s, [])
    else
      let (s', stores) := appendPayload { s with rxReceived := s.rxReceived + 1 } bytes
      (s', ((s.rxDest + s.rxReceived) % 2 ^ 64, byte) :: stores)

def networkReceiveFrame (s : Net) (data : Frame) : Reception :=
  if data.length ≤ ethHeaderSize then ⟨s, [], []⟩
  else if etherType data ≠ ethertypeCustom then ⟨s, [], []⟩
  else if !s.hdrDone then
    -- first frame: the header buffer takes what fits
    let bytes := (payload data).take headerFrameSize
    let hdrWrites := storesFrom id 0 bytes
    ⟨{ s with
        hdrBuf := write s.hdrBuf hdrWrites
        hdrLen := bytes.length
        hdrRead := 0
        rxReady := true }, hdrWrites, []⟩
  else if s.rxDest = 0 then ⟨s, [], []⟩
  else
    let (s', stores) := appendPayload s (payload data)
    ⟨s', [], stores⟩

/-! ## The three kinds of frames -/

/-- Long enough, and of EtherType `0x88B5`. -/
def IsCustom (data : Frame) : Prop := ethHeaderSize < data.length ∧ etherType data = ethertypeCustom

instance (data : Frame) : Decidable (IsCustom data) := inferInstanceAs (Decidable (_ ∧ _))

theorem IsCustom.payload_ne_nil {data : Frame} (h : IsCustom data) : payload data ≠ [] := by
  intro hnil
  have hlen := congrArg List.length hnil
  rw [payload, List.length_drop, List.length_nil] at hlen
  have := h.1
  omega

theorem networkReceiveFrame_foreign {data : Frame} (h : ¬IsCustom data) (s : Net) :
    networkReceiveFrame s data = ⟨s, [], []⟩ := by
  unfold networkReceiveFrame
  by_cases hlen : data.length ≤ ethHeaderSize
  · rw [if_pos hlen]
  · have htype : etherType data ≠ ethertypeCustom := fun he => h ⟨Nat.lt_of_not_le hlen, he⟩
    rw [if_neg hlen, if_pos htype]

theorem networkReceiveFrame_header {data : Frame} (h : IsCustom data) {s : Net}
    (hs : s.hdrDone = false) : networkReceiveFrame s data =
      ⟨{ s with
          hdrBuf := write s.hdrBuf (storesFrom id 0 ((payload data).take headerFrameSize))
          hdrLen := ((payload data).take headerFrameSize).length
          hdrRead := 0
          rxReady := true }, storesFrom id 0 ((payload data).take headerFrameSize), []⟩ := by
  simp [networkReceiveFrame, Nat.not_le.mpr h.1, h.2, hs]

theorem networkReceiveFrame_data {data : Frame} (h : IsCustom data) {s : Net}
    (hs : s.hdrDone = true) (hdest : s.rxDest ≠ 0) : networkReceiveFrame s data =
      ⟨(appendPayload s (payload data)).1, [], (appendPayload s (payload data)).2⟩ := by
  simp [networkReceiveFrame, Nat.not_le.mpr h.1, h.2, hs, hdest]

theorem networkReceiveFrame_noDest {data : Frame} {s : Net} (hs : s.hdrDone = true)
    (hdest : s.rxDest = 0) : networkReceiveFrame s data = ⟨s, [], []⟩ := by
  unfold networkReceiveFrame
  split_ifs <;> simp_all

/-- What the appender does: as many bytes as are still expected, one after the other. -/
theorem appendPayload_eq (s : Net) (bytes : List UInt8) : appendPayload s bytes =
    ({ s with rxReceived := s.rxReceived + min bytes.length (s.rxExpected - s.rxReceived) },
      storesFrom (fun i => (s.rxDest + i) % 2 ^ 64) s.rxReceived
        (bytes.take (s.rxExpected - s.rxReceived))) := by
  induction bytes generalizing s with
  | nil => simp [appendPayload, storesFrom]
  | cons byte bytes ih =>
    rw [appendPayload]
    split_ifs with hfull
    · simp [Nat.sub_eq_zero_of_le hfull, storesFrom]
    · obtain ⟨room, hroom⟩ : ∃ room, s.rxExpected - s.rxReceived = room + 1 :=
        ⟨s.rxExpected - s.rxReceived - 1, by omega⟩
      have hnext : s.rxExpected - (s.rxReceived + 1) = room := by omega
      simp only [ih, hroom, hnext, List.take_succ_cons, storesFrom, List.length_cons]
      congr 2
      omega

/-- The bytes of a header frame are in the buffer afterwards. -/
theorem hdrBuf_write (buf : ℕ → UInt8) {bytes : List UInt8} {i : ℕ} (hi : i < bytes.length) :
    write buf (storesFrom id 0 bytes) i = bytes[i] := by
  have h := @write_storesFrom _ _ _ id 0 bytes buf (fun j k _ _ _ _ h => h) i hi
  rwa [Nat.zero_add] at h

end MathUnikernel.Network
