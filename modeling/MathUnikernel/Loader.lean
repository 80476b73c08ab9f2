import MathUnikernel.Library.Runs
import MathUnikernel.Network

/-!
# The main loop between two workloads

`reset_header`, `read_ethernet` and the functions of `loader.c`, one step for each access to a
variable that the interrupt handler shares.  What the main loop does with its own variables belongs
to the step before it.
-/

namespace MathUnikernel.Network
open ByteStore

def magicNumber : ℕ := 0x474F2121

/-- Positions in `read_ethernet`. -/
inductive ReadPc
  /-- `if (!hdr_done)`. -/
  | enter
  /-- `while (!rx_ready || hdr_read >= hdr_len)`, the three loads. -/
  | testReady
  | testRead
  | testLen (read : ℕ)
  /-- `hdr_buf[hdr_read++]`: the index, the byte, the increment. -/
  | loadRead
  | loadByte (read : ℕ)
  | storeRead (read : ℕ) (byte : UInt8)
  /-- `if (hdr_read >= 12) hdr_done = 1`. -/
  | testDone (byte : UInt8)
  | setDone (byte : UInt8)
  /-- `while (rx_received <= 0)`. -/
  | bodyWait
  deriving DecidableEq

/-- Who called `read_ethernet`: the loop of `unlock` or that of `poll_payload_size`. -/
inductive Caller
  | unlock (magicNumber : ℕ)
  | size (i numberOfBytes : ℕ)
  deriving DecidableEq

inductive Pc
  /-- The assignments of `reset_header`. -/
  | resetDone
  | resetLen
  | resetRead
  | resetReady
  | read (caller : Caller) (r : ReadPc)
  /-- `poll_payload_size` has returned; `vmm_alloc_huge_page` runs. -/
  | alloc (size : ℕ)
  /-- The assignments of `network_set_dest`. -/
  | setDest (dest size : ℕ)
  | setExpected (dest size : ℕ)
  | setReceived (dest size : ℕ)
  /-- The loop of `poll_payload`. -/
  | pollPayload (dest size : ℕ)
  /-- `poll_payload` has returned. -/
  | loaded (dest size : ℕ)
  deriving DecidableEq

/-- The loop body of the caller, once `read_ethernet` has returned a byte. -/
def Caller.take (byte : UInt8) : Caller → Pc
  | .unlock magic =>
    let magic := (magic <<< 8) % 2 ^ 32 ||| byte.toNat
    if magic ≠ magicNumber then .read (.unlock magic) .enter else .read (.size 0 0) .enter
  | .size i numberOfBytes =>
    let numberOfBytes := numberOfBytes ||| byte.toNat <<< (i * 8)
    if i + 1 < 8 then .read (.size (i + 1) numberOfBytes) .enter else .alloc numberOfBytes

structure Loader where
  net : Net
  pc : Pc

/-- One step of `read_ethernet`. -/
def readStep (s : Net) (caller : Caller) : ReadPc → Loader
  | .enter => ⟨s, .read caller (if !s.hdrDone then .testReady else .bodyWait)⟩
  | .testReady => ⟨s, .read caller (if !s.rxReady then .testReady else .testRead)⟩
  | .testRead => ⟨s, .read caller (.testLen s.hdrRead)⟩
  | .testLen read => ⟨s, .read caller (if s.hdrLen ≤ read then .testReady else .loadRead)⟩
  | .loadRead => ⟨s, .read caller (.loadByte s.hdrRead)⟩
  | .loadByte read => ⟨s, .read caller (.storeRead read (s.hdrBuf read))⟩
  | .storeRead read byte =>
    ⟨{ s with hdrRead := (read + 1) % 2 ^ 16 }, .read caller (.testDone byte)⟩
  | .testDone byte =>
    if 12 ≤ s.hdrRead then ⟨s, .read caller (.setDone byte)⟩ else ⟨s, caller.take byte⟩
  | .setDone byte => ⟨{ s with hdrDone := true }, caller.take byte⟩
  | .bodyWait => if s.rxReceived ≤ 0 then ⟨s, .read caller .bodyWait⟩ else ⟨s, caller.take 0⟩

/-- One step of the main loop.  The allocation and what follows `poll_payload` are steps of the
kernel that leave these variables alone. -/
def Loader.step (l : Loader) : Loader :=
  match l.pc with
  | .resetDone => ⟨{ l.net with hdrDone := false }, .resetLen⟩
  | .resetLen => ⟨{ l.net with hdrLen := 0 }, .resetRead⟩
  | .resetRead => ⟨{ l.net with hdrRead := 0 }, .resetReady⟩
  | .resetReady => ⟨{ l.net with rxReady := false }, .read (.unlock 0) .enter⟩
  | .read caller r => readStep l.net caller r
  | .setDest dest size => ⟨{ l.net with rxDest := dest }, .setExpected dest size⟩
  | .setExpected dest size => ⟨{ l.net with rxExpected := size }, .setReceived dest size⟩
  | .setReceived dest size => ⟨{ l.net with rxReceived := 0 }, .pollPayload dest size⟩
  | .pollPayload dest size =>
    if l.net.rxReceived < size then l else ⟨l.net, .loaded dest size⟩
  | .alloc _ => l
  | .loaded _ _ => l

/-- `reset_header` is running. -/
def Pc.Resetting : Pc → Prop
  | .resetDone | .resetLen | .resetRead | .resetReady => True
  | _ => False

/-- `read_ethernet` is in its first wait loop, and the condition of the loop holds. -/
def Loader.Waits (l : Loader) : Prop :=
  (l.net.rxReady = false ∨ l.net.hdrLen ≤ l.net.hdrRead) ∧
    match l.pc with
    | .read _ .testReady | .read _ .testRead | .read _ (.testLen _) => True
    | _ => False

/-- `poll_payload_size` has returned `size`. -/
def Pc.Announced (size : ℕ) : Pc → Prop
  | .alloc n | .setDest _ n | .setExpected _ n | .setReceived _ n | .pollPayload _ n
  | .loaded _ n => n = size
  | _ => False

/-- `network_set_dest` has run to its end. -/
def Pc.DestSet (dest size : ℕ) : Pc → Prop
  | .pollPayload d n | .loaded d n => d = dest ∧ n = size
  | _ => False

end MathUnikernel.Network
