import MathUnikernel.Reading
import MathUnikernel.HeapHistories
import MathUnikernel.MainLoop

/-!
# The phases of a session

The invariant of the main loop: at each place, what is on the heap and what the handler may store.
-/

/-! ## What the handler does with the destination -/

namespace MathUnikernel.Network
open ByteStore

/-- The three things the handler does: nothing, filling the header buffer, appending. -/
theorem networkReceiveFrame_cases {P : Reception → Prop} (s : Net) (data : Frame)
    (hnone : P ⟨s, [], []⟩)
    (hheader : P ⟨{ s with
      hdrBuf := write s.hdrBuf (storesFrom id 0 ((payload data).take headerFrameSize))
      hdrLen := ((payload data).take headerFrameSize).length
      hdrRead := 0
      rxReady := true }, storesFrom id 0 ((payload data).take headerFrameSize), []⟩)
    (happend : P ⟨(appendPayload s (payload data)).1, [], (appendPayload s (payload data)).2⟩) :
    P (networkReceiveFrame s data) := by
  by_cases hcustom : IsCustom data
  · cases hdone : s.hdrDone with
    | false =>
      rw [networkReceiveFrame_header hcustom hdone]
      exact hheader
    | true =>
      by_cases hdest : s.rxDest = 0
      · rw [networkReceiveFrame_noDest hdone hdest]
        exact hnone
      · rw [networkReceiveFrame_data hcustom hdone hdest]
        exact happend
  · rw [networkReceiveFrame_foreign hcustom]
    exact hnone

/-- A frame appends `chunk` at the destination. -/
structure Appends (s : Net) (r : Reception) (chunk : List UInt8) : Prop where
  le : chunk.length ≤ s.rxExpected - s.rxReceived
  stores : r.stores = storesFrom (fun i => (s.rxDest + i) % 2 ^ 64) s.rxReceived chunk
  rxDest : r.net.rxDest = s.rxDest
  rxExpected : r.net.rxExpected = s.rxExpected
  rxReceived : r.net.rxReceived = s.rxReceived + chunk.length

theorem exists_appends (s : Net) (data : Frame) :
    ∃ chunk, Appends s (networkReceiveFrame s data) chunk := by
  apply networkReceiveFrame_cases (P := fun r => ∃ chunk, Appends s r chunk)
  · exact ⟨[], Nat.zero_le _, rfl, rfl, rfl, rfl⟩
  · exact ⟨[], Nat.zero_le _, rfl, rfl, rfl, rfl⟩
  · rw [appendPayload_eq]
    refine ⟨(payload data).take (s.rxExpected - s.rxReceived), ?_, rfl, rfl, rfl, ?_⟩
    · exact List.length_take_le _ _
    · rw [List.length_take, Nat.min_comm]

/-- The transfer is over, or none has begun: frames store nothing. -/
def Net.Complete (s : Net) : Prop := s.rxExpected ≤ s.rxReceived

theorem Appends.of_complete {s : Net} {r : Reception} {chunk : List UInt8} (h : Appends s r chunk)
    (hs : s.Complete) : r.stores = [] ∧ r.net.Complete := by
  have hle := h.le
  rw [Nat.sub_eq_zero_of_le hs, Nat.le_zero, List.length_eq_zero_iff] at hle
  subst hle
  refine ⟨h.stores, ?_⟩
  rw [Net.Complete, h.rxExpected, h.rxReceived]
  exact hs

/-- The addresses stored at, from the first byte still missing on. -/
theorem Appends.address {s : Net} {r : Reception} {chunk : List UInt8} (h : Appends s r chunk)
    (hend : s.rxDest + s.rxExpected ≤ 2 ^ 64) {store : ℕ × UInt8} (hstore : store ∈ r.stores) :
    s.rxDest + s.rxReceived ≤ store.1 ∧ store.1 < s.rxDest + s.rxExpected := by
  rw [h.stores] at hstore
  obtain ⟨i, hlo, hhi, haddr⟩ := mem_storesFrom hstore
  have hle := h.le
  rw [haddr, Nat.mod_eq_of_lt (by omega)]
  omega

/-- The first bytes of a transfer include the one at the destination. -/
theorem Appends.first {s : Net} {r : Reception} {chunk : List UInt8} (h : Appends s r chunk)
    (hdest : s.rxDest < 2 ^ 64) (hs : s.rxReceived = 0) (hr : 0 < r.net.rxReceived) :
    s.rxDest ∈ r.stores.map Prod.fst := by
  have hlen := h.rxReceived
  rw [h.stores, hs]
  cases chunk with
  | nil =>
    rw [hs, List.length_nil] at hlen
    omega
  | cons byte chunk =>
    rw [storesFrom, List.map_cons, Nat.add_zero, Nat.mod_eq_of_lt hdest]
    exact List.mem_cons_self

/-- The variables of the destination, over the steps that lead to the announced size. -/
def Pc.BeforeDest : Pc → Prop
  | .resetDone | .resetLen | .resetRead | .resetReady | .read _ _ | .alloc _ => True
  | _ => False

theorem Caller.take_beforeDest (byte : UInt8) (caller : Caller) :
    (caller.take byte).BeforeDest := by
  cases caller <;> simp only [Caller.take] <;> split_ifs <;> trivial

theorem readStep_beforeDest (s : Net) (caller : Caller) (r : ReadPc) :
    (readStep s caller r).pc.BeforeDest := by
  cases r <;> simp only [readStep] <;> (try split_ifs) <;>
    first | trivial | exact caller.take_beforeDest _

/-- Before the destination is set a step leaves the counters of the transfer alone. -/
theorem Loader.step_beforeDest {l : Loader} (h : l.pc.BeforeDest) :
    l.step.pc.BeforeDest ∧ l.step.net.rxExpected = l.net.rxExpected ∧
      l.step.net.rxReceived = l.net.rxReceived := by
  obtain ⟨s, pc⟩ := l
  cases pc with
  | resetDone | resetLen | resetRead | resetReady | alloc => exact ⟨trivial, rfl, rfl⟩
  | read caller r =>
    refine ⟨readStep_beforeDest s caller r, ?_, ?_⟩ <;>
      cases r <;> simp only [Loader.step, readStep] <;> split_ifs <;> rfl
  | setDest | setExpected | setReceived | pollPayload | loaded => exact absurd h id

/-! ## The header buffer -/

/-- What keeps the index of `hdr_buf` in range. -/
def Loader.HeaderOk (l : Loader) : Prop :=
  l.net.hdrLen ≤ headerFrameSize ∧
    match l.pc with
    | .read _ (.testLen read) => l.net.hdrRead ≤ read
    | .read _ .loadRead => l.net.hdrRead < headerFrameSize
    | .read _ (.loadByte read) => read < headerFrameSize
    | _ => True

theorem headerOk_take (byte : UInt8) (caller : Caller) {s : Net}
    (h : s.hdrLen ≤ headerFrameSize) : Loader.HeaderOk ⟨s, caller.take byte⟩ := by
  refine ⟨h, ?_⟩
  cases caller <;> simp only [Caller.take] <;> split_ifs <;> trivial

theorem Loader.HeaderOk.step {l : Loader} (h : l.HeaderOk) : l.step.HeaderOk := by
  obtain ⟨s, pc⟩ := l
  obtain ⟨hlen, hpc⟩ := h
  cases pc with
  | read caller r =>
    cases r with
    | enter | testReady | storeRead | bodyWait | testDone | setDone =>
      simp only [Loader.step, readStep]
      (try split_ifs) <;> first | exact ⟨hlen, trivial⟩ | exact headerOk_take _ _ hlen
    | testRead => exact ⟨hlen, le_rfl⟩
    | testLen read =>
      simp only [Loader.step, readStep]
      split_ifs with hend
      · exact ⟨hlen, trivial⟩
      · -- the index is at most the one compared with `hdr_len`
        have hread : s.hdrRead ≤ read := hpc
        have hlen' : s.hdrLen ≤ headerFrameSize := hlen
        exact ⟨hlen, show s.hdrRead < headerFrameSize by omega⟩
    | loadRead => exact ⟨hlen, hpc⟩
    | loadByte read => exact ⟨hlen, trivial⟩
  | resetLen => exact ⟨Nat.zero_le _, trivial⟩
  | pollPayload dest size =>
    simp only [Loader.step]
    split_ifs <;> exact ⟨hlen, trivial⟩
  | resetDone | resetRead | resetReady | alloc | setDest | setExpected | setReceived | loaded =>
    exact ⟨hlen, trivial⟩

/-- A header frame starts the buffer again; other frames leave it alone. -/
theorem Loader.HeaderOk.receive {l : Loader} (h : l.HeaderOk) (data : Frame) :
    Loader.HeaderOk { l with net := (networkReceiveFrame l.net data).net } := by
  apply networkReceiveFrame_cases (P := fun r => Loader.HeaderOk { l with net := r.net })
  · exact h
  · obtain ⟨s, pc⟩ := l
    obtain ⟨-, hpc⟩ := h
    refine ⟨List.length_take_le _ _, ?_⟩
    cases pc with
    | read caller r =>
      cases r with
      | testLen read => exact Nat.zero_le read
      | loadRead => exact (show 0 < headerFrameSize by decide)
      | loadByte read => exact hpc
      | _ => trivial
    | _ => trivial
  · rw [appendPayload_eq]
    exact h

/-- The handler writes to the buffer from its start, as much as fits. -/
theorem hdrWrites_lt (s : Net) (data : Frame) :
    ∀ write ∈ (networkReceiveFrame s data).hdrWrites, write.1 < headerFrameSize := by
  apply networkReceiveFrame_cases
    (P := fun r => ∀ write ∈ r.hdrWrites, write.1 < headerFrameSize)
  · exact fun write hwrite => absurd hwrite List.not_mem_nil
  · intro write hwrite
    obtain ⟨i, -, hhi, haddr⟩ := mem_storesFrom hwrite
    have hle := List.length_take_le headerFrameSize (payload data)
    rw [haddr, id]
    omega
  · exact fun write hwrite => absurd hwrite List.not_mem_nil

end MathUnikernel.Network

/-! ## The heap round by round -/

namespace MathUnikernel.Vmm

/-- Every address below the cursor is mapped. -/
theorem Live.mapped {m : Machine} {base : Set ℕ} {blocks : List ℕ} (h : Live m base blocks)
    {virtAddr : ℕ} (hlo : heapStart ≤ virtAddr) (hhi : virtAddr < m.nextVirtAddr) :
    (hwWalk m virtAddr).isSome := by
  obtain ⟨i, hi, off, hoff, rfl⟩ := exists_heapPage hlo (h.nextVirtAddr ▸ hhi)
  obtain ⟨fl, hwalk⟩ := h.walk (List.getElem?_eq_getElem hi) hoff
  rw [hwalk]
  rfl

/-- `vmm_reset_heap` under way: the pages before `k` are gone. -/
structure Emptying (m : Machine) (base : Set ℕ) (k : ℕ) (blocks : List ℕ) : Prop where
  heap : Heap m (base ∪ {f | m.IsTable f}) k blocks
  nextVirtAddr : m.nextVirtAddr = heapPage (k + blocks.length)

theorem Live.emptying {m : Machine} {base : Set ℕ} {blocks : List ℕ} (h : Live m base blocks) :
    Emptying m base 0 blocks := ⟨h.heap, by rw [Nat.zero_add, h.nextVirtAddr]⟩

/-- A round takes one page off and moves to the next. -/
theorem Emptying.round {m : Machine} {base : Set ℕ} {k b : ℕ} {blocks : List ℕ}
    (h : Emptying m base k (b :: blocks)) :
    heapPage k < m.nextVirtAddr ∧ (heapPage k + 0x200000) % 2 ^ 64 = heapPage (k + 1) ∧
      Emptying (resetSlot m (heapPage k)) base (k + 1) blocks := by
  obtain ⟨hheap, hcleared⟩ := h.heap.resetSlot
  have hset : {f | m.IsTable f} = {f | (resetSlot m (heapPage k)).IsTable f} := by
    ext f
    exact exists_congr fun q => by rw [hcleared.table]
  have hle := h.heap.le
  rw [List.length_cons] at hle
  have hnext := h.nextVirtAddr
  rw [List.length_cons] at hnext
  unfold heapPages at hle
  refine ⟨?_, ?_, hset ▸ hheap, ?_⟩
  · rw [hnext]
    simp only [heapPage]
    omega
  · simp only [heapPage, heapStart]
    omega
  · rw [Nat.add_assoc, Nat.add_comm 1]
    exact hnext

/-- After the last round the heap is empty again. -/
theorem Emptying.last {m : Machine} {base : Set ℕ} {k : ℕ} (h : Emptying m base k []) :
    ¬heapPage k < m.nextVirtAddr ∧ Live { m with nextVirtAddr := heapStart } base [] := by
  refine ⟨?_, h.heap.rewind, heapPage_zero.symm⟩
  rw [h.nextVirtAddr]
  exact lt_irrefl _

end MathUnikernel.Vmm

/-! ## The phases -/

namespace MathUnikernel.MainLoop
open Vmm Network

theorem alignCursor_of_live {m : Machine} {base : Set ℕ} {blocks : List ℕ}
    (h : Live m base blocks) : alignCursor m = m := by
  have hle := h.heap.le
  rw [Nat.zero_add] at hle
  rw [alignCursor, h.nextVirtAddr, align_heapPage hle, ← h.nextVirtAddr]

/-- A session has its destination: the pages of the payload are the heap. -/
structure Placed (base : Set ℕ) (m : Machine) (payloadByteCount payloadMem : ℕ) (dest : ℕ × ℕ)
    (blocks : List ℕ) : Prop where
  live : Live m base blocks
  length : blocks.length = numPages payloadByteCount
  payloadMem : payloadMem = heapStart
  dest : dest = (heapStart, payloadByteCount)

/-- The payload is at its destination, its first byte in particular. -/
structure Arrived (s : Net) (payloadByteCount : ℕ) (written : List ℕ) : Prop where
  complete : s.Complete
  first : payloadByteCount ≠ 0 → heapStart ∈ written

inductive Phase (base : Set ℕ) (k : Kernel) : Prop
  | reading :
      k.place = .polling → k.loader.pc.BeforeDest → k.loader.net.Complete → Live k.m base [] →
      Phase base k
  | mapping (left : ℕ) (blocks : List ℕ) :
      k.place = .mapping heapStart left → k.loader.net.Complete → Live k.m base blocks →
      blocks.length + left = numPages k.payloadByteCount → Phase base k
  | setDest (blocks : List ℕ) :
      k.place = .polling → k.loader.pc = .setDest heapStart k.payloadByteCount →
      k.loader.net.Complete →
      Placed base k.m k.payloadByteCount k.payloadMem k.dest blocks → Phase base k
  | setExpected (blocks : List ℕ) :
      k.place = .polling → k.loader.pc = .setExpected heapStart k.payloadByteCount →
      k.loader.net.rxDest = heapStart → k.loader.net.Complete →
      Placed base k.m k.payloadByteCount k.payloadMem k.dest blocks → Phase base k
  | setReceived (blocks : List ℕ) :
      k.place = .polling → k.loader.pc = .setReceived heapStart k.payloadByteCount →
      k.loader.net.rxDest = heapStart → k.loader.net.rxExpected = k.payloadByteCount →
      Placed base k.m k.payloadByteCount k.payloadMem k.dest blocks → Phase base k
  | pollPayload (blocks : List ℕ) :
      k.place = .polling → k.loader.pc = .pollPayload heapStart k.payloadByteCount →
      k.loader.net.rxDest = heapStart → k.loader.net.rxExpected = k.payloadByteCount →
      (0 < k.loader.net.rxReceived → heapStart ∈ k.written) →
      Placed base k.m k.payloadByteCount k.payloadMem k.dest blocks → Phase base k
  | loaded (blocks : List ℕ) :
      k.place = .polling → k.loader.pc = .loaded heapStart k.payloadByteCount →
      Arrived k.loader.net k.payloadByteCount k.written →
      Placed base k.m k.payloadByteCount k.payloadMem k.dest blocks → Phase base k
  | calling (blocks : List ℕ) :
      k.place = .calling → Arrived k.loader.net k.payloadByteCount k.written →
      Placed base k.m k.payloadByteCount k.payloadMem k.dest blocks → Phase base k
  | workload (blocks : List ℕ) :
      k.place = .workload → k.loader.net.Complete → Live k.m base blocks → Phase base k
  | growing (flags left : ℕ) (blocks : List ℕ) :
      k.place = .growing flags left → flags &&& vmmAddrMask = 0 → flags < 2 ^ 64 →
      k.loader.net.Complete → Live k.m base blocks → Phase base k
  | resetting (i : ℕ) (blocks : List ℕ) :
      k.place = .resetting (heapPage i) → k.loader.net.Complete → Emptying k.m base i blocks →
      Phase base k
  | extracting :
      k.place = .extracting → k.loader.net.Complete → Live k.m base [] → Phase base k

end MathUnikernel.MainLoop
