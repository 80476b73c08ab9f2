import MathUnikernel.Resync
import MathUnikernel.SessionRuns

/-!
# Sessions that nothing interrupts

What the main loop does between two frames, and the first session up to its destination.
-/

namespace MathUnikernel.MainLoop
open Vmm Network Runs

/-! ## Allocation -/

theorem vmmAllocHugePage_alignCursor (m : Machine) (n flags : ℕ) : vmmAllocHugePage m n flags =
    ((alignCursor m).nextVirtAddr, (allocHugeStep · flags)^[n] (alignCursor m)) := by
  unfold vmmAllocHugePage alignCursor
  generalize (m.nextVirtAddr + 0x1fffff) % 2 ^ 64 &&& 0xffffffffffe00000 = v
  rfl

/-- The loop of `vmm_alloc_huge_page`. -/
theorem iterate_mapping (left : ℕ) {k : Kernel} {startAddr : ℕ}
    (h : k.place = .mapping startAddr left) :
    Kernel.main^[left] k = { k with
      place := .mapping startAddr 0
      m := (allocHugeStep · payloadFlags)^[left] k.m } := by
  induction left generalizing k with
  | zero =>
    rw [Function.iterate_zero, id, Function.iterate_zero, id, ← h]
  | succ left ih =>
    have hmain : k.main =
        { k with place := .mapping startAddr left, m := allocHugeStep k.m payloadFlags } := by
      rw [Kernel.main, h]
    rw [Function.iterate_succ_apply, hmain, ih rfl, Function.iterate_succ_apply]

theorem Kernel.poll_alloc {k : Kernel} {size : ℕ} (h : k.loader.pc = .alloc size) : k.poll = { k with
    place := .mapping (alignCursor k.m).nextVirtAddr (numPages size)
    m := alignCursor k.m
    payloadByteCount := size } := by
  rw [Kernel.poll, h]

/-- The allocation for an announced size. -/
theorem iterate_alloc {k : Kernel} {size : ℕ} (hplace : k.place = .polling)
    (hpc : k.loader.pc = .alloc size) :
    Kernel.main^[numPages size + 1] k = { k with
      place := .mapping (alignCursor k.m).nextVirtAddr 0
      m := (allocHugeStep · payloadFlags)^[numPages size] (alignCursor k.m)
      payloadByteCount := size } := by
  rw [Function.iterate_succ_apply, Kernel.main_polling hplace, Kernel.poll_alloc hpc]
  exact iterate_mapping (numPages size) rfl

/-- The call of `network_set_dest`. -/
theorem iterate_setDest {k : Kernel} {startAddr : ℕ} (h : k.place = .mapping startAddr 0) :
    Kernel.main^[4] k = { k with
      place := .polling
      loader := ⟨{ k.loader.net with
          rxDest := startAddr
          rxExpected := k.payloadByteCount
          rxReceived := 0 }, .pollPayload startAddr k.payloadByteCount⟩
      payloadMem := startAddr
      dest := (startAddr, k.payloadByteCount) } := by
  obtain ⟨place, ⟨net, pc⟩, m, n, mem, dest, written⟩ := k
  obtain rfl : place = .mapping startAddr 0 := h
  rfl

/-- From an announced size to the loop of `poll_payload`. -/
theorem iterate_placed {k : Kernel} {size : ℕ} {m : Machine} (hplace : k.place = .polling)
    (hpc : k.loader.pc = .alloc size) (hm : k.m = m) :
    Kernel.main^[4 + (numPages size + 1)] k =
      { k with
        place := .polling
        loader := ⟨{ k.loader.net with
          rxDest := (vmmAllocHugePage m (numPages size) payloadFlags).1
          rxExpected := size
          rxReceived := 0 },
          .pollPayload (vmmAllocHugePage m (numPages size) payloadFlags).1 size⟩
        m := (vmmAllocHugePage m (numPages size) payloadFlags).2
        payloadByteCount := size
        payloadMem := (vmmAllocHugePage m (numPages size) payloadFlags).1
        dest := ((vmmAllocHugePage m (numPages size) payloadFlags).1, size) } := by
  rw [Function.iterate_add_apply, iterate_alloc hplace hpc, iterate_setDest rfl, hm,
    vmmAllocHugePage_alignCursor]

/-! ## The header and the end -/

/-- The payload is complete and the kernel is about to jump. -/
theorem iterate_loaded {k : Kernel} {dest size : ℕ} (hplace : k.place = .polling)
    (hpc : k.loader.pc = .pollPayload dest size) (hsize : size ≤ k.loader.net.rxReceived) :
    Kernel.main^[2] k =
      { k with place := .calling, loader := ⟨k.loader.net, .loaded dest size⟩ } := by
  obtain ⟨place, ⟨net, pc⟩, m, n, mem, d, written⟩ := k
  obtain rfl : place = .polling := hplace
  obtain rfl : pc = .pollPayload dest size := hpc
  have hmain : Kernel.main ⟨.polling, ⟨net, .pollPayload dest size⟩, m, n, mem, d, written⟩ =
      ⟨.polling, ⟨net, .loaded dest size⟩, m, n, mem, d, written⟩ := by
    rw [Kernel.main_polling rfl, Kernel.poll]
    dsimp only [Loader.step]
    rw [if_neg (Nat.not_lt.mpr hsize)]
  rw [Function.iterate_succ_apply, hmain]
  rfl

theorem Kernel.main_read {k : Kernel} {caller : Caller} {r : ReadPc} (hplace : k.place = .polling)
    (hpc : k.loader.pc = .read caller r) : k.main = { k with loader := k.loader.step } := by
  rw [Kernel.main_polling hplace]
  apply Kernel.poll_eq
  · rw [hpc]
    trivial
  · intro size halloc
    exact absurd (hpc.symm.trans halloc) (by simp)

/-- The header in the buffer is read to its end. -/
theorem eventually_alloc {k : Kernel} {size : ℕ} (hsize : size < 2 ^ 64)
    (hplace : k.place = .polling) (h : Announcing 0 size k.loader) :
    ∃ j net, Kernel.main^[j] k = { k with loader := ⟨net, .alloc size⟩ } ∧ net.hdrDone = true := by
  refine exists_iterate_of_rank (f := Kernel.main)
    (I := fun t => ∃ l, t = { k with loader := l } ∧ Announcing 0 size l)
    (Q := fun t => ∃ net, t = { k with loader := ⟨net, .alloc size⟩ } ∧ net.hdrDone = true)
    (fun t => t.loader.rank) (fun t ht => ?_) ⟨k.loader, rfl, h⟩
  obtain ⟨l, rfl, hann⟩ := ht
  have hmain : Kernel.main { k with loader := l } = { k with loader := l.step } := by
    obtain ⟨-, c, -, r, hreading⟩ := hann
    exact Kernel.main_read (k := { k with loader := l }) hplace hreading.pc
  rw [hmain]
  right
  rcases hann.step hsize with ⟨hann', hrank⟩ | ⟨hpc, hdone⟩
  · exact .inr ⟨⟨l.step, rfl, hann'⟩, hrank⟩
  · exact .inl ⟨l.step.net, by rw [← hpc], hdone⟩

/-! ## The first session -/

/-- After boot, before the first frame. -/
def bootKernel (m : Machine) : Kernel where
  place := .polling
  loader := ⟨⟨0, 0, 0, false, fun _ => 0, 0, 0, false⟩, .resetDone⟩
  m := m
  payloadByteCount := 0
  payloadMem := 0
  dest := (0, 0)
  written := []

theorem starts_bootKernel {m : Machine} (h : FreshHeap m) : (bootKernel m).Starts :=
  ⟨rfl, rfl, Nat.zero_le _, rfl, rfl, h⟩

theorem isHeader_etherHeader (size : ℕ) : IsHeader size (etherHeader ++ headerBytes size) := by
  refine ⟨⟨?_, etherType_etherHeader _⟩, ?_⟩
  · rw [List.length_append, length_headerBytes]
    decide
  · rw [payload_etherHeader]

/-- Any size can be announced. -/
theorem run_announced (m : Machine) {size : ℕ} (hsize : size < 2 ^ 64) :
    ∃ tr net, Run MainStep (bootKernel m) tr
      { bootKernel m with loader := ⟨net, .alloc size⟩ } ∧ net.hdrDone = true := by
  have hnil : Run MainStep (bootKernel m) [] (bootKernel m) := .nil
  obtain ⟨tr₁, hrun₁, -⟩ := hnil.iterate MainStep.main 5
  have hwait : Kernel.main^[5] (bootKernel m) =
      { bootKernel m with loader := Loader.step^[5] (bootKernel m).loader } := rfl
  have hidle : Idle (Loader.step^[5] (bootKernel m).loader) 0 .testReady := ⟨rfl, rfl, .inl rfl⟩
  rw [hwait] at hrun₁
  have hrun₂ := hrun₁.snoc (.receive _ (etherHeader ++ headerBytes size))
  have hcomplete : (Loader.step^[5] (bootKernel m).loader).net.Complete := Nat.zero_le _
  rw [(receive_of_complete (k := { bootKernel m with
    loader := Loader.step^[5] (bootKernel m).loader }) hcomplete _).1] at hrun₂
  obtain ⟨j, net, hj, hdone⟩ := eventually_alloc (k := { bootKernel m with
    loader := { Loader.step^[5] (bootKernel m).loader with
      net := (networkReceiveFrame (Loader.step^[5] (bootKernel m).loader).net
        (etherHeader ++ headerBytes size)).net } })
    hsize rfl (hidle.receive_header (isHeader_etherHeader size))
  obtain ⟨tr₂, hrun₃, -⟩ := hrun₂.iterate MainStep.main j
  rw [hj] at hrun₃
  exact ⟨_, net, hrun₃, hdone⟩

/-- `poll_payload` waits for the first of `size` bytes, with the machine `m`. -/
structure Kernel.Polls (k : Kernel) (dest size : ℕ) (m : Machine) : Prop where
  place : k.place = .polling
  pc : k.loader.pc = .pollPayload dest size
  hdrDone : k.loader.net.hdrDone = true
  rxDest : k.loader.net.rxDest = dest
  rxExpected : k.loader.net.rxExpected = size
  rxReceived : k.loader.net.rxReceived = 0
  machine : k.m = m
  payloadMem : k.payloadMem = dest
  payloadByteCount : k.payloadByteCount = size

theorem hdrDone_set (s : Net) (dest size received : ℕ) :
    ({ s with rxDest := dest, rxExpected := size, rxReceived := received } : Net).hdrDone =
      s.hdrDone := rfl

theorem run_polls (m : Machine) {size : ℕ} (hsize : size < 2 ^ 64) :
    ∃ tr k, Run MainStep (bootKernel m) tr k ∧
      k.Polls (vmmAllocHugePage m (numPages size) payloadFlags).1 size
        (vmmAllocHugePage m (numPages size) payloadFlags).2 := by
  obtain ⟨tr, net, hrun, hdone⟩ := run_announced m hsize
  obtain ⟨tr', hrun', -⟩ := hrun.iterate MainStep.main (4 + (numPages size + 1))
  rw [iterate_placed (m := m) rfl rfl rfl] at hrun'
  exact ⟨_, _, hrun', rfl, rfl, (hdrDone_set net _ _ _).trans hdone, rfl, rfl, rfl, rfl, rfl, rfl⟩

/-- A frame with all that is still expected completes the payload. -/
theorem rxReceived_of_payload {s : Net} {data : Frame} (hcustom : IsCustom data)
    (hdone : s.hdrDone = true) (hdest : s.rxDest ≠ 0)
    (hlen : s.rxExpected ≤ s.rxReceived + (payload data).length) :
    s.rxExpected ≤ (networkReceiveFrame s data).net.rxReceived := by
  rw [networkReceiveFrame_data hcustom hdone hdest, appendPayload_eq]
  dsimp only
  omega

/-- An empty payload is complete at once. -/
theorem Kernel.Polls.calling_zero {k₀ k : Kernel} {tr : List (Kernel × MainEvent × Kernel)}
    (hrun : Run MainStep k₀ tr k) {dest : ℕ} {m : Machine} (h : k.Polls dest 0 m) :
    ∃ tr' k', Run MainStep k₀ tr' k' ∧ k'.place = .calling ∧ k'.payloadByteCount = 0 ∧
      k'.payloadMem = dest ∧ k'.m = m := by
  obtain ⟨tr', hrun', -⟩ := hrun.iterate MainStep.main 2
  rw [iterate_loaded h.place h.pc (Nat.zero_le _)] at hrun'
  exact ⟨_, _, hrun', rfl, h.payloadByteCount, h.payloadMem, h.machine⟩

/-- The payload comes in one frame, and the kernel is about to jump. -/
theorem Kernel.Polls.calling {k₀ k : Kernel} {tr : List (Kernel × MainEvent × Kernel)}
    (hrun : Run MainStep k₀ tr k) {dest : ℕ} {m : Machine} (bytes : List UInt8)
    (h : k.Polls dest bytes.length m) (hdest : dest ≠ 0) (hbytes : bytes ≠ []) :
    ∃ tr' k', Run MainStep k₀ tr' k' ∧ k'.place = .calling ∧
      k'.payloadByteCount = bytes.length ∧ k'.m.log = m.log := by
  have hcustom : IsCustom (etherHeader ++ bytes) := by
    refine ⟨?_, etherType_etherHeader bytes⟩
    have hpos := List.length_pos_iff.mpr hbytes
    rw [List.length_append, show etherHeader.length = 14 by decide, ethHeaderSize]
    omega
  obtain ⟨m', written, heq, hlog⟩ := receive_eq k (etherHeader ++ bytes)
  have hfull : bytes.length ≤
      (networkReceiveFrame k.loader.net (etherHeader ++ bytes)).net.rxReceived := by
    rw [← h.rxExpected]
    apply rxReceived_of_payload hcustom h.hdrDone (h.rxDest.trans_ne hdest)
    rw [h.rxExpected, h.rxReceived, payload_etherHeader, Nat.zero_add]
  have hrun' := hrun.snoc (.receive k (etherHeader ++ bytes))
  rw [heq] at hrun'
  obtain ⟨tr', hrun'', -⟩ := hrun'.iterate MainStep.main 2
  rw [iterate_loaded (k := { k with
    loader := { k.loader with
      net := (networkReceiveFrame k.loader.net (etherHeader ++ bytes)).net }
    m := m'
    written := written }) h.place h.pc hfull] at hrun''
  exact ⟨_, _, hrun'', rfl, h.payloadByteCount, hlog.trans (congrArg Machine.log h.machine)⟩

end MathUnikernel.MainLoop
