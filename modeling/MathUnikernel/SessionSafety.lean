import MathUnikernel.HighBlock
import MathUnikernel.QuietSessions

/-!
# What the kernel jumps to and where frames are stored
-/

namespace MathUnikernel.MainLoop
open Pmm Vmm Network Runs

/-! ## The jump -/

/-- The page at `virtAddr` is one of the heap's, and mapped. -/
structure HeapMapped (m : Machine) (virtAddr : ℕ) : Prop where
  lo : heapStart ≤ virtAddr
  hi : virtAddr < m.nextVirtAddr
  mapped : ∀ off < 0x200000, (hwWalk m (virtAddr + off)).isSome

/-- `workload()` is code that has been received. -/
structure Kernel.CallsReceived (k : Kernel) : Prop where
  mapped : HeapMapped k.m k.payloadMem
  written : k.payloadMem ∈ k.written

theorem numPages_eq_zero {n : ℕ} : numPages n = 0 ↔ n = 0 := by
  have hle := le_numPages n
  constructor
  · intro h
    rw [h] at hle
    omega
  · intro h
    rw [h]
    decide

theorem Placed.heapMapped {base : Set ℕ} {m : Machine} {n payloadMem : ℕ} {dest : ℕ × ℕ}
    {blocks : List ℕ} (h : Placed base m n payloadMem dest blocks) (hn : n ≠ 0) :
    HeapMapped m payloadMem := by
  have hlen : blocks.length ≠ 0 := by
    rw [h.length]
    exact mt numPages_eq_zero.mp hn
  have hnext : heapStart + 0x200000 ≤ m.nextVirtAddr := by
    rw [h.live.nextVirtAddr]
    simp only [heapPage]
    omega
  rw [h.payloadMem]
  refine ⟨le_rfl, by omega, fun off hoff => ?_⟩
  exact h.live.mapped (Nat.le_add_right _ _) (by omega)

/-- For an announced size of 0 no page is mapped at all. -/
theorem Placed.unmapped {base : Set ℕ} {m : Machine} {payloadMem : ℕ} {dest : ℕ × ℕ}
    {blocks : List ℕ} (h : Placed base m 0 payloadMem dest blocks) : hwWalk m payloadMem = none := by
  have hlen : blocks.length = 0 := h.length.trans (numPages_eq_zero.mpr rfl)
  have hvacant : Vacant m 0 := h.live.heap.vacant 0 (by decide) (.inr (by omega))
  have hwalk := @Vacant.hwWalk m 0 hvacant 0 (by norm_num)
  rw [Nat.add_zero, heapPage_zero] at hwalk
  rw [h.payloadMem]
  exact hwalk

theorem Phase.placeReceived_iff {base : Set ℕ} {k : Kernel} (h : Phase base k)
    (hplace : k.place = .calling) : k.CallsReceived ↔ k.payloadByteCount ≠ 0 := by
  cases h with
  | calling blocks _ harrived hplaced =>
    constructor
    · intro h hzero
      rw [hzero] at hplaced
      have hsome := h.mapped.mapped 0 (by norm_num)
      rw [Nat.add_zero, hplaced.unmapped] at hsome
      exact Bool.false_ne_true hsome
    · intro hn
      refine ⟨hplaced.heapMapped hn, ?_⟩
      rw [hplaced.payloadMem]
      exact harrived.first hn
  | _ => simp_all

/-- In every run whose requests are served with blocks below byte `2 ^ 31`, the kernel jumps to
received code exactly in the sessions of a size other than 0. -/
theorem callsReceived_iff {k₀ k : Kernel} (h0 : k₀.Starts)
    {tr : List (Kernel × MainEvent × Kernel)} (hrun : Run MainStep k₀ tr k) (hready : k.m.Ready)
    (hplace : k.place = .calling) : k.CallsReceived ↔ k.payloadByteCount ≠ 0 :=
  (phase_of_run h0 hrun hready).placeReceived_iff hplace

/-- A session of the one byte `ret`. -/
theorem callsReceived_iff_one : ∃ s tr k, pmmInit twoBlockMap (fun _ => 0) = some (pmmInitSuccess, s) ∧
    Run MainStep (bootKernel (smallMachine s)) tr k ∧ k.m.Ready ∧ k.place = .calling ∧
    k.payloadByteCount = 1 ∧ k.CallsReceived := by
  obtain ⟨s, hs, hfresh, -, hready⟩ := ready_twoBlockMap
  obtain ⟨tr, k, hrun, hpolls⟩ := run_polls (smallMachine s) (show 1 < 2 ^ 64 by norm_num)
  rw [show numPages 1 = 1 by decide, show payloadFlags = 3 by decide] at hpolls
  have hstart : (vmmAllocHugePage (smallMachine s) 1 3).1 ≠ 0 := by
    rw [@vmmAllocHugePage_eq (smallMachine s) 0 rfl (Nat.zero_le _)]
    exact (by norm_num [heapStart] : heapStart ≠ 0)
  obtain ⟨tr', k', hrun', hplace, hsize, hlog⟩ :=
    Kernel.Polls.calling hrun [0xC3] hpolls hstart (by simp)
  have hready' : k'.m.Ready := hready.of_prefix (hlog ▸ List.prefix_rfl)
  refine ⟨s, tr', k', hs, hrun', hready', hplace, hsize, ?_⟩
  apply (callsReceived_iff (starts_bootKernel hfresh) hrun' hready' hplace).mpr
  rw [hsize]
  decide

/-- An announced size of 0: the kernel jumps to a page that is not mapped. -/
theorem not_callsReceived_zero : ∃ s tr k,
    pmmInit twoBlockMap (fun _ => 0) = some (pmmInitSuccess, s) ∧
    (bootKernel (smallMachine s)).Starts ∧ Run MainStep (bootKernel (smallMachine s)) tr k ∧
    k.m.Ready ∧ k.place = .calling ∧ k.payloadByteCount = 0 ∧ hwWalk k.m k.payloadMem = none ∧
    ¬k.CallsReceived := by
  obtain ⟨s, hs, hfresh, hready, -⟩ := ready_twoBlockMap
  obtain ⟨tr, k, hrun, hpolls⟩ := run_polls (smallMachine s) (show 0 < 2 ^ 64 by norm_num)
  rw [show numPages 0 = 0 by decide, @vmmAllocHugePage_eq (smallMachine s) 0 rfl (Nat.zero_le _)]
    at hpolls
  obtain ⟨tr', k', hrun', hplace, hsize, hmem, hm⟩ := hpolls.calling_zero hrun
  have hvacant : hwWalk k'.m k'.payloadMem = none := by
    rw [hm, hmem]
    have hwalk := @Vacant.hwWalk _ 0 (hfresh.vacant 0 (by decide)) 0 (by norm_num)
    rwa [Nat.add_zero, heapPage_zero] at hwalk
  refine ⟨s, tr', k', hs, starts_bootKernel hfresh, hrun', hm ▸ hready, hplace, hsize, hvacant, ?_⟩
  intro h
  have hsome := h.mapped.mapped 0 (by norm_num)
  rw [Nat.add_zero, hvacant] at hsome
  exact Bool.false_ne_true hsome

/-! ## Frames -/

/-- What the handler does with a frame stays in the payload, whose pages are mapped as it goes, and
in the header buffer. -/
structure Kernel.FrameSafe (k : Kernel) (data : Frame) : Prop where
  inside : ∀ s ∈ (networkReceiveFrame k.loader.net data).stores,
    k.dest.1 ≤ s.1 ∧ s.1 < k.dest.1 + k.dest.2
  mapped : ∀ before s after,
    (networkReceiveFrame k.loader.net data).stores = before ++ s :: after →
      (hwWalk (before.foldl Kernel.store k).m s.1).isSome
  header : ∀ write ∈ (networkReceiveFrame k.loader.net data).hdrWrites, write.1 < headerFrameSize

/-- Either frames store nothing, or the destination is the payload's. -/
theorem Phase.complete_or_placed {base : Set ℕ} {k : Kernel} (h : Phase base k) :
    k.loader.net.Complete ∨ ∃ blocks,
      Placed base k.m k.payloadByteCount k.payloadMem k.dest blocks ∧
      k.loader.net.rxDest = heapStart ∧ k.loader.net.rxExpected = k.payloadByteCount := by
  cases h with
  | setReceived blocks _ _ hdest hexpected hplaced => exact .inr ⟨blocks, hplaced, hdest, hexpected⟩
  | pollPayload blocks _ _ hdest hexpected _ hplaced =>
    exact .inr ⟨blocks, hplaced, hdest, hexpected⟩
  | reading _ _ hcomplete _ => exact .inl hcomplete
  | mapping _ _ _ hcomplete _ _ => exact .inl hcomplete
  | setDest _ _ _ hcomplete _ => exact .inl hcomplete
  | setExpected _ _ _ _ hcomplete _ => exact .inl hcomplete
  | loaded _ _ _ harrived _ => exact .inl harrived.complete
  | calling _ _ harrived _ => exact .inl harrived.complete
  | workload _ _ hcomplete _ => exact .inl hcomplete
  | growing _ _ _ _ _ _ hcomplete _ => exact .inl hcomplete
  | resetting _ _ _ hcomplete _ => exact .inl hcomplete
  | extracting _ hcomplete _ => exact .inl hcomplete

theorem Phase.frameSafe {base : Set ℕ} {k : Kernel} (h : Phase base k) (data : Frame) :
    k.FrameSafe data := by
  have hheader := hdrWrites_lt k.loader.net data
  rcases h.complete_or_placed with hcomplete | ⟨blocks, hplaced, hdest, hexpected⟩
  · obtain ⟨chunk, happends⟩ := exists_appends k.loader.net data
    obtain ⟨hnone, -⟩ := happends.of_complete hcomplete
    refine ⟨fun s hs => ?_, fun before s after hsplit => ?_, hheader⟩
    · rw [hnone] at hs
      exact absurd hs List.not_mem_nil
    · rw [hnone] at hsplit
      exact absurd hsplit (by simp)
  · obtain ⟨haddr, -⟩ := receive_of_placed hplaced hdest hexpected data
    have hend := hplaced.le.1
    refine ⟨fun s hs => ?_, fun before s after hsplit => ?_, hheader⟩
    · rw [hplaced.dest]
      exact haddr s hs
    · rw [hsplit] at haddr
      obtain ⟨hlo, hhi⟩ := haddr s (List.mem_append_right _ List.mem_cons_self)
      -- the stores before this one leave the mapping alone
      obtain ⟨m', hfold, hsame⟩ := @foldl_store base blocks before k hplaced.live fun t ht => by
        obtain ⟨hlo', hhi'⟩ := haddr t (List.mem_append_left _ ht)
        exact ⟨hlo', hhi'.trans_le hend⟩
      rw [hfold]
      apply (hsame.live hplaced.live).mapped hlo
      rw [hsame.nextVirtAddr]
      exact hhi.trans_le hend

/-- In every run whose requests are served with blocks below byte `2 ^ 31`, frames are stored in the
payload of the session and nowhere else, and every index of the header buffer is in range. -/
theorem frames_safe {k₀ k : Kernel} (h0 : k₀.Starts) {tr : List (Kernel × MainEvent × Kernel)}
    (hrun : Run MainStep k₀ tr k) (hready : k.m.Ready) :
    (∀ data, k.FrameSafe data) ∧
      ∀ caller read, k.loader.pc = .read caller (.loadByte read) → read < headerFrameSize := by
  refine ⟨(phase_of_run h0 hrun hready).frameSafe, fun caller read hpc => ?_⟩
  have hheader := (headerOk_of_run h0 hrun).2
  rw [hpc] at hheader
  exact hheader

/-- The page of a session of one byte is mapped, and frames may come. -/
theorem frames_safe_one : ∃ s tr k, pmmInit twoBlockMap (fun _ => 0) = some (pmmInitSuccess, s) ∧
    Run MainStep (bootKernel (smallMachine s)) tr k ∧ k.m.Ready ∧
    k.loader.pc = .pollPayload heapStart 1 ∧ ∀ data, k.FrameSafe data := by
  obtain ⟨s, hs, hfresh, -, hready⟩ := ready_twoBlockMap
  obtain ⟨tr, k, hrun, hpolls⟩ := run_polls (smallMachine s) (show 1 < 2 ^ 64 by norm_num)
  rw [show numPages 1 = 1 by decide, show payloadFlags = 3 by decide] at hpolls
  have hstart : (vmmAllocHugePage (smallMachine s) 1 3).1 = heapStart := by
    rw [@vmmAllocHugePage_eq (smallMachine s) 0 rfl (Nat.zero_le _)]
    rfl
  have hready' : k.m.Ready := by
    rw [hpolls.machine]
    exact hready
  rw [hstart] at hpolls
  exact ⟨s, tr, k, hs, hrun, hready', hpolls.pc,
    (frames_safe (starts_bootKernel hfresh) hrun hready').1⟩

/-- The frame of the one byte goes to a page that its own zero-fill has unmapped. -/
theorem not_frames_safe_tightMap : ∃ s tr k,
    pmmInit tightMap (fun _ => 0) = some (pmmInitSuccess, s) ∧
    (bootKernel (smallMachine s)).Starts ∧ Run MainStep (bootKernel (smallMachine s)) tr k ∧
    k.m.Served ∧ ¬k.FrameSafe (etherHeader ++ [0xC3]) := by
  obtain ⟨s, hs, hrange, htotal⟩ := freeRange_tightMap
  obtain ⟨hown, hfresh⟩ := @ownBlock_smallMachine s (2 ^ 25) hrange (by omega) (by norm_num)
    (by norm_num)
  obtain ⟨hserved, hnone⟩ := hown.unmapped
  obtain ⟨tr, k, hrun, hpolls⟩ := run_polls (smallMachine s) (show 1 < 2 ^ 64 by norm_num)
  rw [show numPages 1 = 1 by decide, show payloadFlags = 3 by decide,
    @vmmAllocHugePage_eq (smallMachine s) 0 rfl (Nat.zero_le _)] at hpolls
  rw [@vmmAllocHugePage_eq (smallMachine s) 0 rfl (Nat.zero_le _)] at hserved hnone
  refine ⟨s, tr, k, hs, starts_bootKernel hfresh, hrun, hpolls.machine ▸ hserved, fun h => ?_⟩
  have hcustom : IsCustom (etherHeader ++ [0xC3]) :=
    ⟨by decide, etherType_etherHeader _⟩
  have hdest : k.loader.net.rxDest = heapStart := hpolls.rxDest
  have hstores : (networkReceiveFrame k.loader.net (etherHeader ++ [0xC3])).stores =
      [(heapStart, 0xC3)] := by
    rw [networkReceiveFrame_data hcustom hpolls.hdrDone (hdest.trans_ne (by norm_num [heapStart])),
      appendPayload_eq, payload_etherHeader, hpolls.rxExpected, hpolls.rxReceived, hdest]
    have hstart : (heapStart + 0) % 2 ^ 64 = heapStart := by norm_num [heapStart]
    simp only [ByteStore.storesFrom, List.take, hstart]
  have hsome := h.mapped [] (heapStart, 0xC3) [] hstores
  rw [List.foldl_nil, hpolls.machine, hnone] at hsome
  exact Bool.false_ne_true hsome

end MathUnikernel.MainLoop
