import MathUnikernel.SessionPhases

/-!
# Runs of the main loop

Every step keeps the phases, and so does every run whose requests for memory are served.
-/

namespace MathUnikernel.MainLoop
open Vmm Network Runs

/-! ## Steps of the loop -/

/-- Until a size is announced the loop is that of the loader. -/
theorem Kernel.poll_eq {k : Kernel} (h : k.loader.pc.BeforeDest)
    (hpc : ∀ size, k.loader.pc ≠ .alloc size) :
    k.poll = { k with loader := k.loader.step } := by
  unfold Kernel.poll
  split
  next size hsize => exact absurd hsize (hpc size)
  next hloaded =>
    rw [hloaded] at h
    exact absurd h id
  next => rfl

theorem Kernel.main_polling {k : Kernel} (h : k.place = .polling) : k.main = k.poll := by
  rw [Kernel.main, h]

theorem payloadFlags_ok : payloadFlags &&& vmmAddrMask = 0 ∧ payloadFlags < 2 ^ 64 := by decide

section Main

variable {base : Set ℕ} {k : Kernel}

theorem main_reading (hplace : k.place = .polling) (hpc : k.loader.pc.BeforeDest)
    (hcomplete : k.loader.net.Complete) (hlive : Live k.m base []) : Phase base k.main := by
  rw [Kernel.main_polling hplace]
  by_cases halloc : ∃ size, k.loader.pc = .alloc size
  · obtain ⟨size, hsize⟩ := halloc
    have hpoll : k.poll =
        { k with place := .mapping heapStart (numPages size), payloadByteCount := size } := by
      rw [Kernel.poll, hsize]
      simp only [alignCursor_of_live hlive, hlive.nextVirtAddr, List.length_nil, heapPage_zero]
    rw [hpoll]
    exact .mapping (numPages size) [] rfl hcomplete hlive (Nat.zero_add _)
  · obtain ⟨hpc', hexpected, hreceived⟩ := Loader.step_beforeDest hpc
    rw [Kernel.poll_eq hpc (not_exists.mp halloc)]
    refine .reading hplace hpc' ?_ hlive
    change k.loader.step.net.rxExpected ≤ k.loader.step.net.rxReceived
    rw [hexpected, hreceived]
    exact hcomplete

section Served

variable (hready : k.main.m.Ready)
include hready

/-- A round of the loop of `vmm_alloc_huge_page`. -/
theorem main_mapping {left : ℕ} {blocks : List ℕ} (hplace : k.place = .mapping heapStart left)
    (hcomplete : k.loader.net.Complete) (hlive : Live k.m base blocks)
    (hlen : blocks.length + left = numPages k.payloadByteCount) : Phase base k.main := by
  rw [Kernel.main, hplace] at hready ⊢
  cases left with
  | zero =>
    exact .setDest blocks rfl rfl hcomplete ⟨hlive, hlen, rfl, rfl⟩
  | succ left =>
    obtain ⟨b, hlive', -⟩ := hlive.allocHugeStep payloadFlags_ok.1 payloadFlags_ok.2 hready
    refine .mapping left (blocks ++ [b]) rfl hcomplete hlive' ?_
    change (blocks ++ [b]).length + left = numPages k.payloadByteCount
    rw [List.length_append, List.length_singleton]
    omega

theorem main_growing {flags left : ℕ} {blocks : List ℕ} (hplace : k.place = .growing flags left)
    (haddr : flags &&& vmmAddrMask = 0) (hlt : flags < 2 ^ 64) (hcomplete : k.loader.net.Complete)
    (hlive : Live k.m base blocks) : Phase base k.main := by
  rw [Kernel.main, hplace] at hready ⊢
  cases left with
  | zero => exact .workload blocks rfl hcomplete hlive
  | succ left =>
    obtain ⟨b, hlive', -⟩ := hlive.allocHugeStep haddr hlt hready
    exact .growing flags left (blocks ++ [b]) rfl haddr hlt hcomplete hlive'

end Served

theorem main_resetting {i : ℕ} {blocks : List ℕ} (hplace : k.place = .resetting (heapPage i))
    (hcomplete : k.loader.net.Complete) (hempty : Emptying k.m base i blocks) :
    Phase base k.main := by
  rw [Kernel.main, hplace]
  cases blocks with
  | nil =>
    obtain ⟨hlast, hlive⟩ := hempty.last
    dsimp only
    rw [if_neg hlast]
    exact .extracting rfl hcomplete hlive
  | cons b blocks =>
    obtain ⟨hlt, hnext, hempty'⟩ := hempty.round
    dsimp only
    rw [if_pos hlt, hnext]
    exact .resetting (i + 1) blocks rfl hcomplete hempty'

end Main

/-- Every step of the loop keeps the phases. -/
theorem Phase.main {base : Set ℕ} {k : Kernel} (h : Phase base k) (hready : k.main.m.Ready) :
    Phase base k.main := by
  cases h with
  | reading hplace hpc hcomplete hlive => exact main_reading hplace hpc hcomplete hlive
  | mapping left blocks hplace hcomplete hlive hlen =>
    exact main_mapping hready hplace hcomplete hlive hlen
  | setDest blocks hplace hpc hcomplete hplaced =>
    rw [Kernel.main_polling hplace, Kernel.poll, hpc, Loader.step, hpc]
    exact .setExpected blocks hplace rfl rfl hcomplete hplaced
  | setExpected blocks hplace hpc hdest hcomplete hplaced =>
    rw [Kernel.main_polling hplace, Kernel.poll, hpc, Loader.step, hpc]
    exact .setReceived blocks hplace rfl hdest rfl hplaced
  | setReceived blocks hplace hpc hdest hexpected hplaced =>
    rw [Kernel.main_polling hplace, Kernel.poll, hpc, Loader.step, hpc]
    exact .pollPayload blocks hplace rfl hdest hexpected (fun h => absurd h (lt_irrefl 0))
      hplaced
  | pollPayload blocks hplace hpc hdest hexpected hfirst hplaced =>
    rw [Kernel.main_polling hplace, Kernel.poll, hpc, Loader.step, hpc]
    dsimp only
    split_ifs with hmore
    · exact .pollPayload blocks hplace hpc hdest hexpected hfirst hplaced
    · refine .loaded blocks hplace rfl ⟨?_, fun hne => hfirst ?_⟩ hplaced
      · change k.loader.net.rxExpected ≤ k.loader.net.rxReceived
        omega
      · change k.payloadByteCount ≠ 0 at hne
        omega
  | loaded blocks hplace hpc harrived hplaced =>
    rw [Kernel.main_polling hplace, Kernel.poll, hpc]
    exact .calling blocks rfl harrived hplaced
  | calling blocks hplace harrived hplaced =>
    rw [Kernel.main, hplace]
    exact .workload blocks rfl harrived.complete hplaced.live
  | workload blocks hplace hcomplete hlive =>
    rw [Kernel.main, hplace]
    exact .workload blocks hplace hcomplete hlive
  | growing flags left blocks hplace haddr hlt hcomplete hlive =>
    exact main_growing hready hplace haddr hlt hcomplete hlive
  | resetting i blocks hplace hcomplete hempty => exact main_resetting hplace hcomplete hempty
  | extracting hplace hcomplete hlive =>
    rw [Kernel.main, hplace]
    exact .reading rfl trivial hcomplete hlive

/-! ## Frames -/

/-- What the handler may change: the variables of the network, memory contents and the ghost. -/
theorem receive_eq (k : Kernel) (data : Frame) : ∃ m written, k.receive data = { k with
    loader := { k.loader with net := (networkReceiveFrame k.loader.net data).net }
    m := m
    written := written } ∧ m.log = k.m.log := by
  unfold Kernel.receive
  generalize networkReceiveFrame k.loader.net data = r
  obtain ⟨net, hdrWrites, stores⟩ := r
  dsimp only
  induction stores using List.reverseRecOn with
  | nil => exact ⟨k.m, k.written, rfl, rfl⟩
  | append_singleton stores s ih =>
    obtain ⟨m, written, hfold, hlog⟩ := ih
    rw [List.foldl_append, hfold]
    exact ⟨m.storeByte s.1 s.2, _, rfl, (stored_storeByte m s.1 s.2).log.trans hlog⟩

/-- Stores to heap pages change their contents, and each is written. -/
theorem foldl_store {base : Set ℕ} {blocks : List ℕ} {stores : List (ℕ × UInt8)} {k : Kernel}
    (h : Live k.m base blocks)
    (hstores : ∀ s ∈ stores, heapStart ≤ s.1 ∧ s.1 < k.m.nextVirtAddr) :
    ∃ m', stores.foldl Kernel.store k =
      { k with m := m', written := k.written ++ stores.map Prod.fst } ∧ Same k.m m' := by
  induction stores generalizing k with
  | nil => exact ⟨k.m, by rw [List.map_nil, List.append_nil]; rfl, .refl k.m⟩
  | cons s stores ih =>
    obtain ⟨hlo, hhi⟩ := hstores s List.mem_cons_self
    have hsame := h.store s.2 hlo hhi
    have hstore : k.store s =
        { k with m := k.m.storeByte s.1 s.2, written := k.written ++ [s.1] } := by
      rw [Kernel.store, if_pos (h.mapped hlo hhi)]
    obtain ⟨m', hfold, hsame'⟩ := ih (k := k.store s) (hsame.live h) fun t ht => by
      change heapStart ≤ t.1 ∧ t.1 < (k.m.storeByte s.1 s.2).nextVirtAddr
      rw [hsame.nextVirtAddr]
      exact hstores t (List.mem_cons_of_mem s ht)
    refine ⟨m', ?_, hsame.trans hsame'⟩
    rw [List.foldl_cons, hfold, hstore, List.map_cons, List.append_assoc, List.singleton_append]

/-- The handler when the transfer is over. -/
theorem receive_of_complete {k : Kernel} (h : k.loader.net.Complete) (data : Frame) :
    k.receive data =
        { k with loader := { k.loader with net := (networkReceiveFrame k.loader.net data).net } } ∧
      (networkReceiveFrame k.loader.net data).net.Complete := by
  obtain ⟨chunk, happends⟩ := exists_appends k.loader.net data
  obtain ⟨hnone, hcomplete⟩ := happends.of_complete h
  refine ⟨?_, hcomplete⟩
  simp only [Kernel.receive, hnone, List.foldl_nil]

theorem le_numPages (n : ℕ) : n ≤ numPages n * 0x200000 := by
  have hmb : 2 * mb = 0x200000 := by decide
  rw [numPages, hmb]
  split_ifs <;> omega

/-- The payload ends on the heap. -/
theorem Placed.le {base : Set ℕ} {m : Machine} {n payloadMem : ℕ} {dest : ℕ × ℕ} {blocks : List ℕ}
    (h : Placed base m n payloadMem dest blocks) :
    heapStart + n ≤ m.nextVirtAddr ∧ m.nextVirtAddr ≤ 2 ^ 64 := by
  have hlen := le_numPages n
  rw [← h.length] at hlen
  have hle := h.live.heap.le
  rw [Nat.zero_add] at hle
  unfold heapPages at hle
  rw [h.live.nextVirtAddr]
  simp only [heapPage, heapStart]
  omega

/-- The handler when the destination is set: its stores lie in the payload. -/
theorem receive_of_placed {base : Set ℕ} {k : Kernel} {blocks : List ℕ}
    (h : Placed base k.m k.payloadByteCount k.payloadMem k.dest blocks)
    (hdest : k.loader.net.rxDest = heapStart)
    (hexpected : k.loader.net.rxExpected = k.payloadByteCount) (data : Frame) :
    (∀ s ∈ (networkReceiveFrame k.loader.net data).stores,
      heapStart ≤ s.1 ∧ s.1 < heapStart + k.payloadByteCount) ∧
    ∃ m', k.receive data = { k with
        loader := { k.loader with net := (networkReceiveFrame k.loader.net data).net }
        m := m'
        written := k.written ++ (networkReceiveFrame k.loader.net data).stores.map Prod.fst } ∧
      Same k.m m' := by
  obtain ⟨hend, hlt⟩ := h.le
  obtain ⟨chunk, happends⟩ := exists_appends k.loader.net data
  have haddr : ∀ s ∈ (networkReceiveFrame k.loader.net data).stores,
      heapStart ≤ s.1 ∧ s.1 < heapStart + k.payloadByteCount := by
    intro s hs
    have hs' := happends.address (by rw [hdest, hexpected]; omega) hs
    rw [hdest, hexpected] at hs'
    omega
  refine ⟨haddr, ?_⟩
  apply foldl_store (k := { k with
    loader := { k.loader with net := (networkReceiveFrame k.loader.net data).net } }) h.live
  intro s hs
  obtain ⟨hlo, hhi⟩ := haddr s hs
  exact ⟨hlo, hhi.trans_le hend⟩

theorem Placed.same {base : Set ℕ} {m m' : Machine} {n payloadMem : ℕ} {dest : ℕ × ℕ}
    {blocks : List ℕ} (h : Placed base m n payloadMem dest blocks) (hsame : Same m m') :
    Placed base m' n payloadMem dest blocks :=
  ⟨hsame.live h.live, h.length, h.payloadMem, h.dest⟩

theorem Phase.of_workload {base : Set ℕ} {k : Kernel} (h : Phase base k)
    (hplace : k.place = .workload) : k.loader.net.Complete ∧ ∃ blocks, Live k.m base blocks := by
  cases h with
  | workload blocks _ hcomplete hlive => exact ⟨hcomplete, blocks, hlive⟩
  | _ => simp_all

theorem heapStart_lt : heapStart < 2 ^ 64 := by norm_num [heapStart]

/-- A frame at any place keeps the phases. -/
theorem Phase.receive {base : Set ℕ} {k : Kernel} (h : Phase base k) (data : Frame) :
    Phase base (k.receive data) := by
  obtain ⟨chunk, happends⟩ := exists_appends k.loader.net data
  cases h with
  | reading hplace hpc hcomplete hlive =>
    obtain ⟨heq, hcomplete'⟩ := receive_of_complete hcomplete data
    rw [heq]
    exact .reading hplace hpc hcomplete' hlive
  | mapping left blocks hplace hcomplete hlive hlen =>
    obtain ⟨heq, hcomplete'⟩ := receive_of_complete hcomplete data
    rw [heq]
    exact .mapping left blocks hplace hcomplete' hlive hlen
  | setDest blocks hplace hpc hcomplete hplaced =>
    obtain ⟨heq, hcomplete'⟩ := receive_of_complete hcomplete data
    rw [heq]
    exact .setDest blocks hplace hpc hcomplete' hplaced
  | setExpected blocks hplace hpc hdest hcomplete hplaced =>
    obtain ⟨heq, hcomplete'⟩ := receive_of_complete hcomplete data
    rw [heq]
    exact .setExpected blocks hplace hpc (happends.rxDest.trans hdest) hcomplete' hplaced
  | setReceived blocks hplace hpc hdest hexpected hplaced =>
    obtain ⟨-, m', heq, hsame⟩ := receive_of_placed hplaced hdest hexpected data
    rw [heq]
    exact .setReceived blocks hplace hpc (happends.rxDest.trans hdest)
      (happends.rxExpected.trans hexpected) (hplaced.same hsame)
  | pollPayload blocks hplace hpc hdest hexpected hfirst hplaced =>
    obtain ⟨-, m', heq, hsame⟩ := receive_of_placed hplaced hdest hexpected data
    rw [heq]
    refine .pollPayload blocks hplace hpc (happends.rxDest.trans hdest)
      (happends.rxExpected.trans hexpected) (fun hpos => List.mem_append.mpr ?_) (hplaced.same hsame)
    -- the first byte was there before, or comes with this frame
    rcases Nat.eq_zero_or_pos k.loader.net.rxReceived with hzero | hold
    · right
      have hmem := happends.first (hdest.trans_lt heapStart_lt) hzero hpos
      rwa [hdest] at hmem
    · exact .inl (hfirst hold)
  | loaded blocks hplace hpc harrived hplaced =>
    obtain ⟨heq, hcomplete'⟩ := receive_of_complete harrived.complete data
    rw [heq]
    exact .loaded blocks hplace hpc ⟨hcomplete', harrived.first⟩ hplaced
  | calling blocks hplace harrived hplaced =>
    obtain ⟨heq, hcomplete'⟩ := receive_of_complete harrived.complete data
    rw [heq]
    exact .calling blocks hplace ⟨hcomplete', harrived.first⟩ hplaced
  | workload blocks hplace hcomplete hlive =>
    obtain ⟨heq, hcomplete'⟩ := receive_of_complete hcomplete data
    rw [heq]
    exact .workload blocks hplace hcomplete' hlive
  | growing flags left blocks hplace haddr hlt hcomplete hlive =>
    obtain ⟨heq, hcomplete'⟩ := receive_of_complete hcomplete data
    rw [heq]
    exact .growing flags left blocks hplace haddr hlt hcomplete' hlive
  | resetting i blocks hplace hcomplete hempty =>
    obtain ⟨heq, hcomplete'⟩ := receive_of_complete hcomplete data
    rw [heq]
    exact .resetting i blocks hplace hcomplete' hempty
  | extracting hplace hcomplete hlive =>
    obtain ⟨heq, hcomplete'⟩ := receive_of_complete hcomplete data
    rw [heq]
    exact .extracting hplace hcomplete' hlive

/-! ## Runs -/

theorem log_storeByte (m : Machine) (virtAddr : ℕ) (byte : UInt8) :
    (m.storeByte virtAddr byte).log = m.log := (stored_storeByte m virtAddr byte).log

theorem log_resetSlot (m : Machine) (addr : ℕ) : (resetSlot m addr).log = m.log := rfl

theorem log_alignCursor (m : Machine) : (alignCursor m).log = m.log := by
  unfold alignCursor
  generalize (m.nextVirtAddr + 0x1fffff) % 2 ^ 64 &&& 0xffffffffffe00000 = v
  rfl

theorem log_poll (k : Kernel) : k.poll.m.log = k.m.log := by
  unfold Kernel.poll
  split
  · exact log_alignCursor k.m
  · rfl
  · rfl

theorem log_main (k : Kernel) : k.m.log <+: k.main.m.log := by
  unfold Kernel.main
  cases k.place with
  | polling =>
    dsimp only
    rw [log_poll]
  | mapping startAddr left =>
    cases left with
    | zero => exact List.prefix_rfl
    | succ left => exact log_allocHugeStep k.m payloadFlags
  | growing flags left =>
    cases left with
    | zero => exact List.prefix_rfl
    | succ left => exact log_allocHugeStep k.m flags
  | resetting addr =>
    dsimp only
    split_ifs
    · dsimp only
      rw [log_resetSlot]
    · exact List.prefix_rfl
  | calling | workload | extracting => exact List.prefix_rfl

theorem log_mainStep {k k' : Kernel} {e : MainEvent} (h : MainStep k e k') :
    k.m.log <+: k'.m.log := by
  cases h with
  | main => exact log_main k
  | receive data =>
    obtain ⟨m, written, heq, hlog⟩ := receive_eq k data
    rw [heq]
    exact hlog ▸ List.prefix_rfl
  | alloc =>
    change k.m.log <+: (alignCursor k.m).log
    rw [log_alignCursor]
  | @store virtAddr byte =>
    change k.m.log <+: (k.m.storeByte virtAddr byte).log
    rw [log_storeByte]
  | ret => exact List.prefix_rfl

theorem Kernel.Starts.phase {k : Kernel} (h : k.Starts) :
    Phase {f | k.m.pmm.used f = true} k := by
  refine .reading h.place ?_ ?_ h.heap.live
  · rw [h.pc]
    trivial
  · rw [Net.Complete, h.rxExpected]
    exact Nat.zero_le _

theorem Phase.step {base : Set ℕ} {k k' : Kernel} {e : MainEvent} (h : Phase base k)
    (hstep : MainStep k e k') (hready : k'.m.Ready) : Phase base k' := by
  cases hstep with
  | main => exact h.main hready
  | receive data => exact h.receive data
  | alloc hplace haddr hlt =>
    obtain ⟨hcomplete, blocks, hlive⟩ := h.of_workload hplace
    rw [alignCursor_of_live hlive]
    exact .growing _ _ blocks rfl haddr hlt hcomplete hlive
  | store hplace hlo hhi =>
    obtain ⟨hcomplete, blocks, hlive⟩ := h.of_workload hplace
    exact .workload blocks hplace hcomplete ((hlive.store _ hlo hhi).live hlive)
  | ret hplace =>
    obtain ⟨hcomplete, blocks, hlive⟩ := h.of_workload hplace
    exact .resetting 0 blocks (by rw [heapPage_zero]) hcomplete hlive.emptying

/-- Runs whose requests are all served with blocks below byte `2 ^ 31`. -/
theorem phase_of_run {k₀ k : Kernel} (h0 : k₀.Starts)
    {tr : List (Kernel × MainEvent × Kernel)} (hrun : Run MainStep k₀ tr k) (hready : k.m.Ready) :
    Phase {f | k₀.m.pmm.used f = true} k := by
  refine (hrun.invariant_of_mem h0.phase fun x hx h => ?_).1
  apply h.step (hrun.step_of_mem hx)
  apply hready.of_prefix
  exact hrun.prefix_of_mem (fun k => k.m.log) (fun _ _ _ => log_mainStep) hx

/-! ## The header buffer in a run -/

theorem headerOk_main {k : Kernel} (h : k.loader.HeaderOk) : k.main.loader.HeaderOk := by
  unfold Kernel.main
  split
  · unfold Kernel.poll
    split
    · exact h
    · exact h
    · exact h.step
  · exact h
  · exact ⟨h.1, trivial⟩
  · exact h
  · exact h
  · exact h
  · exact h
  · split_ifs <;> exact h
  · exact ⟨h.1, trivial⟩

theorem headerOk_of_run {k₀ k : Kernel} (h0 : k₀.Starts)
    {tr : List (Kernel × MainEvent × Kernel)} (hrun : Run MainStep k₀ tr k) :
    k.loader.HeaderOk := by
  have hstart : k₀.loader.HeaderOk := by
    refine ⟨h0.hdrLen, ?_⟩
    rw [h0.pc]
    trivial
  refine (hrun.invariant (I := fun k => k.loader.HeaderOk) hstart fun t e u ht hstep => ?_).1
  cases hstep with
  | main => exact headerOk_main ht
  | receive data =>
    obtain ⟨m, written, heq, -⟩ := receive_eq t data
    rw [heq]
    exact ht.receive data
  | alloc | store | ret => exact ht

end MathUnikernel.MainLoop
