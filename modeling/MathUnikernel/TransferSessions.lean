import MathUnikernel.Transfer

/-!
# Any number of sessions

Sessions in which the header arrives while `read_ethernet` waits for it and the data frames once
the destination is set, with foreign frames anywhere.
-/

namespace MathUnikernel.Network
open ByteStore Runs

/-! ## Progress -/

/-- Without the header the main loop comes to wait for it. -/
theorem Phase.eventually_waits {l : Link} (h : Phase l) (htodo : l.todo = l.current.frames) :
    ∃ k, (Loader.step^[k] l.loader).Waits := by
  have hnot : l.todo ≠ l.current.data := fun hdata => by
    have hlen := congrArg List.length (hdata.symm.trans htodo)
    simp [Workload.frames] at hlen
  obtain ⟨⟨net, pc⟩, mem, base, current, todo, later⟩ := l
  cases h with
  | resetting hsofar =>
    change pc.ResetSoFar net at hsofar
    obtain ⟨dest, expected, received, ready, buf, len, read, done⟩ := net
    -- the remaining assignments and the test of `hdr_done`
    cases pc with
    | resetDone => exact ⟨5, .inl rfl, trivial⟩
    | resetLen =>
      obtain rfl : done = false := hsofar
      exact ⟨4, .inl rfl, trivial⟩
    | resetRead =>
      obtain rfl : done = false := hsofar.1
      exact ⟨3, .inl rfl, trivial⟩
    | resetReady =>
      obtain rfl : done = false := hsofar.1
      exact ⟨2, .inl rfl, trivial⟩
    | _ => exact absurd hsofar id
  | waiting r hidle => exact hidle.eventually_waits
  | announcing hann hdata => exact absurd hdata hnot
  | announced hpc hdone hdata => exact absurd hdata hnot
  | setting dest hset hdone hdata => exact absurd hdata hnot
  | loading dest sent hload hdata =>
    have hlen := congrArg List.length hdata
    have hall := congrArg List.length htodo
    simp only [Workload.frames, List.length_append, List.length_cons] at hlen hall
    omega

/-- With the header in, `unlock` and `poll_payload_size` return. -/
theorem Phase.eventually_announced {l : Link} (hvalid : l.current.Valid) (h : Phase l)
    (htodo : l.todo ≠ l.current.frames) :
    ∃ k, (Loader.step^[k] l.loader).pc.Announced l.current.size := by
  cases h with
  | resetting hsofar hall => exact absurd hall htodo
  | waiting r hidle hr hall => exact absurd hall htodo
  | announcing hann hdata =>
    obtain ⟨k, hpc, -⟩ := hann.progress hvalid.size_lt
    refine ⟨k, ?_⟩
    rw [hpc]
    rfl
  | announced hpc hdone hdata =>
    refine ⟨0, ?_⟩
    rw [Function.iterate_zero, id, hpc]
    rfl
  | setting dest hset hdone hdata =>
    refine ⟨0, ?_⟩
    cases hpc : l.loader.pc <;> rw [hpc] at hset <;>
      first | exact absurd hset id | exact hpc ▸ hset.2 | exact hpc ▸ hset.2.1
  | loading dest sent hload hdata =>
    have hset := hload.pc
    refine ⟨0, ?_⟩
    cases hpc : l.loader.pc <;> rw [hpc] at hset <;>
      first | exact absurd hset id | exact hpc ▸ hset.2

/-- With all frames in, `poll_payload` returns. -/
theorem Phase.eventually_loaded {l : Link} (hvalid : l.current.Valid) (h : Phase l)
    (htodo : l.todo = []) {dest size : ℕ} (hset : l.loader.pc.DestSet dest size) :
    ∃ k, (Loader.step^[k] l.loader).pc = .loaded dest size := by
  obtain ⟨hreceived, -⟩ := h.transferred hvalid htodo hset
  have hsize : size = l.current.size := h.announced_eq (by
    cases hpc : l.loader.pc <;> rw [hpc] at hset <;> first | exact absurd hset id | exact hset.2)
  obtain ⟨⟨net, pc⟩, mem, base, current, todo, later⟩ := l
  change pc.DestSet dest size at hset
  cases pc with
  | pollPayload d n =>
    obtain ⟨rfl, rfl⟩ := hset
    have hfull : ¬net.rxReceived < n := by
      rw [hsize]
      exact Nat.not_lt.mpr hreceived.ge
    refine ⟨1, ?_⟩
    simp [Loader.step, hfull]
  | loaded d n =>
    obtain ⟨rfl, rfl⟩ := hset
    exact ⟨0, rfl⟩
  | _ => exact absurd hset id

/-! ## The sessions -/

/-- What a state of the run guarantees for the workload in transmission. -/
structure SessionOk (l : Link) : Prop where
  /-- `reset_header` leaves the same variables in every session. -/
  reset : l.todo = l.current.frames → ∀ caller r, l.loader.pc = .read caller r →
    caller = .unlock 0 ∧ HeaderReset l.loader.net
  waits : l.todo = l.current.frames → ∃ k, (Loader.step^[k] l.loader).Waits
  announces : l.todo ≠ l.current.frames →
    ∃ k, (Loader.step^[k] l.loader).pc.Announced l.current.size
  announced : ∀ size, l.loader.pc.Announced size → size = l.current.size
  loads : l.todo = [] → ∀ dest size, l.loader.pc.DestSet dest size →
    ∃ k, (Loader.step^[k] l.loader).pc = .loaded dest size
  loaded : ∀ dest size, l.loader.pc = .loaded dest size →
    l.todo = [] ∧ ∀ i (h : i < l.current.bytes.length), l.mem (dest + i) = l.current.bytes[i]
  outside : ∀ dest size, l.loader.pc.DestSet dest size →
    ∀ a, a < dest ∨ dest + l.current.size ≤ a → l.mem a = l.base a

theorem Phase.reset {l : Link} (h : Phase l) (htodo : l.todo = l.current.frames) {caller : Caller}
    {r : ReadPc} (hpc : l.loader.pc = .read caller r) :
    caller = .unlock 0 ∧ HeaderReset l.loader.net := by
  have hnot : l.todo ≠ l.current.data := fun hdata => by
    have hlen := congrArg List.length (hdata.symm.trans htodo)
    simp [Workload.frames] at hlen
  cases h with
  | resetting hsofar =>
    rw [hpc] at hsofar
    exact absurd hsofar id
  | waiting r' hidle hreset => exact ⟨(Pc.read.inj (hpc.symm.trans hidle.pc)).1, hreset⟩
  | announcing hann hdata => exact absurd hdata hnot
  | announced hpc' hdone hdata => exact absurd hdata hnot
  | setting dest hset hdone hdata => exact absurd hdata hnot
  | loading dest sent hload =>
    have hset := hload.pc
    rw [hpc] at hset
    exact absurd hset id

theorem Phase.sessionOk {l : Link} (hvalid : l.current.Valid) (h : Phase l) : SessionOk l where
  reset htodo _ _ hpc := h.reset htodo hpc
  waits := h.eventually_waits
  announces := h.eventually_announced hvalid
  announced _ := h.announced_eq
  loads htodo _ _ := h.eventually_loaded hvalid htodo
  loaded dest size hpc := by
    have htodo := h.loaded hvalid hpc
    have hset : l.loader.pc.DestSet dest size := by
      rw [hpc]
      exact ⟨rfl, rfl⟩
    exact ⟨htodo, (h.transferred hvalid htodo hset).2⟩
  outside dest size hset := by
    obtain ⟨sent, hload, -⟩ := h.loading_of_destSet hset
    exact hload.outside

/-- Over any number of sessions every workload is announced with its size and arrives in full. -/
theorem transfer_sessions {w : Workload} {later : List Workload}
    (hvalid : ∀ v ∈ w :: later, v.Valid) {l₀ l : Link} (h0 : l₀.Starts w later)
    {tr : List (Link × LinkEvent × Link)} (hrun : Run LinkStep l₀ tr l)
    (hdisciplined : ∀ x ∈ tr, x.2.1 = .send → x.1.Disciplined) : SessionOk l := by
  obtain ⟨hphase, hsuffix⟩ :=
    phase_of_run hvalid h0 hrun fun x hx hsend => (hdisciplined x hx hsend).paced
  exact hphase.sessionOk (hvalid _ (hsuffix.subset List.mem_cons_self))

/-- A session in which all frames arrive and `poll_payload` returns. -/
theorem run_loaded {l : Link} (hvalid : ∀ v ∈ l.current :: l.later, v.Valid)
    (hpc : l.loader.pc = .resetDone) (htodo : l.todo = l.current.frames) {dest : ℕ} (hdest : dest ≠ 0)
    (hend : dest + l.current.size ≤ 2 ^ 64) : ∃ tr l', Run LinkStep l tr l' ∧
      (∀ x ∈ tr, x.2.1 = .send → x.1.Disciplined) ∧ l'.loader.pc = .loaded dest l.current.size ∧
      l'.current = l.current ∧ l'.later = l.later := by
  have hcurrent := hvalid _ List.mem_cons_self
  obtain ⟨tr, l', hrun, hdisciplined, hpc', htodo', hcurrent', hlater'⟩ :=
    run_loading hcurrent hpc htodo (List.append_nil _).symm hdest hend
  have hstarts : l.Starts l.current l.later := ⟨hpc, rfl, htodo, rfl⟩
  have hphase := (phase_of_run hvalid hstarts hrun fun x hx hx' => (hdisciplined x hx hx').paced).1
  have hset : l'.loader.pc.DestSet dest l.current.size := by
    rw [hpc']
    exact ⟨rfl, rfl⟩
  obtain ⟨k, hk⟩ := hphase.eventually_loaded (hcurrent' ▸ hcurrent) htodo' hset
  obtain ⟨tr', hmain, hlabel⟩ := run_main hrun k
  exact ⟨_, _, hmain, List.forall_mem_append.mpr ⟨hdisciplined, disciplined_of_main hlabel⟩, hk,
    hcurrent', hlater'⟩

/-- `xor eax, eax` and `ret`, in two frames of which the second is padded. -/
def xorWorkload : Workload where
  size := 3
  bytes := [0x31, 0xC0, 0xC3]
  header := etherHeader ++ headerBytes 3
  data := [etherHeader ++ [0x31, 0xC0], etherHeader ++ [0xC3, 0, 0]]

theorem xorWorkload_valid : xorWorkload.Valid := by
  refine ⟨by decide, by decide, rfl, ⟨by decide, by decide⟩, by decide, [[0x31, 0xC0]], [0xC3], [0, 0],
    rfl, rfl, by simp, by simp⟩

/-- Two sessions to their ends. -/
theorem transfer_sessions_ret : ∃ tr l tr' l',
    Run LinkStep { bootLink with
      current := xorWorkload, todo := xorWorkload.frames, later := [retWorkload] } tr l ∧
    l.loader.pc = .loaded 0xffff900000000000 3 ∧ l.mem 0xffff900000000000 = 0x31 ∧
    l.mem 0xffff900000000001 = 0xC0 ∧ l.mem 0xffff900000000002 = 0xC3 ∧
    Run LinkStep l tr' l' ∧ l'.loader.pc = .loaded 0xffff900000000000 1 ∧
    l'.mem 0xffff900000000000 = 0xC3 ∧ ∀ a, 0xffff900000000001 ≤ a → l'.mem a = l'.base a := by
  have hall : ∀ v ∈ [xorWorkload, retWorkload], v.Valid := by
    intro v hv
    rcases List.mem_pair.mp hv with rfl | rfl
    · exact xorWorkload_valid
    · exact retWorkload_valid
  obtain ⟨tr, l, hrun, hdisciplined, hpc, hcurrent, hlater⟩ :=
    @run_loaded { bootLink with
        current := xorWorkload, todo := xorWorkload.frames, later := [retWorkload] }
      hall rfl rfl 0xffff900000000000 (by decide) (by decide)
  obtain ⟨-, hbytes⟩ :=
    (transfer_sessions hall ⟨rfl, rfl, rfl, rfl⟩ hrun hdisciplined).loaded _ _ hpc
  rw [hcurrent] at hbytes
  -- the main loop begins the next session
  have hnext : Run LinkStep l _ _ := .snoc .nil (@LinkStep.next l _ _ _ _ l.mem hpc hlater)
  obtain ⟨tr', l', hrun', hdisciplined', hpc', hcurrent', -⟩ :=
    @run_loaded { l with
        loader := { l.loader with pc := .resetDone }
        mem := l.mem, current := retWorkload, todo := retWorkload.frames, later := [] }
      (fun v hv => hall v (List.mem_cons_of_mem _ hv)) rfl rfl 0xffff900000000000 (by decide)
      (show 0xffff900000000000 + 1 ≤ 2 ^ 64 by decide)
  have hboth := hnext.append hrun'
  have hok := transfer_sessions hall ⟨rfl, rfl, rfl, rfl⟩ (hrun.append hboth)
    (List.forall_mem_append.mpr ⟨hdisciplined, List.forall_mem_append.mpr
      ⟨fun x hx hx' => by rw [List.mem_singleton.mp hx] at hx'; simp at hx', hdisciplined'⟩⟩)
  obtain ⟨-, hbyte⟩ := hok.loaded _ _ hpc'
  have houtside := hok.outside _ _ (by rw [hpc']; exact ⟨rfl, rfl⟩)
  rw [hcurrent'] at hbyte houtside
  exact ⟨tr, l, _, l', hrun, hpc, hbytes 0 (by decide), hbytes 1 (by decide), hbytes 2 (by decide),
    hboth, hpc', hbyte 0 Nat.one_pos, fun a ha => houtside a (.inr ha)⟩

end MathUnikernel.Network
