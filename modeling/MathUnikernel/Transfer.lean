import MathUnikernel.Link

/-!
# The transfer of a workload

What holds in a session whose data frames arrive only once `network_set_dest` has run to its end.
-/

namespace MathUnikernel.Network
open ByteStore Runs

/-! ## The phases of a session -/

/-- What `reset_header` has done so far. -/
def Pc.ResetSoFar (s : Net) : Pc → Prop
  | .resetDone => True
  | .resetLen => s.hdrDone = false
  | .resetRead => s.hdrDone = false ∧ s.hdrLen = 0
  | .resetReady => s.hdrDone = false ∧ s.hdrLen = 0 ∧ s.hdrRead = 0
  | _ => False

/-- The variables as `reset_header` leaves them. -/
structure HeaderReset (s : Net) : Prop where
  hdrDone : s.hdrDone = false
  hdrLen : s.hdrLen = 0
  hdrRead : s.hdrRead = 0
  rxReady : s.rxReady = false

/-- What `network_set_dest` has done so far, or will do. -/
def Pc.SetSoFar (s : Net) (dest size : ℕ) : Pc → Prop
  | .setDest d n => d = dest ∧ n = size
  | .setExpected d n => d = dest ∧ n = size ∧ s.rxDest = dest
  | .setReceived d n => d = dest ∧ n = size ∧ s.rxDest = dest ∧ s.rxExpected = size
  | _ => False

/-- The bytes of the frames sent so far are at the destination, as many as it has room for, and the
rest of the memory is as it was. -/
structure Loading (l : Link) (dest : ℕ) (sent : List UInt8) : Prop where
  pc : l.loader.pc.DestSet dest l.current.size
  hdrDone : l.loader.net.hdrDone = true
  rxDest : l.loader.net.rxDest = dest
  rxExpected : l.loader.net.rxExpected = l.current.size
  rxReceived : l.loader.net.rxReceived = min sent.length l.current.size
  stored : ∀ i (h : i < sent.length), i < l.current.size → l.mem (dest + i) = sent[i]
  outside : ∀ a, a < dest ∨ dest + l.current.size ≤ a → l.mem a = l.base a
  loaded : ∀ d n, l.loader.pc = .loaded d n → l.current.size ≤ sent.length

inductive Phase (l : Link) : Prop
  | resetting :
      l.loader.pc.ResetSoFar l.loader.net → l.todo = l.current.frames → Phase l
  | waiting (r : ReadPc) :
      Idle l.loader 0 r → HeaderReset l.loader.net → l.todo = l.current.frames → Phase l
  | announcing : Announcing 0 l.current.size l.loader → l.todo = l.current.data → Phase l
  | announced :
      l.loader.pc = .alloc l.current.size → l.loader.net.hdrDone = true →
      l.todo = l.current.data → Phase l
  | setting (dest : ℕ) :
      l.loader.pc.SetSoFar l.loader.net dest l.current.size → l.loader.net.hdrDone = true →
      l.todo = l.current.data → dest ≠ 0 → dest + l.current.size ≤ 2 ^ 64 → l.mem = l.base → Phase l
  | loading (dest : ℕ) (sent : List Frame) :
      Loading l dest (sent.map payload).flatten → l.current.data = sent ++ l.todo →
      dest ≠ 0 → dest + l.current.size ≤ 2 ^ 64 → Phase l

/-! ## What one step keeps -/

theorem Phase.main {l : Link} (hsize : l.current.size < 2 ^ 64) (h : Phase l) :
    Phase { l with loader := l.loader.step } := by
  obtain ⟨⟨net, pc⟩, mem, base, current, todo, later⟩ := l
  cases h with
  | resetting hreset htodo =>
    change pc.ResetSoFar net at hreset
    cases pc with
    | resetDone => exact .resetting rfl htodo
    | resetLen => exact .resetting ⟨hreset, rfl⟩ htodo
    | resetRead => exact .resetting ⟨hreset.1, hreset.2, rfl⟩ htodo
    | resetReady =>
      obtain ⟨hdone, hlen, hread⟩ := hreset
      exact .waiting .enter ⟨rfl, hdone, .inl rfl⟩ ⟨hdone, hlen, hread, rfl⟩ htodo
    | _ => exact absurd hreset id
  | waiting r hidle hreset htodo =>
    obtain ⟨r', hidle', -, hnet⟩ := hidle.step
    refine .waiting r' hidle' ?_ htodo
    change HeaderReset (Loader.step ⟨net, pc⟩).net
    rw [hnet]
    exact hreset
  | announcing hann htodo =>
    rcases hann.step hsize with ⟨hann', -⟩ | ⟨hpc, hdone⟩
    · exact .announcing hann' htodo
    · exact .announced hpc hdone htodo
  | announced hpc hdone htodo =>
    obtain rfl : pc = .alloc current.size := hpc
    exact .announced rfl hdone htodo
  | setting dest hset hdone htodo hdest hend hmem =>
    change pc.SetSoFar net dest current.size at hset
    cases pc with
    | setDest d n =>
      obtain ⟨rfl, rfl⟩ := hset
      exact .setting _ ⟨rfl, rfl, rfl⟩ hdone htodo hdest hend hmem
    | setExpected d n =>
      obtain ⟨rfl, rfl, hd⟩ := hset
      exact .setting _ ⟨rfl, rfl, hd, rfl⟩ hdone htodo hdest hend hmem
    | setReceived d n =>
      obtain ⟨rfl, rfl, hd, hn⟩ := hset
      refine .loading d [] ⟨⟨rfl, rfl⟩, hdone, hd, hn, (Nat.zero_min _).symm, fun i hi => ?_,
        fun a _ => congrFun hmem a, fun _ _ hpc => ?_⟩ htodo.symm hdest hend
      · exact absurd hi (Nat.not_lt_zero i)
      · exact absurd hpc (by simp [Loader.step])
    | _ => exact absurd hset id
  | loading dest sent hload hdata hdest hend =>
    have hpc : pc.DestSet dest current.size := hload.pc
    have hreceived : net.rxReceived = min (sent.map payload).flatten.length current.size :=
      hload.rxReceived
    cases pc with
    | pollPayload d n =>
      obtain ⟨rfl, rfl⟩ := hpc
      by_cases hmore : net.rxReceived < current.size
      · have hstay : Loader.step ⟨net, .pollPayload d current.size⟩ =
            ⟨net, .pollPayload d current.size⟩ := if_pos hmore
        rw [hstay]
        exact .loading d sent hload hdata hdest hend
      · have hgo : Loader.step ⟨net, .pollPayload d current.size⟩ = ⟨net, .loaded d current.size⟩ :=
          if_neg hmore
        rw [hgo]
        refine .loading d sent ⟨⟨rfl, rfl⟩, hload.hdrDone, hload.rxDest, hload.rxExpected,
          hload.rxReceived, hload.stored, hload.outside, fun _ _ _ => ?_⟩ hdata hdest hend
        change current.size ≤ _
        omega
    | loaded d n => exact .loading dest sent hload hdata hdest hend
    | _ => exact absurd hpc id

/-- The stores of one frame, without the wrap of the addresses. -/
theorem receive_loading {l : Link} {dest : ℕ} {sent : List UInt8} (h : Loading l dest sent)
    (hdest : dest ≠ 0) {data : Frame} (hdata : IsCustom data) : l.receive data =
      { l with
        loader := { l.loader with
          net := { l.loader.net with
            rxReceived := min (sent ++ payload data).length l.current.size } }
        mem := write l.mem (storesFrom (fun i => (dest + i) % 2 ^ 64) (min sent.length l.current.size)
          ((payload data).take (l.current.size - min sent.length l.current.size))) } := by
  have hne : l.loader.net.rxDest ≠ 0 := h.rxDest ▸ hdest
  have hsum : min sent.length l.current.size +
      min (payload data).length (l.current.size - min sent.length l.current.size) =
      min (sent ++ payload data).length l.current.size := by
    rw [List.length_append]
    omega
  rw [Link.receive, networkReceiveFrame_data hdata h.hdrDone hne, appendPayload_eq]
  simp only [h.rxDest, h.rxExpected, h.rxReceived, hsum]

theorem Loading.receive {l : Link} {dest : ℕ} {sent : List UInt8} (h : Loading l dest sent)
    (hdest : dest ≠ 0) (hend : dest + l.current.size ≤ 2 ^ 64) {data : Frame} (hdata : IsCustom data) :
    Loading (l.receive data) dest (sent ++ payload data) := by
  have hmod : ∀ i < l.current.size, (dest + i) % 2 ^ 64 = dest + i := fun i hi =>
    Nat.mod_eq_of_lt (by omega)
  obtain ⟨room, hroom⟩ : ∃ room, l.current.size - min sent.length l.current.size = room := ⟨_, rfl⟩
  have hlen : ((payload data).take room).length ≤ room := List.length_take_le _ _
  rw [receive_loading h hdest hdata, hroom]
  refine ⟨h.pc, h.hdrDone, h.rxDest, h.rxExpected, rfl, fun i hi hsize => ?_, fun a ha => ?_,
    fun d n hpc => ?_⟩
  · replace hsize : i < l.current.size := hsize
    by_cases hold : i < sent.length
    · rw [List.getElem_append_left hold, ← h.stored i hold hsize]
      apply write_storesFrom_outside
      intro j hlo hhi
      rw [hmod j (by omega)]
      omega
    · have hstart : min sent.length l.current.size = sent.length := by omega
      have hnew : i - sent.length < ((payload data).take room).length := by
        rw [List.length_append] at hi
        rw [List.length_take]
        omega
      have hwrite := @write_storesFrom _ _ _ (fun i => (dest + i) % 2 ^ 64) sent.length
        ((payload data).take room) l.mem (fun j k hj hj' hk hk' hjk => by
          rw [hmod j (by omega), hmod k (by omega)] at hjk
          omega) _ hnew
      rw [Nat.add_sub_of_le (Nat.le_of_not_lt hold), hmod i hsize] at hwrite
      rw [List.getElem_append_right (Nat.le_of_not_lt hold)]
      simp only [hstart]
      rw [hwrite, List.getElem_take]
  · replace ha : a < dest ∨ dest + l.current.size ≤ a := ha
    refine (write_storesFrom_outside fun j hlo hhi => ?_).trans (h.outside a ha)
    rw [hmod j (by omega)]
    omega
  · rw [List.length_append]
    exact (h.loaded d n hpc).trans (Nat.le_add_right _ _)

theorem not_destSet_of_read {l : Link} {caller : Caller} {r : ReadPc}
    (h : l.loader.pc = .read caller r) (dest size : ℕ) : ¬l.loader.pc.DestSet dest size := by
  rw [h]
  exact id

theorem Phase.send {l : Link} {data : Frame} {rest : List Frame} (hvalid : l.current.Valid)
    (h : Phase l) (hpaced : l.Paced) (htodo : l.todo = data :: rest)
    (hreset : ¬l.loader.pc.Resetting) : Phase { l.receive data with todo := rest } := by
  -- with the header gone, only the second case of `Paced` is left
  have hdestSet : l.todo = l.current.data → ∃ dest size, l.loader.pc.DestSet dest size := by
    intro hdata
    refine hpaced.resolve_left fun hall => ?_
    have hlen := congrArg List.length (hdata.symm.trans hall)
    simp [Workload.frames] at hlen
  cases h with
  | resetting hsofar htodo' =>
    cases hpc : l.loader.pc <;> rw [hpc] at hsofar hreset <;>
      first | exact absurd trivial hreset | exact absurd hsofar id
  | waiting r hidle hr htodo' =>
    obtain ⟨rfl, rfl⟩ := List.cons.inj (htodo'.symm.trans htodo)
    exact .announcing (hidle.receive_header hvalid.header) rfl
  | announcing hann htodo' =>
    obtain ⟨-, c, hc, r, hr⟩ := hann
    obtain ⟨dest, size, hset⟩ := hdestSet htodo'
    exact absurd hset (not_destSet_of_read hr.pc dest size)
  | announced hpc hdone htodo' =>
    obtain ⟨dest, size, hset⟩ := hdestSet htodo'
    rw [hpc] at hset
    exact absurd hset id
  | setting dest hset' hdone htodo' =>
    obtain ⟨d, n, hset⟩ := hdestSet htodo'
    cases hpc : l.loader.pc <;> rw [hpc] at hset hset' <;>
      first | exact absurd hset id | exact absurd hset' id
  | loading dest sent hload hdata hdest hend =>
    rw [htodo] at hdata
    have hmem : data ∈ l.current.data := by
      rw [hdata]
      simp
    refine .loading dest (sent ++ [data]) ?_ ?_ hdest hend
    · obtain ⟨h1, h2, h3, h4, h5, h6, h7, h8⟩ := hload.receive hdest hend (hvalid.custom data hmem)
      have hsent : ((sent ++ [data]).map payload).flatten = (sent.map payload).flatten ++ payload data := by
        simp
      rw [hsent]
      exact ⟨h1, h2, h3, h4, h5, h6, h7, h8⟩
    · rw [List.append_assoc]
      exact hdata

theorem Phase.alloc {l : Link} {dest : ℕ} {size : ℕ} (h : Phase l) (mem : ℕ → UInt8)
    (hpc : l.loader.pc = .alloc size) (hdest : dest ≠ 0) (hend : dest + size ≤ 2 ^ 64) :
    Phase { l with loader := { l.loader with pc := .setDest dest size }, mem, base := mem } := by
  cases h with
  | resetting hsofar htodo =>
    rw [hpc] at hsofar
    exact absurd hsofar id
  | waiting r hidle hr htodo => exact absurd (hidle.pc.symm.trans hpc) (by simp)
  | announcing hann htodo =>
    obtain ⟨-, c, hc, r, hr⟩ := hann
    exact absurd (hr.pc.symm.trans hpc) (by simp)
  | announced hpc' hdone htodo =>
    obtain rfl : l.current.size = size := Pc.alloc.inj (hpc'.symm.trans hpc)
    exact .setting dest ⟨rfl, rfl⟩ hdone htodo hdest hend rfl
  | setting d hset =>
    rw [hpc] at hset
    exact absurd hset id
  | loading d sent hload =>
    have hset := hload.pc
    rw [hpc] at hset
    exact absurd hset id

/-- A step of a paced session, a beginning of the next one included. -/
theorem Phase.step {l l' : Link} {e : LinkEvent} (hvalid : l.current.Valid) (h : Phase l)
    (hpaced : e = .send → l.Paced) (hstep : LinkStep l e l') : Phase l' := by
  cases hstep with
  | main => exact h.main hvalid.size_lt
  | @alloc size dest mem hpc hdest hend => exact h.alloc mem hpc hdest hend
  | foreign hdata =>
    rw [receive_foreign hdata]
    exact h
  | send htodo hreset => exact h.send hvalid (hpaced rfl) htodo hreset
  | next hpc hlater => exact .resetting trivial rfl

/-! ## Paced runs -/

theorem Link.Starts.phase {l : Link} {w : Workload} {later : List Workload} (h : l.Starts w later) :
    Phase l := by
  refine .resetting ?_ ?_
  · rw [h.pc]
    trivial
  · rw [h.todo, h.current]

theorem workloads_step {l l' : Link} {e : LinkEvent} (h : LinkStep l e l') :
    l'.current :: l'.later <:+ l.current :: l.later := by
  cases h with
  | next hpc hlater =>
    rw [hlater]
    exact List.suffix_cons _ _
  | _ => exact List.suffix_rfl

/-- In every run whose data frames are paced, every state is in a phase of a valid workload. -/
theorem phase_of_run {w : Workload} {later : List Workload} (hvalid : ∀ v ∈ w :: later, v.Valid)
    {l₀ l : Link} (h0 : l₀.Starts w later) {tr : List (Link × LinkEvent × Link)}
    (hrun : Run LinkStep l₀ tr l) (hpaced : ∀ x ∈ tr, x.2.1 = .send → x.1.Paced) :
    Phase l ∧ l.current :: l.later <:+ w :: later := by
  refine (hrun.invariant_of_guard (I := fun l => Phase l ∧ l.current :: l.later <:+ w :: later)
    (G := fun l e => e = .send → l.Paced) ⟨h0.phase, ?_⟩ ?_ fun x hx => hpaced x hx).1
  · rw [h0.current, h0.later]
  · intro l e l' ⟨hphase, hsuffix⟩ hG hstep
    have hcurrent : l.current.Valid := hvalid _ (hsuffix.subset List.mem_cons_self)
    exact ⟨hphase.step hcurrent hG hstep, (workloads_step hstep).trans hsuffix⟩

/-! ## What the phases say -/

theorem Phase.announced_eq {l : Link} (h : Phase l) {size : ℕ}
    (hann : l.loader.pc.Announced size) : size = l.current.size := by
  cases h with
  | resetting hsofar htodo =>
    cases hpc : l.loader.pc <;> rw [hpc] at hsofar hann <;>
      first | exact absurd hann id | exact absurd hsofar id
  | waiting r hidle hr htodo =>
    rw [hidle.pc] at hann
    exact absurd hann id
  | announcing hann' htodo =>
    obtain ⟨-, c, hc, r, hr⟩ := hann'
    rw [hr.pc] at hann
    exact absurd hann id
  | announced hpc hdone htodo =>
    rw [hpc] at hann
    exact hann.symm
  | setting d hset =>
    cases hpc : l.loader.pc <;> rw [hpc] at hann hset <;>
      first | exact absurd hset id | exact hann.symm.trans hset.2 | exact hann.symm.trans hset.2.1
  | loading d sent hload =>
    have hset := hload.pc
    cases hpc : l.loader.pc <;> rw [hpc] at hann hset <;>
      first | exact absurd hset id | exact hann.symm.trans hset.2

theorem Phase.loading_of_destSet {l : Link} (h : Phase l) {dest size : ℕ}
    (hset : l.loader.pc.DestSet dest size) : ∃ sent : List Frame,
      Loading l dest (sent.map payload).flatten ∧ l.current.data = sent ++ l.todo := by
  cases h with
  | resetting hsofar htodo =>
    cases hpc : l.loader.pc <;> rw [hpc] at hsofar hset <;>
      first | exact absurd hset id | exact absurd hsofar id
  | waiting r hidle hr htodo => exact absurd hset (not_destSet_of_read hidle.pc dest size)
  | announcing hann htodo =>
    obtain ⟨-, c, hc, r, hr⟩ := hann
    exact absurd hset (not_destSet_of_read hr.pc dest size)
  | announced hpc hdone htodo =>
    rw [hpc] at hset
    exact absurd hset id
  | setting d hset' =>
    cases hpc : l.loader.pc <;> rw [hpc] at hset hset' <;>
      first | exact absurd hset id | exact absurd hset' id
  | loading d sent hload hdata hdest hend =>
    have hset' := hload.pc
    have hd : d = dest := by
      cases hpc : l.loader.pc <;> rw [hpc] at hset hset' <;>
        first | exact absurd hset id | exact hset'.1.symm.trans hset.1
    exact ⟨sent, hd ▸ hload, hdata⟩

/-- The payloads of all data frames start with the bytes of the workload. -/
theorem Cut.flatten {bytes : List UInt8} {data : List Frame} (h : Cut bytes data) :
    bytes <+: (data.map payload).flatten := by
  obtain ⟨chunks, last, padding, hmap, hbytes, -⟩ := h
  rw [hmap, ← hbytes]
  simp

/-- As long as a frame is missing, so are bytes of the workload. -/
theorem Cut.length_lt {bytes : List UInt8} {sent rest : List Frame} (h : Cut bytes (sent ++ rest))
    (hrest : rest ≠ []) : (sent.map payload).flatten.length < bytes.length := by
  obtain ⟨chunks, last, padding, hmap, hbytes, -, hlast⟩ := h
  obtain ⟨rest', final, rfl⟩ := List.eq_nil_or_concat rest |>.resolve_left hrest
  have hinit : sent.map payload ++ rest'.map payload = chunks := by
    have hmap' : (sent.map payload ++ rest'.map payload) ++ [payload final] =
        chunks ++ [last ++ padding] := by
      rw [← hmap]
      simp
    exact (List.append_inj' hmap' rfl).1
  have hpos := List.length_pos_iff.mpr hlast
  rw [← hbytes, ← hinit, List.flatten_append, List.length_append, List.length_append]
  omega

/-- In a paced session whose frames have all arrived the workload is in place. -/
theorem Phase.transferred {l : Link} (hvalid : l.current.Valid) (h : Phase l) (htodo : l.todo = [])
    {dest size : ℕ} (hset : l.loader.pc.DestSet dest size) :
    l.loader.net.rxReceived = l.current.size ∧
      ∀ i (h : i < l.current.bytes.length), l.mem (dest + i) = l.current.bytes[i] := by
  obtain ⟨sent, hload, hdata⟩ := h.loading_of_destSet hset
  rw [htodo, List.append_nil] at hdata
  obtain ⟨padding, hbytes⟩ := hvalid.cut.flatten
  rw [hdata] at hbytes
  have hlen := congrArg List.length hbytes
  rw [List.length_append, hvalid.length] at hlen
  refine ⟨?_, fun i hi => ?_⟩
  · rw [hload.rxReceived]
    omega
  · have hi' : i < l.current.size := hvalid.length ▸ hi
    rw [hload.stored i (by omega) hi']
    simp only [← hbytes]
    rw [List.getElem_append_left hi]

/-- `poll_payload` returns once the last frame is in. -/
theorem Phase.loaded {l : Link} (hvalid : l.current.Valid) (h : Phase l) {dest size : ℕ}
    (hpc : l.loader.pc = .loaded dest size) : l.todo = [] := by
  have hset : l.loader.pc.DestSet dest size := by
    rw [hpc]
    exact ⟨rfl, rfl⟩
  obtain ⟨sent, hload, hdata⟩ := h.loading_of_destSet hset
  by_contra hne
  have hlt := (hdata ▸ hvalid.cut).length_lt hne
  have hfull := hload.loaded dest size hpc
  have := hvalid.length
  omega

/-! ## Sessions that run to their end -/

theorem disciplined_of_main {tr : List (Link × LinkEvent × Link)} (h : ∀ x ∈ tr, x.2.1 = .main) :
    ∀ x ∈ tr, x.2.1 = .send → x.1.Disciplined := by
  intro x hx hsend
  exact absurd ((h x hx).symm.trans hsend) (by simp)

/-- The header arrives while `read_ethernet` waits for it, and `poll_payload_size` returns. -/
theorem run_announced {l : Link} (hvalid : l.current.Valid) (hpc : l.loader.pc = .resetDone)
    (htodo : l.todo = l.current.frames) : ∃ tr l', Run LinkStep l tr l' ∧
      (∀ x ∈ tr, x.2.1 = .send → x.1.Disciplined) ∧ l'.loader.pc = .alloc l.current.size ∧
      l'.loader.net.hdrDone = true ∧ l'.loader.net.rxDest = l.loader.net.rxDest ∧
      l'.loader.net.rxReceived = l.loader.net.rxReceived ∧ l'.todo = l.current.data ∧
      l'.current = l.current ∧ l'.later = l.later := by
  obtain ⟨⟨net, pc⟩, mem, base, current, todo, later⟩ := l
  dsimp only at hvalid hpc htodo
  subst hpc htodo
  obtain ⟨tr₁, hrun₁, hmain₁⟩ := run_main
    (.nil : Run LinkStep ⟨⟨net, .resetDone⟩, mem, base, current, current.frames, later⟩ [] _) 5
  have hidle : Idle (Loader.step^[5] ⟨net, .resetDone⟩) 0 .testReady := ⟨rfl, rfl, .inl rfl⟩
  have hsend := hrun₁.snoc (.send (rfl : current.frames = current.header :: current.data) id)
  obtain ⟨k, hpc, hdone, hdest, hreceived⟩ :=
    (hidle.receive_header hvalid.header).progress hvalid.size_lt
  have hnet : (networkReceiveFrame (Loader.step^[5] ⟨net, .resetDone⟩).net current.header).net.rxDest =
      net.rxDest ∧ (networkReceiveFrame (Loader.step^[5] ⟨net, .resetDone⟩).net
        current.header).net.rxReceived = net.rxReceived := by
    rw [networkReceiveFrame_header hvalid.header.1 rfl]
    exact ⟨rfl, rfl⟩
  obtain ⟨tr₂, hrun₂, hmain₂⟩ := run_main hsend k
  refine ⟨_, _, hrun₂, ?_, hpc, hdone, hdest.trans hnet.1, hreceived.trans hnet.2, rfl, rfl, rfl⟩
  apply List.forall_mem_append.mpr ⟨List.forall_mem_append.mpr ⟨disciplined_of_main hmain₁, ?_⟩,
    disciplined_of_main hmain₂⟩
  intro x hx _
  rw [List.mem_singleton.mp hx]
  exact .inl ⟨rfl, hidle.waits (by simp)⟩

/-- Frames sent to a destination that is set. -/
theorem run_sends {l : Link} {sent rest : List Frame} {dest size : ℕ} (htodo : l.todo = sent ++ rest)
    (hpc : l.loader.pc = .pollPayload dest size) : ∃ tr l', Run LinkStep l tr l' ∧
      (∀ x ∈ tr, x.2.1 = .send → x.1.Disciplined) ∧ l'.loader.pc = .pollPayload dest size ∧
      l'.todo = rest ∧ l'.current = l.current ∧ l'.later = l.later := by
  induction sent generalizing l with
  | nil => exact ⟨[], l, .nil, fun x hx => absurd hx List.not_mem_nil, hpc, htodo, rfl, rfl⟩
  | cons data sent ih =>
    have hsend : LinkStep l .send { l.receive data with todo := sent ++ rest } :=
      .send htodo (by rw [hpc]; exact id)
    have hone := (.nil : Run LinkStep l [] l).snoc hsend
    obtain ⟨tr, l', hrun, hdisciplined, hpc', htodo', hcurrent, hlater⟩ :=
      @ih { l.receive data with todo := sent ++ rest } rfl hpc
    refine ⟨_, l', hone.append hrun, List.forall_mem_append.mpr ⟨fun x hx _ => ?_, hdisciplined⟩,
      hpc', htodo', hcurrent, hlater⟩
    rw [List.mem_singleton.mp hx]
    exact .inr ⟨dest, size, by rw [hpc]; exact ⟨rfl, rfl⟩⟩

/-- A session whose first data frames have arrived. -/
theorem run_loading {l : Link} (hvalid : l.current.Valid) (hpc : l.loader.pc = .resetDone)
    (htodo : l.todo = l.current.frames) {sent rest : List Frame}
    (hdata : l.current.data = sent ++ rest) {dest : ℕ} (hdest : dest ≠ 0)
    (hend : dest + l.current.size ≤ 2 ^ 64) : ∃ tr l', Run LinkStep l tr l' ∧
      (∀ x ∈ tr, x.2.1 = .send → x.1.Disciplined) ∧
      l'.loader.pc = .pollPayload dest l.current.size ∧ l'.todo = rest ∧ l'.current = l.current ∧
      l'.later = l.later := by
  obtain ⟨tr₁, l₁, hrun₁, hdisc₁, hpc₁, -, -, -, htodo₁, hcurrent₁, hlater₁⟩ :=
    run_announced hvalid hpc htodo
  obtain ⟨tr₂, hrun₂, hquiet⟩ := run_setDest hrun₁ hpc₁ hdest hend
  obtain ⟨tr₃, l', hrun₃, hdisc₃, hpc', htodo', hcurrent', hlater'⟩ :=
    @run_sends { l₁ with
      loader := ⟨{ l₁.loader.net with rxDest := dest, rxExpected := l.current.size, rxReceived := 0 },
        .pollPayload dest l.current.size⟩
      base := l₁.mem } sent rest dest l.current.size (htodo₁.trans hdata) rfl
  refine ⟨_, l', hrun₂.append hrun₃, ?_, hpc', htodo', hcurrent'.trans hcurrent₁,
    hlater'.trans hlater₁⟩
  apply List.forall_mem_append.mpr ⟨List.forall_mem_append.mpr ⟨hdisc₁, ?_⟩, hdisc₃⟩
  intro x hx hx'
  exact absurd hx' (hquiet x hx)

/-! ## One byte -/

/-- Addresses and EtherType. -/
def etherHeader : List UInt8 := List.replicate 12 0 ++ [0x88, 0xB5]

/-- The workload of the one instruction `ret`. -/
def retWorkload : Workload where
  size := 1
  bytes := [0xC3]
  header := etherHeader ++ headerBytes 1
  data := [etherHeader ++ [0xC3]]

theorem retWorkload_valid : retWorkload.Valid := by
  refine ⟨le_rfl, by decide, rfl, ⟨by decide, by decide⟩, fun data hdata => ?_, [], [0xC3], [],
    rfl, rfl, by simp, by simp⟩
  obtain rfl : data = etherHeader ++ [0xC3] := List.mem_singleton.mp hdata
  decide

/-- After boot, with the sender about to stream `retWorkload`. -/
def bootLink : Link where
  loader := ⟨⟨0, 0, 0, false, fun _ => 0, 0, 0, false⟩, .resetDone⟩
  mem := fun _ => 0
  base := fun _ => 0
  current := retWorkload
  todo := retWorkload.frames
  later := []

/-- The header has been read and no data frame has come yet. -/
theorem run_bootLink : ∃ tr l, Run LinkStep bootLink tr l ∧
    (∀ x ∈ tr, x.2.1 = .send → x.1.Disciplined) ∧ l.loader.pc = .alloc 1 ∧
    l.loader.net.hdrDone = true ∧ l.loader.net.rxDest = 0 ∧ l.loader.net.rxReceived = 0 ∧
    l.todo = retWorkload.data ∧ l.current = retWorkload := by
  obtain ⟨tr, l, hrun, hdisciplined, hpc, hdone, hdest, hreceived, htodo, hcurrent, -⟩ :=
    @run_announced bootLink retWorkload_valid rfl rfl
  exact ⟨tr, l, hrun, hdisciplined, hpc, hdone, hdest, hreceived, htodo, hcurrent⟩

theorem bootLink_starts : bootLink.Starts retWorkload [] := ⟨rfl, rfl, rfl, rfl⟩

/-- All frames have come, the byte once the destination was set. -/
theorem run_ret : ∃ tr l, Run LinkStep bootLink tr l ∧
    (∀ x ∈ tr, x.2.1 = .send → x.1.Disciplined) ∧ l.todo = [] ∧
    l.loader.pc = .pollPayload 0xffff900000000000 1 ∧ l.current = retWorkload := by
  obtain ⟨tr, l, hrun, hdisciplined, hpc, htodo, hcurrent, -⟩ :=
    @run_loading bootLink retWorkload_valid rfl rfl _ _ (List.append_nil _).symm 0xffff900000000000
      (by decide) (by decide)
  exact ⟨tr, l, hrun, hdisciplined, htodo, hpc, hcurrent⟩

/-! ## Timing -/

/-- No interleaving of a session loses or misreads a frame, as long as every data frame arrives
after `network_set_dest` has run to its end. -/
theorem transfer_of_paced {w : Workload} (hvalid : w.Valid) {l₀ l : Link} (h0 : l₀.Starts w [])
    {tr : List (Link × LinkEvent × Link)} (hrun : Run LinkStep l₀ tr l)
    (hpaced : ∀ x ∈ tr, x.2.1 = .send → x.1.Paced) :
    (∀ size, l.loader.pc.Announced size → size = w.size) ∧
    (l.todo = [] → ∀ dest size, l.loader.pc.DestSet dest size →
      l.loader.net.rxReceived = w.size ∧
        ∀ i (h : i < w.bytes.length), l.mem (dest + i) = w.bytes[i]) := by
  have hall : ∀ v ∈ [w], v.Valid := fun v hv => List.mem_singleton.mp hv ▸ hvalid
  obtain ⟨hphase, hsuffix⟩ := phase_of_run hall h0 hrun hpaced
  obtain rfl : l.current = w := List.mem_singleton.mp (hsuffix.subset List.mem_cons_self)
  exact ⟨fun size hann => hphase.announced_eq hann,
    fun htodo dest size hset => hphase.transferred hvalid htodo hset⟩

/-- The byte arrives once the destination is set. -/
theorem transfer_of_paced_ret : ∃ tr l, Run LinkStep bootLink tr l ∧ l.todo = [] ∧
    l.loader.pc = .pollPayload 0xffff900000000000 1 ∧ l.loader.net.rxReceived = 1 ∧
    l.mem 0xffff900000000000 = 0xC3 := by
  obtain ⟨tr, l, hrun, hdisciplined, htodo, hpc, -⟩ := run_ret
  have hset : l.loader.pc.DestSet 0xffff900000000000 1 := by
    rw [hpc]
    exact ⟨rfl, rfl⟩
  have hresult := (transfer_of_paced retWorkload_valid bootLink_starts hrun fun x hx hx' =>
    (hdisciplined x hx hx').paced).2 htodo _ _ hset
  exact ⟨tr, l, hrun, htodo, hpc, hresult.1, hresult.2 0 (by decide)⟩

/-- The byte arrives while `vmm_alloc_huge_page` runs, in the first session after boot, and is
dropped. -/
theorem data_before_dest_lost : retWorkload.Valid ∧ bootLink.Starts retWorkload [] ∧
    ∃ tr l, Run LinkStep bootLink tr l ∧ l.todo = [] ∧
      l.loader.pc = .pollPayload 0xffff900000000000 1 ∧ l.loader.net.rxReceived = 0 := by
  obtain ⟨tr, l, hrun, -, hpc, hdone, hdest, -, htodo, -⟩ := run_bootLink
  have hsend := hrun.snoc (.send htodo (by rw [hpc]; exact id))
  have hpc' : (l.receive (etherHeader ++ [0xC3])).loader.pc = .alloc 1 := hpc
  obtain ⟨tr', hset, -⟩ := run_setDest hsend hpc'
    (show 0xffff900000000000 ≠ 0 by decide) (show 0xffff900000000000 + 1 ≤ 2 ^ 64 by decide)
  exact ⟨retWorkload_valid, bootLink_starts, _, _, hset, rfl, rfl, rfl⟩

end MathUnikernel.Network
