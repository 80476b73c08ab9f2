import MathUnikernel.Transfer

/-!
# Junk before the header

`unlock` looks for the magic number in whatever comes; `read_ethernet` ends the header mode by a
count of the bytes of one frame.
-/

namespace MathUnikernel.Network
open ByteStore Runs

/-- The main loop has just left `reset_header`, and these frames are on their way. -/
structure AfterReset (l : Link) (frames : List Frame) : Prop where
  pc : l.loader.pc = .read (.unlock 0) .enter
  reset : HeaderReset l.loader.net
  todo : l.todo = frames
  later : l.later = []

/-- What a state guarantees when the header for `size` comes last. -/
structure Resync (l : Link) (size : ℕ) : Prop where
  /-- `hdr_done` is set only once the magic number and the size have been read. -/
  hdrDone : l.loader.net.hdrDone = true → l.loader.pc.Announced size
  /-- Before the header `unlock` goes on looking. -/
  searching : l.todo ≠ [] → ∃ magic r, l.loader.pc = .read (.unlock magic) r
  waits : l.todo ≠ [] → ∃ k, (Loader.step^[k] l.loader).Waits
  announces : l.todo = [] → ∃ k, (Loader.step^[k] l.loader).pc.Announced size

/-- The reader finds the header in every run that delivers each frame while it waits. -/
def Resyncs (l₀ : Link) (size : ℕ) : Prop :=
  ∀ tr l, Run LinkStep l₀ tr l → (∀ x ∈ tr, x.2.1 = .send → x.1.loader.Waits) → Resync l size

/-! ## Progress through junk -/

/-- A short frame is read to its end. -/
theorem Junk.progress {l : Loader} (h : Junk l) (hlen : l.net.hdrLen < 12) :
    ∃ k magic, NoMagic magic ∧ Idle (Loader.step^[k] l) magic .enter := by
  refine exists_iterate_of_rank (I := fun t => Junk t ∧ t.net.hdrLen < 12)
    (Q := fun t => ∃ magic, NoMagic magic ∧ Idle t magic .enter) Loader.rank (fun t ht => ?_) ⟨h, hlen⟩
  right
  rcases ht.1.step with ⟨hnext, hrank, hsame⟩ | ⟨hidle, -⟩ | ⟨-, -, hlong⟩
  · exact .inr ⟨⟨hnext, hsame.trans_lt ht.2⟩, hrank⟩
  · exact .inl hidle
  · exact absurd ht.2 (Nat.not_lt.mpr hlong)

/-- Twelve bytes of a longer one end the header mode. -/
theorem Junk.progress_done {l : Loader} (h : Junk l) (hlen : 12 ≤ l.net.hdrLen) :
    ∃ k, (Loader.step^[k] l).net.hdrDone = true ∧
      ∃ caller r, (Loader.step^[k] l).pc = .read caller r := by
  refine exists_iterate_of_rank (I := fun t => Junk t ∧ 12 ≤ t.net.hdrLen)
    (Q := fun t => t.net.hdrDone = true ∧ ∃ caller r, t.pc = .read caller r) Loader.rank
    (fun t ht => ?_) ⟨h, hlen⟩
  right
  rcases ht.1.step with ⟨hnext, hrank, hsame⟩ | ⟨-, hshort⟩ | ⟨hdone, hpc, -⟩
  · exact .inr ⟨⟨hnext, hsame.symm ▸ ht.2⟩, hrank⟩
  · exact absurd hshort (Nat.not_lt.mpr ht.2)
  · exact .inl ⟨hdone, hpc⟩

theorem Junk.not_waits {l : Loader} (h : Junk l) : ¬l.Waits := by
  obtain ⟨-, magic, c, r, -, hr⟩ := h
  exact hr.not_waits

/-! ## Runs -/

/-- The states of a run whose junk frames are all shorter than the header. -/
inductive Search (size : ℕ) (header : Frame) (l : Link) : Prop
  | idle (magic : ℕ) (r : ReadPc) (rest : List Frame) :
      NoMagic magic → Idle l.loader magic r → l.todo = rest ++ [header] →
      (∀ f ∈ rest, (payload f).length < 12 ∧ ∀ byte ∈ payload f, byte ≠ 0x47) → Search size header l
  | junk (rest : List Frame) :
      Junk l.loader → l.loader.net.hdrLen < 12 → l.todo = rest ++ [header] →
      (∀ f ∈ rest, (payload f).length < 12 ∧ ∀ byte ∈ payload f, byte ≠ 0x47) → Search size header l
  | announcing (magic : ℕ) : Announcing magic size l.loader → l.todo = [] → Search size header l
  | announced : l.loader.pc.Announced size → l.todo = [] → Search size header l

theorem announced_step {l : Loader} {size : ℕ} (h : l.pc.Announced size) :
    l.step.pc.Announced size := by
  obtain ⟨net, pc⟩ := l
  cases pc with
  | pollPayload dest n =>
    simp only [Loader.step]
    split_ifs
    · exact h
    · exact h
  | alloc | setDest | setExpected | setReceived | loaded => exact h
  | _ => exact absurd h id

theorem Search.main {size : ℕ} (hsize : size < 2 ^ 64) {header : Frame} {l : Link}
    (h : Search size header l) : Search size header { l with loader := l.loader.step } := by
  cases h with
  | idle magic r rest hmagic hidle htodo hrest =>
    obtain ⟨r', hidle', -⟩ := hidle.step
    exact .idle magic r' rest hmagic hidle' htodo hrest
  | junk rest hjunk hlen htodo hrest =>
    rcases hjunk.step with ⟨hnext, -, hsame⟩ | ⟨⟨magic, hmagic, hidle⟩, -⟩ | ⟨-, -, hlong⟩
    · exact .junk rest hnext (hsame.trans_lt hlen) htodo hrest
    · exact .idle magic .enter rest hmagic hidle htodo hrest
    · exact absurd hlen (Nat.not_lt.mpr hlong)
  | announcing magic hann htodo =>
    rcases hann.step hsize with ⟨hnext, -⟩ | ⟨hpc, -⟩
    · exact .announcing magic hnext htodo
    · refine .announced ?_ htodo
      change l.loader.step.pc.Announced size
      rw [hpc]
      rfl
  | announced hann htodo => exact .announced (announced_step hann) htodo

theorem Search.send {size : ℕ} {header : Frame} (hheader : IsHeader size header) {l : Link}
    {data : Frame} {rest : List Frame} (h : Search size header l) (hwaits : l.loader.Waits)
    (htodo : l.todo = data :: rest) :
    Search size header { l.receive data with todo := rest } := by
  cases h with
  | idle magic r rest' hmagic hidle htodo' hrest =>
    cases rest' with
    | nil =>
      obtain ⟨rfl, rfl⟩ := List.cons.inj (htodo.symm.trans htodo')
      exact .announcing magic (hidle.receive_header hheader) rfl
    | cons f rest' =>
      obtain ⟨rfl, rfl⟩ := List.cons.inj (htodo.symm.trans htodo')
      have hrest' := fun g hg => hrest g (List.mem_cons_of_mem _ hg)
      obtain ⟨hlen, hbytes⟩ := hrest data List.mem_cons_self
      by_cases hdata : IsCustom data
      · obtain ⟨hjunk, hlen'⟩ := hidle.receive_junk hmagic hdata hbytes
        refine .junk rest' hjunk ?_ rfl hrest'
        change (networkReceiveFrame l.loader.net data).net.hdrLen < 12
        omega
      · rw [receive_foreign hdata]
        exact .idle magic r rest' hmagic hidle rfl hrest'
  | junk rest' hjunk => exact absurd hwaits hjunk.not_waits
  | announcing magic hann htodo' => exact absurd (htodo.symm.trans htodo') (by simp)
  | announced hann htodo' => exact absurd (htodo.symm.trans htodo') (by simp)

theorem Search.alloc {size n dest : ℕ} {header : Frame} {l : Link} (h : Search size header l)
    (mem : ℕ → UInt8) (hpc : l.loader.pc = .alloc n) : Search size header
      { l with loader := { l.loader with pc := .setDest dest n }, mem, base := mem } := by
  cases h with
  | idle magic r rest hmagic hidle => exact absurd (hidle.pc.symm.trans hpc) (by simp)
  | junk rest hjunk =>
    obtain ⟨-, magic, c, r, -, hr⟩ := hjunk
    exact absurd (hr.pc.symm.trans hpc) (by simp)
  | announcing magic hann =>
    obtain ⟨-, c, -, r, hr⟩ := hann
    exact absurd (hr.pc.symm.trans hpc) (by simp)
  | announced hann htodo =>
    rw [hpc] at hann
    exact .announced hann htodo

theorem Search.step {size : ℕ} (hsize : size < 2 ^ 64) {header : Frame} (hheader : IsHeader size header)
    {l l' : Link} {e : LinkEvent} (h : Search size header l) (hlater : l.later = [])
    (hwaits : e = .send → l.loader.Waits) (hstep : LinkStep l e l') : Search size header l' := by
  cases hstep with
  | main => exact h.main hsize
  | @alloc n dest mem hpc => exact h.alloc mem hpc
  | foreign hdata =>
    rw [receive_foreign hdata]
    exact h
  | send htodo hreset => exact h.send hheader (hwaits rfl) htodo
  | next hpc hnext => exact absurd (hlater.symm.trans hnext) (by simp)

theorem later_step {l l' : Link} {e : LinkEvent} (hlater : l.later = []) (h : LinkStep l e l') :
    l'.later = [] := by
  cases h with
  | next hpc hnext => exact absurd (hlater.symm.trans hnext) (by simp)
  | _ => exact hlater

theorem Search.resync {size : ℕ} (hsize : size < 2 ^ 64) {header : Frame} {l : Link}
    (h : Search size header l) : Resync l size := by
  cases h with
  | idle magic r rest hmagic hidle htodo hrest =>
    have hne : l.todo ≠ [] := by simp [htodo]
    exact ⟨fun hdone => absurd (hidle.hdrDone.symm.trans hdone) (by simp),
      fun _ => ⟨magic, r, hidle.pc⟩, fun _ => hidle.eventually_waits, fun hnil => absurd hnil hne⟩
  | junk rest hjunk hlen htodo hrest =>
    have hne : l.todo ≠ [] := by simp [htodo]
    obtain ⟨k, magic, -, hidle⟩ := hjunk.progress hlen
    obtain ⟨r', hidle', hr', -⟩ := hidle.step
    have hwaits := hidle'.waits hr'
    rw [← Function.iterate_succ_apply' Loader.step k l.loader] at hwaits
    obtain ⟨-, magic', c, r, -, hr⟩ := hjunk
    exact ⟨fun hdone => absurd (hr.hdrDone.symm.trans hdone) (by simp), fun _ => ⟨_, r, hr.pc⟩,
      fun _ => ⟨_, hwaits⟩, fun hnil => absurd hnil hne⟩
  | announcing magic hann htodo =>
    obtain ⟨k, hpc, -⟩ := hann.progress hsize
    obtain ⟨-, c, -, r, hr⟩ := hann
    refine ⟨fun hdone => absurd (hr.hdrDone.symm.trans hdone) (by simp),
      fun hne => absurd htodo hne, fun hne => absurd htodo hne, fun _ => ⟨k, ?_⟩⟩
    rw [hpc]
    rfl
  | announced hann htodo =>
    exact ⟨fun _ => hann, fun hne => absurd htodo hne, fun hne => absurd htodo hne,
      fun _ => ⟨0, hann⟩⟩

theorem resyncs_of_short {size : ℕ} (hsize : size < 2 ^ 64) {header : Frame}
    (hheader : IsHeader size header) {junk : List Frame}
    (hjunk : ∀ f ∈ junk, (payload f).length < 12 ∧ ∀ byte ∈ payload f, byte ≠ 0x47) {l₀ : Link}
    (h0 : AfterReset l₀ (junk ++ [header])) : Resyncs l₀ size := by
  intro tr l hrun hwaits
  have hidle : Idle l₀.loader 0 .enter := ⟨h0.pc, h0.reset.hdrDone, .inl h0.reset.rxReady⟩
  have hinv := hrun.invariant_of_guard (I := fun l => Search size header l ∧ l.later = [])
    (G := fun l e => e = .send → l.loader.Waits)
    ⟨.idle 0 .enter junk noMagic_zero hidle h0.todo hjunk, h0.later⟩
    (fun l e l' hl hG hstep => ⟨hl.1.step hsize hheader hl.2 hG hstep, later_step hl.2 hstep⟩)
    fun x hx => hwaits x hx
  exact hinv.1.1.resync hsize

/-! ## A long frame -/

/-- A frame is delivered at the next step at which `unlock` waits. -/
theorem run_send {l₀ l : Link} {tr : List (Link × LinkEvent × Link)} (hrun : Run LinkStep l₀ tr l)
    (hwaits : ∀ x ∈ tr, x.2.1 = .send → x.1.loader.Waits) {magic : ℕ} {r : ReadPc}
    (hidle : Idle l.loader magic r) {data : Frame} {rest : List Frame} (htodo : l.todo = data :: rest) :
    ∃ tr' r', Idle l.loader.step magic r' ∧
      Run LinkStep l₀ tr' { ({ l with loader := l.loader.step } : Link).receive data with todo := rest } ∧
      ∀ x ∈ tr', x.2.1 = .send → x.1.loader.Waits := by
  obtain ⟨r', hidle', hne, -⟩ := hidle.step
  have hreset : ¬l.loader.step.pc.Resetting := by
    rw [hidle'.pc]
    exact id
  have hmain := hrun.snoc (LinkStep.main l)
  refine ⟨_, r', hidle', hmain.snoc (.send htodo hreset), fun x hx hx' => ?_⟩
  rcases List.mem_append.mp hx with hx | hx
  · rcases List.mem_append.mp hx with hx | hx
    · exact hwaits x hx hx'
    · obtain rfl := List.mem_singleton.mp hx
      exact absurd hx' (by simp)
  · obtain rfl := List.mem_singleton.mp hx
    exact hidle'.waits hne

theorem run_main_waits {l₀ l : Link} {tr : List (Link × LinkEvent × Link)}
    (hrun : Run LinkStep l₀ tr l) (hwaits : ∀ x ∈ tr, x.2.1 = .send → x.1.loader.Waits) (k : ℕ) :
    ∃ tr', Run LinkStep l₀ tr' { l with loader := Loader.step^[k] l.loader } ∧
      ∀ x ∈ tr', x.2.1 = .send → x.1.loader.Waits := by
  obtain ⟨tr', hmain, hlabel⟩ := run_main hrun k
  refine ⟨_, hmain, fun x hx hx' => ?_⟩
  rcases List.mem_append.mp hx with hx | hx
  · exact hwaits x hx hx'
  · exact absurd ((hlabel x hx).symm.trans hx') (by simp)

theorem payload_eq_nil {data : Frame} (htype : etherType data = ethertypeCustom)
    (h : ¬IsCustom data) : payload data = [] :=
  List.drop_of_length_le (Nat.le_of_not_lt fun hlen => h ⟨hlen, htype⟩)

/-- The run delivers the junk frames one by one, up to one of 12 bytes or more. -/
theorem not_resyncs_of_long {size : ℕ} {frames junk : List Frame} (hjunk : ∀ f ∈ junk,
      etherType f = ethertypeCustom ∧ ∀ byte ∈ payload f, byte ≠ 0x47)
    (hlong : ∃ f ∈ junk, 12 ≤ (payload f).length) {l₀ l : Link} {magic : ℕ} {r : ReadPc}
    {tr : List (Link × LinkEvent × Link)} (hrun : Run LinkStep l₀ tr l)
    (hwaits : ∀ x ∈ tr, x.2.1 = .send → x.1.loader.Waits) (hmagic : NoMagic magic)
    (hidle : Idle l.loader magic r) (htodo : l.todo = junk ++ frames) : ¬Resyncs l₀ size := by
  induction junk generalizing l magic r tr with
  | nil =>
    obtain ⟨f, hf, -⟩ := hlong
    exact absurd hf List.not_mem_nil
  | cons f junk ih =>
    obtain ⟨htype, hbytes⟩ := hjunk f List.mem_cons_self
    have hjunk' := fun g hg => hjunk g (List.mem_cons_of_mem _ hg)
    obtain ⟨tr₁, r', hidle', hrun₁, hwaits₁⟩ := run_send hrun hwaits hidle htodo
    by_cases hshort : (payload f).length < 12
    · have hlong' : ∃ f ∈ junk, 12 ≤ (payload f).length := by
        obtain ⟨g, hg, hlen⟩ := hlong
        rcases List.mem_cons.mp hg with rfl | hg
        · omega
        · exact ⟨g, hg, hlen⟩
      by_cases hdata : IsCustom f
      · obtain ⟨hreading, hlen⟩ := hidle'.receive_junk hmagic hdata hbytes
        obtain ⟨k, magic', hmagic', hidle₂⟩ := hreading.progress (by
          change (networkReceiveFrame l.loader.step.net f).net.hdrLen < 12
          omega)
        obtain ⟨tr₂, hrun₂, hwaits₂⟩ := run_main_waits hrun₁ hwaits₁ k
        exact ih hjunk' hlong' hrun₂ hwaits₂ hmagic' hidle₂ rfl
      · rw [receive_foreign hdata] at hrun₁
        exact ih hjunk' hlong' hrun₁ hwaits₁ hmagic hidle' rfl
    · have hdata : IsCustom f := by
        by_contra hdata
        exact hshort (by simp [payload_eq_nil htype hdata])
      obtain ⟨hreading, hlen⟩ := hidle'.receive_junk hmagic hdata hbytes
      obtain ⟨k, hdone, caller, r₂, hpc⟩ := hreading.progress_done (by
        change 12 ≤ (networkReceiveFrame l.loader.step.net f).net.hdrLen
        omega)
      obtain ⟨tr₂, hrun₂, hwaits₂⟩ := run_main_waits hrun₁ hwaits₁ k
      intro hresyncs
      have hann : (Loader.step^[k] ⟨(networkReceiveFrame l.loader.step.net f).net,
          l.loader.step.pc⟩).pc.Announced size := (hresyncs tr₂ _ hrun₂ hwaits₂).hdrDone hdone
      rw [hpc] at hann
      exact hann

/-- The property holds of a sequence of junk frames without `0x47` exactly if each is shorter than
the header. -/
theorem resyncs_iff {size : ℕ} (hsize : size < 2 ^ 64) {header : Frame}
    (hheader : IsHeader size header) {junk : List Frame} (hjunk : ∀ f ∈ junk,
      etherType f = ethertypeCustom ∧ ∀ byte ∈ payload f, byte ≠ 0x47) {l₀ : Link}
    (h0 : AfterReset l₀ (junk ++ [header])) :
    Resyncs l₀ size ↔ ∀ f ∈ junk, (payload f).length < 12 := by
  refine ⟨fun h => ?_, fun h =>
    resyncs_of_short hsize hheader (fun f hf => ⟨h f hf, (hjunk f hf).2⟩) h0⟩
  by_contra hlong
  have hlong' : ∃ f ∈ junk, 12 ≤ (payload f).length := by simpa using hlong
  have hidle : Idle l₀.loader 0 .enter := ⟨h0.pc, h0.reset.hdrDone, .inl h0.reset.rxReady⟩
  exact not_resyncs_of_long hjunk hlong' .nil (fun x hx => absurd hx List.not_mem_nil) noMagic_zero
    hidle h0.todo h

/-! ## Junk of two lengths -/

/-- After `reset_header` in the first session, with a frame ahead of the header for one byte. -/
def junkLink (junk : Frame) : Link where
  loader := ⟨⟨0, 0, 0, false, fun _ => 0, 0, 0, false⟩, .read (.unlock 0) .enter⟩
  mem := fun _ => 0
  base := fun _ => 0
  current := retWorkload
  todo := [junk, retWorkload.header]
  later := []

theorem junkLink_afterReset (junk : Frame) : AfterReset (junkLink junk) ([junk] ++ [retWorkload.header]) :=
  ⟨rfl, ⟨rfl, rfl, rfl, rfl⟩, rfl, rfl⟩

theorem payload_etherHeader (bytes : List UInt8) : payload (etherHeader ++ bytes) = bytes :=
  List.drop_left' (by decide)

theorem etherType_etherHeader (bytes : List UInt8) :
    etherType (etherHeader ++ bytes) = ethertypeCustom := by
  rw [etherType, List.getD_append _ _ _ _ (by decide), List.getD_append _ _ _ _ (by decide)]
  decide

theorem junk_etherHeader {bytes : List UInt8} (h : ∀ byte ∈ bytes, byte ≠ 0x47) :
    ∀ f ∈ [etherHeader ++ bytes], etherType f = ethertypeCustom ∧ ∀ byte ∈ payload f, byte ≠ 0x47 := by
  intro f hf
  rw [List.mem_singleton.mp hf, payload_etherHeader]
  exact ⟨etherType_etherHeader bytes, h⟩

/-- Two bytes of junk do no harm. -/
theorem resyncs_iff_two : Resyncs (junkLink (etherHeader ++ [1, 2])) 1 := by
  have hbytes : ∀ byte ∈ ([1, 2] : List UInt8), byte ≠ 0x47 := by simp
  have hheader : IsHeader 1 retWorkload.header := retWorkload_valid.header
  refine (resyncs_iff (by norm_num) hheader (junk_etherHeader hbytes)
    (junkLink_afterReset _)).mpr fun f hf => ?_
  rw [List.mem_singleton.mp hf, payload_etherHeader]
  decide

/-- Twelve bytes of junk end the header mode. -/
theorem not_resyncs_twelve : (∀ byte ∈ payload (etherHeader ++ List.replicate 12 1), byte ≠ 0x47) ∧
    ¬Resyncs (junkLink (etherHeader ++ List.replicate 12 1)) 1 := by
  have hbytes : ∀ byte ∈ List.replicate 12 (1 : UInt8), byte ≠ 0x47 := by simp
  have hlong : 12 ≤ (payload (etherHeader ++ List.replicate 12 1)).length := by
    rw [payload_etherHeader, List.length_replicate]
  have h0 := junkLink_afterReset (etherHeader ++ List.replicate 12 1)
  have hidle : Idle (junkLink (etherHeader ++ List.replicate 12 1)).loader 0 .enter :=
    ⟨h0.pc, h0.reset.hdrDone, .inl h0.reset.rxReady⟩
  exact ⟨hbytes, not_resyncs_of_long (junk_etherHeader hbytes) ⟨_, List.mem_cons_self, hlong⟩
    .nil (fun x hx => absurd hx List.not_mem_nil) noMagic_zero hidle h0.todo⟩

end MathUnikernel.Network
