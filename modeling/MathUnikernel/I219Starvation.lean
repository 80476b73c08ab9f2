import MathUnikernel.I219Mailbox
import MathUnikernel.SessionPhases
import MathUnikernel.Wire

/-!
# The I219 after its first packet

A drained ring leaves the card no descriptor, and nothing gives it one again.
-/

namespace MathUnikernel.I219
open Mailbox Network Runs

/-! ## The ring -/

/-- The card has no descriptor, and the contexts have nothing to do. -/
structure Starved (s : Driver) : Prop where
  rdh : s.rdh = s.rdt
  dd : (s.desc s.rxTail).dd = false
  main : s.main = none ∨ s.main = some .test
  handler : s.handler = none ∨ s.handler = some .test

theorem RingInv.starved {s : Driver} {d : ℕ} (h : RingInv s d) (hdrained : s.Drained)
    (hstored : s.stored ≠ []) : Starved s := by
  have hd : d = s.stored.length := by
    rw [← h.processed_eq hdrained]
    refine h.synced ?_ ?_
    · simp [hdrained.main, Writing]
    · simp [hdrained.handler, Writing]
  have hne : s.stored.length ≠ 0 := fun hzero => hstored (List.length_eq_zero_iff.mp hzero)
  refine ⟨?_, hdrained.dd, .inl hdrained.main, .inl hdrained.handler⟩
  rw [h.core.rdh, h.core.rdt, hd, released, if_neg hne]
  exact (Nat.add_mod_right _ numRxDesc).symm

/-- The test finds nothing. -/
theorem Starved.test {s : Driver} (h : Starved s) : s.statement .test = (s, none) := by
  simp [Driver.statement, h.dd]

/-- No step gives the card a descriptor. -/
theorem Starved.step {s t : Driver} {e : Event} (h : Starved s) (hstep : Step s e t) :
    Starved t ∧ t.stored = s.stored ∧ t.passed = s.passed ∧ ∀ p, e ≠ .nic p := by
  unfold Step Driver.step at hstep
  cases e with
  | nic p =>
    simp only at hstep
    split_ifs at hstep with hok
    exact absurd h.rdh hok.1
  | poll =>
    simp only at hstep
    split_ifs at hstep with hok
    obtain rfl := Option.some.inj hstep
    exact ⟨⟨h.rdh, h.dd, .inr rfl, h.handler⟩, rfl, rfl, by simp⟩
  | irq =>
    simp only at hstep
    split_ifs at hstep with hok
    obtain rfl := Option.some.inj hstep
    exact ⟨⟨h.rdh, h.dd, h.main, .inr rfl⟩, rfl, rfl, by simp⟩
  | cpu =>
    rcases h.handler with hhandler | hhandler
    · rcases h.main with hmain | hmain
      · simp only [hhandler, hmain] at hstep
        exact absurd hstep (by simp)
      · simp only [hhandler, hmain, h.test] at hstep
        obtain rfl := Option.some.inj hstep
        exact ⟨⟨h.rdh, h.dd, .inl rfl, .inl rfl⟩, rfl, rfl, by simp⟩
    · simp only [hhandler, h.test] at hstep
      obtain rfl := Option.some.inj hstep
      exact ⟨⟨h.rdh, h.dd, h.main, .inl rfl⟩, rfl, rfl, by simp⟩

/-- Once the driver has drained the ring, no packet is stored any more. -/
theorem ring_starves_forever {desc : ℕ → Descriptor} {buffer : ℕ → ℕ → UInt8}
    {tr tr' : List (Driver × Event × Driver)} {s t : Driver}
    (hrun : Run Step (i219Init desc buffer) tr s) (hfree : ∀ x ∈ tr, x.2.1 = .irq → x.1.Free)
    (hdrained : s.Drained) (hstored : s.stored ≠ []) (hrun' : Run Step s tr' t) :
    t.stored = s.stored ∧ t.passed = s.passed ∧ ∀ x ∈ tr', ∀ p, x.2.1 ≠ .nic p := by
  obtain ⟨d, hinv⟩ := ringInv_of_run hrun hfree
  have hstart : Starved s ∧ s.stored = s.stored ∧ s.passed = s.passed :=
    ⟨hinv.starved hdrained hstored, rfl, rfl⟩
  obtain ⟨hend, hall⟩ := hrun'.invariant
    (I := fun u => Starved u ∧ u.stored = s.stored ∧ u.passed = s.passed) hstart
    fun u e v hu hstep => by
      obtain ⟨hv, hvstored, hvpassed, -⟩ := hu.1.step hstep
      exact ⟨hv, hvstored.trans hu.2.1, hvpassed.trans hu.2.2⟩
  refine ⟨hend.2.1, hend.2.2, fun x hx => ?_⟩
  exact ((hall x hx).1.1.step (hrun'.step_of_mem hx)).2.2.2

/-- The frame of the first packet is the only one. -/
theorem ring_starves_forever_one : ∃ tr s, Run Step blankRing tr s ∧ s.Drained ∧
    s.passed = [[0xC3]] ∧ ∀ tr' t, Run Step s tr' t → t.passed = [[0xC3]] := by
  obtain ⟨s, hs⟩ := Option.isSome_iff_exists.mp (by decide :
    ((Event.nic onePacket :: .poll :: List.replicate 9 Event.cpu).foldlM Driver.step
      blankRing).isSome = true)
  obtain ⟨tr, hrun, hlabels⟩ := run_of_events hs
  have hfree : ∀ x ∈ tr, x.2.1 = .irq → x.1.Free := by
    intro x hx hirq
    exact absurd hirq (ne_of_not_mem_labels hlabels (by simp) x hx)
  have hpassed : s.passed = [[0xC3]] := by
    obtain rfl := Option.some.inj hs
    rfl
  have hdrained : s.Drained := by
    obtain rfl := Option.some.inj hs
    exact ⟨rfl, rfl, by decide⟩
  have hstored : s.stored ≠ [] := by
    obtain rfl := Option.some.inj hs
    exact List.cons_ne_nil _ _
  refine ⟨tr, s, hrun, hdrained, hpassed, fun tr' t hrun' => ?_⟩
  rw [(ring_starves_forever hrun hfree hdrained hstored hrun').2.1, hpassed]

/-! ## The kernel -/

/-- Between two calls of `i219_poll_rx` nothing has been passed on, or the card is starved. -/
def Silent (s : Driver) : Prop :=
  s.polling = false → s.passed = [] ∨ Starved s

theorem Silent.step {s t : Driver} {d : ℕ} {e : Event} (h : Silent s) (hinv : RingInv t d)
    (hstep : Step s e t) : Silent t := by
  intro hpolling
  cases e with
  | cpu =>
    obtain ⟨pc, hturn⟩ := turn_of_cpu hstep
    obtain ⟨hdrained, -⟩ := hturn.left hpolling
    by_cases hstored : t.stored = []
    · -- the driver has polled an empty ring
      have hfirst := hinv.passed_first
      rw [hstored] at hfirst
      exact .inl (List.prefix_nil.mp hfirst)
    · exact .inr (hinv.starved hdrained hstored)
  | nic p =>
    unfold Step Driver.step at hstep
    simp only at hstep
    split_ifs at hstep with hok
    obtain rfl := Option.some.inj hstep
    rcases h hpolling with hnone | hstarved
    · exact .inl hnone
    · exact absurd hstarved.rdh hok.1
  | poll | irq =>
    unfold Step Driver.step at hstep
    simp only at hstep
    split_ifs at hstep with hok
    obtain rfl := Option.some.inj hstep
    simp [Driver.polling] at hpolling

theorem driver_of_step {s t : System} {e : Event} (h : SystemStep s e t) :
    t.driver = s.driver ∨ ∃ e', Step s.driver e' t.driver := by
  unfold SystemStep System.step at h
  cases e with
  | nic p =>
    obtain ⟨u, hu, rfl⟩ := Option.map_eq_some_iff.mp h
    exact .inr ⟨_, hu⟩
  | poll =>
    simp only at h
    split_ifs at h
    obtain ⟨u, hu, rfl⟩ := Option.map_eq_some_iff.mp h
    exact .inr ⟨_, hu⟩
  | irq =>
    simp only at h
    split_ifs at h
    obtain rfl := Option.some.inj h
    exact .inl rfl
  | cpu =>
    simp only at h
    split_ifs at h
    · obtain ⟨u, hu, rfl⟩ := Option.map_eq_some_iff.mp h
      exact .inr ⟨_, hu⟩
    · obtain ⟨u, hu, rfl⟩ := Option.map_eq_some_iff.mp h
      exact .inr ⟨_, hu⟩

/-- `read_ethernet` waits for the first byte, or `reset_header` has yet to run to its end. -/
structure Waiting (l : Loader) : Prop where
  rxReady : l.net.rxReady = false
  hdrDone : l.net.hdrDone = false
  pc : l.pc.Resetting ∨ l.pc = .read (.unlock 0) .enter ∨ l.pc = .read (.unlock 0) .testReady

theorem Waiting.step {l : Loader} (h : Waiting l) : Waiting l.step := by
  obtain ⟨net, pc⟩ := l
  obtain ⟨hready, hdone, hpc⟩ := h
  change net.rxReady = false at hready
  change net.hdrDone = false at hdone
  rcases hpc with hreset | rfl | rfl
  · cases pc with
    | resetDone | resetLen | resetRead => exact ⟨hready, by simp [Loader.step, hdone], .inl trivial⟩
    | resetReady => exact ⟨rfl, hdone, .inr (.inl rfl)⟩
    | _ => exact absurd hreset id
  · refine ⟨hready, hdone, .inr (.inr ?_)⟩
    simp [Loader.step, readStep, hdone]
  · refine ⟨?_, ?_, .inr (.inr ?_)⟩ <;> simp [Loader.step, readStep, hready, hdone]

theorem Waiting.pc_ne {l : Loader} (h : Waiting l) :
    (∀ size, l.pc ≠ .alloc size) ∧ ∀ dest size, l.pc ≠ .loaded dest size := by
  rcases h.pc with hreset | hread | hread
  · refine ⟨fun size heq => ?_, fun dest size heq => ?_⟩
    · rwa [heq] at hreset
    · rwa [heq] at hreset
  · rw [hread]
    simp
  · rw [hread]
    simp

/-- A frame that comes before the header has been read only fills the header buffer. -/
theorem deliver_fresh {l : Link} (h : l.loader.net.hdrDone = false) (data : Frame) :
    (l.deliver data).loader.pc = l.loader.pc ∧ (l.deliver data).loader.net.hdrDone = false ∧
      (l.deliver data).loader.net.rxReceived = l.loader.net.rxReceived := by
  unfold Link.deliver
  split_ifs with hcustom
  · unfold Link.receive
    rw [networkReceiveFrame_header hcustom h]
    exact ⟨rfl, h, rfl⟩
  · rw [receive_foreign hcustom]
    exact ⟨rfl, h, rfl⟩

theorem foldl_deliver_fresh (fs : List Frame) {l : Link} (h : l.loader.net.hdrDone = false) :
    (fs.foldl Link.deliver l).loader.pc = l.loader.pc ∧
      (fs.foldl Link.deliver l).loader.net.hdrDone = false ∧
      (fs.foldl Link.deliver l).loader.net.rxReceived = l.loader.net.rxReceived := by
  induction fs generalizing l with
  | nil => exact ⟨rfl, h, rfl⟩
  | cons data fs ih =>
    obtain ⟨hpc, hdone, hreceived⟩ := deliver_fresh h data
    obtain ⟨hpc', hdone', hreceived'⟩ := ih hdone
    exact ⟨hpc'.trans hpc, hdone', hreceived'.trans hreceived⟩

/-- No step of the main loop counts a byte, and `poll_payload` returns without one only for an empty
workload. -/
theorem step_silent {l : Loader} (hreceived : l.net.rxReceived = 0)
    (hloaded : ∀ dest size, l.pc = .loaded dest size → size = 0) :
    l.step.net.rxReceived = 0 ∧ ∀ dest size, l.step.pc = .loaded dest size → size = 0 := by
  by_cases hbefore : l.pc.BeforeDest
  · obtain ⟨hpc, -, hsame⟩ := Loader.step_beforeDest hbefore
    refine ⟨hsame.trans hreceived, fun dest size heq => ?_⟩
    rw [heq] at hpc
    exact absurd hpc id
  · obtain ⟨net, pc⟩ := l
    change net.rxReceived = 0 at hreceived
    cases pc with
    | setDest | setExpected => exact ⟨hreceived, fun dest size heq => by simp [Loader.step] at heq⟩
    | setReceived => exact ⟨rfl, fun dest size heq => by simp [Loader.step] at heq⟩
    | pollPayload d n =>
      unfold Loader.step
      simp only [hreceived]
      split_ifs with hmore
      · exact ⟨hreceived, fun dest size heq => by simp at heq⟩
      · refine ⟨hreceived, fun dest size heq => ?_⟩
        obtain ⟨-, rfl⟩ := Pc.loaded.inj heq
        exact Nat.eq_zero_of_not_pos hmore
    | loaded d n => exact ⟨hreceived, hloaded⟩
    | _ => exact absurd trivial hbefore

/-- No byte of a workload has been counted: either the card is starved, or only the header buffer has
been filled. -/
structure Deaf (c : Wire System) : Prop where
  inv : SystemInv c.driver
  silent : Silent c.driver.driver
  rxReceived : c.link.loader.net.rxReceived = 0
  loaded : ∀ dest size, c.link.loader.pc = .loaded dest size → size = 0
  cause : Starved c.driver.driver ∨ (c.link.loader.net.hdrDone = false ∧
    (c.driver.driver.passed = [] → Waiting c.link.loader))

/-- The main loop runs only between two calls of `i219_poll_rx`. -/
def Exclusive (x : Wire System × WireEvent Event × Wire System) : Prop :=
  (∀ e, x.2.1 ≠ .driver e) → x.1.driver.driver.polling = false

/-- The card and the driver. -/
theorem Deaf.driver {c : Wire System} (h : Deaf c) {e : Event} {s : System}
    (hallowed : receiver.Allowed c.driver e) (hstep : SystemStep c.driver e s) (rest : List Frame) :
    Deaf ⟨s, (passedOn receiver c.driver s).foldl Link.deliver c.link, rest⟩ := by
  obtain ⟨hinv, hgrows⟩ := receiver.taken_prefix (Run.nil.snoc hstep)
    (fun x hx => List.mem_singleton.mp hx ▸ hallowed) h.inv
  have hgrows : c.driver.driver.passed <+: s.driver.passed := hgrows
  have hkeep : s.driver.passed = c.driver.driver.passed →
      (passedOn receiver c.driver s).foldl Link.deliver c.link = c.link := by
    intro hsame
    rw [passedOn_of_eq (R := receiver) (s := c.driver) (t := s) hsame]
    rfl
  have hsilent : Silent s.driver := by
    obtain ⟨d, hring⟩ := SystemInv.ring hinv
    rcases driver_of_step hstep with hsame | ⟨e', hstep'⟩
    · rw [hsame]
      exact h.silent
    · exact h.silent.step hring hstep'
  rcases h.cause with hstarved | ⟨hdone, hwaiting⟩
  · have hstarved' : Starved s.driver ∧ s.driver.passed = c.driver.driver.passed := by
      rcases driver_of_step hstep with hsame | ⟨e', hstep'⟩
      · rw [hsame]
        exact ⟨hstarved, rfl⟩
      · obtain ⟨hs, -, hpassed, -⟩ := hstarved.step hstep'
        exact ⟨hs, hpassed⟩
    rw [hkeep hstarved'.2]
    exact ⟨hinv, hsilent, h.rxReceived, h.loaded, .inl hstarved'.1⟩
  · obtain ⟨hpc, hdone', hreceived⟩ :=
      foldl_deliver_fresh (passedOn receiver c.driver s) hdone
    refine ⟨hinv, hsilent, hreceived.trans h.rxReceived, fun dest size heq => ?_,
      .inr ⟨hdone', fun hnone => ?_⟩⟩
    · exact h.loaded dest size (hpc.symm.trans heq)
    · rw [hnone, List.prefix_nil] at hgrows
      rw [hkeep (hnone.trans hgrows.symm)]
      exact hwaiting hgrows

/-- The main loop, or the next session. -/
theorem Deaf.kernel {c : Wire System} (h : Deaf c) (hidle : c.driver.driver.polling = false)
    {e : LinkEvent} {l : Link} (hstep : LinkStep c.link e l) (he : ∀ data, e ≠ .foreign data)
    (hsend : e ≠ .send) (unsent : List Frame) : Deaf ⟨c.driver, l, unsent⟩ := by
  have hcause : Starved c.driver.driver ∨ Waiting c.link.loader := by
    rcases h.cause with hstarved | ⟨-, hwaiting⟩
    · exact .inl hstarved
    · exact (h.silent hidle).symm.imp_right hwaiting
  cases hstep with
  | main =>
    obtain ⟨hreceived, hloaded⟩ := step_silent h.rxReceived h.loaded
    refine ⟨h.inv, h.silent, hreceived, hloaded, hcause.imp_right fun hwaiting => ?_⟩
    exact ⟨hwaiting.step.hdrDone, fun _ => hwaiting.step⟩
  | @alloc size dest mem hpc =>
    have hstarved := hcause.resolve_right fun hwaiting => hwaiting.pc_ne.1 size hpc
    exact ⟨h.inv, h.silent, h.rxReceived, fun d n heq => by simp at heq, .inl hstarved⟩
  | @next dest size w later mem hpc =>
    have hstarved := hcause.resolve_right fun hwaiting => hwaiting.pc_ne.2 dest size hpc
    exact ⟨h.inv, h.silent, h.rxReceived, fun d n heq => by simp at heq, .inl hstarved⟩
  | foreign => exact absurd rfl (he _)
  | send => exact absurd rfl hsend

/-- Over the I219 no workload of a byte or more ever arrives, whatever the sender does. -/
theorem i219_never_loads {desc : ℕ → Descriptor} {buffer : ℕ → ℕ → UInt8} {l : Link}
    (hwaiting : Waiting l.loader) (hreceived : l.loader.net.rxReceived = 0) {unsent : List Frame}
    {tr : List (Wire System × WireEvent Event × Wire System)} {c : Wire System}
    (hrun : Run (WireStep receiver) ⟨start desc buffer, l, unsent⟩ tr c)
    (hallowed : ∀ x ∈ tr, ∀ e, x.2.1 = .driver e → receiver.Allowed x.1.driver e)
    (hexclusive : ∀ x ∈ tr, Exclusive x) :
    c.link.loader.net.rxReceived = 0 ∧
      ∀ dest size, c.link.loader.pc = .loaded dest size → size = 0 := by
  have hstart : Deaf ⟨start desc buffer, l, unsent⟩ := by
    refine ⟨systemInv_start desc buffer, fun _ => .inl rfl, hreceived, fun dest size heq => ?_,
      .inr ⟨hwaiting.hdrDone, fun _ => hwaiting⟩⟩
    exact absurd heq (hwaiting.pc_ne.2 dest size)
  have hend : Deaf c := by
    refine (hrun.invariant_of_mem (I := Deaf) hstart fun x hx hdeaf => ?_).1
    obtain ⟨c₁, e, c₂⟩ := x
    have hstep : WireStep receiver c₁ e c₂ := hrun.step_of_mem hx
    have hidle := hexclusive _ hx
    have hallow := hallowed _ hx
    cases hstep with
    | driver hdriver => exact hdeaf.driver (hallow _ rfl) hdriver _
    | kernel hlink hquiet =>
      refine hdeaf.kernel (hidle (by simp)) hlink (fun data he => ?_) (fun he => ?_) _
      · rw [he] at hquiet
        exact hquiet
      · rw [he] at hquiet
        exact hquiet
    | next hlink => exact hdeaf.kernel (hidle (by simp)) hlink (by simp) (by simp) _
  exact ⟨hend.rxReceived, hend.loaded⟩

/-- The header frame of the workload of one byte, as the card stores it. -/
def headerPacket : Packet := ⟨retWorkload.header, 0x01, 0⟩

theorem i219_never_loads_header : ∃ c, WireStep receiver
    ⟨start (fun _ => ⟨0, 0, 0⟩) fun _ _ => 0, bootLink, retWorkload.frames⟩
      (.driver (.nic headerPacket)) c ∧
    c.driver.driver.stored = [headerPacket] ∧ c.link.loader.net.rxReceived = 0 := by
  have hnic : SystemStep (start (fun _ => ⟨0, 0, 0⟩) fun _ _ => 0) (.nic headerPacket)
      ⟨blankRing.receive headerPacket, true, false⟩ := step_nic (by decide)
  have hwire := @WireStep.driver _ _ receiver ⟨_, bootLink, retWorkload.frames⟩ _ _
    retWorkload.data hnic (by decide)
  have hwaiting : Waiting bootLink.loader := ⟨rfl, rfl, .inl trivial⟩
  refine ⟨_, hwire, rfl, (i219_never_loads hwaiting rfl (Run.nil.snoc hwire) ?_ ?_).1⟩
  · intro x hx e he
    rw [List.mem_singleton.mp hx] at he ⊢
    obtain rfl := WireEvent.driver.inj he
    exact fun hirq => absurd hirq (by simp)
  · intro x hx hkernel
    rw [List.mem_singleton.mp hx] at hkernel
    exact absurd rfl (hkernel _)

end MathUnikernel.I219
