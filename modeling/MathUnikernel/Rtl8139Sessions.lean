import MathUnikernel.Rtl8139Delivery
import MathUnikernel.Wire

/-!
# Sessions over the RTL8139

The kernel with this card takes in what its sender means, and every paced schedule of frames can come
about.
-/

namespace MathUnikernel.Rtl8139
open Mailbox Network Runs

/-! ## One frame at a time -/

/-- The driver waits for a frame. -/
structure Idle (s : System) : Prop where
  inv : ∃ d, RingInv s d
  handler : s.handler = none
  main : s.main = none
  passed : s.passed = frames s.stored

theorem idle_rtl8139Init : Idle rtl8139Init := ⟨⟨0, ringInv_rtl8139Init⟩, rfl, rfl, rfl⟩

/-- A frame as the card stores it. -/
def packet (data : Frame) : Packet := ⟨1, 0, data, [0, 0, 0, 0]⟩

theorem packet_valid {data : Frame} (hne : data ≠ []) (hlen : data.length + 11 < ringSize) :
    (packet data).Valid := by
  refine ⟨hne, rfl, ?_⟩
  change (data.length + 8 + 3) / 4 * 4 < ringSize
  omega

/-- An empty ring takes any frame. -/
theorem Idle.accepts {s : System} (h : Idle s) (p : Packet) : s.Accepts p := by
  obtain ⟨d, hinv⟩ := h.inv
  have hat := hinv.at_of_free h.handler (.inl h.main)
  refine .inl (hinv.core.bufferEmpty_iff.mpr ?_)
  have hlen := congrArg List.length (hat.passed.symm.trans h.passed)
  rwa [frames_take_length hinv.core.d_le, frames_length] at hlen

/-- The card stores a frame, and one interrupt passes it on. -/
theorem Idle.carries {s : System} (h : Idle s) {data : Frame} (hne : data ≠ [])
    (hlen : data.length + 11 < ringSize) {l : Link} {rest : List Frame}
    (hpaced : IsCustom data → l.Paced ∧ ¬l.loader.pc.Resetting) :
    ∃ tr t, Run (WireStep receiver) ⟨s, l, customFrames [data] ++ rest⟩ tr ⟨t, l.deliver data, rest⟩ ∧
      Idle t ∧ ∀ x ∈ tr, Timely receiver x := by
  obtain ⟨d, hinv⟩ := h.inv
  have hvalid := packet_valid hne hlen
  have hinv' := hinv.receive hvalid (h.accepts _)
  have hnic : SystemStep s (.nic (packet data)) (s.receive (packet data)) :=
    if_pos ⟨hvalid, h.accepts _⟩
  have hheard : Heard (s.receive (packet data)).mailbox := by
    intro _
    left
    change rok (s.isr ||| rokBit) = true
    rw [rok_or, rok_rokBit, Bool.or_true]
  obtain ⟨tr, t, k, hrun, hlabels, hirq, hdrained⟩ :=
    hinv'.drains hheard h.handler (.inl h.main)
  have hallowed : ∀ x ∈ tr, receiver.Allowed x.1 x.2.1 := by
    intro x hx hxirq
    rw [hirq x hx hxirq]
    exact .inl h.main
  have hbrings : ∀ x ∈ tr, receiver.brings x.2.1 = [] := by
    intro x hx
    have hmem := List.mem_map_of_mem (f := fun y : System × Event × System => y.2.1) hx
    rw [hlabels] at hmem
    rcases List.mem_cons.mp hmem with he | he
    · exact congrArg Event.brings he
    · exact congrArg Event.brings (List.eq_of_mem_replicate he)
  have hpassed : passedOn receiver (s.receive (packet data)) t = [data] := by
    apply passedOn_of_append
    change t.passed = s.passed ++ [data]
    rw [hdrained.passed, hdrained.stored, h.passed]
    exact frames_append _ _
  have hdriver := @run_driver _ _ receiver _ _ _ hrun ⟨d, hinv'⟩ hallowed hbrings l rest
  rw [hpassed] at hdriver
  obtain ⟨tr', hrun', htimely⟩ := hdriver le_rfl fun data' hdata => by
    rw [List.mem_singleton.mp hdata]
    exact hpaced
  have hnone : passedOn receiver s (s.receive (packet data)) = [] := passedOn_of_eq rfl
  have hstored : WireStep receiver ⟨s, l, customFrames [data] ++ rest⟩ (.driver (.nic (packet data)))
      ⟨s.receive (packet data), l, rest⟩ := by
    have hstep := @WireStep.driver _ _ receiver ⟨s, l, customFrames [data] ++ rest⟩ _ _ rest hnic rfl
    rwa [hnone] at hstep
  refine ⟨_, t, (Run.nil.snoc hstored).append hrun', ?_, fun x hx => ?_⟩
  · exact ⟨(receiver.taken_prefix hrun hallowed ⟨d, hinv'⟩).1, hdrained.handler,
      hdrained.main.trans h.main, hdrained.passed⟩
  · rcases List.mem_append.mp hx with hx | hx
    · rw [List.mem_singleton.mp hx]
      refine ⟨fun e he hirq => ?_, fun data' hdata => ?_⟩
      · obtain rfl := WireEvent.driver.inj he
        exact absurd hirq (by simp)
      · change data' ∈ passedOn receiver s (s.receive (packet data)) at hdata
        rw [hnone] at hdata
        exact absurd hdata List.not_mem_nil
    · exact htimely x hx

/-- A frame of the sender that the ring has room for. -/
def Fitting (data : Frame) : Prop := IsCustom data ∧ data.length + 11 < ringSize

/-- All that the sender still means to send is of that kind. -/
structure SenderFits (l : Link) : Prop where
  todo : ∀ data ∈ l.todo, Fitting data
  later : ∀ w ∈ l.later, ∀ data ∈ w.frames, Fitting data

theorem Fitting.ne_nil {data : Frame} (h : Fitting data) : data ≠ [] := by
  intro hnil
  have hlen := h.1.1
  rw [hnil] at hlen
  exact absurd hlen (Nat.not_lt_zero _)

/-- A step between two frames does not concern the driver. -/
theorem timely_kernel {s : System} {l l' : Link} {unsent unsent' : List Frame} {e : WireEvent Event}
    (he : ∀ e', e ≠ .driver e') : Timely receiver (⟨s, l, unsent⟩, e, ⟨s, l', unsent'⟩) := by
  refine ⟨fun e' heq => absurd heq (he e'), fun data hdata => ?_⟩
  have hnone : passedOn receiver s s = [] := passedOn_of_eq rfl
  change data ∈ passedOn receiver s s at hdata
  rw [hnone] at hdata
  exact absurd hdata List.not_mem_nil

/-- Each step of the sender, the handler and the main loop. -/
theorem Idle.step {s : System} (h : Idle s) {l l' : Link} {e : LinkEvent} (hstep : LinkStep l e l')
    (hfits : SenderFits l) (hpaced : e = .send → l.Paced) :
    ∃ tr t, Run (WireStep receiver) ⟨s, l, l.todo⟩ tr ⟨t, l', l'.todo⟩ ∧ Idle t ∧ SenderFits l' ∧
      ∀ x ∈ tr, Timely receiver x := by
  have hquiet : ∀ {l' : Link} {e : WireEvent Event}, WireStep receiver ⟨s, l, l.todo⟩ e ⟨s, l', l'.todo⟩ →
      (∀ e', e ≠ .driver e') → SenderFits l' →
      ∃ tr t, Run (WireStep receiver) ⟨s, l, l.todo⟩ tr ⟨t, l', l'.todo⟩ ∧ Idle t ∧ SenderFits l' ∧
        ∀ x ∈ tr, Timely receiver x := by
    intro l' e hstep he hfits'
    refine ⟨_, s, Run.nil.snoc hstep, h, hfits', fun x hx => ?_⟩
    rw [List.mem_singleton.mp hx]
    exact timely_kernel he
  cases hstep with
  | main => exact hquiet (.kernel (.main l) trivial) (by simp) ⟨hfits.todo, hfits.later⟩
  | alloc hpc hdest hend =>
    exact hquiet (.kernel (.alloc hpc hdest hend) trivial) (by simp) ⟨hfits.todo, hfits.later⟩
  | foreign hdata =>
    -- the kernel is where it was without the frame
    rw [receive_foreign hdata]
    exact ⟨[], s, .nil, h, hfits, fun x hx => absurd hx List.not_mem_nil⟩
  | @send data rest htodo hreset =>
    have hfit := hfits.todo data (htodo ▸ List.mem_cons_self)
    obtain ⟨tr, t, hrun, hidle, htimely⟩ := @Idle.carries s h data hfit.ne_nil hfit.2 l rest
      fun _ => ⟨hpaced rfl, hreset⟩
    have hone : customFrames [data] ++ rest = l.todo := by
      rw [htodo, customFrames, List.filter_cons_of_pos (by simpa using hfit.1)]
      rfl
    rw [hone, Link.deliver, if_pos hfit.1, htodo, List.tail_cons] at hrun
    rw [htodo]
    refine ⟨tr, t, hrun, hidle, ⟨fun data' hdata' => ?_, hfits.later⟩, htimely⟩
    exact hfits.todo data' (htodo ▸ List.mem_cons_of_mem _ hdata')
  | @next dest size w later mem hpc hlater =>
    have hlater' : ∀ v ∈ w :: later, ∀ data ∈ v.frames, Fitting data := hlater ▸ hfits.later
    exact hquiet (.next (.next hpc hlater)) (by simp) ⟨hlater' w List.mem_cons_self, fun v hv =>
      hlater' v (List.mem_cons_of_mem _ hv)⟩

/-- A schedule of frames that come one at a time, with an interrupt after each. -/
theorem Idle.run {s : System} (h : Idle s) {l l' : Link} {tr : List (Link × LinkEvent × Link)}
    (hrun : Run LinkStep l tr l') (hfits : SenderFits l)
    (hpaced : ∀ x ∈ tr, x.2.1 = .send → x.1.Paced) :
    ∃ tr' t, Run (WireStep receiver) ⟨s, l, l.todo⟩ tr' ⟨t, l', l'.todo⟩ ∧ Idle t ∧ SenderFits l' ∧
      ∀ x ∈ tr', Timely receiver x := by
  induction hrun with
  | nil => exact ⟨[], s, .nil, h, hfits, fun x hx => absurd hx List.not_mem_nil⟩
  | @snoc tr l₁ l₂ e _ hstep ih =>
    have hlast : (l₁, e, l₂) ∈ tr ++ [(l₁, e, l₂)] := by simp
    obtain ⟨tr₁, t, hrun₁, hidle, hfits', htimely₁⟩ :=
      ih fun x hx => hpaced x (List.mem_append_left _ hx)
    obtain ⟨tr₂, u, hrun₂, hidle', hfits'', htimely₂⟩ := hidle.step hstep hfits' (hpaced _ hlast)
    refine ⟨tr₁ ++ tr₂, u, hrun₁.append hrun₂, hidle', hfits'', fun x hx => ?_⟩
    rcases List.mem_append.mp hx with hx | hx
    · exact htimely₁ x hx
    · exact htimely₂ x hx

/-- What a paced schedule of frames brings about comes about over the RTL8139 as well, if an interrupt
follows each frame of the sender. -/
theorem rtl8139_schedules {l l' : Link} {tr : List (Link × LinkEvent × Link)}
    (hrun : Run LinkStep l tr l') (hfits : SenderFits l)
    (hpaced : ∀ x ∈ tr, x.2.1 = .send → x.1.Paced) :
    ∃ tr' t, Run (WireStep receiver) ⟨rtl8139Init, l, l.todo⟩ tr' ⟨t, l', l'.todo⟩ ∧
      t.passed = frames t.stored ∧ ∀ x ∈ tr', Timely receiver x := by
  obtain ⟨tr', t, hrun', hidle, -, htimely⟩ := idle_rtl8139Init.run hrun hfits hpaced
  exact ⟨tr', t, hrun', hidle.passed, htimely⟩

theorem bootLink_fits : SenderFits bootLink := by
  refine ⟨fun data hdata => ?_, fun w hw => absurd hw List.not_mem_nil⟩
  rcases List.mem_cons.mp hdata with rfl | hdata
  · exact ⟨by decide, by decide⟩
  · rw [List.mem_singleton.mp hdata]
    exact ⟨by decide, by decide⟩

/-- The workload of one byte. -/
theorem rtl8139_schedules_ret : ∃ tr c, Run (WireStep receiver)
    ⟨rtl8139Init, bootLink, retWorkload.frames⟩ tr c ∧ c.link.todo = [] ∧
      c.driver.passed = frames c.driver.stored := by
  obtain ⟨tr, l, hrun, hdisciplined, htodo, -, -⟩ := run_ret
  obtain ⟨tr', t, hrun', hpassed, -⟩ := rtl8139_schedules hrun bootLink_fits
    fun x hx hsend => (hdisciplined x hx hsend).paced
  exact ⟨tr', _, hrun', htodo, hpassed⟩

/-! ## Every interleaving -/

/-- From the wire to the memory: in every interleaving of the card, `rtl8139_interrupt_handler`,
`rtl8139_poll` and the main loop. -/
theorem rtl8139_sessions {w : Workload} {later : List Workload}
    (hvalid : ∀ v ∈ w :: later, v.Valid) {l : Link} (hstarts : l.Starts w later)
    {tr : List (Wire System × WireEvent Event × Wire System)} {c : Wire System}
    (hrun : Run (WireStep receiver) ⟨rtl8139Init, l, w.frames⟩ tr c)
    (htimely : ∀ x ∈ tr, Timely receiver x) : SessionOk c.link := by
  have hinv : receiver.Inv rtl8139Init := ⟨0, ringInv_rtl8139Init⟩
  exact sessionOk_of_wire hvalid hinv rfl hstarts hrun htimely

/-- The byte is at its destination. -/
theorem rtl8139_sessions_ret : ∃ tr c, Run (WireStep receiver)
    ⟨rtl8139Init, bootLink, retWorkload.frames⟩ tr c ∧
      c.link.loader.pc = .loaded 0xffff900000000000 1 ∧ c.link.mem 0xffff900000000000 = 0xC3 := by
  have hall : ∀ v ∈ [retWorkload], v.Valid := fun v hv => List.mem_singleton.mp hv ▸ retWorkload_valid
  obtain ⟨tr, l, hrun, hdisciplined, hk, hcurrent, -⟩ :=
    @run_loaded bootLink hall rfl rfl 0xffff900000000000 (by decide) (by decide)
  obtain ⟨tr', t, hrun', -, -, htimely⟩ := idle_rtl8139Init.run hrun bootLink_fits
    fun x hx hx' => (hdisciplined x hx hx').paced
  obtain ⟨-, hbytes⟩ := (rtl8139_sessions hall bootLink_starts hrun' htimely).loaded _ _ hk
  obtain ⟨loader, mem, base, current, todo, later⟩ := l
  obtain rfl : current = retWorkload := hcurrent
  exact ⟨tr', _, hrun', hk, hbytes 0 Nat.one_pos⟩

end MathUnikernel.Rtl8139
