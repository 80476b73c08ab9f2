import MathUnikernel.I219Ring

/-!
# What the receive ring delivers

The order of the frames, the runs in which the interrupt handler may come between two statements of
the main context, and the descriptors that are left to the card.
-/

namespace MathUnikernel.I219
open Ring Runs

/-! ## Runs from `i219_init` -/

theorem ringInv_i219Init (desc : ℕ → Descriptor) (buffer : ℕ → ℕ → UInt8) :
    RingInv (i219Init desc buffer) 0 := by
  refine ⟨⟨rfl, rfl, le_rfl, le_rfl, Nat.zero_le _, fun p hp => absurd hp List.not_mem_nil, ?_, ?_, ?_⟩,
    .alone rfl ⟨rfl, rfl⟩, fun _ _ => rfl⟩
  · intro k _ hk
    exact absurd hk (Nat.not_lt_zero k)
  · intro k _ hk
    exact absurd hk (Nat.not_lt_zero k)
  · intro k _ _
    exact Descriptor.dd_cleared _

variable {desc : ℕ → Descriptor} {buffer : ℕ → ℕ → UInt8} {tr : List (Driver × Event × Driver)}
  {s : Driver}

theorem ringInv_of_run (hrun : Run Step (i219Init desc buffer) tr s)
    (hfree : ∀ x ∈ tr, x.2.1 = .irq → x.1.Free) : ∃ d, RingInv s d := by
  refine (hrun.invariant_of_guard (I := fun s => ∃ d, RingInv s d)
    (G := fun s e => e = .irq → s.Free) ⟨0, ringInv_i219Init desc buffer⟩ ?_ hfree).1
  intro t e u ⟨d, ht⟩ hG hstep
  exact ht.step hG hstep

theorem free_of_main_none (h : s.main = none) : s.Free := by
  intro pc hpc
  exact absurd (h.symm.trans hpc) (by simp)

/-! ## Order -/

/-- Frames are passed on in the order of their arrival, each once and as it was stored, without
those that have errors; what is still in the ring is intact, and the card writes none of it. -/
structure InOrder (s : Driver) : Prop where
  passed : s.passed <+: goodFrames s.stored
  processed : s.passed = goodFrames (s.stored.take s.processed) ∨
    s.passed = goodFrames (s.stored.take (s.processed + 1))
  kept : ∀ k p, s.processed ≤ k → s.stored[k]? = some p →
    s.desc (k % numRxDesc) = p.descriptor ∧ (s.desc (k % numRxDesc)).dd = true ∧
      Begins (s.buffer (k % numRxDesc)) p
  untouched : s.rdh ≠ s.rdt → ∀ k, s.processed ≤ k → k < s.stored.length → k % numRxDesc ≠ s.rdh
  /-- Once the ring is drained nothing is missing, and the driver is in step with the card. -/
  drained : s.Drained → s.passed = goodFrames s.stored ∧ s.rxTail = s.rdh

/-- At every position the calls so far are those for the packets processed, or for one more. -/
theorem PollPc.Ok.passed {s : Driver} {d : ℕ} {pc : PollPc} (h : pc.Ok s d) :
    s.passed = goodFrames (s.stored.take s.processed) ∨
      s.passed = goodFrames (s.stored.take (s.processed + 1)) := by
  cases pc with
  | test => exact .inl (Settled.passed h)
  | clear => exact .inr h.2.1
  | advance =>
    obtain ⟨k, -, -, -, hpassed⟩ := h
    exact .inl hpassed
  | _ => exact .inl h.1.passed

theorem RingInv.passed {s : Driver} {d : ℕ} (h : RingInv s d) :
    s.passed = goodFrames (s.stored.take s.processed) ∨
      s.passed = goodFrames (s.stored.take (s.processed + 1)) := by
  cases h.contexts with
  | alone _ hpos =>
    obtain hmain | ⟨pc, hmain⟩ := Option.eq_none_or_eq_some s.main
    · rw [hmain] at hpos
      exact .inl (Settled.passed hpos)
    · rw [hmain] at hpos
      exact @PollPc.Ok.passed s d pc hpos
  | handling pc _ hpc => exact hpc.passed
  | cleared _ _ hpc => exact hpc.passed

theorem RingInv.settled {s : Driver} {d : ℕ} (h : RingInv s d) (hdrained : s.Drained) :
    Settled s := by
  cases h.contexts with
  | alone _ hpos =>
    rw [hdrained.main] at hpos
    exact hpos
  | handling pc hpc => exact absurd (hpc.symm.trans hdrained.handler) (by simp)
  | cleared hpc => exact absurd (hpc.symm.trans hdrained.handler) (by simp)

/-- In a drained ring every packet stored has been processed. -/
theorem RingInv.processed_eq {s : Driver} {d : ℕ} (h : RingInv s d) (hdrained : s.Drained) :
    s.processed = s.stored.length := by
  refine le_antisymm h.core.processed_le (Nat.le_of_not_lt fun hlt => ?_)
  have hdd := (h.core.dd_iff (h.settled hdrained).tail).mpr hlt
  rw [hdrained.dd] at hdd
  exact Bool.false_ne_true hdd

theorem RingInv.inOrder {s : Driver} {d : ℕ} (h : RingInv s d) : InOrder s where
  passed := by
    rcases h.passed with hp | hp <;> rw [hp] <;> exact goodFrames_take_prefix _ _
  processed := h.passed
  kept k p hk hp := by
    have hlt := lt_of_getElem? hp
    have hdesc := h.core.full k hk hlt p hp
    refine ⟨hdesc, ?_, h.core.bytes k hk hlt p hp⟩
    rw [hdesc]
    exact (h.core.valid p (List.mem_of_getElem? hp)).2
  untouched hne k hk hlt := by
    have hroom := h.core.lt_released hne
    have hle := released_le d
    have hd := h.core.d_le
    rw [h.core.rdh]
    exact mod_ne hlt (by unfold numRxDesc; omega)
  drained hdrained := by
    have hset := h.settled hdrained
    have hall := h.processed_eq hdrained
    refine ⟨?_, ?_⟩
    · rw [hset.passed, hall, List.take_length]
    · rw [hset.tail, hall, h.core.rdh]

/-- In every interleaving of the card with runs of `i219_poll_rx` that are not nested. -/
theorem ring_inOrder (hrun : Run Step (i219Init desc buffer) tr s)
    (hnested : ∀ x ∈ tr, x.2.1 = .irq → x.1.main = none) : InOrder s := by
  obtain ⟨d, h⟩ := ringInv_of_run hrun fun x hx hirq => free_of_main_none (hnested x hx hirq)
  exact h.inOrder

/-- A packet of one byte, and the ring it arrives in. -/
def onePacket : Packet := ⟨[0xC3], 0x01, 0⟩

def blankRing : Driver := i219Init (fun _ => ⟨0, 0, 0⟩) fun _ _ => 0

theorem run_of_events {s₀ s : Driver} {events : List Event}
    (h : events.foldlM Driver.step s₀ = some s) :
    ∃ tr, Run Step s₀ tr s ∧ tr.map (·.2.1) = events :=
  exists_run_of_foldlM (fun _ _ _ hs => hs) h

/-- The main context takes the packet while the card stores another one. -/
theorem ring_inOrder_two : ∃ tr s, Run Step blankRing tr s ∧
    s.stored = [onePacket, onePacket] ∧ s.passed = [[0xC3]] ∧ InOrder s := by
  obtain ⟨s, hs⟩ := Option.isSome_iff_exists.mp (by decide :
    ([Event.nic onePacket, .poll, .cpu, .cpu, .cpu, .cpu, .cpu, .nic onePacket].foldlM Driver.step
      blankRing).isSome = true)
  obtain ⟨tr, hrun, hlabels⟩ := run_of_events hs
  have hnested : ∀ x ∈ tr, x.2.1 = .irq → x.1.main = none := by
    intro x hx hirq
    exact absurd hirq (ne_of_not_mem_labels hlabels (by simp) x hx)
  refine ⟨tr, s, hrun, ?_, ?_, ring_inOrder hrun hnested⟩
  · obtain rfl := Option.some.inj hs
    rfl
  · obtain rfl := Option.some.inj hs
    rfl

/-! ## Interrupts between two statements -/

/-- The handler may come between two statements of the main context as well, as long as that has not
decided about the descriptor at `rx_tail`. -/
theorem ring_reentrant (hrun : Run Step (i219Init desc buffer) tr s)
    (hfree : ∀ x ∈ tr, x.2.1 = .irq → x.1.Free) : InOrder s := by
  obtain ⟨d, h⟩ := ringInv_of_run hrun hfree
  exact h.inOrder

/-- The packet has come, and the main context is about to test for it. -/
def atTest : Driver := { blankRing.receive onePacket with main := some .test }

/-- The handler takes the packet. -/
theorem ring_reentrant_test : ∃ tr s, Run Step blankRing tr s ∧ s.Drained ∧
    s.passed = [[0xC3]] ∧ InOrder s := by
  have hbefore : [Event.nic onePacket, .poll].foldlM Driver.step blankRing = some atTest := rfl
  obtain ⟨s, hs⟩ := Option.isSome_iff_exists.mp (by decide :
    ((List.replicate 10 Event.cpu).foldlM Driver.step
      { atTest with handler := some .test }).isSome = true)
  obtain ⟨tr, hrun, hlabels⟩ := run_of_events hbefore
  have hstep : atTest.step .irq = some { atTest with handler := some .test } := rfl
  have hirq := hrun.snoc hstep
  obtain ⟨tr', hrun', hlabels'⟩ := hirq.foldlM (fun _ _ _ h => h) hs
  refine ⟨_, s, hrun', ?_, ?_, ring_reentrant hrun' fun x hx hxirq => ?_⟩
  · obtain rfl := Option.some.inj hs
    exact ⟨rfl, rfl, by decide⟩
  · obtain rfl := Option.some.inj hs
    rfl
  · rcases List.mem_append.mp hx with hx | hx
    · rcases List.mem_append.mp hx with hx | hx
      · exact absurd hxirq (ne_of_not_mem_labels hlabels (by simp) x hx)
      · rw [List.mem_singleton.mp hx]
        intro pc hpc
        obtain rfl : .test = pc := Option.some.inj hpc
        exact id
    · exact absurd hxirq (ne_of_not_mem_labels hlabels' (by simp) x hx)

/-- One packet, and an interrupt after the main context has read its descriptor: the frame is passed
on twice. -/
theorem ring_duplicates : ∃ tr s, Run Step blankRing tr s ∧ s.stored = [onePacket] ∧
    s.passed = [[0xC3], [0xC3]] ∧ ¬InOrder s := by
  obtain ⟨s, hs⟩ := Option.isSome_iff_exists.mp (by decide :
    (([Event.nic onePacket, .poll, .cpu, .cpu, .cpu, .cpu, .irq] ++ List.replicate 10 Event.cpu).foldlM
      Driver.step blankRing).isSome = true)
  obtain ⟨tr, hrun, -⟩ := run_of_events hs
  have hstored : s.stored = [onePacket] := by
    obtain rfl := Option.some.inj hs
    rfl
  have hpassed : s.passed = [[0xC3], [0xC3]] := by
    obtain rfl := Option.some.inj hs
    rfl
  refine ⟨tr, s, hrun, hstored, hpassed, fun h => ?_⟩
  have hlen := h.passed.length_le
  rw [hstored, hpassed] at hlen
  exact absurd hlen (by decide)

/-! ## Descriptors left to the card -/

/-- A drained ring leaves descriptors to the card only as long as no packet has come. -/
theorem ring_supplied_iff (hrun : Run Step (i219Init desc buffer) tr s)
    (hnested : ∀ x ∈ tr, x.2.1 = .irq → x.1.main = none) (hdrained : s.Drained) :
    s.rdh ≠ s.rdt ↔ s.stored = [] := by
  obtain ⟨d, h⟩ := ringInv_of_run hrun fun x hx hirq => free_of_main_none (hnested x hx hirq)
  have hd : d = s.stored.length := by
    rw [← h.processed_eq hdrained]
    refine h.synced ?_ ?_
    · simp [hdrained.main, Writing]
    · simp [hdrained.handler, Writing]
  rw [h.core.rdh, h.core.rdt, hd, released, ← List.length_eq_zero_iff]
  split_ifs with hzero
  · simp [hzero, numRxDesc]
  · simp [hzero, numRxDesc]

/-- A call that finds nothing leaves the card its descriptors, a call that takes a packet does not. -/
theorem ring_supplied_blank :
    (∃ tr s, Run Step blankRing tr s ∧ tr.map (·.2.1) = [.poll, .cpu] ∧ s.Drained ∧
      s.rdh ≠ s.rdt) ∧
    ∃ tr s, Run Step blankRing tr s ∧
      tr.map (·.2.1) = .nic onePacket :: .poll :: List.replicate 9 .cpu ∧ s.Drained ∧
      s.passed = [[0xC3]] ∧ ¬s.rdh ≠ s.rdt := by
  constructor
  · obtain ⟨s, hs⟩ := Option.isSome_iff_exists.mp (by decide :
      ([Event.poll, .cpu].foldlM Driver.step blankRing).isSome = true)
    obtain ⟨tr, hrun, hlabels⟩ := run_of_events hs
    have hnested : ∀ x ∈ tr, x.2.1 = .irq → x.1.main = none := by
      intro x hx hirq
      exact absurd hirq (ne_of_not_mem_labels hlabels (by simp) x hx)
    obtain rfl := Option.some.inj hs
    have hdrained : Driver.Drained { blankRing with main := none } := ⟨rfl, rfl, by decide⟩
    exact ⟨tr, _, hrun, hlabels, hdrained, (ring_supplied_iff hrun hnested hdrained).mpr rfl⟩
  · obtain ⟨s, hs⟩ := Option.isSome_iff_exists.mp (by decide :
      ((Event.nic onePacket :: .poll :: List.replicate 9 Event.cpu).foldlM Driver.step
        blankRing).isSome = true)
    obtain ⟨tr, hrun, hlabels⟩ := run_of_events hs
    have hnested : ∀ x ∈ tr, x.2.1 = .irq → x.1.main = none := by
      intro x hx hirq
      exact absurd hirq (ne_of_not_mem_labels hlabels (by simp) x hx)
    have hstored : s.stored = [onePacket] ∧ s.passed = [[0xC3]] := by
      obtain rfl := Option.some.inj hs
      exact ⟨rfl, rfl⟩
    have hdrained : s.Drained := by
      obtain rfl := Option.some.inj hs
      exact ⟨rfl, rfl, by decide⟩
    refine ⟨tr, s, hrun, hlabels, hdrained, hstored.2, ?_⟩
    rw [ring_supplied_iff hrun hnested hdrained, hstored.1]
    exact List.cons_ne_nil _ _

/-- One packet and one call of `i219_poll_rx`: the card has no descriptor left. -/
theorem ring_starves : ∃ tr s, Run Step blankRing tr s ∧
    tr.map (·.2.1) = .nic onePacket :: .poll :: List.replicate 9 .cpu ∧ s.Drained ∧
    s.rdh = s.rdt := by
  obtain ⟨s, hs⟩ := Option.isSome_iff_exists.mp (by decide :
    ((Event.nic onePacket :: .poll :: List.replicate 9 Event.cpu).foldlM Driver.step
      blankRing).isSome = true)
  obtain ⟨tr, hrun, hlabels⟩ := run_of_events hs
  refine ⟨tr, s, hrun, hlabels, ?_, ?_⟩
  · obtain rfl := Option.some.inj hs
    exact ⟨rfl, rfl, by decide⟩
  · obtain rfl := Option.some.inj hs
    rfl

end MathUnikernel.I219
