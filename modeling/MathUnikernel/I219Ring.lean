import MathUnikernel.I219

/-!
# The invariant of the receive ring

Packet `k` is stored in descriptor `k % 32`.  Between the packets processed and the packets stored
the descriptors are full, and the rest of the round is clear.
-/

namespace MathUnikernel.I219
open ByteStore Network Ring Runs

/-! ## Frames -/

theorem goodFrames_append (ps qs : List Packet) :
    goodFrames (ps ++ qs) = goodFrames ps ++ goodFrames qs := by
  simp [goodFrames]

theorem goodFrames_take_succ {ps : List Packet} {k : ℕ} {p : Packet} (h : ps[k]? = some p) :
    goodFrames (ps.take (k + 1)) =
      goodFrames (ps.take k) ++ if p.errors = 0 then [p.bytes] else [] := by
  rw [List.take_add_one, h, goodFrames_append]
  congr 1
  by_cases he : p.errors = 0 <;> simp [goodFrames, he]

theorem goodFrames_take_prefix (ps : List Packet) (k : ℕ) :
    goodFrames (ps.take k) <+: goodFrames ps := by
  refine ⟨goodFrames (ps.drop k), ?_⟩
  rw [← goodFrames_append, List.take_append_drop]

/-- The buffer begins with the bytes of the packet. -/
def Begins (buffer : ℕ → UInt8) (p : Packet) : Prop :=
  ∀ i (h : i < p.bytes.length), buffer i = p.bytes[i]

theorem Begins.frame {buffer : ℕ → UInt8} {p : Packet} (h : Begins buffer p) :
    (List.range p.bytes.length).map buffer = p.bytes := by
  apply List.ext_getElem
  · simp
  · intro i hi hi'
    rw [List.getElem_map, List.getElem_range]
    exact h i hi'

theorem begins_write (buffer : ℕ → UInt8) (p : Packet) :
    Begins (write buffer (storesFrom id 0 p.bytes)) p := by
  intro i hi
  exact hdrBuf_write buffer hi

/-! ## The ring -/

/-- The packets that the card may have stored once `RDT` has been written with `d % 32`; the value
that `i219_init` writes stands for `d = 0`. -/
def released (d : ℕ) : ℕ := if d = 0 then 31 else d + 32

theorem released_le (d : ℕ) : released d ≤ d + 32 := by
  unfold released
  split_ifs <;> omega

/-- The ring, apart from what a context is doing with it.  `RDT` was last written after `d` packets
had been processed. -/
structure Core (s : Driver) (d : ℕ) : Prop where
  rdh : s.rdh = s.stored.length % numRxDesc
  rdt : s.rdt = released d % numRxDesc
  d_le : d ≤ s.processed
  processed_le : s.processed ≤ s.stored.length
  room : s.stored.length ≤ released d
  valid : ∀ p ∈ s.stored, p.Valid
  full : Holds numRxDesc s.desc s.processed s.stored.length
    fun k x => ∀ p, s.stored[k]? = some p → x = p.descriptor
  bytes : Holds numRxDesc s.buffer s.processed s.stored.length
    fun k x => ∀ p, s.stored[k]? = some p → Begins x p
  clear : Holds numRxDesc s.desc s.stored.length (s.processed + numRxDesc) fun _ x => x.dd = false

theorem Core.le_round {s : Driver} {d : ℕ} (h : Core s d) :
    s.stored.length ≤ s.processed + numRxDesc := by
  have hroom := h.room.trans (released_le d)
  have hle := h.d_le
  unfold numRxDesc
  omega

/-- `rx_tail` is at the next packet, and the packets before it have been passed on. -/
structure Settled (s : Driver) : Prop where
  tail : s.rxTail = s.processed % numRxDesc
  passed : s.passed = goodFrames (s.stored.take s.processed)

/-- What holds at a position of the context that is running. -/
def PollPc.Ok (s : Driver) (d : ℕ) : PollPc → Prop
  | .test => Settled s
  | .writeTail => Settled s ∧ s.processed ≠ 0
  | .packet => Settled s ∧ ∃ p, s.stored[s.processed]? = some p
  | .length index => Settled s ∧ ∃ p, s.stored[s.processed]? = some p ∧ index = s.rxTail
  | .errors index len =>
    Settled s ∧ ∃ p, s.stored[s.processed]? = some p ∧ index = s.rxTail ∧ len = p.bytes.length
  | .deliver index len err =>
    Settled s ∧ ∃ p, s.stored[s.processed]? = some p ∧ index = s.rxTail ∧
      len = p.bytes.length ∧ err = p.errors
  | .clear =>
    s.rxTail = s.processed % numRxDesc ∧ s.passed = goodFrames (s.stored.take (s.processed + 1)) ∧
      s.processed < s.stored.length
  | .advance =>
    ∃ k, s.processed = k + 1 ∧ s.rxTail = k % numRxDesc ∧ d ≤ k ∧
      s.passed = goodFrames (s.stored.take s.processed)

/-- The descriptor at `rx_tail` is done exactly if a packet is left. -/
theorem Core.dd_iff {s : Driver} {d : ℕ} (h : Core s d) (htail : s.rxTail = s.processed % numRxDesc) :
    (s.desc s.rxTail).dd = true ↔ s.processed < s.stored.length := by
  rw [htail]
  refine ⟨fun hdd => ?_, fun hlt => ?_⟩
  · by_contra hge
    have hclear := h.clear s.processed (Nat.le_of_not_lt hge) (by unfold numRxDesc; omega)
    rw [hclear] at hdd
    exact Bool.false_ne_true hdd
  · have hp := List.getElem?_eq_getElem hlt
    rw [h.full s.processed le_rfl hlt _ hp]
    exact (h.valid _ (List.getElem_mem hlt)).2

/-! ## The card -/

theorem getElem?_concat_of_lt {ps : List Packet} {k : ℕ} (hk : k < ps.length) (p : Packet) :
    (ps ++ [p])[k]? = ps[k]? := List.getElem?_append_left hk

theorem lt_of_getElem? {ps : List Packet} {k : ℕ} {p : Packet} (h : ps[k]? = some p) :
    k < ps.length := (List.getElem?_eq_some_iff.mp h).1

/-- The card may store a packet only where there is room. -/
theorem Core.lt_released {s : Driver} {d : ℕ} (h : Core s d) (hne : s.rdh ≠ s.rdt) :
    s.stored.length < released d := by
  have hroom := h.room
  have hd := h.d_le.trans h.processed_le
  have hle := released_le d
  rw [h.rdh, h.rdt] at hne
  by_contra hge
  exact hne (congrArg (· % numRxDesc) (by omega))

theorem Core.receive {s : Driver} {d : ℕ} (h : Core s d) {p : Packet} (hp : p.Valid)
    (hne : s.rdh ≠ s.rdt) : Core (s.receive p) d := by
  have hlt := h.lt_released hne
  have hle := released_le d
  have hd := h.d_le
  have hprocessed := h.processed_le
  have hlen : (s.stored ++ [p]).length = s.stored.length + 1 := by simp
  have hold : ∀ k < s.stored.length, ∀ q, (s.stored ++ [p])[k]? = some q → s.stored[k]? = some q := by
    intro k hk q hq
    rwa [getElem?_concat_of_lt hk] at hq
  have hnew : ∀ q, (s.stored ++ [p])[s.stored.length]? = some q → q = p := by
    intro q hq
    rw [List.getElem?_concat_length] at hq
    exact (Option.some.inj hq).symm
  have hroom : s.stored.length < s.processed + numRxDesc := by
    unfold numRxDesc
    omega
  have hfull : Holds numRxDesc s.desc s.processed s.stored.length
      fun k x => ∀ q, (s.stored ++ [p])[k]? = some q → x = q.descriptor := by
    intro k hk hk' q hq
    exact h.full k hk hk' q (hold k hk' q hq)
  have hbytes : Holds numRxDesc s.buffer s.processed s.stored.length
      fun k x => ∀ q, (s.stored ++ [p])[k]? = some q → Begins x q := by
    intro k hk hk' q hq
    exact h.bytes k hk hk' q (hold k hk' q hq)
  refine ⟨?_, h.rdt, hd, ?_, ?_, ?_, ?_, ?_, ?_⟩
  · change (s.rdh + 1) % numRxDesc = (s.stored ++ [p]).length % numRxDesc
    rw [hlen, h.rdh, succ_mod]
  · change s.processed ≤ (s.stored ++ [p]).length
    omega
  · change (s.stored ++ [p]).length ≤ released d
    omega
  · intro q hq
    rcases List.mem_append.mp hq with hq | hq
    · exact h.valid q hq
    · rwa [List.mem_singleton.mp hq]
  · change Holds numRxDesc (Function.update s.desc s.rdh p.descriptor) s.processed
      (s.stored ++ [p]).length _
    rw [hlen, h.rdh]
    apply hfull.push hroom
    intro q hq
    rw [hnew q hq]
  · change Holds numRxDesc
      (Function.update s.buffer s.rdh (write (s.buffer s.rdh) (storesFrom id 0 p.bytes))) s.processed
      (s.stored ++ [p]).length _
    rw [hlen, h.rdh]
    apply hbytes.push hroom
    intro q hq
    rw [hnew q hq]
    exact begins_write _ p
  · change Holds numRxDesc (Function.update s.desc s.rdh p.descriptor) (s.stored ++ [p]).length
      (s.processed + numRxDesc) _
    rw [hlen, h.rdh]
    apply (h.clear.mono (Nat.le_succ _) le_rfl).update
    intro k hk hk'
    omega

theorem take_concat {ps : List Packet} {k : ℕ} (hk : k ≤ ps.length) (p : Packet) :
    (ps ++ [p]).take k = ps.take k := List.take_append_of_le_length hk

theorem Settled.receive {s : Driver} {d : ℕ} (h : Settled s) (hcore : Core s d) (p : Packet) :
    Settled (s.receive p) := by
  refine ⟨h.tail, ?_⟩
  change s.passed = goodFrames ((s.stored ++ [p]).take s.processed)
  rw [take_concat hcore.processed_le, h.passed]

/-- What the card does leaves every position as it was. -/
theorem PollPc.Ok.receive {s : Driver} {d : ℕ} {pc : PollPc} (h : pc.Ok s d) (hcore : Core s d)
    (p : Packet) : pc.Ok (s.receive p) d := by
  have hkeep : ∀ q, s.stored[s.processed]? = some q → (s.stored ++ [p])[s.processed]? = some q := by
    intro q hq
    rw [getElem?_concat_of_lt (lt_of_getElem? hq), hq]
  cases pc with
  | test => exact Settled.receive (s := s) h hcore p
  | writeTail => exact ⟨h.1.receive hcore p, h.2⟩
  | packet => exact ⟨h.1.receive hcore p, h.2.imp hkeep⟩
  | length index => exact ⟨h.1.receive hcore p, h.2.imp fun q hq => ⟨hkeep q hq.1, hq.2⟩⟩
  | errors index len => exact ⟨h.1.receive hcore p, h.2.imp fun q hq => ⟨hkeep q hq.1, hq.2⟩⟩
  | deliver index len err =>
    exact ⟨h.1.receive hcore p, h.2.imp fun q hq => ⟨hkeep q hq.1, hq.2⟩⟩
  | clear =>
    obtain ⟨htail, hpassed, hlt⟩ := h
    refine ⟨htail, ?_, ?_⟩
    · change s.passed = goodFrames ((s.stored ++ [p]).take (s.processed + 1))
      rw [take_concat hlt, hpassed]
    · change s.processed < (s.stored ++ [p]).length
      rw [List.length_append]
      omega
  | advance =>
    obtain ⟨k, hk, htail, hd, hpassed⟩ := h
    refine ⟨k, hk, htail, hd, ?_⟩
    change s.passed = goodFrames ((s.stored ++ [p]).take s.processed)
    rw [take_concat hcore.processed_le, hpassed]

/-! ## The driver -/

/-- What holds before the statement at a position, or between two runs. -/
def Position (s : Driver) (d : ℕ) : Option PollPc → Prop
  | none => Settled s
  | some pc => pc.Ok s d

/-- A context is between `clear` and the write of `RDT`. -/
def Writing (c : Option PollPc) : Prop := c = some .advance ∨ c = some .writeTail

/-- The ring and the position after a statement. -/
structure Advanced (s : Driver) (d : ℕ) (s' : Driver) (pc' : Option PollPc) (d' : ℕ) : Prop where
  core : Core s' d'
  position : Position s' d' pc'
  processed : s.processed ≤ s'.processed
  main : s'.main = s.main
  handler : s'.handler = s.handler

/-- A statement that only moves on. -/
theorem Core.moved {s : Driver} {d : ℕ} (h : Core s d) {pc' : Option PollPc}
    (hpos : Position s d pc') : Advanced s d s pc' d := ⟨h, hpos, le_rfl, rfl, rfl⟩

/-- The descriptor at `rx_tail` is that of the next packet. -/
theorem Core.desc_eq {s : Driver} {d : ℕ} (h : Core s d) (hset : Settled s) {p : Packet}
    (hp : s.stored[s.processed]? = some p) : s.desc s.rxTail = p.descriptor := by
  rw [hset.tail]
  exact h.full s.processed le_rfl (lt_of_getElem? hp) p hp

theorem Core.deliver {s : Driver} {d : ℕ} (h : Core s d) (hset : Settled s) {p : Packet}
    (hp : s.stored[s.processed]? = some p) :
    Advanced s d (s.statement (.deliver s.rxTail p.bytes.length p.errors)).1 (some .clear) d := by
  have hlt := lt_of_getElem? hp
  by_cases he : p.errors = 0
  · have hbytes : (List.range p.bytes.length).map (s.buffer s.rxTail) = p.bytes := by
      rw [hset.tail]
      exact (h.bytes s.processed le_rfl hlt p hp).frame
    have hstep : (s.statement (.deliver s.rxTail p.bytes.length p.errors)).1 =
        { s with passed := s.passed ++ [p.bytes] } := by
      simp [Driver.statement, he, hbytes]
    rw [hstep]
    refine ⟨⟨h.rdh, h.rdt, h.d_le, h.processed_le, h.room, h.valid, h.full, h.bytes, h.clear⟩,
      ⟨hset.tail, ?_, hlt⟩, le_rfl, rfl, rfl⟩
    change s.passed ++ [p.bytes] = goodFrames (s.stored.take (s.processed + 1))
    rw [goodFrames_take_succ hp, if_pos he, hset.passed]
  · have hstep : (s.statement (.deliver s.rxTail p.bytes.length p.errors)).1 = s := by
      simp [Driver.statement, he]
    rw [hstep]
    apply h.moved
    refine ⟨hset.tail, ?_, hlt⟩
    rw [goodFrames_take_succ hp, if_neg he, List.append_nil, hset.passed]

/-- The slot of the packet processed last is clear until its descriptor is handed back. -/
theorem Core.clearSlot {s : Driver} {d : ℕ} (h : Core s d) (hpc : PollPc.clear.Ok s d) :
    Advanced s d (s.statement .clear).1 (some .advance) d := by
  obtain ⟨htail, hpassed, hlt⟩ := hpc
  have hround := h.le_round
  have hd := h.d_le
  refine ⟨⟨h.rdh, h.rdt, hd.trans (Nat.le_succ _), hlt, h.room, h.valid, ?_,
    h.bytes.mono (Nat.le_succ _) le_rfl, ?_⟩, ⟨s.processed, rfl, htail, hd, hpassed⟩, Nat.le_succ _,
    rfl, rfl⟩
  · change Holds numRxDesc (Function.update s.desc s.rxTail _) (s.processed + 1) s.stored.length _
    rw [htail]
    apply (h.full.mono (Nat.le_succ _) le_rfl).update
    intro k hk hk'
    omega
  · change Holds numRxDesc (Function.update s.desc s.rxTail _) s.stored.length
      (s.processed + 1 + numRxDesc) _
    rw [htail]
    intro k hk hk'
    by_cases hlast : k = s.processed + numRxDesc
    · rw [hlast, Nat.add_mod_right, Function.update_self]
      exact Descriptor.dd_cleared _
    · rw [Function.update_of_ne (mod_ne (by omega) (by omega)).symm]
      exact h.clear k hk (by omega)

/-- A statement keeps the ring; `RDT` falls behind at `clear` and catches up at `writeTail`. -/
theorem Core.statement {s : Driver} {d : ℕ} {pc : PollPc} (h : Core s d) (hpc : pc.Ok s d) :
    ∃ d', Advanced s d (s.statement pc).1 (s.statement pc).2 d' ∧
      ((¬Writing (some pc) → d = s.processed) → ¬Writing (s.statement pc).2 →
        d' = (s.statement pc).1.processed) := by
  cases pc with
  | test =>
    have hset : Settled s := hpc
    refine ⟨d, h.moved ?_, fun hsync _ => hsync (by simp [Writing])⟩
    change Position s d (if (s.desc s.rxTail).dd then some .packet else none)
    split_ifs with hdd
    · have hlt := (h.dd_iff hset.tail).mp hdd
      exact ⟨hset, _, List.getElem?_eq_getElem hlt⟩
    · exact hset
  | packet =>
    obtain ⟨hset, p, hp⟩ := hpc
    exact ⟨d, h.moved ⟨hset, p, hp, rfl⟩, fun hsync _ => hsync (by simp [Writing])⟩
  | length index =>
    obtain ⟨hset, p, hp, hindex⟩ := hpc
    refine ⟨d, h.moved ⟨hset, p, hp, hindex, ?_⟩, fun hsync _ => hsync (by simp [Writing])⟩
    rw [h.desc_eq hset hp]
    rfl
  | errors index len =>
    obtain ⟨hset, p, hp, hindex, hlen⟩ := hpc
    refine ⟨d, h.moved ⟨hset, p, hp, hindex, hlen, ?_⟩, fun hsync _ => hsync (by simp [Writing])⟩
    rw [h.desc_eq hset hp]
    rfl
  | deliver index len err =>
    obtain ⟨hset, p, hp, rfl, rfl, rfl⟩ := hpc
    have hnext : (s.statement (.deliver s.rxTail p.bytes.length p.errors)).2 = some .clear := by
      simp only [Driver.statement]
      split_ifs <;> rfl
    have hadv := h.deliver hset hp
    have hprocessed : (s.statement (.deliver s.rxTail p.bytes.length p.errors)).1.processed =
        s.processed := by
      simp only [Driver.statement]
      split_ifs <;> rfl
    refine ⟨d, hnext ▸ hadv, fun hsync _ => ?_⟩
    rw [hprocessed]
    exact hsync (by simp [Writing])
  | clear => exact ⟨d, h.clearSlot hpc, fun _ hnot => absurd (.inl rfl) hnot⟩
  | advance =>
    obtain ⟨k, hk, htail, hd, hpassed⟩ := hpc
    refine ⟨d, ⟨⟨h.rdh, h.rdt, h.d_le, h.processed_le, h.room, h.valid, h.full, h.bytes, h.clear⟩,
      ⟨⟨?_, hpassed⟩, ?_⟩, le_rfl, rfl, rfl⟩, fun _ hnot => absurd (.inr rfl) hnot⟩
    · change (s.rxTail + 1) % numRxDesc = s.processed % numRxDesc
      rw [htail, hk, succ_mod]
    · change s.processed ≠ 0
      omega
  | writeTail =>
    obtain ⟨hset, hne⟩ := hpc
    have hround := h.le_round
    refine ⟨s.processed, ⟨⟨h.rdh, ?_, le_rfl, h.processed_le, ?_, h.valid, h.full, h.bytes, h.clear⟩,
      ⟨hset.tail, hset.passed⟩, le_rfl, rfl, rfl⟩, fun _ _ => rfl⟩
    · change s.rxTail = released s.processed % numRxDesc
      rw [hset.tail, released, if_neg hne]
      exact (Nat.add_mod_right _ numRxDesc).symm
    · rw [released, if_neg hne]
      exact hround

/-- Where the two contexts are.  The handler has the processor. -/
inductive Contexts (s : Driver) (d : ℕ) : Prop
  | alone : s.handler = none → Position s d s.main → Contexts s d
  | handling (pc : PollPc) :
      s.handler = some pc → pc.Ok s d →
      s.main = none ∨ s.main = some .test ∨ (s.main = some .writeTail ∧ s.processed ≠ 0) →
      Contexts s d
  /-- The handler finds the descriptor that the main context has just cleared. -/
  | cleared : s.handler = some .test → s.main = some .advance → PollPc.advance.Ok s d → Contexts s d

structure RingInv (s : Driver) (d : ℕ) : Prop where
  core : Core s d
  contexts : Contexts s d
  synced : ¬Writing s.main → ¬Writing s.handler → d = s.processed

/-! ## What one step keeps -/

theorem Position.receive {s : Driver} {d : ℕ} {c : Option PollPc} (h : Position s d c)
    (hcore : Core s d) (p : Packet) : Position (s.receive p) d c := by
  cases c with
  | none => exact Settled.receive (s := s) h hcore p
  | some pc => exact @PollPc.Ok.receive s d pc h hcore p

theorem RingInv.receive {s : Driver} {d : ℕ} (h : RingInv s d) {p : Packet} (hp : p.Valid)
    (hne : s.rdh ≠ s.rdt) : RingInv (s.receive p) d := by
  refine ⟨h.core.receive hp hne, ?_, h.synced⟩
  cases h.contexts with
  | alone hhandler hpos => exact .alone hhandler (hpos.receive h.core p)
  | handling pc hhandler hpc hmain => exact .handling pc hhandler (hpc.receive h.core p) hmain
  | cleared hhandler hmain hpc => exact .cleared hhandler hmain (hpc.receive h.core p)

/-- The contexts are no part of the ring. -/
theorem Core.withContexts {s : Driver} {d : ℕ} (h : Core s d) (main handler : Option PollPc) :
    Core { s with main, handler } d :=
  ⟨h.rdh, h.rdt, h.d_le, h.processed_le, h.room, h.valid, h.full, h.bytes, h.clear⟩

theorem Position.withContexts {s : Driver} {d : ℕ} {c : Option PollPc} (h : Position s d c)
    (main handler : Option PollPc) : Position { s with main, handler } d c := by
  cases c with
  | none => exact ⟨h.tail, h.passed⟩
  | some pc =>
    cases pc with
    | test =>
      have hset : Settled s := h
      exact ⟨hset.tail, hset.passed⟩
    | writeTail => exact ⟨⟨h.1.tail, h.1.passed⟩, h.2⟩
    | clear => exact h
    | advance => exact h
    | _ => exact ⟨⟨h.1.tail, h.1.passed⟩, h.2⟩

/-- The handler's turn. -/
theorem RingInv.handler {s : Driver} {d : ℕ} {pc : PollPc} (h : RingInv s d)
    (hpc : s.handler = some pc) :
    ∃ d', RingInv { (s.statement pc).1 with handler := (s.statement pc).2 } d' := by
  cases h.contexts with
  | alone hhandler => exact absurd (hhandler.symm.trans hpc) (by simp)
  | handling q hq hok hmain =>
    obtain rfl : q = pc := Option.some.inj (hq.symm.trans hpc)
    obtain ⟨d', hadv, hsync⟩ := h.core.statement hok
    have hle := hadv.processed
    refine ⟨d', hadv.core.withContexts _ _, ?_, fun hnot hnot' => hsync (fun hw => ?_) hnot'⟩
    · have hpos := hadv.position
      have hmain' := hadv.main
      generalize s.statement q = t at *
      obtain ⟨t, next⟩ := t
      rw [← hmain'] at hmain
      cases next with
      | none =>
        -- back in the main context, which is between two descriptors
        have hset : Settled t := hpos
        have hback : Position t d' t.main := by
          rcases hmain with hm | hm | ⟨hm, hne⟩ <;> rw [hm]
          · exact hset
          · exact hset
          · exact ⟨hset, Nat.ne_of_gt (Nat.lt_of_lt_of_le (Nat.pos_of_ne_zero hne) hle)⟩
        exact .alone rfl (hback.withContexts t.main none)
      | some next =>
        refine .handling next rfl (hpos.withContexts t.main (some next)) ?_
        refine hmain.imp_right (Or.imp_right fun hm => ⟨hm.1, ?_⟩)
        exact Nat.ne_of_gt (Nat.lt_of_lt_of_le (Nat.pos_of_ne_zero hm.2) hle)
    · refine h.synced ?_ (hpc ▸ hw)
      rw [← hadv.main]
      exact hnot
  | cleared htest hmain hadvance =>
    obtain rfl : pc = .test := Option.some.inj (hpc.symm.trans htest)
    obtain ⟨k, hk, htail, hd, hpassed⟩ := hadvance
    have hroom := h.core.room.trans (released_le d)
    have hdd : (s.desc s.rxTail).dd = false := by
      rw [htail, ← Nat.add_mod_right]
      apply h.core.clear <;> unfold numRxDesc <;> omega
    have hreturn : (s.statement .test).2 = none := by simp [Driver.statement, hdd]
    rw [hreturn]
    refine ⟨d, h.core.withContexts _ _, .alone rfl ?_, fun hnot => absurd (.inl hmain) hnot⟩
    change Position _ d s.main
    rw [hmain]
    exact ⟨k, hk, htail, hd, hpassed⟩

/-- The turn of the main context. -/
theorem RingInv.main {s : Driver} {d : ℕ} {pc : PollPc} (h : RingInv s d)
    (hhandler : s.handler = none) (hpc : s.main = some pc) :
    ∃ d', RingInv { (s.statement pc).1 with main := (s.statement pc).2 } d' := by
  cases h.contexts with
  | alone _ hpos =>
    rw [hpc] at hpos
    obtain ⟨d', hadv, hsync⟩ := h.core.statement hpos
    have hpos' := hadv.position.withContexts (s.statement pc).2 (s.statement pc).1.handler
    have hnone : (s.statement pc).1.handler = none := hadv.handler.trans hhandler
    refine ⟨d', hadv.core.withContexts _ _, .alone hnone hpos', fun hnot _ => hsync (fun hw => ?_) hnot⟩
    refine h.synced (hpc ▸ hw) ?_
    simp [hhandler, Writing]
  | handling q hq => exact absurd (hq.symm.trans hhandler) (by simp)
  | cleared htest => exact absurd (htest.symm.trans hhandler) (by simp)

/-- The main context holds no decision about the descriptor at `rx_tail`. -/
def Driver.Free (s : Driver) : Prop := ∀ pc, s.main = some pc → ¬pc.Holding

theorem RingInv.irq {s : Driver} {d : ℕ} (h : RingInv s d) (hfree : s.Free)
    (hhandler : s.handler = none) : RingInv { s with handler := some .test } d := by
  have hsync : ¬Writing s.main → ¬Writing (some .test) → d = s.processed := fun hnot _ => by
    refine h.synced hnot ?_
    simp [hhandler, Writing]
  refine ⟨h.core.withContexts _ _, ?_, hsync⟩
  cases h.contexts with
  | alone _ hpos =>
    obtain hmain | ⟨pc, hmain⟩ := Option.eq_none_or_eq_some s.main
    · rw [hmain] at hpos
      have hset : Settled s := hpos
      exact .handling .test rfl ⟨hset.tail, hset.passed⟩ (.inl hmain)
    · have hnot := hfree pc hmain
      rw [hmain] at hpos
      cases pc with
      | test =>
        have hset : Settled s := hpos
        exact .handling .test rfl ⟨hset.tail, hset.passed⟩ (.inr (.inl hmain))
      | advance => exact .cleared rfl hmain hpos
      | writeTail =>
        exact .handling .test rfl ⟨hpos.1.tail, hpos.1.passed⟩ (.inr (.inr ⟨hmain, hpos.2⟩))
      | _ => exact absurd trivial hnot
  | handling q hq => exact absurd (hq.symm.trans hhandler) (by simp)
  | cleared htest => exact absurd (htest.symm.trans hhandler) (by simp)

/-- Every step keeps the invariant, as long as no interrupt comes while the main context holds a
decision. -/
theorem RingInv.step {s s' : Driver} {d : ℕ} {e : Event} (h : RingInv s d)
    (hfree : e = .irq → s.Free) (hstep : Step s e s') : ∃ d', RingInv s' d' := by
  unfold Step Driver.step at hstep
  cases e with
  | nic p =>
    simp only at hstep
    split_ifs at hstep with hok
    obtain rfl := Option.some.inj hstep
    exact ⟨d, h.receive hok.2 hok.1⟩
  | poll =>
    simp only at hstep
    split_ifs at hstep with hok
    obtain rfl := Option.some.inj hstep
    obtain ⟨hmain, hhandler⟩ := hok
    refine ⟨d, h.core.withContexts _ _, .alone hhandler ?_, fun _ hnot => h.synced ?_ hnot⟩
    · cases h.contexts with
      | alone _ hpos =>
        rw [hmain] at hpos
        exact ⟨hpos.tail, hpos.passed⟩
      | handling q hq => exact absurd (hq.symm.trans hhandler) (by simp)
      | cleared htest => exact absurd (htest.symm.trans hhandler) (by simp)
    · simp [hmain, Writing]
  | irq =>
    simp only at hstep
    split_ifs at hstep with hok
    obtain rfl := Option.some.inj hstep
    exact ⟨d, h.irq (hfree rfl) hok⟩
  | cpu =>
    cases hhandler : s.handler with
    | some pc =>
      simp only [hhandler] at hstep
      obtain rfl := Option.some.inj hstep
      exact h.handler hhandler
    | none =>
      cases hmain : s.main with
      | some pc =>
        simp only [hhandler, hmain] at hstep
        obtain rfl := Option.some.inj hstep
        exact h.main hhandler hmain
      | none =>
        simp only [hhandler, hmain] at hstep
        exact absurd hstep (by simp)

end MathUnikernel.I219
