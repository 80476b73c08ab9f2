import MathUnikernel.TransferSessions

/-!
# The `hlt` of the wait loops

`read_ethernet` and `poll_payload` stop the processor between two tests of their conditions.  Until
an interrupt wakes it, the main loop does not go on.
-/

namespace MathUnikernel.Network
open Runs

/-- The processor runs, is about to execute `hlt`, or has stopped. -/
inductive Processor
  | awake
  | halting
  | asleep
  deriving DecidableEq

def Processor.wake : Processor → Processor
  | .asleep => .awake
  | p => p

/-- The test that the main loop makes next sends it into the body of a wait loop. -/
def Loader.Enters (l : Loader) : Prop :=
  match l.pc with
  | .read _ .testReady => l.net.rxReady = false
  | .read _ (.testLen read) => l.net.hdrLen ≤ read
  | .read _ .bodyWait => l.net.rxReceived ≤ 0
  | .pollPayload _ size => l.net.rxReceived < size
  | _ => False

instance (l : Loader) : Decidable l.Enters := by
  unfold Loader.Enters
  split <;> infer_instance

/-- What a wait loop waits for has come. -/
def Loader.HasCome (l : Loader) : Prop :=
  match l.pc with
  | .read _ .testReady | .read _ .testRead | .read _ (.testLen _) =>
    l.net.rxReady = true ∧ l.net.hdrRead < l.net.hdrLen
  | .read _ .bodyWait => 0 < l.net.rxReceived
  | .pollPayload _ size => size ≤ l.net.rxReceived
  | _ => True

structure Sleeper where
  link : Link
  processor : Processor

inductive SleepEvent
  /-- A step of the main loop, up to the `hlt` of the loop body. -/
  | main
  | hlt
  | link (e : LinkEvent)
  /-- An interrupt without a frame. -/
  | irq

/-- A frame arrives in an interrupt, or is passed on by the `nic_poll` of the loop body: that is
before the `hlt`.  The allocation and the workload run in the main loop. -/
inductive SleepStep : Sleeper → SleepEvent → Sleeper → Prop
  | main {s : Sleeper} (hp : s.processor = .awake) :
      SleepStep s .main
        ⟨{ s.link with loader := s.link.loader.step },
          if s.link.loader.Enters then .halting else .awake⟩
  | hlt {s : Sleeper} (hp : s.processor = .halting) :
      SleepStep s .hlt { s with processor := .asleep }
  | link {s : Sleeper} {e : LinkEvent} {l : Link} (hstep : LinkStep s.link e l) (he : e ≠ .main) :
      SleepStep s (.link e) ⟨l, s.processor.wake⟩
  | irq (s : Sleeper) : SleepStep s .irq { s with processor := s.processor.wake }

def LinkEvent.IsFrame : LinkEvent → Prop
  | .foreign _ | .send => True
  | _ => False

/-- From the last load of a test to the `hlt`. -/
def Sleeper.InWindow (s : Sleeper) : Prop :=
  s.processor = .halting ∨
    s.processor = .awake ∧ ∃ caller read, s.link.loader.pc = .read caller (.testLen read)

/-! ## The busy loop -/

/-- What a step shows: the event of the link and the state it meets, unless the step is one of the
main loop. -/
def shownLink (x : Link × LinkEvent × Link) : List (Link × LinkEvent) :=
  match x.2.1 with
  | .main => []
  | e => [(x.1, e)]

def shownSleep (x : Sleeper × SleepEvent × Sleeper) : List (Link × LinkEvent) :=
  match x.2.1 with
  | .link e => [(x.1.link, e)]
  | _ => []

theorem shownLink_of_ne {e : LinkEvent} (he : e ≠ .main) (l l' : Link) :
    shownLink (l, e, l') = [(l, e)] := by
  cases e <;> first | rfl | exact absurd rfl he

theorem mem_shownSleep {x : Sleeper × SleepEvent × Sleeper} {l : Link} {e : LinkEvent}
    (h : (l, e) ∈ shownSleep x) : x.1.link = l ∧ x.2.1 = .link e := by
  obtain ⟨s, e', t⟩ := x
  cases e' with
  | link e' =>
    obtain ⟨rfl, rfl⟩ := Prod.mk.inj (List.mem_singleton.mp h)
    exact ⟨rfl, rfl⟩
  | main | hlt | irq => exact absurd h List.not_mem_nil

/-- A main loop that sleeps does nothing that one without `hlt` could not do. -/
theorem sleep_refines {s₀ s : Sleeper} {tr : List (Sleeper × SleepEvent × Sleeper)}
    (hrun : Run SleepStep s₀ tr s) : ∃ tr', Run LinkStep s₀.link tr' s.link ∧
      tr'.flatMap shownLink = tr.flatMap shownSleep := by
  have hsim := hrun.simulate (fun s l => s.link = l) shownSleep shownLink (fun x hx l hl => by
    subst hl
    obtain ⟨s, e, t⟩ := x
    have hstep : SleepStep s e t := hrun.step_of_mem hx
    cases hstep with
    | main hp => exact ⟨_, _, Run.nil.snoc (LinkStep.main _), rfl, rfl⟩
    | hlt hp => exact ⟨[], _, .nil, rfl, rfl⟩
    | link hstep he =>
      exact ⟨_, _, Run.nil.snoc hstep, rfl, by simp [shownLink_of_ne he, shownSleep]⟩
    | irq => exact ⟨[], _, .nil, rfl, rfl⟩) rfl
  obtain ⟨tr', l, hrun', rfl, hshown⟩ := hsim
  exact ⟨tr', hrun', hshown⟩

/-! ## Sleeping -/

/-- The condition of a wait loop is to be tested from its beginning. -/
def Loader.AtTest (l : Loader) : Prop :=
  match l.pc with
  | .read _ .testReady | .read _ .bodyWait | .pollPayload _ _ => True
  | _ => False

/-- At the `hlt` and in it what the loop waits for has not come, and the index of a length test is
the current one. -/
structure Watchful (s : Sleeper) : Prop where
  waits : s.processor ≠ .awake → s.link.loader.AtTest ∧ ¬s.link.loader.HasCome
  read : s.processor = .awake → ∀ caller read, s.link.loader.pc = .read caller (.testLen read) →
    s.link.loader.net.hdrRead = read

/-- A test that fails leads back to the test, before the `hlt`. -/
theorem Loader.step_of_enters {l : Loader} (henters : l.Enters)
    (hread : ∀ caller read, l.pc = .read caller (.testLen read) → l.net.hdrRead = read) :
    l.step.AtTest ∧ ¬l.step.HasCome := by
  obtain ⟨net, pc⟩ := l
  cases pc with
  | read caller r =>
    cases r with
    | testReady =>
      have hready : net.rxReady = false := henters
      simp [Loader.step, readStep, hready, Loader.AtTest, Loader.HasCome]
    | testLen read =>
      have hle : net.hdrLen ≤ read := henters
      have heq : net.hdrRead = read := hread caller read rfl
      simp [Loader.step, readStep, hle, heq, Loader.AtTest, Loader.HasCome]
    | bodyWait =>
      have hnone : net.rxReceived ≤ 0 := henters
      simp [Loader.step, readStep, Nat.le_zero.mp hnone, Loader.AtTest, Loader.HasCome]
    | _ => exact absurd henters id
  | pollPayload dest size =>
    have hlt : net.rxReceived < size := henters
    simp [Loader.step, hlt, Loader.AtTest, Loader.HasCome]
  | _ => exact absurd henters id

theorem take_ne_testLen (byte : UInt8) (c caller : Caller) (read : ℕ) :
    c.take byte ≠ .read caller (.testLen read) := by
  cases c <;> simp only [Caller.take] <;> split_ifs <;> simp

/-- Only the load before it leads to a length test. -/
theorem Loader.testLen_step {l : Loader} {caller : Caller} {read : ℕ}
    (h : l.step.pc = .read caller (.testLen read)) : l.step.net.hdrRead = read := by
  obtain ⟨net, pc⟩ := l
  cases pc with
  | read c r =>
    cases r with
    | testRead =>
      have hread : c = caller ∧ net.hdrRead = read := by simpa [Loader.step, readStep] using h
      exact hread.2
    | loadRead | loadByte | storeRead => simp [Loader.step, readStep] at h
    | enter | testReady | testLen =>
      simp only [Loader.step, readStep] at h
      split_ifs at h <;> simp at h
    | testDone byte =>
      simp only [Loader.step, readStep] at h
      split_ifs at h
      · simp at h
      · exact absurd h (take_ne_testLen _ _ _ _)
    | setDone byte =>
      exact absurd h (take_ne_testLen _ _ _ _)
    | bodyWait =>
      simp only [Loader.step, readStep] at h
      split_ifs at h
      · simp at h
      · exact absurd h (take_ne_testLen _ _ _ _)
  | pollPayload dest size =>
    simp only [Loader.step] at h
    split_ifs at h
  | _ => simp [Loader.step] at h

theorem wake_ne_halting {p : Processor} (h : p ≠ .halting) : p.wake = .awake := by
  cases p with
  | awake | asleep => rfl
  | halting => exact absurd rfl h

theorem AtTest.not_testLen {l : Loader} (h : l.AtTest) (caller : Caller) (read : ℕ) :
    l.pc ≠ .read caller (.testLen read) := by
  intro hpc
  unfold Loader.AtTest at h
  rw [hpc] at h
  exact h

/-- A frame leaves the place of the main loop. -/
theorem Watchful.receive {s : Sleeper} (h : Watchful s) (hwindow : ¬s.InWindow) {l : Link}
    (hpc : l.loader.pc = s.link.loader.pc) : Watchful ⟨l, s.processor.wake⟩ := by
  have hawake : s.processor.wake = .awake := wake_ne_halting fun hp => hwindow (.inl hp)
  refine ⟨fun hne => absurd hawake hne, fun _ caller read hread => ?_⟩
  rw [hpc] at hread
  by_cases hp : s.processor = .awake
  · exact absurd (Or.inr ⟨hp, caller, read, hread⟩) hwindow
  · exact absurd hread (AtTest.not_testLen (h.waits hp).1 caller read)

theorem Watchful.awake_of_not_atTest {s : Sleeper} (h : Watchful s)
    (hnot : ¬s.link.loader.AtTest) : s.processor = .awake :=
  not_not.mp fun hne => hnot (h.waits hne).1

theorem Watchful.main {s : Sleeper} (h : Watchful s) (hp : s.processor = .awake) :
    Watchful ⟨{ s.link with loader := s.link.loader.step },
      if s.link.loader.Enters then .halting else .awake⟩ := by
  refine ⟨fun hne => ?_, fun _ caller read hread => Loader.testLen_step hread⟩
  by_cases henters : s.link.loader.Enters
  · exact Loader.step_of_enters henters (h.read hp)
  · exact absurd (if_neg henters) hne

theorem Watchful.step {s t : Sleeper} {e : SleepEvent} (h : Watchful s)
    (hwindow : ∀ e', e = .link e' → e'.IsFrame → ¬s.InWindow) (hstep : SleepStep s e t) :
    Watchful t := by
  cases hstep with
  | main hp => exact h.main hp
  | hlt hp => exact ⟨fun _ => h.waits (by simp [hp]), fun hawake => by simp at hawake⟩
  | @link e' l hstep he =>
    cases hstep with
    | main => exact absurd rfl he
    | foreign hdata => exact h.receive (hwindow _ rfl trivial) rfl
    | send htodo hreset => exact h.receive (hwindow _ rfl trivial) rfl
    | @alloc size dest mem hpc _ _ =>
      have hawake := h.awake_of_not_atTest (by simp [Loader.AtTest, hpc])
      rw [hawake]
      exact ⟨fun hne => absurd rfl hne, fun _ caller read hread => by simp at hread⟩
    | @next dest size w later mem hpc _ =>
      have hawake := h.awake_of_not_atTest (by simp [Loader.AtTest, hpc])
      rw [hawake]
      exact ⟨fun hne => absurd rfl hne, fun _ caller read hread => by simp at hread⟩
  | irq =>
    by_cases hp : s.processor = .asleep
    · have htest := (h.waits (by simp [hp])).1
      rw [hp]
      exact ⟨fun hne => absurd rfl hne, fun _ caller read hread =>
        absurd hread (AtTest.not_testLen htest caller read)⟩
    · have hwake : s.processor.wake = s.processor := by
        cases hq : s.processor <;> first | rfl | exact absurd hq hp
      rw [hwake]
      exact h

/-- In a phase of a paced session the kernel waits only for a frame that the sender is to send. -/
theorem Phase.owed {l : Link} (hvalid : l.current.Valid) (h : Phase l) (htest : l.loader.AtTest)
    (hnot : ¬l.loader.HasCome) : l.todo ≠ [] ∧ l.Paced := by
  cases h with
  | resetting hsofar htodo | setting dest hsofar hdone htodo =>
    unfold Loader.AtTest at htest
    cases hpc : l.loader.pc <;> rw [hpc] at hsofar htest <;>
      first | exact absurd htest id | exact absurd hsofar id
  | waiting r hidle hr htodo => exact ⟨by simp [htodo, Workload.frames], .inl htodo⟩
  | announcing hann htodo =>
    -- the header is in, and a byte of it is still to be read
    obtain ⟨-, c, -, r, hr⟩ := hann
    have hread := hr.hdrRead
    unfold Loader.AtTest at htest
    unfold Loader.HasCome at hnot
    rw [hr.pc] at htest hnot
    cases r with
    | testReady =>
      exact absurd ⟨hr.rxReady, by rw [hread]; exact hr.lt⟩ hnot
    | bodyWait => exact absurd hr.locals id
    | _ => exact absurd htest id
  | announced hpc hdone htodo =>
    unfold Loader.AtTest at htest
    rw [hpc] at htest
    exact absurd htest id
  | loading dest sent hload hdata hdest hend =>
    refine ⟨fun htodo => ?_, .inr ⟨_, _, hload.pc⟩⟩
    have hreceived := (Phase.loading dest sent hload hdata hdest hend).transferred hvalid htodo
      hload.pc
    have hset := hload.pc
    unfold Loader.AtTest at htest
    unfold Loader.HasCome at hnot
    cases hpc : l.loader.pc <;> rw [hpc] at hset htest hnot <;>
      first | exact absurd hset id | exact absurd htest id | skip
    exact hnot (hset.2.trans hreceived.1.symm).le

/-- The `hlt` leaves the phases of a paced session as they are. -/
theorem phase_of_sleep {w : Workload} {later : List Workload}
    (hvalid : ∀ v ∈ w :: later, v.Valid) {s₀ s : Sleeper} (h0 : s₀.link.Starts w later)
    {tr : List (Sleeper × SleepEvent × Sleeper)} (hrun : Run SleepStep s₀ tr s)
    (hpaced : ∀ x ∈ tr, x.2.1 = .link .send → x.1.link.Paced) :
    Phase s.link ∧ s.link.current :: s.link.later <:+ w :: later := by
  obtain ⟨tr', hrun', hshown⟩ := sleep_refines hrun
  apply phase_of_run hvalid h0 hrun'
  intro y hy hsend
  have hmem : (y.1, LinkEvent.send) ∈ tr'.flatMap shownLink := by
    obtain ⟨l, e, l'⟩ := y
    obtain rfl : e = .send := hsend
    exact List.mem_flatMap.mpr ⟨_, hy, List.mem_singleton_self _⟩
  rw [hshown] at hmem
  obtain ⟨x, hx, hxmem⟩ := List.mem_flatMap.mp hmem
  obtain ⟨hlink, hevent⟩ := mem_shownSleep hxmem
  exact hlink ▸ hpaced x hx hevent

/-! ## Without interrupts -/

/-- What the processor does by itself: a stopped one does nothing. -/
def Sleeper.go (s : Sleeper) : Sleeper :=
  match s.processor with
  | .awake =>
    ⟨{ s.link with loader := s.link.loader.step },
      if s.link.loader.Enters then .halting else .awake⟩
  | .halting => { s with processor := .asleep }
  | .asleep => s

theorem go_of_awake {s : Sleeper} (h : s.processor = .awake) :
    s.go = ⟨{ s.link with loader := s.link.loader.step },
      if s.link.loader.Enters then .halting else .awake⟩ := by
  unfold Sleeper.go
  rw [h]

/-- A goal of the busy loop is reached with the `hlt` too, if the processor stays awake before it. -/
theorem exists_go {I : Sleeper → Prop} {P : Pc → Prop}
    (hI : ∀ s, I s → ¬P s.link.loader.pc → s.processor = .awake ∧ I s.go) (k : ℕ) {s : Sleeper}
    (h : I s) (hk : P (Loader.step^[k] s.link.loader).pc) :
    ∃ j, P (Sleeper.go^[j] s).link.loader.pc := by
  induction k generalizing s with
  | zero => exact ⟨0, hk⟩
  | succ k ih =>
    by_cases hP : P s.link.loader.pc
    · exact ⟨0, hP⟩
    · obtain ⟨hawake, hnext⟩ := hI s h hP
      rw [Function.iterate_succ_apply] at hk
      have hstep : s.go.link.loader = s.link.loader.step := by rw [go_of_awake hawake]
      obtain ⟨j, hj⟩ := ih hnext (hstep ▸ hk)
      exact ⟨j + 1, hj⟩

/-- A state of a session in which no frame came between a test and the `hlt` after it. -/
structure Attentive (s : Sleeper) : Prop where
  valid : s.link.current.Valid
  phase : Phase s.link
  watchful : Watchful s

namespace Attentive

variable {s : Sleeper}

/-- It sleeps only while the sender is to send a frame. -/
theorem owed (h : Attentive s) (hsleep : s.processor ≠ .awake) :
    s.link.todo ≠ [] ∧ s.link.Paced := by
  obtain ⟨htest, hnot⟩ := h.watchful.waits hsleep
  exact h.phase.owed h.valid htest hnot

theorem go (h : Attentive s) (hawake : s.processor = .awake) : Attentive s.go := by
  rw [go_of_awake hawake]
  exact ⟨h.valid, h.phase.main h.valid.size_lt, h.watchful.main hawake⟩

theorem go_todo (hawake : s.processor = .awake) : s.go.link.todo = s.link.todo := by
  rw [go_of_awake hawake]

theorem go_current (hawake : s.processor = .awake) : s.go.link.current = s.link.current := by
  rw [go_of_awake hawake]

/-- With the header in it announces the workload. -/
theorem announces (h : Attentive s) (htodo : s.link.todo ≠ s.link.current.frames) :
    ∃ k, (Sleeper.go^[k] s).link.loader.pc.Announced s.link.current.size := by
  obtain ⟨k, hk⟩ := h.phase.eventually_announced h.valid htodo
  refine exists_go (I := fun t => Attentive t ∧ t.link.todo = s.link.todo ∧
    t.link.current = s.link.current) ?_ k ⟨h, rfl, rfl⟩ hk
  intro t ⟨ht, hsame, hcurrent⟩ hnot
  have hawake : t.processor = .awake := by
    by_contra hsleep
    obtain ⟨-, hpaced⟩ := ht.owed hsleep
    rcases hpaced with hall | ⟨dest, size, hset⟩
    · rw [hsame, hcurrent] at hall
      exact htodo hall
    · -- past the announcement
      apply hnot
      obtain ⟨sent, hloading, -⟩ := ht.phase.loading_of_destSet hset
      have hpc := hloading.pc
      rw [hcurrent] at hpc
      cases hp : t.link.loader.pc <;> rw [hp] at hpc <;>
        first | exact absurd hpc id | exact hpc.2
  exact ⟨hawake, ht.go hawake, (go_todo hawake).trans hsame, (go_current hawake).trans hcurrent⟩

/-- With the data in it loads the workload. -/
theorem loads (h : Attentive s) (htodo : s.link.todo = []) {dest size : ℕ}
    (hset : s.link.loader.pc.DestSet dest size) :
    ∃ k, (Sleeper.go^[k] s).link.loader.pc = .loaded dest size := by
  obtain ⟨k, hk⟩ := h.phase.eventually_loaded h.valid htodo hset
  refine exists_go (I := fun t => Attentive t ∧ t.link.todo = []) (P := (· = .loaded dest size)) ?_ k
    ⟨h, htodo⟩ hk
  intro t ⟨ht, hnone⟩ _
  have hawake : t.processor = .awake := by
    by_contra hsleep
    exact (ht.owed hsleep).1 hnone
  exact ⟨hawake, ht.go hawake, (go_todo hawake).trans hnone⟩

end Attentive

/-- What holds of a session however its frames meet the `hlt`. -/
structure SessionSafe (l : Link) : Prop where
  reset : l.todo = l.current.frames → ∀ caller r, l.loader.pc = .read caller r →
    caller = .unlock 0 ∧ HeaderReset l.loader.net
  announced : ∀ size, l.loader.pc.Announced size → size = l.current.size
  loaded : ∀ dest size, l.loader.pc = .loaded dest size →
    l.todo = [] ∧ ∀ i (h : i < l.current.bytes.length), l.mem (dest + i) = l.current.bytes[i]
  outside : ∀ dest size, l.loader.pc.DestSet dest size →
    ∀ a, a < dest ∨ dest + l.current.size ≤ a → l.mem a = l.base a

/-- It sleeps only while the sender is to send it a frame, and without any other interrupt it
announces a workload once the header is in and loads it once the data is in. -/
structure SessionLive (s : Sleeper) : Prop where
  owed : s.processor ≠ .awake → s.link.todo ≠ [] ∧ s.link.Paced
  announces : s.link.todo ≠ s.link.current.frames →
    ∃ k, (Sleeper.go^[k] s).link.loader.pc.Announced s.link.current.size
  loads : s.link.todo = [] → ∀ dest size, s.link.loader.pc.DestSet dest size →
    ∃ k, (Sleeper.go^[k] s).link.loader.pc = .loaded dest size

/-- With the `hlt` in its wait loops the kernel announces and loads nothing wrong; where no frame
comes between a test and the `hlt` after it, it announces and loads every workload of a paced
sender. -/
theorem sleep_sessions {w : Workload} {later : List Workload}
    (hvalid : ∀ v ∈ w :: later, v.Valid) {s₀ s : Sleeper} (h0 : s₀.link.Starts w later)
    (hawake : s₀.processor = .awake) {tr : List (Sleeper × SleepEvent × Sleeper)}
    (hrun : Run SleepStep s₀ tr s)
    (hpaced : ∀ x ∈ tr, x.2.1 = .link .send → x.1.link.Paced) :
    SessionSafe s.link ∧
      ((∀ x ∈ tr, ∀ e, x.2.1 = .link e → e.IsFrame → ¬x.1.InWindow) → SessionLive s) := by
  obtain ⟨hphase, hsuffix⟩ := phase_of_sleep hvalid h0 hrun hpaced
  have hcurrent := hvalid _ (hsuffix.subset List.mem_cons_self)
  have hok := hphase.sessionOk hcurrent
  refine ⟨⟨hok.reset, hok.announced, hok.loaded, hok.outside⟩, fun hwindow => ?_⟩
  have hstart : Watchful s₀ := by
    refine ⟨fun hne => absurd hawake hne, fun _ caller read hread => ?_⟩
    rw [h0.pc] at hread
    simp at hread
  have hwatch : Watchful s := (hrun.invariant_of_mem hstart fun x hx h =>
    h.step (hwindow x hx) (hrun.step_of_mem hx)).1
  have hattentive : Attentive s := ⟨hcurrent, hphase, hwatch⟩
  exact ⟨hattentive.owed, hattentive.announces, fun htodo _ _ => hattentive.loads htodo⟩

/-! ## A missed interrupt -/

theorem sleep_of_step {l l' : Link} {e : LinkEvent} (hstep : LinkStep l e l') :
    ∃ tr, Run SleepStep ⟨l, .awake⟩ tr ⟨l', .awake⟩ ∧
      ∀ x ∈ tr, ∀ e', x.2.1 = .link e' → x.1.link = l ∧ e' = e := by
  by_cases he : e = .main
  · subst he
    cases hstep with
    | main =>
      have hmain : SleepStep ⟨l, .awake⟩ .main _ := .main rfl
      by_cases henters : l.loader.Enters
      · -- the interrupt comes after the `hlt`
        rw [if_pos henters] at hmain
        refine ⟨_, ((Run.nil.snoc hmain).snoc (.hlt rfl)).snoc (.irq _), fun x hx e' he' => ?_⟩
        simp only [List.nil_append, List.cons_append, List.mem_cons, List.not_mem_nil,
          or_false] at hx
        rcases hx with rfl | rfl | rfl <;> simp at he'
      · rw [if_neg henters] at hmain
        refine ⟨_, Run.nil.snoc hmain, fun x hx e' he' => ?_⟩
        rw [List.mem_singleton.mp hx] at he'
        simp at he'
  · refine ⟨_, Run.nil.snoc (.link hstep he), fun x hx e' he' => ?_⟩
    rw [List.mem_singleton.mp hx] at he' ⊢
    exact ⟨rfl, (SleepEvent.link.inj he').symm⟩

/-- The busy loop is matched by a main loop that is woken by interrupts without frames. -/
theorem sleep_of_link {l l' : Link} {tr : List (Link × LinkEvent × Link)}
    (hrun : Run LinkStep l tr l') : ∃ tr', Run SleepStep ⟨l, .awake⟩ tr' ⟨l', .awake⟩ ∧
      ∀ x ∈ tr', ∀ e, x.2.1 = .link e → ∃ y ∈ tr, y.1 = x.1.link ∧ y.2.1 = e := by
  induction hrun with
  | nil => exact ⟨[], .nil, fun x hx => absurd hx List.not_mem_nil⟩
  | @snoc tr l₁ l₂ e _ hstep ih =>
    obtain ⟨tr', hrun', hfrom⟩ := ih
    obtain ⟨tr'', hrun'', hfrom'⟩ := sleep_of_step hstep
    refine ⟨_, hrun'.append hrun'', fun x hx e' he' => ?_⟩
    rcases List.mem_append.mp hx with hx | hx
    · obtain ⟨y, hy, hlink, hevent⟩ := hfrom x hx e' he'
      exact ⟨y, List.mem_append_left _ hy, hlink, hevent⟩
    · obtain ⟨hlink, rfl⟩ := hfrom' x hx e' he'
      exact ⟨(l₁, e', l₂), by simp, hlink.symm, rfl⟩

/-- Before the header the kernel falls asleep. -/
theorem run_asleep : ∃ tr s, Run SleepStep ⟨bootLink, .awake⟩ tr s ∧ s.processor = .asleep ∧
    s.link = { bootLink with loader := Loader.step^[6] bootLink.loader } ∧
    ∀ x ∈ tr, ∀ e, x.2.1 = .link e → e = .main := by
  obtain ⟨tr, hrun, hmain⟩ := run_main (.nil : Run LinkStep bootLink [] bootLink) 5
  obtain ⟨tr', hrun', hfrom⟩ := sleep_of_link hrun
  have htest := hrun'.snoc (.main rfl)
  have henters : (Loader.step^[5] bootLink.loader).Enters := rfl
  rw [if_pos henters] at htest
  refine ⟨_, _, htest.snoc (.hlt rfl), rfl, rfl, fun x hx e he => ?_⟩
  simp only [List.append_assoc, List.mem_append, List.cons_append, List.nil_append, List.mem_cons,
    List.not_mem_nil, or_false] at hx
  rcases hx with hx | rfl | rfl
  · obtain ⟨y, hy, -, rfl⟩ := hfrom x hx e he
    exact hmain y hy
  · simp at he
  · simp at he

/-- It sleeps until the header comes, and then announces the workload. -/
theorem sleep_sessions_boot : ∃ tr s t, Run SleepStep ⟨bootLink, .awake⟩ tr s ∧
    s.processor = .asleep ∧ (s.link.todo ≠ [] ∧ s.link.Paced) ∧ SleepStep s (.link .send) t ∧
    SessionSafe t.link ∧ ∃ k, (Sleeper.go^[k] t).link.loader.pc.Announced 1 := by
  have hall : ∀ v ∈ [retWorkload], v.Valid := fun v hv => List.mem_singleton.mp hv ▸ retWorkload_valid
  have hboot : (⟨bootLink, .awake⟩ : Sleeper).link.Starts retWorkload [] := bootLink_starts
  obtain ⟨tr, s, hrun, hasleep, hlink, hmain⟩ := run_asleep
  obtain ⟨-, hlive⟩ := sleep_sessions hall hboot rfl hrun fun x hx hx' =>
    absurd (hmain x hx _ hx') (by simp)
  have howed := (hlive fun x hx e he hframe =>
    absurd hframe (by rw [hmain x hx e he]; exact id)).owed (by simp [hasleep])
  have htodo : s.link.todo = retWorkload.frames := by rw [hlink]; rfl
  have hsend : LinkStep s.link .send _ := .send htodo (by rw [hlink]; exact id)
  have hheader := hrun.snoc (.link hsend (by simp))
  obtain ⟨hsafe, hlive'⟩ := sleep_sessions hall hboot rfl hheader fun x hx hx' => by
    rcases List.mem_append.mp hx with hx | hx
    · exact absurd (hmain x hx _ hx') (by simp)
    · rw [List.mem_singleton.mp hx]
      exact howed.2
  have hannounces := (hlive' fun x hx e he hframe => by
    rcases List.mem_append.mp hx with hx | hx
    · exact absurd hframe (by rw [hmain x hx e he]; exact id)
    · rw [List.mem_singleton.mp hx]
      rintro (hhalting | ⟨hawake, -⟩)
      · simp [hasleep] at hhalting
      · simp [hasleep] at hawake).announces
  have hcurrent : s.link.current = retWorkload := by rw [hlink]; rfl
  refine ⟨tr, s, _, hrun, hasleep, howed, .link hsend (by simp), hsafe, ?_⟩
  have hk := hannounces (by
    change retWorkload.data ≠ s.link.current.frames
    rw [hcurrent]
    exact fun h => absurd (congrArg List.length h) (by decide))
  rwa [show (s.link.receive retWorkload.header).current = s.link.current from rfl, hcurrent] at hk

/-- Without an interrupt a main loop at the `hlt` does not go on, whatever it waits for. -/
theorem asleep_of_quiet {s t : Sleeper} {tr : List (Sleeper × SleepEvent × Sleeper)}
    (hrun : Run SleepStep s tr t) (hs : s.processor ≠ .awake)
    (hquiet : ∀ x ∈ tr, x.2.1 = .main ∨ x.2.1 = .hlt) :
    t.link = s.link ∧ t.processor ≠ .awake := by
  refine (hrun.invariant_of_guard (I := fun t => t.link = s.link ∧ t.processor ≠ .awake)
    (G := fun _ e => e = .main ∨ e = .hlt) ⟨rfl, hs⟩ ?_ hquiet).1
  intro u e v hu he hstep
  cases hstep with
  | main hp => exact absurd hp hu.2
  | hlt hp => exact ⟨hu.1, by simp⟩
  | link _ _ | irq => simp at he

/-- A paced session in which all data frames but the last have arrived. -/
theorem run_all_but_last {w : Workload} {later : List Workload} (hvalid : w.Valid) {l₀ : Link}
    (h0 : l₀.Starts w later) : ∃ tr l data, Run LinkStep l₀ tr l ∧
      (∀ x ∈ tr, x.2.1 = .send → x.1.Paced) ∧ l.todo = [data] ∧
      l.loader.pc = .pollPayload 1 w.size ∧ l.current = w := by
  obtain ⟨hpc₀, rfl, htodo₀, -⟩ := h0
  obtain ⟨chunks, last, padding, hmap, -⟩ := hvalid.cut
  have hdata : l₀.current.data ≠ [] := by
    intro hnil
    rw [hnil] at hmap
    simp at hmap
  obtain ⟨sent, data, hsent⟩ := List.eq_nil_or_concat l₀.current.data |>.resolve_left hdata
  have hend : 1 + l₀.current.size ≤ 2 ^ 64 := by
    have := hvalid.size_lt
    omega
  obtain ⟨tr, l, hrun, hdisciplined, hpc, htodo, hcurrent, -⟩ :=
    run_loading hvalid hpc₀ htodo₀ (hsent.trans List.concat_eq_append) Nat.one_ne_zero hend
  exact ⟨tr, l, data, hrun, fun x hx hx' => (hdisciplined x hx hx').paced, htodo, hpc, hcurrent⟩

/-- For every workload there is a paced session whose last frame arrives between the test of
`poll_payload` and its `hlt`: all bytes are in place, and the kernel sleeps until another
interrupt comes. -/
theorem last_frame_missed {w : Workload} {later : List Workload}
    (hvalid : ∀ v ∈ w :: later, v.Valid) {l₀ : Link} (h0 : l₀.Starts w later) :
    ∃ tr s dest size, Run SleepStep ⟨l₀, .awake⟩ tr s ∧
      (∀ x ∈ tr, x.2.1 = .link .send → x.1.link.Paced) ∧ s.processor = .asleep ∧
      s.link.todo = [] ∧ s.link.loader.pc = .pollPayload dest size ∧
      s.link.loader.net.rxReceived = w.size ∧
      (∀ i (h : i < w.bytes.length), s.link.mem (dest + i) = w.bytes[i]) ∧
      ∀ tr' t, Run SleepStep s tr' t → (∀ x ∈ tr', x.2.1 = .main ∨ x.2.1 = .hlt) →
        t.link.loader.pc = .pollPayload dest size := by
  have hw : w.Valid := hvalid w List.mem_cons_self
  obtain ⟨tr, l, data, hrun, hpaced, htodo, hpc, hcurrent⟩ := run_all_but_last hw h0
  have hset : l.loader.pc.DestSet 1 w.size := by
    rw [hpc]
    exact ⟨rfl, rfl⟩
  obtain ⟨hphase, -⟩ := phase_of_run hvalid h0 hrun hpaced
  obtain ⟨sent, hload, hdata⟩ := hphase.loading_of_destSet hset
  -- bytes are missing as long as the last frame is
  have hmissing : l.loader.net.rxReceived < w.size := by
    have hcut := hw.cut
    rw [← hcurrent, hdata] at hcut
    have hlt := hcut.length_lt (by simp [htodo])
    rw [hcurrent, hw.length] at hlt
    rw [hload.rxReceived, hcurrent]
    omega
  have henters : l.loader.Enters := by
    unfold Loader.Enters
    rw [hpc]
    exact hmissing
  have hstay : l.loader.step = l.loader := by
    unfold Loader.step
    rw [hpc]
    exact if_pos hmissing
  obtain ⟨tr', hrun', hfrom⟩ := sleep_of_link hrun
  have htest : SleepStep ⟨l, .awake⟩ .main ⟨l, .halting⟩ := by
    have hmain : SleepStep ⟨l, .awake⟩ .main _ := .main rfl
    rw [if_pos henters, hstay] at hmain
    exact hmain
  have hsend : LinkStep l .send { l.receive data with todo := [] } :=
    .send htodo (by rw [hpc]; exact id)
  have hasleep := ((hrun'.snoc htest).snoc (.link hsend (by simp))).snoc (.hlt rfl)
  have hphase' := hphase.step (hcurrent ▸ hw) (fun _ => .inr ⟨_, _, hset⟩) hsend
  have hset' : (l.receive data).loader.pc.DestSet 1 w.size := hset
  obtain ⟨hreceived, hbytes⟩ := hphase'.transferred (hcurrent ▸ hw) rfl hset'
  have hpaced' : ∀ x ∈ tr', x.2.1 = .link .send → x.1.link.Paced := by
    intro x hx hx'
    obtain ⟨y, hy, hlink, hevent⟩ := hfrom x hx _ hx'
    rw [← hlink]
    exact hpaced y hy hevent
  refine ⟨_, _, 1, w.size, hasleep, fun x hx hx' => ?_, rfl, rfl, hpc, ?_, ?_, ?_⟩
  · simp only [List.append_assoc, List.mem_append, List.cons_append, List.nil_append, List.mem_cons,
      List.not_mem_nil, or_false] at hx
    rcases hx with hx | rfl | rfl | rfl
    · exact hpaced' x hx hx'
    · simp at hx'
    · exact .inr ⟨_, _, hset⟩
    · simp at hx'
  · exact hreceived.trans (congrArg Workload.size hcurrent)
  · subst hcurrent
    exact hbytes
  · intro tr'' t hrun'' hquiet
    rw [(asleep_of_quiet hrun'' (by simp) hquiet).1]
    exact hpc

theorem last_frame_missed_ret : ∃ tr s dest size, Run SleepStep ⟨bootLink, .awake⟩ tr s ∧
    (∀ x ∈ tr, x.2.1 = .link .send → x.1.link.Paced) ∧ s.processor = .asleep ∧
    s.link.todo = [] ∧ s.link.loader.pc = .pollPayload dest size ∧
    s.link.loader.net.rxReceived = 1 ∧
    (∀ i (h : i < retWorkload.bytes.length), s.link.mem (dest + i) = retWorkload.bytes[i]) ∧
    ∀ tr' t, Run SleepStep s tr' t → (∀ x ∈ tr', x.2.1 = .main ∨ x.2.1 = .hlt) →
      t.link.loader.pc = .pollPayload dest size :=
  last_frame_missed (fun _ hv => List.mem_singleton.mp hv ▸ retWorkload_valid) bootLink_starts

end MathUnikernel.Network
