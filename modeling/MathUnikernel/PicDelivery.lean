import MathUnikernel.PicRuns

/-!
# Requests and handlers

Every request of a line leads to one call of its handler, however the devices and the kernel
interleave.
-/

namespace MathUnikernel.Pic
open Arbiter Runs

/-! ## Lines -/

/-- A line is an input of the first controller or one of the second. -/
theorem irq_cases (n : Irq) : (∃ i : Fin 8, n = line1 i) ∨ ∃ j : Fin 8, n = line2 j := by
  revert n
  decide

@[simp] theorem line1_inj {i j : Fin 8} : line1 i = line1 j ↔ i = j :=
  (Fin.castAdd_injective 8 8).eq_iff

@[simp] theorem line2_inj {i j : Fin 8} : line2 i = line2 j ↔ i = j :=
  (Fin.natAdd_injective 8 8).eq_iff

@[simp] theorem line1_ne_line2 (i j : Fin 8) : line1 i ≠ line2 j := by
  revert i j
  decide

@[simp] theorem line2_ne_line1 (i j : Fin 8) : line2 i ≠ line1 j := (line1_ne_line2 j i).symm

section
variable (p : Pair) (i j : Fin 8) (f : State (Fin 8) → State (Fin 8))

@[simp] theorem input_line1 : input (line1 i) = i := by
  revert i
  decide

@[simp] theorem input_line2 : input (line2 j) = j := by
  revert j
  decide

@[simp] theorem levels_line1 : p.levels (line1 i) = p.pic1.levels := if_pos i.isLt

@[simp] theorem levels_line2 : p.levels (line2 j) = p.pic2.levels := if_neg (by simp [line2])

@[simp] theorem setLevels_line1 : p.setLevels (line1 i) f =
    { p with pic1 := { p.pic1 with levels := f p.pic1.levels } } := if_pos i.isLt

@[simp] theorem setLevels_line2 : p.setLevels (line2 j) f =
    { p with pic2 := { p.pic2 with levels := f p.pic2.levels } } := if_neg (by simp [line2])

@[simp] theorem requested_line1 :
    p.Requested (line1 i) ↔ i ∈ p.pic1.levels.requested := by
  simp [Pair.Requested]

@[simp] theorem requested_line2 :
    p.Requested (line2 j) ↔ j ∈ p.pic2.levels.requested := by
  simp [Pair.Requested]

end

theorem requested_request (p : Pair) (m n : Irq) :
    (p.request m).Requested n ↔ n = m ∨ p.Requested n := by
  rcases irq_cases m with ⟨i, rfl⟩ | ⟨i, rfl⟩ <;> rcases irq_cases n with ⟨j, rfl⟩ | ⟨j, rfl⟩ <;>
    simp [Pair.request, State.request]

theorem requested_withdraw (p : Pair) (m n : Irq) :
    (p.withdraw m).Requested n ↔ n ≠ m ∧ p.Requested n := by
  rcases irq_cases m with ⟨i, rfl⟩ | ⟨i, rfl⟩ <;> rcases irq_cases n with ⟨j, rfl⟩ | ⟨j, rfl⟩ <;>
    simp [Pair.withdraw, State.withdraw]

theorem mem_requested_of_first {c : Controller} {i : Fin 8} (h : first c.candidates = some i) :
    i ∈ c.levels.requested :=
  (State.mem_candidates.mp (first_eq_some_iff.mp h).1).1

theorem requested_serve1 (p : Pair) (i : Fin 8) (n : Irq) :
    ({ p with pic1 := { p.pic1 with levels := p.pic1.levels.serve i } } : Pair).Requested n ↔
      n ≠ line1 i ∧ p.Requested n := by
  rcases irq_cases n with ⟨j, rfl⟩ | ⟨j, rfl⟩ <;> simp [State.serve]

theorem requested_serve2 (p : Pair) (i : Fin 8) (n : Irq) :
    ({ p with pic2 := { p.pic2 with levels := p.pic2.levels.serve i } } : Pair).Requested n ↔
      n ≠ line2 i ∧ p.Requested n := by
  rcases irq_cases n with ⟨j, rfl⟩ | ⟨j, rfl⟩ <;> simp [State.serve]

/-- An acknowledged request is pending before and not after; no other request of a device changes. -/
theorem Acknowledged.requested {p q : Pair} {vector : UInt8} {taken : Option Irq}
    (h : Acknowledged p vector taken q) {n : Irq} (hn : n ≠ 2) :
    (q.Requested n ↔ taken ≠ some n ∧ p.Requested n) ∧ (taken = some n → p.Requested n) := by
  have hn2 : n ≠ line1 2 := hn
  rcases h with ⟨-, -, rfl, rfl⟩ | ⟨i, hfirst, -, -, rfl, rfl⟩ | ⟨-, -, -, rfl, rfl⟩ |
    ⟨j, -, hfirst, -, rfl, rfl⟩
  · simp
  · rw [requested_serve1, Option.some_inj, Ne, Ne, Option.some_inj, eq_comm]
    refine ⟨Iff.rfl, ?_⟩
    rintro rfl
    exact (requested_line1 p i).mpr (mem_requested_of_first hfirst)
  · simp [requested_serve1, hn2]
  · have hserve := requested_serve2
      { p with pic1 := { p.pic1 with levels := p.pic1.levels.serve 2 } } j n
    rw [requested_serve1] at hserve
    refine ⟨hserve.trans ?_, ?_⟩
    · simp [hn2, eq_comm]
    · rintro ⟨⟩
      exact (requested_line2 p j).mpr (mem_requested_of_first hfirst)

theorem Acknowledged.vector_eq {p q : Pair} {vector : UInt8} {taken : Option Irq}
    (h : Acknowledged p vector taken q) {n : Irq} (htaken : taken = some n) :
    vector = lineVector n := by
  rcases h with ⟨-, -, hnone, -⟩ | ⟨i, -, -, hvector, hsome, -⟩ | ⟨-, -, -, hnone, -⟩ |
    ⟨j, -, -, hvector, hsome, -⟩
  · simp [hnone] at htaken
  · rw [hvector, Option.some.inj (hsome.symm.trans htaken)]
  · simp [hnone] at htaken
  · rw [hvector, Option.some.inj (hsome.symm.trans htaken)]

/-! ## Accounts -/

/-- 1 while the request of line `n` is pending. -/
def pending (n : Irq) (s : System) : ℕ := if s.pics.Requested n then 1 else 0

def isRequest (n : Irq) (e : Event) : Bool := e = .request n

/-- The events that take a request of line `n` back or to the processor. -/
def isEnd (n : Irq) (e : Event) : Bool :=
  e = .withdraw n ∨ e = .interrupt (lineVector n) (some n)

theorem requested_finish {p q : Pair}
    (h1 : q.pic1.levels.requested = p.pic1.levels.requested)
    (h2 : q.pic2.levels.requested = p.pic2.levels.requested) (n : Irq) :
    q.Requested n ↔ p.Requested n := by
  rcases irq_cases n with ⟨j, rfl⟩ | ⟨j, rfl⟩ <;> simp [h1, h2]

theorem requested_eoi (p : Pair) {port : UInt16} (h : port = pic1Command ∨ port = pic2Command) :
    (p.outb (port, picEoi)).pic1.levels.requested = p.pic1.levels.requested ∧
      (p.outb (port, picEoi)).pic2.levels.requested = p.pic2.levels.requested ∧
      SameSetup (p.outb (port, picEoi)) p := by
  rcases h with rfl | rfl
  · rw [outb_pic1Command, outbCommand_eoi]
    exact ⟨State.finish_requested, rfl, rfl, rfl⟩
  · rw [outb_pic2Command, outbCommand_eoi]
    exact ⟨rfl, State.finish_requested, rfl, rfl⟩

theorem pending_step {s t : System} {e : Event} {n : Irq} (h : Serviced s) (hout : s.Remapped)
    (hn : n ≠ 2) (hstep : Step s e t) :
    pending n t + (isEnd n e).toNat = pending n s + (isRequest n e).toNat := by
  unfold pending isEnd isRequest
  cases hstep with
  | @request irq hirq hnot =>
    simp only [requested_request]
    by_cases heq : n = irq
    · subst heq
      simp [hnot]
    · simp [heq, Ne.symm heq]
  | @withdraw irq hirq hreq =>
    simp only [requested_withdraw]
    by_cases heq : n = irq
    · subst heq
      simp [hreq]
    · simp [heq, Ne.symm heq]
  | cascade hint hnot =>
    simp [Pair.cascade, requested_request, hn]
  | write hpc => exact absurd hpc (hout _)
  | remapped hpc => exact absurd hpc (hout _)
  | unmask irq hpc =>
    obtain ⟨-, -, h1, h2⟩ := picUnmask_eq h.ready irq (Pci.Machine.boot (fun _ _ => 0) 0 0)
    have hreq := requested_finish (congrArg State.requested h1) (congrArg State.requested h2) n
    simp [hreq]
  | sti hpc => simp
  | cli hpc => simp
  | @interrupt vector taken pics hpc hif hack =>
    have hspec := acknowledge_spec h.ready hack
    obtain ⟨hafter, hbefore⟩ := hspec.requested hn
    by_cases htaken : taken = some n
    · simp [hafter, hbefore htaken, htaken, hspec.vector_eq htaken]
    · simp [hafter, htaken]
  | call hpc => simp
  | @eoi port rest hpc =>
    obtain ⟨h1, h2, -⟩ := requested_eoi s.pics (h.due port (by simp [hpc, Pc.due]))
    have hreq := requested_finish h1 h2 n
    simp [hreq]
  | iret hpc => simp

/-- 1 while the kernel is before the handler of line `n`. -/
def entered (n : Irq) (s : System) : ℕ := if s.pc = .handler (UInt8.ofNat n) then 1 else 0

/-- An interrupt on the vector of line `n`. -/
def isArrival (n : Irq) : Event → Bool
  | .interrupt vector _ => vector = lineVector n
  | _ => false

def isCall (n : Irq) (e : Event) : Bool := e = .call (UInt8.ofNat n)

theorem dispatch_arrival {vector : UInt8} {taken : Option Irq} (h : Arrives vector taken) (n : Irq) :
    dispatch vector = .handler (UInt8.ofNat n) ↔ vector = lineVector n := by
  have hline : ∀ m n : Irq, dispatch (lineVector m) = .handler (UInt8.ofNat n) ↔
      lineVector m = lineVector n := by decide
  cases h with
  | line irq _ => exact hline irq n
  | spurious1 => exact hline 7 n
  | spurious2 => exact hline 15 n

theorem entered_step {s t : System} {e : Event} {n : Irq} (h : Serviced s) (hout : s.Remapped)
    (hstep : Step s e t) :
    entered n t + (isCall n e).toNat = entered n s + (isArrival n e).toNat := by
  unfold entered isCall isArrival
  cases hstep with
  | request _ _ | withdraw _ _ | cascade _ _ | unmask _ _ | sti _ | cli _ => simp
  | write hpc => exact absurd hpc (hout _)
  | remapped hpc => exact absurd hpc (hout _)
  | @interrupt vector taken pics hpc hif hack =>
    have harrives := dispatch_arrival (h.interrupt hpc hack).2 n
    by_cases hvector : vector = lineVector n
    · simp [hpc, hvector, dispatch_line]
    · simp [hpc, harrives, hvector]
  | @call irq hpc =>
    by_cases hirq : irq = UInt8.ofNat n <;> simp [hpc, hirq]
  | eoi hpc => simp [hpc]
  | iret hpc => simp [hpc]

/-- From any state after `pic_remap` on: the requests of a line are those that the device took back,
those that an interrupt took and the one that is still pending, and each interrupt on its vector has
led to one call of its handler, the last one possibly to come. -/
theorem irqs_accounted {p : Pair} {tr tr' : List (System × Event × System)} {s t : System}
    (hboot : Run Step (boot p) tr s) (hs : s.Remapped) (hrun : Run Step s tr' t) {n : Irq}
    (hn : n ≠ 2) :
    pending n t + tr'.countP (fun x => isEnd n x.2.1) =
        pending n s + tr'.countP (fun x => isRequest n x.2.1) ∧
      entered n t + tr'.countP (fun x => isCall n x.2.1) =
        entered n s + tr'.countP (fun x => isArrival n x.2.1) := by
  have hstart : Inv p s ∧ s.Remapped := ⟨(inv_of_run hboot).1, hs⟩
  have hall := (hrun.invariant (I := fun u => Inv p u ∧ u.Remapped) hstart
    fun u e v hu hstep => ⟨hu.1.step hstep, hu.2.step hstep⟩).2
  constructor
  · apply hrun.balance (pending n) (isRequest n) (isEnd n)
    intro x hx
    have hinv := (hall x hx).1
    exact pending_step (hinv.1.serviced hinv.2) hinv.2 hn (hrun.step_of_mem hx)
  · apply hrun.balance (entered n) (isArrival n) (isCall n)
    intro x hx
    have hinv := (hall x hx).1
    exact entered_step (hinv.1.serviced hinv.2) hinv.2 (hrun.step_of_mem hx)

/-- One request of line 11, one interrupt for it and one call of its handler. -/
theorem irqs_accounted_line11 : ∃ tr t,
    Run Step ⟨picUnmask 11 (picRemap 32 40 coldPair), true, .running⟩ tr t ∧
    tr.map (·.2.1) =
      [.request 11, .cascade, .interrupt 43 (some 11), .call 11, .eoi, .eoi, .iret] ∧
    pending 11 t + 1 = 0 + 1 ∧ entered 11 t + 1 = 0 + 1 := by
  obtain ⟨tr₀, hrun₀⟩ := run_open11
  obtain ⟨tr, t, hrun, hlabels⟩ : ∃ tr t,
      Run Step ⟨picUnmask 11 (picRemap 32 40 coldPair), true, .running⟩ tr t ∧
      tr.map (·.2.1) =
        [.request 11, .cascade, .interrupt 43 (some 11), .call 11, .eoi, .eoi, .iret] := by
    obtain ⟨tr, s, tr', t, hrun, hlabels, -, hrun', hlabels', -⟩ := run_served11
    refine ⟨_, t, ((Run.nil.snoc request_line11).append hrun).append hrun', ?_⟩
    rw [List.map_append, List.map_append, hlabels, hlabels']
    rfl
  have hcount : ∀ q : Event → Bool, tr.countP (fun x => q x.2.1) = List.countP q
      [.request 11, .cascade, .interrupt 43 (some 11), .call 11, .eoi, .eoi, .iret] := by
    intro q
    rw [← hlabels, List.countP_map]
    rfl
  obtain ⟨hpending, hentered⟩ := irqs_accounted (n := 11) hrun₀ (fun _ => by simp) hrun (by decide)
  rw [hcount (isEnd 11), hcount (isRequest 11)] at hpending
  rw [hcount (isCall 11), hcount (isArrival 11)] at hentered
  exact ⟨tr, t, hrun, hlabels, hpending, hentered⟩

/-! ## Delivery -/

theorem enabled_line1 (p : Pair) (i : Fin 8) :
    p.Enabled (line1 i) ↔ p.pic1.enabled i = true := by
  have hlow : (line1 i).val < 8 := i.isLt
  rw [Pair.Enabled, if_pos hlow, input_line1]

theorem enabled_line2 (p : Pair) (j : Fin 8) :
    p.Enabled (line2 j) ↔ p.pic2.enabled j = true ∧ p.pic1.enabled 2 = true := by
  have hhigh : ¬(line2 j).val < 8 := by simp [line2]
  rw [Pair.Enabled, if_neg hhigh, input_line2]

/-- `pic_unmask` enables its line. -/
theorem enabled_picUnmask {p : Pair} (h : p.Ready 32 40) (n : Irq) :
    (picUnmask (UInt8.ofNat n) p).Enabled n := by
  have hmask := (picUnmask_eq h (UInt8.ofNat n) (Pci.Machine.boot (fun _ _ => 0) 0 0)).1
  have hopen := Pci.unmasked_picUnmask (ofNat_lt n) (masks p (Pci.Machine.boot (fun _ _ => 0) 0 0))
  rw [← hmask] at hopen
  unfold Pci.Machine.Unmasked masks at hopen
  have hlow : ∀ i, UInt8.ofNat (line1 i) < 8 ∧ (UInt8.ofNat (line1 i)).toNat = i.val := by decide
  have hhigh : ∀ j, ¬UInt8.ofNat (line2 j) < 8 ∧ (UInt8.ofNat (line2 j)).toNat - 8 = j.val := by
    decide
  rcases irq_cases n with ⟨i, rfl⟩ | ⟨j, rfl⟩
  · rw [if_pos (hlow i).1, (hlow i).2] at hopen
    rw [enabled_line1, Controller.enabled, hopen, Bool.not_false]
  · rw [if_neg (hhigh j).1, (hhigh j).2] at hopen
    rw [enabled_line2, Controller.enabled, Controller.enabled, hopen.1, Bool.not_false]
    exact ⟨rfl, congrArg not hopen.2⟩

/-- The interrupt requests that the second controller passes on to the first. -/
def Controller.waiting (c : Controller) : Finset (Fin 8) :=
  c.levels.requested.filter fun i => c.enabled i = true

/-- Input 2 of the first controller: a request there is one interrupt, and requests that wait at the
second controller are still to become one. -/
def cascadeRank (p : Pair) : ℕ :=
  if cascadeInput ∈ p.pic1.levels.requested then 1 else if p.pic2.waiting.Nonempty then 2 else 0

/-- A bound on the steps of the kernel until no request is left. -/
def requestRank (p : Pair) : ℕ :=
  4 * p.pic2.waiting.card + (p.pic1.levels.requested.erase cascadeInput).card + cascadeRank p

def pcRank : Pc → ℕ
  | .handler _ => 4
  | .eoi rest => rest.length + 1
  | _ => 0

def rank (s : System) : ℕ := 5 * requestRank s.pics + pcRank s.pc

/-- The steps of the kernel and of the controllers, with interrupts only on a signal. -/
def Quiet (s : System) : Event → Prop
  | .cascade | .call _ | .eoi | .iret => True
  | .interrupt _ _ => s.pics.pic1.candidates.Nonempty
  | _ => False

theorem pcRank_eoiPorts (irq : UInt8) : pcRank (.eoi (eoiPorts irq)) ≤ 3 := by
  unfold eoiPorts
  split_ifs <;> simp [pcRank]

theorem pcRank_dispatch (vector : UInt8) : pcRank (dispatch vector) ≤ 4 := by
  unfold dispatch
  split_ifs <;> simp [pcRank]

theorem candidates_subset (c : Controller) : c.candidates ⊆ c.waiting := by
  intro i hi
  obtain ⟨hreq, hen, -⟩ := State.mem_candidates.mp hi
  exact Finset.mem_filter.mpr ⟨hreq, hen⟩

theorem candidates_of_idle {c : Controller} (h : c.levels.Idle) : c.candidates = c.waiting := by
  ext i
  rw [Controller.waiting, Finset.mem_filter]
  exact h.mem_candidates

theorem requestRank_congr {p q : Pair}
    (h1 : q.pic1.levels.requested = p.pic1.levels.requested)
    (h2 : q.pic2.levels.requested = p.pic2.levels.requested) (hsame : SameSetup q p) :
    requestRank q = requestRank p := by
  have hwaiting : q.pic2.waiting = p.pic2.waiting := by
    unfold Controller.waiting Controller.enabled
    rw [h2, hsame.pic2]
  simp only [requestRank, cascadeRank, h1, hwaiting]

theorem requestRank_cascade {p : Pair} (hint : p.pic2.candidates.Nonempty)
    (hnot : ¬p.Requested 2) : requestRank p.cascade < requestRank p := by
  have hwaiting : p.pic2.waiting.Nonempty := hint.mono (candidates_subset _)
  have hnot' : 2 ∉ p.pic1.levels.requested := mt (requested_line1 p 2).mpr hnot
  have hcascade : p.cascade =
      { p with pic1 := { p.pic1 with levels := p.pic1.levels.request 2 } } :=
    setLevels_line1 p 2 fun s => s.request 2
  rw [hcascade]
  simp [requestRank, cascadeRank, State.request, Finset.erase_insert_eq_erase, hnot', hwaiting]

theorem requestRank_acknowledge {p q : Pair} {vector : UInt8} {taken : Option Irq}
    (h : Acknowledged p vector taken q) (hsignal : p.pic1.candidates.Nonempty)
    (hidle : p.pic2.levels.Idle) : requestRank q < requestRank p := by
  rcases h with ⟨hfirst, -, -, -⟩ | ⟨i, hfirst, hi, -, -, rfl⟩ | ⟨hfirst, hfirst2, -, -, rfl⟩ |
    ⟨j, hfirst, hfirst2, -, -, rfl⟩
  · exact absurd (first_eq_none_iff.mp hfirst) hsignal.ne_empty
  · -- one request less at the other inputs of the first controller
    have hmem : i ∈ p.pic1.levels.requested.erase cascadeInput :=
      Finset.mem_erase.mpr ⟨hi, mem_requested_of_first hfirst⟩
    have hlt := Finset.card_erase_lt_of_mem hmem
    rw [Finset.erase_right_comm] at hlt
    have hcascade : cascadeInput ∈ p.pic1.levels.requested.erase i ↔
        cascadeInput ∈ p.pic1.levels.requested := by
      simp [hi.symm]
    simp only [requestRank, cascadeRank, State.serve, hcascade]
    omega
  · -- nothing waits at the second controller, so input 2 is not requested again
    have hmem := mem_requested_of_first hfirst
    have hnone : p.pic2.waiting = ∅ := by
      rw [← candidates_of_idle hidle]
      exact first_eq_none_iff.mp hfirst2
    simp [requestRank, cascadeRank, State.serve, hnone, hmem]
  · -- what waits besides may raise input 2 again
    have hmem := mem_requested_of_first hfirst
    have hwaiting : j ∈ p.pic2.waiting := candidates_subset _ (first_eq_some_iff.mp hfirst2).1
    have hlt := Finset.card_erase_lt_of_mem hwaiting
    have herase : ({ p.pic2 with levels := p.pic2.levels.serve j } : Controller).waiting =
        p.pic2.waiting.erase j := Finset.filter_erase _ _ _
    have hcascade : cascadeRank
        { pic1 := { p.pic1 with levels := p.pic1.levels.serve 2 }
          pic2 := { p.pic2 with levels := p.pic2.levels.serve j } } ≤ 2 := by
      unfold cascadeRank
      split_ifs <;> decide
    have hrest : (p.pic1.levels.serve 2).requested.erase cascadeInput =
        p.pic1.levels.requested.erase cascadeInput :=
      Finset.erase_idem
    unfold requestRank
    rw [herase, hrest]
    omega

/-- Every step of the kernel and of the controllers brings the requests nearer to their end. -/
theorem rank_step {s t : System} {e : Event} (h : Serviced s) (hstep : Step s e t)
    (hquiet : Quiet s e) : rank t < rank s := by
  unfold rank
  cases hstep with
  | cascade hint hnot =>
    have hlt := requestRank_cascade hint hnot
    simp only
    omega
  | @interrupt vector taken pics hpc hif hack =>
    have hlt := requestRank_acknowledge (acknowledge_spec h.ready hack) hquiet (h.idle hpc).2
    have hle := pcRank_dispatch vector
    simp only
    omega
  | @call irq hpc =>
    have hle := pcRank_eoiPorts irq
    simp only [hpc, pcRank] at hle ⊢
    omega
  | @eoi port rest hpc =>
    obtain ⟨h1, h2, hsame⟩ := requested_eoi s.pics (h.due port (by simp [hpc, Pc.due]))
    have heq := requestRank_congr h1 h2 hsame
    simp only [heq, hpc, pcRank, List.length_cons]
    omega
  | iret hpc => simp [hpc, pcRank]
  | request _ _ | withdraw _ _ | write _ | remapped _ | unmask _ _ | sti _ | cli _ =>
    exact absurd hquiet id

theorem Pair.Enabled.congr {p q : Pair} {n : Irq} (h : p.Enabled n) (hsame : SameSetup q p) :
    q.Enabled n := by
  unfold Pair.Enabled Controller.enabled at h ⊢
  rwa [hsame.pic1, hsame.pic2]

theorem sameSetup_step {s t : System} {e : Event} (h : Serviced s) (hstep : Step s e t)
    (hquiet : Quiet s e) : SameSetup t.pics s.pics := by
  cases hstep with
  | cascade _ _ => exact sameSetup_setLevels 2 (fun s => s.request _) _
  | interrupt _ _ hack =>
    have hsame := sameSetup_acknowledge s.pics
    rwa [hack] at hsame
  | eoi hpc => exact (requested_eoi s.pics (h.due _ (by simp [hpc, Pc.due]))).2.2
  | call _ | iret _ => exact SameSetup.refl _
  | request _ _ | withdraw _ _ | write _ | remapped _ | unmask _ _ | sti _ | cli _ =>
    exact absurd hquiet id

/-- The request of an enabled line is pending, or the kernel is about to call its handler. -/
structure Waits (n : Irq) (s : System) : Prop where
  enabled : s.pics.Enabled n
  request : s.pics.Requested n ∨ s.pc = .handler (UInt8.ofNat n)
  interrupts : s.pc = .running → s.interrupts = true

theorem waits_iff (n : Irq) (s : System) :
    (s.pics.Requested n ∨ s.pc = .handler (UInt8.ofNat n)) ↔ 0 < pending n s + entered n s := by
  unfold pending entered
  split_ifs <;> simp_all

/-- Of the steps of the kernel and the controllers, only its interrupt ends a request. -/
theorem arrival_of_end {s : System} {e : Event} {n : Irq} (hquiet : Quiet s e)
    (hend : isEnd n e = true) : isArrival n e = true := by
  rcases of_decide_eq_true hend with rfl | rfl
  · exact absurd hquiet id
  · simp [isArrival]

theorem Waits.step {s t : System} {e : Event} {n : Irq} (h : Waits n s) (hs : Serviced s)
    (hout : s.Remapped) (hn : n ≠ 2) (hstep : Step s e t) (hquiet : Quiet s e)
    (hcall : e ≠ .call (UInt8.ofNat n)) : Waits n t := by
  refine ⟨h.enabled.congr (sameSetup_step hs hstep hquiet), ?_, ?_⟩
  · have hpending := pending_step hs hout hn hstep
    have hentered := entered_step (n := n) hs hout hstep
    have hnot : isCall n e = false := decide_eq_false hcall
    have hpos := (waits_iff n s).mp h.request
    have hle : (isEnd n e).toNat ≤ (isArrival n e).toNat := by
      cases hend : isEnd n e with
      | false => exact Nat.zero_le _
      | true => rw [arrival_of_end hquiet hend]
    rw [hnot, Bool.toNat_false] at hentered
    exact (waits_iff n t).mpr (by omega)
  · cases hstep with
    | cascade _ _ => exact h.interrupts
    | @interrupt vector _ _ _ _ _ => exact fun hpc => absurd hpc (dispatch_ne_running vector)
    | call _ | eoi _ | iret _ => simp
    | request _ _ | withdraw _ _ | write _ | remapped _ | unmask _ _ | sti _ | cli _ =>
      exact absurd hquiet id

/-- While the request waits, the kernel or the controllers can go on. -/
theorem Waits.exists_step {s : System} {n : Irq} (h : Waits n s) (hs : Serviced s)
    (hout : s.Remapped) : ∃ e t, Step s e t ∧ Quiet s e := by
  cases hpc : s.pc with
  | remap rest => exact absurd hpc (hout rest)
  | halted => exact absurd hpc hs.going
  | handler irq => exact ⟨_, _, .call hpc, trivial⟩
  | eoi rest =>
    cases rest with
    | nil => exact ⟨_, _, .iret hpc, trivial⟩
    | cons port rest => exact ⟨_, _, .eoi hpc, trivial⟩
  | running =>
    have hreq : s.pics.Requested n := h.request.resolve_right (by simp [hpc])
    have hen := h.enabled
    obtain ⟨hidle1, hidle2⟩ := hs.idle hpc
    by_cases hsignal : s.pics.pic1.candidates.Nonempty
    · exact ⟨_, _, .interrupt hpc (h.interrupts hpc) rfl, hsignal⟩
    · -- nothing is signalled, so the line is at the second controller and still to be passed on
      have hnone : ∀ i ∈ s.pics.pic1.levels.requested, ¬s.pics.pic1.enabled i = true :=
        fun i hi hi' => hsignal ⟨i, hidle1.mem_candidates.mpr ⟨hi, hi'⟩⟩
      rcases irq_cases n with ⟨i, rfl⟩ | ⟨j, rfl⟩
      · have hen1 : s.pics.pic1.enabled i = true := (enabled_line1 _ i).mp hen
        exact absurd hen1 (hnone i ((requested_line1 _ i).mp hreq))
      · have hen2 := (enabled_line2 _ j).mp hen
        refine ⟨_, _, .cascade ?_ ?_, trivial⟩
        · exact ⟨j, hidle2.mem_candidates.mpr ⟨(requested_line2 _ j).mp hreq, hen2.1⟩⟩
        · exact fun htwo => hnone 2 ((requested_line1 _ 2).mp htwo) hen2.2

/-- Such a request is served in a bounded number of steps, and nothing stops them. -/
theorem Waits.served {p : Pair} {tr' : List (System × Event × System)} {s t : System} {n : Irq}
    (h : Waits n s) (hs : Inv p s) (hout : s.Remapped) (hn : n ≠ 2) (hrun : Run Step s tr' t)
    (hquiet : ∀ x ∈ tr', Quiet x.1 x.2.1) (hcall : ∀ x ∈ tr', x.2.1 ≠ .call (UInt8.ofNat n)) :
    tr'.length ≤ rank s ∧ ∃ e u, Step t e u ∧ Quiet t e := by
  have hstart : Inv p s ∧ s.Remapped ∧ Waits n s := ⟨hs, hout, h⟩
  obtain ⟨hend, hall⟩ := hrun.invariant_of_guard
    (I := fun u => Inv p u ∧ u.Remapped ∧ Waits n u)
    (G := fun u e => Quiet u e ∧ e ≠ .call (UInt8.ofNat n)) hstart
    (fun u e v hu hg hstep => ⟨hu.1.step hstep, hu.2.1.step hstep,
      hu.2.2.step (hu.1.serviced hu.2.1) hu.2.1 hn hstep hg.1 hg.2⟩)
    fun x hx => ⟨hquiet x hx, hcall x hx⟩
  constructor
  · have hlength := hrun.length_le_of_rank rank fun x hx =>
      rank_step ((hall x hx).1.1.serviced (hall x hx).1.2.1) (hrun.step_of_mem hx) (hquiet x hx)
    omega
  · exact hend.2.2.exists_step (hend.1.serviced hend.2.1) hend.2.1

/-- A request that no mask holds back is served: once the devices leave the lines as they are, the
kernel and the controllers can always go on until its handler is called, and do so only for a bounded
number of steps. -/
theorem irq_inevitable {p : Pair} {tr tr' : List (System × Event × System)} {s t : System}
    (hboot : Run Step (boot p) tr s) (hpc : s.pc = .running) (hif : s.interrupts = true) {n : Irq}
    (hn : n ≠ 2) (hreq : s.pics.Requested n) (hen : s.pics.Enabled n) (hrun : Run Step s tr' t)
    (hquiet : ∀ x ∈ tr', Quiet x.1 x.2.1) (hcall : ∀ x ∈ tr', x.2.1 ≠ .call (UInt8.ofNat n)) :
    tr'.length ≤ rank s ∧ ∃ e u, Step t e u ∧ Quiet t e := by
  have hout : s.Remapped := remapped_of hpc fun _ => by simp
  have hwaits : Waits n s := ⟨hen, .inl hreq, fun _ => hif⟩
  exact hwaits.served (inv_of_run hboot).1 hout hn hrun hquiet hcall

theorem irq_inevitable_line11 :
    ∃ e u, Step { line11 with pics := line11.pics.cascade } e u ∧
      Quiet { line11 with pics := line11.pics.cascade } e := by
  obtain ⟨tr, hrun⟩ := run_line11
  have hcascade : Step line11 .cascade { line11 with pics := line11.pics.cascade } :=
    .cascade (by decide) (by decide)
  refine (irq_inevitable (n := 11) hrun rfl rfl (by decide) (by decide) ?_ (Run.nil.snoc hcascade)
    ?_ ?_).2
  · exact enabled_picUnmask (ready_picRemap 32 40 coldPair) 11
  · intro x hx
    rw [List.mem_singleton.mp hx]
    trivial
  · intro x hx
    rw [List.mem_singleton.mp hx]
    simp

end MathUnikernel.Pic
