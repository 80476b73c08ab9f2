import MathUnikernel.Library.Mailbox
import MathUnikernel.TransferSessions

/-!
# From the sender to the destination

The sender, a card with its driver, and the main loop.  The driver is any receiver that behaves as a
mailbox of frames; a frame that it takes out is passed to `network_receive_frame`.
-/

namespace MathUnikernel.Network
open Mailbox Runs

/-- The frames of the sender among others. -/
def customFrames (frames : List Frame) : List Frame := frames.filter fun data => IsCustom data

theorem customFrames_append (fs gs : List Frame) :
    customFrames (fs ++ gs) = customFrames fs ++ customFrames gs := List.filter_append fs gs

/-- The driver passes on a frame; `todo` is what the sender means `network_receive_frame` still to
get. -/
def Link.deliver (l : Link) (data : Frame) : Link :=
  if IsCustom data then { l.receive data with todo := l.todo.tail } else l.receive data

/-- `unsent` are the frames that the card has not stored yet. -/
structure Wire (σ : Type*) where
  driver : σ
  link : Link
  unsent : List Frame

inductive WireEvent (δ : Type*)
  /-- The card, or a context in the driver. -/
  | driver (e : δ)
  /-- The main loop, or the allocation. -/
  | kernel (e : LinkEvent)
  /-- The next session begins, with the memory as given. -/
  | next (mem : ℕ → UInt8)

/-- A step of the kernel between two frames. -/
def LinkEvent.Quiet : LinkEvent → Prop
  | .main | .alloc _ _ => True
  | _ => False

variable {σ δ : Type*} (R : Receiver σ δ Frame)

/-- The frames that the driver passes on from one state to the other. -/
def passedOn (s t : σ) : List Frame := (R.mailbox t).taken.drop (R.mailbox s).taken.length

/-- The card stores the frames of the sender in their order, others at any time. -/
inductive WireStep : Wire σ → WireEvent δ → Wire σ → Prop
  | driver {w : Wire σ} {e : δ} {t : σ} {rest : List Frame} :
      R.Step w.driver e t → w.unsent = customFrames (R.brings e) ++ rest →
      WireStep w (.driver e) ⟨t, (passedOn R w.driver t).foldl Link.deliver w.link, rest⟩
  | kernel {w : Wire σ} {e : LinkEvent} {l : Link} :
      LinkStep w.link e l → e.Quiet → WireStep w (.kernel e) { w with link := l }
  | next {w : Wire σ} {mem : ℕ → UInt8} {l : Link} :
      LinkStep w.link (.next mem) l → WireStep w (.next mem) { w with link := l, unsent := l.todo }

/-- The driver keeps to what it may do, and the frames of the sender come when they are expected:
the header once `reset_header` is over, the data once the destination is set. -/
structure Timely (x : Wire σ × WireEvent δ × Wire σ) : Prop where
  allowed : ∀ e, x.2.1 = .driver e → R.Allowed x.1.driver e
  paced : ∀ data ∈ passedOn R x.1.driver x.2.2.driver, IsCustom data →
    x.1.link.Paced ∧ ¬x.1.link.loader.pc.Resetting

/-- Every frame of the sender is with the sender, in the ring, or passed on. -/
structure WireInv (workloads : List Workload) (w : Wire σ) : Prop where
  driver : R.Inv w.driver
  phase : Phase w.link
  workloads : w.link.current :: w.link.later <:+ workloads
  todo : w.link.todo = customFrames (R.mailbox w.driver).pending ++ w.unsent

variable {R} {workloads : List Workload}

theorem passedOn_of_eq {s t : σ} (h : (R.mailbox t).taken = (R.mailbox s).taken) :
    passedOn R s t = [] := by
  rw [passedOn, h, List.drop_length]

theorem passedOn_of_append {s t : σ} {fs : List Frame}
    (h : (R.mailbox t).taken = (R.mailbox s).taken ++ fs) : passedOn R s t = fs := by
  rw [passedOn, h, List.drop_left]

/-- One frame is passed on. -/
theorem Phase.deliver {l : Link} (h : Phase l) (hvalid : ∀ v ∈ workloads, v.Valid)
    (hworkloads : l.current :: l.later <:+ workloads) {data : Frame} {pending unsent : List Frame}
    (htodo : l.todo = customFrames (data :: pending) ++ unsent)
    (hpaced : IsCustom data → l.Paced ∧ ¬l.loader.pc.Resetting) :
    Phase (l.deliver data) ∧ (l.deliver data).current :: (l.deliver data).later <:+ workloads ∧
      (l.deliver data).todo = customFrames pending ++ unsent := by
  have hcurrent : l.current.Valid := hvalid _ (hworkloads.subset List.mem_cons_self)
  by_cases hcustom : IsCustom data
  · obtain ⟨hpace, hreset⟩ := hpaced hcustom
    have hcons : l.todo = data :: (customFrames pending ++ unsent) := by
      rw [htodo, customFrames, List.filter_cons_of_pos (by simpa using hcustom), List.cons_append]
      rfl
    have hstep : LinkStep l .send { l.receive data with todo := l.todo.tail } := by
      rw [hcons]
      exact .send hcons hreset
    rw [Link.deliver, if_pos hcustom]
    refine ⟨h.step hcurrent (fun _ => hpace) hstep, hworkloads, ?_⟩
    change l.todo.tail = _
    rw [hcons, List.tail_cons]
  · rw [Link.deliver, if_neg hcustom, receive_foreign hcustom]
    refine ⟨h, hworkloads, ?_⟩
    rw [htodo, customFrames, List.filter_cons_of_neg (by simpa using hcustom)]
    rfl

theorem WireInv.step {w w' : Wire σ} {e : WireEvent δ} (hvalid : ∀ v ∈ workloads, v.Valid)
    (h : WireInv R workloads w) (htimely : Timely R (w, e, w')) (hstep : WireStep R w e w') :
    WireInv R workloads w' := by
  have hcurrent : w.link.current.Valid := hvalid _ (h.workloads.subset List.mem_cons_self)
  cases hstep with
  | @driver e t rest hdriver hunsent =>
    obtain ⟨hinv, hmoves⟩ := R.step _ _ _ h.driver (htimely.allowed e rfl) hdriver
    have htodo := h.todo
    rw [hunsent] at htodo
    rcases hmoves.taken with ⟨htaken, hpending⟩ | ⟨data, hpending, htaken, hbrings⟩
    · -- the card may have stored a frame
      rw [passedOn_of_eq htaken]
      refine ⟨hinv, h.phase, h.workloads, ?_⟩
      change w.link.todo = customFrames (R.mailbox t).pending ++ rest
      rw [hpending, customFrames_append, htodo, List.append_assoc]
    · have hpassed := passedOn_of_append htaken
      have hrest : w.link.todo = customFrames (data :: (R.mailbox t).pending) ++ rest := by
        rw [htodo, hbrings, hpending]
        rfl
      obtain ⟨hphase, hworkloads, htodo'⟩ := h.phase.deliver hvalid h.workloads hrest
        (htimely.paced data (hpassed ▸ List.mem_singleton_self data))
      rw [hpassed]
      exact ⟨hinv, hphase, hworkloads, htodo'⟩
  | @kernel e l hlink hquiet =>
    have hsend : e = .send → w.link.Paced := fun he => by
      rw [he] at hquiet
      exact absurd hquiet id
    refine ⟨h.driver, h.phase.step hcurrent hsend hlink, (workloads_step hlink).trans h.workloads, ?_⟩
    cases hlink with
    | main | alloc => exact h.todo
    | foreign | send | next => exact absurd hquiet id
  | @next mem l hlink =>
    refine ⟨h.driver, h.phase.step hcurrent (fun he => by simp at he) hlink,
      (workloads_step hlink).trans h.workloads, ?_⟩
    cases hlink with
    | @next dest size v later mem hpc hlater =>
      -- the last session has taken all its frames out of the ring
      have hnone := h.phase.loaded hcurrent hpc
      rw [h.todo, List.append_eq_nil_iff] at hnone
      change v.frames = customFrames (R.mailbox w.driver).pending ++ v.frames
      rw [hnone.1, List.nil_append]

/-- Whatever the interleaving of the card, the handler and the main loop, every workload arrives. -/
theorem sessionOk_of_wire {w : Workload} {later : List Workload} (hvalid : ∀ v ∈ w :: later, v.Valid)
    {s : σ} (hinv : R.Inv s) (hempty : (R.mailbox s).pending = []) {l : Link}
    (hstarts : l.Starts w later) {tr : List (Wire σ × WireEvent δ × Wire σ)} {c : Wire σ}
    (hrun : Run (WireStep R) ⟨s, l, w.frames⟩ tr c) (htimely : ∀ x ∈ tr, Timely R x) :
    SessionOk c.link := by
  have hstart : WireInv R (w :: later) ⟨s, l, w.frames⟩ := by
    refine ⟨hinv, hstarts.phase, ?_, ?_⟩
    · rw [hstarts.current, hstarts.later]
    · change l.todo = customFrames (R.mailbox s).pending ++ w.frames
      rw [hempty, hstarts.todo]
      rfl
  have hend := (hrun.invariant_of_mem (I := WireInv R (w :: later)) hstart fun x hx hi =>
    hi.step hvalid (htimely x hx) (hrun.step_of_mem hx)).1
  exact hend.phase.sessionOk (hvalid _ (hend.workloads.subset List.mem_cons_self))

/-! ## Running the driver alone -/

theorem passedOn_trans {s t u : σ} (hst : (R.mailbox s).taken <+: (R.mailbox t).taken)
    (htu : (R.mailbox t).taken <+: (R.mailbox u).taken) :
    passedOn R s u = passedOn R s t ++ passedOn R t u := by
  obtain ⟨fs, hfs⟩ := hst
  obtain ⟨gs, hgs⟩ := htu
  rw [passedOn_of_append hfs.symm, passedOn_of_append hgs.symm]
  apply passedOn_of_append
  rw [← hgs, ← hfs, List.append_assoc]

/-- A run of the driver that passes on one frame at most, as a part of the whole. -/
theorem run_driver {s t : σ} {tr : List (σ × δ × σ)} (hrun : Run R.Step s tr t) (hinv : R.Inv s)
    (hallowed : ∀ x ∈ tr, R.Allowed x.1 x.2.1) (hbrings : ∀ x ∈ tr, R.brings x.2.1 = []) {l : Link}
    {unsent : List Frame} (hone : (passedOn R s t).length ≤ 1)
    (hpaced : ∀ data ∈ passedOn R s t, IsCustom data → l.Paced ∧ ¬l.loader.pc.Resetting) :
    ∃ tr', Run (WireStep R) ⟨s, l, unsent⟩ tr'
      ⟨t, (passedOn R s t).foldl Link.deliver l, unsent⟩ ∧ ∀ x ∈ tr', Timely R x := by
  induction hrun with
  | nil =>
    refine ⟨[], ?_, fun x hx => absurd hx List.not_mem_nil⟩
    rw [passedOn_of_eq rfl]
    exact .nil
  | @snoc tr t u e hrun hstep ih =>
    have hlast : (t, e, u) ∈ tr ++ [(t, e, u)] := by simp
    have hbefore : ∀ x ∈ tr, x ∈ tr ++ [(t, e, u)] := fun x hx => List.mem_append_left _ hx
    obtain ⟨ht, hst⟩ := R.taken_prefix hrun (fun x hx => hallowed x (hbefore x hx)) hinv
    have htu := (R.taken_prefix (Run.nil.snoc hstep) (fun x hx => by
      rw [List.mem_singleton.mp hx]
      exact hallowed _ hlast) ht).2
    have hsplit := passedOn_trans hst htu
    rw [hsplit] at hone hpaced
    rw [List.length_append] at hone
    obtain ⟨tr', hrun', htimely⟩ := ih (fun x hx => hallowed x (hbefore x hx))
      (fun x hx => hbrings x (hbefore x hx)) (by omega)
      fun data hdata => hpaced data (List.mem_append_left _ hdata)
    have hnext : WireStep R ⟨t, (passedOn R s t).foldl Link.deliver l, unsent⟩ (.driver e)
        ⟨u, (passedOn R t u).foldl Link.deliver ((passedOn R s t).foldl Link.deliver l), unsent⟩ := by
      apply WireStep.driver hstep
      rw [hbrings _ hlast]
      rfl
    rw [hsplit, List.foldl_append]
    refine ⟨_, hrun'.snoc hnext, fun x hx => ?_⟩
    rcases List.mem_append.mp hx with hx | hx
    · exact htimely x hx
    · rw [List.mem_singleton.mp hx]
      refine ⟨fun e' he => ?_, fun data hdata => ?_⟩
      · obtain rfl := WireEvent.driver.inj he
        exact hallowed _ hlast
      · -- the one frame: nothing has been passed on before it
        have hpos := List.length_pos_of_mem hdata
        have hnone : passedOn R s t = [] := List.length_eq_zero_iff.mp (by
          change 0 < (passedOn R t u).length at hpos
          omega)
        change IsCustom data → ((passedOn R s t).foldl Link.deliver l).Paced ∧ _
        rw [hnone]
        exact hpaced data (List.mem_append_right _ hdata)

end MathUnikernel.Network
