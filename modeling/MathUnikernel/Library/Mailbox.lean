import MathUnikernel.Library.Runs

/-!
# Mailboxes with a bell

A producer puts entries in and rings.  A consumer answers the bell, takes the entries out one by one
and leaves once there are none.  The bell may ring without an entry, and the consumer may come in
without the bell.
-/

namespace Mailbox
open Runs

variable {α σ δ : Type*}

@[ext]
structure State (α : Type*) where
  pending : List α
  taken : List α
  rung : Bool
  serving : Bool

def empty : State α := ⟨[], [], false, false⟩

inductive Event (α : Type*)
  | put (a : α)
  | ring
  | enter
  | answer
  | take
  | leave

def Event.puts : Event α → List α
  | .put a => [a]
  | _ => []

inductive Step : State α → Event α → State α → Prop
  | put (s : State α) (a : α) : Step s (.put a) { s with pending := s.pending ++ [a], rung := true }
  | ring (s : State α) : Step s .ring { s with rung := true }
  | enter (s : State α) : Step s .enter { s with serving := true }
  | answer (s : State α) : Step s .answer { s with rung := false, serving := true }
  | take (s : State α) {a : α} {as : List α} (h : s.pending = a :: as) :
      Step s .take { s with pending := as, taken := s.taken ++ [a] }
  | leave (s : State α) (h : s.pending = []) : Step s .leave { s with serving := false }

/-- Entries wait only while somebody knows about them. -/
def Heard (s : State α) : Prop := s.pending ≠ [] → s.rung = true ∨ s.serving = true

theorem Step.heard {s t : State α} {e : Event α} (h : Step s e t) (hs : Heard s) : Heard t := by
  cases h with
  | put | ring => exact fun _ => .inl rfl
  | enter | answer => exact fun _ => .inr rfl
  | take h =>
    intro _
    apply hs
    simp [h]
  | leave h => exact fun hne => absurd h hne

theorem Step.contents {s t : State α} {e : Event α} (h : Step s e t) :
    t.taken ++ t.pending = s.taken ++ s.pending ++ e.puts := by
  cases h with
  | take h => simp [Event.puts, h]
  | _ => simp [Event.puts]

/-- The entries that a run puts in. -/
def put (tr : List (State α × Event α × State α)) : List α := tr.flatMap fun x => x.2.1.puts

theorem heard_of_run {tr : List (State α × Event α × State α)} {s t : State α}
    (h : Run Step s tr t) (hs : Heard s) : Heard t :=
  (h.invariant hs fun _ _ _ hu hstep => hstep.heard hu).1

/-- Nothing is lost, taken twice or taken out of order. -/
theorem contents_of_run {tr : List (State α × Event α × State α)} {s t : State α}
    (h : Run Step s tr t) : t.taken ++ t.pending = s.taken ++ s.pending ++ put tr := by
  induction h with
  | nil => simp [put]
  | snoc _ hstep ih =>
    unfold put at *
    rw [hstep.contents, ih, List.flatMap_append, List.flatMap_singleton, List.append_assoc]

/-! ## Logs -/

section Logs

/-- The mailbox of a log of what came and a log of what was taken out. -/
def ofLogs (came out : List α) (rung serving : Bool) : State α :=
  ⟨came.drop out.length, out, rung, serving⟩

variable {came out : List α} {a : α}

theorem ofLogs_append (h : out <+: came) : out ++ came.drop out.length = came := by
  obtain ⟨rest, rfl⟩ := h
  rw [List.drop_left]

theorem Step.of_put (h : out <+: came) (rung serving : Bool) :
    Step (ofLogs came out rung serving) (.put a) (ofLogs (came ++ [a]) out true serving) := by
  unfold ofLogs
  rw [List.drop_append_of_le_length h.length_le]
  exact .put _ a

theorem Step.of_take (h : out ++ [a] <+: came) (rung serving : Bool) :
    Step (ofLogs came out rung serving) .take (ofLogs came (out ++ [a]) rung serving) := by
  obtain ⟨rest, rfl⟩ := h
  have hnext : (out ++ [a] ++ rest).drop out.length = a :: rest := by
    rw [List.append_assoc, List.drop_left]
    rfl
  unfold ofLogs
  rw [List.drop_left]
  exact .take ⟨_, out, rung, serving⟩ hnext

end Logs

/-! ## Systems that behave as a mailbox -/

/-- No step, or one. -/
inductive Moves (s : State α) : State α → List α → Prop
  | stay : Moves s s []
  | step {t : State α} {e : Event α} (h : Step s e t) : Moves s t e.puts

theorem Moves.of_eq {s t : State α} (h : t = s) : Moves s t [] := h ▸ .stay

theorem Moves.run {s t : State α} {as : List α} (h : Moves s t as) :
    ∃ tr, Run Step s tr t ∧ put tr = as := by
  cases h with
  | stay => exact ⟨[], .nil, rfl⟩
  | @step _ e h => exact ⟨[(s, e, t)], Run.nil.snoc h, List.flatMap_singleton _ _⟩

/-- What has been taken out grows by the entry that came first. -/
theorem Moves.taken {s t : State α} {as : List α} (h : Moves s t as) :
    (t.taken = s.taken ∧ t.pending = s.pending ++ as) ∨
      ∃ a, s.pending = a :: t.pending ∧ t.taken = s.taken ++ [a] ∧ as = [] := by
  cases h with
  | stay => exact .inl ⟨rfl, (List.append_nil _).symm⟩
  | step h =>
    cases h with
    | put a => exact .inl ⟨rfl, rfl⟩
    | @take a as h => exact .inr ⟨a, h, rfl, rfl⟩
    | _ => exact .inl ⟨rfl, (List.append_nil _).symm⟩

/-- A system of which each step that is allowed is a move of a mailbox. -/
structure Receiver (σ δ α : Type*) where
  Step : σ → δ → σ → Prop
  Allowed : σ → δ → Prop
  Inv : σ → Prop
  mailbox : σ → State α
  brings : δ → List α
  step : ∀ s e t, Inv s → Allowed s e → Step s e t →
    Inv t ∧ Moves (mailbox s) (mailbox t) (brings e)

variable (R : Receiver σ δ α)

/-- The entries that a run of the system brings. -/
def Receiver.brought (tr : List (σ × δ × σ)) : List α := tr.flatMap fun x => R.brings x.2.1

theorem Receiver.brought_of_labels {tr : List (σ × δ × σ)} {events : List δ}
    (hlabels : tr.map (·.2.1) = events) : R.brought tr = events.flatMap R.brings := by
  rw [← hlabels, List.flatMap_map]
  rfl

/-- The system refines the mailbox. -/
theorem Receiver.refines {s t : σ} {tr : List (σ × δ × σ)} (h : Run R.Step s tr t)
    (hallowed : ∀ x ∈ tr, R.Allowed x.1 x.2.1) (hs : R.Inv s) :
    R.Inv t ∧ ∃ tr', Run Mailbox.Step (R.mailbox s) tr' (R.mailbox t) ∧ put tr' = R.brought tr := by
  have hmatch : ∃ tr' m, Run Mailbox.Step (R.mailbox s) tr' m ∧ (R.Inv t ∧ m = R.mailbox t) ∧
      put tr' = R.brought tr := by
    apply h.simulate (fun s m => R.Inv s ∧ m = R.mailbox s) _ _ _ ⟨hs, rfl⟩
    rintro x hx m ⟨hinv, rfl⟩
    obtain ⟨hinv', hmoves⟩ := R.step _ _ _ hinv (hallowed x hx) (h.step_of_mem hx)
    obtain ⟨tr', hrun, hput⟩ := hmoves.run
    exact ⟨tr', _, hrun, ⟨hinv', rfl⟩, hput⟩
  obtain ⟨tr', m, hrun, ⟨ht, rfl⟩, hput⟩ := hmatch
  exact ⟨ht, tr', hrun, hput⟩

/-- What the system has taken and what still waits are the entries brought, in order; and somebody
knows about those that wait. -/
theorem Receiver.of_run {s t : σ} {tr : List (σ × δ × σ)} (h : Run R.Step s tr t)
    (hallowed : ∀ x ∈ tr, R.Allowed x.1 x.2.1) (hs : R.Inv s) (h0 : R.mailbox s = empty) :
    R.Inv t ∧ (R.mailbox t).taken ++ (R.mailbox t).pending = R.brought tr ∧ Heard (R.mailbox t) := by
  obtain ⟨ht, tr', hrun, hput⟩ := R.refines h hallowed hs
  rw [h0] at hrun
  have hcontents := contents_of_run hrun
  rw [hput] at hcontents
  exact ⟨ht, hcontents, heard_of_run hrun fun hne => absurd rfl hne⟩

/-- What has been taken out stays. -/
theorem Receiver.taken_prefix {s t : σ} {tr : List (σ × δ × σ)} (h : Run R.Step s tr t)
    (hallowed : ∀ x ∈ tr, R.Allowed x.1 x.2.1) (hs : R.Inv s) :
    R.Inv t ∧ (R.mailbox s).taken <+: (R.mailbox t).taken := by
  induction h with
  | nil => exact ⟨hs, List.prefix_rfl⟩
  | @snoc tr t u e _ hstep ih =>
    obtain ⟨ht, hprefix⟩ := ih fun x hx => hallowed x (List.mem_append_left _ hx)
    have hlast : (t, e, u) ∈ tr ++ [(t, e, u)] := by simp
    obtain ⟨hu, hmoves⟩ := R.step t e u ht (hallowed _ hlast) hstep
    refine ⟨hu, ?_⟩
    rcases hmoves.taken with ⟨htaken, -⟩ | ⟨a, -, htaken, -⟩
    · rwa [htaken]
    · rw [htaken]
      exact hprefix.trans (List.prefix_append _ _)

end Mailbox
