import Mathlib

/-!
# Runs of a labelled step relation

The trace of a run lists its steps, each with the state before it, its label and the state after.
-/

namespace Runs

variable {σ α : Type*}

inductive Run (Step : σ → α → σ → Prop) (s : σ) : List (σ × α × σ) → σ → Prop
  | nil : Run Step s [] s
  | snoc {tr : List (σ × α × σ)} {t u : σ} {a : α} :
      Run Step s tr t → Step t a u → Run Step s (tr ++ [(t, a, u)]) u

variable {Step : σ → α → σ → Prop} {s t : σ} {tr : List (σ × α × σ)}

theorem Run.step_of_mem (h : Run Step s tr t) {x : σ × α × σ} (hx : x ∈ tr) :
    Step x.1 x.2.1 x.2.2 := by
  induction h with
  | nil => exact absurd hx List.not_mem_nil
  | snoc _ hstep ih =>
    rcases List.mem_append.mp hx with hx | hx
    · exact ih hx
    · exact List.mem_singleton.mp hx ▸ hstep

/-- An invariant kept by each step of a run is true in all its states. -/
theorem Run.invariant_of_mem {I : σ → Prop} (h0 : I s) (h : Run Step s tr t)
    (hstep : ∀ x ∈ tr, I x.1 → I x.2.2) : I t ∧ ∀ x ∈ tr, I x.1 ∧ I x.2.2 := by
  induction h with
  | nil => exact ⟨h0, fun x hx => absurd hx List.not_mem_nil⟩
  | @snoc tr t u a _ hs ih =>
    obtain ⟨ht, hall⟩ := ih fun x hx => hstep x (List.mem_append_left _ hx)
    have hu : I u := hstep (t, a, u) (by simp) ht
    refine ⟨hu, fun x hx => ?_⟩
    rcases List.mem_append.mp hx with hx | hx
    · exact hall x hx
    · exact List.mem_singleton.mp hx ▸ ⟨ht, hu⟩

/-- An invariant kept by every step whose guard holds is true in every state of a guarded run. -/
theorem Run.invariant_of_guard {I : σ → Prop} {G : σ → α → Prop} (h0 : I s)
    (hstep : ∀ t a u, I t → G t a → Step t a u → I u) (h : Run Step s tr t)
    (hG : ∀ x ∈ tr, G x.1 x.2.1) : I t ∧ ∀ x ∈ tr, I x.1 ∧ I x.2.2 :=
  h.invariant_of_mem h0 fun x hx hi => hstep _ _ _ hi (hG x hx) (h.step_of_mem hx)

/-- An invariant kept by every step is true in every state of a run. -/
theorem Run.invariant {I : σ → Prop} (h0 : I s) (hstep : ∀ t a u, I t → Step t a u → I u)
    (h : Run Step s tr t) : I t ∧ ∀ x ∈ tr, I x.1 ∧ I x.2.2 :=
  h.invariant_of_guard (G := fun _ _ => True) h0 (fun t a u ht _ => hstep t a u ht)
    fun _ _ => trivial

/-- A reflexive and transitive relation that the steps of a run obey holds from the state after any
of them to the last one. -/
theorem Run.rel_of_mem {r : σ → σ → Prop} (hrefl : ∀ s, r s s)
    (htrans : ∀ s t u, r s t → r t u → r s u) (h : Run Step s tr t)
    (hstep : ∀ y ∈ tr, r y.1 y.2.2) {x : σ × α × σ} (hx : x ∈ tr) : r x.2.2 t := by
  induction h with
  | nil => exact absurd hx List.not_mem_nil
  | @snoc tr t u a _ hs ih =>
    rcases List.mem_append.mp hx with hx | hx
    · have htu : r t u := hstep (t, a, u) (by simp)
      exact htrans _ _ _ (ih (fun y hy => hstep y (List.mem_append_left _ hy)) hx) htu
    · exact List.mem_singleton.mp hx ▸ hrefl u

/-- A list that each step only extends, after any step of a run: the first part of the last one. -/
theorem Run.prefix_of_mem {ε : Type*} (log : σ → List ε)
    (hstep : ∀ s a t, Step s a t → log s <+: log t) (h : Run Step s tr t) {x : σ × α × σ}
    (hx : x ∈ tr) : log x.2.2 <+: log t := by
  apply h.rel_of_mem (r := fun u v => log u <+: log v) _ _ _ hx
  · exact fun _ => List.prefix_rfl
  · exact fun _ _ _ => List.IsPrefix.trans
  · exact fun y hy => hstep _ _ _ (h.step_of_mem hy)

/-- The steps before and at a given one form a run of their own. -/
theorem Run.exists_prefix (h : Run Step s tr t) {x : σ × α × σ} (hx : x ∈ tr) :
    ∃ tr', Run Step s tr' x.1 ∧ (tr' ++ [x]) <+: tr := by
  induction h with
  | nil => exact absurd hx List.not_mem_nil
  | @snoc tr t u a hr hs ih =>
    rcases List.mem_append.mp hx with hx | hx
    · obtain ⟨tr', hr', hp⟩ := ih hx
      exact ⟨tr', hr', hp.trans (List.prefix_append _ _)⟩
    · rw [List.mem_singleton.mp hx]
      exact ⟨tr, hr, List.prefix_rfl⟩

/-- Where each step of a function reaches the goal or keeps the invariant and lowers the rank, the
goal is reached. -/
theorem exists_iterate_of_rank {f : σ → σ} {I Q : σ → Prop} (rank : σ → ℕ)
    (h : ∀ s, I s → Q s ∨ Q (f s) ∨ (I (f s) ∧ rank (f s) < rank s)) {s : σ} (hs : I s) :
    ∃ k, Q (f^[k] s) := by
  -- induction on the rank
  induction hr : rank s using Nat.strong_induction_on generalizing s with
  | _ r ih =>
    rcases h s hs with hq | hq | ⟨hi, hlt⟩
    · exact ⟨0, hq⟩
    · exact ⟨1, hq⟩
    · obtain ⟨k, hk⟩ := ih (rank (f s)) (hr ▸ hlt) hi rfl
      exact ⟨k + 1, by rwa [Function.iterate_succ_apply]⟩

/-- Steps of one label, each given by the function, form a run. -/
theorem Run.iterate {f : σ → σ} {a : α} (hf : ∀ s, Step s a (f s)) (h : Run Step s tr t) (k : ℕ) :
    ∃ tr', Run Step s (tr ++ tr') (f^[k] t) ∧ ∀ x ∈ tr', x.2.1 = a := by
  induction k with
  | zero => exact ⟨[], by simpa using h, fun x hx => absurd hx List.not_mem_nil⟩
  | succ k ih =>
    obtain ⟨tr', hrun, hlabel⟩ := ih
    refine ⟨tr' ++ [(f^[k] t, a, f (f^[k] t))], ?_, fun x hx => ?_⟩
    · rw [Function.iterate_succ_apply', ← List.append_assoc]
      exact hrun.snoc (hf _)
    · rcases List.mem_append.mp hx with hx | hx
      · exact hlabel x hx
      · rw [List.mem_singleton.mp hx]

/-- A list of labels, each a step of the function from the state that the ones before lead to. -/
theorem Run.foldlM {step : σ → α → Option σ} (hstep : ∀ s a t, step s a = some t → Step s a t)
    (h : Run Step s tr t) {as : List α} {u : σ} (has : as.foldlM step t = some u) :
    ∃ tr', Run Step s (tr ++ tr') u ∧ tr'.map (·.2.1) = as := by
  induction as generalizing tr t with
  | nil =>
    obtain rfl : t = u := Option.some.inj has
    exact ⟨[], by rwa [List.append_nil], rfl⟩
  | cons a as ih =>
    rw [List.foldlM_cons, Option.bind_eq_bind, Option.bind_eq_some_iff] at has
    obtain ⟨t', ht', has⟩ := has
    obtain ⟨tr', hrun, hlabels⟩ := ih (h.snoc (hstep _ _ _ ht')) has
    rw [List.append_assoc] at hrun
    refine ⟨(t, a, t') :: tr', hrun, ?_⟩
    rw [List.map_cons, hlabels]

theorem exists_run_of_foldlM {step : σ → α → Option σ}
    (hstep : ∀ s a t, step s a = some t → Step s a t) {as : List α} (has : as.foldlM step s = some t) :
    ∃ tr, Run Step s tr t ∧ tr.map (·.2.1) = as :=
  Run.foldlM hstep .nil has

theorem ne_of_not_mem_labels {as : List α} {a : α} (hlabels : tr.map (·.2.1) = as) (ha : a ∉ as) :
    ∀ x ∈ tr, x.2.1 ≠ a := by
  intro x hx hlabel
  apply ha
  rw [← hlabels, ← hlabel]
  exact List.mem_map_of_mem (f := fun y : σ × α × σ => y.2.1) hx

/-- Where each step of a run keeps the balance of a quantity, so does the run. -/
theorem Run.balance (f : σ → ℕ) (gain loss : α → Bool) (h : Run Step s tr t)
    (hstep : ∀ x ∈ tr, f x.2.2 + (loss x.2.1).toNat = f x.1 + (gain x.2.1).toNat) :
    f t + tr.countP (fun x => loss x.2.1) = f s + tr.countP (fun x => gain x.2.1) := by
  induction h with
  | nil => rfl
  | @snoc tr t u a _ _ ih =>
    have hrest := ih fun x hx => hstep x (List.mem_append_left _ hx)
    have hlast : f u + (loss a).toNat = f t + (gain a).toNat := hstep (t, a, u) (by simp)
    rw [List.countP_append, List.countP_append, List.countP_singleton, List.countP_singleton]
    rw [Bool.toNat, Bool.toNat, Bool.cond_eq_ite, Bool.cond_eq_ite] at hlast
    dsimp only
    omega

/-- Where each step lowers the rank, the rank bounds the length. -/
theorem Run.length_le_of_rank (rank : σ → ℕ) (h : Run Step s tr t)
    (hstep : ∀ x ∈ tr, rank x.2.2 < rank x.1) : tr.length + rank t ≤ rank s := by
  induction h with
  | nil => simp
  | @snoc tr t u a _ _ ih =>
    have hrest := ih fun x hx => hstep x (List.mem_append_left _ hx)
    have hlast : rank u < rank t := hstep (t, a, u) (by simp)
    rw [List.length_append, List.length_singleton]
    omega

/-- Two runs, one after the other. -/
theorem Run.append {u : σ} {tr' : List (σ × α × σ)} (h : Run Step s tr t) (h' : Run Step t tr' u) :
    Run Step s (tr ++ tr') u := by
  induction h' with
  | nil => rwa [List.append_nil]
  | snoc _ hstep ih =>
    rw [← List.append_assoc]
    exact ih.snoc hstep

/-- Where each step can be matched by a run of another system that shows the same, the whole run
can be matched. -/
theorem Run.simulate {τ β ε : Type*} {Step' : τ → β → τ → Prop} (R : σ → τ → Prop)
    (shown : σ × α × σ → List ε) (shown' : τ × β × τ → List ε) (h : Run Step s tr t)
    (hstep : ∀ x ∈ tr, ∀ u, R x.1 u →
      ∃ tr' u', Run Step' u tr' u' ∧ R x.2.2 u' ∧ tr'.flatMap shown' = shown x)
    {s' : τ} (h0 : R s s') :
    ∃ tr' t', Run Step' s' tr' t' ∧ R t t' ∧ tr'.flatMap shown' = tr.flatMap shown := by
  induction h with
  | nil => exact ⟨[], s', .nil, h0, rfl⟩
  | @snoc tr t u a _ _ ih =>
    obtain ⟨tr', t', hrun, ht, hshown⟩ := ih fun x hx => hstep x (List.mem_append_left _ hx)
    have hlast : (t, a, u) ∈ tr ++ [(t, a, u)] := by simp
    obtain ⟨tr'', u', hrun', hu, hshown'⟩ := hstep _ hlast t' ht
    refine ⟨tr' ++ tr'', u', hrun.append hrun', hu, ?_⟩
    rw [List.flatMap_append, List.flatMap_append, hshown, hshown', List.flatMap_singleton]

/-- Where each state that keeps the invariant has a step to the goal, or to a lower rank, steps of
that label lead to the goal. -/
theorem exists_run_of_rank {I Q : σ → Prop} {a : α} (rank : σ → ℕ)
    (h : ∀ s, I s → ∃ t, Step s a t ∧ (Q t ∨ (I t ∧ rank t < rank s))) {s : σ} (hs : I s) :
    ∃ tr t, Run Step s tr t ∧ Q t ∧ ∀ x ∈ tr, x.2.1 = a := by
  -- induction on the rank
  induction hr : rank s using Nat.strong_induction_on generalizing s with
  | _ r ih =>
    obtain ⟨t, hstep, hnext⟩ := h s hs
    have hone : Run Step s [(s, a, t)] t := Run.nil.snoc hstep
    have hlabel : ∀ x ∈ [(s, a, t)], x.2.1 = a := by simp
    rcases hnext with hq | ⟨hi, hlt⟩
    · exact ⟨_, t, hone, hq, hlabel⟩
    · obtain ⟨tr, u, hrun, hu, hlabels⟩ := ih (rank t) (hr ▸ hlt) hi rfl
      refine ⟨_, u, hone.append hrun, hu, fun x hx => ?_⟩
      rcases List.mem_append.mp hx with hx | hx
      · exact hlabel x hx
      · exact hlabels x hx

end Runs
