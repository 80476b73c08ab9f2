import Mathlib

/-!
# Counted loops

`for (c = start; cond c; c = next c) body` over a state, with fuel for the rounds.
-/

namespace Loops

variable {γ σ : Type*} {cond : γ → Bool} {next : γ → γ} {body : γ → σ → Option σ}

/-- The counter and the state when the loop ends; `none` if it takes `fuel` rounds or more. -/
def forLoop (cond : γ → Bool) (next : γ → γ) (body : γ → σ → Option σ) :
    ℕ → γ → σ → Option (γ × σ)
  | 0, _, _ => none
  | fuel + 1, c, s =>
    if cond c then (body c s).bind (forLoop cond next body fuel (next c)) else some (c, s)

theorem forLoop_of_end {c : γ} (h : cond c = false) (fuel : ℕ) (s : σ) :
    forLoop cond next body (fuel + 1) c s = some (c, s) := by
  rw [forLoop, h]
  rfl

theorem forLoop_of_round {c : γ} {s s' : σ} (h : cond c = true) (hbody : body c s = some s')
    (fuel : ℕ) : forLoop cond next body (fuel + 1) c s =
      forLoop cond next body fuel (next c) s' := by
  rw [forLoop, if_pos h, hbody, Option.bind_some]

/-- A loop of `n` rounds, each of which takes `P k` to `P (k + 1)`. -/
theorem forLoop_rounds {P : ℕ → σ → Prop} {n : ℕ} (counter : ℕ → γ)
    (hcond : ∀ k < n, cond (counter k) = true) (hend : cond (counter n) = false)
    (hnext : ∀ k < n, next (counter k) = counter (k + 1))
    (hbody : ∀ k < n, ∀ s, P k s → ∃ s', body (counter k) s = some s' ∧ P (k + 1) s')
    {s : σ} (h0 : P 0 s) {fuel : ℕ} (hfuel : n < fuel) :
    ∃ s', forLoop cond next body fuel (counter 0) s = some (counter n, s') ∧ P n s' := by
  induction n generalizing counter P s fuel with
  | zero =>
    obtain ⟨fuel, rfl⟩ := Nat.exists_eq_add_of_lt hfuel
    exact ⟨s, forLoop_of_end hend _ s, h0⟩
  | succ n ih =>
    obtain ⟨fuel, rfl⟩ : ∃ k, fuel = k + 1 := ⟨fuel - 1, by omega⟩
    obtain ⟨s₁, hs₁, h₁⟩ := hbody 0 (Nat.succ_pos n) s h0
    rw [forLoop_of_round (hcond 0 (Nat.succ_pos n)) hs₁, hnext 0 (Nat.succ_pos n)]
    -- the rest is a loop of `n` rounds with the counters and the invariant shifted
    apply @ih (fun k => P (k + 1)) (fun k => counter (k + 1))
    · intro k hk
      exact hcond (k + 1) (by omega)
    · exact hend
    · intro k hk
      exact hnext (k + 1) (by omega)
    · intro k hk
      exact hbody (k + 1) (by omega)
    · exact h₁
    · omega

/-- A loop whose counter stays among values that satisfy its condition never ends. -/
theorem forLoop_eq_none {Q : γ → Prop} (hcond : ∀ c, Q c → cond c = true)
    (hnext : ∀ c, Q c → Q (next c)) {c : γ} (hc : Q c) (fuel : ℕ) (s : σ) :
    forLoop cond next body fuel c s = none := by
  induction fuel generalizing c s with
  | zero => rfl
  | succ fuel ih =>
    rw [forLoop, if_pos (hcond c hc)]
    cases body c s with
    | none => rfl
    | some s' => exact ih (hnext c hc) s'

/-- A loop fails with its first round. -/
theorem forLoop_of_body_eq_none {c : γ} {s : σ} (h : cond c = true) (hbody : body c s = none)
    (fuel : ℕ) : forLoop cond next body fuel c s = none := by
  cases fuel with
  | zero => rfl
  | succ fuel => rw [forLoop, if_pos h, hbody, Option.bind_none]

/-- A counter with finitely many values ends its loop within that many rounds or not at all. -/
theorem exists_end_lt_card [Fintype γ] {c : γ} (h : ∃ k, cond (next^[k] c) = false) :
    ∃ k < Fintype.card γ, cond (next^[k] c) = false ∧ ∀ j < k, cond (next^[j] c) = true := by
  classical
  have hfirst : ∀ j < Nat.find h, cond (next^[j] c) = true := by
    intro j hj
    simpa using Nat.find_min h hj
  refine ⟨Nat.find h, ?_, Nat.find_spec h, hfirst⟩
  -- a value met twice before the end would bring the end forward
  have hinj : Function.Injective fun j : Fin (Nat.find h + 1) => next^[j] c := by
    intro i j hij
    by_contra hne
    wlog hlt : i < j generalizing i j
    · exact this hij.symm (Ne.symm hne) (lt_of_le_of_ne (not_lt.mp hlt) (Ne.symm hne))
    have hj := j.isLt
    have hsame : next^[i.val] c = next^[j.val] c := hij
    have hend : next^[Nat.find h - j + i] c = next^[Nat.find h] c := by
      rw [Function.iterate_add_apply, hsame, ← Function.iterate_add_apply]
      congr 2
      omega
    have htrue := hfirst (Nat.find h - j + i) (by omega)
    rw [hend, Nat.find_spec h] at htrue
    exact Bool.false_ne_true htrue
  have hcard := Fintype.card_le_of_injective _ hinj
  rw [Fintype.card_fin] at hcard
  exact hcard

/-- What a body keeps is true at the end. -/
theorem forLoop_preserves {P : σ → Prop} (hbody : ∀ c s s', P s → body c s = some s' → P s')
    {fuel : ℕ} {c c' : γ} {s s' : σ} (h : P s)
    (hloop : forLoop cond next body fuel c s = some (c', s')) : P s' := by
  induction fuel generalizing c s with
  | zero => exact absurd hloop (by simp [forLoop])
  | succ fuel ih =>
    rw [forLoop] at hloop
    by_cases hc : cond c = true
    · rw [if_pos hc] at hloop
      obtain ⟨s₁, hs₁, hrest⟩ := Option.bind_eq_some_iff.mp hloop
      exact ih (hbody c s s₁ h hs₁) hrest
    · rw [if_neg hc] at hloop
      obtain ⟨-, rfl⟩ := Prod.mk.inj (Option.some.inj hloop)
      exact h

/-! ## Searches -/

section Search
variable {β : Type*} {go : ℕ → Prop} [DecidablePred go] {result : ℕ → β} {loop : ℕ → ℕ → Option β}

/-- A loop without a state of its own ends in the first round that does not go on. -/
theorem search_of_stop (hround : ∀ fuel k, loop (fuel + 1) k =
      if go k then loop fuel (k + 1) else some (result k))
    {k stop fuel : ℕ} (hle : k ≤ stop) (hstop : ¬go stop) (hgo : ∀ j, k ≤ j → j < stop → go j)
    (hfuel : stop < fuel + k) : loop fuel k = some (result stop) := by
  induction fuel generalizing k with
  | zero => exact absurd hfuel (by omega)
  | succ fuel ih =>
    rw [hround]
    rcases Nat.eq_or_lt_of_le hle with rfl | hlt
    · exact if_neg hstop
    · rw [if_pos (hgo k le_rfl hlt)]
      exact ih hlt (fun j hj => hgo j (by omega)) (by omega)

theorem search_of_going (hzero : ∀ k, loop 0 k = none) (hround : ∀ fuel k, loop (fuel + 1) k =
      if go k then loop fuel (k + 1) else some (result k))
    {k fuel : ℕ} (hgo : ∀ j, k ≤ j → j < k + fuel → go j) : loop fuel k = none := by
  induction fuel generalizing k with
  | zero => exact hzero k
  | succ fuel ih =>
    rw [hround, if_pos (hgo k le_rfl (by omega))]
    exact ih fun j hj hj' => hgo j (by omega) (by omega)

end Search

/-! ## Upwards -/

/-- `for (c = start; c < stop; c += step) body`, where the counter has `w` bits. -/
def forUp (w stop step : ℕ) (body : ℕ → σ → Option σ) (fuel start : ℕ) (s : σ) : Option σ :=
  (forLoop (fun c => decide (c < stop)) (fun c => (c + step) % 2 ^ w) body fuel start s).map Prod.snd

/-- `P c` says what is true when everything below `c` is done. -/
theorem forUp_invariant {body : ℕ → σ → Option σ} {w start stop step : ℕ} {P : ℕ → σ → Prop}
    (hle : start ≤ stop) (hstep : 0 < step) (hw : stop + step ≤ 2 ^ w)
    (hbody : ∀ c s, start ≤ c → c < stop → (c - start) % step = 0 → P c s →
      ∃ s', body c s = some s' ∧ P (min (c + step) stop) s')
    {s : σ} (h0 : P start s) {fuel : ℕ} (hfuel : stop - start < fuel) :
    ∃ s', forUp w stop step body fuel start s = some s' ∧ P stop s' := by
  suffices hrun : ∀ fuel c s, start ≤ c → (c - start) % step = 0 → P (min c stop) s →
      stop - c < fuel → ∃ s', forUp w stop step body fuel c s = some s' ∧ P stop s' by
    apply hrun fuel start s le_rfl _ _ hfuel
    · rw [Nat.sub_self, Nat.zero_mod]
    · rwa [Nat.min_eq_left hle]
  intro fuel
  induction fuel with
  | zero => exact fun c s _ _ _ h => absurd h (Nat.not_lt_zero _)
  | succ fuel ih =>
    intro c s hlo hmod hP hfuel
    by_cases hc : c < stop
    · rw [Nat.min_eq_left hc.le] at hP
      obtain ⟨s₁, hs₁, h₁⟩ := hbody c s hlo hc hmod hP
      have hnext : (c + step) % 2 ^ w = c + step := Nat.mod_eq_of_lt (by omega)
      have hmod' : (c + step - start) % step = 0 := by
        rw [show c + step - start = c - start + step by omega, Nat.add_mod_right, hmod]
      rw [forUp, forLoop_of_round (by simpa using hc) hs₁, hnext]
      exact ih (c + step) s₁ (by omega) hmod' h₁ (by omega)
    · rw [Nat.min_eq_right (Nat.le_of_not_lt hc)] at hP
      refine ⟨s, ?_, hP⟩
      rw [forUp, forLoop_of_end (by simpa using Nat.le_of_not_lt hc)]
      rfl

/-- A loop by ones fails when one of its rounds does. -/
theorem forUp_eq_none {body : ℕ → σ → Option σ} {w stop r : ℕ} {P : σ → Prop}
    (hbody : ∀ c s s', P s → body c s = some s' → P s') (hr : r < stop) (hw : stop < 2 ^ w)
    (hfail : ∀ s, P s → body r s = none) {start : ℕ} (hstart : start ≤ r) {s : σ} (h : P s)
    (fuel : ℕ) : forUp w stop 1 body fuel start s = none := by
  induction fuel generalizing start s with
  | zero => rfl
  | succ fuel ih =>
    let more : ℕ → Bool := fun c => decide (c < stop)
    have hcond : more start = true := decide_eq_true (hstart.trans_lt hr)
    rcases Nat.eq_or_lt_of_le hstart with rfl | hlt
    · exact congrArg _ (forLoop_of_body_eq_none hcond (hfail s h) _)
    · cases hs' : body start s with
      | none => exact congrArg _ (forLoop_of_body_eq_none hcond hs' _)
      | some s' =>
        have hnext : (start + 1) % 2 ^ w = start + 1 := Nat.mod_eq_of_lt (by omega)
        apply (congrArg _ (forLoop_of_round hcond hs' fuel)).trans
        rw [hnext]
        exact ih hlt (hbody start s s' h hs')

end Loops
