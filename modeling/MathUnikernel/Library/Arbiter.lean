import Mathlib

/-!
# Fixed-priority requests

Requests wait until they are acknowledged; an acknowledged one is in service until it is finished.
The least level has the highest priority, and only a request above every level in service is
acknowledged.
-/

namespace Arbiter

/-- The requests that wait, and the levels in service. -/
@[ext] structure State (ι : Type*) where
  requested : Finset ι
  inService : Finset ι
  deriving DecidableEq

variable {ι : Type*} [LinearOrder ι]

/-- The element of the highest priority. -/
def first (s : Finset ι) : Option ι := if h : s.Nonempty then some (s.min' h) else none

theorem first_eq_some_iff {s : Finset ι} {i : ι} : first s = some i ↔ i ∈ s ∧ ∀ j ∈ s, i ≤ j := by
  unfold first
  constructor
  · intro h
    split_ifs at h with hne
    obtain rfl := Option.some.inj h
    exact ⟨s.min'_mem hne, fun j hj => s.min'_le j hj⟩
  · rintro ⟨hi, hle⟩
    rw [dif_pos ⟨i, hi⟩]
    exact congrArg some (le_antisymm (s.min'_le i hi) (hle _ (s.min'_mem _)))

theorem first_eq_none_iff {s : Finset ι} : first s = none ↔ s = ∅ := by
  unfold first
  split_ifs with h
  · simp [h.ne_empty]
  · simpa using h

namespace State
variable (enabled : ι → Bool) (s : State ι)

/-- The requests that may be acknowledged. -/
def candidates : Finset ι :=
  s.requested.filter fun i => enabled i = true ∧ ∀ j ∈ s.inService, i < j

def request (i : ι) : State ι := { s with requested := insert i s.requested }

def withdraw (i : ι) : State ι := { s with requested := s.requested.erase i }

/-- The acknowledged request goes into service. -/
def serve (i : ι) : State ι where
  requested := s.requested.erase i
  inService := insert i s.inService

/-- The end of the service that has the highest priority. -/
def finish : State ι :=
  match first s.inService with
  | some i => { s with inService := s.inService.erase i }
  | none => s

/-- No level is in service. -/
def Idle : Prop := s.inService = ∅

variable {enabled s}

theorem mem_candidates {i : ι} :
    i ∈ s.candidates enabled ↔ i ∈ s.requested ∧ enabled i = true ∧ ∀ j ∈ s.inService, i < j :=
  Finset.mem_filter

theorem Idle.mem_candidates (h : s.Idle) {i : ι} :
    i ∈ s.candidates enabled ↔ i ∈ s.requested ∧ enabled i = true := by
  rw [State.mem_candidates, h]
  simp

@[simp] theorem finish_requested : s.finish.requested = s.requested := by
  unfold finish
  split <;> rfl

/-- With at most one level in service, its end leaves none. -/
theorem idle_finish (h : s.inService.card ≤ 1) : s.finish.Idle := by
  unfold finish Idle
  cases hfirst : first s.inService with
  | none => exact first_eq_none_iff.mp hfirst
  | some i =>
    have hi := (first_eq_some_iff.mp hfirst).1
    exact Finset.card_eq_zero.mp (by simp only [Finset.card_erase_of_mem hi]; omega)

theorem Idle.card_serve (h : s.Idle) (i : ι) : (s.serve i).inService.card = 1 := by
  have hempty : s.inService = ∅ := h
  simp [serve, hempty]

end State

end Arbiter
