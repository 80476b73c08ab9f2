import Mathlib

/-!
# Arrays of floats and words

The memory that the numeric functions work on, with a log of their accesses.  Exact numbers stand
for `float`.
-/

namespace MathUnikernel.MathLib

/-- The parameters that point to arrays. -/
inductive Param
  | a
  | b
  | out
  | values
  | colIdx
  | rowPtr
  | x
  | y
  deriving DecidableEq

/-- An access to the elements of an array from `index` on. -/
structure Access where
  array : Param
  index : ℕ
  lanes : ℕ
  write : Bool

/-- The `float` and the `uint32_t` objects, both by their addresses in units of four bytes. -/
structure Memory (α : Type*) where
  floats : ℕ → α
  words : ℕ → ℕ
  log : List Access

/-- `__m256`. -/
abbrev M256 (α : Type*) := Fin 8 → α

namespace Memory

variable {α : Type*}

def note (m : Memory α) (access : Access) : Memory α := { m with log := m.log ++ [access] }

@[simp] theorem note_floats (m : Memory α) (access : Access) : (m.note access).floats = m.floats := rfl

@[simp] theorem note_words (m : Memory α) (access : Access) : (m.note access).words = m.words := rfl

@[simp] theorem note_log (m : Memory α) (access : Access) :
    (m.note access).log = m.log ++ [access] := rfl

def loadFloat (m : Memory α) (array : Param) (base index : ℕ) : α × Memory α :=
  (m.floats (base + index), m.note ⟨array, index, 1, false⟩)

def storeFloat (m : Memory α) (array : Param) (base index : ℕ) (value : α) : Memory α :=
  { m.note ⟨array, index, 1, true⟩ with floats := Function.update m.floats (base + index) value }

def loadWord (m : Memory α) (array : Param) (base index : ℕ) : ℕ × Memory α :=
  (m.words (base + index), m.note ⟨array, index, 1, false⟩)

def storeWord (m : Memory α) (array : Param) (base index value : ℕ) : Memory α :=
  { m.note ⟨array, index, 1, true⟩ with words := Function.update m.words (base + index) value }

def mm256LoadPs (m : Memory α) (array : Param) (base index : ℕ) : M256 α × Memory α :=
  (fun l => m.floats (base + index + l), m.note ⟨array, index, 8, false⟩)

def mm256StorePs (m : Memory α) (array : Param) (base index : ℕ) (v : M256 α) : Memory α :=
  { m.note ⟨array, index, 8, true⟩ with
    floats := fun p =>
      if h : base + index ≤ p ∧ p < base + index + 8 then v ⟨p - (base + index), by omega⟩
      else m.floats p }

end Memory

variable {α : Type*}

def mm256SetzeroPs [Zero α] : M256 α := fun _ => 0

def mm256Set1Ps (value : α) : M256 α := fun _ => value

/-- The last argument is the lowest lane. -/
def mm256SetPs (e7 e6 e5 e4 e3 e2 e1 e0 : α) : M256 α := ![e0, e1, e2, e3, e4, e5, e6, e7]

def mm256FmaddPs [Add α] [Mul α] (u v w : M256 α) : M256 α := fun l => u l * v l + w l

/-! ## Logs -/

/-- `m'` comes after `m`, and every access between them is one of `Legal`. -/
def Later (Legal : Access → Prop) (m m' : Memory α) : Prop :=
  ∃ new, m'.log = m.log ++ new ∧ ∀ access ∈ new, Legal access

theorem Later.refl (Legal : Access → Prop) (m : Memory α) : Later Legal m m :=
  ⟨[], (List.append_nil _).symm, fun _ h => absurd h List.not_mem_nil⟩

theorem Later.trans {Legal : Access → Prop} {m m' m'' : Memory α} (h : Later Legal m m')
    (h' : Later Legal m' m'') : Later Legal m m'' := by
  obtain ⟨new, hlog, hnew⟩ := h
  obtain ⟨new', hlog', hnew'⟩ := h'
  refine ⟨new ++ new', by rw [hlog', hlog, List.append_assoc], fun access hmem => ?_⟩
  exact (List.mem_append.mp hmem).elim (hnew access) (hnew' access)

/-- One more access. -/
theorem Later.snoc {Legal : Access → Prop} {m m' m'' : Memory α} (h : Later Legal m m')
    {access : Access} (hlog : m''.log = m'.log ++ [access]) (hlegal : Legal access) :
    Later Legal m m'' := by
  apply h.trans
  exact ⟨[access], hlog, fun other hmem => List.mem_singleton.mp hmem ▸ hlegal⟩

end MathUnikernel.MathLib
