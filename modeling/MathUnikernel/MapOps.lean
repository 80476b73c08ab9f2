import MathUnikernel.Requests

/-!
# Operations made of several calls

`vmm_map_range` is a sequence of calls of `vmm_map_virt_to_phys`.
-/

namespace MathUnikernel.Vmm
open Pmm RadixTree

/-! ## Operations -/

inductive MapOp
  | page (c : MapCall)
  | range (virtStart physStart size flags : ℕ)

namespace MapOp

def exec : MapOp → Machine → Option Machine
  | page c, m => some (c.exec m)
  | range virtStart physStart size flags, m => vmmMapRange m virtStart physStart size flags

/-- The call of round `k`. -/
def call : MapOp → ℕ → MapCall
  | page c, _ => c
  | range virtStart physStart _ flags, k =>
    ⟨false, (virtStart + 4096 * k) % 2 ^ 64, (physStart + 4096 * k) % 2 ^ 64, flags⟩

/-- The operation makes a round `k`; where `offset += 4096` wraps it makes every round. -/
def Round : MapOp → ℕ → Prop
  | page _, k => k = 0
  | range _ _ size _, k => ∀ j ≤ k, 4096 * j % 2 ^ 64 < size

/-- The machine after `k` rounds. -/
def after (op : MapOp) (k : ℕ) (m : Machine) : Machine :=
  (List.range k).foldl (fun m j => (op.call j).exec m) m

@[simp] theorem after_zero (op : MapOp) (m : Machine) : op.after 0 m = m := rfl

theorem after_succ (op : MapOp) (k : ℕ) (m : Machine) :
    op.after (k + 1) m = (op.call k).exec (op.after k m) := by
  rw [after, List.range_succ, List.foldl_append]
  rfl

theorem Round.of_le {op : MapOp} {j k : ℕ} (h : op.Round k) (hjk : j ≤ k) : op.Round j := by
  cases op with
  | page c =>
    obtain rfl : k = 0 := h
    exact Nat.le_zero.mp hjk
  | range virtStart physStart size flags => exact fun i hi => h i (hi.trans hjk)

/-- The loop of `vmm_map_range` from round `j` on. -/
theorem mapRangeFrom_after {virtStart physStart size flags offset : ℕ} {m m₁ m' : Machine}
    (h : mapRangeFrom virtStart physStart size flags offset m₁ = some m') {j : ℕ}
    (hoffset : offset = 4096 * j) (hm₁ : m₁ = (range virtStart physStart size flags).after j m)
    (hj : ∀ i < j, 4096 * i < size ∧ 4096 * i < 2 ^ 64) :
    ∃ n, m' = (range virtStart physStart size flags).after n m ∧ size ≤ 4096 * n ∧
      ∀ i < n, 4096 * i < size ∧ 4096 * i < 2 ^ 64 := by
  fun_induction mapRangeFrom virtStart physStart size flags offset m₁ generalizing j with
  | case1 offset m₁ hlt hwrap ih =>
    refine ih h (j := j + 1) (by omega) ?_ fun i hi => ?_
    · rw [after_succ, ← hm₁, hoffset]
      rfl
    · rcases Nat.lt_succ_iff_lt_or_eq.mp hi with hi | rfl
      · exact hj i hi
      · omega
  | case2 offset m₁ hlt hwrap => exact absurd h (by simp)
  | case3 offset m₁ hlt =>
    obtain rfl : m₁ = m' := Option.some.inj h
    exact ⟨j, hm₁, by omega, hj⟩

/-- An operation that ends is some number of rounds. -/
theorem exec_after {op : MapOp} {m m' : Machine} (h : op.exec m = some m') :
    ∃ n, m' = op.after n m ∧ ∀ k < n, op.Round k := by
  cases op with
  | page c => exact ⟨1, (Option.some.inj h).symm, fun k hk => Nat.lt_one_iff.mp hk⟩
  | range virtStart physStart size flags =>
    obtain ⟨n, hm', -, hn⟩ := @mapRangeFrom_after _ _ _ _ _ m _ _ h 0 rfl rfl
      fun i hi => absurd hi (Nat.not_lt_zero i)
    refine ⟨n, hm', fun k hk j hjk => ?_⟩
    obtain ⟨hsize, hlt⟩ := hn j (by omega)
    rwa [Nat.mod_eq_of_lt hlt]

theorem after_log (op : MapOp) {j k : ℕ} (h : j ≤ k) (m : Machine) :
    (op.after j m).log <+: (op.after k m).log := by
  induction k, h using Nat.le_induction with
  | base => exact List.prefix_rfl
  | succ k _ ih =>
    rw [after_succ]
    exact ih.trans (exec_log _ _)

theorem exec_log_le {op : MapOp} {m m' : Machine} (h : op.exec m = some m') : m.log <+: m'.log := by
  obtain ⟨n, rfl, -⟩ := exec_after h
  exact op.after_log (Nat.zero_le n) m

end MapOp

/-! ## Later machines -/

/-- What holds of any later machine: frames stay in use, and new tables are in free frames. -/
structure Later (m m' : Machine) : Prop where
  used : ∀ f, m.pmm.used f = true → m'.pmm.used f = true
  fresh : ∀ f, m'.IsTable f → m.IsTable f ∨ m.pmm.used f = false

theorem Later.refl (m : Machine) : Later m m := ⟨fun _ h => h, fun _ h => .inl h⟩

theorem Later.trans {m m' m'' : Machine} (h : Later m m') (h' : Later m' m'') : Later m m'' := by
  refine ⟨fun f hf => h'.used f (h.used f hf), fun f hf => ?_⟩
  rcases h'.fresh f hf with hf | hfree
  · exact h.fresh f hf
  · exact .inr (free_of_kept (h.used f) hfree)

/-- Frame `f` is in use, and not for a table. -/
def Machine.Data (m : Machine) (f : ℕ) : Prop := m.pmm.used f = true ∧ ¬m.IsTable f

/-- Data stays data: no frame in use comes to hold a table. -/
theorem Later.data {m m' : Machine} (h : Later m m') {f : ℕ} (hf : m.Data f) : m'.Data f := by
  refine ⟨h.used f hf.1, fun htable => ?_⟩
  rcases h.fresh f htable with hold | hfree
  · exact hf.2 hold
  · rw [hf.1] at hfree
    exact absurd hfree (by simp)

theorem Mapped.later {m m' : Machine} {path : List (Fin 512)} {index : Fin 512} {entry : ℕ}
    (h : Mapped m m' path index entry) (hm : Claimed m) : Later m m' := by
  have hT : m.pmm.totalFrames ≤ 2 ^ 52 := by
    have := hm.totalFrames_le
    omega
  exact ⟨fun f hf => (h.used hT f).mpr (.inl hf), h.fresh hT⟩

end MathUnikernel.Vmm
