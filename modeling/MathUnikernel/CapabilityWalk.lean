import MathUnikernel.PciScan

/-!
# The capability walk, round by round

`pci_wake_device` follows pointers that the device supplies.  Here its loop is a machine that takes
one round at a time, so that a list which never ends is a run like any other.
-/

namespace MathUnikernel.Pci
open Loops

/-- A call of `pci_write_dword`. -/
structure ConfigWrite where
  function : PciFunction
  offset : UInt8
  data : UInt32
  deriving DecidableEq

def ConfigWrite.apply (config : Config) (w : ConfigWrite) : Config :=
  pciWriteDword config w.function w.offset w.data

/-- `pci_wake_device` between two rounds: the calls of `pci_write_dword` so far, and whether it has
returned. -/
structure WakeState where
  config : Config
  capPtr : UInt8
  writes : List ConfigWrite
  returned : Bool

/-- Before the first round. -/
def wakeStart (config : Config) (f : PciFunction) : WakeState where
  config
  capPtr := firstPtr config f
  writes := []
  returned := !hasCapabilities config f

def WakeState.write (s : WakeState) (w : ConfigWrite) : WakeState :=
  { s with config := w.apply s.config, writes := s.writes ++ [w] }

/-- One round of the `while`. -/
def wakeStep (f : PciFunction) (s : WakeState) : WakeState :=
  if s.returned then s
  else if s.capPtr = 0 then { s with returned := true }
  else if capId s.config f s.capPtr = 0x01 then
    let pmcsr := pciReadDword s.config f (s.capPtr + 4)
    if pmcsr &&& 0x03 ≠ 0 then
      { s.write ⟨f, s.capPtr + 4, pmcsr &&& ~~~0x03⟩ with returned := true }
    else { s with returned := true }
  else { s with capPtr := nextPtr s.config f s.capPtr }

/-- `pci_wake_device` after `k` rounds. -/
def wakeRun (config : Config) (f : PciFunction) (k : ℕ) : WakeState :=
  (wakeStep f)^[k] (wakeStart config f)

theorem wakeRun_succ (config : Config) (f : PciFunction) (k : ℕ) :
    wakeRun config f (k + 1) = wakeStep f (wakeRun config f k) :=
  Function.iterate_succ_apply' _ k _

theorem wakeStep_of_returned {f : PciFunction} {s : WakeState} (h : s.returned = true) :
    wakeStep f s = s :=
  if_pos h

section Chain
variable (config : Config) (f : PciFunction)

/-- The pointers of the list, the first one at 0. -/
def chain (n : ℕ) : UInt8 := (nextPtr config f)^[n] (firstPtr config f)

/-- The walk does not go on from the `n`-th pointer. -/
def Stops (n : ℕ) : Prop := chain config f n = 0 ∨ capId config f (chain config f n) = 0x01

/-- The `n`-th pointer is the first one of a power management capability. -/
structure FirstPower (n : ℕ) : Prop where
  listed : hasCapabilities config f = true
  before : ∀ j < n, ¬Stops config f j
  pointer : chain config f n ≠ 0
  power : capId config f (chain config f n) = 0x01

/-- The control register of the capability at `capPtr` with its two low bits cleared. -/
def powerWrite (capPtr : UInt8) : ConfigWrite :=
  ⟨f, capPtr + 4, pciReadDword config f (capPtr + 4) &&& ~~~0x03⟩

end Chain

section
variable {config : Config} {f : PciFunction}

instance (n : ℕ) : Decidable (Stops config f n) := inferInstanceAs (Decidable (_ ∨ _))

theorem chain_succ (n : ℕ) : chain config f (n + 1) = nextPtr config f (chain config f n) :=
  Function.iterate_succ_apply' _ n _

/-- While the walk goes on it only follows the list. -/
theorem wakeRun_of_going (hcaps : hasCapabilities config f = true) {n : ℕ}
    (h : ∀ j < n, ¬Stops config f j) :
    wakeRun config f n = ⟨config, chain config f n, [], false⟩ := by
  induction n with
  | zero =>
    change wakeStart config f = _
    rw [wakeStart, hcaps]
    rfl
  | succ n ih =>
    have hgoing := h n (Nat.lt_succ_self n)
    rw [Stops, not_or] at hgoing
    rw [wakeRun_succ, ih (fun j hj => h j (by omega)), wakeStep, if_neg Bool.false_ne_true,
      if_neg hgoing.1, if_neg hgoing.2, chain_succ]

/-- The round at the pointer where the walk stops. -/
theorem wakeRun_of_stop (hcaps : hasCapabilities config f = true) {n : ℕ}
    (h : ∀ j < n, ¬Stops config f j) (hstop : Stops config f n) :
    (wakeRun config f (n + 1)).returned = true ∧
      ((wakeRun config f (n + 1)).writes = [] ∨ FirstPower config f n ∧
        (wakeRun config f (n + 1)).writes = [powerWrite config f (chain config f n)]) := by
  rw [wakeRun_succ, wakeRun_of_going hcaps h, wakeStep, if_neg Bool.false_ne_true]
  by_cases hzero : chain config f n = 0
  · rw [if_pos hzero]
    exact ⟨rfl, Or.inl rfl⟩
  · have hpower := hstop.resolve_left hzero
    rw [if_neg hzero, if_pos hpower]
    dsimp only
    split_ifs
    · exact ⟨rfl, Or.inr ⟨⟨hcaps, h, hzero, hpower⟩, rfl⟩⟩
    · exact ⟨rfl, Or.inl rfl⟩

theorem wakeRun_of_le {m k : ℕ} (hle : m ≤ k) (h : (wakeRun config f m).returned = true) :
    wakeRun config f k = wakeRun config f m := by
  induction k, hle using Nat.le_induction with
  | base => rfl
  | succ k _ ih => rw [wakeRun_succ, ih, wakeStep_of_returned h]

/-- Without a list the function returns before its loop. -/
theorem wakeRun_of_unlisted (h : hasCapabilities config f = false) (k : ℕ) :
    wakeRun config f k = ⟨config, firstPtr config f, [], true⟩ := by
  have hstart : wakeRun config f 0 = ⟨config, firstPtr config f, [], true⟩ := by
    change wakeStart config f = _
    rw [wakeStart, h]
    rfl
  rw [wakeRun_of_le (Nat.zero_le k) (by rw [hstart]), hstart]

theorem goesOn_chain (n : ℕ) : goesOn config f (chain config f n) = false ↔ Stops config f n := by
  simp only [goesOn, Stops, Bool.and_eq_false_iff, bne_eq_false_iff_eq]

theorem goesOn_chain_true (n : ℕ) :
    goesOn config f (chain config f n) = true ↔ ¬Stops config f n := by
  rw [← goesOn_chain, Bool.not_eq_false]

/-- A walk stops within 256 pointers or never. -/
theorem exists_first_stop (h : ∃ n, Stops config f n) :
    ∃ n < 256, Stops config f n ∧ ∀ j < n, ¬Stops config f j := by
  obtain ⟨n, hn, hstop, hbefore⟩ := exists_walk_end (h.imp fun n hn => (goesOn_chain n).mpr hn)
  exact ⟨n, hn, (goesOn_chain n).mp hstop, fun j hj => (goesOn_chain_true j).mp (hbefore j hj)⟩

/-- Every state of a run: the walk has not come to its end, or it has and is over. -/
theorem wakeRun_cases (hcaps : hasCapabilities config f = true) (k : ℕ) :
    (∀ j < k, ¬Stops config f j) ∨
      ∃ n < 256, Stops config f n ∧ (∀ j < n, ¬Stops config f j) ∧
        wakeRun config f k = wakeRun config f (n + 1) := by
  by_cases h : ∀ j < k, ¬Stops config f j
  · exact Or.inl h
  · -- the walk has stopped before round `k`, and no later round changed anything
    right
    push Not at h
    obtain ⟨j, hj, hstop⟩ := h
    obtain ⟨n, hn, hstop', hbefore⟩ := exists_first_stop ⟨j, hstop⟩
    have hle : n ≤ j := not_lt.mp fun hlt => hbefore j hlt hstop
    exact ⟨n, hn, hstop', hbefore, wakeRun_of_le (by omega) (wakeRun_of_stop hcaps hbefore hstop').1⟩

/-- The configuration space is the one before with the calls of `pci_write_dword` done. -/
theorem wakeRun_config (k : ℕ) :
    (wakeRun config f k).config = (wakeRun config f k).writes.foldl ConfigWrite.apply config := by
  induction k with
  | zero => rfl
  | succ k ih =>
    rw [wakeRun_succ]
    unfold wakeStep
    split_ifs
    · exact ih
    · exact ih
    · dsimp only
      split_ifs
      · exact (congrArg (ConfigWrite.apply · _) ih).trans (List.foldl_concat _ _ _ _).symm
      · exact ih
    · exact ih

end

/-- The walk by rounds and the walk with 256 rounds of fuel are the same. -/
theorem pciWakeDevice_eq (config : Config) (f : PciFunction) : pciWakeDevice config f =
    if (wakeRun config f 256).returned then some (wakeRun config f 256).config else none := by
  unfold pciWakeDevice
  by_cases hcaps : hasCapabilities config f = true
  · rw [if_pos hcaps]
    by_cases h : ∃ n, Stops config f n
    · obtain ⟨n, hn, hstop, hbefore⟩ := exists_first_stop h
      have hround := wakeRun_of_stop hcaps hbefore hstop
      have hwalk : walkCapabilities config f = some (chain config f n) :=
        walkCapabilities_of_end hn ((goesOn_chain n).mpr hstop)
          fun j hj => (goesOn_chain_true j).mpr (hbefore j hj)
      rw [wakeRun_of_le hn hround.1, if_pos hround.1, hwalk, Option.map_some, wakeRun_succ,
        wakeRun_of_going hcaps hbefore, wakeStep, if_neg Bool.false_ne_true]
      by_cases hzero : chain config f n = 0
      · rw [if_pos hzero, if_pos hzero]
      · rw [if_neg hzero, if_neg hzero, if_pos (hstop.resolve_left hzero)]
        dsimp only
        split_ifs
        · rfl
        · rfl
    · -- every pointer of the list lets the walk go on
      push Not at h
      have hloop : forLoop (goesOn config f) (nextPtr config f) (fun _ s => some s) 256
          (firstPtr config f) () = none := by
        apply @forLoop_eq_none _ _ _ _ _ (fun capPtr => ∃ n, capPtr = chain config f n)
        · rintro - ⟨n, rfl⟩
          exact (goesOn_chain_true n).mpr (h n)
        · rintro - ⟨n, rfl⟩
          exact ⟨n + 1, (chain_succ n).symm⟩
        · exact ⟨0, rfl⟩
      have hwalk : walkCapabilities config f = none := congrArg (Option.map Prod.fst) hloop
      rw [hwalk, wakeRun_of_going hcaps fun j _ => h j]
      rfl
  · rw [if_neg hcaps, wakeRun_of_unlisted (Bool.eq_false_of_not_eq_true hcaps)]
    rfl

/-- The walk ends exactly when there is no list or one of its first 256 pointers is 0 or has a power
management capability.  Ended or not, it has made at most one write, to the control register of the
first power management capability, and changed nothing else. -/
theorem wakeDevice_walk (config : Config) (f : PciFunction) :
    ((∃ k, (wakeRun config f k).returned = true) ↔
      hasCapabilities config f = false ∨ ∃ n < 256, Stops config f n) ∧
    ((∃ k, (wakeRun config f k).returned = true) → (wakeRun config f 256).returned = true) ∧
    ∀ k, (wakeRun config f k).config =
        (wakeRun config f k).writes.foldl ConfigWrite.apply config ∧
      ((wakeRun config f k).writes = [] ∨ (wakeRun config f k).returned = true ∧
        ∃ n, FirstPower config f n ∧
          (wakeRun config f k).writes = [powerWrite config f (chain config f n)]) := by
  by_cases hcaps : hasCapabilities config f = true
  · have hends : ∀ k, (wakeRun config f k).returned = true → ∃ n < 256, Stops config f n := by
      intro k hk
      apply (wakeRun_cases hcaps k).elim
      · intro hgoing
        rw [wakeRun_of_going hcaps hgoing] at hk
        exact absurd hk Bool.false_ne_true
      · rintro ⟨n, hn, hstop, -, -⟩
        exact ⟨n, hn, hstop⟩
    have hstops : (∃ n < 256, Stops config f n) → (wakeRun config f 256).returned = true := by
      rintro ⟨m, -, hm⟩
      obtain ⟨n, hn, hstop, hbefore⟩ := exists_first_stop ⟨m, hm⟩
      have hend := (wakeRun_of_stop hcaps hbefore hstop).1
      rw [wakeRun_of_le hn hend]
      exact hend
    refine ⟨⟨?_, ?_⟩, ?_, fun k => ⟨wakeRun_config k, ?_⟩⟩
    · rintro ⟨k, hk⟩
      exact Or.inr (hends k hk)
    · intro h
      exact ⟨256, hstops (h.resolve_left (by simp [hcaps]))⟩
    · rintro ⟨k, hk⟩
      exact hstops (hends k hk)
    · apply (wakeRun_cases hcaps k).elim
      · intro hgoing
        rw [wakeRun_of_going hcaps hgoing]
        exact Or.inl rfl
      · rintro ⟨n, -, hstop, hbefore, hk⟩
        have hround := wakeRun_of_stop hcaps hbefore hstop
        rw [hk]
        exact hround.2.imp_right fun hwrite => ⟨hround.1, n, hwrite⟩
  · have hrun := wakeRun_of_unlisted (Bool.eq_false_of_not_eq_true hcaps)
    refine ⟨⟨fun _ => Or.inl (Bool.eq_false_of_not_eq_true hcaps), fun _ => ⟨0, by rw [hrun]⟩⟩, ?_,
      fun k => ⟨wakeRun_config k, ?_⟩⟩
    · intro _
      rw [hrun]
    · rw [hrun]
      exact Or.inl rfl

/-! ## A list that goes round -/

/-- One capability, of another kind, whose next pointer leads back to it. -/
def ringConfig : Config := fun _ offset =>
  if offset = 0x04 then 0x00100000 else if offset = 0x34 then 0x40
  else if offset = 0x40 then 0x4005 else 0

theorem wake_goes_round : ¬∃ k, (wakeRun ringConfig ⟨0, 31, 6⟩ k).returned = true := by
  have hround : ∀ n, chain ringConfig ⟨0, 31, 6⟩ n = 0x40 := by
    intro n
    induction n with
    | zero => decide
    | succ n ih =>
      rw [chain_succ, ih]
      decide
  rintro ⟨k, hk⟩
  have hgoing : ∀ j < k, ¬Stops ringConfig ⟨0, 31, 6⟩ j := by
    intro j _
    rw [Stops, hround]
    decide
  rw [wakeRun_of_going (by decide) hgoing] at hk
  exact Bool.false_ne_true hk

end MathUnikernel.Pci
