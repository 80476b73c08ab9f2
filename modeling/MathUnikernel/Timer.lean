import MathUnikernel.Library.Loops

/-!
# The timer

The functions of `lib.c` that measure time.  `timer_calibrate` counts the cycles of the processor
against the interval timer, a 16-bit counter that runs downwards and wraps.
-/

namespace MathUnikernel.Lib
open Loops

def pitFreqHz : UInt64 := 1193182
def timerInitSuccess : UInt16 := (1 : UInt16) <<< 9

/-- `pit_read_count`: the two bytes that the channel delivers, the low one first. -/
def pitReadCount (lo hi : UInt8) : UInt16 := hi.toUInt16 <<< 8 ||| lo.toUInt16

/-- The condition of the `do … while`.  Both operands of the subtraction are promoted to `int`. -/
def polling (pitStart pitNow : UInt16) : Bool :=
  decide ((pitStart.toNat : ℤ) - pitNow.toNat < 50000) && decide (pitNow ≤ pitStart)

/-- The `do … while` from the `k`-th reading on: the reading at which it ends.  `none` if that takes
more than `fuel` readings. -/
def calibrationLoop (readings : ℕ → UInt16) (pitStart : UInt16) : ℕ → ℕ → Option ℕ
  | 0, _ => none
  | fuel + 1, k =>
    if polling pitStart (readings k) then calibrationLoop readings pitStart fuel (k + 1) else some k

/-- An `int` that is assigned to a `uint16_t`. -/
def pitElapsed (pitStart pitNow : UInt16) : UInt16 :=
  UInt16.ofInt (if pitNow ≤ pitStart then (pitStart.toNat : ℤ) - pitNow.toNat
    else pitStart.toNat + (0xffff - pitNow.toNat) + 1)

/-- `timer_calibrate` on the bytes of the channel and the two values of `rdtscp`: its result and
`tsc_freq_hz`. -/
def timerCalibrate (channel : ℕ → UInt8 × UInt8) (tscStart tscNow tscFreqHz : UInt64) (fuel : ℕ) :
    Option (UInt16 × UInt64) :=
  let readings := fun k => pitReadCount (channel k).1 (channel k).2
  (calibrationLoop readings (readings 0) fuel 1).map fun k =>
    let elapsed := pitElapsed (readings 0) (readings k)
    let tscElapsed := tscNow - tscStart
    if elapsed = 0 then (0, tscFreqHz)
    else
      let freq := tscElapsed * pitFreqHz / elapsed.toUInt64
      if freq = 0 then (0, freq) else (timerInitSuccess, freq)

def cyclesToMs (tscFreqHz cycles : UInt64) : UInt64 :=
  if tscFreqHz = 0 then 0 else cycles * 1000 / tscFreqHz

def msToCycles (tscFreqHz ms : UInt64) : UInt64 := ms * tscFreqHz / 1000

/-! ## The counter's bytes -/

theorem toNat_pitReadCount (lo hi : UInt8) :
    (pitReadCount lo hi).toNat = 256 * hi.toNat + lo.toNat := by
  have hlo := lo.toNat_lt
  have hhi := hi.toNat_lt
  have hshift : (hi.toUInt16 <<< 8).toNat = hi.toNat <<< 8 := by
    rw [UInt16.toNat_shiftLeft, UInt8.toNat_toUInt16]
    apply Nat.mod_eq_of_lt
    rw [Nat.shiftLeft_eq]
    exact (Nat.mul_lt_mul_right (by decide)).mpr hhi
  rw [pitReadCount, UInt16.toNat_or, hshift, UInt8.toNat_toUInt16,
    ← Nat.shiftLeft_add_eq_or_of_lt hlo, Nat.shiftLeft_eq]
  ring

/-- A reading puts the counter together again. -/
theorem pitReadCount_bytes (x : UInt16) : pitReadCount x.toUInt8 (x >>> 8).toUInt8 = x := by
  have hx := x.toNat_lt
  apply UInt16.toNat_inj.mp
  rw [toNat_pitReadCount, UInt16.toNat_toUInt8, UInt16.toNat_toUInt8, UInt16.toNat_shiftRight]
  change 256 * (x.toNat >>> 8 % 2 ^ 8) + x.toNat % 2 ^ 8 = x.toNat
  rw [Nat.shiftRight_eq_div_pow]
  omega

/-! ## The calibration loop -/

/-- The readings of a counter that runs downwards: `ticks k` have passed between the first reading
and the `k`-th, few of them between two readings, and there is always one more to come. -/
structure CountsDown (readings : ℕ → UInt16) (ticks : ℕ → ℕ) : Prop where
  start : ticks 0 = 0
  reading : ∀ k, readings k = readings 0 - UInt16.ofNat (ticks k)
  mono : ∀ k, ticks k ≤ ticks (k + 1)
  gap : ∀ k, ticks (k + 1) < ticks k + 15536
  advances : ∀ k, ∃ j > k, ticks k < ticks j

theorem CountsDown.unbounded {readings : ℕ → UInt16} {ticks : ℕ → ℕ} (h : CountsDown readings ticks)
    (n : ℕ) : ∃ k, n ≤ ticks k := by
  induction n with
  | zero => exact ⟨0, Nat.zero_le _⟩
  | succ n ih =>
    obtain ⟨k, hk⟩ := ih
    obtain ⟨j, -, hj⟩ := h.advances k
    exact ⟨j, hk.trans_lt hj⟩

section Reading
variable {pitStart : UInt16} {t : ℕ} (ht : t < 65536)

include ht

theorem toNat_reading : (pitStart - UInt16.ofNat t).toNat =
    if t ≤ pitStart.toNat then pitStart.toNat - t else 65536 + pitStart.toNat - t := by
  have hstart := pitStart.toNat_lt
  rw [UInt16.toNat_sub, UInt16.toNat_ofNat', Nat.mod_eq_of_lt (show t < 2 ^ 16 from ht)]
  split_ifs with hle
  · omega
  · omega

/-- Before the counter has wrapped a reading is at most the first one, and after it is larger. -/
theorem reading_le_iff : pitStart - UInt16.ofNat t ≤ pitStart ↔ t ≤ pitStart.toNat := by
  have hstart := pitStart.toNat_lt
  rw [UInt16.le_iff_toNat_le, toNat_reading ht]
  split_ifs with hle
  · omega
  · omega

theorem polling_reading :
    polling pitStart (pitStart - UInt16.ofNat t) = true ↔ t ≤ pitStart.toNat ∧ t < 50000 := by
  unfold polling
  rw [Bool.and_eq_true, decide_eq_true_eq, decide_eq_true_eq, reading_le_iff ht, toNat_reading ht]
  by_cases hle : t ≤ pitStart.toNat
  · rw [if_pos hle]
    omega
  · simp [hle]

/-- Both formulas count the ticks. -/
theorem toNat_pitElapsed : (pitElapsed pitStart (pitStart - UInt16.ofNat t)).toNat = t := by
  have hstart := pitStart.toNat_lt
  unfold pitElapsed
  rw [UInt16.ofInt, UInt16.toNat_ofNat']
  simp only [reading_le_iff ht, toNat_reading ht]
  split_ifs with hle
  · omega
  · omega

end Reading

theorem calibrationLoop_succ (readings : ℕ → UInt16) (pitStart : UInt16) (fuel k : ℕ) :
    calibrationLoop readings pitStart (fuel + 1) k =
      if polling pitStart (readings k) = true then calibrationLoop readings pitStart fuel (k + 1)
      else some k := rfl

theorem CountsDown.polling_iff {readings : ℕ → UInt16} {ticks : ℕ → ℕ} (h : CountsDown readings ticks)
    {k : ℕ} (hk : ticks k < 65536) : polling (readings 0) (readings k) = true ↔
      ticks k ≤ (readings 0).toNat ∧ ticks k < 50000 := by
  rw [congrArg (polling (readings 0)) (h.reading k)]
  exact polling_reading hk

/-- The loop ends, at the first reading after the counter has wrapped or run for 50000 ticks. -/
theorem CountsDown.loop {readings : ℕ → UInt16} {ticks : ℕ → ℕ} (h : CountsDown readings ticks) :
    ∃ k, 1 ≤ k ∧ 1 ≤ ticks k ∧ ticks k < 65536 ∧
      ∀ fuel ≥ k, calibrationLoop readings (readings 0) fuel 1 = some k := by
  classical
  have hends : ∃ k, ¬(ticks k ≤ (readings 0).toNat ∧ ticks k < 50000) := by
    obtain ⟨k, hk⟩ := h.unbounded 50000
    exact ⟨k, fun hgo => absurd hgo.2 (not_lt.mpr hk)⟩
  have hfirst : ∀ j < Nat.find hends, ticks j ≤ (readings 0).toNat ∧ ticks j < 50000 :=
    fun j hj => not_not.mp (Nat.find_min hends hj)
  have hstop := Nat.find_spec hends
  generalize Nat.find hends = k at hfirst hstop
  have hpos : k ≠ 0 := by
    intro hk
    apply hstop
    rw [hk, h.start]
    omega
  obtain ⟨n, rfl⟩ := Nat.exists_eq_succ_of_ne_zero hpos
  -- the last reading that goes on is at most 49999 ticks old, so this one has not gone round
  have hlast := hfirst n (Nat.lt_succ_self n)
  have hgap := h.gap n
  have hsmall : ticks (n + 1) < 65536 := by omega
  have hticks : 1 ≤ ticks (n + 1) := by
    by_contra hzero
    apply hstop
    rw [Nat.succ_eq_add_one]
    omega
  refine ⟨n + 1, Nat.succ_pos n, hticks, hsmall, ?_⟩
  intro fuel hfuel
  apply search_of_stop (calibrationLoop_succ _ _)
  · omega
  · rw [h.polling_iff hsmall]
    exact hstop
  · intro j _ hj
    have hgo := hfirst j hj
    rw [h.polling_iff (by omega)]
    exact hgo
  · omega

/-- Whatever the first reading, the calibration ends and divides by the number of ticks between its
first and its last reading. -/
theorem timerCalibrate_measures {channel : ℕ → UInt8 × UInt8} {ticks : ℕ → ℕ}
    (h : CountsDown (fun k => pitReadCount (channel k).1 (channel k).2) ticks) :
    ∃ k, 1 ≤ k ∧ 1 ≤ ticks k ∧ ticks k ≤ 65535 ∧
      (pitElapsed (pitReadCount (channel 0).1 (channel 0).2)
        (pitReadCount (channel k).1 (channel k).2)).toNat = ticks k ∧
      ∀ tscStart tscNow tscFreqHz : UInt64, ∀ fuel ≥ k,
        timerCalibrate channel tscStart tscNow tscFreqHz fuel =
          some (let freq := (tscNow - tscStart) * pitFreqHz / UInt64.ofNat (ticks k)
            if freq = 0 then (0, freq) else (timerInitSuccess, freq)) := by
  obtain ⟨k, hk, hticks, hsmall, hloop⟩ := h.loop
  have helapsed := @toNat_pitElapsed (pitReadCount (channel 0).1 (channel 0).2) _ hsmall
  rw [← h.reading k] at helapsed
  refine ⟨k, hk, hticks, by omega, helapsed, ?_⟩
  intro tscStart tscNow tscFreqHz fuel hfuel
  have hne : pitElapsed (pitReadCount (channel 0).1 (channel 0).2)
      (pitReadCount (channel k).1 (channel k).2) ≠ 0 := by
    intro hzero
    rw [hzero] at helapsed
    exact absurd helapsed (by simp; omega)
  unfold timerCalibrate
  dsimp only
  rw [hloop fuel hfuel, Option.map_some, if_neg hne,
    ← UInt64.ofNat_uInt16ToNat, helapsed]

/-- A counter that starts at 500 and runs 1000 ticks between two readings. -/
def countdown (k : ℕ) : UInt16 := 500 - UInt16.ofNat (1000 * k)

theorem countsDown_countdown : CountsDown
    (fun k => pitReadCount (countdown k).toUInt8 (countdown k >>> 8).toUInt8) (1000 * ·) := by
  simp only [pitReadCount_bytes]
  refine ⟨rfl, fun k => ?_, fun k => ?_, fun k => ?_, fun k => ⟨k + 1, ?_, ?_⟩⟩
  · rfl
  · omega
  · omega
  · omega
  · omega

theorem timerCalibrate_measures_countdown : ∃ k, 1 ≤ k ∧ 1 ≤ 1000 * k ∧ 1000 * k ≤ 65535 ∧
    (pitElapsed (pitReadCount (countdown 0).toUInt8 (countdown 0 >>> 8).toUInt8)
      (pitReadCount (countdown k).toUInt8 (countdown k >>> 8).toUInt8)).toNat = 1000 * k := by
  obtain ⟨k, hk, hticks, hsmall, helapsed, -⟩ := @timerCalibrate_measures
    (fun k => ((countdown k).toUInt8, (countdown k >>> 8).toUInt8)) _ countsDown_countdown
  exact ⟨k, hk, hticks, hsmall, helapsed⟩

/-! ## Conversions -/

/-- A quotient survives the loss of the upper bits of its dividend only when there are none. -/
theorem mod_div_eq_iff {x d w : ℕ} (hd : 0 < d) (hdw : d ≤ w) : x % w / d = x / d ↔ x < w := by
  constructor
  · intro heq
    by_contra hge
    have hsub : x % w + d ≤ x := by
      have hmod := Nat.mod_le (x - w) w
      rw [Nat.mod_eq_sub_mod (not_lt.mp hge)]
      omega
    have hquot : x % w / d + 1 ≤ x / d := by
      rw [← Nat.add_div_right _ hd]
      exact Nat.div_le_div_right hsub
    omega
  · intro hlt
    rw [Nat.mod_eq_of_lt hlt]

theorem toNat_cyclesToMs {f : UInt64} (hf : 0 < f.toNat) (c : UInt64) :
    (cyclesToMs f c).toNat = 1000 * c.toNat % 2 ^ 64 / f.toNat := by
  have hne : f ≠ 0 := fun hzero => absurd hf (by rw [hzero]; decide)
  rw [cyclesToMs, if_neg hne, UInt64.toNat_div, UInt64.toNat_mul, mul_comm]
  rfl

theorem toNat_msToCycles (f m : UInt64) :
    (msToCycles f m).toNat = m.toNat * f.toNat % 2 ^ 64 / 1000 := by
  rw [msToCycles, UInt64.toNat_div, UInt64.toNat_mul]
  rfl

theorem cyclesToMs_exact_iff {f : UInt64} (hf : 0 < f.toNat) (c : UInt64) :
    (cyclesToMs f c).toNat = 1000 * c.toNat / f.toNat ↔ 1000 * c.toNat < 2 ^ 64 := by
  rw [toNat_cyclesToMs hf]
  exact mod_div_eq_iff hf f.toNat_lt.le

theorem msToCycles_exact_iff (f m : UInt64) :
    (msToCycles f m).toNat = m.toNat * f.toNat / 1000 ↔ m.toNat * f.toNat < 2 ^ 64 := by
  rw [toNat_msToCycles]
  exact mod_div_eq_iff (by decide) (by decide)

/-- Two floors lose at most one millisecond. -/
theorem floor_floor {m f : ℕ} (hf : 1000 ≤ f) :
    1000 * (m * f / 1000) / f = m ∨ 1000 * (m * f / 1000) / f = m - 1 := by
  have hpos : 0 < f := by omega
  have hcut := Nat.div_add_mod (m * f) 1000
  have hmod := Nat.mod_lt (m * f) (show 1000 > 0 by decide)
  have hle : 1000 * (m * f / 1000) / f ≤ m := by
    apply Nat.div_le_of_le_mul
    rw [mul_comm f m]
    omega
  have hge : m - 1 ≤ 1000 * (m * f / 1000) / f := by
    rw [Nat.le_div_iff_mul_le hpos, Nat.sub_mul]
    omega
  omega

/-- What a caller expects of the two conversions at frequency `f`. -/
structure Agrees (f c₁ c₂ m : UInt64) : Prop where
  floor₁ : (cyclesToMs f c₁).toNat = 1000 * c₁.toNat / f.toNat
  floor₂ : (cyclesToMs f c₂).toNat = 1000 * c₂.toNat / f.toNat
  mono : c₁ ≤ c₂ → cyclesToMs f c₁ ≤ cyclesToMs f c₂
  cycles : m.toNat * f.toNat / 1000 < 2 ^ 64 →
    (msToCycles f m).toNat = m.toNat * f.toNat / 1000 ∧
      ((cyclesToMs f (msToCycles f m)).toNat = m.toNat ∨
        (cyclesToMs f (msToCycles f m)).toNat = m.toNat - 1)

/-- The conversions are right exactly when no product leaves 64 bits. -/
theorem agrees_iff {f : UInt64} (hf : 1000 ≤ f.toNat) (c₁ c₂ m : UInt64) :
    Agrees f c₁ c₂ m ↔ 1000 * c₁.toNat < 2 ^ 64 ∧ 1000 * c₂.toNat < 2 ^ 64 ∧
      (m.toNat * f.toNat / 1000 < 2 ^ 64 → m.toNat * f.toNat < 2 ^ 64) := by
  have hpos : 0 < f.toNat := by omega
  constructor
  · intro h
    refine ⟨(cyclesToMs_exact_iff hpos c₁).mp h.floor₁, (cyclesToMs_exact_iff hpos c₂).mp h.floor₂, ?_⟩
    intro hfits
    exact (msToCycles_exact_iff f m).mp (h.cycles hfits).1
  · rintro ⟨h₁, h₂, hm⟩
    have hfloor₁ := (cyclesToMs_exact_iff hpos c₁).mpr h₁
    have hfloor₂ := (cyclesToMs_exact_iff hpos c₂).mpr h₂
    refine ⟨hfloor₁, hfloor₂, ?_, ?_⟩
    · intro hle
      rw [UInt64.le_iff_toNat_le, hfloor₁, hfloor₂]
      exact Nat.div_le_div_right (Nat.mul_le_mul_left 1000 (UInt64.le_iff_toNat_le.mp hle))
    · intro hfits
      have hcycles := (msToCycles_exact_iff f m).mpr (hm hfits)
      refine ⟨hcycles, ?_⟩
      -- the product of the way back is at most the product of the way there
      have hback : 1000 * (msToCycles f m).toNat < 2 ^ 64 := by
        rw [hcycles]
        have hless := Nat.mul_div_le (m.toNat * f.toNat) 1000
        have := hm hfits
        omega
      rw [(cyclesToMs_exact_iff hpos _).mpr hback, hcycles]
      exact floor_floor hf

theorem agrees_at_3GHz : Agrees 3000000000 3000000000 9000000000 1500 :=
  (agrees_iff (by decide) _ _ _).mpr (by decide)

/-- At 3 GHz the product overflows after 71 days. -/
theorem cyclesToMs_overflows : ¬Agrees 3000000000 18446744073709551 18446744073709552 0 := by
  intro h
  exact absurd h.floor₂ (by decide)

end MathUnikernel.Lib
