import MathUnikernel.Display
import MathUnikernel.Library.Numerals

/-!
# Printed numbers

`fb_print_dec` and `fb_print_hex` call `fb_putchar` for the characters of a numeral.
-/

namespace MathUnikernel.Display
open Numerals

/-- `d + '0'`. -/
def decChar (d : ℕ) : UInt8 := UInt8.ofNat (d + 48)

def decValue (c : UInt8) : Option ℕ :=
  if 48 ≤ c.toNat ∧ c.toNat ≤ 57 then some (c.toNat - 48) else none

def hexChar (d : ℕ) : UInt8 := hexChars.getD d 0

def hexValue (c : UInt8) : Option ℕ :=
  if 48 ≤ c.toNat ∧ c.toNat ≤ 57 then some (c.toNat - 48)
  else if 65 ≤ c.toNat ∧ c.toNat ≤ 70 then some (c.toNat - 55)
  else none

/-- The characters of `fb_print_dec`. -/
def decimal (val : UInt64) : List UInt8 :=
  if val = 0 then [48] else ((Nat.digits 10 val.toNat).map decChar).reverse

/-- The digits of `fb_print_hex`. -/
def hexDigits (val : UInt64) : List UInt8 :=
  (((List.range 16).map fun i => val.toNat / 16 ^ i % 16).map hexChar).reverse

/-- The characters of `fb_print_hex`. -/
def hexadecimal (val : UInt64) : List UInt8 := [0x30, 0x78] ++ hexDigits val

/-! ## Decimal -/

theorem decValue_decChar {d : ℕ} (hd : d < 10) : decValue (decChar d) = some d := by
  have hnat : (decChar d).toNat = d + 48 := by
    rw [decChar, UInt8.toNat_ofNat']
    omega
  rw [decValue, hnat, if_pos (by omega), Nat.add_sub_cancel]

theorem digits_pos {val : UInt64} (h : 0 < val.toNat) :
    Nat.digits 10 val.toNat = val.toNat % 10 :: Nat.digits 10 (val / 10).toNat := by
  rw [Nat.digits_def' (by decide) h, UInt64.toNat_div]
  rfl

theorem lastChar_eq (val : UInt64) : (val % 10 + 48).toUInt8 = decChar (val.toNat % 10) := by
  apply UInt8.toNat_inj.mp
  rw [decChar, UInt64.toNat_toUInt8, UInt64.toNat_add, UInt64.toNat_mod, UInt8.toNat_ofNat']
  change (val.toNat % 10 + 48) % 2 ^ 64 % 2 ^ 8 = (val.toNat % 10 + 48) % 2 ^ 8
  omega

/-- The buffer from `i` on holds the digits, the last one first, and nothing else has changed. -/
theorem fillDigits_spec (val : UInt64) (i : ℕ) (buffer : ℕ → UInt8) :
    (fillDigits val i buffer).1 = i + (Nat.digits 10 val.toNat).length ∧
      (∀ k (hk : k < (Nat.digits 10 val.toNat).length),
        (fillDigits val i buffer).2 (i + k) = decChar (Nat.digits 10 val.toNat)[k]) ∧
      ∀ j, j < i ∨ i + (Nat.digits 10 val.toNat).length ≤ j →
        (fillDigits val i buffer).2 j = buffer j := by
  fun_induction fillDigits val i buffer with
  | case1 val i buffer hpos ih =>
    have hpos' : 0 < val.toNat := UInt64.lt_iff_toNat_lt.mp hpos
    obtain ⟨hlen, hdigit, hkeep⟩ := ih
    simp only [digits_pos hpos', List.length_cons]
    refine ⟨by rw [hlen]; omega, ?_, ?_⟩
    · intro k hk
      cases k with
      | zero =>
        rw [hkeep _ (by omega), Nat.add_zero, Function.update_self, lastChar_eq]
        rfl
      | succ k =>
        rw [show i + (k + 1) = i + 1 + k by omega, hdigit k (by omega)]
        rfl
    · intro j hj
      rw [hkeep j (by omega)]
      exact Function.update_of_ne (by omega) _ _
  | case2 val i buffer hpos =>
    have hzero : val.toNat = 0 := by
      rw [UInt64.lt_iff_toNat_lt] at hpos
      exact Nat.eq_zero_of_not_pos hpos
    rw [hzero]
    exact ⟨rfl, fun k hk => absurd hk (Nat.not_lt_zero k), fun j _ => rfl⟩

theorem length_digits_le (val : UInt64) : (Nat.digits 10 val.toNat).length ≤ 20 := by
  rw [Nat.digits_length_le_iff (by decide)]
  exact val.toNat_lt.trans (by norm_num)

theorem fbPrintDec_eq (font : Font) (buffer : ℕ → UInt8) (val : UInt64) (t : Terminal) :
    fbPrintDec font buffer val t = putchars font (decimal val) t := by
  unfold fbPrintDec decimal
  by_cases hzero : val = 0
  · rw [if_pos hzero, if_pos hzero]
    rfl
  · obtain ⟨hlen, hdigit, -⟩ := fillDigits_spec val 0 buffer
    rw [if_neg hzero, if_neg hzero]
    dsimp only
    rw [replay_eq, hlen]
    congr 2
    apply List.ext_getElem
    · simp
    · intro k hk hk'
      have hk'' : k < (Nat.digits 10 val.toNat).length := by simpa using hk'
      have hchar := hdigit k hk''
      rw [Nat.zero_add] at hchar
      simpa using hchar

/-- A decimal numeral without superfluous digits. -/
structure IsDecimal (val : UInt64) (str : List UInt8) : Prop where
  value : parse 10 decValue str = some val.toNat
  nonempty : str ≠ []
  leading : val ≠ 0 → str.head? ≠ some 48
  zero : val = 0 → str = [48]
  short : str.length ≤ 20

theorem isDecimal_decimal (val : UInt64) : IsDecimal val (decimal val) := by
  unfold decimal
  by_cases hzero : val = 0
  · rw [if_pos hzero, hzero]
    exact ⟨by decide, by decide, fun h => absurd rfl h, fun _ => rfl, by decide⟩
  · have hnat : val.toNat ≠ 0 := fun h => hzero (UInt64.toNat_inj.mp h)
    have hne : Nat.digits 10 val.toNat ≠ [] := Nat.digits_ne_nil_iff_ne_zero.mpr hnat
    rw [if_neg hzero]
    refine ⟨?_, ?_, ?_, fun h => absurd h hzero, ?_⟩
    · rw [parse_reverse_map fun d hd => decValue_decChar (Nat.digits_lt_base (by decide) hd),
        Nat.ofDigits_digits]
    · simpa using hne
    · -- the first character is the highest digit, which is not 0
      intro _ hhead
      rw [List.head?_reverse, List.getLast?_map, List.getLast?_eq_getLast_of_ne_nil hne,
        Option.map_some, Option.some.injEq] at hhead
      have hlast := Nat.getLast_digit_ne_zero 10 hnat
      have hlt := Nat.digits_lt_base (by decide) (List.getLast_mem hne)
      have hvalue := decValue_decChar hlt
      rw [hhead] at hvalue
      exact hlast (Option.some.inj hvalue).symm
    · rw [List.length_reverse, List.length_map]
      exact length_digits_le val

/-! ## Hexadecimal -/

theorem hexValue_hexChar {d : ℕ} (hd : d < 16) : hexValue (hexChar d) = some d := by
  interval_cases d <;> decide

theorem toNat_nibble (val : UInt64) {i : ℕ} (hi : i < 16) :
    (nibble val i).toNat = val.toNat / 16 ^ i % 16 := by
  have hshift : (UInt64.ofNat (i * 4)).toNat % 64 = i * 4 := by
    rw [UInt64.toNat_ofNat']
    omega
  have hmask : (0xf : UInt64).toNat = 2 ^ 4 - 1 := rfl
  rw [nibble, UInt64.toNat_toUInt8, UInt64.toNat_and, UInt64.toNat_shiftRight, hshift, hmask,
    Nat.and_two_pow_sub_one_eq_mod, Nat.shiftRight_eq_div_pow, Nat.mul_comm i 4, Nat.pow_mul]
  change val.toNat / 16 ^ i % 16 % 2 ^ 8 = _
  omega

theorem fbPrintHex_eq (font : Font) (val : UInt64) (t : Terminal) :
    fbPrintHex font val t = putchars font (hexadecimal val) t := by
  have hdigits : hexDigits val =
      (List.range 16).reverse.map fun i => hexChars.getD (nibble val i).toNat 0 := by
    rw [hexDigits, List.map_map, ← List.map_reverse]
    apply List.map_congr_left
    intro i hi
    rw [toNat_nibble val (List.mem_range.mp (List.mem_reverse.mp hi))]
    rfl
  rw [hexadecimal, putchars_append, hdigits, putchars, List.foldl_map]
  rfl

theorem parse_hexDigits (val : UInt64) : parse 16 hexValue (hexDigits val) = some val.toNat := by
  rw [hexDigits, parse_reverse_map, ofDigits_range, Nat.mod_eq_of_lt]
  · exact val.toNat_lt
  · intro d hd
    obtain ⟨i, -, rfl⟩ := List.mem_map.mp hd
    exact hexValue_hexChar (Nat.mod_lt _ (by decide))

/-- Both functions print the number they are given: the decimal numeral is canonical and its digits
fit the buffer, the hexadecimal one has sixteen digits, and both can be read back. -/
theorem printed_numbers :
    (∀ val, IsDecimal val (decimal val) ∧
      (∀ font buffer t, fbPrintDec font buffer val t = putchars font (decimal val) t) ∧
      ∀ buffer, (fillDigits val 0 buffer).1 ≤ 20 ∧
        ∀ j ≥ 20, (fillDigits val 0 buffer).2 j = buffer j) ∧
    (∀ val, (∀ font t, fbPrintHex font val t = putchars font ([0x30, 0x78] ++ hexDigits val) t) ∧
      (hexDigits val).length = 16 ∧ parse 16 hexValue (hexDigits val) = some val.toNat) ∧
    Function.Injective decimal ∧ Function.Injective hexadecimal := by
  refine ⟨?_, ?_, ?_, ?_⟩
  · intro val
    refine ⟨isDecimal_decimal val, fun font buffer t => fbPrintDec_eq font buffer val t, ?_⟩
    intro buffer
    obtain ⟨hlen, -, hkeep⟩ := fillDigits_spec val 0 buffer
    have hshort := length_digits_le val
    exact ⟨by omega, fun j hj => hkeep j (by omega)⟩
  · intro val
    exact ⟨fun font t => fbPrintHex_eq font val t, by simp [hexDigits], parse_hexDigits val⟩
  · intro val val' heq
    have hvalue := (isDecimal_decimal val).value
    rw [heq, (isDecimal_decimal val').value] at hvalue
    exact (UInt64.toNat_inj.mp (Option.some.inj hvalue)).symm
  · intro val val' heq
    have hvalue := parse_hexDigits val
    rw [List.append_cancel_left heq, parse_hexDigits val'] at hvalue
    exact (UInt64.toNat_inj.mp (Option.some.inj hvalue)).symm

end MathUnikernel.Display
