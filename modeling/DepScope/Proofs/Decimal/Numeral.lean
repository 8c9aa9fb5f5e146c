import Mathlib
import DepScope.Decimal.Read
import DepScope.Proofs.Decimal.Fewest
import DepScope.Proofs.Json.Number
import DepScope.Proofs.Text.Cutting

/-!
# DepScope.Proofs.Decimal.Numeral

Decimal texts and what they are worth.

1. Digits, a point with more digits and a power of ten are read as these three parts
   (`readNumeral?_append`).
2. A numeral is worth the number before its point, plus the fraction after it, times the power of
   ten (`Numeral.value`). This is the number that its digits make up together, shifted (`value_eq`).
3. A numeral whose value lies in the interval of a double is read as this double
   (`toBinary_of_contains`): the sizes at which reading stops early are out of reach.
-/

namespace DepScope.Decimal

open Text
open Json (IsDigits isDigits_toDigits takeWhile_digits)

variable {u acc p : Nat} {e : Int} {negative : Bool} {ds whole fraction rest : List Char} {c : Char}

/-! ## Digits -/

theorem digitIn?_of_isAsciiDigit (h : isAsciiDigit c = true) :
    digitIn? 10 c = some (c.toNat - '0'.toNat) := by
  have hrange : c.toNat ≤ '9'.toNat := by
    simp only [isAsciiDigit, Bool.and_eq_true, decide_eq_true_eq] at h
    exact h.2
  have hlt : c.toNat - 48 < 10 := by
    have h9 : '9'.toNat = 57 := rfl
    omega
  rw [digitIn?, digitValue?, if_pos h]
  exact Option.filter_some_pos (decide_eq_true hlt)

theorem readDigits_of_digits (h : ∀ c ∈ ds, isAsciiDigit c = true) :
    readDigits 10 acc ds = some (Nat.ofDigitChars 10 ds acc) := by
  induction ds generalizing acc with
  | nil => rfl
  | cons c ds ih =>
    obtain ⟨hc, hds⟩ := List.forall_mem_cons.mp h
    rw [readDigits, digitIn?_of_isAsciiDigit hc, Option.bind_some, ih hds, Nat.ofDigitChars_cons,
      Nat.mul_comm]

theorem natIn?_of_digits (h : IsDigits ds) : natIn? 10 ds = some (Nat.ofDigitChars 10 ds 0) := by
  rw [natIn?]
  · exact readDigits_of_digits h.digit
  · exact h.ne_nil

/-! ## The parts of a text -/

/-- The mark of an exponent, its sign and its digits. -/
def exponentText (e : Int) : List Char :=
  'e' :: (if e < 0 then '-' else '+') :: decimalDigits e.natAbs

theorem readExponent?_eq (e : Int) :
    readExponent? ((if e < 0 then '-' else '+') :: decimalDigits e.natAbs) = some e := by
  have hread : natIn? 10 (decimalDigits e.natAbs) = some e.natAbs := by
    rw [decimalDigits, natIn?_of_digits (isDigits_toDigits _), Nat.ofDigitChars_ten_toDigits]
  split
  · have hvalue : -(e.natAbs : Int) = e := by omega
    simp only [readExponent?, splitSign, hread]
    exact congrArg some hvalue
  · have hvalue : (e.natAbs : Int) = e := by omega
    simp only [readExponent?, splitSign, hread]
    exact congrArg some hvalue

/-- What stands behind the digits: nothing, or an exponent. -/
inductive Power : List Char → Int → Prop
  | none : Power [] 0
  | mark (e : Int) : Power (exponentText e) e

theorem Power.not_digit {power : List Char} (h : Power power e) :
    ∀ c ∈ power.head?, isAsciiDigit c = false := by
  cases h with
  | none => exact nofun
  | mark e =>
    rintro c ⟨⟩
    decide

theorem spanWhile_digits (hds : ∀ c ∈ ds, isAsciiDigit c = true)
    (hrest : ∀ c ∈ rest.head?, isAsciiDigit c = false) :
    spanWhile isAsciiDigit (ds ++ rest) = (ds, rest) := by
  rw [spanWhile, ← drop_takeWhile, takeWhile_digits hds hrest, List.drop_left]

/-- **The parts of a decimal text are read.** -/
theorem readNumeral?_append {power : List Char} (hw : IsDigits whole)
    (hf : ∀ c ∈ fraction, isAsciiDigit c = true) (hp : Power power e) :
    readNumeral? (whole ++ '.' :: (fraction ++ power)) = some ⟨whole, fraction, e⟩ := by
  have hspan : spanWhile isAsciiDigit (whole ++ '.' :: (fraction ++ power)) =
      (whole, '.' :: (fraction ++ power)) := by
    refine spanWhile_digits hw.digit ?_
    rintro c ⟨⟩
    decide
  simp only [readNumeral?, hspan, spanWhile_digits hf hp.not_digit, List.isEmpty_eq_false_iff.mpr
    hw.ne_nil, Bool.false_and, Bool.false_eq_true, if_false]
  cases hp with
  | none => rfl
  | mark e => simp [exponentText, readExponent?_eq]

/-- The same without a point. -/
theorem readNumeral?_whole {power : List Char} (hw : IsDigits whole) (hp : Power power e) :
    readNumeral? (whole ++ power) = some ⟨whole, [], e⟩ := by
  simp only [readNumeral?, spanWhile_digits hw.digit hp.not_digit]
  cases hp with
  | none => simp [hw.ne_nil]
  | mark e => simp [exponentText, readExponent?_eq, hw.ne_nil]

/-! ## Values -/

/-- The value of a decimal text: the number before the point and the fraction after it, times the
power of ten. -/
def Numeral.value (n : Numeral) : ℚ :=
  (Nat.ofDigitChars 10 n.whole 0 +
    Nat.ofDigitChars 10 n.fraction 0 / 10 ^ (n.fraction.length : Int)) * 10 ^ n.exponent

/-- The digits of a numeral as one decimal. -/
def Numeral.digits (n : Numeral) : Digits :=
  ⟨Nat.ofDigitChars 10 (n.whole ++ n.fraction) 0, n.exponent - n.fraction.length⟩

/-- The digits together make up one number, shifted by the digits after the point. -/
theorem Numeral.value_eq (n : Numeral) : n.value = n.digits.value := by
  have hne : (10 : ℚ) ^ (n.fraction.length : Int) ≠ 0 := (ten_pos _).ne'
  have happend : Nat.ofDigitChars 10 (n.whole ++ n.fraction) 0 =
      10 ^ n.fraction.length * Nat.ofDigitChars 10 n.whole 0 +
        Nat.ofDigitChars 10 n.fraction 0 := by
    rw [Nat.ofDigitChars_append]
    exact Nat.ofDigitChars_eq_ofDigitChars_zero
  rw [Numeral.value, Digits.value, Numeral.digits, happend, Nat.cast_add, Nat.cast_mul,
    natCast_ten_pow, sub_eq_neg_add, ten_add, zpow_neg]
  field_simp

/-! ## Reading a value -/

theorem IsDouble.lt_unitBound (hu : IsDouble u) : u < unitBound := by
  obtain ⟨m, low, h, rfl⟩ := hu
  have hbits : unitBits = 1074 := rfl
  have hle := h.le
  calc m * 2 ^ low < 2 ^ 53 * 2 ^ low := Nat.mul_lt_mul_of_pos_right h.lt (Nat.two_pow_pos low)
    _ = 2 ^ (53 + low) := (Nat.pow_add 2 53 low).symm
    _ ≤ unitBound := Nat.pow_le_pow_right (by decide) (by omega)

theorem unitBound_le : 6 * unitBound ≤ 10 ^ 400 * 2 ^ (unitBits + 2) := by decide +kernel

theorem pow_quarters_le : 2 ^ (unitBits + 2) ≤ 10 ^ 400 := by decide +kernel

/-- What is rounded to a double is far from the sizes at which reading stops early. -/
theorem Interval.Contains.range (hu : IsDouble u) (hpos : 0 < u) {v : ℚ}
    (hin : (Interval.ofUnits u).Contains v) :
    1 ≤ v * (10 ^ 400 : Nat) ∧ v < (10 ^ 400 : Nat) := by
  obtain ⟨hlow, hhigh⟩ := hin.le
  have hscale : (0 : ℚ) < (2 ^ (unitBits + 2) : Nat) := Nat.cast_pos.mpr (Nat.two_pow_pos _)
  have hone : (1 : ℚ) ≤ (Interval.ofUnits u).low := Nat.one_le_cast.mpr (Interval.low_pos hpos)
  have hsix : (Interval.ofUnits u).high < 10 ^ 400 * 2 ^ (unitBits + 2) := by
    have hstep := pow_spacing_le hpos
    have hlt := hu.lt_unitBound
    refine Nat.lt_of_lt_of_le ?_ unitBound_le
    simp only [Interval.ofUnits]
    omega
  have hv : 0 ≤ v := by
    by_contra hneg
    have := mul_neg_of_neg_of_pos (not_le.mp hneg) hscale
    linarith
  constructor
  · calc (1 : ℚ) ≤ v * (2 ^ (unitBits + 2) : Nat) := hone.trans hlow
      _ ≤ v * (10 ^ 400 : Nat) := mul_le_mul_of_nonneg_left (Nat.cast_le.mpr pow_quarters_le) hv
  · refine lt_of_mul_lt_mul_right ?_ hscale.le
    rw [← Nat.cast_mul]
    exact hhigh.trans_lt (Nat.cast_lt.mpr hsix)

/-- The place of a decimal's first digit. -/
theorem Digits.value_bounds (d : Digits) (h : 0 < d.digits) :
    (10 : ℚ) ^ d.leading ≤ d.value ∧ d.value < 10 ^ (d.leading + 1) := by
  have hlen : 0 < d.chars.length := List.length_pos_iff.mpr Nat.toDigits_ne_nil
  have hlow : 10 ^ (d.chars.length - 1) ≤ d.digits := pow_length_le h
  have hhigh : d.digits < 10 ^ d.chars.length := lt_pow_length d.digits
  have hten := ten_pos d.exponent
  have hlead : d.leading = (d.chars.length - 1 : Nat) + d.exponent := by
    rw [Digits.leading]
    omega
  have hlead' : d.leading + 1 = d.chars.length + d.exponent := by
    rw [Digits.leading]
    omega
  constructor
  · rw [hlead, ten_add, ← natCast_ten_pow, Digits.value]
    exact mul_le_mul_of_nonneg_right (Nat.cast_le.mpr hlow) hten.le
  · rw [hlead', ten_add, ← natCast_ten_pow, Digits.value]
    exact mul_lt_mul_of_pos_right (Nat.cast_lt.mpr hhigh) hten

/-- Numerals that are neither zero nor far out of range are rounded. -/
theorem toBinary_of_range {n : Numeral}
    (hdigit : ∀ c ∈ n.whole ++ n.fraction, isAsciiDigit c = true)
    (hlow : 1 ≤ n.digits.value * (10 ^ 400 : Nat)) (hhigh : n.digits.value < (10 ^ 400 : Nat))
    (hreads : n.digits.ReadsAs u) : n.toBinary negative = .finite negative u := by
  have hpos : 0 < n.digits.digits := by
    refine Nat.pos_of_ne_zero fun h0 => ?_
    rw [Digits.value, h0, Nat.cast_zero, zero_mul, zero_mul] at hlow
    exact absurd hlow (by norm_num)
  obtain ⟨hfrom, hto⟩ := n.digits.value_bounds hpos
  have htop : ¬ 400 < n.digits.leading + 1 := by
    intro hlt
    have hle : (10 : ℚ) ^ ((400 : Nat) : Int) ≤ 10 ^ n.digits.leading := ten_le (by omega)
    rw [← natCast_ten_pow] at hle
    exact absurd (hle.trans hfrom) (not_le.mpr hhigh)
  have hbottom : ¬ n.digits.leading + 1 < -400 := by
    intro hlt
    have hle : (10 : ℚ) ^ (n.digits.leading + 1) ≤ 10 ^ (-((400 : Nat) : Int)) := ten_le (by omega)
    have hless := mul_lt_mul_of_pos_right (hto.trans_le hle) (ten_pos (400 : Nat))
    rw [← ten_add, neg_add_cancel, zpow_zero, ← natCast_ten_pow] at hless
    exact absurd hlow (not_le.mpr hless)
  have hread : (readDigits 10 0 (n.whole ++ n.fraction)).getD 0 = n.digits.digits := by
    rw [readDigits_of_digits hdigit]
    rfl
  have hlead : n.exponent - n.fraction.length + (Nat.toDigits 10 n.digits.digits).length =
      n.digits.leading + 1 := (sub_add_cancel _ _).symm
  rw [Digits.ReadsAs] at hreads
  simp only [Numeral.toBinary, hread, hlead]
  rw [if_neg hpos.ne', if_neg htop, if_neg hbottom, Binary.ofRatio, Binary.ofRatio]
  split
  · next hscale =>
    have hscale : 0 ≤ n.digits.exponent := hscale
    have hden : tenTo (-n.digits.exponent) = 1 := by
      rw [tenTo, Int.toNat_of_nonpos (by omega), Nat.pow_zero]
    rw [hden] at hreads
    exact congrArg _ hreads
  · next hscale =>
    have hscale : ¬ 0 ≤ n.digits.exponent := hscale
    have hnum : tenTo n.digits.exponent = 1 := by
      rw [tenTo, Int.toNat_of_nonpos (by omega), Nat.pow_zero]
    rw [hnum, Nat.mul_one] at hreads
    exact congrArg _ hreads

/-- **A numeral in the interval of a double is read as this double.** -/
theorem toBinary_of_contains {n : Numeral} (hu : IsDouble u) (hpos : 0 < u)
    (hdigit : ∀ c ∈ n.whole ++ n.fraction, isAsciiDigit c = true)
    (hin : (Interval.ofUnits u).Contains n.value) : n.toBinary negative = .finite negative u := by
  rw [Numeral.value_eq] at hin
  obtain ⟨hlow, hhigh⟩ := hin.range hu hpos
  exact toBinary_of_range hdigit hlow hhigh ((readsAs_iff_contains hu hpos n.digits).mpr hin)

end DepScope.Decimal
