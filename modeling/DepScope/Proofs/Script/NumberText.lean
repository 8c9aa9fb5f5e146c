import Mathlib
import DepScope.Proofs.Decimal.Float
import DepScope.Proofs.Decimal.Numeral
import DepScope.Proofs.Text.Digits
import DepScope.Script.Number

/-!
# DepScope.Proofs.Script.NumberText

The text of a number is its shortest digits, laid out as the script language prescribes, and it
stands for exactly this number.

1. The language has five layouts, by the number of digits and the place of the first one (`Layout`);
   they cover all cases, and the printer takes the right one (`layout_pointAt`).
2. In each layout the digits are read back with the same value (`Layout.reads`).
3. No layout looks like something else than a decimal number, so the conversion reads it as one
   (`numberOfText_decimal`).
4. The digits are in the interval of the number, so it comes back (`numberText_exact`).
-/

namespace DepScope.Script

open Text Decimal
open Json (IsDigits isDigits_toDigits isDigits_replicate isDigits_singleton isDigits_zero)

variable {ds text body : List Char} {c : Char} {n : Int} {x y : Float} {negative : Bool}
  {units : Nat} {m : Numeral}

/-! ## Layouts -/

/-- How digits are laid out when the point belongs behind the first `n` of them. -/
inductive Layout (ds : List Char) (n : Int) : List Char → Prop
  /-- All digits stand before the point, filled up with zeros. -/
  | integer (zeros : Nat) : n = ds.length + zeros → n ≤ 21 →
      Layout ds n (ds ++ List.replicate zeros '0')
  /-- The point stands between two digits. -/
  | point (front back : List Char) : ds = front ++ back → front ≠ [] → back ≠ [] →
      n = front.length → n ≤ 21 → Layout ds n (front ++ '.' :: back)
  /-- All digits stand after the point, behind zeros. -/
  | fraction (zeros : Nat) : n = -zeros → -6 < n →
      Layout ds n ('0' :: '.' :: (List.replicate zeros '0' ++ ds))
  /-- One digit and an exponent. -/
  | digit (c : Char) : ds = [c] → n ≤ -6 ∨ 21 < n → Layout ds n (c :: exponentText (n - 1))
  /-- The first digit, the others after the point, and an exponent. -/
  | digits (c : Char) (rest : List Char) : ds = c :: rest → rest ≠ [] → n ≤ -6 ∨ 21 < n →
      Layout ds n (c :: '.' :: (rest ++ exponentText (n - 1)))

theorem layout_pointAt (h : ds ≠ []) (n : Int) : Layout ds n (pointAt ds n) := by
  have hlen : 0 < ds.length := List.length_pos_iff.mpr h
  simp only [pointAt]
  split
  · exact .integer _ (by omega) (by omega)
  · split
    · refine .point _ _ (List.take_append_drop n.toNat ds).symm ?_ ?_ ?_ (by omega)
      · rw [← List.length_pos_iff, List.length_take]
        omega
      · rw [← List.length_pos_iff, List.length_drop]
        omega
      · rw [List.length_take]
        omega
    · split
      · exact .fraction _ (by omega) (by omega)
      · have hrange : n ≤ -6 ∨ 21 < n := by omega
        match ds, h with
        | [c], _ => exact .digit c rfl hrange
        | c :: d :: rest, _ => exact .digits c (d :: rest) rfl (List.cons_ne_nil d rest) hrange

example : pointAt ['1', '5'] (-5) = ['0', '.', '0', '0', '0', '0', '0', '1', '5'] := by decide

example : pointAt ['1', '5'] (-6) = ['1', '.', '5', 'e', '-', '7'] := by decide

/-! ## Reading a layout -/

/-- The characters of decimal texts. -/
def IsMark (c : Char) : Prop :=
  isAsciiDigit c = true ∨ c = '.' ∨ c = 'e' ∨ c = '+' ∨ c = '-'

theorem isMark_exponentText (e : Int) : ∀ c ∈ exponentText e, IsMark c := by
  intro c hc
  rw [exponentText, List.mem_cons, List.mem_cons] at hc
  obtain rfl | hc | hc := hc
  · exact .inr (.inr (.inl rfl))
  · split at hc <;> simp [IsMark, hc]
  · exact .inl ((isDigits_toDigits e.natAbs).digit c hc)

/-- A layout starts with a digit. -/
theorem Layout.exists_cons (h : Layout ds n text) (hds : IsDigits ds) :
    ∃ c rest, text = c :: rest ∧ isAsciiDigit c = true := by
  have hfirst {front : List Char} (hf : IsDigits front) (rest : List Char) :
      ∃ c more, front ++ rest = c :: more ∧ isAsciiDigit c = true := by
    obtain ⟨c, more, rfl⟩ := List.exists_cons_of_ne_nil hf.ne_nil
    exact ⟨c, more ++ rest, rfl, hf.digit c List.mem_cons_self⟩
  cases h with
  | integer zeros hn hmax => exact hfirst hds _
  | point front back hsplit hfront hback hn hmax =>
    refine hfirst ⟨hfront, fun c hc => hds.digit c ?_⟩ _
    rw [hsplit]
    exact List.mem_append_left back hc
  | fraction zeros hn hmin => exact ⟨'0', _, rfl, by decide⟩
  | digit c hc hn => exact ⟨c, _, rfl, hds.digit c (by simp [hc])⟩
  | digits c rest hc hrest hn => exact ⟨c, _, rfl, hds.digit c (by simp [hc])⟩

/-- A layout has only marks in it. -/
theorem Layout.marks (h : Layout ds n text) (hds : ∀ c ∈ ds, isAsciiDigit c = true) :
    ∀ c ∈ text, IsMark c := by
  have hzero (zeros : Nat) : ∀ c ∈ List.replicate zeros '0', IsMark c := fun c hc =>
    .inl (isDigits_replicate zeros c hc)
  have hpower := isMark_exponentText (n - 1)
  have hdot : IsMark '.' := .inr (.inl rfl)
  have hmark : ∀ c ∈ ds, IsMark c := fun c hc => .inl (hds c hc)
  cases h with
  | integer zeros hn hmax => exact List.forall_mem_append.mpr ⟨hmark, hzero zeros⟩
  | point front back hsplit hfront hback hn hmax =>
    rw [hsplit, List.forall_mem_append] at hmark
    exact List.forall_mem_append.mpr ⟨hmark.1, List.forall_mem_cons.mpr ⟨hdot, hmark.2⟩⟩
  | fraction zeros hn hmin =>
    have hrest := List.forall_mem_append.mpr ⟨hzero zeros, hmark⟩
    exact List.forall_mem_cons.mpr ⟨.inl (by decide), List.forall_mem_cons.mpr ⟨hdot, hrest⟩⟩
  | digit c hc hn =>
    rw [hc, List.forall_mem_singleton] at hmark
    exact List.forall_mem_cons.mpr ⟨hmark, hpower⟩
  | digits c rest hc hrest hn =>
    rw [hc, List.forall_mem_cons] at hmark
    have hback := List.forall_mem_append.mpr ⟨hmark.2, hpower⟩
    exact List.forall_mem_cons.mpr ⟨hmark.1, List.forall_mem_cons.mpr ⟨hdot, hback⟩⟩

theorem value_mk (whole fraction : List Char) (e : Int) :
    (Numeral.mk whole fraction e).value =
      Nat.ofDigitChars 10 (whole ++ fraction) 0 * 10 ^ (e - fraction.length) :=
  Numeral.value_eq _

/-- **A layout is read back with the value of its digits.** -/
theorem Layout.reads (h : Layout ds n text) (hds : IsDigits ds) :
    ∃ m, readNumeral? text = some m ∧ (∀ c ∈ m.whole ++ m.fraction, isAsciiDigit c = true) ∧
      m.value = Nat.ofDigitChars 10 ds 0 * 10 ^ (n - ds.length) := by
  cases h with
  | integer zeros hn hmax =>
    have hdigits : IsDigits (ds ++ List.replicate zeros '0') :=
      hds.append (isDigits_replicate zeros)
    have hread := readNumeral?_whole hdigits .none
    rw [List.append_nil] at hread
    refine ⟨_, hread, by simpa using hdigits.digit, ?_⟩
    rw [value_mk, List.append_nil, Nat.ofDigitChars_append, Nat.ofDigitChars_replicate_zero,
      Nat.cast_mul, natCast_ten_pow, hn, add_sub_cancel_left, List.length_nil, Nat.cast_zero,
      sub_zero, zpow_zero, mul_one, mul_comm]
  | point front back hsplit hfront hback hn hmax =>
    have hw : IsDigits front := ⟨hfront, fun c hc => hds.digit c (by simp [hsplit, hc])⟩
    have hf : ∀ c ∈ back, isAsciiDigit c = true := fun c hc => hds.digit c (by simp [hsplit, hc])
    have hread := readNumeral?_append hw hf .none
    rw [List.append_nil] at hread
    have hexp : 0 - (back.length : Int) = n - ds.length := by
      rw [hsplit, List.length_append]
      omega
    exact ⟨_, hread, hsplit ▸ hds.digit, by rw [value_mk, ← hsplit, hexp]⟩
  | fraction zeros hn hmin =>
    have hf : ∀ c ∈ List.replicate zeros '0' ++ ds, isAsciiDigit c = true :=
      List.forall_mem_append.mpr ⟨isDigits_replicate zeros, hds.digit⟩
    have hread := readNumeral?_append isDigits_zero hf .none
    rw [List.append_nil] at hread
    have hexp : 0 - ((List.replicate zeros '0' ++ ds).length : Int) = n - ds.length := by
      rw [List.length_append, List.length_replicate]
      omega
    have hzero : Nat.ofDigitChars 10 ['0'] 0 = 0 := rfl
    refine ⟨_, hread, List.forall_mem_cons.mpr ⟨by decide, hf⟩, ?_⟩
    rw [value_mk, hexp, Nat.ofDigitChars_append, hzero, Nat.ofDigitChars_append,
      Nat.ofDigitChars_replicate_zero, Nat.mul_zero]
  | digit c hc hn =>
    have hread := readNumeral?_whole (isDigits_singleton (hds.digit c (by simp [hc])))
      (.mark (n - 1))
    refine ⟨_, hread, by simpa using hds.digit c (by simp [hc]), ?_⟩
    rw [value_mk, List.append_nil, hc, List.length_nil, List.length_singleton, Nat.cast_zero,
      sub_zero, Nat.cast_one]
  | digits c rest hc hrest hn =>
    have hw := isDigits_singleton (hds.digit c (by simp [hc]))
    have hf : ∀ d ∈ rest, isAsciiDigit d = true := fun d hd => hds.digit d (by simp [hc, hd])
    have hread := readNumeral?_append hw hf (.mark (n - 1))
    have hexp : n - 1 - (rest.length : Int) = n - ds.length := by
      rw [hc, List.length_cons]
      omega
    refine ⟨_, hread, List.forall_mem_cons.mpr ⟨hw.digit c List.mem_cons_self, hf⟩, ?_⟩
    rw [value_mk, hexp, hc, List.singleton_append]

/-! ## The conversion -/

/-- The sign of a number in front of its text. -/
def signText (negative : Bool) : List Char :=
  if negative then ['-'] else []

instance : DecidablePred IsMark := fun c =>
  inferInstanceAs (Decidable (isAsciiDigit c = true ∨ c = '.' ∨ c = 'e' ∨ c = '+' ∨ c = '-'))

theorem IsMark.toNat_lt (h : IsMark c) : c.toNat < 128 := by
  obtain h | rfl | rfl | rfl | rfl := h
  · exact toNat_lt_of_isAsciiAlnum (by simp [isAsciiAlnum, h])
  all_goals decide

/-- A mark is not blank and announces no base. -/
theorem IsMark.plain (h : IsMark c) :
    isBlank c = false ∧ lowerAscii c ≠ 'x' ∧ lowerAscii c ≠ 'o' ∧ lowerAscii c ≠ 'b' := by
  have hall : ∀ n < 128, IsMark (Char.ofNat n) → isBlank (Char.ofNat n) = false ∧
      lowerAscii (Char.ofNat n) ≠ 'x' ∧ lowerAscii (Char.ofNat n) ≠ 'o' ∧
      lowerAscii (Char.ofNat n) ≠ 'b' := by decide
  have hc := hall c.toNat h.toNat_lt
  rw [Char.ofNat_toNat] at hc
  exact hc h

theorem marked?_eq_none {cs : List Char} (h : ∀ c ∈ cs, IsMark c) : marked? cs = none := by
  have hbase : basePrefix? cs = none := by
    unfold basePrefix?
    split
    · next c cs =>
      obtain ⟨-, hx, ho, hb⟩ := (h c (by simp)).plain
      split
      · next heq => exact absurd heq hx
      · next heq => exact absurd heq ho
      · next heq => exact absurd heq hb
      · rfl
    · rfl
  rw [marked?, hbase, Option.map_none]

theorem isMark_signText (negative : Bool) : ∀ c ∈ signText negative, IsMark c := by
  cases negative <;> simp [signText, IsMark]

theorem splitSign_signText (hc : isAsciiDigit c = true) (negative : Bool) (rest : List Char) :
    splitSign (signText negative ++ c :: rest) = (negative, c :: rest) := by
  have hplain : c ≠ '-' ∧ c ≠ '+' := by
    constructor <;> rintro rfl <;> exact absurd hc (by decide)
  cases negative
  · simp [signText, splitSign, hplain]
  · rfl

/-- **A text of marks that starts with a digit is read as a decimal number.** -/
theorem numberOfText_decimal {rest : List Char} (hc : isAsciiDigit c = true)
    (hmarks : ∀ d ∈ c :: rest, IsMark d) (hread : readNumeral? (c :: rest) = some m) :
    numberOfText (String.ofList (signText negative ++ c :: rest)) =
      (m.toBinary negative).toFloat := by
  have hall : ∀ d ∈ signText negative ++ c :: rest, IsMark d :=
    List.forall_mem_append.mpr ⟨isMark_signText negative, hmarks⟩
  have hsign := splitSign_signText hc negative rest
  have hnotword : ∀ w : List Char, 'I' ∈ w → signText negative ++ c :: rest ≠ w := by
    rintro w hmem rfl
    exact absurd (hall 'I' hmem) (by decide)
  have hinfinity : ¬ (decide (signText negative ++ c :: rest = "Infinity".toList) ||
      decide (signText negative ++ c :: rest = "+Infinity".toList)) = true := by
    rw [Bool.or_eq_true, decide_eq_true_iff, decide_eq_true_iff, not_or]
    exact ⟨hnotword _ (by decide), hnotword _ (by decide)⟩
  have hminus : signText negative ++ c :: rest ≠ "-Infinity".toList := hnotword _ (by decide)
  have hne : ¬ (signText negative ++ c :: rest).isEmpty = true := by
    rw [List.isEmpty_iff]
    exact List.append_ne_nil_of_right_ne_nil _ (List.cons_ne_nil c rest)
  simp only [numberOfText, String.toList_ofList, trim_of_not_blank fun d hd => (hall d hd).plain.1,
    marked?_eq_none hall, hsign, hread]
  rw [if_neg hne, if_neg hinfinity, if_neg hminus]

/-! ## The text of a number -/

/-- The value of a signed decimal text, if it is one. -/
def decimalValue? (cs : List Char) : Option ℚ :=
  (readNumeral? (splitSign cs).2).map fun m => (if (splitSign cs).1 then -1 else 1) * m.value

theorem toList_numberText (hx : Binary.ofFloat x = .finite negative units) (hpos : 0 < units) :
    (numberText x).toList = signText negative ++
      pointAt (shortest .up units).chars ((shortest .up units).leading + 1) := by
  rw [numberText, hx]
  dsimp only
  rw [if_neg hpos.ne', String.toList_ofList]
  rfl

/-- The text of a number is a decimal text with the value of its digits, which the conversion
reads. -/
theorem numberText_reads (hx : Binary.ofFloat x = .finite negative units) (hpos : 0 < units) :
    ∃ body, (numberText x).toList = signText negative ++ body ∧
      Layout (shortest .up units).chars ((shortest .up units).leading + 1) body ∧
      splitSign (numberText x).toList = (negative, body) ∧
      ∃ m, readNumeral? body = some m ∧ m.value = (shortest .up units).value ∧
        (∀ c ∈ m.whole ++ m.fraction, isAsciiDigit c = true) ∧
        numberOfText (numberText x) = (m.toBinary negative).toFloat := by
  have hds : IsDigits (shortest .up units).chars := isDigits_toDigits _
  have hlayout := layout_pointAt hds.ne_nil ((shortest .up units).leading + 1)
  have htext := toList_numberText hx hpos
  generalize pointAt (shortest .up units).chars ((shortest .up units).leading + 1) = body
    at hlayout htext
  obtain ⟨c, rest, rfl, hc⟩ := hlayout.exists_cons hds
  obtain ⟨m, hread, hdigit, hvalue⟩ := hlayout.reads hds
  have hfrac : m.value = (shortest .up units).value := by
    rw [hvalue, Digits.value, Digits.chars, Nat.ofDigitChars_ten_toDigits, Digits.leading,
      Digits.chars]
    congr 2
    omega
  refine ⟨c :: rest, htext, hlayout, htext ▸ splitSign_signText hc negative rest, m, hread, hfrac,
    hdigit, ?_⟩
  rw [← numberOfText_decimal hc (hlayout.marks hds.digit) hread, ← htext, String.ofList_toList]

/-- The text of a number other than zero is converted to this number. -/
theorem numberOfText_numberText (hx : Binary.ofFloat x = .finite negative units)
    (hpos : 0 < units) : numberOfText (numberText x) = x := by
  have hu : IsDouble units := (unpacks_of_ofFloat hx).isDouble
  obtain ⟨-, -, -, -, m, -, hvalue, hdigit, hconvert⟩ := numberText_reads hx hpos
  have hin : (Interval.ofUnits units).Contains m.value := by
    rw [hvalue]
    exact (readsAs_iff_contains hu hpos _).mp (shortest_isShortest hu hpos).reads
  rw [hconvert, toBinary_of_contains hu hpos hdigit hin, toFloat_ofFloat hx]

/-- **The text of a number is exactly the number.** Its digits are the fewest that read back and of
those the nearest, they are laid out as the language prescribes for them, the text is a decimal text
that is worth exactly these digits with the sign of the number, and converting it gives the number
again. So two numbers that have the same text are equal. -/
theorem numberText_exact (hx : Binary.ofFloat x = .finite negative units) (hpos : 0 < units) :
    (shortest .up units).IsShortest units ∧
    (∃ body, (numberText x).toList = signText negative ++ body ∧
      Layout (shortest .up units).chars ((shortest .up units).leading + 1) body) ∧
    decimalValue? (numberText x).toList = some ((if negative then -1 else 1) *
      ((shortest .up units).digits * (10 : ℚ) ^
        ((shortest .up units).leading + 1 - ((shortest .up units).chars.length : Int)))) ∧
    numberOfText (numberText x) = x ∧
    ∀ y t v, Binary.ofFloat y = .finite t v → 0 < v → numberText y = numberText x → y = x := by
  have hu : IsDouble units := (unpacks_of_ofFloat hx).isDouble
  have hback := numberOfText_numberText hx hpos
  obtain ⟨body, htext, hlayout, hsign, m, hread, hvalue, -, -⟩ := numberText_reads hx hpos
  refine ⟨shortest_isShortest hu hpos, ⟨body, htext, hlayout⟩, ?_, hback, ?_⟩
  · have hexp : (shortest .up units).leading + 1 - ((shortest .up units).chars.length : Int) =
        (shortest .up units).exponent := by
      rw [Digits.leading]
      omega
    rw [decimalValue?, hsign, hread, Option.map_some, hvalue, hexp, Digits.value]
  · intro y t v hy hv heq
    rw [← hback, ← numberOfText_numberText hy hv, heq]

/-- The smallest double in size, below zero. -/
theorem numberText_exact_least :
    (∃ body, (numberText (Binary.toFloat (.finite true 1))).toList = '-' :: body ∧
      Layout ['5'] (-323) body) ∧
    decimalValue? (numberText (Binary.toFloat (.finite true 1))).toList =
      some (-(5 * 10 ^ (-324 : Int))) ∧
    numberOfText (numberText (Binary.toFloat (.finite true 1))) =
      Binary.toFloat (.finite true 1) := by
  have hx : Binary.ofFloat (Binary.toFloat (.finite true 1)) = .finite true 1 :=
    ofFloat_toFloat ⟨1, 0, ⟨by decide, .inr rfl, by decide⟩, rfl⟩
  have hdigits : shortest .up 1 = ⟨5, -324⟩ := by decide +kernel
  have hchars : (Digits.mk 5 (-324)).chars = ['5'] := by decide
  have hexact := numberText_exact hx (by decide)
  rw [hdigits] at hexact
  obtain ⟨-, hlayout, hvalue, hback, -⟩ := hexact
  rw [Digits.leading, hchars] at hlayout hvalue
  refine ⟨hlayout, ?_, hback⟩
  rw [hvalue]
  norm_num

end DepScope.Script
