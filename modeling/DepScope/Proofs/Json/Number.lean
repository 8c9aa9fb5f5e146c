import DepScope.Json.Document
import DepScope.Json.Number
import DepScope.Proofs.Decimal.Shortest

/-!
# DepScope.Proofs.Json.Number

The text of every number is one that the grammar of numbers takes,

    [-] ( 0 | digit digits* ) [ . digits ] [ (e|E) [+|-] digits ]

and takes whole wherever it stands before a character that no number goes on with
(`isNumber_text`, `numberText?_append`). Integers are read back as they were; whether a double is
depends on its digits and is the property `Survives` (`ofText?_text`).
-/

namespace DepScope.Json

open Text Decimal

/-! ## Digits -/

/-- One digit or more. -/
structure IsDigits (ds : List Char) : Prop where
  ne_nil : ds ≠ []
  digit : ∀ c ∈ ds, isAsciiDigit c = true

/-- Nothing, or a character that no number goes on with. -/
def Stops (rest : List Char) : Prop :=
  ∀ c ∈ rest.head?, isAsciiDigit c = false ∧ c ≠ '.' ∧ c ≠ 'e' ∧ c ≠ 'E'

variable {cs ds rest : List Char} {c : Char} {n : Nat}

theorem isAsciiDigit_of_isDigit (h : c.isDigit = true) : isAsciiDigit c = true := by
  simp only [Char.isDigit, Bool.and_eq_true, decide_eq_true_eq] at h
  simp only [isAsciiDigit, Bool.and_eq_true, decide_eq_true_eq]
  exact h

theorem isDigits_toDigits (n : Nat) : IsDigits (Nat.toDigits 10 n) where
  ne_nil := Nat.toDigits_ne_nil
  digit c hc :=
    isAsciiDigit_of_isDigit (Nat.isDigit_of_mem_toDigits (b := 10) (by decide) (by decide) hc)

theorem isDigits_singleton (h : isAsciiDigit c = true) : IsDigits [c] where
  ne_nil := by simp
  digit d hd := by rwa [List.mem_singleton.mp hd]

theorem isDigits_zero : IsDigits ['0'] :=
  isDigits_singleton (by decide)

theorem takeWhile_digits (hd : ∀ c ∈ ds, isAsciiDigit c = true)
    (hr : ∀ c ∈ rest.head?, isAsciiDigit c = false) :
    (ds ++ rest).takeWhile isAsciiDigit = ds := by
  rw [List.takeWhile_append_of_pos hd]
  cases rest with
  | nil => simp
  | cons c rest =>
    have hc : isAsciiDigit c = false := hr c rfl
    simp [hc]

theorem takeWhile_digits_self (hd : ∀ c ∈ ds, isAsciiDigit c = true) :
    ds.takeWhile isAsciiDigit = ds := by
  have h : (ds ++ []).takeWhile isAsciiDigit = ds := takeWhile_digits hd (by simp)
  rwa [List.append_nil] at h

theorem dropWhile_digits_self (hd : ∀ c ∈ ds, isAsciiDigit c = true) :
    ds.dropWhile isAsciiDigit = [] := by
  have h : (ds ++ []).dropWhile isAsciiDigit = [] := List.dropWhile_append_of_pos hd
  rwa [List.append_nil] at h

/-- The digits of a positive number do not start with zero. -/
theorem head?_toDigits_ne (h : 0 < n) : (Nat.toDigits 10 n).head? ≠ some '0' := by
  induction n using Nat.base_induction 10 (by decide) with
  | single m hm =>
    rw [Nat.toDigits_of_lt_base hm]
    have hall : ∀ m < 10, 0 < m → [Nat.digitChar m].head? ≠ some '0' := by decide
    exact hall m hm h
  | digit m k hk hm ih =>
    have hsome : (Nat.toDigits 10 m).head?.isSome := List.isSome_head?.mpr Nat.toDigits_ne_nil
    rw [← Nat.toDigits_append_toDigits (by decide) hm hk, List.head?_append,
      Option.or_of_isSome hsome]
    exact ih hm

/-! ## The grammar -/

/-- The digits before the point: zero alone, or digits that start with another one. -/
def IsWhole (ds : List Char) : Prop :=
  ds = ['0'] ∨ IsDigits ds ∧ ds.head? ≠ some '0'

/-- The point and the digits after it, or nothing. -/
def IsFraction (cs : List Char) : Prop :=
  cs = [] ∨ ∃ ds, IsDigits ds ∧ cs = '.' :: ds

/-- The mark of an exponent, its sign if it has one, and its digits, or nothing. -/
def IsPower (cs : List Char) : Prop :=
  cs = [] ∨ ∃ e sign ds, (e = 'e' ∨ e = 'E') ∧ (sign = [] ∨ sign = ['+'] ∨ sign = ['-']) ∧
    IsDigits ds ∧ cs = e :: (sign ++ ds)

/-- A number without a sign, as it is written. -/
inductive IsMagnitude : List Char → Prop
  | mk {whole fraction power : List Char} : IsWhole whole → IsFraction fraction → IsPower power →
      IsMagnitude (whole ++ (fraction ++ power))

/-- A number as it is written. -/
inductive IsNumber : List Char → Prop
  | mk (minus : Bool) {cs : List Char} :
      IsMagnitude cs → IsNumber ((if minus then ['-'] else []) ++ cs)

/-- Does a dialect take the signs of a number? Without strictness no plus sign is taken. -/
def Dialect.TakesSigns (d : Dialect) (cs : List Char) : Prop :=
  d = .lenient → '+' ∉ cs

theorem takesSigns_strict (cs : List Char) : Dialect.strict.TakesSigns cs := nofun

variable {d : Dialect} {whole fraction power : List Char}

theorem Dialect.TakesSigns.of_subset (h : d.TakesSigns cs) (hs : ds ⊆ cs) : d.TakesSigns ds :=
  fun hd hmem => h hd (hs hmem)

theorem isExponentSign_digit (h : isAsciiDigit c = true) : isExponentSign d c = false := by
  have hminus : c ≠ '-' := by
    rintro rfl
    exact absurd h (by decide)
  have hplus : c ≠ '+' := by
    rintro rfl
    exact absurd h (by decide)
  simp [isExponentSign, hminus, hplus]

theorem IsWhole.digits (h : IsWhole whole) : IsDigits whole := by
  obtain rfl | ⟨h, -⟩ := h
  · exact isDigits_zero
  · exact h

theorem IsPower.stops_digits (h : IsPower power) (hr : Stops rest) :
    ∀ c ∈ (power ++ rest).head?, isAsciiDigit c = false ∧ c ≠ '.' := by
  obtain rfl | ⟨e, sign, ds, he, -, -, rfl⟩ := h
  · intro c hc
    exact ⟨(hr c hc).1, (hr c hc).2.1⟩
  · rintro c ⟨⟩
    obtain rfl | rfl := he <;> decide

theorem IsFraction.stops_digits (h : IsFraction fraction) (hp : IsPower power) (hr : Stops rest) :
    ∀ c ∈ (fraction ++ (power ++ rest)).head?, isAsciiDigit c = false := by
  obtain rfl | ⟨ds, -, rfl⟩ := h
  · intro c hc
    exact (hp.stops_digits hr c hc).1
  · rintro c ⟨⟩
    decide

theorem exponentText_append (h : IsPower power) (hd : d.TakesSigns power) (hr : Stops rest) :
    exponentText d (power ++ rest) = power := by
  obtain rfl | ⟨e, sign, ds, he, hsign, hds, rfl⟩ := h
  · cases rest with
    | nil => rfl
    | cons c rest =>
      obtain ⟨-, -, he, hE⟩ := hr c rfl
      simp [exponentText, he, hE]
  · have htake : (ds ++ rest).takeWhile isAsciiDigit = ds :=
      takeWhile_digits hds.digit fun c hc => (hr c hc).1
    have hmark : (decide (e = 'e') || decide (e = 'E')) = true := by simpa using he
    -- a sign that is taken; without one the first digit is none
    have hsigned {s : Char} (hs : isExponentSign d s = true) :
        exponentText d (e :: s :: ds ++ rest) = e :: s :: ds := by
      simp [exponentText, hmark, hs, htake, hds.ne_nil]
    obtain rfl | rfl | rfl := hsign
    · obtain ⟨c, more, rfl⟩ := List.exists_cons_of_ne_nil hds.ne_nil
      have hc := isExponentSign_digit (d := d) (hds.digit c List.mem_cons_self)
      rw [List.cons_append] at htake
      simp [exponentText, hmark, hc, htake]
    · cases d with
      | strict => exact hsigned rfl
      | lenient => exact absurd (by simp) (hd rfl)
    · exact hsigned rfl

theorem wholeText_append (h : IsWhole whole) (hr : ∀ c ∈ rest.head?, isAsciiDigit c = false) :
    wholeText (whole ++ rest) = whole := by
  obtain rfl | ⟨hd, hne⟩ := h
  · rfl
  · unfold wholeText
    split
    · next heq =>
      cases whole with
      | nil => exact absurd rfl hd.ne_nil
      | cons c cs =>
        cases heq
        exact absurd rfl hne
    · exact takeWhile_digits hd.digit hr

theorem fractionText_append (h : IsFraction fraction)
    (hr : ∀ c ∈ rest.head?, isAsciiDigit c = false ∧ c ≠ '.') :
    fractionText (fraction ++ rest) = fraction := by
  obtain rfl | ⟨ds, hd, rfl⟩ := h
  · unfold fractionText
    split
    · next heq =>
      rw [List.nil_append] at heq
      exact absurd rfl (hr '.' (by simp [heq])).2
    · rfl
  · rw [List.cons_append, fractionText, takeWhile_digits hd.digit fun c hc => (hr c hc).1]

theorem IsFraction.length_ne_one (h : IsFraction fraction) : fraction.length ≠ 1 := by
  obtain rfl | ⟨ds, hd, rfl⟩ := h
  · simp
  · simpa using hd.ne_nil

/-- Digits are not a sign. -/
theorem IsWhole.append_ne_minus (h : IsWhole whole) (rest more : List Char) :
    whole ++ rest ≠ '-' :: more := by
  intro heq
  obtain ⟨c, cs, rfl⟩ := List.exists_cons_of_ne_nil h.digits.ne_nil
  cases heq
  exact absurd (h.digits.digit '-' (by simp)) (by decide)

/-- A minus sign goes in front of the number that follows it. -/
theorem numberText?_minus (hc : ∀ more, cs ≠ '-' :: more) :
    numberText? d ('-' :: cs) = (numberText? d cs).map ('-' :: ·) := by
  simp only [numberText?]
  split
  · rfl
  · split
    · rfl
    · simp

theorem numberText?_magnitude (h : IsMagnitude cs) (hd : d.TakesSigns cs) (hr : Stops rest) :
    numberText? d (cs ++ rest) = some cs := by
  obtain @⟨_, fraction, power, hw, hf, hp⟩ := h
  have hd : d.TakesSigns power := hd.of_subset (by simp)
  have hsign := hw.append_ne_minus (fraction ++ (power ++ rest))
  rw [List.append_assoc, List.append_assoc]
  simp only [numberText?]
  rw [wholeText_append hw (hf.stops_digits hp hr), List.drop_left,
    fractionText_append hf (hp.stops_digits hr), List.drop_left, exponentText_append hp hd hr]
  simp [hw.digits.ne_nil, hf.length_ne_one]

theorem IsMagnitude.append_ne_minus (h : IsMagnitude cs) (rest more : List Char) :
    cs ++ rest ≠ '-' :: more := by
  obtain ⟨hw, hf, hp⟩ := h
  rw [List.append_assoc]
  exact hw.append_ne_minus _ _

/-- **A written number is taken whole** from in front of what no number goes on with. -/
theorem numberText?_append (h : IsNumber cs) (hd : d.TakesSigns cs) (hr : Stops rest) :
    numberText? d (cs ++ rest) = some cs := by
  obtain ⟨minus, h⟩ := h
  cases minus with
  | false => exact numberText?_magnitude h hd hr
  | true =>
    have hd := hd.of_subset (List.subset_cons_self '-' _)
    simp only [if_true, List.cons_append, List.nil_append]
    rw [numberText?_minus (h.append_ne_minus rest), numberText?_magnitude h hd hr]
    rfl

/-- A number starts with a digit or a minus sign. -/
theorem IsNumber.exists_cons (h : IsNumber cs) :
    ∃ c more, cs = c :: more ∧ (isAsciiDigit c = true ∨ c = '-') := by
  obtain ⟨minus, hw, hf, hp⟩ := h
  cases minus with
  | false =>
    obtain ⟨c, cs, rfl⟩ := List.exists_cons_of_ne_nil hw.digits.ne_nil
    exact ⟨c, _, rfl, .inl (hw.digits.digit c (by simp))⟩
  | true => exact ⟨'-', _, rfl, .inr rfl⟩

/-! ## The texts of numbers -/

theorem isMagnitude_toDigits (n : Nat) : IsMagnitude (Nat.toDigits 10 n) := by
  have hw : IsWhole (Nat.toDigits 10 n) := by
    obtain rfl | h := Nat.eq_zero_or_pos n
    · exact .inl (Nat.toDigits_zero 10)
    · exact .inr ⟨isDigits_toDigits n, head?_toDigits_ne h⟩
  have h := IsMagnitude.mk hw (.inl rfl) (.inl rfl)
  rwa [List.append_nil, List.append_nil] at h

theorem toList_toString_int (n : Int) :
    (toString n).toList = (if n < 0 then ['-'] else []) ++ Nat.toDigits 10 n.natAbs := by
  cases n with
  | ofNat n => simp [toString, Int.repr]
  | negSucc n => simp [toString, Int.repr]

theorem IsDigits.take (h : IsDigits ds) {k : Nat} (hk : k ≠ 0) : IsDigits (ds.take k) where
  ne_nil := by simp [h.ne_nil, hk]
  digit c hc := h.digit c (List.mem_of_mem_take hc)

theorem IsDigits.drop (h : IsDigits ds) {k : Nat} (hk : k < ds.length) : IsDigits (ds.drop k) where
  ne_nil := by simpa using hk
  digit c hc := h.digit c (List.mem_of_mem_drop hc)

theorem IsDigits.append (h : IsDigits cs) (hd : ∀ c ∈ ds, isAsciiDigit c = true) :
    IsDigits (cs ++ ds) where
  ne_nil := by simp [h.ne_nil]
  digit c hc := (List.mem_append.mp hc).elim (h.digit c) (hd c)

theorem isDigits_replicate (k : Nat) : ∀ c ∈ List.replicate k '0', isAsciiDigit c = true := by
  intro c hc
  rw [List.eq_of_mem_replicate hc]
  decide

theorem isPower_exponent (e : Int) :
    IsPower ('e' :: (if e < 0 then '-' else '+') :: decimalDigits e.natAbs) := by
  refine .inr ⟨'e', [if e < 0 then '-' else '+'], _, .inl rfl, ?_, isDigits_toDigits e.natAbs, rfl⟩
  split
  · exact .inr (.inr rfl)
  · exact .inr (.inl rfl)

/-- Digits that start with another one than zero are laid out as a number. -/
theorem isMagnitude_layOut (h : IsDigits ds) (h0 : ds.head? ≠ some '0') (e : Int) :
    IsMagnitude (layOut ds e) := by
  have hlead : ∀ k ≠ 0, IsWhole (ds.take k) := fun k hk =>
    .inr ⟨h.take hk, by rwa [List.head?_take, if_neg hk]⟩
  simp only [layOut]
  split
  · -- all digits stand after the point
    have hd : IsDigits (List.replicate (-e - 1).toNat '0' ++ ds) := by
      refine ⟨by simp [h.ne_nil], fun c hc => ?_⟩
      exact (List.mem_append.mp hc).elim (isDigits_replicate _ c) (h.digit c)
    simpa using IsMagnitude.mk (.inl rfl) (.inr ⟨_, hd, rfl⟩) (.inl rfl)
  · split
    · split
      · -- all stand before it, filled up with zeros
        have hw : IsWhole (ds ++ List.replicate (e + 1 - (ds.length : Int)).toNat '0') := by
          refine .inr ⟨h.append (isDigits_replicate _), ?_⟩
          rwa [List.head?_append, Option.or_of_isSome (List.isSome_head?.mpr h.ne_nil)]
        exact .mk hw (.inr ⟨['0'], isDigits_zero, rfl⟩) (.inl rfl)
      · have hd : IsDigits (ds.drop (e + 1).toNat) := h.drop (by omega)
        simpa using IsMagnitude.mk (hlead _ (by omega)) (.inr ⟨_, hd, rfl⟩) (.inl rfl)
    · have hp := isPower_exponent e
      split
      · exact absurd rfl h.ne_nil
      · exact .mk (hlead 1 (by decide)) (.inl rfl) hp
      · next c more hne =>
        have hd : IsDigits more := h.drop (k := 1) (by
          simpa using List.length_pos_iff.mpr hne)
        exact .mk (hlead 1 (by decide)) (.inr ⟨_, hd, rfl⟩) hp

theorem isNumber_realText (x : Finite) : IsNumber (realText x) := by
  refine .mk x.negative ?_
  split
  · exact .mk (.inl rfl) (.inr ⟨['0'], isDigits_zero, rfl⟩) (.inl rfl)
  · next hx =>
    have hpos : 0 < (shortest .toEven x.units).digits := shortest_pos (Nat.pos_of_ne_zero hx)
    exact isMagnitude_layOut (isDigits_toDigits _) (head?_toDigits_ne hpos) _

/-- **The text of a number is a number.** -/
theorem isNumber_text (n : Number) : IsNumber n.text := by
  cases n with
  | natural n => exact .mk false (isMagnitude_toDigits n)
  | negative n =>
    have h := IsNumber.mk (decide (n < 0)) (isMagnitude_toDigits n.natAbs)
    rw [Number.text, toList_toString_int]
    simpa using h
  | real x => exact isNumber_realText x

/-! ## Reading back -/

/-- Integers in the range that is kept exactly; every double. -/
def Number.Fits : Number → Prop
  | natural n => n ≤ maxNatural
  | negative n => -(2 ^ 63) ≤ n ∧ n < 0
  | real _ => True

theorem takeDigits_le {acc : Nat} (h : acc ≤ maxNatural) : (takeDigits acc ds).1 ≤ maxNatural := by
  induction ds generalizing acc with
  | nil => exact h
  | cons c ds ih =>
    simp only [takeDigits]
    split
    · next hle => exact ih hle
    · exact h

theorem fits_of_ofParts? {minus : Bool} {n : Number}
    (h : Number.ofParts? minus whole fraction power = some n) : n.Fits := by
  have hle : (takeDigits 0 whole).1 ≤ maxNatural := takeDigits_le (Nat.zero_le _)
  simp only [Number.ofParts?] at h
  split at h
  · split at h
    · cases h
      exact hle
    · split at h
      · next hpos =>
        cases h
        simp only [Bool.and_eq_true, decide_eq_true_eq] at hpos
        simp only [Number.Fits]
        omega
      · cases h
        trivial
  · obtain ⟨x, -, rfl⟩ := Option.map_eq_some_iff.mp h
    trivial

/-- Numbers that are read fit. -/
theorem fits_of_ofText? {n : Number} (h : Number.ofText? cs = some n) : n.Fits :=
  fits_of_ofParts? h

theorem le_ofDigitChars (acc : Nat) (ds : List Char) : acc ≤ Nat.ofDigitChars 10 ds acc := by
  rw [Nat.ofDigitChars_eq_ofDigitChars_zero]
  exact Nat.le_add_right_of_le (Nat.le_mul_of_pos_left _ (Nat.pow_pos (by decide)))

/-- Digits whose value fits are all taken. -/
theorem takeDigits_eq {acc : Nat} (h : Nat.ofDigitChars 10 ds acc ≤ maxNatural) :
    takeDigits acc ds = (Nat.ofDigitChars 10 ds acc, 0) := by
  induction ds generalizing acc with
  | nil => rfl
  | cons c ds ih =>
    have hcons : Nat.ofDigitChars 10 (c :: ds) acc =
        Nat.ofDigitChars 10 ds (acc * 10 + (c.toNat - 48)) := by
      rw [Nat.ofDigitChars_cons, Nat.mul_comm]
      rfl
    rw [hcons] at h ⊢
    rw [takeDigits, if_pos (Nat.le_trans (le_ofDigitChars _ ds) h), ih h]

theorem takeDigits_toDigits (h : n ≤ maxNatural) : takeDigits 0 (Nat.toDigits 10 n) = (n, 0) := by
  have hval : Nat.ofDigitChars 10 (Nat.toDigits 10 n) 0 = n := Nat.ofDigitChars_ten_toDigits
  rw [takeDigits_eq (by rwa [hval]), hval]

theorem ofText?_natural (h : n ≤ maxNatural) :
    Number.ofText? (Nat.toDigits 10 n) = some (.natural n) := by
  have hds := isDigits_toDigits n
  have hsign := (isMagnitude_toDigits n).append_ne_minus []
  rw [List.append_nil] at hsign
  simp only [Number.ofText?, spanWhile]
  rw [takeWhile_digits_self hds.digit, dropWhile_digits_self hds.digit]
  simp [Number.ofParts?, takeDigits_toDigits h]

theorem ofText?_negative (h : 0 < n) (hn : n ≤ 2 ^ 63) :
    Number.ofText? ('-' :: Nat.toDigits 10 n) = some (.negative (-(n : Int))) := by
  have hds := isDigits_toDigits n
  have hle : n ≤ maxNatural := Nat.le_trans hn (by decide)
  have hrange : (decide (0 < n) && decide (n ≤ 2 ^ 63)) = true :=
    Bool.and_eq_true_iff.mpr ⟨decide_eq_true h, decide_eq_true hn⟩
  simp only [Number.ofText?, spanWhile]
  rw [takeWhile_digits_self hds.digit, dropWhile_digits_self hds.digit]
  simp only [Number.ofParts?, takeDigits_toDigits hle, List.isEmpty_nil, Bool.and_self,
    beq_self_eq_true, if_true, Bool.not_true, Bool.false_eq_true, if_false, hrange]

/-- A double whose text is read as the same double. -/
def Survives (x : Finite) : Prop :=
  Number.ofText? (realText x) = some (.real x)

instance (x : Finite) : Decidable (Survives x) :=
  inferInstanceAs (Decidable (Number.ofText? (realText x) = some (.real x)))

/-- **Integers are read back as they were**, and so are the doubles that survive. -/
theorem ofText?_text {n : Number} (h : n.Fits) (hx : ∀ x, n = .real x → Survives x) :
    Number.ofText? n.text = some n := by
  cases n with
  | natural n => exact ofText?_natural h
  | negative n =>
    obtain ⟨hmin, hneg⟩ := h
    have hback : -(n.natAbs : Int) = n := by omega
    rw [Number.text, toList_toString_int, if_pos hneg, List.cons_append, List.nil_append,
      ofText?_negative (by omega) (by omega), hback]
  | real x => exact hx x rfl

end DepScope.Json
