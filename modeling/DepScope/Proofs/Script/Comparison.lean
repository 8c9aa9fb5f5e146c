import DepScope.Proofs.Decimal.Float
import DepScope.Proofs.Script.Word
import DepScope.Proofs.Text.Digits

/-!
# DepScope.Proofs.Script.Comparison

Big integers compared with each other and with texts.

1. Two big integers are ordered as the doubles nearest to them (`compare?_bigint`). Rounding keeps
   order, so the comparisons are exact unless two different integers have the same nearest double,
   which takes integers of more than 53 bits.
2. A text equals a big integer if it is the decimal integer between its blanks. The language lets a
   blank text stand for zero and reads the marks `0x`, `0o` and `0b` as well (`IntegerText`).

`comparison_exact_iff` says for which operands the comparisons are exact, and `comparison_inexact`
gives some for which they are not.
-/

namespace DepScope.Script

open Text Decimal

variable {a b v : Int} {cs ds : List Char} {n base : Nat}

/-! ## The doubles nearest to two integers -/

/-- The value of the double nearest to an integer, in units. -/
def nearestUnits (a : Int) : Int :=
  signedUnits (a < 0) (unitsOfRatio a.natAbs 1)

theorem ofFloat_floatOfInt (h : Fits a) : Binary.ofFloat (floatOfInt a) = Binary.ofInt a := by
  have hsize : a.natAbs < 2 ^ 128 := by
    unfold Fits at h
    omega
  exact ofFloat_toFloat (isDouble_unitsOfRatio hsize)

theorem compareFloats_of_ofFloat {x y : Float} {s t : Bool} {u w : Nat}
    (hx : Binary.ofFloat x = .finite s u) (hy : Binary.ofFloat y = .finite t w) :
    Value.compareFloats x y = some (compare (signedUnits s u) (signedUnits t w)) := by
  simp only [Value.compareFloats, float_lt_iff, float_beq_iff, compare_of_ofFloat hx hy,
    compare_of_ofFloat hy hx, Option.some.injEq]
  obtain hlt | heq | hgt := Int.lt_trichotomy (signedUnits s u) (signedUnits t w)
  · rw [if_pos (Int.compare_eq_lt.mpr hlt), Int.compare_eq_lt.mpr hlt]
  · rw [heq, Int.compare_eq_eq.mpr rfl]
    rfl
  · rw [Int.compare_eq_gt.mpr hgt, Int.compare_eq_lt.mpr hgt]
    rfl

/-- **Two big integers are ordered as the doubles nearest to them.** -/
theorem compare?_bigint (ha : Fits a) (hb : Fits b) :
    (Value.bigint a).compare? (.bigint b) = some (compare (nearestUnits a) (nearestUnits b)) :=
  compareFloats_of_ofFloat (ofFloat_floatOfInt ha) (ofFloat_floatOfInt hb)

theorem nearestUnits_of_nonneg (h : 0 ≤ a) : nearestUnits a = unitsOfRatio a.natAbs 1 := by
  rw [nearestUnits, decide_eq_false (by omega), signedUnits_false]

theorem nearestUnits_of_neg (h : a < 0) : nearestUnits a = -(unitsOfRatio a.natAbs 1 : Int) := by
  rw [nearestUnits, decide_eq_true h, signedUnits_true]

theorem nearestUnits_mono (h : a ≤ b) : nearestUnits a ≤ nearestUnits b := by
  by_cases ha : a < 0
  · rw [nearestUnits_of_neg ha]
    by_cases hb : b < 0
    · rw [nearestUnits_of_neg hb]
      have hle : unitsOfRatio b.natAbs 1 ≤ unitsOfRatio a.natAbs 1 := unitsOfRatio_mono (by omega)
      omega
    · rw [nearestUnits_of_nonneg (by omega)]
      omega
  · rw [nearestUnits_of_nonneg (by omega), nearestUnits_of_nonneg (by omega)]
    have hle : unitsOfRatio a.natAbs 1 ≤ unitsOfRatio b.natAbs 1 := unitsOfRatio_mono (by omega)
    omega

/-- Two doubles nearest to integers have the same value only if they are the same: a negative
integer is not rounded to zero. -/
theorem nearestUnits_eq_iff :
    nearestUnits a = nearestUnits b ↔ Binary.ofInt a = Binary.ofInt b := by
  have hpos : ∀ {c : Int}, c < 0 → 0 < unitsOfRatio c.natAbs 1 := fun hc => by
    rw [unitsOfRatio_one]
    exact nearest_pos (Nat.mul_pos (by omega) (Nat.two_pow_pos _))
  rw [Binary.ofInt, Binary.ofInt, Binary.ofRatio, Binary.ofRatio, Binary.finite.injEq]
  by_cases ha : a < 0 <;> by_cases hb : b < 0
  · rw [nearestUnits_of_neg ha, nearestUnits_of_neg hb, decide_eq_true ha, decide_eq_true hb,
      Int.neg_inj, Int.natCast_inj, eq_self, true_and]
  · have hunits := hpos ha
    rw [nearestUnits_of_neg ha, nearestUnits_of_nonneg (by omega), decide_eq_true ha,
      decide_eq_false hb]
    exact iff_of_false (by omega) fun h => absurd h.1 (by decide)
  · have hunits := hpos hb
    rw [nearestUnits_of_nonneg (by omega), nearestUnits_of_neg hb, decide_eq_false ha,
      decide_eq_true hb]
    exact iff_of_false (by omega) fun h => absurd h.1 (by decide)
  · rw [nearestUnits_of_nonneg (by omega), nearestUnits_of_nonneg (by omega), decide_eq_false ha,
      decide_eq_false hb, Int.natCast_inj, eq_self, true_and]

/-- Integers up to `2^53` are doubles. -/
theorem nearestUnits_of_le (h : a.natAbs ≤ 2 ^ 53) : nearestUnits a = a * (2 ^ unitBits : Nat) := by
  by_cases ha : a < 0
  · rw [nearestUnits_of_neg ha, unitsOfRatio_of_le h, Int.natCast_mul, ← Int.neg_mul]
    congr 1
    omega
  · rw [nearestUnits_of_nonneg (by omega), unitsOfRatio_of_le h, Int.natCast_mul]
    congr 1
    omega

/-- An integer below `2^53` shares its nearest double with no other integer. -/
theorem nearestUnits_ne (ha : a.natAbs < 2 ^ 53) (h : a ≠ b) : nearestUnits a ≠ nearestUnits b := by
  have hunit : (0 : Int) < (2 ^ unitBits : Nat) := Int.natCast_pos.mpr (Nat.two_pow_pos _)
  obtain hlt | hgt := Int.lt_or_gt_of_ne h
  · have hnext : nearestUnits (a + 1) = a * (2 ^ unitBits : Nat) + (2 ^ unitBits : Nat) := by
      rw [nearestUnits_of_le (by omega), Int.add_mul, Int.one_mul]
    have hmono : nearestUnits (a + 1) ≤ nearestUnits b := nearestUnits_mono hlt
    rw [nearestUnits_of_le (by omega)]
    omega
  · have hprev : nearestUnits (a - 1) = a * (2 ^ unitBits : Nat) - (2 ^ unitBits : Nat) := by
      rw [nearestUnits_of_le (by omega), Int.sub_mul, Int.one_mul]
    have hmono : nearestUnits b ≤ nearestUnits (a - 1) := nearestUnits_mono (by omega)
    rw [nearestUnits_of_le (by omega)]
    omega

/-! ## Comparisons of two big integers -/

/-- The comparisons of two big integers are those of the integers, and exactly one of less, equal and
greater holds. -/
def OrderedExactly (a b : Int) : Prop :=
  BinaryOp.less.apply (.bigint a) (.bigint b) = some (.truth (a < b)) ∧
  BinaryOp.lessEqual.apply (.bigint a) (.bigint b) = some (.truth (a ≤ b)) ∧
  BinaryOp.greater.apply (.bigint a) (.bigint b) = some (.truth (b < a)) ∧
  BinaryOp.greaterEqual.apply (.bigint a) (.bigint b) = some (.truth (b ≤ a)) ∧
  ∃! op, op ∈ [BinaryOp.less, .strictEqual, .greater] ∧
    op.apply (.bigint a) (.bigint b) = some (.truth true)

/-- What an operator asks of the order of its operands. -/
theorem apply_of_compare? {l r : Value} {o : Ordering} (h : l.compare? r = some o) :
    BinaryOp.less.apply l r = some (.truth (o == .lt)) ∧
    BinaryOp.lessEqual.apply l r = some (.truth (o != .gt)) ∧
    BinaryOp.greater.apply l r = some (.truth (o == .gt)) ∧
    BinaryOp.greaterEqual.apply l r = some (.truth (o != .lt)) := by
  simp [BinaryOp.apply, h]

/-- Exactly one of three comparisons holds. -/
theorem existsUnique_of_truths {l r : Value} {p q s : Bool}
    (hless : BinaryOp.less.apply l r = some (.truth p))
    (hequal : BinaryOp.strictEqual.apply l r = some (.truth q))
    (hgreater : BinaryOp.greater.apply l r = some (.truth s)) :
    (∃! op, op ∈ [BinaryOp.less, .strictEqual, .greater] ∧ op.apply l r = some (.truth true)) ↔
      [p, q, s].count true = 1 := by
  cases p <;> cases q <;> cases s <;>
    simp [ExistsUnique, or_and_right, exists_or, or_imp, forall_and, hless, hequal, hgreater]

theorem orderedExactly_of_compare?
    (h : (Value.bigint a).compare? (.bigint b) = some (compare a b)) : OrderedExactly a b := by
  obtain ⟨hlt, hle, hgt, hge⟩ := apply_of_compare? h
  have heq : BinaryOp.strictEqual.apply (.bigint a) (.bigint b) = some (.truth (a == b)) := rfl
  rw [OrderedExactly, existsUnique_of_truths hlt heq hgt, hlt, hle, hgt, hge]
  obtain hab | rfl | hab := Int.lt_trichotomy a b
  · have hne : a ≠ b := Int.ne_of_lt hab
    rw [Int.compare_eq_lt.mpr hab]
    simp [hab, Int.le_of_lt hab, Int.lt_asymm hab, Int.not_le_of_gt hab, hne]
  · rw [Int.compare_eq_eq.mpr rfl]
    simp
  · have hne : a ≠ b := Int.ne_of_gt hab
    rw [Int.compare_eq_gt.mpr hab]
    simp [hab, Int.le_of_lt hab, Int.lt_asymm hab, Int.not_le_of_gt hab, hne]

theorem orderedExactly_iff (ha : Fits a) (hb : Fits b) :
    OrderedExactly a b ↔ a = b ∨ Binary.ofInt a ≠ Binary.ofInt b := by
  have hcompare := compare?_bigint ha hb
  rw [ne_eq, ← nearestUnits_eq_iff]
  constructor
  · rintro ⟨hlt, -, hgt, -⟩
    by_contra hnot
    obtain ⟨hne, hsame⟩ := not_or.mp hnot
    rw [not_not.mp hsame, Int.compare_eq_eq.mpr rfl] at hcompare
    obtain ⟨hlt', -, hgt', -⟩ := apply_of_compare? hcompare
    have hless : ¬ a < b := of_decide_eq_false (by simpa using (hlt'.symm.trans hlt).symm)
    have hgreater : ¬ b < a := of_decide_eq_false (by simpa using (hgt'.symm.trans hgt).symm)
    omega
  · intro h
    apply orderedExactly_of_compare?
    rw [hcompare]
    obtain hlt | rfl | hgt := Int.lt_trichotomy a b
    · have hne : nearestUnits a ≠ nearestUnits b := h.resolve_left (Int.ne_of_lt hlt)
      have hle := nearestUnits_mono (Int.le_of_lt hlt)
      rw [Int.compare_eq_lt.mpr hlt, Int.compare_eq_lt.mpr (by omega)]
    · rw [Int.compare_eq_eq.mpr rfl, Int.compare_eq_eq.mpr rfl]
    · have hne : nearestUnits a ≠ nearestUnits b := h.resolve_left (Int.ne_of_gt hgt)
      have hle := nearestUnits_mono (Int.le_of_lt hgt)
      rw [Int.compare_eq_gt.mpr hgt, Int.compare_eq_gt.mpr (by omega)]

/-! ## Texts that stand for integers -/

/-- A decimal integer with an optional sign. -/
inductive SignedDecimal : List Char → Int → Prop
  | plain {ds : List Char} {n : Nat} : Denotes 10 ds n → SignedDecimal ds n
  | plus {ds : List Char} {n : Nat} : Denotes 10 ds n → SignedDecimal ('+' :: ds) n
  | minus {ds : List Char} {n : Nat} : Denotes 10 ds n → SignedDecimal ('-' :: ds) (-n)

/-- The marks in front of digits and the bases they announce. -/
def baseMarks : List (Char × Nat) :=
  [('x', 16), ('X', 16), ('o', 8), ('O', 8), ('b', 2), ('B', 2)]

/-- An integer with a mark for its base, without a sign. -/
inductive MarkedInteger : List Char → Int → Prop
  | intro {mark : Char} {base : Nat} {ds : List Char} {n : Nat} :
    (mark, base) ∈ baseMarks → Denotes base ds n → MarkedInteger ('0' :: mark :: ds) n

/-- A text without surrounding blanks and the integer that the language reads it as. -/
inductive IntegerText : List Char → Int → Prop
  | blank : IntegerText [] 0
  | decimal {cs : List Char} {v : Int} : SignedDecimal cs v → IntegerText cs v
  | marked {cs : List Char} {v : Int} : MarkedInteger cs v → IntegerText cs v

/-- The equality of a big integer with a text says whether the text stands for the integer. -/
def EqualsExactly (a : Int) (s : String) : Prop :=
  ∃ result, BinaryOp.equal.apply (.bigint a) (.string s) = some (.truth result) ∧
    (result = true ↔ IntegerText (trim s.toList) a)

/-- Digits behind a sign, or without one. -/
theorem integerIn?_eq (base : Nat) (cs : List Char) :
    integerIn? base cs = (natIn? base (splitSign cs).2).map
      fun (n : Nat) => if (splitSign cs).1 then -(n : Int) else n := by
  rw [integerIn?]
  obtain ⟨negative, digits⟩ := splitSign cs
  dsimp only
  cases natIn? base digits <;> rfl

theorem integerIn?_eq_some_iff : integerIn? 10 cs = some v ↔ SignedDecimal cs v := by
  rw [integerIn?_eq, Option.map_eq_some_iff]
  simp only [natIn?_eq_some_iff (show 10 ≤ 16 by decide)]
  constructor
  · rintro ⟨n, hn, rfl⟩
    unfold splitSign at hn ⊢
    split at hn
    · exact .minus hn
    · exact .plus hn
    · exact .plain hn
  · intro h
    cases h with
    | plus h => exact ⟨_, h, rfl⟩
    | minus h => exact ⟨_, h, rfl⟩
    | plain h =>
      have hsplit : splitSign cs = (false, cs) := by
        unfold splitSign
        split
        · exact absurd List.mem_cons_self (h.notMem (by decide) (by decide))
        · exact absurd List.mem_cons_self (h.notMem (by decide) (by decide))
        · rfl
      rw [hsplit]
      exact ⟨_, h, rfl⟩

/-- **A text equals a big integer if it is its decimal form between blanks.** -/
theorem looseEquals_string_iff (ha : Fits a) (s : String) :
    (Value.bigint a).looseEquals (.string s) = true ↔ SignedDecimal (trim s.toList) a := by
  rw [← integerIn?_eq_some_iff]
  simp only [Value.looseEquals, beq_iff_eq, bigintIn?, Option.bind_eq_some_iff, checked_eq_some_iff]
  constructor
  · rintro ⟨v, hv, rfl, -⟩
    exact hv
  · intro h
    exact ⟨a, h, rfl, ha⟩

/-- No decimal integer has a mark for its base. -/
theorem not_signedDecimal_of_marked (h : MarkedInteger cs a) : ¬ SignedDecimal cs b := by
  obtain ⟨hmark, -⟩ := h
  intro hdecimal
  cases hdecimal with
  | plain h =>
    have hmarks : ∀ entry ∈ baseMarks, digitIn? 10 entry.1 = none := by decide
    have hread := h.readDigits_eq (by decide)
    have hzero : digitIn? 10 '0' = some 0 := by decide
    simp [readDigits, hzero, hmarks _ hmark] at hread

theorem equalsExactly_iff (ha : Fits a) (s : String) :
    EqualsExactly a s ↔ ¬ (trim s.toList = [] ∧ a = 0) ∧ ¬ MarkedInteger (trim s.toList) a := by
  have hequal : BinaryOp.equal.apply (.bigint a) (.string s)
      = some (.truth ((Value.bigint a).looseEquals (.string s))) := rfl
  have hunfold : EqualsExactly a s ↔
      (SignedDecimal (trim s.toList) a ↔ IntegerText (trim s.toList) a) := by
    simp only [EqualsExactly, hequal, Option.some.injEq, Value.truth.injEq, exists_eq_left',
      looseEquals_string_iff ha]
  rw [hunfold]
  constructor
  · intro h
    refine ⟨?_, fun hmarked => not_signedDecimal_of_marked hmarked (h.mpr (.marked hmarked))⟩
    rintro ⟨hblank, rfl⟩
    have hdecimal := h.mpr (hblank ▸ .blank)
    rw [hblank] at hdecimal
    cases hdecimal with
    | plain h => exact h.ne_nil rfl
  · rintro ⟨hblank, hmarked⟩
    refine ⟨.decimal, fun h => ?_⟩
    generalize htext : trim s.toList = text at *
    cases h with
    | blank => exact absurd ⟨rfl, rfl⟩ hblank
    | decimal h => exact h
    | marked h => exact absurd h hmarked

/-- **When comparisons of big integers are exact.** For all words `a` and `b` and every text `s`:

* `a` and `b` are compared as integers, with exactly one of less, equal and greater, if and only if
  they are the same or have different nearest doubles;
* this is so whenever one of them is below `2^53`;
* `a` equals `s` exactly when `s` stands for `a`, if and only if `s` is not a blank text compared with
  zero and not an integer with a mark for its base that stands for `a`. -/
theorem comparison_exact_iff (a b : Word) (s : String) :
    (OrderedExactly a.toInt b.toInt ↔ a = b ∨ Binary.ofInt a.toInt ≠ Binary.ofInt b.toInt) ∧
    (OrderedExactly a.toInt b.toInt ∨ 2 ^ 53 ≤ a.toInt.natAbs ∧ 2 ^ 53 ≤ b.toInt.natAbs) ∧
    (EqualsExactly a.toInt s ↔
      ¬ (trim s.toList = [] ∧ a = 0) ∧ ¬ MarkedInteger (trim s.toList) a.toInt) := by
  have hordered := orderedExactly_iff (Word.fits a) (Word.fits b)
  refine ⟨?_, ?_, ?_⟩
  · rw [hordered, BitVec.toInt_inj]
  · rw [hordered, ne_eq, ← nearestUnits_eq_iff]
    by_contra hnot
    obtain ⟨hinexact, hlarge⟩ := not_or.mp hnot
    obtain ⟨hne, hsame⟩ := not_or.mp hinexact
    obtain hsmall | hsmall : a.toInt.natAbs < 2 ^ 53 ∨ b.toInt.natAbs < 2 ^ 53 := by omega
    · exact hsame (nearestUnits_ne hsmall hne)
    · exact hsame (Ne.symm (nearestUnits_ne hsmall (Ne.symm hne)))
  · have hzero : a.toInt = 0 ↔ a = 0 := BitVec.toInt_inj (y := 0)
    rw [equalsExactly_iff (Word.fits a), hzero]

/-- **Comparisons of big integers that are not exact:** two neighbours with the same nearest double,
zero and the empty text, sixteen and its form in base sixteen. -/
theorem comparison_inexact :
    ¬ OrderedExactly (2 ^ 53) (2 ^ 53 + 1) ∧ ¬ EqualsExactly 0 "" ∧ ¬ EqualsExactly 16 "0x10" := by
  refine ⟨?_, ?_, ?_⟩
  · have hsame : Binary.ofInt (2 ^ 53) = Binary.ofInt (2 ^ 53 + 1) := by decide +kernel
    rw [orderedExactly_iff (by decide) (by decide)]
    exact fun h => h.elim (by decide) fun hne => hne hsame
  · rw [equalsExactly_iff (by decide)]
    exact fun h => h.1 ⟨by decide, rfl⟩
  · have htext : trim "0x10".toList = ['0', 'x', '1', '0'] := by decide
    have hdigits : Denotes 16 ['1', '0'] 16 := (natIn?_eq_some_iff (by decide)).mp (by decide)
    rw [equalsExactly_iff (by decide), htext]
    exact fun h => h.2 (.intro (by decide) hdigits)

end DepScope.Script
