import DepScope.Script.Value
import Mathlib.Data.Int.Bitwise

/-!
# DepScope.Proofs.Script.BigInt

Arithmetic on big integers against the integers of the language, which have no bound.

1. `exactOp` is what the language computes: `none` stands for the error it raises.
2. `Declined` lists the operands for which a result is refused although it would fit: shift counts,
   exponents and one remainder that the 128-bit operations behind do not take.
3. Everywhere else the result is exact whenever it fits (`bigintOp_eq_some_iff`). The operations on
   single bits always fit, since the bits above the 127th repeat the sign (`fits_iff_testBit`).
-/

namespace DepScope.Script

variable {a b n v : Int} {op : BinaryOp}

/-! ## What the language computes -/

/-- Shifted to the left by `n` bits, or to the right, toward the lower integer, for a negative `n`. -/
def exactShift (a n : Int) : Int :=
  if 0 ≤ n then a * 2 ^ n.toNat else a / 2 ^ (-n).toNat

/-- The result of an operator on integers without bound; none where an error is raised, and for the
operators that are no arithmetic. Single bits are those of two's complement without end. -/
def exactOp (op : BinaryOp) (a b : Int) : Option Int :=
  match op with
  | .add => some (a + b)
  | .sub => some (a - b)
  | .mul => some (a * b)
  | .div => if b = 0 then none else some (a.tdiv b)
  | .rem => if b = 0 then none else some (a.tmod b)
  | .pow => if b < 0 then none else some (a ^ b.toNat)
  | .shiftLeft => some (exactShift a b)
  | .shiftRight => some (exactShift a (-b))
  | .bitAnd => some (Int.land a b)
  | .bitOr => some (Int.lor a b)
  | .bitXor => some (Int.xor a b)
  | _ => none

/-- An integer of 128 bits with a sign. -/
def Fits (n : Int) : Prop :=
  -(2 ^ 127) ≤ n ∧ n < 2 ^ 127

instance (n : Int) : Decidable (Fits n) :=
  inferInstanceAs (Decidable (_ ∧ _))

/-- Operands for which a result is refused, whether it fits or not. -/
def Declined (op : BinaryOp) (a b : Int) : Prop :=
  match op with
  | .rem => a = -(2 ^ 127) ∧ b = -1
  | .pow => 2 ^ 32 ≤ b
  | .shiftLeft => 127 ≤ b ∨ b = -(2 ^ 127)
  | .shiftRight => b ≤ -127
  | _ => False

theorem checked_eq_some_iff : checked n = some v ↔ n = v ∧ Fits v := by
  unfold checked Fits
  split
  · next h =>
    rw [Option.some.injEq]
    exact ⟨fun heq => ⟨heq, heq ▸ h⟩, And.left⟩
  · next h =>
    simp only [reduceCtorEq, false_iff]
    rintro ⟨rfl, hfits⟩
    exact h hfits

theorem checked_iff_of_not {P : Prop} (h : ¬ P) :
    checked n = some v ↔ some n = some v ∧ Fits v ∧ ¬ P := by
  rw [checked_eq_some_iff, Option.some.injEq, and_iff_left h]

theorem none_iff_of {P : Prop} {x : Option Int} (h : P) :
    none = some v ↔ x = some v ∧ Fits v ∧ ¬ P := by
  simp [h]

/-! ## Powers and shifts -/

/-- A power with a larger exponent is out of range, unless its base is 0, 1 or -1. -/
theorem not_fits_pow {k : Nat} (ha : 2 ≤ a.natAbs) (hk : 127 < k) : ¬ Fits (a ^ k) := by
  have hpow : 2 ^ 128 ≤ (a ^ k).natAbs := by
    rw [Int.natAbs_pow]
    exact Nat.le_trans (Nat.pow_le_pow_right (by decide) hk) (Nat.pow_le_pow_left ha k)
  unfold Fits
  omega

theorem neg_one_pow (k : Nat) : (-1 : Int) ^ k = if k % 2 = 0 then 1 else -1 := by
  induction k with
  | zero => rfl
  | succ k ih =>
    rw [Int.pow_succ, ih]
    split <;> split <;> omega

/-- A power of 0, 1 or -1 needs no limit on the exponent, and one of any other base has it anyway. -/
theorem bigintPow_eq (a b : Int) :
    bigintPow a b = if b < 0 ∨ 2 ^ 32 ≤ b then none else checked (a ^ b.toNat) := by
  unfold bigintPow
  by_cases hb : b < 0 ∨ 2 ^ 32 ≤ b
  · rw [if_pos hb, if_pos hb]
  rw [if_neg hb, if_neg hb]
  have hsmall {x : Int} (hx : x.natAbs ≤ 1) (hpow : a ^ b.toNat = x) :
      some x = checked (a ^ b.toNat) := by
    have hfits : Fits x := by
      unfold Fits
      omega
    exact (checked_eq_some_iff.mpr ⟨hpow, hfits⟩).symm
  split
  · next ha =>
    -- 0 and 1
    refine hsmall (by split <;> omega) ?_
    split
    · next hzero => rw [hzero, Int.toNat_zero, Int.pow_zero]
    · next hzero =>
      obtain ⟨k, hk⟩ := Nat.exists_eq_succ_of_ne_zero (n := b.toNat) (by omega)
      obtain rfl | rfl := ha
      · rw [hk, Int.zero_pow (Nat.succ_ne_zero k)]
      · rw [Int.one_pow]
  · split
    · next ha =>
      refine hsmall (by split <;> omega) ?_
      rw [ha, neg_one_pow]
      split <;> split <;> omega
    · split
      · next hlarge =>
        have hout : ¬ Fits (a ^ b.toNat) := not_fits_pow (by omega) (by omega)
        symm
        rw [Option.eq_none_iff_forall_ne_some]
        intro v hv
        obtain ⟨rfl, hfits⟩ := checked_eq_some_iff.mp hv
        exact hout hfits
      · rfl

/-- Beyond 127 bits a shift to the right leaves nothing but the sign. -/
theorem div_pow_min (ha : Fits a) (k : Nat) : a / 2 ^ min k 127 = a / 2 ^ k := by
  by_cases hk : k ≤ 127
  · rw [Nat.min_eq_left hk]
  · have hsign {d : Int} (hd : 2 ^ 127 ≤ d) : a / d = if a < 0 then -1 else 0 := by
      obtain ⟨hlow, hhigh⟩ := ha
      split
      · exact Int.ediv_eq_neg_one_of_neg_of_le (by omega) (by omega)
      · exact Int.ediv_eq_zero_of_lt (by omega) (by omega)
    have hle : (2 : Int) ^ 127 ≤ 2 ^ k := by
      have hnat : 2 ^ 127 ≤ 2 ^ k := Nat.pow_le_pow_right (by decide) (by omega)
      exact_mod_cast hnat
    rw [Nat.min_eq_right (by omega), hsign (Int.le_refl _), hsign hle]

theorem fits_div (ha : Fits a) (k : Nat) : Fits (a / 2 ^ k) := by
  have hpos : (0 : Int) < 2 ^ k := Int.pow_pos (by decide)
  have habs := Int.natAbs_ediv_le_natAbs a (2 ^ k)
  obtain ⟨hlow, hhigh⟩ := ha
  by_cases hneg : a < 0
  · have hquot := Int.ediv_neg_of_neg_of_pos hneg hpos
    exact ⟨by omega, by omega⟩
  · have hquot := Int.ediv_nonneg (a := a) (by omega) (Int.le_of_lt hpos)
    exact ⟨by omega, by omega⟩

/-- A shift is exact, if its count is in range and its result fits. -/
theorem bigintShift_eq_some_iff (ha : Fits a) :
    bigintShift a n = some v ↔ exactShift a n = v ∧ Fits v ∧ n < 127 := by
  unfold bigintShift exactShift
  by_cases hn : 0 ≤ n
  · simp only [if_pos hn]
    split
    · next hlt => simp [checked_eq_some_iff, hlt]
    · next hlt => simp [hlt]
  · simp only [if_neg hn, div_pow_min ha, Option.some.injEq]
    constructor
    · rintro rfl
      exact ⟨rfl, fits_div ha _, by omega⟩
    · exact And.left

/-! ## Single bits -/

/-- Far enough to the left all bits are the sign. -/
theorem exists_testBit_eq_sign (n : Int) : ∃ k, ∀ i ≥ k, n.testBit i = decide (n < 0) := by
  have hout {m i : Nat} (hi : m ≤ i) : m.testBit i = false :=
    Nat.testBit_lt_two_pow (Nat.lt_of_le_of_lt hi Nat.lt_two_pow_self)
  refine ⟨n.natAbs, fun i hi => ?_⟩
  cases n with
  | ofNat m =>
    have hsign : ¬ Int.ofNat m < 0 := Int.not_lt.mpr (Int.natCast_nonneg m)
    rw [decide_eq_false hsign]
    exact hout hi
  | negSucc m =>
    have hm : m ≤ i := Nat.le_of_succ_le hi
    simp [Int.testBit, hout hm, Int.negSucc_lt_zero]

/-- An integer fits if its bits from the 127th on are the sign. -/
theorem fits_iff_testBit : Fits n ↔ ∀ i ≥ 127, n.testBit i = decide (n < 0) := by
  have hnat (m : Nat) : m < 2 ^ 127 ↔ ∀ i ≥ 127, m.testBit i = false := by
    constructor
    · intro hm i hi
      exact Nat.testBit_lt_two_pow (Nat.lt_of_lt_of_le hm (Nat.pow_le_pow_right (by decide) hi))
    · exact Nat.lt_pow_two_of_testBit m
  cases n with
  | ofNat m =>
    have hfits : Fits (Int.ofNat m) ↔ m < 2 ^ 127 := by
      unfold Fits
      simp only [Int.ofNat_eq_natCast]
      omega
    have hsign : ¬ Int.ofNat m < 0 := Int.not_lt.mpr (Int.natCast_nonneg m)
    rw [hfits, hnat, decide_eq_false hsign]
    rfl
  | negSucc m =>
    have hfits : Fits (Int.negSucc m) ↔ m < 2 ^ 127 := by
      unfold Fits
      omega
    rw [hfits, hnat, decide_eq_true (Int.negSucc_lt_zero m)]
    simp [Int.testBit]

theorem fits_bitwise (f : Bool → Bool → Bool) (ha : Fits a) (hb : Fits b) :
    Fits (Int.bitwise f a b) := by
  rw [fits_iff_testBit] at ha hb ⊢
  have hbits {i : Nat} (hi : i ≥ 127) :
      (Int.bitwise f a b).testBit i = f (decide (a < 0)) (decide (b < 0)) := by
    rw [Int.testBit_bitwise, ha i hi, hb i hi]
  obtain ⟨k, hk⟩ := exists_testBit_eq_sign (Int.bitwise f a b)
  intro i hi
  rw [hbits hi, ← hk (max k 127) (Nat.le_max_left _ _), hbits (Nat.le_max_right _ _)]

theorem testBit_bits128 (n : Int) (i : Nat) :
    (bits128 n).testBit i = (decide (i < 128) && n.testBit i) := by
  cases n with
  | ofNat m =>
    have hbits : bits128 (Int.ofNat m) = m % 2 ^ 128 := by
      unfold bits128
      simp only [Int.ofNat_eq_natCast]
      omega
    rw [hbits, Nat.testBit_mod_two_pow]
    rfl
  | negSucc m =>
    have hbits : bits128 (Int.negSucc m) = 2 ^ 128 - (m % 2 ^ 128 + 1) := by
      unfold bits128
      omega
    rw [hbits, Nat.testBit_two_pow_sub_succ (Nat.mod_lt _ (by decide)), Nat.testBit_mod_two_pow]
    by_cases hi : i < 128 <;> simp [hi, Int.testBit]

/-- An integer that fits is read back from its 128 bits. -/
theorem ofBits128_bits128 (h : Fits n) : ofBits128 (bits128 n) = n := by
  obtain ⟨hlow, hhigh⟩ := h
  unfold ofBits128 bits128
  split <;> omega

theorem bits128_land (a b : Int) : bits128 a &&& bits128 b = bits128 (Int.land a b) := by
  apply Nat.eq_of_testBit_eq
  intro i
  simp only [Nat.testBit_and, testBit_bits128, Int.testBit_land]
  cases decide (i < 128) <;> simp

theorem bits128_lor (a b : Int) : bits128 a ||| bits128 b = bits128 (Int.lor a b) := by
  apply Nat.eq_of_testBit_eq
  intro i
  simp only [Nat.testBit_or, testBit_bits128, Int.testBit_lor]
  cases decide (i < 128) <;> simp

theorem bits128_xor (a b : Int) : bits128 a ^^^ bits128 b = bits128 (Int.xor a b) := by
  apply Nat.eq_of_testBit_eq
  intro i
  simp only [Nat.testBit_xor, testBit_bits128, Int.testBit_lxor]
  cases decide (i < 128) <;> simp

/-! ## All operators -/

theorem ofBits128_bits128_eq_iff (h : Fits n) :
    ofBits128 (bits128 n) = v ↔ n = v ∧ Fits v := by
  rw [ofBits128_bits128 h]
  exact ⟨fun heq => ⟨heq, heq ▸ h⟩, And.left⟩

/-- **A result is exact, and is there whenever it fits**, apart from the operands that are refused. -/
theorem bigintOp_eq_some_iff (op : BinaryOp) (ha : Fits a) (hb : Fits b) :
    bigintOp op a b = some v ↔ exactOp op a b = some v ∧ Fits v ∧ ¬ Declined op a b := by
  cases op with
  | add | sub | mul => exact checked_iff_of_not id
  | div =>
    simp only [bigintOp, exactOp]
    by_cases hzero : b = 0
    · simp [hzero]
    · rw [if_neg hzero, if_neg hzero]
      exact checked_iff_of_not id
  | rem =>
    simp only [bigintOp, exactOp]
    by_cases hlow : a = -(2 ^ 127) ∧ b = -1
    · rw [if_pos (.inr hlow)]
      exact none_iff_of hlow
    · by_cases hzero : b = 0
      · simp [hzero]
      · rw [if_neg (not_or.mpr ⟨hzero, hlow⟩), if_neg hzero]
        exact checked_iff_of_not hlow
  | pow =>
    simp only [bigintOp, exactOp, bigintPow_eq]
    by_cases hlarge : 2 ^ 32 ≤ b
    · rw [if_pos (.inr hlarge)]
      exact none_iff_of hlarge
    · by_cases hneg : b < 0
      · simp [hneg]
      · rw [if_neg (not_or.mpr ⟨hneg, hlarge⟩), if_neg hneg]
        exact checked_iff_of_not hlarge
  | shiftLeft =>
    simp only [bigintOp, exactOp, Option.some.injEq]
    by_cases hlow : b = -(2 ^ 127)
    · rw [if_pos hlow]
      simp [Declined, hlow]
    · rw [if_neg hlow, bigintShift_eq_some_iff ha]
      refine and_congr_right fun _ => and_congr_right fun _ => ?_
      simp only [Declined, hlow, or_false, Int.not_le]
  | shiftRight =>
    simp only [bigintOp, exactOp, Option.some.injEq, Declined]
    by_cases hlow : b = -(2 ^ 127)
    · rw [if_pos hlow]
      simp [hlow]
    · rw [if_neg hlow, bigintShift_eq_some_iff ha]
      refine and_congr_right fun _ => and_congr_right fun _ => ?_
      omega
  | bitAnd =>
    simp only [bigintOp, exactOp, Declined, bits128_land, ← Int.bitwise_and]
    simpa using ofBits128_bits128_eq_iff (fits_bitwise and ha hb)
  | bitOr =>
    simp only [bigintOp, exactOp, Declined, bits128_lor, ← Int.bitwise_or]
    simpa using ofBits128_bits128_eq_iff (fits_bitwise or ha hb)
  | bitXor =>
    simp only [bigintOp, exactOp, Declined, bits128_xor, ← Int.bitwise_xor]
    simpa using ofBits128_bits128_eq_iff (fits_bitwise xor ha hb)
  | shiftRightUnsigned | equal | notEqual | strictEqual | strictNotEqual | less | lessEqual
  | greater | greaterEqual => simp [bigintOp, exactOp]

end DepScope.Script
