import DepScope.Proofs.Script.BigInt

/-!
# DepScope.Proofs.Script.Word

Big integers as a machine holds them: words of 128 bits, read with a sign. `Word.operate` goes through
an operator step by step, as a program does that has no larger integers to go by.

1. Sums, products and quotients come with a flag for overflow, and are refused when it is set.
2. A shift to the left is refused when shifting back does not give the operand again.
3. A shift to the right by more bits than a word has would stop the program (`Fault`).

The steps give what `bigintOp` gives, for all words, and never stop (`operate_eq`). With the integers
of the language on the other side, this says that no result is ever wrong (`bigint_never_wrong`).
-/

namespace DepScope.Script

/-- An integer of 128 bits, read with a sign. -/
abbrev Word := BitVec 128

/-- What stops a program: a shift by a count that a word does not have. -/
inductive Fault where
  | count
deriving DecidableEq

namespace Word

variable {a b w : Word} {n v : Int}

/-! ## Steps -/

/-- A result, if the flag for overflow is not set. -/
def guarded (overflow : Bool) (w : Word) : Option Word :=
  if overflow then none else some w

/-- The product, if it fits. -/
def times? (a b : Word) : Option Word :=
  guarded (a.smulOverflow b) (a * b)

/-- The power, multiplied up step by step. -/
def power? (a : Word) : Nat → Option Word
  | 0 => some 1
  | k + 1 => (a.power? k).bind (·.times? a)

/-- The opposite, if it fits. -/
def negate? (a : Word) : Option Word :=
  guarded a.negOverflow (-a)

/-- The word as an unsigned number of 32 bits, if it is one. -/
def toCount? (a : Word) : Option Nat :=
  if 0 ≤ a.toInt ∧ a.toInt < 2 ^ 32 then some a.toInt.toNat else none

/-- Shifts to the left, where bits may be lost; refuses counts that a word does not have. -/
def shiftLeft? (a : Word) (count : Nat) : Option Word :=
  guarded (128 ≤ count) (a <<< count)

/-- Shifts to the right, filling with the sign; stops at counts that a word does not have. -/
def shiftRight (a : Word) (count : Nat) : Except Fault Word :=
  if count < 128 then .ok (a.sshiftRight count) else .error .count

/-- Shifts to the left if no bit is lost. -/
def shiftUp (a : Word) (count : Nat) : Except Fault (Option Word) :=
  match a.shiftLeft? count with
  | none => .ok none
  | some shifted => do
    let back ← shifted.shiftRight count
    return if back = a then some shifted else none

/-- Shifts to the left by a positive count, to the right by a negative one. -/
def shiftBy (a count : Word) : Except Fault (Option Word) :=
  if 0 ≤ count.toInt then
    match count.toCount?.filter (· < 127) with
    | none => .ok none
    | some k => a.shiftUp k
  else
    match count.negate? with
    | none => .ok none
    | some opposite => do
      let k := min (opposite.toCount?.getD 127) 127
      return some (← a.shiftRight k)

/-- Goes through an operator. -/
def operate (op : BinaryOp) (a b : Word) : Except Fault (Option Word) :=
  match op with
  | .add => .ok (guarded (a.saddOverflow b) (a + b))
  | .sub => .ok (guarded (a.ssubOverflow b) (a - b))
  | .mul => .ok (a.times? b)
  | .div => .ok (guarded (b == 0 || a.sdivOverflow b) (a.sdiv b))
  | .rem => .ok (guarded (b == 0 || a.sdivOverflow b) (a.srem b))
  | .pow => .ok (b.toCount?.bind a.power?)
  | .shiftLeft => a.shiftBy b
  | .shiftRight =>
    match b.negate? with
    | none => .ok none
    | some count => a.shiftBy count
  | .bitAnd => .ok (some (a &&& b))
  | .bitOr => .ok (some (a ||| b))
  | .bitXor => .ok (some (a ^^^ b))
  | _ => .ok none

/-! ## Results that are checked -/

theorem fits (a : Word) : Fits a.toInt :=
  ⟨BitVec.le_toInt a, BitVec.toInt_lt⟩

theorem checked_toInt (a : Word) : checked a.toInt = some a.toInt :=
  checked_eq_some_iff.mpr ⟨rfl, fits a⟩

theorem checked_eq_none (h : ¬ Fits n) : checked n = none := by
  rw [Option.eq_none_iff_forall_ne_some]
  intro v hv
  obtain ⟨rfl, hfits⟩ := checked_eq_some_iff.mp hv
  exact h hfits

/-- A flag that is set where the result does not fit gives the result if it does. -/
theorem map_toInt_guarded {overflow : Bool} (hflag : overflow = true → ¬ Fits n)
    (hword : ¬ overflow = true → w.toInt = n) :
    (guarded overflow w).map BitVec.toInt = checked n := by
  unfold guarded
  split
  · next h => rw [checked_eq_none (hflag h), Option.map_none]
  · next h => rw [Option.map_some, ← hword h, checked_toInt]

theorem map_toInt_times? : (a.times? b).map BitVec.toInt = checked (a.toInt * b.toInt) := by
  refine map_toInt_guarded (fun h => ?_) BitVec.toInt_mul_of_not_smulOverflow
  simp only [BitVec.smulOverflow, Bool.or_eq_true, decide_eq_true_eq] at h
  unfold Fits
  omega

theorem map_toInt_negate? : a.negate?.map BitVec.toInt = checked (-a.toInt) := by
  refine map_toInt_guarded (fun h => ?_) BitVec.toInt_neg_of_not_negOverflow
  simp only [BitVec.negOverflow, beq_iff_eq] at h
  unfold Fits
  omega

/-- All words but the least have an opposite. -/
theorem negate?_cases (a : Word) :
    (a.negate? = none ∧ a.toInt = -(2 ^ 127)) ∨
      ∃ o, a.negate? = some o ∧ o.toInt = -a.toInt ∧ a.toInt ≠ -(2 ^ 127) := by
  have hneg := map_toInt_negate? (a := a)
  have ha := fits a
  cases ho : a.negate? with
  | none =>
    refine .inl ⟨rfl, ?_⟩
    by_contra hne
    have hfits : Fits (-a.toInt) := by
      unfold Fits at ha ⊢
      omega
    rw [ho, checked_eq_some_iff.mpr ⟨rfl, hfits⟩] at hneg
    cases hneg
  | some o =>
    rw [ho, Option.map_some] at hneg
    obtain ⟨hval, hfits⟩ := checked_eq_some_iff.mp hneg.symm
    refine .inr ⟨o, rfl, hval.symm, ?_⟩
    unfold Fits at hfits
    omega

/-- A power that is out of range stays so. -/
theorem not_fits_pow_succ {k : Nat} (h : ¬ Fits (n ^ k)) : ¬ Fits (n ^ (k + 1)) := by
  have hbase : 2 ≤ n.natAbs := by
    by_contra hsmall
    have hone : (n ^ k).natAbs ≤ 1 := by
      rw [Int.natAbs_pow]
      exact Nat.le_trans (Nat.pow_le_pow_left (Nat.le_of_lt_succ (Nat.not_le.mp hsmall)) k)
        (Nat.le_of_eq (Nat.one_pow k))
    unfold Fits at h
    omega
  have hlarge : 2 ^ 127 ≤ (n ^ k).natAbs := by
    unfold Fits at h
    omega
  have hnext : 2 ^ 128 ≤ (n ^ (k + 1)).natAbs := by
    rw [Int.pow_succ, Int.natAbs_mul]
    exact Nat.mul_le_mul hlarge hbase
  unfold Fits
  omega

theorem map_toInt_power? (a : Word) (k : Nat) :
    (a.power? k).map BitVec.toInt = checked (a.toInt ^ k) := by
  induction k with
  | zero =>
    rw [power?, Int.pow_zero]
    decide
  | succ k ih =>
    rw [power?]
    by_cases hfits : Fits (a.toInt ^ k)
    · rw [checked_eq_some_iff.mpr ⟨rfl, hfits⟩, Option.map_eq_some_iff] at ih
      obtain ⟨p, hp, hval⟩ := ih
      rw [hp, Option.bind_some, map_toInt_times?, hval, Int.pow_succ]
    · rw [checked_eq_none hfits, Option.map_eq_none_iff] at ih
      rw [ih, checked_eq_none (not_fits_pow_succ hfits)]
      rfl

/-! ## Quotients and remainders -/

/-- The quotient overflows for the least word and minus one, and for no other words. -/
theorem sdivOverflow_iff : a.sdivOverflow b = true ↔ a.toInt = -(2 ^ 127) ∧ b.toInt = -1 := by
  have hmin : (BitVec.intMin 128).toInt = -(2 ^ 127) := by decide
  have hones : (BitVec.allOnes 128).toInt = -1 := by decide
  rw [BitVec.sdivOverflow_eq, ← hmin, ← hones, BitVec.toInt_inj, BitVec.toInt_inj]
  simp

theorem toInt_sdiv (h : ¬ a.sdivOverflow b = true) : (a.sdiv b).toInt = a.toInt.tdiv b.toInt := by
  apply BitVec.toInt_sdiv_of_ne_or_ne
  by_contra hboth
  simp only [ne_eq, not_or, Decidable.not_not] at hboth
  obtain ⟨rfl, rfl⟩ := hboth
  exact h (by decide)

theorem beq_zero_iff : (b == 0) = true ↔ b.toInt = 0 := by
  rw [beq_iff_eq, ← BitVec.toInt_inj]
  rfl

theorem map_toInt_quotient :
    (guarded (b == 0 || a.sdivOverflow b) (a.sdiv b)).map BitVec.toInt =
      if b.toInt = 0 then none else checked (a.toInt.tdiv b.toInt) := by
  by_cases hzero : b.toInt = 0
  · rw [if_pos hzero, beq_zero_iff.mpr hzero]
    rfl
  · rw [if_neg hzero, Bool.eq_false_iff.mpr (mt beq_zero_iff.mp hzero), Bool.false_or]
    refine map_toInt_guarded (fun h => ?_) toInt_sdiv
    obtain ⟨ha, hb⟩ := sdivOverflow_iff.mp h
    rw [ha, hb]
    unfold Fits
    decide

theorem map_toInt_remainder :
    (guarded (b == 0 || a.sdivOverflow b) (a.srem b)).map BitVec.toInt =
      if b.toInt = 0 ∨ (a.toInt = -(2 ^ 127) ∧ b.toInt = -1) then none
      else checked (a.toInt.tmod b.toInt) := by
  have hflag : (b == 0 || a.sdivOverflow b) = true ↔
      b.toInt = 0 ∨ (a.toInt = -(2 ^ 127) ∧ b.toInt = -1) := by
    rw [Bool.or_eq_true, beq_zero_iff, sdivOverflow_iff]
  unfold guarded
  split
  · next h => rw [if_pos (hflag.mp h), Option.map_none]
  · next h => rw [if_neg (mt hflag.mpr h), ← BitVec.toInt_srem, checked_toInt, Option.map_some]

/-! ## Shifts -/

theorem shiftRight_of_lt {k : Nat} (hk : k < 128) :
    ∃ r, a.shiftRight k = .ok r ∧ r.toInt = a.toInt / 2 ^ k := by
  refine ⟨a.sshiftRight k, if_pos hk, ?_⟩
  rw [BitVec.toInt_sshiftRight, Int.shiftRight_eq_div_pow, Int.natCast_pow]
  rfl

theorem toInt_shiftLeft {k : Nat} (hk : k < 127) :
    (a <<< k).toInt = (a.toInt * 2 ^ k).bmod (2 ^ 128) := by
  have hall : ∀ k < 127, (BitVec.twoPow 128 k).toInt = 2 ^ k := by decide
  rw [BitVec.shiftLeft_eq_mul_twoPow, BitVec.toInt_mul, hall k hk]

/-- Bits are lost if and only if the product is out of range. -/
theorem toInt_shiftLeft_div {k : Nat} (hk : k < 127) :
    (a <<< k).toInt / 2 ^ k = a.toInt ↔ Fits (a.toInt * 2 ^ k) := by
  have hpos : (0 : Int) < 2 ^ k := Int.pow_pos (by decide)
  constructor
  · -- the shifted word is a multiple of the power, so that the division loses nothing
    intro hback
    have hdvd : (2 ^ k : Int) ∣ (a <<< k).toInt := by
      have hword : (2 ^ k : Int) ∣ ((2 ^ 128 : Nat) : Int) := by
        rw [Int.natCast_pow]
        exact pow_dvd_pow 2 (by omega)
      have hsub := Int.dvd_trans hword (Int.dvd_bmod_sub_self (x := a.toInt * 2 ^ k))
      have hsum := Int.dvd_add hsub (Int.dvd_mul_left a.toInt (2 ^ k))
      rwa [Int.sub_add_cancel, ← toInt_shiftLeft hk] at hsum
    have hval : (a <<< k).toInt = a.toInt * 2 ^ k := by
      rw [← hback, Int.ediv_mul_cancel hdvd]
    exact hval ▸ fits (a <<< k)
  · intro hfits
    have hval : (a <<< k).toInt = a.toInt * 2 ^ k := by
      rw [toInt_shiftLeft hk]
      obtain ⟨hlow, hhigh⟩ := hfits
      exact Int.bmod_eq_of_le (by omega) (by omega)
    rw [hval, Int.mul_ediv_cancel _ (Int.ne_of_gt hpos)]

theorem shiftUp_eq {k : Nat} (hk : k < 127) :
    ∃ r, a.shiftUp k = .ok r ∧ r.map BitVec.toInt = checked (a.toInt * 2 ^ k) := by
  have hleft : a.shiftLeft? k = some (a <<< k) := by
    simp only [shiftLeft?, guarded, decide_eq_true_eq]
    rw [if_neg (by omega)]
  obtain ⟨back, hback, hval⟩ := shiftRight_of_lt (a := a <<< k) (k := k) (by omega)
  refine ⟨if back = a then some (a <<< k) else none, ?_, ?_⟩
  · simp only [shiftUp, hleft, hback]
    rfl
  · have hlost : back = a ↔ Fits (a.toInt * 2 ^ k) := by
      rw [← BitVec.toInt_inj, hval, toInt_shiftLeft_div hk]
    split
    · next h =>
      obtain ⟨hlow, hhigh⟩ := hlost.mp h
      rw [Option.map_some, toInt_shiftLeft hk, Int.bmod_eq_of_le (by omega) (by omega)]
      exact (checked_eq_some_iff.mpr ⟨rfl, hlow, hhigh⟩).symm
    · next h => rw [Option.map_none, checked_eq_none (mt hlost.mpr h)]

theorem filter_toCount? {c : Word} (h : 0 ≤ c.toInt) :
    c.toCount?.filter (· < 127) = if c.toInt < 127 then some c.toInt.toNat else none := by
  unfold toCount?
  by_cases hlt : c.toInt < 127
  · rw [if_pos ⟨h, by omega⟩, if_pos hlt, Option.filter_some, if_pos (by simp; omega)]
  · rw [if_neg hlt]
    split
    · rw [Option.filter_some, if_neg (by simp; omega)]
    · rfl

theorem min_toCount? {c : Word} (h : 0 ≤ c.toInt) :
    min (c.toCount?.getD 127) 127 = min c.toInt.toNat 127 := by
  unfold toCount?
  split
  · rfl
  · simp only [Option.getD_none]
    omega

/-- A shift by a word, in either direction, is the shift of integers; the least word, which has no
opposite, is refused. -/
theorem shiftBy_eq (a c : Word) :
    ∃ r, a.shiftBy c = .ok r ∧ r.map BitVec.toInt =
      if c.toInt = -(2 ^ 127) then none else bigintShift a.toInt c.toInt := by
  unfold shiftBy bigintShift
  by_cases hsign : 0 ≤ c.toInt
  · rw [if_pos hsign, if_pos hsign, if_neg (by omega), filter_toCount? hsign]
    split
    · next heq =>
      split at heq
      · cases heq
      · next hlarge => exact ⟨none, rfl, by rw [if_neg hlarge]; rfl⟩
    · next k heq =>
      split at heq
      · next hlt =>
        cases heq
        rw [if_pos hlt]
        exact shiftUp_eq (by omega)
      · cases heq
  · rw [if_neg hsign, if_neg hsign]
    obtain ⟨hnone, hlow⟩ | ⟨o, hsome, hval, hlow⟩ := negate?_cases c
    · simp only [hnone]
      exact ⟨none, rfl, by rw [if_pos hlow, Option.map_none]⟩
    · have hcount := min_toCount? (c := o) (by omega)
      obtain ⟨r, hr, hquot⟩ := shiftRight_of_lt (a := a) (k := min (o.toCount?.getD 127) 127)
        (by omega)
      simp only [hsome, hr]
      exact ⟨some r, rfl, by rw [if_neg hlow, Option.map_some, hquot, hcount, hval]⟩

/-! ## Single bits -/

theorem bits128_toInt (a : Word) : bits128 a.toInt = a.toNat := by
  have hlt := a.isLt
  rw [BitVec.toInt_eq_toNat_cond]
  unfold bits128
  split <;> omega

theorem ofBits128_toNat (a : Word) : ofBits128 a.toNat = a.toInt := by
  have hlt := a.isLt
  rw [BitVec.toInt_eq_toNat_cond]
  unfold ofBits128
  split <;> split <;> omega

theorem toInt_complement (a : Word) : (~~~a).toInt = -a.toInt - 1 := by
  have hlt := a.isLt
  rw [BitVec.toInt_eq_toNat_cond, BitVec.toInt_eq_toNat_cond, BitVec.toNat_not]
  split <;> split <;> omega

/-! ## All operators -/

/-- **The steps give what the operator gives**, and never stop. -/
theorem operate_eq (op : BinaryOp) (a b : Word) :
    ∃ r, operate op a b = .ok r ∧ r.map BitVec.toInt = bigintOp op a.toInt b.toInt := by
  cases op with
  | add =>
    refine ⟨_, rfl, map_toInt_guarded (fun h => ?_) BitVec.toInt_add_of_not_saddOverflow⟩
    simp only [BitVec.saddOverflow, Bool.or_eq_true, decide_eq_true_eq] at h
    unfold Fits
    omega
  | sub =>
    refine ⟨_, rfl, map_toInt_guarded (fun h => ?_) BitVec.toInt_sub_of_not_ssubOverflow⟩
    simp only [BitVec.ssubOverflow, Bool.or_eq_true, decide_eq_true_eq] at h
    unfold Fits
    omega
  | mul => exact ⟨_, rfl, map_toInt_times?⟩
  | div => exact ⟨_, rfl, map_toInt_quotient⟩
  | rem => exact ⟨_, rfl, map_toInt_remainder⟩
  | pow =>
    refine ⟨_, rfl, ?_⟩
    simp only [bigintOp, bigintPow_eq, toCount?]
    by_cases hcount : 0 ≤ b.toInt ∧ b.toInt < 2 ^ 32
    · rw [if_pos hcount, if_neg (by omega), Option.bind_some, map_toInt_power?]
    · rw [if_neg hcount, if_pos (by omega)]
      rfl
  | shiftLeft => exact shiftBy_eq a b
  | shiftRight =>
    simp only [operate, bigintOp]
    obtain ⟨hnone, hlow⟩ | ⟨o, hsome, hval, hlow⟩ := negate?_cases b
    · simp only [hnone]
      exact ⟨none, rfl, by rw [if_pos hlow, Option.map_none]⟩
    · have ho : o.toInt ≠ -(2 ^ 127) := by
        have hb := (fits b).2
        omega
      have hshift := shiftBy_eq a o
      rw [if_neg ho, hval] at hshift
      rw [hsome, if_neg hlow]
      exact hshift
  | bitAnd =>
    refine ⟨_, rfl, ?_⟩
    simp only [bigintOp, Option.map_some, bits128_toInt, ← BitVec.toNat_and, ofBits128_toNat]
  | bitOr =>
    refine ⟨_, rfl, ?_⟩
    simp only [bigintOp, Option.map_some, bits128_toInt, ← BitVec.toNat_or, ofBits128_toNat]
  | bitXor =>
    refine ⟨_, rfl, ?_⟩
    simp only [bigintOp, Option.map_some, bits128_toInt, ← BitVec.toNat_xor, ofBits128_toNat]
  | shiftRightUnsigned | equal | notEqual | strictEqual | strictNotEqual | less | lessEqual
  | greater | greaterEqual => exact ⟨none, rfl, rfl⟩

end Word

/-! ## No result is wrong -/

/-- An operator gives a big integer where the arithmetic behind it does. -/
theorem apply_eq_bigint_iff {op : BinaryOp} {a b v : Int} :
    op.apply (.bigint a) (.bigint b) = some (.bigint v) ↔ bigintOp op a b = some v := by
  cases op <;> simp [BinaryOp.apply, Value.toNumeric?, arithmetic, bigintOp]

theorem apply_negate (n : Int) :
    UnaryOp.negate.apply (.bigint n) = (checked (-n)).map .bigint := rfl

/-- **Big integers are never wrong.** For all words `a` and `b` and every operator:

* the steps of the machine never stop it, and give what the operator gives;
* that is the integer that the language computes whenever there is one, it fits into a word and the
  operands are none of those that are refused, and nothing otherwise: so it is nothing where the
  language raises an error;
* the same goes for the opposite, and for the complement, which always fits. -/
theorem bigint_never_wrong (op : BinaryOp) (a b : Word) :
    (∃ r, Word.operate op a b = .ok r ∧ r.map BitVec.toInt = bigintOp op a.toInt b.toInt) ∧
    (∀ v, bigintOp op a.toInt b.toInt = some v ↔
      exactOp op a.toInt b.toInt = some v ∧ Fits v ∧ ¬ Declined op a.toInt b.toInt) ∧
    (∀ v, op.apply (.bigint a.toInt) (.bigint b.toInt) = some (.bigint v) ↔
      bigintOp op a.toInt b.toInt = some v) ∧
    UnaryOp.negate.apply (.bigint a.toInt) = a.negate?.map (fun w => .bigint w.toInt) ∧
    (∀ v, UnaryOp.negate.apply (.bigint a.toInt) = some (.bigint v) ↔ -a.toInt = v ∧ Fits v) ∧
    UnaryOp.complement.apply (.bigint a.toInt) = some (.bigint (~~~a).toInt) ∧
    (~~~a).toInt = Int.lnot a.toInt := by
  refine ⟨Word.operate_eq op a b, fun v => bigintOp_eq_some_iff op (Word.fits a) (Word.fits b),
    fun v => apply_eq_bigint_iff, ?_, fun v => ?_, ?_, ?_⟩
  · rw [apply_negate, ← Word.map_toInt_negate?, Option.map_map]
    rfl
  · rw [apply_negate, ← checked_eq_some_iff, Option.map_eq_some_iff]
    simp
  · rw [Word.toInt_complement]
    rfl
  · rw [Word.toInt_complement]
    cases a.toInt with
    | ofNat m =>
      simp only [Int.lnot, Int.ofNat_eq_natCast]
      omega
    | negSucc m =>
      simp only [Int.lnot]
      omega

end DepScope.Script
