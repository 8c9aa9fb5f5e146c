import Mathlib
import DepScope.Proofs.Decimal.Rounding

/-!
# DepScope.Proofs.Decimal.Float

Finite doubles are their exact values.

1. A word of 64 bits that stands for a finite double is kept as it is (`toBits_ofBits`), so a double
   that is put together is taken apart again (`ofFloat_toFloat`), and the other way round
   (`toFloat_ofFloat`).
2. Significand and exponent of a double are those of its magnitude (`unpacks_of_ofFloat`).
3. Doubles are ordered by exponent first and significand second, which is the order of their values
   (`compare_of_ofFloat`), since a larger exponent comes with a significand of full length.
-/

namespace DepScope.Decimal

open Float.Model UnpackedFloat

variable {x y : Float} {s t : Bool} {u v : Nat}

/-! ## The fields of a word -/

section Fields

variable (b : BitVec Format.binary64.numBits)

theorem toNat_unpackMantissa : (unpackMantissa b).toNat = b.toNat % 2 ^ 52 := by
  simp [unpackMantissa]

theorem toNat_unpackExponent : (unpackExponent b).toNat = b.toNat / 2 ^ 52 % 2 ^ 11 := by
  simp [unpackExponent, Nat.shiftRight_eq_div_pow]

theorem toNat_unpackSign : (unpackSign b).toNat = b.toNat / 2 ^ 63 % 2 := by
  simp [unpackSign, Nat.shiftRight_eq_div_pow]

end Fields

/-! ## Words of finite doubles -/

section Words

variable {b : BitVec Format.binary64.numBits}

theorem unpack_zero (hexp : (unpackExponent b).toNat = 0) (hmant : (unpackMantissa b).toNat = 0) :
    UnpackedFloat.unpack .binary64 b = .zero (Sign.ofBitVec (unpackSign b)) := by
  have hE : unpackExponent b = 0#11 := BitVec.eq_of_toNat_eq hexp
  have hM : unpackMantissa b = 0#52 := BitVec.eq_of_toNat_eq hmant
  simp [UnpackedFloat.unpack, hE, hM]

theorem unpack_subnormal (hexp : (unpackExponent b).toNat = 0)
    (hmant : 0 < (unpackMantissa b).toNat) :
    UnpackedFloat.unpack .binary64 b
      = .finite (Sign.ofBitVec (unpackSign b)) (unpackMantissa b).toNat (-1074) hmant := by
  have hE : unpackExponent b = 0#11 := BitVec.eq_of_toNat_eq hexp
  have hM : unpackMantissa b ≠ 0#52 := fun h => by simp [h] at hmant
  simp [UnpackedFloat.unpack, hE, hM, Format.exponentBias]

theorem unpack_normal (hexp : 0 < (unpackExponent b).toNat)
    (hfinite : (unpackExponent b).toNat ≠ 0x7FF) :
    UnpackedFloat.unpack .binary64 b
      = .finite (Sign.ofBitVec (unpackSign b)) (2 ^ 52 + (unpackMantissa b).toNat)
          ((unpackExponent b).toNat - 1075) (by omega) := by
  have hE : unpackExponent b ≠ 0#11 := fun h => by simp [h] at hexp
  have hF : unpackExponent b ≠ 2047#11 := fun h => by simp [h] at hfinite
  have hlead : (1#1 ++ unpackMantissa b).toNat = 2 ^ 52 + (unpackMantissa b).toNat := by
    rw [BitVec.toNat_append, Nat.shiftLeft_eq, Nat.or_comm, BitVec.toNat_ofNat]
    change _ ||| 2 ^ 52 = _
    rw [Nat.or_two_pow_eq_add_of_lt (unpackMantissa b).isLt, Nat.add_comm]
  simp [UnpackedFloat.unpack, hE, hF, Format.exponentBias, hlead]

end Words

theorem toBits_ofBits {w : UInt64} (h : w.toNat / 2 ^ 52 % 2 ^ 11 ≠ 0x7FF) :
    (Float.ofBits w).toBits = w := by
  have hexp : @unpackExponent .binary64 w.toBitVec ≠ -1#11 := by
    intro heq
    apply h
    rw [UInt64.toNat, ← toNat_unpackExponent w.toBitVec, heq]
    rfl
  -- only the words of what is not a number are replaced, and their exponent field is full
  have hnumber : @isNaNBits .binary64 w.toBitVec = false := by
    rw [isNaNBits, decide_eq_false_iff_not]
    exact fun hnan => hexp hnan.1
  change UInt64.ofBitVec
    (UnpackedFloat.pack .binary64 (UnpackedFloat.unpack .binary64 w.toBitVec)) = w
  rw [pack_unpack, hnumber]
  rfl

/-! ## Magnitudes -/

/-- The sign of a double. -/
def signOf (negative : Bool) : Sign :=
  if negative then .negative else .positive

theorem log2_of_full {m : Nat} (hlow : 2 ^ 52 ≤ m) (hhigh : m < 2 ^ 53) : m.log2 = 52 :=
  (Nat.log2_eq_iff (by omega)).mpr ⟨hlow, hhigh⟩

/-- The fields of a magnitude whose significand is of full length. -/
theorem magnitudeBits_of_full {m low : Nat} (hge : 2 ^ 52 ≤ m) (hlt : m < 2 ^ 53)
    (hle : low ≤ 2045) :
    Binary.magnitudeBits (m * 2 ^ low) = (low + 1) * 2 ^ 52 + (m - 2 ^ 52) := by
  have hpos : 0 < 2 ^ low := Nat.two_pow_pos _
  have hbig : ¬ m * 2 ^ low < 2 ^ 52 := by
    have := Nat.mul_le_mul hge hpos
    omega
  have hspacing : spacing (m * 2 ^ low) = low := by
    rw [spacing, log2_mul_two_pow (by omega), log2_of_full hge hlt]
    omega
  rw [Binary.magnitudeBits, if_neg hbig]
  simp only [hspacing]
  rw [if_neg (by omega), Nat.mul_div_cancel m hpos]

/-- The two fields of a magnitude, and what they stand for. -/
theorem exists_fields (h : IsDouble u) :
    ∃ e f, e < 0x7FF ∧ f < 2 ^ 52 ∧ Binary.magnitudeBits u = e * 2 ^ 52 + f ∧
      u = if e = 0 then f else (2 ^ 52 + f) * 2 ^ (e - 1) := by
  obtain ⟨m, low, hm, rfl⟩ := h
  have hlt := hm.lt
  have hle := hm.le
  by_cases hsmall : m < 2 ^ 52
  · have hlow : low = 0 := hm.full.resolve_left (by omega)
    refine ⟨0, m, by decide, hsmall, ?_, ?_⟩
    · rw [Binary.magnitudeBits, hlow, Nat.pow_zero, Nat.mul_one, if_pos hsmall]
      omega
    · rw [if_pos rfl, hlow, Nat.pow_zero, Nat.mul_one]
  · have hbits := magnitudeBits_of_full (Nat.not_lt.mp hsmall) hlt hle
    refine ⟨low + 1, m - 2 ^ 52, by omega, by omega, hbits, ?_⟩
    rw [if_neg (by omega), Nat.add_sub_cancel, Nat.add_sub_cancel' (by omega)]

theorem ofFloat_of_fields {e f : Nat} (he : e < 0x7FF) (hf : f < 2 ^ 52)
    (hbits : x.toBits.toNat = e * 2 ^ 52 + f + if s then 2 ^ 63 else 0) :
    Binary.ofFloat x = .finite s (if e = 0 then f else (2 ^ 52 + f) * 2 ^ (e - 1)) := by
  have hexponent : x.toBits.toNat / 2 ^ 52 % 2 ^ 11 = e := by
    rw [hbits]
    split <;> omega
  have hfraction : x.toBits.toNat % 2 ^ 52 = f := by
    rw [hbits]
    split <;> omega
  have hbit : x.toBits.toNat / 2 ^ 63 % 2 = if s then 1 else 0 := by
    rw [hbits]
    split <;> omega
  have hsign : (x.toBits.toNat / 2 ^ 63 % 2 == 1) = s := by
    rw [hbit]
    cases s <;> rfl
  simp only [Binary.ofFloat, hexponent, hfraction, hsign]
  rw [if_neg (by omega)]
  split <;> rfl

/-- **A double that is put together is taken apart again.** -/
theorem ofFloat_toFloat (h : IsDouble u) :
    Binary.ofFloat (Binary.toFloat (.finite s u)) = .finite s u := by
  obtain ⟨e, f, he, hf, hfields, hu⟩ := exists_fields h
  have hword : (UInt64.ofNat (e * 2 ^ 52 + f + if s then 2 ^ 63 else 0)).toNat
      = e * 2 ^ 52 + f + if s then 2 ^ 63 else 0 := by
    rw [UInt64.toNat_ofNat']
    apply Nat.mod_eq_of_lt
    split <;> omega
  have hbits : (Binary.toFloat (.finite s u)).toBits.toNat
      = e * 2 ^ 52 + f + if s then 2 ^ 63 else 0 := by
    rw [Binary.toFloat, Binary.toFloat.signed, hfields, toBits_ofBits, hword]
    rw [hword]
    split <;> omega
  rw [ofFloat_of_fields he hf hbits, ← hu]

/-- The fields of a finite double are those of its magnitude. -/
theorem toNat_toBits_of_ofFloat (h : Binary.ofFloat x = .finite s u) :
    x.toBits.toNat = Binary.magnitudeBits u + if s then 2 ^ 63 else 0 := by
  have hword : x.toBits.toNat < 2 ^ 64 := x.toBits.toNat_lt
  simp only [Binary.ofFloat] at h
  generalize x.toBits.toNat = bits at h hword ⊢
  split at h
  · split at h <;> cases h
  · next hfinite =>
    have hsign : (if (bits / 2 ^ 63 % 2 == 1) = true then 2 ^ 63 else 0) =
        bits / 2 ^ 63 % 2 * 2 ^ 63 := by
      simp only [beq_iff_eq]
      split <;> omega
    split at h
    · next hzero =>
      cases h
      rw [hsign, Binary.magnitudeBits, if_pos (Nat.mod_lt _ (by decide))]
      omega
    · next hnonzero =>
      cases h
      rw [hsign, magnitudeBits_of_full (by omega) (by omega) (by omega)]
      omega

/-- **A finite double that is taken apart is put together again.** -/
theorem toFloat_ofFloat (h : Binary.ofFloat x = .finite s u) :
    Binary.toFloat (.finite s u) = x := by
  rw [Binary.toFloat, Binary.toFloat.signed, ← toNat_toBits_of_ofFloat h, UInt64.ofNat_toNat,
    Float.ofBits_toBits]

/-! ## Order -/

theorem ofBitVec_unpackSign (b : BitVec Format.binary64.numBits) :
    Sign.ofBitVec (unpackSign b) = signOf (b.toNat / 2 ^ 63 % 2 == 1) := by
  rw [← toNat_unpackSign]
  obtain h | h := BitVec.eq_zero_or_eq_one (unpackSign b)
  · rw [h]
    rfl
  · rw [h]
    rfl

/-- Significand and exponent that a double of a magnitude has. -/
inductive Unpacks (negative : Bool) : Nat → UnpackedFloat → Prop
  | zero : Unpacks negative 0 (.zero (signOf negative))
  | finite {m low : Nat} (hpos : 0 < m) (h : Significand m low) :
    Unpacks negative (m * 2 ^ low) (.finite (signOf negative) m (low - 1074) hpos)

theorem unpacks_of_ofFloat (h : Binary.ofFloat x = .finite s u) : Unpacks s u x.toModel.unpack := by
  have hunpack : x.toModel.unpack = UnpackedFloat.unpack .binary64 x.toBits.toBitVec := rfl
  have hexp : _ = x.toBits.toNat / 2 ^ 52 % 2 ^ 11 := @toNat_unpackExponent x.toBits.toBitVec
  have hmant : _ = x.toBits.toNat % 2 ^ 52 := @toNat_unpackMantissa x.toBits.toBitVec
  have hsign : _ = signOf (x.toBits.toNat / 2 ^ 63 % 2 == 1) :=
    ofBitVec_unpackSign x.toBits.toBitVec
  have hlt : x.toBits.toNat % 2 ^ 52 < 2 ^ 52 := Nat.mod_lt _ (by decide)
  simp only [Binary.ofFloat] at h
  split at h
  · split at h <;> cases h
  · next hfinite =>
    split at h
    · next hzero =>
      cases h
      obtain hnone | hsome := Nat.eq_zero_or_pos (x.toBits.toNat % 2 ^ 52)
      · rw [hunpack, unpack_zero (hexp.trans hzero) (hmant.trans hnone), hsign, hnone]
        exact .zero
      · have hunits := @Unpacks.finite (x.toBits.toNat / 2 ^ 63 % 2 == 1)
          (x.toBits.toNat % 2 ^ 52) 0 hsome ⟨by omega, .inr rfl, by decide⟩
        rw [Nat.pow_zero, Nat.mul_one] at hunits
        rw [hunpack, unpack_subnormal (hexp.trans hzero) (hmant ▸ hsome), hsign]
        simpa only [hmant, Int.natCast_zero, Int.zero_sub] using hunits
    · next hnonzero =>
      cases h
      have hunits := @Unpacks.finite (x.toBits.toNat / 2 ^ 63 % 2 == 1)
        (2 ^ 52 + x.toBits.toNat % 2 ^ 52) (x.toBits.toNat / 2 ^ 52 % 2 ^ 11 - 1) (by omega)
        ⟨by omega, .inl (by omega), by omega⟩
      have hshift : ((x.toBits.toNat / 2 ^ 52 % 2 ^ 11 - 1 : Nat) : Int) - 1074
          = (x.toBits.toNat / 2 ^ 52 % 2 ^ 11 : Nat) - 1075 := by omega
      rw [hunpack, unpack_normal (by omega) (by omega), hsign]
      simpa only [hmant, hexp, hshift] using hunits

theorem Unpacks.isDouble {f : UnpackedFloat} (h : Unpacks s u f) : IsDouble u := by
  cases h with
  | zero => exact ⟨0, 0, ⟨by decide, .inr rfl, by decide⟩, rfl⟩
  | finite hpos h => exact ⟨_, _, h, rfl⟩

/-- The value of a finite double, in units. -/
def signedUnits (negative : Bool) (units : Nat) : Int :=
  if negative then -units else units

@[simp] theorem signedUnits_zero : signedUnits s 0 = 0 := by
  cases s <;> rfl

@[simp] theorem signedUnits_false : signedUnits false u = u := rfl

@[simp] theorem signedUnits_true : signedUnits true u = -u := rfl

section Magnitudes

variable {m n k l : Nat}

/-- A larger exponent makes up for every significand, since it comes with one of full length. -/
theorem lt_of_exponent_lt (hm : Significand m k) (hn : Significand n l) (h : k < l) :
    m * 2 ^ k < n * 2 ^ l := by
  have hfull : 2 ^ 52 ≤ n := hn.full.resolve_right (by omega)
  calc m * 2 ^ k < 2 ^ 53 * 2 ^ k := Nat.mul_lt_mul_of_pos_right hm.lt (Nat.two_pow_pos k)
    _ = 2 ^ 52 * 2 ^ (k + 1) := by rw [← Nat.pow_add, ← Nat.pow_add]; congr 1; omega
    _ ≤ n * 2 ^ l := Nat.mul_le_mul hfull (Nat.pow_le_pow_right (by decide) h)

/-- The order of the exponents, then of the significands, is the order of the magnitudes. -/
theorem compare_significands (hm : Significand m k) (hn : Significand n l) :
    (compare ((k : Int) - 1074) ((l : Int) - 1074)).then (compare m n)
      = compare (m * 2 ^ k) (n * 2 ^ l) := by
  obtain hlt | rfl | hgt := Nat.lt_trichotomy k l
  · rw [Int.compare_eq_lt.mpr (by omega), Nat.compare_eq_lt.mpr (lt_of_exponent_lt hm hn hlt)]
    rfl
  · have hpos : 0 < 2 ^ k := Nat.two_pow_pos k
    rw [Int.compare_eq_eq.mpr rfl, Ordering.eq_then]
    obtain hlt | rfl | hgt := Nat.lt_trichotomy m n
    · rw [Nat.compare_eq_lt.mpr hlt, Nat.compare_eq_lt.mpr (Nat.mul_lt_mul_of_pos_right hlt hpos)]
    · rw [Nat.compare_eq_eq.mpr rfl, Nat.compare_eq_eq.mpr rfl]
    · rw [Nat.compare_eq_gt.mpr hgt, Nat.compare_eq_gt.mpr (Nat.mul_lt_mul_of_pos_right hgt hpos)]
  · rw [Int.compare_eq_gt.mpr (by omega), Nat.compare_eq_gt.mpr (lt_of_exponent_lt hn hm hgt)]
    rfl

end Magnitudes

theorem compare_natCast (u v : Nat) : compare (u : Int) (v : Int) = compare u v := by
  obtain hlt | rfl | hgt := Nat.lt_trichotomy u v
  · rw [Nat.compare_eq_lt.mpr hlt, Int.compare_eq_lt.mpr (by omega)]
  · rw [Nat.compare_eq_eq.mpr rfl, Int.compare_eq_eq.mpr rfl]
  · rw [Nat.compare_eq_gt.mpr hgt, Int.compare_eq_gt.mpr (by omega)]

theorem compare_neg_natCast (u v : Nat) : compare (-u : Int) (-v : Int) = (compare u v).swap := by
  rw [Nat.compare_swap, ← compare_natCast]
  obtain hlt | rfl | hgt := Nat.lt_trichotomy u v
  · rw [Int.compare_eq_gt.mpr (by omega), Int.compare_eq_gt.mpr (by omega)]
  · rw [Int.compare_eq_eq.mpr rfl, Int.compare_eq_eq.mpr rfl]
  · rw [Int.compare_eq_lt.mpr (by omega), Int.compare_eq_lt.mpr (by omega)]

theorem Unpacks.compare {f g : UnpackedFloat} (hf : Unpacks s u f) (hg : Unpacks t v g) :
    f.compare g = some (compare (signedUnits s u) (signedUnits t v)) := by
  cases hf with
  | zero =>
    cases hg with
    | zero => cases s <;> cases t <;> rfl
    | @finite n l hpos h =>
      have hunits : 0 < n * 2 ^ l := Nat.mul_pos hpos (Nat.two_pow_pos l)
      cases t with
      | false =>
        rw [signedUnits_zero, signedUnits_false, Int.compare_eq_lt.mpr (by omega)]
        rfl
      | true =>
        rw [signedUnits_zero, signedUnits_true, Int.compare_eq_gt.mpr (by omega)]
        rfl
  | @finite m k hpos h =>
    have hunits : 0 < m * 2 ^ k := Nat.mul_pos hpos (Nat.two_pow_pos k)
    cases hg with
    | zero =>
      cases s with
      | false =>
        rw [signedUnits_zero, signedUnits_false, Int.compare_eq_gt.mpr (by omega)]
        rfl
      | true =>
        rw [signedUnits_zero, signedUnits_true, Int.compare_eq_lt.mpr (by omega)]
        rfl
    | @finite n l hpos' h' =>
      have hunits' : 0 < n * 2 ^ l := Nat.mul_pos hpos' (Nat.two_pow_pos l)
      cases s with
      | false =>
        cases t with
        | false =>
          rw [signedUnits_false, signedUnits_false, compare_natCast, ← compare_significands h h']
          rfl
        | true =>
          rw [signedUnits_false, signedUnits_true, Int.compare_eq_gt.mpr (by omega)]
          rfl
      | true =>
        cases t with
        | false =>
          rw [signedUnits_false, signedUnits_true, Int.compare_eq_lt.mpr (by omega)]
          rfl
        | true =>
          rw [signedUnits_true, signedUnits_true, compare_neg_natCast, ← compare_significands h h']
          rfl

/-- **Finite doubles are ordered as their values.** -/
theorem compare_of_ofFloat (hx : Binary.ofFloat x = .finite s u)
    (hy : Binary.ofFloat y = .finite t v) :
    x.toModel.unpack.compare y.toModel.unpack
      = some (compare (signedUnits s u) (signedUnits t v)) :=
  (unpacks_of_ofFloat hx).compare (unpacks_of_ofFloat hy)

theorem float_lt_iff : x < y ↔ x.toModel.unpack.compare y.toModel.unpack = some .lt := by
  change decide ((x.toModel.unpack.compare y.toModel.unpack == some .lt) = true) = true ↔ _
  simp

theorem float_beq_iff : (x == y) = true ↔ x.toModel.unpack.compare y.toModel.unpack = some .eq := by
  change (x.toModel.unpack.compare y.toModel.unpack == some .eq) = true ↔ _
  simp

end DepScope.Decimal
