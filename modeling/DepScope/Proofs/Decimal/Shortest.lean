import DepScope.Decimal.Shortest

/-!
# DepScope.Proofs.Decimal.Shortest

The digits of a positive magnitude are those of a positive number, so their text starts with another
digit than zero (`shortest_pos`). Nothing is said here about how good the digits are.

A point that a grid offers lies in the interval of the double, which zero does not. The point that
is taken when no grid offers one lies at most a factor of ten below the value.
-/

namespace DepScope.Decimal

variable {units : Nat} {iv : Interval} {e k : Int} {tie : Tie}

/-! ## Points of a grid -/

theorem pow_spacing_le (h : 0 < units) : 2 ^ spacing units ≤ units := by
  have hlog : 2 ^ units.log2 ≤ units := Nat.log2_self_le (by omega)
  have hle : 2 ^ spacing units ≤ 2 ^ units.log2 :=
    Nat.pow_le_pow_right (by decide) (Nat.sub_le _ _)
  exact Nat.le_trans hle hlog

/-- The interval of a positive magnitude lies above zero. -/
theorem Interval.low_pos (h : 0 < units) : 0 < (Interval.ofUnits units).low := by
  have hle := pow_spacing_le h
  simp only [Interval.ofUnits]
  split <;> omega

theorem Interval.holds_zero (h : 0 < iv.low) : iv.holds e 0 = false := by
  have hlo : 0 < iv.low * tenTo (-e) := Nat.mul_pos h (Nat.pow_pos (by decide))
  simp only [Interval.holds, Nat.zero_mul]
  split
  · simp only [decide_eq_false_iff_not]
    omega
  · simp only [decide_eq_false_iff_not]
    omega

/-- The point that a grid offers lies in the interval. -/
theorem holds_of_choose? {c d : Nat} (hd : choose? tie iv e c = some d) : iv.holds e d = true := by
  simp only [choose?] at hd
  generalize 2 * iv.center * tenTo (-e) = twice at hd
  generalize (2 * c + 1) * tenTo e * 2 ^ (unitBits + 2) = middle at hd
  split at hd
  · cases hd
  · next hlow _ =>
    cases hd
    exact hlow
  · next hhigh =>
    cases hd
    exact hhigh
  · -- both neighbours do, so it does not matter which one is taken
    next hlow hhigh =>
    have hboth : d = c ∨ d = c + 1 := by grind
    obtain rfl | rfl := hboth
    · exact hlow
    · exact hhigh

theorem choose?_pos {c d : Nat} (h : 0 < iv.low) (hd : choose? tie iv e c = some d) : 0 < d := by
  refine Nat.pos_of_ne_zero fun h0 => ?_
  have hin := holds_of_choose? hd
  rw [h0, Interval.holds_zero h] at hin
  cases hin

theorem Digits.ofGrid_pos {c n : Nat} (h : 0 < c) : 0 < (Digits.ofGrid c e n).digits := by
  unfold Digits.ofGrid
  split
  · exact Nat.pow_pos (by decide)
  · exact h

/-! ## The point below the value -/

theorem gridBelow_pos (h : 2 ^ unitBits * tenTo e ≤ units * tenTo (-e)) :
    0 < gridBelow units e :=
  Nat.div_pos h (Nat.mul_pos (Nat.pow_pos (by decide)) (Nat.pow_pos (by decide)))

/-- The search for the first digit after the point ends at it, or at its bound. -/
theorem zerosAfterPoint_spec (units fuel scale : Nat) :
    zerosAfterPoint units fuel scale = fuel ∨
      2 ^ unitBits ≤ units * scale * 10 ^ (zerosAfterPoint units fuel scale + 1) := by
  induction fuel generalizing scale with
  | zero => exact .inl rfl
  | succ fuel ih =>
    simp only [zerosAfterPoint]
    split
    · next h => exact .inr (by simpa using h)
    · obtain h | h := ih (scale * 10)
      · exact .inl (by rw [h])
      · refine .inr ?_
        rw [Nat.pow_succ, Nat.mul_comm (10 ^ _) 10, ← Nat.mul_assoc, Nat.mul_assoc units]
        exact h

theorem pow_length_le {n : Nat} (h : 0 < n) : 10 ^ ((Nat.toDigits 10 n).length - 1) ≤ n := by
  by_cases hk : 0 < (Nat.toDigits 10 n).length - 1
  · have := Nat.length_toDigits_le_iff (n := n) (b := 10) (by decide) hk
    omega
  · rw [Nat.eq_zero_of_not_pos hk]
    exact h

theorem lt_pow_length (n : Nat) : n < 10 ^ (Nat.toDigits 10 n).length :=
  (Nat.length_toDigits_le_iff (by decide) (List.length_pos_iff.mpr Nat.toDigits_ne_nil)).mp
    (Nat.le_refl _)

theorem pow_unitBits_le : 2 ^ unitBits ≤ 10 ^ (330 + 18) := by decide +kernel

/-- Eighteen digits of a positive magnitude are not all zero. -/
theorem gridBelow_magnitude_pos (h : 0 < units) : 0 < gridBelow units (magnitude units - 18) := by
  apply gridBelow_pos
  simp only [magnitude]
  split
  · -- below one: the digits reach past the zeros after the point
    next hw =>
    have hz := zerosAfterPoint_spec units 330 1
    generalize zerosAfterPoint units 330 1 = z at hz ⊢
    have hdown : (-(z : Int) - 18).toNat = 0 := by omega
    have hup : (-(-(z : Int) - 18)).toNat = z + 18 := by omega
    rw [tenTo, tenTo, hdown, hup, Nat.pow_zero, Nat.mul_one]
    obtain rfl | hz := hz
    · exact Nat.le_trans pow_unitBits_le (Nat.le_mul_of_pos_left _ h)
    · rw [Nat.mul_one] at hz
      exact Nat.le_trans hz (Nat.mul_le_mul_left _ (Nat.pow_le_pow_right (by decide) (by omega)))
  · -- from one on: the digits before the point are enough
    next hw =>
    have hten : tenTo ((Nat.toDigits 10 (units / 2 ^ unitBits)).length - 18 : Int) ≤
        units / 2 ^ unitBits :=
      Nat.le_trans (Nat.pow_le_pow_right (by decide) (by omega))
        (pow_length_le (Nat.pos_of_ne_zero hw))
    calc 2 ^ unitBits * tenTo _ ≤ 2 ^ unitBits * (units / 2 ^ unitBits) :=
          Nat.mul_le_mul_left _ hten
      _ ≤ units := Nat.mul_div_le _ _
      _ ≤ units * tenTo _ := Nat.le_mul_of_pos_right _ (Nat.pow_pos (by decide))

/-! ## The search -/

theorem search_pos {fuel n : Nat} (h : 0 < iv.low)
    (hlast : 0 < gridBelow units (k - (n + fuel : Nat))) :
    0 < (search tie units iv k fuel n).digits := by
  induction fuel generalizing n with
  | zero => exact hlast
  | succ fuel ih =>
    simp only [search]
    split
    · next c hc => exact Digits.ofGrid_pos (choose?_pos h hc)
    · exact ih (by rwa [Nat.add_assoc, Nat.add_comm 1])

/-- The digits of a positive magnitude are not zero. -/
theorem shortest_pos (h : 0 < units) : 0 < (shortest tie units).digits :=
  search_pos (Interval.low_pos h) (gridBelow_magnitude_pos h)

end DepScope.Decimal
