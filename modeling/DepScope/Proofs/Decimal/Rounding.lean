import DepScope.Decimal.Binary

/-!
# DepScope.Proofs.Decimal.Rounding

Rounding to the nearest double, on magnitudes in units of `2^-1074`.

1. `roundDiv` keeps order and gives multiples back.
2. A magnitude is rounded to one between the two powers of two around it, so rounding keeps order also
   where the spacing changes (`nearest_mono`).
3. The result is the magnitude of a double (`isDouble_nearest`), and every integer up to `2^53` is
   its own nearest double (`unitsOfRatio_of_le`).
-/

namespace DepScope.Decimal

variable {n m d k x y u : Nat}

/-! ## The nearest integer -/

theorem roundDiv_cases (n d : Nat) :
    (roundDiv n d = n / d ∧ 2 * (n % d) ≤ d) ∨ (roundDiv n d = n / d + 1 ∧ d ≤ 2 * (n % d)) := by
  unfold roundDiv
  dsimp only
  split
  · exact .inl ⟨rfl, by omega⟩
  · split
    · exact .inr ⟨rfl, by omega⟩
    · split
      · exact .inl ⟨rfl, by omega⟩
      · exact .inr ⟨rfl, by omega⟩

theorem roundDiv_mul (hd : 0 < d) (k : Nat) : roundDiv (k * d) d = k := by
  obtain ⟨h, _⟩ | ⟨_, h⟩ := roundDiv_cases (k * d) d
  · rw [h, Nat.mul_div_cancel k hd]
  · rw [Nat.mul_mod_left] at h
    omega

/-- Rounding keeps order: between two integers with the same quotient, the larger one has the larger
remainder, and a tie is settled by the quotient alone. -/
theorem roundDiv_mono (d : Nat) (h : n ≤ m) : roundDiv n d ≤ roundDiv m d := by
  have hquot : n / d ≤ m / d := Nat.div_le_div_right h
  by_cases heq : n / d = m / d
  · have hn := Nat.div_add_mod n d
    have hm := Nat.div_add_mod m d
    rw [heq] at hn
    have hrem : n % d ≤ m % d := by omega
    simp only [roundDiv, heq]
    grind
  · have hn : roundDiv n d ≤ n / d + 1 := by
      obtain ⟨h, _⟩ | ⟨h, _⟩ := roundDiv_cases n d <;> omega
    have hm : m / d ≤ roundDiv m d := by
      obtain ⟨h, _⟩ | ⟨h, _⟩ := roundDiv_cases m d <;> omega
    omega

/-! ## The nearest double -/

/-- The magnitude of the double nearest to a magnitude. -/
def nearest (x : Nat) : Nat :=
  roundDiv x (2 ^ spacing x) * 2 ^ spacing x

theorem unitsOfRatio_one (n : Nat) : unitsOfRatio n 1 = nearest (n * 2 ^ unitBits) := by
  simp only [unitsOfRatio, nearest, Nat.div_one, Nat.one_mul]

theorem nearest_of_dvd (h : 2 ^ spacing x ∣ x) : nearest x = x := by
  obtain ⟨k, hk⟩ := h
  have hround : roundDiv x (2 ^ spacing x) = k := by
    conv => lhs; arg 1; rw [hk, Nat.mul_comm]
    exact roundDiv_mul (Nat.two_pow_pos _) k
  rw [nearest, hround, Nat.mul_comm, ← hk]

theorem spacing_le_log2 (x : Nat) : spacing x ≤ x.log2 :=
  Nat.sub_le _ _

/-- The quotient of a ratio, rounded at the ratio's own spacing, lies between two powers of two. -/
theorem roundDiv_ratio_bounds {den : Nat} (hden : 0 < den) (x : Nat) :
    (x / den ≠ 0 → 2 ^ ((x / den).log2 - spacing (x / den)) ≤
      roundDiv x (den * 2 ^ spacing (x / den))) ∧
    roundDiv x (den * 2 ^ spacing (x / den)) ≤
      2 ^ ((x / den).log2 - spacing (x / den) + 1) := by
  have hs := spacing_le_log2 (x / den)
  generalize spacing (x / den) = s at hs ⊢
  have hd : 0 < den * 2 ^ s := Nat.mul_pos hden (Nat.two_pow_pos s)
  constructor
  · intro h
    have hlow : 2 ^ ((x / den).log2 - s) * (den * 2 ^ s) ≤ x := by
      rw [Nat.mul_left_comm, ← Nat.pow_add, Nat.sub_add_cancel hs, Nat.mul_comm]
      exact (Nat.le_div_iff_mul_le hden).mp (Nat.log2_self_le h)
    have hmono := roundDiv_mono (den * 2 ^ s) hlow
    rwa [roundDiv_mul hd] at hmono
  · have hhigh : x ≤ 2 ^ ((x / den).log2 - s + 1) * (den * 2 ^ s) := by
      rw [Nat.mul_left_comm, ← Nat.pow_add, Nat.add_right_comm, Nat.sub_add_cancel hs,
        Nat.mul_comm]
      exact Nat.le_of_lt ((Nat.div_lt_iff_lt_mul hden).mp Nat.lt_log2_self)
    have hmono := roundDiv_mono (den * 2 ^ s) hhigh
    rwa [roundDiv_mul hd] at hmono

/-- The quotient that is rounded lies between two powers of two. -/
theorem roundDiv_spacing_bounds (h : x ≠ 0) :
    2 ^ (x.log2 - spacing x) ≤ roundDiv x (2 ^ spacing x) ∧
      roundDiv x (2 ^ spacing x) ≤ 2 ^ (x.log2 - spacing x + 1) := by
  have hbounds := roundDiv_ratio_bounds Nat.one_pos x
  rw [Nat.div_one, Nat.one_mul] at hbounds
  exact ⟨hbounds.1 h, hbounds.2⟩

theorem pow_log2_le_nearest (h : x ≠ 0) : 2 ^ x.log2 ≤ nearest x := by
  have hbound := Nat.mul_le_mul_right (2 ^ spacing x) (roundDiv_spacing_bounds h).1
  rwa [← Nat.pow_add, Nat.sub_add_cancel (spacing_le_log2 x)] at hbound

theorem nearest_le_pow_log2 (h : x ≠ 0) : nearest x ≤ 2 ^ (x.log2 + 1) := by
  have hbound := Nat.mul_le_mul_right (2 ^ spacing x) (roundDiv_spacing_bounds h).2
  rwa [← Nat.pow_add, Nat.add_right_comm, Nat.sub_add_cancel (spacing_le_log2 x)] at hbound

@[simp] theorem nearest_zero : nearest 0 = 0 := by
  decide

theorem nearest_pos (h : 0 < x) : 0 < nearest x :=
  Nat.lt_of_lt_of_le (Nat.two_pow_pos _) (pow_log2_le_nearest (Nat.ne_of_gt h))

/-- **Rounding keeps order.** -/
theorem nearest_mono (h : x ≤ y) : nearest x ≤ nearest y := by
  obtain rfl | hx := Nat.eq_zero_or_pos x
  · rw [nearest_zero]
    exact Nat.zero_le _
  have hy : y ≠ 0 := by omega
  have hlog : x.log2 ≤ y.log2 := (Nat.le_log2 hy).mpr
    (Nat.le_trans (Nat.log2_self_le (Nat.ne_of_gt hx)) h)
  obtain heq | hlt := Nat.eq_or_lt_of_le hlog
  · have hs : spacing x = spacing y := by rw [spacing, spacing, heq]
    rw [nearest, nearest, hs]
    exact Nat.mul_le_mul_right _ (roundDiv_mono _ h)
  · -- a power of two lies between the two
    calc nearest x ≤ 2 ^ (x.log2 + 1) := nearest_le_pow_log2 (Nat.ne_of_gt hx)
      _ ≤ 2 ^ y.log2 := Nat.pow_le_pow_right (by decide) hlt
      _ ≤ nearest y := pow_log2_le_nearest hy

/-! ## Magnitudes of doubles -/

/-- A significand of at most 53 bits and an exponent, as a double keeps them: all 53 bits are used
unless the exponent is the least one. -/
structure Significand (m low : Nat) : Prop where
  lt : m < 2 ^ 53
  full : 2 ^ 52 ≤ m ∨ low = 0
  le : low ≤ 2045

/-- The magnitude of a double. -/
def IsDouble (units : Nat) : Prop :=
  ∃ m low, Significand m low ∧ units = m * 2 ^ low

theorem isDouble_nearest (h : spacing x < 2045) : IsDouble (nearest x) := by
  obtain rfl | hx := Nat.eq_zero_or_pos x
  · exact ⟨0, 0, ⟨by decide, .inr rfl, by decide⟩, by rw [nearest_zero, Nat.zero_mul]⟩
  obtain ⟨hlow, hhigh⟩ := roundDiv_spacing_bounds (Nat.ne_of_gt hx)
  have hwidth : x.log2 - spacing x ≤ 52 := by unfold spacing; omega
  have hfull : 2 ^ 52 ≤ roundDiv x (2 ^ spacing x) ∨ spacing x = 0 := by
    by_cases h0 : spacing x = 0
    · exact .inr h0
    · have hw : x.log2 - spacing x = 52 := by unfold spacing at h0 ⊢; omega
      rw [hw] at hlow
      exact .inl hlow
  have hle : roundDiv x (2 ^ spacing x) ≤ 2 ^ 53 :=
    Nat.le_trans hhigh (Nat.pow_le_pow_right (by decide) (by omega))
  obtain hlt | heq := Nat.lt_or_eq_of_le hle
  · exact ⟨_, _, ⟨hlt, hfull, Nat.le_of_lt h⟩, rfl⟩
  · -- the significand is rounded up to the next power of two: one bit fewer, one more below
    refine ⟨2 ^ 52, spacing x + 1, ⟨by decide, .inl (Nat.le_refl _), h⟩, ?_⟩
    rw [nearest, heq, ← Nat.pow_add, ← Nat.pow_add]
    congr 1
    omega

/-! ## Integers -/

theorem log2_mul_two_pow (hn : n ≠ 0) (k : Nat) : (n * 2 ^ k).log2 = n.log2 + k := by
  have hpos : 0 < 2 ^ k := Nat.two_pow_pos _
  apply (Nat.log2_eq_iff (Nat.mul_ne_zero hn (Nat.ne_of_gt hpos))).mpr
  constructor
  · rw [Nat.pow_add]
    exact Nat.mul_le_mul_right _ (Nat.log2_self_le hn)
  · rw [Nat.add_right_comm, Nat.pow_add]
    exact Nat.mul_lt_mul_of_pos_right Nat.lt_log2_self hpos

theorem spacing_scaled (hn : n ≠ 0) : spacing (n * 2 ^ unitBits) = n.log2 + unitBits - 52 := by
  rw [spacing, log2_mul_two_pow hn]

/-- **Integers of at most 53 bits are doubles,** and so is the next power of two. -/
theorem unitsOfRatio_of_le (h : n ≤ 2 ^ 53) : unitsOfRatio n 1 = n * 2 ^ unitBits := by
  rw [unitsOfRatio_one]
  apply nearest_of_dvd
  obtain rfl | hn := Nat.eq_zero_or_pos n
  · rw [Nat.zero_mul]
    exact Nat.dvd_zero _
  obtain hlt | rfl := Nat.lt_or_eq_of_le h
  · have hlog : n.log2 < 53 := (Nat.log2_lt (Nat.ne_of_gt hn)).mpr hlt
    have hle : spacing (n * 2 ^ unitBits) ≤ unitBits := by
      rw [spacing_scaled (Nat.ne_of_gt hn)]
      omega
    exact Nat.dvd_mul_left_of_dvd (Nat.pow_dvd_pow 2 hle) n
  · rw [← Nat.pow_add, spacing, Nat.log2_two_pow]
    exact Nat.pow_dvd_pow 2 (Nat.sub_le _ _)

theorem isDouble_unitsOfRatio (h : n < 2 ^ 128) : IsDouble (unitsOfRatio n 1) := by
  rw [unitsOfRatio_one]
  apply isDouble_nearest
  obtain rfl | hn := Nat.eq_zero_or_pos n
  · rw [Nat.zero_mul]
    decide
  · have hlog : n.log2 < 128 := (Nat.log2_lt (Nat.ne_of_gt hn)).mpr h
    rw [spacing_scaled (Nat.ne_of_gt hn), unitBits]
    omega

theorem unitsOfRatio_mono (h : n ≤ m) : unitsOfRatio n 1 ≤ unitsOfRatio m 1 := by
  rw [unitsOfRatio_one, unitsOfRatio_one]
  exact nearest_mono (Nat.mul_le_mul_right _ h)

end DepScope.Decimal
