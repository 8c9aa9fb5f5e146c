import Mathlib
import DepScope.Decimal.Shortest
import DepScope.Proofs.Decimal.Rounding

/-!
# DepScope.Proofs.Decimal.Interval

The interval of a double holds exactly the decimals that are read as this double.

1. A quotient is rounded to an integer iff it lies within one half of it, where the two ends belong
   to an even integer (`roundDiv_eq_iff`).
2. A ratio is rounded to a double between the two powers of two around it
   (`pow_log2_le_nearestRatio`, `nearestRatio_le_pow_log2`), so only ratios that are resolved as
   finely as the double, or just below a power of two, can be rounded to it.
3. With these two, rounding and the interval are compared for each spacing of the ratio
   (`nearestRatio_eq_iff`), and the interval's own test is what reading says (`holds_iff_readsAs`).
-/

namespace DepScope.Decimal

variable {n m d r low num den : Nat}

/-! ## Between two ends -/

/-- Between two ends, which belong to it or not. -/
def Within {α : Type*} [LE α] [LT α] (closed : Bool) (lo x hi : α) : Prop :=
  if closed then lo ≤ x ∧ x ≤ hi else lo < x ∧ x < hi

theorem Within.le {α : Type*} [Preorder α] {closed : Bool} {lo x hi : α}
    (h : Within closed lo x hi) : lo ≤ x ∧ x ≤ hi := by
  unfold Within at h
  split at h
  · exact h
  · exact ⟨h.1.le, h.2.le⟩

theorem Within.of_lt {α : Type*} [Preorder α] {closed : Bool} {lo x hi : α}
    (hlo : lo < x) (hhi : x < hi) : Within closed lo x hi := by
  unfold Within
  split
  · exact ⟨hlo.le, hhi.le⟩
  · exact ⟨hlo, hhi⟩

/-- Quotients are rounded to an integer that is at most one half away, and an exact half only to an
even one. Both sides are moved up by `d`. -/
theorem roundDiv_eq_iff (hd : 0 < d) :
    roundDiv n d = r ↔ Within (r % 2 = 0) (2 * (r * d)) (2 * n + d) (2 * (r * d) + 2 * d) := by
  have hdiv := Nat.div_add_mod' n d
  have hmod := Nat.mod_lt n hd
  simp only [roundDiv, Within, decide_eq_true_eq]
  generalize n / d = q at hdiv ⊢
  generalize n % d = s at hdiv hmod ⊢
  obtain hr | rfl | rfl | hr : r < q ∨ r = q ∨ r = q + 1 ∨ q + 1 < r := by omega
  · have hle : r * d + d ≤ q * d := by
      rw [← Nat.succ_mul]
      exact Nat.mul_le_mul_right d hr
    grind
  · grind
  · rw [Nat.add_mul, Nat.one_mul]
    grind
  · have hle : q * d + 2 * d ≤ r * d := by
      rw [← Nat.add_mul]
      exact Nat.mul_le_mul_right d hr
    grind

/-! ## Rounding a ratio -/

section Ratio

variable {a : Nat}

/-- The magnitude of the double nearest to a ratio of magnitudes. -/
def nearestRatio (a den : Nat) : Nat :=
  roundDiv a (den * 2 ^ spacing (a / den)) * 2 ^ spacing (a / den)

theorem unitsOfRatio_eq : unitsOfRatio num den = nearestRatio (num * 2 ^ unitBits) den := rfl

theorem pow_log2_le_nearestRatio (hden : 0 < den) (h : a / den ≠ 0) :
    2 ^ (a / den).log2 ≤ nearestRatio a den := by
  have hbound := Nat.mul_le_mul_right (2 ^ spacing (a / den)) ((roundDiv_ratio_bounds hden a).1 h)
  rwa [← Nat.pow_add, Nat.sub_add_cancel (spacing_le_log2 _)] at hbound

theorem nearestRatio_le_pow_log2 (hden : 0 < den) :
    nearestRatio a den ≤ 2 ^ ((a / den).log2 + 1) := by
  have hbound := Nat.mul_le_mul_right (2 ^ spacing (a / den)) (roundDiv_ratio_bounds hden a).2
  rwa [← Nat.pow_add, Nat.add_right_comm, Nat.sub_add_cancel (spacing_le_log2 _)] at hbound

/-- Is the ratio in the interval? -/
def Interval.Has (iv : Interval) (a den : Nat) : Prop :=
  Within iv.closed (iv.low * den) (4 * a) (iv.high * den)

theorem Significand.spacing_eq (h : Significand m low) (hpos : 0 < m) :
    spacing (m * 2 ^ low) = low := by
  rw [spacing, log2_mul_two_pow (by omega)]
  obtain hfull | rfl := h.full
  · have hlog : m.log2 = 52 := (Nat.log2_eq_iff (by omega)).mpr ⟨hfull, h.lt⟩
    omega
  · have hlog : m.log2 < 53 := (Nat.log2_lt (by omega)).mpr h.lt
    omega

/-- The interval of a double, by its significand. -/
theorem Interval.ofUnits_eq (h : Significand m low) (hpos : 0 < m) :
    Interval.ofUnits (m * 2 ^ low) =
      ⟨4 * (m * 2 ^ low) - (if m = 2 ^ 52 ∧ 0 < low then 2 ^ low else 2 * 2 ^ low),
        4 * (m * 2 ^ low), 4 * (m * 2 ^ low) + 2 * 2 ^ low, m % 2 = 0⟩ := by
  simp only [Interval.ofUnits, h.spacing_eq hpos, Nat.mul_div_cancel m (Nat.two_pow_pos low)]

theorem pow_le_of_lt_spacing {s x : Nat} (h : s < spacing x) : 2 ^ (53 + s) ≤ x := by
  have hx : x ≠ 0 := by
    rintro rfl
    exact absurd h (by simp [spacing])
  exact Nat.le_trans (Nat.pow_le_pow_right (by decide) (by unfold spacing at h; omega))
    (Nat.log2_self_le hx)

theorem lt_pow_of_spacing_lt {s x : Nat} (h : spacing x < s) : x < 2 ^ (52 + s) := by
  refine Nat.lt_of_lt_of_le Nat.lt_log2_self (Nat.pow_le_pow_right (by decide) ?_)
  unfold spacing at h
  omega

/-- The ends of the interval and the ratio, brought to the denominator. -/
theorem Interval.has_iff (h : Significand m low) (hpos : 0 < m) :
    (Interval.ofUnits (m * 2 ^ low)).Has a den ↔
      Within (m % 2 = 0)
        (4 * (m * (den * 2 ^ low)) - if m = 2 ^ 52 ∧ 0 < low then den * 2 ^ low
          else 2 * (den * 2 ^ low))
        (4 * a) (4 * (m * (den * 2 ^ low)) + 2 * (den * 2 ^ low)) := by
  have hcomm : m * 2 ^ low * den = m * (den * 2 ^ low) := by
    rw [Nat.mul_assoc, Nat.mul_comm (2 ^ low)]
  rw [Interval.ofUnits_eq h hpos, Interval.Has, Nat.sub_mul, Nat.add_mul, Nat.mul_assoc 4, hcomm,
    Nat.mul_assoc 2, Nat.mul_comm (2 ^ low) den, ite_mul, Nat.mul_assoc 2,
    Nat.mul_comm (2 ^ low) den]

/-- A ratio that is resolved as finely as the double. -/
theorem nearestRatio_eq_iff_of_eq (h : Significand m low) (hpos : 0 < m) (hden : 0 < den)
    (hs : spacing (a / den) = low) :
    nearestRatio a den = m * 2 ^ low ↔ (Interval.ofUnits (m * 2 ^ low)).Has a den := by
  have hp : 0 < den * 2 ^ low := Nat.mul_pos hden (Nat.two_pow_pos low)
  rw [nearestRatio, hs, Nat.mul_left_inj (Nat.ne_of_gt (Nat.two_pow_pos low)), roundDiv_eq_iff hp,
    Interval.has_iff h hpos]
  have hle : den * 2 ^ low ≤ m * (den * 2 ^ low) := Nat.le_mul_of_pos_left _ hpos
  by_cases hedge : m = 2 ^ 52 ∧ 0 < low
  · -- just above a power of two, where the ratio cannot be on the finer side
    rw [if_pos hedge]
    have hpow : 2 ^ (53 + (low - 1)) ≤ a / den := pow_le_of_lt_spacing (by omega)
    have ha : m * (den * 2 ^ low) ≤ a := by
      rw [hedge.1, Nat.mul_left_comm, ← Nat.pow_add, Nat.mul_comm]
      rw [show 53 + (low - 1) = 52 + low by omega] at hpow
      exact (Nat.le_div_iff_mul_le hden).mp hpow
    generalize m * (den * 2 ^ low) = mid at hle ha ⊢
    generalize den * 2 ^ low = p at hp hle ⊢
    unfold Within
    split <;> omega
  · rw [if_neg hedge]
    generalize m * (den * 2 ^ low) = mid at hle ⊢
    generalize den * 2 ^ low = p at hp hle ⊢
    unfold Within
    split <;> omega

/-- A ratio that is resolved less finely than the double lies above it, and is rounded to one
above. -/
theorem nearestRatio_eq_iff_of_lt (h : Significand m low) (hpos : 0 < m) (hden : 0 < den)
    (hs : low < spacing (a / den)) :
    nearestRatio a den = m * 2 ^ low ↔ (Interval.ofUnits (m * 2 ^ low)).Has a den := by
  have hpow : 2 ^ (53 + low) ≤ a / den := pow_le_of_lt_spacing hs
  have hzero : a / den ≠ 0 := by
    have := Nat.two_pow_pos (53 + low)
    omega
  have hm : m * 2 ^ low < 2 ^ (53 + low) := by
    rw [Nat.pow_add]
    exact Nat.mul_lt_mul_of_pos_right h.lt (Nat.two_pow_pos low)
  have hround : 2 ^ (53 + low) ≤ nearestRatio a den :=
    Nat.le_trans (Nat.pow_le_pow_right (by decide) ((Nat.le_log2 hzero).mpr hpow))
      (pow_log2_le_nearestRatio hden hzero)
  have ha : (m + 1) * (den * 2 ^ low) ≤ a := by
    refine Nat.le_trans ?_ ((Nat.le_div_iff_mul_le hden).mp hpow)
    rw [Nat.pow_add, Nat.mul_assoc, Nat.mul_comm (2 ^ low)]
    exact Nat.mul_le_mul_right _ h.lt
  have hp : 0 < den * 2 ^ low := Nat.mul_pos hden (Nat.two_pow_pos low)
  refine iff_of_false (by omega) fun hin => ?_
  rw [Interval.has_iff h hpos] at hin
  have hhigh := hin.le.2
  rw [Nat.succ_mul] at ha
  omega

/-- A ratio that lies below a power of two is rounded to at most this power. -/
theorem nearestRatio_le_of_lt {k : Nat} (hden : 0 < den) (h : a / den < 2 ^ k) (hk : 0 < k) :
    nearestRatio a den ≤ 2 ^ k := by
  refine Nat.le_trans (nearestRatio_le_pow_log2 hden) (Nat.pow_le_pow_right (by decide) ?_)
  obtain h0 | h0 := Nat.eq_zero_or_pos (a / den)
  · rw [h0]
    exact hk
  · exact (Nat.log2_lt (Nat.ne_of_gt h0)).mpr h

/-- A ratio that is resolved one bit more finely than a power of two. -/
theorem nearestRatio_eq_pow_iff (h : Significand (2 ^ 52) (low + 1)) (hden : 0 < den)
    (hs : spacing (a / den) = low) :
    nearestRatio a den = 2 ^ 52 * 2 ^ (low + 1) ↔
      (Interval.ofUnits (2 ^ 52 * 2 ^ (low + 1))).Has a den := by
  have hq : 0 < den * 2 ^ low := Nat.mul_pos hden (Nat.two_pow_pos low)
  have ha : a < 2 ^ 53 * (den * 2 ^ low) := by
    have hlt : a / den < 2 ^ (52 + (low + 1)) := lt_pow_of_spacing_lt (by omega)
    rw [show 52 + (low + 1) = 53 + low by omega, Nat.div_lt_iff_lt_mul hden, Nat.pow_add] at hlt
    rwa [Nat.mul_comm den, ← Nat.mul_assoc]
  have hpow : 2 ^ 52 * 2 ^ (low + 1) = 2 ^ 53 * 2 ^ low := by
    rw [← Nat.pow_add, ← Nat.pow_add]
    congr 1
    omega
  have hmid : 2 ^ 52 * (den * 2 ^ (low + 1)) = 2 ^ 53 * (den * 2 ^ low) := by
    rw [Nat.mul_left_comm, hpow, Nat.mul_left_comm]
  have hp : den * 2 ^ (low + 1) = 2 * (den * 2 ^ low) := by
    rw [Nat.pow_succ', Nat.mul_left_comm]
  rw [Interval.has_iff h (by decide), hmid, hp, nearestRatio, hs, hpow,
    Nat.mul_left_inj (Nat.ne_of_gt (Nat.two_pow_pos low)), roundDiv_eq_iff hq,
    if_pos ⟨rfl, by omega⟩]
  generalize den * 2 ^ low = q at hq ha ⊢
  unfold Within
  rw [if_pos (by decide), if_pos (by decide)]
  omega

/-- A ratio that is resolved more finely than the double lies below it. Only a power of two can be
what it is rounded to. -/
theorem nearestRatio_eq_iff_of_gt (h : Significand m low) (hpos : 0 < m) (hden : 0 < den)
    (hs : spacing (a / den) < low) :
    nearestRatio a den = m * 2 ^ low ↔ (Interval.ofUnits (m * 2 ^ low)).Has a den := by
  have hfull : 2 ^ 52 ≤ m := h.full.resolve_right (by omega)
  have hp : 0 < den * 2 ^ low := Nat.mul_pos hden (Nat.two_pow_pos low)
  obtain ⟨k, rfl⟩ : ∃ k, low = k + 1 := ⟨low - 1, by omega⟩
  by_cases hnear : m = 2 ^ 52 ∧ spacing (a / den) = k
  · obtain ⟨rfl, hk⟩ := hnear
    exact nearestRatio_eq_pow_iff h hden hk
  · -- the ratio is below the power of two under the double, or below half of it
    obtain ⟨j, hj, hlt, hle⟩ :
        ∃ j, 0 < j ∧ a / den < 2 ^ j ∧ 2 ^ j ≤ (m - 1) * 2 ^ (k + 1) := by
      by_cases hm : m = 2 ^ 52
      · refine ⟨52 + k, by omega, lt_pow_of_spacing_lt (by omega), ?_⟩
        rw [hm, show 52 + k = 51 + (k + 1) by omega, Nat.pow_add]
        exact Nat.mul_le_mul_right _ (by decide)
      · refine ⟨52 + (k + 1), by omega, lt_pow_of_spacing_lt hs, ?_⟩
        rw [Nat.pow_add]
        exact Nat.mul_le_mul_right _ (by omega)
    refine iff_of_false (fun heq => ?_) fun hin => ?_
    · have hround := nearestRatio_le_of_lt hden hlt hj
      have hless : (m - 1) * 2 ^ (k + 1) < m * 2 ^ (k + 1) :=
        Nat.mul_lt_mul_of_pos_right (by omega) (Nat.two_pow_pos _)
      omega
    · have ha : a < (m - 1) * (den * 2 ^ (k + 1)) := by
        rw [Nat.mul_left_comm, Nat.mul_comm den]
        exact Nat.lt_of_lt_of_le ((Nat.div_lt_iff_lt_mul hden).mp hlt) (Nat.mul_le_mul_right _ hle)
      rw [Interval.has_iff h hpos] at hin
      have hlow := hin.le.1
      rw [Nat.sub_mul, Nat.one_mul] at ha
      split at hlow <;> omega

/-- **A ratio is rounded to a double iff it lies in the double's interval.** -/
theorem nearestRatio_eq_iff (h : Significand m low) (hpos : 0 < m) (hden : 0 < den) :
    nearestRatio a den = m * 2 ^ low ↔ (Interval.ofUnits (m * 2 ^ low)).Has a den := by
  obtain hs | hs | hs := Nat.lt_trichotomy (spacing (a / den)) low
  · exact nearestRatio_eq_iff_of_gt h hpos hden hs
  · exact nearestRatio_eq_iff_of_eq h hpos hden hs
  · exact nearestRatio_eq_iff_of_lt h hpos hden hs

end Ratio

/-! ## Decimals that are read -/

/-- The decimal is read as a magnitude. -/
def Digits.ReadsAs (d : Digits) (units : Nat) : Prop :=
  unitsOfRatio (d.digits * tenTo d.exponent) (tenTo (-d.exponent)) = units

/-- The test for the interval, without its two cases. -/
theorem Interval.holds_iff {iv : Interval} {e : Int} {c : Nat} :
    iv.holds e c = true ↔ Within iv.closed (iv.low * tenTo (-e))
      (c * tenTo e * 2 ^ (unitBits + 2)) (iv.high * tenTo (-e)) := by
  rw [Interval.holds, Within]
  split
  · exact decide_eq_true_iff
  · exact decide_eq_true_iff

/-- The test for the interval says what is read. -/
theorem holds_iff_readsAs {u : Nat} (hu : IsDouble u) (hpos : 0 < u) (c : Nat) (e : Int) :
    (Interval.ofUnits u).holds e c = true ↔ (Digits.mk c e).ReadsAs u := by
  obtain ⟨m, low, h, rfl⟩ := hu
  have hm : 0 < m := Nat.pos_of_mul_pos_right hpos
  have hden : 0 < tenTo (-e) := Nat.pow_pos (by decide)
  have hscale : 4 * (c * tenTo e * 2 ^ unitBits) = c * tenTo e * 2 ^ (unitBits + 2) := by
    rw [Nat.pow_add, ← Nat.mul_assoc (c * tenTo e), Nat.mul_comm]
  rw [Interval.holds_iff, Digits.ReadsAs, unitsOfRatio_eq, nearestRatio_eq_iff h hm hden,
    Interval.Has, hscale]

end DepScope.Decimal
