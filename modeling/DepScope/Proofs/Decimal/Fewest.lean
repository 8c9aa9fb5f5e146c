import Mathlib
import DepScope.Proofs.Decimal.Interval
import DepScope.Proofs.Decimal.Shortest

/-!
# DepScope.Proofs.Decimal.Fewest

The digits that are found for a double are the fewest that read back, and of those the nearest.

1. Grid points and magnitudes are compared as rational numbers (`holds_iff_contains`,
   `le_gridBelow_iff`); the first digit is where `magnitude` says (`magnitude_spec`).
2. An interval has no gaps, so a grid with any point in it has one next to the value
   (`choose?_isSome_of_contains`).
3. Seventeen digits lie closer together than the interval is wide (`exists_seventeen`), so the
   search ends at a hit (`search_spec`), and at the nearest point of its grid (`choose?_nearest`).
4. A decimal with fewer digits would have been a hit of a coarser grid (`shortest_isShortest`).
-/

namespace DepScope.Decimal

variable {u c n m low : Nat} {e k : Int} {iv : Interval} {tie : Tie} {q r v : ℚ}

/-! ## Values -/

/-- The value of a decimal. -/
def Digits.value (d : Digits) : ℚ :=
  d.digits * 10 ^ d.exponent

/-- The value of a magnitude. -/
def valueOf (units : Nat) : ℚ :=
  units / (2 ^ unitBits : Nat)

theorem ten_pos (e : Int) : (0 : ℚ) < 10 ^ e :=
  zpow_pos (by norm_num) e

theorem ten_add (e f : Int) : (10 : ℚ) ^ (e + f) = 10 ^ e * 10 ^ f :=
  zpow_add₀ (by norm_num) e f

theorem natCast_ten_pow (n : Nat) : ((10 ^ n : Nat) : ℚ) = 10 ^ (n : Int) := by
  rw [zpow_natCast]
  push_cast
  rfl

theorem ten_le {e f : Int} (h : e ≤ f) : (10 : ℚ) ^ e ≤ 10 ^ f :=
  zpow_le_zpow_right₀ (by norm_num) h

theorem tenTo_pos (e : Int) : (0 : ℚ) < tenTo e :=
  Nat.cast_pos.mpr (Nat.pow_pos (by decide))

/-- A power of ten as the quotient of two natural numbers. -/
theorem ten_mul_tenTo (e : Int) : (10 : ℚ) ^ e * tenTo (-e) = tenTo e := by
  rw [tenTo, tenTo, natCast_ten_pow, natCast_ten_pow, ← ten_add]
  congr 1
  omega

theorem unit_pos : (0 : ℚ) < (2 ^ unitBits : Nat) :=
  Nat.cast_pos.mpr (Nat.two_pow_pos _)

/-- The grid point next to the value is found by division. -/
theorem le_gridBelow_iff : c ≤ gridBelow u e ↔ (c : ℚ) * 10 ^ e ≤ valueOf u := by
  have hden : 0 < 2 ^ unitBits * tenTo e :=
    Nat.mul_pos (Nat.two_pow_pos _) (Nat.pow_pos (by decide))
  rw [gridBelow, Nat.le_div_iff_mul_le hden, valueOf, le_div_iff₀ unit_pos,
    ← mul_le_mul_iff_left₀ (tenTo_pos (-e)), ← Nat.cast_le (α := ℚ)]
  push_cast
  rw [← ten_mul_tenTo e]
  ring_nf

theorem gridBelow_le (u : Nat) (e : Int) : (gridBelow u e : ℚ) * 10 ^ e ≤ valueOf u :=
  le_gridBelow_iff.mp le_rfl

theorem lt_gridBelow_succ (u : Nat) (e : Int) :
    valueOf u < (gridBelow u e + 1 : Nat) * (10 : ℚ) ^ e :=
  not_le.mp (le_gridBelow_iff.not.mp (Nat.not_succ_le_self _))

theorem valueOf_mul_quarters (u : Nat) :
    valueOf u * (2 ^ (unitBits + 2) : Nat) = (4 * u : Nat) := by
  rw [Nat.pow_add, Nat.cast_mul, ← mul_assoc, valueOf, div_mul_cancel₀ _ unit_pos.ne']
  push_cast
  ring

/-! ## Points of an interval -/

/-- A number lies in the interval, whose ends are quarters of the unit. -/
def Interval.Contains (iv : Interval) (q : ℚ) : Prop :=
  Within iv.closed (iv.low : ℚ) (q * (2 ^ (unitBits + 2) : Nat)) iv.high

theorem Within.mul_right_iff {closed : Bool} {lo x hi s : ℚ} (hs : 0 < s) :
    Within closed (lo * s) (x * s) (hi * s) ↔ Within closed lo x hi := by
  simp only [Within, mul_le_mul_iff_left₀ hs, mul_lt_mul_iff_left₀ hs]

theorem Within.natCast_iff {closed : Bool} {lo x hi : Nat} :
    Within closed (lo : ℚ) x hi ↔ Within closed lo x hi := by
  simp only [Within, Nat.cast_le, Nat.cast_lt]

theorem Interval.holds_iff_contains : iv.holds e c = true ↔ iv.Contains (c * 10 ^ e) := by
  have hscale : ((c * tenTo e * 2 ^ (unitBits + 2) : Nat) : ℚ) =
      c * 10 ^ e * (2 ^ (unitBits + 2) : Nat) * tenTo (-e) := by
    rw [Nat.cast_mul, Nat.cast_mul, ← ten_mul_tenTo e]
    ring
  rw [Interval.holds_iff, ← Within.natCast_iff, hscale, Nat.cast_mul, Nat.cast_mul,
    Within.mul_right_iff (tenTo_pos (-e)), Interval.Contains]

/-- An interval has no gaps. -/
theorem Interval.Contains.of_between (hq : iv.Contains q) (hr : iv.Contains r) (hqv : q ≤ v)
    (hvr : v ≤ r) : iv.Contains v := by
  have hs : (0 : ℚ) ≤ (2 ^ (unitBits + 2) : Nat) := Nat.cast_nonneg _
  have hlow := mul_le_mul_of_nonneg_right hqv hs
  have hhigh := mul_le_mul_of_nonneg_right hvr hs
  unfold Interval.Contains Within at hq hr ⊢
  split at hq
  · next hclosed =>
    rw [if_pos hclosed] at hr ⊢
    exact ⟨hq.1.trans hlow, hhigh.trans hr.2⟩
  · next hopen =>
    rw [if_neg hopen] at hr ⊢
    exact ⟨hq.1.trans_le hlow, hhigh.trans_lt hr.2⟩

theorem Interval.ofUnits_lt (u : Nat) :
    4 * u < (Interval.ofUnits u).high ∧ (0 < u → (Interval.ofUnits u).low < 4 * u) := by
  have hstep := Nat.two_pow_pos (spacing u)
  simp only [Interval.ofUnits]
  split <;> omega

/-- A magnitude lies inside its interval. -/
theorem Interval.contains_valueOf (hpos : 0 < u) : (Interval.ofUnits u).Contains (valueOf u) := by
  obtain ⟨hhigh, hlow⟩ := Interval.ofUnits_lt u
  rw [Interval.Contains, valueOf_mul_quarters]
  exact Within.natCast_iff.mpr (Within.of_lt (hlow hpos) hhigh)

theorem choose?_isSome_iff :
    (choose? tie iv e c).isSome ↔ iv.holds e c = true ∨ iv.holds e (c + 1) = true := by
  simp only [choose?]
  generalize 2 * iv.center * tenTo (-e) = twice
  generalize (2 * c + 1) * tenTo e * 2 ^ (unitBits + 2) = middle
  cases iv.holds e c <;> cases iv.holds e (c + 1)
  · simp
  · simp
  · simp
  · cases tie <;> grind

/-- A grid that has a point in the interval has one next to the value. -/
theorem choose?_isSome_of_contains (hpos : 0 < u)
    (h : (Interval.ofUnits u).Contains (c * 10 ^ e)) :
    (choose? tie (Interval.ofUnits u) e (gridBelow u e)).isSome := by
  have hcenter := Interval.contains_valueOf hpos
  rw [choose?_isSome_iff, Interval.holds_iff_contains, Interval.holds_iff_contains]
  have hten := (ten_pos e).le
  by_cases hc : c ≤ gridBelow u e
  · refine .inl (h.of_between hcenter ?_ (gridBelow_le u e))
    exact mul_le_mul_of_nonneg_right (Nat.cast_le.mpr hc) hten
  · refine .inr (hcenter.of_between h (lt_gridBelow_succ u e).le ?_)
    exact mul_le_mul_of_nonneg_right (Nat.cast_le.mpr (Nat.lt_of_not_le hc)) hten

/-! ## The first digit -/

/-- No digit stands before the one that the search ends at. -/
theorem mul_zerosAfterPoint_lt {fuel scale : Nat} (h : u * scale < 2 ^ unitBits) :
    u * scale * 10 ^ zerosAfterPoint u fuel scale < 2 ^ unitBits := by
  induction fuel generalizing scale with
  | zero => rwa [zerosAfterPoint, Nat.pow_zero, Nat.mul_one]
  | succ fuel ih =>
    rw [zerosAfterPoint]
    split
    · generalize 2 ^ unitBits = bound at h ⊢
      rwa [Nat.pow_zero, Nat.mul_one]
    · next hnext =>
      have hshift : u * (scale * 10) = u * scale * 10 := (Nat.mul_assoc u scale 10).symm
      rw [Nat.pow_succ', ← Nat.mul_assoc, ← hshift]
      exact ih (hshift ▸ Nat.lt_of_not_le hnext)

theorem pow_unitBits_lt : 2 ^ unitBits < 10 ^ 330 := by decide +kernel

theorem natCast_le_valueOf_iff : (n : ℚ) ≤ valueOf u ↔ n ≤ u / 2 ^ unitBits := by
  rw [valueOf, le_div_iff₀ unit_pos, ← Nat.cast_mul, Nat.cast_le,
    Nat.le_div_iff_mul_le (Nat.two_pow_pos _)]

theorem ten_neg_le_valueOf_iff (n : Nat) :
    (10 : ℚ) ^ (-(n : Int)) ≤ valueOf u ↔ 2 ^ unitBits ≤ u * 10 ^ n := by
  have hcancel : (10 : ℚ) ^ (-(n : Int)) * 10 ^ (n : Int) = 1 := by
    rw [← ten_add, neg_add_cancel, zpow_zero]
  rw [valueOf, le_div_iff₀ unit_pos, ← mul_le_mul_iff_left₀ (ten_pos n), mul_right_comm, hcancel,
    one_mul, ← natCast_ten_pow, ← Nat.cast_mul, Nat.cast_le]

/-- The first digit of a value stands just below the power of ten that `magnitude` finds. -/
theorem magnitude_spec (hpos : 0 < u) :
    (10 : ℚ) ^ (magnitude u - 1) ≤ valueOf u ∧ valueOf u < 10 ^ magnitude u := by
  rw [magnitude]
  split
  · -- below one
    next hwhole =>
    have hlt : u < 2 ^ unitBits := (Nat.div_eq_zero_iff_lt (Nat.two_pow_pos _)).mp hwhole
    have hlow := zerosAfterPoint_spec u 330 1
    have hhigh : u * 1 * 10 ^ zerosAfterPoint u 330 1 < 2 ^ unitBits :=
      mul_zerosAfterPoint_lt (by omega)
    generalize zerosAfterPoint u 330 1 = z at hlow hhigh ⊢
    rw [Nat.mul_one] at hlow hhigh
    have hfound : 2 ^ unitBits ≤ u * 10 ^ (z + 1) := by
      refine hlow.resolve_left ?_
      rintro rfl
      have := Nat.le_mul_of_pos_left (10 ^ 330) hpos
      exact absurd (hhigh.trans pow_unitBits_lt) (by omega)
    constructor
    · have hcast := (ten_neg_le_valueOf_iff (z + 1)).mpr hfound
      rwa [show -((z + 1 : Nat) : Int) = -(z : Int) - 1 by omega] at hcast
    · exact not_le.mp ((ten_neg_le_valueOf_iff z).not.mpr (Nat.not_le.mpr hhigh))
  · -- from one on
    next hwhole =>
    have hlow := pow_length_le (Nat.pos_of_ne_zero hwhole)
    have hhigh := lt_pow_length (u / 2 ^ unitBits)
    have hlen : 0 < (Nat.toDigits 10 (u / 2 ^ unitBits)).length :=
      List.length_pos_iff.mpr Nat.toDigits_ne_nil
    generalize (Nat.toDigits 10 (u / 2 ^ unitBits)).length = l at hlow hhigh hlen ⊢
    constructor
    · have hcast := natCast_le_valueOf_iff.mpr hlow
      rwa [natCast_ten_pow, Nat.cast_sub hlen] at hcast
    · have hcast := natCast_le_valueOf_iff.not.mpr (Nat.not_le.mpr hhigh)
      rwa [natCast_ten_pow, not_le] at hcast

/-! ## Seventeen digits -/

/-- An interval is wider than one part in `10^16` of the magnitude. -/
theorem Interval.center_lt_width (h : Significand m low) (hm : 0 < m) :
    (Interval.ofUnits (m * 2 ^ low)).low ≤ (Interval.ofUnits (m * 2 ^ low)).high ∧
    4 * (m * 2 ^ low) < 10 ^ 16 *
      ((Interval.ofUnits (m * 2 ^ low)).high - (Interval.ofUnits (m * 2 ^ low)).low) := by
  have hstep := Nat.two_pow_pos low
  have hlt : m * 2 ^ low < 2 ^ 53 * 2 ^ low := Nat.mul_lt_mul_of_pos_right h.lt hstep
  have hle : 2 ^ low ≤ m * 2 ^ low := Nat.le_mul_of_pos_left _ hm
  rw [Interval.ofUnits_eq h hm]
  dsimp only
  split
  · next hedge =>
    rw [hedge.1] at hle ⊢
    omega
  · omega

/-- The step of seventeen digits is less than the interval's width. -/
theorem exists_seventeen (hu : IsDouble u) (hpos : 0 < u) :
    ∃ c : Nat, (Interval.ofUnits u).Contains (c * 10 ^ (magnitude u - (17 : Nat))) := by
  obtain ⟨hle, hwide⟩ : (Interval.ofUnits u).low ≤ (Interval.ofUnits u).high ∧
      4 * u < 10 ^ 16 * ((Interval.ofUnits u).high - (Interval.ofUnits u).low) := by
    obtain ⟨m, low, h, rfl⟩ := hu
    exact Interval.center_lt_width h (Nat.pos_of_mul_pos_right hpos)
  obtain ⟨hhigh, hlow⟩ := Interval.ofUnits_lt u
  have hstep : (10 : ℚ) ^ (magnitude u - (17 : Nat)) * 10 ^ (16 : Int) ≤ valueOf u := by
    rw [← ten_add, show magnitude u - (17 : Nat) + 16 = magnitude u - 1 by omega]
    exact (magnitude_spec hpos).1
  have hbelow := gridBelow_le u (magnitude u - (17 : Nat))
  have habove := lt_gridBelow_succ u (magnitude u - (17 : Nat))
  have hvalue := valueOf_mul_quarters u
  have hscale : (0 : ℚ) < (2 ^ (unitBits + 2) : Nat) := Nat.cast_pos.mpr (Nat.two_pow_pos _)
  unfold Interval.Contains
  generalize gridBelow u (magnitude u - (17 : Nat)) = g at hbelow habove
  generalize (10 : ℚ) ^ (magnitude u - (17 : Nat)) = s at hstep hbelow habove ⊢
  generalize ((2 ^ (unitBits + 2) : Nat) : ℚ) = scale at hvalue hscale ⊢
  generalize (Interval.ofUnits u).low = lo at hle hwide hlow ⊢
  generalize (Interval.ofUnits u).high = hi at hle hwide hhigh ⊢
  have hcenter : (4 * u : Nat) < (hi : ℚ) := Nat.cast_lt.mpr hhigh
  have hcenter' : (lo : ℚ) < (4 * u : Nat) := Nat.cast_lt.mpr (hlow hpos)
  have hbelow' := mul_le_mul_of_nonneg_right hbelow hscale.le
  have habove' := mul_lt_mul_of_pos_right habove hscale
  have hstep' := mul_le_mul_of_nonneg_right hstep hscale.le
  rw [hvalue] at hbelow' habove' hstep'
  by_contra hnone
  rw [not_exists] at hnone
  -- both neighbours of the value are outside, so the step is as wide as the interval
  have hfirst : g * s * scale ≤ lo := by
    by_contra hin
    exact hnone g (Within.of_lt (not_le.mp hin) (hbelow'.trans_lt hcenter))
  have hsecond : hi ≤ (g + 1 : Nat) * s * scale := by
    by_contra hin
    exact hnone (g + 1) (Within.of_lt (hcenter'.trans habove') (not_le.mp hin))
  have hwide' : ((4 * u : Nat) : ℚ) < 10 ^ 16 * (hi - lo) := by
    rw [← Nat.cast_sub hle]
    exact_mod_cast hwide
  push_cast at hsecond hwide' hstep'
  linarith

/-! ## The search -/

/-- The digits come from the first grid that has a hit. -/
theorem search_spec {fuel n : Nat}
    (h : ∃ j < n + fuel, n ≤ j ∧ (choose? tie iv (k - j) (gridBelow u (k - j))).isSome) :
    ∃ j c, n ≤ j ∧ choose? tie iv (k - j) (gridBelow u (k - j)) = some c ∧
      search tie u iv k fuel n = .ofGrid c (k - j) j ∧
      ∀ i, n ≤ i → i < j → (choose? tie iv (k - i) (gridBelow u (k - i))).isSome = false := by
  induction fuel generalizing n with
  | zero =>
    obtain ⟨j, hlt, hle, _⟩ := h
    omega
  | succ fuel ih =>
    cases hhit : choose? tie iv (k - n) (gridBelow u (k - n)) with
    | some c =>
      refine ⟨n, c, le_rfl, hhit, ?_, fun i hle hlt => absurd hle (by omega)⟩
      simp only [search, hhit]
    | none =>
      obtain ⟨j, hlt, hle, hsome⟩ := h
      have hne : j ≠ n := by
        rintro rfl
        rw [hhit] at hsome
        cases hsome
      obtain ⟨j', c, hle', hc, hsearch, hnone⟩ := ih (n := n + 1) ⟨j, by omega, by omega, hsome⟩
      refine ⟨j', c, by omega, hc, ?_, fun i hi hij => ?_⟩
      · simp only [search, hhit]
        exact hsearch
      · obtain rfl | hi := Nat.eq_or_lt_of_le hi
        · rw [hhit]
          rfl
        · exact hnone i hi hij

/-- A point with few digits in the interval comes with one on the grid of as many digits, which is
no further from the value: on this grid lies the point itself, or the power of ten between the
two. -/
theorem exists_contains_of_lt {j : Nat} (hpos : 0 < u) (hj : 1 ≤ j) (hc : c < 10 ^ j)
    (hin : (Interval.ofUnits u).Contains (c * 10 ^ e)) :
    ∃ c' : Nat, (Interval.ofUnits u).Contains (c' * 10 ^ (magnitude u - j)) ∧
      |c' * 10 ^ (magnitude u - j) - valueOf u| ≤ |c * 10 ^ e - valueOf u| := by
  obtain ⟨hlow, _⟩ := magnitude_spec hpos
  by_cases he : magnitude u - j ≤ e
  · have hsame : ((c * 10 ^ (e - (magnitude u - j)).toNat : Nat) : ℚ) * 10 ^ (magnitude u - j) =
        c * 10 ^ e := by
      rw [Nat.cast_mul, natCast_ten_pow, mul_assoc, ← ten_add, Int.toNat_of_nonneg (by omega),
        sub_add_cancel]
    exact ⟨_, hsame ▸ hin, (congrArg (|· - valueOf u|) hsame).le⟩
  · have hpow : ((10 ^ (j - 1) : Nat) : ℚ) * 10 ^ (magnitude u - j) = 10 ^ (magnitude u - 1) := by
      rw [natCast_ten_pow, ← ten_add]
      congr 1
      omega
    have hle : (c : ℚ) * 10 ^ e ≤ 10 ^ (magnitude u - 1) :=
      calc (c : ℚ) * 10 ^ e ≤ (10 ^ j : Nat) * 10 ^ e :=
            mul_le_mul_of_nonneg_right (Nat.cast_le.mpr hc.le) (ten_pos e).le
        _ = 10 ^ ((j : Int) + e) := by rw [natCast_ten_pow, ten_add]
        _ ≤ 10 ^ (magnitude u - 1) := ten_le (by omega)
    refine ⟨10 ^ (j - 1), ?_⟩
    rw [hpow, abs_of_nonpos (by linarith), abs_of_nonpos (by linarith)]
    exact ⟨hin.of_between (Interval.contains_valueOf hpos) hle hlow, by linarith⟩

/-- A grid offers one of the two neighbours of the value, and if the other one lies in the interval
as well, then not the farther one. -/
theorem of_choose? {d : Nat} (h : choose? tie iv e c = some d) :
    d = c ∧ (iv.holds e (c + 1) = true →
      2 * iv.center * tenTo (-e) ≤ (2 * c + 1) * tenTo e * 2 ^ (unitBits + 2)) ∨
    d = c + 1 ∧ (iv.holds e c = true →
      (2 * c + 1) * tenTo e * 2 ^ (unitBits + 2) ≤ 2 * iv.center * tenTo (-e)) := by
  simp only [choose?] at h
  generalize 2 * iv.center * tenTo (-e) = twice at h ⊢
  generalize (2 * c + 1) * tenTo e * 2 ^ (unitBits + 2) = middle at h ⊢
  grind

/-- The comparison with the middle of two grid points, in rational numbers. -/
theorem exists_scale (u c : Nat) (e : Int) : ∃ scale : ℚ, 0 < scale ∧
    ((2 * (Interval.ofUnits u).center * tenTo (-e) : Nat) : ℚ) = 2 * valueOf u * scale ∧
    (((2 * c + 1) * tenTo e * 2 ^ (unitBits + 2) : Nat) : ℚ) =
      (c * 10 ^ e + (c + 1 : Nat) * 10 ^ e) * scale := by
  have hcenter : ((Interval.ofUnits u).center : ℚ) = valueOf u * (2 ^ (unitBits + 2) : Nat) :=
    (valueOf_mul_quarters u).symm
  refine ⟨(2 ^ (unitBits + 2) : Nat) * tenTo (-e), ?_, ?_, ?_⟩
  · exact mul_pos (Nat.cast_pos.mpr (Nat.two_pow_pos _)) (tenTo_pos _)
  · rw [Nat.cast_mul, Nat.cast_mul, hcenter]
    ring
  · rw [Nat.cast_mul, Nat.cast_mul, ← ten_mul_tenTo e]
    push_cast
    ring

/-- No point of the grid that lies in the interval is nearer than the one that is offered. -/
theorem choose?_nearest {d c' : Nat} (hpos : 0 < u)
    (h : choose? tie (Interval.ofUnits u) e (gridBelow u e) = some d)
    (hin : (Interval.ofUnits u).Contains (c' * 10 ^ e)) :
    |d * 10 ^ e - valueOf u| ≤ |c' * 10 ^ e - valueOf u| := by
  have hcenter := Interval.contains_valueOf hpos
  have hbelow := gridBelow_le u e
  have habove := lt_gridBelow_succ u e
  obtain ⟨scale, hscale, htwice, hmiddle⟩ := exists_scale u (gridBelow u e) e
  generalize gridBelow u e = g at h hbelow habove hmiddle
  have hside : (c' : ℚ) * 10 ^ e ≤ g * 10 ^ e ∨ ((g + 1 : Nat) : ℚ) * 10 ^ e ≤ c' * 10 ^ e := by
    obtain hlt | hle := Nat.lt_or_ge g c'
    · exact .inr (mul_le_mul_of_nonneg_right (Nat.cast_le.mpr hlt) (ten_pos e).le)
    · exact .inl (mul_le_mul_of_nonneg_right (Nat.cast_le.mpr hle) (ten_pos e).le)
  obtain ⟨rfl, hnear⟩ | ⟨rfl, hnear⟩ := of_choose? h
  · rw [abs_of_nonpos (by linarith)]
    obtain hle | hle := hside
    · rw [abs_of_nonpos (by linarith)]
      linarith
    · -- a point above brings the neighbour above along, which is not nearer
      have hmid := hnear (Interval.holds_iff_contains.mpr
        (hcenter.of_between hin habove.le hle))
      rw [← Nat.cast_le (α := ℚ), htwice, hmiddle, mul_le_mul_iff_left₀ hscale] at hmid
      rw [abs_of_nonneg (by linarith)]
      linarith
  · rw [abs_of_nonneg (by linarith)]
    obtain hle | hle := hside
    · have hmid := hnear (Interval.holds_iff_contains.mpr (hin.of_between hcenter hle hbelow))
      rw [← Nat.cast_le (α := ℚ), htwice, hmiddle, mul_le_mul_iff_left₀ hscale] at hmid
      rw [abs_of_nonpos (by linarith)]
      linarith
    · rw [abs_of_nonneg (by linarith)]
      linarith

/-- As many digits as the grid has, or a power of ten with one more. -/
theorem choose?_bounds {j : Nat} (hpos : 0 < u) (hj : 1 ≤ j)
    (h : choose? tie iv (magnitude u - j) (gridBelow u (magnitude u - j)) = some c) :
    10 ^ (j - 1) ≤ c ∧ c ≤ 10 ^ j := by
  obtain ⟨hlow, hhigh⟩ := magnitude_spec hpos
  have hfrom : 10 ^ (j - 1) ≤ gridBelow u (magnitude u - j) := by
    rw [le_gridBelow_iff, natCast_ten_pow, ← ten_add]
    rwa [show ((j - 1 : Nat) : Int) + (magnitude u - j) = magnitude u - 1 by omega]
  have hto : ¬ 10 ^ j ≤ gridBelow u (magnitude u - j) := by
    rw [le_gridBelow_iff, natCast_ten_pow, ← ten_add, add_sub_cancel]
    exact not_le.mpr hhigh
  obtain ⟨hc, -⟩ | ⟨hc, -⟩ := of_choose? h <;> omega

/-! ## The digits that are found -/

/-- The decimal is read as the magnitude, no decimal with fewer digits is, and none with as many
that is lies nearer to the value. -/
structure Digits.IsShortest (d : Digits) (units : Nat) : Prop where
  reads : d.ReadsAs units
  trimmed : ¬ 10 ∣ d.digits
  fewest : ∀ d' : Digits, d'.ReadsAs units → d.chars.length ≤ d'.chars.length
  nearest : ∀ d' : Digits, d'.ReadsAs units → d'.chars.length = d.chars.length →
    |d.value - valueOf units| ≤ |d'.value - valueOf units|

/-- The digits of a double come from a grid, and no point with fewer digits than the grid has lies
in the interval, because the grids were tried in order. -/
theorem shortest_spec (hu : IsDouble u) (hpos : 0 < u) :
    ∃ j c : Nat, 1 ≤ j ∧
      choose? tie (Interval.ofUnits u) (magnitude u - j) (gridBelow u (magnitude u - j)) = some c ∧
      shortest tie u = .ofGrid c (magnitude u - j) j ∧
      ∀ (c' : Nat) (e' : Int), (Interval.ofUnits u).Contains (c' * 10 ^ e') →
        10 ^ (j - 1) ≤ c' := by
  obtain ⟨c₀, hseventeen⟩ := exists_seventeen hu hpos
  obtain ⟨j, c, hj, hc, hsearch, hnone⟩ :=
    @search_spec u (magnitude u) (Interval.ofUnits u) tie 17 1
      ⟨17, by decide, by decide, choose?_isSome_of_contains hpos hseventeen⟩
  refine ⟨j, c, hj, hc, hsearch, fun c' e' hin => ?_⟩
  by_contra hlt
  obtain ⟨i, rfl⟩ : ∃ i, j = i + 1 := ⟨j - 1, by omega⟩
  rw [Nat.add_sub_cancel] at hlt
  obtain rfl | hi := Nat.eq_zero_or_pos i
  · obtain rfl : c' = 0 := by omega
    have hzero := Interval.holds_zero (e := e') (Interval.low_pos hpos)
    rw [Interval.holds_iff_contains.mpr hin] at hzero
    cases hzero
  · obtain ⟨c₁, hin₁, -⟩ := exists_contains_of_lt hpos hi (Nat.lt_of_not_le hlt) hin
    have hsome := hnone i hi (Nat.lt_succ_self i)
    rw [choose?_isSome_of_contains hpos hin₁] at hsome
    cases hsome

/-- A power of ten is kept without its zeros. -/
theorem ofGrid_value {j : Nat} (hj : 1 ≤ j) (c : Nat) (e : Int) :
    (Digits.ofGrid c e j).value = c * 10 ^ e := by
  unfold Digits.ofGrid
  split
  · next hc =>
    rw [Digits.value, hc, natCast_ten_pow, natCast_ten_pow, ← ten_add, ← ten_add]
    congr 1
    dsimp only
    omega
  · rfl

/-- Digits that cannot be fewer do not end in zero: without it they would be fewer. -/
theorem ofGrid_trimmed {j : Nat} (hj : 1 ≤ j) (hto : c ≤ 10 ^ j) (hin : iv.Contains (c * 10 ^ e))
    (hleast : ∀ (c' : Nat) (e' : Int), iv.Contains (c' * 10 ^ e') → 10 ^ (j - 1) ≤ c') :
    (Digits.ofGrid c e j).digits < 10 ^ j ∧ ¬ 10 ∣ (Digits.ofGrid c e j).digits := by
  have hpow : 10 ^ j = 10 * 10 ^ (j - 1) := by
    rw [← Nat.pow_succ', Nat.succ_eq_add_one, Nat.sub_add_cancel hj]
  have hpos : 0 < 10 ^ (j - 1) := Nat.pow_pos (by decide)
  unfold Digits.ofGrid
  split
  · next hc =>
    have hone : 10 ^ (j - 1) ≤ 1 := by
      refine hleast 1 (j + e) ?_
      rwa [Nat.cast_one, one_mul, ten_add, ← natCast_ten_pow, ← hc]
    dsimp only
    omega
  · next hc =>
    refine ⟨Nat.lt_of_le_of_ne hto hc, ?_⟩
    rintro ⟨c', rfl : c = 10 * c'⟩
    have hless := hleast c' (e + 1) (by
      rw [ten_add, zpow_one]
      convert hin using 1
      push_cast
      ring)
    omega

theorem readsAs_iff_contains (hu : IsDouble u) (hpos : 0 < u) (d : Digits) :
    d.ReadsAs u ↔ (Interval.ofUnits u).Contains d.value := by
  rw [← holds_iff_readsAs hu hpos d.digits d.exponent, Interval.holds_iff_contains, Digits.value]

/-- **The digits of a double are the fewest that read back,** and of several the nearest ones. -/
theorem shortest_isShortest (hu : IsDouble u) (hpos : 0 < u) : (shortest tie u).IsShortest u := by
  obtain ⟨j, c, hj, hc, hfound, hleast⟩ := @shortest_spec u tie hu hpos
  have hin : (Interval.ofUnits u).Contains (c * 10 ^ (magnitude u - j)) :=
    Interval.holds_iff_contains.mp (holds_of_choose? hc)
  obtain ⟨hlt, htrimmed⟩ := ofGrid_trimmed hj (choose?_bounds hpos hj hc).2 hin hleast
  have hvalue := ofGrid_value hj c (magnitude u - j)
  rw [← hfound] at hlt htrimmed hvalue
  have hlength : (shortest tie u).chars.length ≤ j :=
    (Nat.length_toDigits_le_iff (by decide) hj).mpr hlt
  have hreads : (shortest tie u).ReadsAs u := by
    rwa [readsAs_iff_contains hu hpos, hvalue]
  have hfewest : ∀ d : Digits, d.ReadsAs u → j ≤ d.chars.length := by
    intro d hd
    have hdigits := hleast d.digits d.exponent ((readsAs_iff_contains hu hpos d).mp hd)
    have hpow : 10 ^ (j - 1) < 10 ^ d.chars.length := hdigits.trans_lt (lt_pow_length d.digits)
    have := (Nat.pow_lt_pow_iff_right (by decide)).mp hpow
    omega
  refine ⟨hreads, htrimmed, fun d hd => hlength.trans (hfewest d hd), fun d hd hsame => ?_⟩
  -- with as many digits as the grid has, the other decimal has a point of the grid at its side
  have hd' : d.digits < 10 ^ j :=
    (lt_pow_length d.digits).trans_le (Nat.pow_le_pow_right (by decide) (hsame.trans_le hlength))
  obtain ⟨c', hin', hle⟩ :=
    exists_contains_of_lt hpos hj hd' ((readsAs_iff_contains hu hpos d).mp hd)
  rw [hvalue]
  exact (choose?_nearest hpos hc hin').trans hle

end DepScope.Decimal
