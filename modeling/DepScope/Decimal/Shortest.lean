import DepScope.Decimal.Binary

/-!
# DepScope.Decimal.Shortest

The fewest decimal digits that read back as a given double.

The reals that round to a double form an interval, which holds its ends iff the double's
significand is even. For one digit, two digits, and so on, the value's two neighbours on that
decimal grid are tested in exact arithmetic: the first grid with a hit wins, of two hits the nearer
one, and an exact tie goes as the caller says. Seventeen digits always suffice.
-/

namespace DepScope.Decimal

/-- A decimal number `digits · 10^exponent`. -/
structure Digits where
  digits : Nat
  exponent : Int
deriving DecidableEq, Inhabited

namespace Digits

/-- The digits as characters. -/
def chars (d : Digits) : List Char :=
  Nat.toDigits 10 d.digits

/-- The power of ten of the leading digit. -/
def leading (d : Digits) : Int :=
  d.exponent + (d.chars.length : Int) - 1

end Digits

/-- Which way an exact tie goes. -/
inductive Tie where
  | toEven
  | up
deriving DecidableEq

/-- The power of ten up to a non-negative exponent, one otherwise. -/
def tenTo (e : Int) : Nat :=
  10 ^ e.toNat

/-- The reals that round to a double, in quarters of the unit. -/
structure Interval where
  low : Nat
  center : Nat
  high : Nat
  closed : Bool

/-- The interval of a positive magnitude. Below a power of two the doubles lie twice as close. -/
def Interval.ofUnits (units : Nat) : Interval :=
  let low := spacing units
  let m := units / 2 ^ low
  let below := if m = 2 ^ 52 ∧ 0 < low then 2 ^ low else 2 * 2 ^ low
  ⟨4 * units - below, 4 * units, 4 * units + 2 * 2 ^ low, m % 2 = 0⟩

/-- Does `c · 10^e` lie in the interval? Both sides are brought to a common denominator. -/
def Interval.holds (iv : Interval) (e : Int) (c : Nat) : Bool :=
  let x := c * tenTo e * 2 ^ (unitBits + 2)
  let lo := iv.low * tenTo (-e)
  let hi := iv.high * tenTo (-e)
  if iv.closed then lo ≤ x ∧ x ≤ hi else lo < x ∧ x < hi

/-- The largest grid point at or below the value: `⌊value / 10^e⌋`. -/
def gridBelow (units : Nat) (e : Int) : Nat :=
  units * tenTo (-e) / (2 ^ unitBits * tenTo e)

/-- The better of a grid's two neighbours `c` and `c + 1` of the value, if one lies in the
interval. -/
def choose? (tie : Tie) (iv : Interval) (e : Int) (c : Nat) : Option Nat :=
  let twice := 2 * iv.center * tenTo (-e)
  let middle := (2 * c + 1) * tenTo e * 2 ^ (unitBits + 2)
  match iv.holds e c, iv.holds e (c + 1) with
  | false, false => none
  | true, false => some c
  | false, true => some (c + 1)
  | true, true =>
    if twice < middle then some c
    else if middle < twice then some (c + 1)
    else match tie with
      | .up => some (c + 1)
      | .toEven => some (if c % 2 = 0 then c else c + 1)

/-- For a value below one: how many zeros follow the point, looked for up to a bound. -/
def zerosAfterPoint (units : Nat) : Nat → Nat → Nat
  | 0, _ => 0
  | fuel + 1, scale =>
    if 2 ^ unitBits ≤ units * scale * 10 then 0
    else zerosAfterPoint units fuel (scale * 10) + 1

/-- The exponent `k` with `10^(k-1) ≤ value < 10^k`. -/
def magnitude (units : Nat) : Int :=
  let whole := units / 2 ^ unitBits
  if whole = 0 then -(zerosAfterPoint units 330 1 : Int)
  else (Nat.toDigits 10 whole).length

/-- The grid point `c · 10^e`; one that rounded up to a power of ten loses its last zero. -/
def Digits.ofGrid (c : Nat) (e : Int) (n : Nat) : Digits :=
  if c = 10 ^ n then ⟨10 ^ (n - 1), e + 1⟩ else ⟨c, e⟩

/-- The first grid, from `n` digits on, that has a point in the interval. -/
def search (tie : Tie) (units : Nat) (iv : Interval) (k : Int) : Nat → Nat → Digits
  | 0, n => ⟨gridBelow units (k - n), k - n⟩
  | fuel + 1, n =>
    let e := k - n
    match choose? tie iv e (gridBelow units e) with
    | some c => .ofGrid c e n
    | none => search tie units iv k fuel (n + 1)

/-- The shortest digits of a positive magnitude. -/
def shortest (tie : Tie) (units : Nat) : Digits :=
  search tie units (Interval.ofUnits units) (magnitude units) 17 1

end DepScope.Decimal
