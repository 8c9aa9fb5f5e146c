import DepScope.Power

/-!
# DepScope.Decimal.Binary

Double-precision numbers as exact integers. Every finite double is a whole multiple of the
smallest positive one, `2^-1074`; `Binary.finite` keeps that multiple, so rounding, remainders and
decimal texts are computed in `Nat` without any loss.

Rounding is to the nearest double, an exact half going to the even neighbour.
-/

namespace DepScope.Decimal

/-- How many bits the unit lies below one: the unit is `2^-1074`. -/
def unitBits : Nat := 1074

/-- A double, taken apart. -/
inductive Binary where
  | nan
  | infinite (negative : Bool)
  /-- The value `± units · 2^-1074`. -/
  | finite (negative : Bool) (units : Nat)
deriving DecidableEq, Inhabited

/-- `n / d` rounded to the nearest integer, a half to the even one. -/
def roundDiv (n d : Nat) : Nat :=
  let q := n / d
  let r := n % d
  if 2 * r < d then q
  else if d < 2 * r then q + 1
  else if q % 2 = 0 then q else q + 1

/-- The number of low bits a double of this size does not resolve. -/
def spacing (units : Nat) : Nat :=
  units.log2 - 52

/-- The units of the double nearest to `num / den`. -/
def unitsOfRatio (num den : Nat) : Nat :=
  let scaled := num * 2 ^ unitBits
  let low := spacing (scaled / den)
  roundDiv scaled (den * 2 ^ low) * 2 ^ low

namespace Binary

/-- The bits of a magnitude; magnitudes out of range become the bits of infinity. -/
def magnitudeBits (units : Nat) : Nat :=
  if units < 2 ^ 52 then units
  else
    let low := spacing units
    if 2045 < low then 0x7FF * 2 ^ 52
    else (low + 1) * 2 ^ 52 + (units / 2 ^ low - 2 ^ 52)

/-- Takes a double apart. -/
def ofFloat (x : Float) : Binary :=
  let bits := x.toBits.toNat
  let negative := bits / 2 ^ 63 % 2 == 1
  let exponent := bits / 2 ^ 52 % 2 ^ 11
  let fraction := bits % 2 ^ 52
  if exponent = 0x7FF then (if fraction = 0 then infinite negative else nan)
  else if exponent = 0 then finite negative fraction
  else finite negative ((2 ^ 52 + fraction) * 2 ^ (exponent - 1))

/-- Puts a double together; the units are taken to be those of a double. -/
def toFloat : Binary → Float
  | nan => Float.ofBits 0x7FF8000000000000
  | infinite negative => signed negative (0x7FF * 2 ^ 52)
  | finite negative units => signed negative (magnitudeBits units)
where
  signed (negative : Bool) (bits : Nat) : Float :=
    Float.ofBits (UInt64.ofNat (bits + if negative then 2 ^ 63 else 0))

/-- The double nearest to a ratio. -/
def ofRatio (negative : Bool) (num den : Nat) : Binary :=
  finite negative (unitsOfRatio num den)

/-- The double nearest to an integer. -/
def ofInt (n : Int) : Binary :=
  ofRatio (n < 0) n.natAbs 1

/-- The integer part, for a finite number. -/
def truncate? : Binary → Option Int
  | finite negative units =>
    let whole : Int := (units / 2 ^ unitBits : Nat)
    some (if negative then -whole else whole)
  | _ => none

/-- Is this a finite number without a fraction? -/
def isWhole : Binary → Bool
  | finite _ units => units % 2 ^ unitBits == 0
  | _ => false

/-- The remainder of a division that goes toward zero; it has the sign of the dividend. -/
def remainder : Binary → Binary → Binary
  | finite negative a, finite _ b => if b = 0 then nan else finite negative (a % b)
  | finite negative a, infinite _ => finite negative a
  | _, _ => nan

end Binary

/-- The double nearest to an integer. -/
def floatOfInt (n : Int) : Float :=
  (Binary.ofInt n).toFloat

/-! ## Finite numbers -/

/-- Magnitudes of doubles lie below this many units. -/
def unitBound : Nat := 2 ^ (1024 + unitBits)

/-- A finite double. -/
structure Finite where
  negative : Bool
  units : Nat
deriving DecidableEq, Inhabited

namespace Finite

/-- Zero. -/
def zero : Finite := ⟨false, 0⟩

/-- The double nearest to an integer below `2^1023`. -/
def ofInt (n : Int) : Finite :=
  ⟨n < 0, unitsOfRatio n.natAbs 1⟩

/-- The double nearest to the product with a natural number; `none` if it is too large. -/
def times? (x : Finite) (n : Nat) : Option Finite :=
  let units := unitsOfRatio (x.units * n) (2 ^ unitBits)
  if units < unitBound then some ⟨x.negative, units⟩ else none

/-- The double nearest to the quotient by a positive natural number. -/
def dividedBy (x : Finite) (n : Nat) : Finite :=
  ⟨x.negative, unitsOfRatio x.units (2 ^ unitBits * n)⟩

/-- The magnitude rounded to an integer, a half to the even one. -/
def nearestWhole (x : Finite) : Nat :=
  roundDiv x.units (2 ^ unitBits)

end Finite

end DepScope.Decimal
