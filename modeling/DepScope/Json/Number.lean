import DepScope.Decimal.Read
import DepScope.Decimal.Shortest

/-!
# DepScope.Json.Number

Numbers of data documents. A number without fraction and exponent is kept exactly as long as it
fits into 64 bits; every other number is a double.

Doubles are read in the quick way: the leading digits that fit into 64 bits are taken, and the
result is scaled by a power of ten once, which may miss the nearest double by a little. They are
written with the fewest digits that read back exactly, always with a fraction or an exponent.
-/

namespace DepScope.Json

open Text Decimal

/-- A number. -/
inductive Number where
  | natural (n : Nat)
  | negative (n : Int)
  | real (x : Finite)
deriving DecidableEq

/-! ## Reading -/

/-- The largest integer of 64 bits. -/
def maxNatural : Nat := 2 ^ 64 - 1

/-- Takes on digits as long as the value fits: the value, and how many digits did not. -/
def takeDigits : Nat → List Char → Nat × Nat
  | acc, [] => (acc, 0)
  | acc, c :: cs =>
    let next := acc * 10 + (c.toNat - 48)
    if next ≤ maxNatural then takeDigits next cs else (acc, (c :: cs).length)

/-- The double nearest to a power of ten, which is a whole number of units, as a natural number. -/
def powerOfTen (n : Nat) : Nat :=
  unitsOfRatio (10 ^ n) 1 / 2 ^ unitBits

/-- Scales by a power of ten, in steps of at most 308; `none` if the result is too large. -/
def scale : Nat → Finite → Int → Option Finite
  | 0, x, _ => some x
  | fuel + 1, x, e =>
    if e.natAbs ≤ 308 then
      if 0 ≤ e then x.times? (powerOfTen e.natAbs) else some (x.dividedBy (powerOfTen e.natAbs))
    else if x.units = 0 then some x
    else if 0 ≤ e then none
    else scale fuel (x.dividedBy (powerOfTen 308)) (e + 308)

/-- Exponents beyond 32 bits are not computed with: zero stays zero, anything else is too large or
too small. -/
def scaleChecked (significand : Nat) (start : Int) (exponent : Int) : Option Finite :=
  if 2 ^ 31 ≤ exponent.natAbs then
    if 0 < exponent ∧ significand ≠ 0 then none else some .zero
  else scale 16 (.ofInt significand) (max (-6000) (start + exponent))

/-- The number of a sign, the digits before and after the point, and an exponent with its mark; `none`
if it is out of range. -/
def Number.ofParts? (minus : Bool) (whole fraction power : List Char) : Option Number :=
  let signed (x : Finite) := Number.real { x with negative := minus }
  let (significand, excess) := takeDigits 0 whole
  if fraction.isEmpty && power.isEmpty && excess == 0 then
    if !minus then some (.natural significand)
    else if 0 < significand && significand ≤ 2 ^ 63 then some (.negative (-(significand : Int)))
    else some (signed (.ofInt significand))
  else
    let (significand, dropped) := takeDigits significand fraction
    let start : Int := excess - ((fraction.length : Int) - dropped)
    let exponent := match power with
      | _ :: digits => (readExponent? digits).getD 0
      | [] => 0
    (scaleChecked significand start exponent).map signed

/-- Reads a number that the grammar accepts; `none` if it is out of range. -/
def Number.ofText? (text : List Char) : Option Number :=
  let (minus, body) := match text with
    | '-' :: more => (true, more)
    | _ => (false, text)
  let (whole, rest) := spanWhile isAsciiDigit body
  let (fraction, rest) := match rest with
    | '.' :: more => spanWhile isAsciiDigit more
    | _ => ([], rest)
  ofParts? minus whole fraction rest

/-! ## Writing -/

/-- Digits with the power of ten of the leading one: positional from `10^-5` up to `10^16`, and with a
signed exponent elsewhere. -/
def layOut (ds : List Char) (e : Int) : List Char :=
  let k : Int := ds.length
  if -5 ≤ e ∧ e < 0 then '0' :: '.' :: (List.replicate (-e - 1).toNat '0' ++ ds)
  else if 0 ≤ e ∧ e < 16 then
    if k ≤ e + 1 then ds ++ List.replicate (e + 1 - k).toNat '0' ++ ['.', '0']
    else ds.take (e + 1).toNat ++ '.' :: ds.drop (e + 1).toNat
  else
    let power := 'e' :: (if e < 0 then '-' else '+') :: decimalDigits e.natAbs
    match ds with
    | [] => power
    | [c] => c :: power
    | c :: more => c :: '.' :: (more ++ power)

/-- The text of a finite double. -/
def realText (x : Finite) : List Char :=
  (if x.negative then ['-'] else []) ++
    (if x.units = 0 then "0.0".toList
    else
      let d := shortest .toEven x.units
      layOut d.chars d.leading)

/-- The text of a number. -/
def Number.text : Number → List Char
  | natural n => decimalDigits n
  | negative n => (toString n).toList
  | real x => realText x

/-- The number as a double. -/
def Number.toReal : Number → Finite
  | natural n => .ofInt n
  | negative n => .ofInt n
  | real x => x

end DepScope.Json
