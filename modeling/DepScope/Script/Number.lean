import DepScope.Decimal.Read
import DepScope.Decimal.Shortest
import DepScope.Text.Chars

/-!
# DepScope.Script.Number

Numbers of the script language as text: numeric literals with their separators, bases and the
suffix `n`, the conversion of a text to a number, and the text of a number.

Big integers have 128 bits: `checked` refuses what does not fit.
-/

namespace DepScope.Script

open Text Decimal

/-! ## Big integers -/

/-- The integer, if it fits into 128 bits with a sign. -/
def checked (n : Int) : Option Int :=
  if -(2 ^ 127) ≤ n ∧ n < 2 ^ 127 then some n else none

/-- Digits in a base with an optional sign. -/
def integerIn? (base : Nat) (cs : List Char) : Option Int :=
  let (negative, digits) := splitSign cs
  (natIn? base digits).map fun n => if negative then -(n : Int) else n

/-- A big integer in a base. -/
def bigintIn? (base : Nat) (cs : List Char) : Option Int :=
  (integerIn? base cs).bind checked

/-! ## Literals -/

/-- The base a mark `0x`, `0o` or `0b` announces, and what follows the mark. -/
def basePrefix? : List Char → Option (Nat × List Char)
  | '0' :: c :: cs =>
    match lowerAscii c with
    | 'x' => some (16, cs)
    | 'o' => some (8, cs)
    | 'b' => some (2, cs)
    | _ => none
  | _ => none

/-- Digits in a base accumulated in floating point, which rounds at every step. -/
def floatDigits (base : Nat) : Float → List Char → Option Float
  | acc, [] => some acc
  | acc, c :: cs =>
    (digitIn? base c).bind fun d => floatDigits base (acc * Float.ofNat base + Float.ofNat d) cs

/-- The value of a number with a base mark; the inner `none` means that its digits are malformed. -/
def marked? (cs : List Char) : Option (Option Float) :=
  (basePrefix? cs).map fun (base, digits) =>
    if digits.isEmpty then none else floatDigits base 0 digits

/-- What a numeric literal denotes. -/
inductive Numeric where
  | number (x : Float)
  | bigint (n : Int)

/-- A zero followed by octal digits only, as old scripts write them. -/
def isLegacyOctal (cs : List Char) : Bool :=
  1 < cs.length && cs.head? == some '0' && cs.all fun c => '0' ≤ c && c ≤ '7'

/-- Reads a numeric literal: separators are dropped, a final `n` makes it a big integer. -/
def numericLiteral? (text : List Char) : Option Numeric :=
  let cs := text.filter (· != '_')
  match beforeSuffix? ['n'] cs with
  | some digits =>
    let (base, body) := (basePrefix? digits).getD (10, digits)
    (bigintIn? base body).map .bigint
  | none =>
    match marked? cs with
    | some value => value.map .number
    | none =>
      if isLegacyOctal cs then
        ((natIn? 8 (cs.drop 1)).filter (· < 2 ^ 63)).map fun n => .number (floatOfInt n)
      else (readReal? cs).map fun x => .number x.toFloat

/-! ## Conversions -/

/-- Not a number. -/
def notANumber : Float := Binary.nan.toFloat

/-- The number a text stands for; a text that is blank is zero, any other is not a number. -/
def numberOfText (s : String) : Float :=
  let cs := trim s.toList
  if cs.isEmpty then 0
  else if cs = "Infinity".toList || cs = "+Infinity".toList then (Binary.infinite false).toFloat
  else if cs = "-Infinity".toList then (Binary.infinite true).toFloat
  else match marked? cs with
    | some value => value.getD notANumber
    | none =>
      let (negative, body) := splitSign cs
      match readNumeral? body with
      | some n => (n.toBinary negative).toFloat
      | none => notANumber

/-- The text of the digits `ds` with the decimal point after the first `n` of them: positional
between `10^-7` and `10^21`, with an exponent elsewhere. -/
def pointAt (ds : List Char) (n : Int) : List Char :=
  let k : Int := ds.length
  if k ≤ n ∧ n ≤ 21 then ds ++ List.replicate (n - k).toNat '0'
  else if 0 < n ∧ n ≤ 21 then ds.take n.toNat ++ '.' :: ds.drop n.toNat
  else if -6 < n ∧ n ≤ 0 then '0' :: '.' :: (List.replicate (-n).toNat '0' ++ ds)
  else
    let power := 'e' :: (if n - 1 < 0 then '-' else '+') :: decimalDigits (n - 1).natAbs
    match ds with
    | [] => power
    | [d] => d :: power
    | d :: rest => d :: '.' :: (rest ++ power)

/-- The text of a number: the shortest digits that read back, a tie between two going up. -/
def numberText (x : Float) : String :=
  match Binary.ofFloat x with
  | .nan => "NaN"
  | .infinite negative => if negative then "-Infinity" else "Infinity"
  | .finite negative units =>
    if units = 0 then "0"
    else
      let d := shortest .up units
      String.ofList ((if negative then ['-'] else []) ++ pointAt d.chars (d.leading + 1))

/-- The low 32 bits of a number's integer part; zero for a number that is not finite. -/
def low32 (x : Float) : Nat :=
  ((Binary.ofFloat x).truncate?.getD 0 % 2 ^ 32).toNat

/-- The low 32 bits read with a sign. -/
def signed32 (n : Nat) : Int :=
  if n < 2 ^ 31 then n else (n : Int) - 2 ^ 32

end DepScope.Script
