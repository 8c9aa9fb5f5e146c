import DepScope.Decimal.Binary
import DepScope.Text.Chars

/-!
# DepScope.Decimal.Read

Decimal texts read as doubles, correctly rounded. `readReal?` takes

    [+-] ( digits [. digits?] | . digits ) [ (e|E) [+-] digits ]

and the words `inf`, `infinity` and `nan` in any case, with no blank around.
-/

namespace DepScope.Decimal

open Text

/-- The parts of a decimal text: the digits before and after the point, and the power of ten. -/
structure Numeral where
  whole : List Char
  fraction : List Char
  exponent : Int
deriving DecidableEq

namespace Numeral

/-- The double nearest to a numeral. Powers far outside the range are settled by size alone. -/
def toBinary (negative : Bool) (n : Numeral) : Binary :=
  let digits := (readDigits 10 0 (n.whole ++ n.fraction)).getD 0
  let scale := n.exponent - n.fraction.length
  let top := scale + ((Nat.toDigits 10 digits).length : Int)
  if digits = 0 then .finite negative 0
  else if 400 < top then .infinite negative
  else if top < -400 then .finite negative 0
  else if 0 ≤ scale then .ofRatio negative (digits * 10 ^ scale.toNat) 1
  else .ofRatio negative digits (10 ^ (-scale).toNat)

end Numeral

/-- An optional sign, and what follows it. -/
def splitSign : List Char → Bool × List Char
  | '-' :: cs => (true, cs)
  | '+' :: cs => (false, cs)
  | cs => (false, cs)

/-- The power of ten written after the mark; `none` when digits are missing or more follows. -/
def readExponent? (cs : List Char) : Option Int :=
  let (negative, digits) := splitSign cs
  (natIn? 10 digits).map fun n => if negative then -(n : Int) else n

/-- The parts of an unsigned decimal text. -/
def readNumeral? (cs : List Char) : Option Numeral :=
  let (whole, rest) := spanWhile isAsciiDigit cs
  let (fraction, rest) := match rest with
    | '.' :: more => spanWhile isAsciiDigit more
    | _ => ([], rest)
  if whole.isEmpty && fraction.isEmpty then none
  else match rest with
    | [] => some ⟨whole, fraction, 0⟩
    | c :: more =>
      if c = 'e' || c = 'E' then (readExponent? more).map (⟨whole, fraction, ·⟩) else none

/-- Reads a decimal text or one of the words for a special value. -/
def readReal? (cs : List Char) : Option Binary :=
  let (negative, body) := splitSign cs
  let folded := body.map lowerAscii
  if folded = "inf".toList || folded = "infinity".toList then some (.infinite negative)
  else if folded = "nan".toList then some .nan
  else (readNumeral? body).map (·.toBinary negative)

end DepScope.Decimal
