/-!
# DepScope.Text.Units

Text as a sequence of UTF-16 code units. A character beyond U+FFFF is written as a pair of
surrogates; going back, a surrogate that is not part of a pair becomes U+FFFD.
-/

namespace DepScope.Text

/-- The code units of a character. -/
def unitsOf (c : Char) : List Nat :=
  let n := c.toNat
  if n < 0x10000 then [n]
  else [0xD800 + (n - 0x10000) / 0x400, 0xDC00 + (n - 0x10000) % 0x400]

/-- The first half of a pair. -/
def isHighSurrogate (u : Nat) : Bool :=
  0xD800 ≤ u && u < 0xDC00

/-- The second half of a pair. -/
def isLowSurrogate (u : Nat) : Bool :=
  0xDC00 ≤ u && u < 0xE000

/-- The character two halves stand for. -/
def joinSurrogates (high low : Nat) : Char :=
  Char.ofNat (0x10000 + (high - 0xD800) * 0x400 + (low - 0xDC00))

/-- The text of a unit sequence, lone surrogates replaced by U+FFFD. -/
def ofUnits : List Nat → List Char
  | [] => []
  | [u] => [if isHighSurrogate u || isLowSurrogate u then '\uFFFD' else Char.ofNat u]
  | u :: v :: us =>
    if isHighSurrogate u then
      if isLowSurrogate v then joinSurrogates u v :: ofUnits us
      else '\uFFFD' :: ofUnits (v :: us)
    else if isLowSurrogate u then '\uFFFD' :: ofUnits (v :: us)
    else Char.ofNat u :: ofUnits (v :: us)

/-- Texts in the order of their code units. -/
def compareUnits (a b : List Char) : Ordering :=
  compareOfLessAndEq (a.flatMap unitsOf) (b.flatMap unitsOf)

end DepScope.Text
