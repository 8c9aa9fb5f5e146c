import DepScope.Text.Chars
import DepScope.Text.Units

/-!
# DepScope.Script.Escape

The escapes inside string literals and templates:

* `\n \r \t \b \f \v` are the usual control characters;
* `\` and up to three octal digits, the first at most `3`, or up to two, is that character;
* `\xHH`, `\uHHHH` and `\u{H…}` name a code unit or a code point;
* `\` before a line break stands for nothing;
* `\` before anything else is that character.

The result is a sequence of UTF-16 units, so that a pair of surrogates may be written as two
escapes; a surrogate left alone is read as U+FFFD. Hexadecimal digits may start with a plus sign.
-/

namespace DepScope.Script

open Text

/-- The value of an octal digit. -/
def octal? (c : Char) : Option Nat :=
  digitIn? 8 c

/-- Up to `n` further octal digits: the value they extend to, and the rest. -/
def octalTail : Nat → Nat → List Char → Nat × List Char
  | n + 1, v, c :: cs =>
    match octal? c with
    | some d => octalTail n (v * 8 + d) cs
    | none => (v, c :: cs)
  | _, v, cs => (v, cs)

/-- The units of a code point written in braces; a surrogate stands for itself. -/
def codePointUnits? (n : Nat) : Option (List Nat) :=
  if isHighSurrogate n || isLowSurrogate n then some [n]
  else if n < 0x110000 then some (unitsOf (Char.ofNat n))
  else none

/-- One escape, read after its backslash: the units it stands for, and the rest. -/
def escape? : List Char → Option (List Nat × List Char)
  | [] => none
  | 'n' :: cs => some ([0x0A], cs)
  | 'r' :: cs => some ([0x0D], cs)
  | 't' :: cs => some ([0x09], cs)
  | 'b' :: cs => some ([0x08], cs)
  | 'f' :: cs => some ([0x0C], cs)
  | 'v' :: cs => some ([0x0B], cs)
  | 'x' :: a :: b :: cs => (hexBelow? 0x10000 [a, b]).map fun u => ([u], cs)
  | ['x'] => none
  | ['x', _] => none
  | 'u' :: '\x7b' :: cs => do
    let (digits, rest) ← cutAt? '\x7d' cs
    let units ← codePointUnits? (← hexBelow? 0x100000000 digits)
    return (units, rest)
  | 'u' :: cs =>
    match cs with
    | a :: b :: c :: d :: rest => (hexBelow? 0x10000 [a, b, c, d]).map fun u => ([u], rest)
    | _ => none
  | '\r' :: '\n' :: cs => some ([], cs)
  | c :: cs =>
    if c = '\r' || c = '\n' || c = '\u2028' || c = '\u2029' then some ([], cs)
    else match octal? c with
      | some d =>
        let (u, rest) := octalTail (if d ≤ 3 then 2 else 1) d cs
        some ([u], rest)
      | none => some (unitsOf c, cs)

/-- The units of a literal's body, with one step of fuel for each character. -/
def bodyUnits : Nat → List Char → Option (List Nat)
  | _, [] => some []
  | 0, _ :: _ => none
  | fuel + 1, c :: cs =>
    if c = '\\' then do
      let (units, rest) ← escape? cs
      return units ++ (← bodyUnits fuel rest)
    else do
      return unitsOf c ++ (← bodyUnits fuel cs)

/-- The text of a literal's body; `none` when an escape is malformed. -/
def decodeEscapes? (body : List Char) : Option String :=
  (bodyUnits body.length body).map fun us => String.ofList (ofUnits us)

/-- Line breaks inside a template are read as line feeds. -/
def foldBreaks : List Char → List Char
  | '\r' :: '\n' :: cs => '\n' :: foldBreaks cs
  | '\r' :: cs => '\n' :: foldBreaks cs
  | c :: cs => c :: foldBreaks cs
  | [] => []

end DepScope.Script
