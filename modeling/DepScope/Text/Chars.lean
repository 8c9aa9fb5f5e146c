/-!
# DepScope.Text.Chars

Plumbing on lists of characters that every reader of this library shares: the blank characters
of Unicode, trimming, prefixes and suffixes, cutting at a separator, case folding of the letters
`A`–`Z`, and digits in a base.

Text is taken apart as `List Char` and handed out again as `String`, so that readers are
structural recursions and statements about them are inductions on the list.
-/

namespace DepScope.Text

/-! ## Character classes -/

/-- The characters with Unicode's `White_Space` property. -/
def isBlank (c : Char) : Bool :=
  let n := c.toNat
  (9 ≤ n && n ≤ 13) || n == 0x20 || n == 0x85 || n == 0xA0 || n == 0x1680
    || (0x2000 ≤ n && n ≤ 0x200A) || n == 0x2028 || n == 0x2029 || n == 0x202F
    || n == 0x205F || n == 0x3000

/-- The blanks that are also ASCII: space, tab, line feed, vertical tab, form feed, return. -/
def isAsciiBlank (c : Char) : Bool :=
  let n := c.toNat
  (9 ≤ n && n ≤ 13) || n == 0x20

/-- `A`–`Z`, `a`–`z`. -/
def isAsciiLetter (c : Char) : Bool :=
  ('a' ≤ c && c ≤ 'z') || ('A' ≤ c && c ≤ 'Z')

/-- `0`–`9`. -/
def isAsciiDigit (c : Char) : Bool :=
  '0' ≤ c && c ≤ '9'

/-- A letter or a digit, both ASCII. -/
def isAsciiAlnum (c : Char) : Bool :=
  isAsciiLetter c || isAsciiDigit c

/-- Folds `A`–`Z` and leaves every other character alone. -/
def lowerAscii (c : Char) : Char :=
  if 'A' ≤ c && c ≤ 'Z' then Char.ofNat (c.toNat + 32) else c

/-! ## Trimming -/

/-- Drops the leading blanks. -/
def trimStart (cs : List Char) : List Char :=
  cs.dropWhile isBlank

/-- Drops the trailing blanks. -/
def trimEnd (cs : List Char) : List Char :=
  (cs.reverse.dropWhile isBlank).reverse

/-- Drops the blanks at both ends. -/
def trim (cs : List Char) : List Char :=
  trimEnd (trimStart cs)

/-- `trim` on strings. -/
def trimmed (s : String) : String :=
  String.ofList (trim s.toList)

/-! ## Cutting -/

/-- What follows `p`, when the text starts with it. -/
def afterPrefix? (p cs : List Char) : Option (List Char) :=
  match p, cs with
  | [], cs => some cs
  | _ :: _, [] => none
  | a :: p, c :: cs => if a = c then afterPrefix? p cs else none

/-- Does the text start with `p`? -/
def hasPrefix (p cs : List Char) : Bool :=
  (afterPrefix? p cs).isSome

/-- Does the text end with `p`? -/
def hasSuffix (p cs : List Char) : Bool :=
  hasPrefix p.reverse cs.reverse

/-- What stands before `p`, when the text ends with it. -/
def beforeSuffix? (p cs : List Char) : Option (List Char) :=
  (afterPrefix? p.reverse cs.reverse).map List.reverse

/-- The two sides of the first `sep`, when there is one. -/
def cutAt? (sep : Char) : List Char → Option (List Char × List Char)
  | [] => none
  | c :: cs =>
    if c = sep then some ([], cs) else (cutAt? sep cs).map fun (a, b) => (c :: a, b)

/-- The pieces between the separators; always at least one. -/
def pieces (sep : Char) : List Char → List (List Char)
  | [] => [[]]
  | c :: cs =>
    if c = sep then [] :: pieces sep cs
    else match pieces sep cs with
      | [] => [[c]]
      | p :: ps => (c :: p) :: ps

/-- Splits off the longest prefix whose characters satisfy `p`. -/
def spanWhile (p : Char → Bool) (cs : List Char) : List Char × List Char :=
  (cs.takeWhile p, cs.dropWhile p)

/-- Replaces every `a` by `b`. -/
def substitute (a b : Char) (cs : List Char) : List Char :=
  cs.map fun c => if c = a then b else c

/-- Joins pieces with a separator between each two. -/
def joinWith (sep : List Char) : List (List Char) → List Char
  | [] => []
  | [p] => p
  | p :: ps => p ++ sep ++ joinWith sep ps

/-- The lines of a text: cut after each line feed, a final empty line left out, and one carriage
return before the feed dropped. -/
def lines (cs : List Char) : List (List Char) :=
  let ps := pieces '\n' cs
  let last := ps.getLast?.getD []
  let whole := ps.dropLast.map fun l => (beforeSuffix? ['\r'] l).getD l
  if last.isEmpty then whole else whole ++ [last]

/-! ## Digits -/

/-- The value of a digit, letters counting on from ten. -/
def digitValue? (c : Char) : Option Nat :=
  if isAsciiDigit c then some (c.toNat - 48)
  else if 'a' ≤ c && c ≤ 'z' then some (c.toNat - 87)
  else if 'A' ≤ c && c ≤ 'Z' then some (c.toNat - 55)
  else none

/-- The value of a digit of the given base. -/
def digitIn? (base : Nat) (c : Char) : Option Nat :=
  (digitValue? c).filter (· < base)

/-- The value of a digit sequence, continuing from `acc`; `none` at the first other character. -/
def readDigits (base : Nat) : Nat → List Char → Option Nat
  | acc, [] => some acc
  | acc, c :: cs => (digitIn? base c).bind fun d => readDigits base (acc * base + d) cs

/-- The value of a non-empty digit sequence. -/
def natIn? (base : Nat) : List Char → Option Nat
  | [] => none
  | cs => readDigits base 0 cs

/-- Hexadecimal digits with an optional plus sign in front, below a bound. -/
def hexBelow? (bound : Nat) (cs : List Char) : Option Nat :=
  let digits := match cs with
    | '+' :: ds => ds
    | ds => ds
  (natIn? 16 digits).filter (· < bound)

/-- The decimal digits of a number. -/
def decimalDigits (n : Nat) : List Char :=
  Nat.toDigits 10 n

/-- Four hexadecimal digits, lower case. -/
def hex4 (n : Nat) : List Char :=
  let ds := Nat.toDigits 16 n
  List.replicate (4 - ds.length) '0' ++ ds

end DepScope.Text
