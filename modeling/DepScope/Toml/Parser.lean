import DepScope.Text.Reader
import DepScope.Toml.Tree

/-!
# DepScope.Toml.Parser

The grammar of documents. Spaces, tabs and comments may stand between any two words; line breaks
only where the grammar names them. Of the readings of a number or date the longest is taken.

`Rules.looseContinuation` lets blanks stand between a backslash and the end of its line in a string
on several lines.
-/

namespace DepScope.Toml

open Text Reader

/-- What a reader of documents may choose. -/
structure Rules where
  looseContinuation : Bool

/-! ## Gaps -/

/-- Characters a comment may hold. -/
def isCommentChar (c : Char) : Bool :=
  let n := c.toNat
  n == 9 || (0x20 ≤ n && n != 0x7F)

/-- Skips spaces, tabs and a comment. -/
def gap : Reader Unit := do
  let _ ← takeWhile fun c => c = ' ' || c = '\t'
  let _ ← maybe do
    exactly "#"
    takeWhile isCommentChar

/-- The end of a line, with or without a carriage return. -/
def lineBreak : Reader Unit :=
  exactly "\n" <|> exactly "\r\n"

/-- The end of a pair or header. -/
def lineEnd : Reader Unit := do
  gap
  lineBreak <|> atEnd

/-- Skips gaps and line breaks. -/
def gaps : Reader Unit := do
  let _ ← many (do gap; lineBreak)
  gap

/-! ## Strings -/

/-- Characters that stand for themselves in a string, quotes and backslashes apart. -/
def isPlainChar (c : Char) : Bool :=
  isCommentChar c

/-- The length of an escape after its backslash. -/
def escapeLength? : List Char → Option Nat
  | 'u' :: ds => hexRun 4 ds
  | 'U' :: ds => hexRun 8 ds
  | c :: _ => if "btnfr\"\\".toList.contains c then some 1 else none
  | [] => none
where
  hexRun (n : Nat) (ds : List Char) : Option Nat :=
    let digits := ds.take n
    if digits.length = n && digits.all (fun c => (digitIn? 16 c).isSome) then some (n + 1) else none

/-- The length of a basic string after its quote, the closing quote included. -/
def basicLength : Nat → List Char → Option Nat
  | 0, _ => none
  | _, [] => none
  | fuel + 1, c :: cs =>
    if c = '"' then some 1
    else if c = '\\' then do
      let n ← escapeLength? cs
      return (← basicLength fuel (cs.drop n)) + n + 1
    else if isPlainChar c then (basicLength fuel cs).map (· + 1)
    else none

/-- The length of a literal string after its quote, the closing quote included. -/
def literalLength : List Char → Option Nat
  | [] => none
  | c :: cs =>
    if c = '\'' then some 1
    else if isPlainChar c then (literalLength cs).map (· + 1)
    else none

/-- The number of quotes at the start. -/
def quoteRun (q : Char) (cs : List Char) : Nat :=
  (cs.takeWhile (· == q)).length

/-- The length of a line break at the start. -/
def breakLength? : List Char → Option Nat
  | '\n' :: _ => some 1
  | '\r' :: '\n' :: _ => some 2
  | _ => none

/-- The length of a backslash's line end, blanks before it counted if the rules let them. -/
def continuationLength? (rules : Rules) (cs : List Char) : Option Nat :=
  let blanks := if rules.looseContinuation then (cs.takeWhile fun c => c = ' ' || c = '\t').length else 0
  (breakLength? (cs.drop blanks)).map (· + blanks)

/-- The length of a string on several lines after its three quotes, the closing ones included. Up
to two quotes may stand right before the closing ones. -/
def multilineLength (rules : Rules) (q : Char) : Nat → List Char → Option Nat
  | 0, _ => none
  | _, [] => none
  | fuel + 1, c :: cs =>
    if c = q then
      let n := quoteRun q (c :: cs)
      if 3 ≤ n then some (min n 5)
      else (multilineLength rules q fuel ((c :: cs).drop n)).map (· + n)
    else if c = '\\' && q = '"' then do
      let n ← (escapeLength? cs).or (continuationLength? rules cs)
      return (← multilineLength rules q fuel (cs.drop n)) + n + 1
    else match breakLength? (c :: cs) with
      | some n => (multilineLength rules q fuel ((c :: cs).drop n)).map (· + n)
      | none =>
        if isPlainChar c then (multilineLength rules q fuel cs).map (· + 1) else none

/-- The length of a string on one line. -/
def lineStringLength? : List Char → Option Nat
  | '"' :: cs => (basicLength cs.length cs).map (· + 1)
  | '\'' :: cs => (literalLength cs).map (· + 1)
  | _ => none

/-- The length of a string in any form. -/
def stringLength? (rules : Rules) : List Char → Option Nat
  | '"' :: '"' :: '"' :: cs => (multilineLength rules '"' cs.length cs).map (· + 3)
  | '\'' :: '\'' :: '\'' :: cs => (multilineLength rules '\'' cs.length cs).map (· + 3)
  | cs => lineStringLength? cs

/-! ## Numbers and dates -/

/-- The length of digits with single underscores between them. -/
def digitRun (p : Char → Bool) : List Char → Nat
  | c :: '_' :: d :: cs => if p c then (if p d then digitRun p (d :: cs) + 2 else 1) else 0
  | c :: cs => if p c then digitRun p cs + 1 else 0
  | [] => 0

/-- The length of a sign. -/
def signLength : List Char → Nat
  | '+' :: _ | '-' :: _ => 1
  | _ => 0

/-- The length of a decimal integer. -/
def decimalLength? (cs : List Char) : Option Nat :=
  let s := signLength cs
  match cs.drop s with
  | '0' :: _ => some (s + 1)
  | ds =>
    let n := digitRun isAsciiDigit ds
    if n = 0 then none else some (s + n)

/-- The length of an integer with a base mark. -/
def basedLength? : List Char → Option Nat
  | '0' :: 'x' :: ds => based (fun c => (digitIn? 16 c).isSome) ds
  | '0' :: 'o' :: ds => based (fun c => (digitIn? 8 c).isSome) ds
  | '0' :: 'b' :: ds => based (fun c => (digitIn? 2 c).isSome) ds
  | _ => none
where
  based (p : Char → Bool) (ds : List Char) : Option Nat :=
    let n := digitRun p ds
    if n = 0 then none else some (n + 2)

/-- The length of an exponent, zero if there is none. -/
def exponentLength : List Char → Nat
  | e :: cs =>
    if e = 'e' || e = 'E' then
      let s := signLength cs
      let n := digitRun isAsciiDigit (cs.drop s)
      if n = 0 then 0 else 1 + s + n
    else 0
  | [] => 0

/-- The length of a fraction with its point, zero if there is none. -/
def fractionLength : List Char → Nat
  | '.' :: cs =>
    let n := digitRun isAsciiDigit cs
    if n = 0 then 0 else n + 1
  | _ => 0

/-- The length of a number with a fraction or an exponent. -/
def floatLength? (cs : List Char) : Option Nat :=
  let s := signLength cs
  let special := ["inf".toList, "nan".toList].any fun w => hasPrefix w (cs.drop s)
  if special then some (s + 3)
  else do
    let n ← decimalLength? cs
    let f := fractionLength (cs.drop n)
    let e := exponentLength (cs.drop (n + f))
    if f + e = 0 then none else some (n + f + e)

/-- Two digits within bounds. -/
def twoDigits (low high : Nat) (cs : List Char) : Bool :=
  match cs with
  | a :: b :: _ =>
    match readDigits 10 0 [a, b] with
    | some n => low ≤ n && n ≤ high
    | none => false
  | _ => false

/-- The length of a date. -/
def dateLength? (cs : List Char) : Option Nat :=
  let y := (cs.takeWhile isAsciiDigit).length
  match cs.drop y with
  | '-' :: m1 :: m2 :: '-' :: d =>
    if y ≠ 0 && twoDigits 1 12 [m1, m2] && twoDigits 1 31 d then some (y + 6) else none
  | _ => none

/-- The length of a time of day. -/
def timeLength? (cs : List Char) : Option Nat :=
  match cs with
  | a :: b :: ':' :: c :: d :: ':' :: more =>
    if twoDigits 0 23 [a, b] && twoDigits 0 59 [c, d] && twoDigits 0 60 more then
      let rest := more.drop 2
      let fraction := match rest with
        | '.' :: ds =>
          let n := (ds.takeWhile isAsciiDigit).length
          if n = 0 then 0 else n + 1
        | _ => 0
      some (8 + fraction)
    else none
  | _ => none

/-- The length of an offset from universal time. -/
def offsetLength? : List Char → Option Nat
  | 'z' :: _ | 'Z' :: _ => some 1
  | s :: a :: b :: ':' :: more =>
    if (s = '+' || s = '-') && twoDigits 0 23 [a, b] && twoDigits 0 59 more then some 6 else none
  | _ => none

/-- The length of a date with a time. -/
def dateTimeLength? (cs : List Char) : Option Nat := do
  let d ← dateLength? cs
  match cs.drop d with
  | c :: more =>
    if c = ' ' || c = 't' || c = 'T' then return d + 1 + (← timeLength? more) else none
  | [] => none

/-- The length of a date with a time and an offset. -/
def offsetDateTimeLength? (cs : List Char) : Option Nat := do
  let n ← dateTimeLength? cs
  return n + (← offsetLength? (cs.drop n))

/-- The length of a truth value. -/
def truthLength? (cs : List Char) : Option Nat :=
  if hasPrefix "true".toList cs then some 4
  else if hasPrefix "false".toList cs then some 5
  else none

/-- The readings of a scalar, the more specific ones first. -/
def scalarReadings (cs : List Char) : List (ScalarKind × Nat) :=
  [(.offsetDateTime, offsetDateTimeLength? cs), (.localDateTime, dateTimeLength? cs),
   (.localDate, dateLength? cs), (.localTime, timeLength? cs), (.float, floatLength? cs),
   (.integer, basedLength? cs), (.integer, decimalLength? cs), (.truth, truthLength? cs)].filterMap
    fun (k, n) => n.map (k, ·)

/-- The longest reading of a scalar. -/
def scalarAt? (cs : List Char) : Option (ScalarKind × Nat) :=
  (scalarReadings cs).foldl
    (fun best r => match best with
      | some b => if b.2 < r.2 then some r else some b
      | none => some r)
    none

/-! ## Keys -/

/-- Characters of a key without quotes. -/
def isBareChar (c : Char) : Bool :=
  isAsciiAlnum c || c = '_' || c = '-'

/-- One name of a key. -/
def keyPart : Reader KeyPart :=
  (do return ⟨false, ← takeWhile1 isBareChar⟩) <|>
  (do return ⟨true, ← measured lineStringLength?⟩)

/-- A key; dots may have gaps around them. -/
def key : Reader Key := do
  let start ← pos
  let first ← keyPart
  let stop ← pos
  let more ← many do
    gap
    exactly "."
    gap
    let p ← keyPart
    return (p, ← pos)
  return ⟨⟨start, (more.getLast?.map (·.2)).getD stop⟩, first :: more.map (·.1)⟩

/-! ## Values -/

mutual

/-- A value, nested at most so deep. -/
def value (rules : Rules) : Nat → Reader Value
  | 0 => failure
  | depth + 1 => do
    let start ← pos
    match ← rest with
    | '[' :: _ => do
      let _ ← take 1
      let items ← items rules depth
      return .array ⟨start, ← pos⟩ items
    | '\x7b' :: _ => do
      let _ ← take 1
      gap
      let pairs ← inlinePairs rules depth
      return .inlineTable ⟨start, ← pos⟩ pairs
    | cs =>
      match stringLength? rules cs with
      | some n => do
        let raw ← take n
        return .string ⟨start, ← pos⟩ raw
      | none =>
        match scalarAt? cs with
        | some (kind, n) => do
          let raw ← take n
          return .scalar ⟨start, ← pos⟩ kind raw
        | none => failure

/-- The items of an array up to its closing bracket; a comma may follow the last one. -/
def items (rules : Rules) : Nat → Reader (List Value)
  | 0 => failure
  | depth + 1 => do
    gaps
    match ← rest with
    | ']' :: _ => do
      let _ ← take 1
      return []
    | _ => do
      let v ← value rules depth
      gaps
      match ← rest with
      | ',' :: _ => do
        let _ ← take 1
        return v :: (← items rules depth)
      | ']' :: _ => do
        let _ ← take 1
        return [v]
      | _ => failure

/-- The pairs of an inline table up to its closing brace. -/
def inlinePairs (rules : Rules) : Nat → Reader (List (Key × Value))
  | 0 => failure
  | depth + 1 => do
    match ← rest with
    | '\x7d' :: _ => do
      let _ ← take 1
      return []
    | _ => do
      let k ← key
      gap
      exactly "="
      gap
      let v ← value rules depth
      gap
      match ← rest with
      | '\x7d' :: _ => do
        let _ ← take 1
        return [(k, v)]
      | ',' :: _ => do
        let _ ← take 1
        gap
        match ← rest with
        | '\x7d' :: _ => failure
        | _ => return (k, v) :: (← inlinePairs rules depth)
      | _ => failure

end

/-! ## Documents -/

/-- A pair on a line of its own. -/
def pairLine (rules : Rules) (depth : Nat) : Reader Pair := do
  gap
  let k ← key
  gap
  exactly "="
  gap
  let v ← value rules depth
  lineEnd
  return (k, v)

/-- A line without a pair. -/
def emptyLine : Reader Unit := do
  gap
  lineBreak

/-- Pairs and empty lines. -/
def pairLines (rules : Rules) (depth : Nat) : Reader (List Pair) := do
  let got ← many ((do return some (← pairLine rules depth)) <|> (do emptyLine; return none))
  return got.filterMap id

/-- A table: its header and its pairs. -/
def table (rules : Rules) (depth : Nat) : Reader Section := do
  gap
  exactly "["
  let many := (← maybe (exactly "[")).isSome
  gap
  let header ← key
  gap
  exactly (if many then "]]" else "]")
  lineEnd
  return ⟨many, header, ← pairLines rules depth⟩

/-- A whole document. -/
def document (rules : Rules) (depth : Nat) : Reader Document := do
  let pairs ← pairLines rules depth
  let sections ← many (table rules depth)
  gap
  return ⟨pairs, sections⟩

/-- Reads a document; `none` if it is malformed. A byte order mark at its start is left out. -/
def parse? (rules : Rules) (text : String) : Option Document :=
  let cs := text.toList
  let start : Place := match cs with
    | '\uFEFF' :: more => ⟨more, 3⟩
    | _ => ⟨cs, 0⟩
  runAll? (document rules (cs.length + 2)) start

end DepScope.Toml
