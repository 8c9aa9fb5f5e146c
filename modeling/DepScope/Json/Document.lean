import DepScope.Json.Text
import DepScope.Text.Position

/-!
# DepScope.Json.Document

Documents with the place of every value. There are two dialects:

* `strict` is the data format itself;
* `lenient`, for files that people write, also accepts comments, all ASCII blanks, several values
  one after the other, control characters other than NUL inside strings, and a number that ends in
  its point. It takes no plus sign in an exponent and no NUL in a comment.

What the grammar accepts and the text of a string are two questions: a string whose escapes make no
sense is a string without a text.

Reading goes through words (`Token`), whose spans do not overlap and increase.
-/

namespace DepScope.Json

open Text

/-- How strictly a document is read. -/
inductive Dialect where
  | strict
  | lenient
deriving DecidableEq

/-! ## Words -/

/-- What a word is. -/
inductive Mark where
  | openBrace
  | closeBrace
  | openBracket
  | closeBracket
  | colon
  | comma
  | string (body : List Char)
  | number (text : List Char)
  | true
  | false
  | null
deriving DecidableEq

/-- A word and its place. -/
structure Token where
  mark : Mark
  span : Span
deriving DecidableEq

/-- May an escape continue like this? Without strictness only its first character is looked at. -/
def isEscape (d : Dialect) : List Char → Bool
  | 'u' :: cs => d = .lenient || (hexUnit? cs).isSome
  | c :: _ => (shortEscape? c).isSome
  | [] => false

/-- Characters that may stand in a string as they are. -/
def isStringChar (d : Dialect) (c : Char) : Bool :=
  match d with
  | .strict => 0x20 ≤ c.toNat
  | .lenient => c != '\n' && c != '\x00'

/-- Where inside a string one stands. -/
inductive StringPart where
  | text
  | gap
  | lineComment
  | blockComment

/-- The body of a string up to its quote. Without strictness a line may end inside a string, if
nothing but blanks and comments follow it; after such a comment the text goes on. -/
def stringBody (d : Dialect) : StringPart → List Char → Option (List Char)
  | _, [] => none
  | .text, '\\' :: c :: cs =>
    if isEscape d (c :: cs) then (stringBody d .text cs).map fun b => '\\' :: c :: b else none
  | .text, c :: cs =>
    if c = '"' then some []
    else if c = '\\' then none
    else if isStringChar d c then (stringBody d .text cs).map (c :: ·)
    else if d = .lenient && c = '\n' then (stringBody d .gap cs).map (c :: ·)
    else none
  | .gap, '/' :: '/' :: cs => (stringBody d .lineComment cs).map fun b => '/' :: '/' :: b
  | .gap, '/' :: '*' :: cs => (stringBody d .blockComment cs).map fun b => '/' :: '*' :: b
  | .gap, c :: cs =>
    if c = '"' then some []
    else if isAsciiBlank c then (stringBody d .gap cs).map (c :: ·)
    else none
  | .lineComment, c :: cs =>
    if c = '\x00' then none
    else (stringBody d (if c = '\n' then .gap else .lineComment) cs).map (c :: ·)
  | .blockComment, '*' :: '/' :: cs => (stringBody d .text cs).map fun b => '*' :: '/' :: b
  | .blockComment, c :: cs =>
    if c = '\x00' then none else (stringBody d .blockComment cs).map (c :: ·)

/-- The digits before the point: zero alone, or as many as there are. -/
def wholeText : List Char → List Char
  | '0' :: _ => ['0']
  | cs => cs.takeWhile isAsciiDigit

/-- A point and the digits after it, or nothing. -/
def fractionText : List Char → List Char
  | '.' :: cs => '.' :: cs.takeWhile isAsciiDigit
  | _ => []

/-- May an exponent have this sign? -/
def isExponentSign (d : Dialect) (c : Char) : Bool :=
  c = '-' || d = .strict && c = '+'

/-- An exponent, or nothing. -/
def exponentText (d : Dialect) : List Char → List Char
  | e :: cs =>
    if e = 'e' || e = 'E' then
      match cs with
      | s :: ds =>
        if isExponentSign d s then
          let digits := ds.takeWhile isAsciiDigit
          if digits.isEmpty then [] else e :: s :: digits
        else
          let digits := cs.takeWhile isAsciiDigit
          if digits.isEmpty then [] else e :: digits
      | [] => []
    else []
  | [] => []

/-- The number at the start, as it is written. -/
def numberText? (d : Dialect) (cs : List Char) : Option (List Char) :=
  let (minus, body) := match cs with
    | '-' :: more => (['-'], more)
    | _ => ([], cs)
  let whole := wholeText body
  if whole.isEmpty then none
  else
    let rest := body.drop whole.length
    let fraction := fractionText rest
    if d = .strict && fraction.length = 1 then none
    else some (minus ++ whole ++ fraction ++ exponentText d (rest.drop fraction.length))

/-- The word at the start with its length in characters; the start is not blank. -/
def wordAt? (d : Dialect) (cs : List Char) : Option (Mark × Nat) :=
  match cs with
  | '\x7b' :: _ => some (.openBrace, 1)
  | '\x7d' :: _ => some (.closeBrace, 1)
  | '[' :: _ => some (.openBracket, 1)
  | ']' :: _ => some (.closeBracket, 1)
  | ':' :: _ => some (.colon, 1)
  | ',' :: _ => some (.comma, 1)
  | '"' :: more => (stringBody d .text more).map fun b => (.string b, b.length + 2)
  | _ =>
    if hasPrefix "true".toList cs then some (.true, 4)
    else if hasPrefix "false".toList cs then some (.false, 5)
    else if hasPrefix "null".toList cs then some (.null, 4)
    else (numberText? d cs).map fun n => (.number n, n.length)

/-- The length of a comment at the start; `some none` for one that is not closed. -/
def commentLength? : List Char → Option (Option Nat)
  | '/' :: '/' :: cs => some (some (2 + (cs.takeWhile fun c => c != '\n' && c != '\x00').length))
  | '/' :: '*' :: cs => some ((blockLength cs).map (· + 2))
  | _ => none
where
  blockLength : List Char → Option Nat
  | [] => none
  | '*' :: '/' :: _ => some 2
  | c :: cs => if c = '\x00' then none else (blockLength cs).map (· + 1)

/-- Blanks between words. -/
def isGap (d : Dialect) (c : Char) : Bool :=
  match d with
  | .strict => c = ' ' || c = '\t' || c = '\n' || c = '\r'
  | .lenient => isAsciiBlank c

/-- The words of a document from a byte offset on; each step takes a character at least. -/
def lex (d : Dialect) : Nat → Nat → List Char → Option (List Token)
  | _, _, [] => some []
  | 0, _, _ :: _ => none
  | fuel + 1, off, c :: cs =>
    if isGap d c then lex d fuel (off + c.utf8Size) cs
    else match (if d = .lenient then commentLength? (c :: cs) else none) with
      | some none => none
      | some (some n) =>
        lex d fuel (off + byteLength ((c :: cs).take n)) ((c :: cs).drop n)
      | none => do
        let (mark, n) ← wordAt? d (c :: cs)
        let stop := off + byteLength ((c :: cs).take n)
        let rest ← lex d fuel stop ((c :: cs).drop n)
        return ⟨mark, off, stop⟩ :: rest

/-- The words of a document; without strictness a byte order mark at its start is left out. -/
def tokens? (d : Dialect) (text : String) : Option (List Token) :=
  let cs := text.toList
  match d, cs with
  | .lenient, '\uFEFF' :: more => lex d cs.length 3 more
  | _, _ => lex d cs.length 0 cs

/-! ## Values -/

/-- The name of a member: its place and its text. -/
structure Key where
  span : Span
  text : Option String
deriving DecidableEq

/-- A value and its place. -/
inductive Tree where
  | object (span : Span) (members : List (Key × Tree))
  | array (span : Span) (items : List Tree)
  | string (span : Span) (text : Option String)
  | number (span : Span) (text : List Char)
  | truth (span : Span) (b : Bool)
  | null (span : Span)

namespace Tree

/-- The place of a value. -/
def span : Tree → Span
  | object s _ | array s _ | string s _ | number s _ | truth s _ | null s => s

/-- The word for the kind of a value. -/
def kind : Tree → String
  | object .. => "object"
  | array .. => "array"
  | string .. => "string"
  | number .. => "number"
  | truth _ b => if b then "true" else "false"
  | null _ => "null"

/-- The text of a string. -/
def text? : Tree → Option String
  | string _ t => t
  | _ => none

end Tree

/-- A member of an object: its name, its place with name and value, and its value. -/
structure Member where
  key : Key
  name : String
  span : Span
  value : Tree

/-- The members whose names have a text. -/
def members (ms : List (Key × Tree)) : List Member :=
  ms.filterMap fun (key, value) =>
    key.text.map fun name => ⟨key, name, ⟨key.span.start, value.span.stop⟩, value⟩

mutual

/-- Reads a value, nested at most so deep. -/
def readTree : Nat → List Token → Option (Tree × List Token)
  | 0, _ => none
  | fuel + 1, ts =>
    match ts with
    | [] => none
    | t :: rest =>
      match t.mark with
      | .string body => some (.string t.span (decodeBody? body), rest)
      | .number text => some (.number t.span text, rest)
      | .true => some (.truth t.span true, rest)
      | .false => some (.truth t.span false, rest)
      | .null => some (.null t.span, rest)
      | .openBrace =>
        match rest with
        | ⟨.closeBrace, s⟩ :: rest => some (.object ⟨t.span.start, s.stop⟩ [], rest)
        | _ => do
          let (ms, stop, rest) ← readMembers fuel rest
          return (.object ⟨t.span.start, stop⟩ ms, rest)
      | .openBracket =>
        match rest with
        | ⟨.closeBracket, s⟩ :: rest => some (.array ⟨t.span.start, s.stop⟩ [], rest)
        | _ => do
          let (items, stop, rest) ← readItems fuel rest
          return (.array ⟨t.span.start, stop⟩ items, rest)
      | _ => none

/-- Reads members up to the closing brace, and says where that ends. -/
def readMembers : Nat → List Token → Option (List (Key × Tree) × Nat × List Token)
  | 0, _ => none
  | fuel + 1, ts =>
    match ts with
    | ⟨.string body, s⟩ :: ⟨.colon, _⟩ :: rest => do
      let (value, rest) ← readTree fuel rest
      let member := (Key.mk s (decodeBody? body), value)
      match rest with
      | ⟨.comma, _⟩ :: rest => do
        let (more, stop, rest) ← readMembers fuel rest
        return (member :: more, stop, rest)
      | ⟨.closeBrace, s⟩ :: rest => return ([member], s.stop, rest)
      | _ => none
    | _ => none

/-- Reads items up to the closing bracket, and says where that ends. -/
def readItems : Nat → List Token → Option (List Tree × Nat × List Token)
  | 0, _ => none
  | fuel + 1, ts => do
    let (item, rest) ← readTree fuel ts
    match rest with
    | ⟨.comma, _⟩ :: rest => do
      let (more, stop, rest) ← readItems fuel rest
      return (item :: more, stop, rest)
    | ⟨.closeBracket, s⟩ :: rest => return ([item], s.stop, rest)
    | _ => none

end

/-- Reads values up to the end. -/
def readAll : Nat → List Token → Option (List Tree)
  | _, [] => some []
  | 0, _ :: _ => none
  | fuel + 1, ts => do
    let (t, rest) ← readTree (2 * ts.length) ts
    return t :: (← readAll fuel rest)

/-- The values of a document; `none` if it is malformed. -/
def parse? (d : Dialect) (text : String) : Option (List Tree) := do
  let ts ← tokens? d text
  readAll ts.length ts

/-- The value of a document that holds exactly one. -/
def single? : List Tree → Option Tree
  | [t] => some t
  | _ => none

end DepScope.Json
