import DepScope.Json.Text
import DepScope.Text.Chars

/-!
# DepScope.GoMod.Token

The words of a `go.mod` file, line by line. Words are separated by blanks; parentheses, brackets
and commas are words of their own; `//` starts a comment; a word may be quoted with escapes, or
with backquotes and then span lines.

The words are read by a machine that looks at one character after the other and at most at one
more behind it.
-/

namespace DepScope.GoMod

open Text

/-- A point in the file: line and character counted from one, and the byte offset. -/
structure Point where
  line : Nat
  rune : Nat
  byte : Nat
deriving DecidableEq

/-- Where a file starts. -/
def Point.start : Point := ⟨1, 1, 0⟩

/-- The point behind a character. -/
def Point.past (p : Point) (c : Char) : Point :=
  if c = '\n' then ⟨p.line + 1, 1, p.byte + 1⟩ else ⟨p.line, p.rune + 1, p.byte + c.utf8Size⟩

/-- A stretch of the file. -/
structure Stretch where
  start : Point
  stop : Point
deriving DecidableEq

/-- A word: its text, whether it was quoted, and its place. -/
structure Token where
  text : String
  quoted : Bool
  place : Stretch
deriving DecidableEq

/-- Is this the given word, without quotes? -/
def Token.is (t : Token) (s : String) : Bool :=
  !t.quoted && t.text == s

/-- What can be wrong with a file, and on which line. -/
inductive Fault where
  | unterminatedString (line : Nat)
  | invalidString (line : Nat)
  | usage (line : Nat) (form : String)
  | missingArrow (line : Nat)
  | unexpected (line : Nat) (word : String)
  | afterOpen (line : Nat)
  | afterClose (line : Nat)
  | unclosedBlock
deriving DecidableEq

/-- The description of a fault. -/
def Fault.message : Fault → String
  | unterminatedString n => located n "unterminated string"
  | invalidString n => located n "invalid quoted string"
  | usage n form => located n ("usage: " ++ form)
  | missingArrow n => located n "replacement requires =>"
  | unexpected n word => located n ("unexpected " ++ word)
  | afterOpen n => located n "unexpected tokens after ("
  | afterClose n => located n "unexpected tokens after )"
  | unclosedBlock => "go.mod: unclosed block"
where
  located (n : Nat) (what : String) : String := "go.mod:" ++ toString n ++ ": " ++ what

/-! ## The machine -/

/-- Where the machine stands. Words being read are kept in reverse, with their first point. -/
inductive State where
  | gap
  | comment
  | word (start : Point) (text : List Char)
  | quoted (start : Point) (text : List Char) (escaped : Bool)
  | backquoted (start : Point) (text : List Char)

/-- What the machine puts out. -/
inductive Item where
  | token (t : Token)
  | lineEnd
deriving DecidableEq

/-- Characters that are words of their own. -/
def isSign (c : Char) : Bool :=
  c = '(' || c = ')' || c = '[' || c = ']' || c = ','

/-- The backquote. -/
def backquote : Char := '\x60'

/-- Does a comment start at a character with this one behind it? -/
def opensComment (c : Char) (next : Option Char) : Bool :=
  c = '/' && next == some '/'

/-- Does a word end before this character? -/
def breaksWord (c : Char) (next : Option Char) : Bool :=
  isBlank c || isSign c || c = '"' || c = backquote || opensComment c next

/-- A word that has been read. -/
def wordToken (start stop : Point) (text : List Char) : Item :=
  .token ⟨String.ofList text.reverse, false, start, stop⟩

/-- A character outside of words. -/
def fromGap (p : Point) (c : Char) (next : Option Char) : List Item × State :=
  if c = '\n' then ([.lineEnd], .gap)
  else if isBlank c then ([], .gap)
  else if opensComment c next then ([], .comment)
  else if isSign c then ([wordToken p (p.past c) [c]], .gap)
  else if c = '"' then ([], .quoted p [] false)
  else if c = backquote then ([], .backquoted p [])
  else ([], .word p [c])

/-- One character at a point, with the one behind it. -/
def step (st : State) (p : Point) (c : Char) (next : Option Char) :
    Except Fault (List Item × State) :=
  match st with
  | .gap => .ok (fromGap p c next)
  | .comment => .ok (if c = '\n' then ([.lineEnd], .gap) else ([], .comment))
  | .word start text =>
    if breaksWord c next then
      let (out, st) := fromGap p c next
      .ok (wordToken start p text :: out, st)
    else .ok ([], .word start (c :: text))
  | .quoted start text escaped =>
    if c = '\n' then .error (.unterminatedString start.line)
    else if c = '\\' && !escaped then .ok ([], .quoted start (c :: text) true)
    else if c = '"' && !escaped then
      match Json.decodeBody? text.reverse with
      | some s => .ok ([.token ⟨s, true, start, p.past c⟩], .gap)
      | none => .error (.invalidString start.line)
    else .ok ([], .quoted start (c :: text) false)
  | .backquoted start text =>
    if c = backquote then .ok ([.token ⟨String.ofList text.reverse, true, start, p.past c⟩], .gap)
    else .ok ([], .backquoted start (c :: text))

/-- What is left to put out at the end of the file. -/
def finish (st : State) (p : Point) : Except Fault (List Item) :=
  match st with
  | .gap | .comment => .ok []
  | .word start text => .ok [wordToken start p text]
  | .quoted start .. | .backquoted start _ => .error (.unterminatedString start.line)

/-- Runs the machine. -/
def scan : State → Point → List Char → Except Fault (List Item)
  | st, p, [] => finish st p
  | st, p, c :: cs => do
    let (out, st) ← step st p c cs.head?
    let rest ← scan st (p.past c) cs
    return out ++ rest

/-- Gathers the words of each line; lines without words are left out. -/
def gather : List Item → List (List Token)
  | [] => []
  | .token t :: items =>
    match items, gather items with
    | .token _ :: _, line :: lines => (t :: line) :: lines
    | _, lines => [t] :: lines
  | .lineEnd :: items => gather items

/-- The words of a file, line by line. -/
def tokenize (text : String) : Except Fault (List (List Token)) :=
  (scan .gap .start text.toList).map gather

end DepScope.GoMod
