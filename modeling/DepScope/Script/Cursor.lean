import Std.Data.TreeMap
import DepScope.Script.Tree
import DepScope.Text.Chars
import DepScope.Text.Utf8

/-!
# DepScope.Script.Cursor

Places in a script, and readers that move between them. A `Cursor` stands at the start of a word,
with the blanks and comments before it already skipped; a `Parse` reads from it and may fail, which
puts the cursor back.

1. Blanks and comments stand between any two words. Where no operand has just ended, `<!--` and
   `-->` start a comment too, which takes the rest of the line: a *note*.
2. A statement may end without a semicolon at the end of its line, unless the next line starts with
   something that goes on with it (`Cursor.statementEnds`).
3. What a reader yields depends on the place and on the `Context` alone, so it is worked out once
   for each of them and kept in a `Memo`. Readers may therefore try one form after the other without
   reading nested parts again and again.
-/

namespace DepScope.Script

open Text

/-! ## Characters -/

/-- Blanks between words: those of Unicode but for the next-line character, and the characters of no
width. -/
def isGapChar (c : Char) : Bool :=
  let n := c.toNat
  (isBlank c && n != 0x85) || n == 0xFEFF || n == 0x2060 || n == 0x200B

/-- Characters that end a line. -/
def isLineEnd (c : Char) : Bool :=
  c = '\n' || c = '\r' || c = '\u2028' || c = '\u2029'

/-- Characters that end a note. -/
def isNoteEnd (c : Char) : Bool :=
  c = '\n' || c = '\u2028' || c = '\u2029'

/-- Characters that neither start nor continue a name. -/
def isNameBreak (c : Char) : Bool :=
  c.toNat < 0x20 || isGapChar c || ":;\x60\"'@#.,|^&<=>+-*/%?!~()[]\x7b\x7d\\".toList.contains c

/-- Characters that may start a name: none that breaks it and no digit, but the backslash of a code
point that is spelled out. -/
def isNameStart (c : Char) : Bool :=
  (!isNameBreak c && !isAsciiDigit c) || c = '\\'

/-! ## Gaps -/

/-- Where the skipping stands: between words, in a comment to the end of the line, in one that has
to be closed, or in a note. -/
inductive Gap where
  | blank
  | line
  | block
  | note

/-- What a gap leaves: the bytes skipped, whether a line ended outside of comments that are closed,
whether there was a note, and the rest. -/
structure Skipped where
  bytes : Nat := 0
  newline : Bool := false
  noted : Bool := false
  rest : List Char

/-- Counts a skipped character. -/
def Skipped.past (s : Skipped) (c : Char) : Skipped :=
  { s with bytes := s.bytes + c.utf8Size }

/-- Counts a skipped character that may end the line. -/
def Skipped.pastBlank (s : Skipped) (c : Char) : Skipped :=
  { s.past c with newline := s.newline || c = '\n' }

/-- Counts the start of a note. -/
def Skipped.pastNote (s : Skipped) (bytes : Nat) : Skipped :=
  { s with bytes := s.bytes + bytes, noted := true }

/-- Is the comment closed? -/
def closesBlock : List Char → Bool
  | [] => false
  | '*' :: '/' :: _ => true
  | _ :: cs => closesBlock cs

/-- Skips blanks and comments, and notes if they are allowed. -/
def skipGap (notes : Bool) : Gap → List Char → Skipped
  | _, [] => { rest := [] }
  | .blank, '/' :: '/' :: cs => ((skipGap notes .line cs).past '/').past '/'
  | .blank, '/' :: '*' :: cs =>
    if closesBlock cs then ((skipGap notes .block cs).past '/').past '*'
    else { rest := '/' :: '*' :: cs }
  | .blank, '<' :: '!' :: '-' :: '-' :: cs =>
    if notes then (skipGap notes .note cs).pastNote 4
    else { rest := '<' :: '!' :: '-' :: '-' :: cs }
  | .blank, '-' :: '-' :: '>' :: cs =>
    if notes then (skipGap notes .note cs).pastNote 3 else { rest := '-' :: '-' :: '>' :: cs }
  | .blank, c :: cs =>
    if isGapChar c then (skipGap notes .blank cs).pastBlank c else { rest := c :: cs }
  | .line, c :: cs =>
    if isLineEnd c then (skipGap notes .blank cs).pastBlank c else (skipGap notes .line cs).past c
  | .note, c :: cs =>
    if isNoteEnd c then (skipGap notes .blank cs).pastBlank c else (skipGap notes .note cs).past c
  | .block, '*' :: '/' :: cs => ((skipGap notes .blank cs).past '*').past '/'
  | .block, c :: cs => (skipGap notes .block cs).past c

/-! ## The cursor -/

/-- What the syntax around a place allows. -/
structure Context where
  /-- May the statement end here? Not inside brackets. -/
  ends : Bool := true
  /-- May an operator follow the type that is being read? -/
  operators : Bool := false
  /-- Does the word `in` belong to a loop? -/
  noIn : Bool := false
  /-- Do arrow functions have no result type? -/
  plain : Bool := false
  /-- Does an arrow end the type that is being read? -/
  noArrow : Bool := false
  /-- Are broken places inside braces passed over? -/
  lenient : Bool := false

/-- A number for each context. -/
def Context.index (x : Context) : Nat :=
  x.ends.toNat + 2 * x.operators.toNat + 4 * x.noIn.toNat + 8 * x.plain.toNat
    + 16 * x.noArrow.toNat + 32 * x.lenient.toNat

/-- Inside brackets. -/
def Context.nested (x : Context) : Context :=
  { ends := false, lenient := x.lenient }

/-- Where statements or members stand. -/
def Context.sequence (x : Context) : Context :=
  { lenient := x.lenient }

/-- A place in a script. -/
structure Cursor where
  /-- What is still to be read. -/
  rest : List Char
  /-- The byte offset of the next word. -/
  pos : Nat := 0
  /-- The byte offset where the last word ended. -/
  last : Nat := 0
  /-- Did a line end between the last word and the next one? -/
  newline : Bool := false
  /-- Was there a note between the last word and the next one? -/
  noted : Bool := false
  /-- Does an angle bracket open markup where an expression starts? -/
  markup : Bool
  /-- The size of the script in bytes. -/
  size : Nat
  context : Context := {}

/-- Moves past a gap. -/
def Cursor.skip (notes : Bool) (c : Cursor) : Cursor :=
  let s := skipGap notes .blank c.rest
  { c with
    rest := s.rest
    pos := c.pos + s.bytes
    newline := c.newline || s.newline
    noted := c.noted || s.noted }

/-- Moves past the given characters, the next ones, without skipping what follows. -/
def Cursor.advance (c : Cursor) (cs rest : List Char) : Cursor :=
  let stop := c.pos + byteLength cs
  { c with rest, pos := stop, last := stop, newline := false, noted := false }

/-- The start of a script; a first line that names an interpreter is left out. -/
def Cursor.ofText (markup : Bool) (s : String) : Cursor :=
  let start : Cursor := { rest := s.toList, markup, size := s.utf8ByteSize }
  let c := start.skip true
  match c.rest with
  | '#' :: '!' :: _ =>
    let first := c.rest.takeWhile (· != '\n')
    (c.advance first (c.rest.drop first.length)).skip true
  | _ => c

/-- Is the rest of a word that starts with `i` that of `in` or `instanceof`? -/
def isRelationTail : List Char → Bool
  | 'n' :: cs =>
    let apart (rest : List Char) := !(rest.head?.any isAsciiLetter)
    apart cs || (afterPrefix? "stanceof".toList cs).any apart
  | _ => false

/-- Does a line that starts like this start a statement? If `operators` may follow the last word, so
may a call or a look-up. -/
def startsStatement (operators : Bool) : List Char → Bool
  | [] => true
  | c :: cs =>
    match c with
    | '(' | '[' => !operators
    | '+' => cs.head? == some '+'
    | '-' => cs.head? == some '-'
    | '!' => cs.head? != some '='
    | '.' => cs.head?.any isAsciiDigit
    | 'i' => !isRelationTail cs
    | _ => !"\x60,;*%><=?^|&/:".toList.contains c

/-- Can a statement end before the next word without a semicolon? -/
def Cursor.statementEnds (operators : Bool) (c : Cursor) : Bool :=
  c.rest.isEmpty || c.rest.head? == some '\x7d' || (c.newline && startsStatement operators c.rest)

/-! ## Readers -/

/-- What has been read where. -/
abbrev Memo := Std.TreeMap Nat (Option (Node × Cursor))

/-- A reader of scripts. -/
def Parse (α : Type) : Type := Cursor → Memo → Option (α × Cursor) × Memo

instance : Monad Parse where
  pure a := fun c m => (some (a, c), m)
  bind p f := fun c m =>
    match p c m with
    | (some (a, c'), m') => f a c' m'
    | (none, m') => (none, m')

instance : Alternative Parse where
  failure := fun _ m => (none, m)
  orElse p q := fun c m =>
    match p c m with
    | (some r, m') => (some r, m')
    | (none, m') => q () c m'

instance : MonadStateOf Cursor Parse where
  get := fun c m => (some (c, c), m)
  set c := fun _ m => (some ((), c), m)
  modifyGet f := fun c m => (some (f c), m)

/-- Reads from a cursor. -/
def Parse.run {α : Type} (p : Parse α) (c : Cursor) : Option (α × Cursor) :=
  (p c {}).1

/-- Reads, or takes what was read at this place before under the same number. -/
def remember (slot : Nat) (p : Parse Node) : Parse Node := fun c m =>
  let key := (c.pos * 64 + slot) * 64 + c.context.index
  match m[key]? with
  | some r => (r, m)
  | none =>
    match p c m with
    | (r, m') => (r, m'.insert key r)

/-- Reads what a function on characters recognises: what it yields, the characters it took and the
rest. Nothing after it is skipped. -/
def raw {α : Type} (f : List Char → Option (α × List Char × List Char)) : Parse α := fun c m =>
  ((f c.rest).map fun (a, taken, rest) => (a, c.advance taken rest), m)

/-- Skips blanks and comments. -/
def skip : Parse Unit := modify (Cursor.skip false)

/-- Skips blanks, comments and notes. -/
def skipNotes : Parse Unit := modify (Cursor.skip true)

/-- Succeeds if the condition holds. -/
def ensure (b : Bool) : Parse Unit := if b then pure () else failure

/-- The characters ahead. -/
def ahead : Parse (List Char) := do return (← get).rest

/-- Reads if possible. -/
def maybe {α : Type} (p : Parse α) : Parse (Option α) :=
  (do return some (← p)) <|> pure none

/-- Reads without moving. -/
def peek {α : Type} (p : Parse α) : Parse α := do
  let c ← get
  let a ← p
  set c
  return a

/-- Does the reader succeed here? -/
def would {α : Type} (p : Parse α) : Parse Bool := do
  return (← maybe (peek p)).isSome

/-- Succeeds without moving iff the reader fails. -/
def refuse {α : Type} (p : Parse α) : Parse Unit := do
  ensure !(← would p)

/-- Reads in another context and returns to this one. -/
def inContext {α : Type} (f : Context → Context) (p : Parse α) : Parse α := do
  let outer := (← get).context
  modify fun c => { c with context := f outer }
  let a ← p
  modify fun c => { c with context := outer }
  return a

/-- Reads inside brackets. -/
def nested {α : Type} (p : Parse α) : Parse α := inContext Context.nested p

/-- Repeats a step on a value as long as it succeeds, at most `n` times. -/
def iterate {α : Type} (step : α → Parse α) : Nat → α → Parse α
  | 0, a => pure a
  | n + 1, a => fun c m =>
    match step a c m with
    | (some (a', c'), m') => iterate step n a' c' m'
    | (none, m') => (some (a, c), m')

/-- Repeats a step as long as it succeeds; each step takes at least one byte. -/
def loop {α : Type} (start : α) (step : α → Parse α) : Parse α := do
  let c ← get
  iterate step (c.size + 1 - c.pos) start

/-- Reads as many as there are. -/
def many {α : Type} (p : Parse α) : Parse (List α) := do
  return (← loop [] fun acc => do return (← p) :: acc).reverse

/-- Succeeds unless the statement has to end here. -/
def goesOn (operators : Bool) : Parse Unit := do
  let c ← get
  ensure !(c.context.ends && c.statementEnds operators)

/-- Succeeds at the end of the script. -/
def atEnd : Parse Unit := do ensure (← ahead).isEmpty

end DepScope.Script
