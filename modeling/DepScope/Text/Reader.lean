import DepScope.Text.Chars
import DepScope.Text.Position

/-!
# DepScope.Text.Reader

A small reader of text that keeps its byte offset. A reader may fail, which puts it back.
-/

namespace DepScope.Text

/-- What is still to be read, and its byte offset. -/
structure Place where
  rest : List Char
  pos : Nat

/-- A reader of text. -/
abbrev Reader := StateT Place Option

namespace Reader

/-- The byte offset of the next character. -/
def pos : Reader Nat := do return (← get).pos

/-- What is still to be read. -/
def rest : Reader (List Char) := do return (← get).rest

/-- Takes the next `n` characters. -/
def take (n : Nat) : Reader (List Char) := do
  let s ← get
  let taken := s.rest.take n
  set (Place.mk (s.rest.drop n) (s.pos + byteLength taken))
  return taken

/-- Takes the longest run of characters that satisfy `p`, perhaps none. -/
def takeWhile (p : Char → Bool) : Reader (List Char) := do
  take ((← rest).takeWhile p).length

/-- Takes a run of characters that satisfy `p`, at least one. -/
def takeWhile1 (p : Char → Bool) : Reader (List Char) := do
  let cs ← takeWhile p
  if cs.isEmpty then failure else return cs

/-- Takes exactly this text. -/
def exactly (s : String) : Reader Unit := do
  if hasPrefix s.toList (← rest) then
    let _ ← take s.length
  else failure

/-- Takes the length a function on the rest gives. -/
def measured (f : List Char → Option Nat) : Reader (List Char) := do
  match f (← rest) with
  | some n => take n
  | none => failure

/-- Reads if possible. -/
def maybe {α : Type} (r : Reader α) : Reader (Option α) := fun s =>
  match r s with
  | some (a, s') => some (some a, s')
  | none => some (none, s)

/-- Succeeds at the end of the text. -/
def atEnd : Reader Unit := do
  if (← rest).isEmpty then return () else failure

/-- Repeats a reader as long as it succeeds, at most `n` times. -/
def repeated {α : Type} (r : Reader α) : Nat → Reader (List α)
  | 0 => return []
  | n + 1 => fun s =>
    match r s with
    | some (a, s') => (repeated r n s').map fun (as, s'') => (a :: as, s'')
    | none => some ([], s)

/-- Repeats a reader that takes a character at least, as long as it succeeds. -/
def many {α : Type} (r : Reader α) : Reader (List α) := do
  repeated r (← rest).length

/-- Reads all of a text, and nothing less. -/
def runAll? {α : Type} (r : Reader α) (start : Place) : Option α := do
  let (a, s) ← r start
  if s.rest.isEmpty then return a else none

end Reader

end DepScope.Text
