import DepScope.Text.Position
import DepScope.Toml.Quoted

/-!
# DepScope.Toml.Tree

Documents as they are written: pairs, then tables with their pairs, each with its place. Nothing is
merged and nothing is refused for its meaning; keys and tables may repeat.
-/

namespace DepScope.Toml

open Text

/-- One name of a key, as it is written. -/
structure KeyPart where
  quoted : Bool
  raw : List Char
deriving DecidableEq

/-- The name itself; quotes that make no sense are kept. -/
def KeyPart.name (p : KeyPart) : String :=
  String.ofList (if p.quoted then (decodeString? p.raw).getD p.raw else p.raw)

/-- A key: names with dots between them. -/
structure Key where
  span : Span
  parts : List KeyPart
deriving DecidableEq

/-- The names of a key. -/
def Key.names (k : Key) : List String :=
  k.parts.map KeyPart.name

/-- What a value without parts is. -/
inductive ScalarKind where
  | truth
  | integer
  | float
  | offsetDateTime
  | localDateTime
  | localDate
  | localTime
deriving DecidableEq

/-- A value and its place. -/
inductive Value where
  | string (span : Span) (raw : List Char)
  | scalar (span : Span) (kind : ScalarKind) (raw : List Char)
  | array (span : Span) (items : List Value)
  | inlineTable (span : Span) (pairs : List (Key × Value))

namespace Value

/-- The place of a value. -/
def span : Value → Span
  | string s _ | scalar s _ _ | array s _ | inlineTable s _ => s

/-- The text of a string. -/
def text? : Value → Option String
  | string _ raw => (decodeString? raw).map String.ofList
  | _ => none

end Value

/-- A key with its value. -/
abbrev Pair := Key × Value

/-- A table with its header; `many` for an element of an array of tables. -/
structure Section where
  many : Bool
  header : Key
  pairs : List Pair

/-- A document. -/
structure Document where
  pairs : List Pair
  sections : List Section

end DepScope.Toml
