import DepScope.Toml.Parser

/-!
# DepScope.Toml.Keys

Every key of a document with its full path, in the order of the document. The path of a key in a
table starts with the names of the table's header; an element of an array of tables adds its number
among those with the same header. Keys inside an array of values get no number.
-/

namespace DepScope.Toml

open Text

/-- A step of a path. -/
inductive Segment where
  | name (s : String)
  | index (n : Nat)
deriving DecidableEq

/-- The name of a step that has one. -/
def Segment.name? : Segment → Option String
  | name s => some s
  | index _ => none

/-- Does a path consist of these names? `none` stands for any name, but for no number. -/
def pathMatches : List Segment → List (Option String) → Bool
  | [], [] => true
  | .name s :: path, some want :: pattern => s == want && pathMatches path pattern
  | .name _ :: path, none :: pattern => pathMatches path pattern
  | _, _ => false

/-- A key as it is met. -/
structure Visit where
  path : List Segment
  key : Key
  /-- The value, for the key of a pair; the header of a table has none. -/
  value : Option Value

namespace Visit

/-- Is this the header of a table? -/
def isHeader (v : Visit) : Bool :=
  v.value.isNone

/-- The key, with its value for a pair. -/
def span (v : Visit) : Span :=
  ⟨v.key.span.start, match v.value with
    | some value => value.span.stop
    | none => v.key.span.stop⟩

/-- The last name of the path. -/
def lastName? (v : Visit) : Option String :=
  v.path.getLast?.bind Segment.name?

end Visit

/-- The steps a key adds to a path. -/
def Key.segments (k : Key) : List Segment :=
  k.names.map .name

mutual

/-- The keys inside a value at a path. -/
def visitValue (path : List Segment) : Value → List Visit
  | .string .. | .scalar .. => []
  | .array _ items => visitItems path items
  | .inlineTable _ pairs => visitPairs path pairs

/-- The keys inside the items of an array. -/
def visitItems (path : List Segment) : List Value → List Visit
  | [] => []
  | v :: vs => visitValue path v ++ visitItems path vs

/-- The keys of pairs, each before those inside its value. -/
def visitPairs (path : List Segment) : List (Key × Value) → List Visit
  | [] => []
  | (k, v) :: rest =>
    ⟨path ++ k.segments, k, some v⟩ :: visitValue (path ++ k.segments) v ++ visitPairs path rest

end

/-- The keys of tables. `earlier` holds the headers met before that belong to arrays of tables. -/
def visitSections (earlier : List (List Segment)) : List Section → List Visit
  | [] => []
  | s :: rest =>
    let header := s.header.segments
    let path := if s.many then header ++ [.index (earlier.count header)] else header
    ⟨path, s.header, none⟩ :: visitPairs path s.pairs ++
      visitSections (if s.many then header :: earlier else earlier) rest

/-- The keys of a document. -/
def Document.visits (d : Document) : List Visit :=
  visitPairs [] d.pairs ++ visitSections [] d.sections

end DepScope.Toml
