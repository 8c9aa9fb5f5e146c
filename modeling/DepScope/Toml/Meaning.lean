import DepScope.Decimal.Read
import DepScope.Keyed
import DepScope.Toml.Parser

/-!
# DepScope.Toml.Meaning

What a document means: one table, in which each name has a value, a table or an array of tables.

1. A name is given a value once.
2. A header opens a table that was at most passed through by other headers; one with two brackets
   adds a table to an array.
3. A dotted key goes through tables that dotted keys made, and makes those that are missing.
4. A header goes through tables of any kind, and through the last table of an array.

A document that breaks a rule has no meaning, nor has one with an integer, a date or a string that
makes no sense, or with too deep a nesting.
-/

namespace DepScope.Toml

open Text

/-! ## Scalars -/

/-- What a text without its underscores is. -/
def withoutUnderscores (raw : List Char) : List Char :=
  raw.filter (· ≠ '_')

/-- The value of an integer, which has 64 bits. -/
def integer? (raw : List Char) : Option Int :=
  let (negative, body) := Decimal.splitSign (withoutUnderscores raw)
  let magnitude := match body with
    | '0' :: 'x' :: ds => natIn? 16 ds
    | '0' :: 'o' :: ds => natIn? 8 ds
    | '0' :: 'b' :: ds => natIn? 2 ds
    | ds => natIn? 10 ds
  (magnitude.map fun n => if negative then -(n : Int) else n).filter fun n =>
    -(2 ^ 63) ≤ n ∧ n < 2 ^ 63

/-- Is a number with a fraction or an exponent not too large? -/
def isReal (raw : List Char) : Bool :=
  match Decimal.readReal? (withoutUnderscores raw) with
  | some (.finite negative units) => negative || units < Decimal.unitBound
  | some (.infinite negative) => negative || raw.contains 'i'
  | some .nan => true
  | none => false

/-- The days of a month. -/
def daysIn (year month : Nat) : Nat :=
  if month = 2 then
    if year % 4 = 0 ∧ (year % 100 ≠ 0 ∨ year % 400 = 0) then 29 else 28
  else if [4, 6, 9, 11].contains month then 30
  else 31

/-- Does a date at the start of a text exist? Years have four digits. -/
def isDate (raw : List Char) : Bool :=
  match raw with
  | a :: b :: c :: d :: '-' :: e :: f :: '-' :: g :: h :: _ =>
    match natIn? 10 [a, b, c, d], natIn? 10 [e, f], natIn? 10 [g, h] with
    | some year, some month, some day => day ≤ daysIn year month
    | _, _, _ => false
  | _ => false

/-- Does a scalar make sense? -/
def isScalar (kind : ScalarKind) (raw : List Char) : Bool :=
  match kind with
  | .truth | .localTime => true
  | .integer => (integer? raw).isSome
  | .float => isReal raw
  | .offsetDateTime | .localDateTime | .localDate => isDate raw

/-! ## Strings -/

/-- Line breaks without their carriage returns. -/
def plainBreaks : List Char → List Char
  | '\r' :: '\n' :: cs => '\n' :: plainBreaks cs
  | c :: cs => c :: plainBreaks cs
  | [] => []

/-- The text of a string; all line breaks are single line feeds. -/
def plainText? (raw : List Char) : Option String :=
  (decodeStringWith? (fun c => c = ' ' || c = '\t' || c = '\n') (plainBreaks raw)).map String.ofList

/-- The names of a key, all of which have to make sense. -/
def Key.names? (k : Key) : Option (List String) :=
  k.parts.mapM fun p => if p.quoted then plainText? p.raw else some (String.ofList p.raw)

/-! ## Tables -/

/-- Where a table comes from. -/
inductive Origin where
  /-- It has a header of its own. -/
  | header
  /-- A longer header goes through it. -/
  | passed
  /-- A dotted key goes through it. -/
  | dotted
deriving DecidableEq

/-- What a name stands for. -/
inductive Node where
  | value (v : Value)
  | table (origin : Origin) (entries : List (String × Node))
  | tables (items : List (List (String × Node)))

/-- The names of a table. -/
abbrev Entries := List (String × Node)

/-- Gives a value to a dotted key. `here` says whether names may be added to the table itself. -/
def addValue (v : Value) (here : Bool) : List String → Entries → Option Entries
  | [], _ => none
  | [k], es => if here && !Keyed.contains k es then some (Keyed.put k (.value v) es) else none
  | k :: ks, es =>
    match Keyed.get? k es with
    | none => (addValue v true ks []).map fun sub => Keyed.put k (.table .dotted sub) es
    | some (.value _) => none
    | some (.table .header _) => none
    | some (.table o sub) =>
      (addValue v (o = .dotted) ks sub).map fun sub => Keyed.put k (.table o sub) es
    | some (.tables items) =>
      (addValue v false ks (items.getLast?.getD [])).map fun sub =>
        Keyed.put k (.tables (items.dropLast ++ [sub])) es

/-- Opens the table of a header and fills it. -/
def openTable (fill : Entries → Option Entries) (many : Bool) :
    List String → Entries → Option Entries
  | [], _ => none
  | [k], es =>
    match many, Keyed.get? k es with
    | false, none => (fill []).map fun sub => Keyed.put k (.table .header sub) es
    | false, some (.table .passed old) =>
      (fill old).map fun sub => Keyed.put k (.table .header sub) es
    | true, none => (fill []).map fun sub => Keyed.put k (.tables [sub]) es
    | true, some (.tables items) =>
      (fill []).map fun sub => Keyed.put k (.tables (items ++ [sub])) es
    | _, _ => none
  | k :: ks, es =>
    match Keyed.get? k es with
    | none => (openTable fill many ks []).map fun sub => Keyed.put k (.table .passed sub) es
    | some (.value _) => none
    | some (.table o old) =>
      (openTable fill many ks old).map fun sub => Keyed.put k (.table o sub) es
    | some (.tables items) =>
      (openTable fill many ks (items.getLast?.getD [])).map fun sub =>
        Keyed.put k (.tables (items.dropLast ++ [sub])) es

/-- Adds pairs to a table. -/
def addPairs (es : Entries) : List Pair → Option Entries
  | [] => some es
  | (k, v) :: ps => do
    let names ← k.names?
    addPairs (← addValue v true names es) ps

/-! ## Documents -/

/-- The deepest nesting of arrays, inline tables and dotted keys. -/
def maxNesting : Nat := 80

mutual

/-- Does a value make sense, so deep inside others? -/
def isSound (depth : Nat) : Value → Bool
  | .string _ raw => (plainText? raw).isSome
  | .scalar _ kind raw => isScalar kind raw
  | .array _ items => depth + 1 < maxNesting && areSound (depth + 1) items
  | .inlineTable _ pairs =>
    depth + 1 < maxNesting && pairsSound (depth + 1) pairs && (addPairs [] pairs).isSome

/-- Do several values make sense? -/
def areSound (depth : Nat) : List Value → Bool
  | [] => true
  | v :: vs => isSound depth v && areSound depth vs

/-- Do the values of pairs make sense? -/
def pairsSound (depth : Nat) : List (Key × Value) → Bool
  | [] => true
  | (k, v) :: ps => k.parts.length < maxNesting && isSound depth v && pairsSound depth ps

end

/-- The table a document means. -/
def Document.meaning? (d : Document) : Option Entries := do
  let sound := pairsSound 0 d.pairs && d.sections.all fun s =>
    s.header.parts.length < maxNesting && pairsSound 0 s.pairs
  if !sound then none
  else
    let root ← addPairs [] d.pairs
    d.sections.foldlM (fun es s => do
      openTable (addPairs · s.pairs) s.many (← s.header.names?) es) root

/-- Reads a document for its meaning. -/
def read? (text : String) : Option Entries :=
  (parse? ⟨true⟩ text).bind Document.meaning?

end DepScope.Toml
