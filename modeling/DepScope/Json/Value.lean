import DepScope.Json.Document
import DepScope.Json.Number

/-!
# DepScope.Json.Value

Data without places: reading a whole document, bringing a value into its normal form, and writing
values on one line or indented.

A string or number that the grammar accepts may still have no value (a lone surrogate, a number out
of range). Such a value is kept as `none`, since it does no harm where it is not looked at.
-/

namespace DepScope.Json

/-- A value. -/
inductive Value where
  | null
  | truth (b : Bool)
  | number (n : Option Number)
  | string (s : Option String)
  | array (items : List Value)
  | object (members : List (Option String × Value))

instance : Inhabited Value := ⟨.null⟩

mutual

/-- The data of a tree. -/
def Tree.value : Tree → Value
  | .null _ => .null
  | .truth _ b => .truth b
  | .number _ text => .number (Number.ofText? text)
  | .string _ s => .string s
  | .array _ items => .array (Tree.values items)
  | .object _ ms => .object (Tree.memberValues ms)

/-- The data of the items of an array. -/
def Tree.values : List Tree → List Value
  | [] => []
  | t :: ts => t.value :: Tree.values ts

/-- The data of the members of an object. -/
def Tree.memberValues : List (Key × Tree) → List (Option String × Value)
  | [] => []
  | (k, t) :: ms => (k.text, t.value) :: Tree.memberValues ms

end

/-- Reads a document that is exactly one value. -/
def read? (text : String) : Option Value := do
  let t ← single? (← parse? .strict text)
  return t.value

/-! ## Normal form -/

mutual

/-- How deep arrays and objects are nested. -/
def Value.depth : Value → Nat
  | .array items => depths items + 1
  | .object ms => memberDepths ms + 1
  | _ => 0

/-- The greatest depth of several values. -/
def depths : List Value → Nat
  | [] => 0
  | v :: vs => max v.depth (depths vs)

/-- The greatest depth of the values of members. -/
def memberDepths : List (Option String × Value) → Nat
  | [] => 0
  | (_, v) :: ms => max v.depth (memberDepths ms)

end

/-- Puts a member into a list sorted by name; one of the same name gives way. -/
def insertMember {α : Type} (k : String) (v : α) : List (String × α) → List (String × α)
  | [] => [(k, v)]
  | (k', v') :: ms =>
    if k = k' then (k, v) :: ms
    else if k < k' then (k, v) :: (k', v') :: ms
    else (k', v') :: insertMember k v ms

/-- Members sorted by name, the last of each name kept. -/
def sortMembers {α : Type} (ms : List (String × α)) : List (String × α) :=
  ms.foldl (fun acc (k, v) => insertMember k v acc) []

mutual

/-- The normal form: members sorted by name, each name once; `none` if a string or number in it has
no value. -/
def Value.normal? : Value → Option Value
  | .null => some .null
  | .truth b => some (.truth b)
  | .number n => n.map fun n => .number (some n)
  | .string s => s.map fun s => .string (some s)
  | .array items => (normals? items).map .array
  | .object ms => (normalMembers? ms).map fun ms =>
      .object ((sortMembers ms).map fun (k, v) => (some k, v))

/-- The normal forms of several values. -/
def normals? : List Value → Option (List Value)
  | [] => some []
  | v :: vs => do return (← v.normal?) :: (← normals? vs)

/-- The normal forms of the values of members whose names have a text. -/
def normalMembers? : List (Option String × Value) → Option (List (String × Value))
  | [] => some []
  | (k, v) :: ms => do
    let name ← k
    let value ← v.normal?
    return (name, value) :: (← normalMembers? ms)

end

/-- The deepest nesting that is read. -/
def maxDepth : Nat := 127

/-- Reads arbitrary data that stands `outer` levels deep. -/
def Value.data? (outer : Nat) (v : Value) : Option Value :=
  if outer + v.depth ≤ maxDepth then v.normal? else none

/-! ## Writing -/

/-- How a value is laid out: where items start, what stands between them, what follows a name. -/
structure Layout where
  /-- A line break and the indentation at a depth, or nothing. -/
  line : Nat → String
  colon : String

/-- All on one line, without a blank. -/
def Layout.compact : Layout := ⟨fun _ => "", ":"⟩

/-- One item on each line, indented by two spaces. -/
def Layout.pretty : Layout :=
  ⟨fun n => String.ofList ('\n' :: List.replicate (2 * n) ' '), ": "⟩

mutual

/-- A value at a depth. -/
def Value.writeAt (l : Layout) (depth : Nat) : Value → String
  | .null => "null"
  | .truth b => if b then "true" else "false"
  | .number n => String.ofList ((n.map Number.text).getD "null".toList)
  | .string s => quote (s.getD "")
  | .array [] => "[]"
  | .array items => "[" ++ writeItems l (depth + 1) true items ++ l.line depth ++ "]"
  | .object [] => "\x7b\x7d"
  | .object ms => "\x7b" ++ writeMembers l (depth + 1) true ms ++ l.line depth ++ "\x7d"

/-- The items of an array. -/
def writeItems (l : Layout) (depth : Nat) (first : Bool) : List Value → String
  | [] => ""
  | v :: vs =>
    (if first then "" else ",") ++ l.line depth ++ v.writeAt l depth ++ writeItems l depth false vs

/-- The members of an object. -/
def writeMembers (l : Layout) (depth : Nat) (first : Bool) :
    List (Option String × Value) → String
  | [] => ""
  | (k, v) :: ms =>
    (if first then "" else ",") ++ l.line depth ++ quote (k.getD "") ++ l.colon
      ++ v.writeAt l depth ++ writeMembers l depth false ms

end

/-- A value on one line. -/
def Value.compact (v : Value) : String :=
  v.writeAt .compact 0

/-- A value with one item on each line. -/
def Value.pretty (v : Value) : String :=
  v.writeAt .pretty 0

/-! ## Building -/

/-- A string. -/
def text (s : String) : Value := .string (some s)

/-- A count. -/
def count (n : Nat) : Value := .number (some (.natural n))

/-- A double. -/
def real (x : Decimal.Finite) : Value := .number (some (.real x))

/-- An object from its members. -/
def object (ms : List (String × Value)) : Value :=
  .object (ms.map fun (k, v) => (some k, v))

/-! ## Taking apart -/

/-- The text of a string. -/
def Value.text? : Value → Option String
  | .string s => s
  | _ => none

/-- A truth value. -/
def Value.truth? : Value → Option Bool
  | .truth b => some b
  | _ => none

/-- A natural number below a bound. -/
def Value.natural? (bound : Nat) : Value → Option Nat
  | .number (some (.natural n)) => if n < bound then some n else none
  | _ => none

/-- Any number, as a double. -/
def Value.real? : Value → Option Decimal.Finite
  | .number n => n.map Number.toReal
  | _ => none

/-- The items of an array. -/
def Value.items? : Value → Option (List Value)
  | .array items => some items
  | _ => none

/-- The members of an object whose names all have a text. -/
def Value.members? : Value → Option (List (String × Value))
  | .object ms => ms.mapM fun (k, v) => k.map (·, v)
  | _ => none

/-- A value that may be absent or null. -/
def orNull? {α : Type} (f : Value → Option α) : Option Value → Option (Option α)
  | none => some none
  | some .null => some none
  | some v => (f v).map some

/-- A value that may be absent, with what stands for it then. -/
def orDefault? {α : Type} (default : α) (f : Value → Option α) : Option Value → Option α
  | none => some default
  | some v => f v

/-- The values of a record's fields, in the order of their names. A record is an object, in which
each of the names stands at most once and others are passed over, or an array of the values in
order, from which the last ones may be missing. -/
def Value.fields? (names : List String) (v : Value) : Option (List (Option Value)) :=
  match v with
  | .object _ => do
    let ms ← v.members?
    names.mapM fun n =>
      match ms.filter (·.1 == n) with
      | [] => some none
      | [(_, v)] => some (some v)
      | _ => none
  | .array items =>
    if items.length ≤ names.length then
      some (items.map some ++ List.replicate (names.length - items.length) none)
    else none
  | _ => none

/-- A map from names to values of one kind, sorted by name; the last of each name counts. -/
def Value.map? {α : Type} (f : Value → Option α) (v : Value) : Option (List (String × α)) := do
  let ms ← v.members?
  let decoded ← ms.mapM fun (k, v) => (f v).map (k, ·)
  return sortMembers decoded

end DepScope.Json
