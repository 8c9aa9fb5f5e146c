import DepScope.Json.Value

/-!
# DepScope.Documents.Change

The changes an editor reports. Editors also report changes that change nothing, for instance when a
document is saved.
-/

namespace DepScope.Documents

/-- A change: how much text it replaces, and by what. -/
structure Change where
  replaced : Nat
  text : String
deriving DecidableEq

/-- Decodes a change; lengths have 32 bits. -/
def Change.ofJson? (v : Json.Value) : Option Change := do
  match ← v.fields? ["rangeLength", "text"] with
  | [some n, some t] => return ⟨← n.natural? (2 ^ 32), ← t.text?⟩
  | _ => none

/-- Reads a list of changes. -/
def readChanges? (text : String) : Option (List Change) := do
  (← (← Json.read? text).items?).mapM Change.ofJson?

/-- Does any of the changes replace or insert something? -/
def isMeaningful (changes : List Change) : Bool :=
  changes.any fun c => c.replaced ≠ 0 || !c.text.isEmpty

end DepScope.Documents
