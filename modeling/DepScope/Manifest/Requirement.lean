import DepScope.Text.Position
import DepScope.Text.Chars

/-!
# DepScope.Manifest.Requirement

The name in front of a Python requirement such as `Flask[async] >= 2 ; python_version > '3.8'`:
letters and digits, with dots, dashes and underscores inside, but not at its ends. What follows the
name has to be the end, a blank, or one of the signs that start the rest of a requirement.
-/

namespace DepScope.Manifest

open Text

/-- Letters and digits. Two more characters fold to letters: the long s and the kelvin sign. -/
def isNameEdge (c : Char) : Bool :=
  isAsciiAlnum c || c = '\u017F' || c = '\u212A'

/-- Characters inside a name. -/
def isNameInner (c : Char) : Bool :=
  isNameEdge c || c = '.' || c = '_' || c = '-'

/-- The longest name at the start, empty if there is none. -/
def leadingName : List Char → List Char
  | [] => []
  | c :: cs =>
    if isNameEdge c then
      c :: ((cs.takeWhile isNameInner).reverse.dropWhile fun x => !isNameEdge x).reverse
    else []

/-- May the rest of a requirement start like this? -/
def endsName : List Char → Bool
  | [] => true
  | c :: _ => isBlank c || "<!>~=@([;".toList.contains c

/-- The blanks before the name, and the name. -/
def requirementName? (spec : List Char) : Option (List Char × List Char) :=
  let blanks := spec.takeWhile isBlank
  let rest := spec.dropWhile isBlank
  let name := leadingName rest
  if name.isEmpty || !endsName (rest.drop name.length) then none else some (blanks, name)

/-- The name of a requirement and its place in it. -/
def requirementSpan? (spec : String) : Option (Span × String) :=
  (requirementName? spec.toList).map fun (blanks, name) =>
    let start := byteLength blanks
    (⟨start, start + byteLength name⟩, String.ofList name)

end DepScope.Manifest
