import DepScope.Json.Document
import DepScope.References

/-!
# DepScope.Manifest.PackageJson

The packages a `package.json` names:

* each member of a dependency field names one, and the mention is the whole member;
* each string in `bundledDependencies` names one;
* under `overrides`, keys name packages with an optional version range, `.` stands for the package
  the object belongs to, and a value `$name` refers to another package. A member is mentioned as a
  whole, but by its key alone if an object follows.
-/

namespace DepScope.Manifest

open Text Package Json

/-- The fields whose members are dependencies. -/
def dependencyFields : List String :=
  ["dependencies", "devDependencies", "peerDependencies", "optionalDependencies"]

/-- A name and its place. -/
structure Named where
  name : String
  span : Span
deriving DecidableEq

/-- The mention of a name in an ecosystem. -/
def Named.mention (e : Ecosystem) (lines : LineIndex) (n : Named) : Mention :=
  Mention.ofName e n.name (lines.rangeOf n.span)

/-- The package an override's key is about. -/
def overrideTarget (owner : Option String) (key : String) : Option String :=
  if key = "." then owner else some (ofVersionRange key)

mutual

/-- The packages named by an object of overrides that belongs to a package. -/
def overrides (owner : Option String) : List (Key × Tree) → List Named
  | [] => []
  | (key, value) :: rest =>
    (match key.text with
      | some k => override (overrideTarget owner k) owner key value
      | none => []) ++ overrides owner rest

/-- The packages named by one override. -/
def override (target owner : Option String) (key : Key) : Tree → List Named
  | .object _ ms =>
    (target.map fun n => Named.mk n key.span).toList ++ overrides (target.or owner) ms
  | .string s text =>
    (target.map fun n => Named.mk n ⟨key.span.start, s.stop⟩).toList ++
      (match text.bind fun t => afterPrefix? ['$'] t.toList with
        | some other => [⟨String.ofList other, s⟩]
        | none => [])
  | other => (target.map fun n => Named.mk n ⟨key.span.start, other.span.stop⟩).toList

end

/-- The packages named by a field of the manifest. -/
def field (m : Member) : List Named :=
  if dependencyFields.contains m.name then
    match m.value with
    | .object _ ms => (members ms).map fun d => ⟨d.name, d.span⟩
    | _ => []
  else if m.name = "bundledDependencies" then
    match m.value with
    | .array _ items => items.filterMap fun i => i.text?.map fun n => ⟨n, i.span⟩
    | _ => []
  else if m.name = "overrides" then
    match m.value with
    | .object _ ms => overrides none ms
    | _ => []
  else []

/-- The packages of a manifest; `none` if it is not one object. -/
def packageJson (text : String) : Option References := do
  match ← single? (← parse? .lenient text) with
  | .object _ ms =>
    let named := (members ms).flatMap field
    return .ofMentions (named.map (Named.mention .npm (LineIndex.ofText text)))
  | _ => none

end DepScope.Manifest
