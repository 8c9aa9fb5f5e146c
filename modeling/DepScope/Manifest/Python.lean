import DepScope.Manifest.Requirement
import DepScope.References
import DepScope.Toml.Keys

/-!
# DepScope.Manifest.Python

The packages that Python manifests name: `pyproject.toml` (lists of requirements under `project`,
and the dependency tables of Poetry), `Pipfile`, and lists of requirements with one on each line.
-/

namespace DepScope.Manifest

open Text Package Toml

/-- Both manifests are read by the strict grammar. -/
def tomlRules : Rules := ⟨false⟩

/-- The mention of a key by its last name. -/
def keyMention (lines : LineIndex) (v : Visit) : List Mention :=
  v.lastName?.toList.map fun n => Mention.ofName .pypi n (lines.rangeOf v.span)

/-- Is the path that of a Poetry dependency? -/
def isPoetryDependency (path : List Segment) : Bool :=
  pathMatches path [some "tool", some "poetry", some "dependencies", none]
    || pathMatches path [some "tool", some "poetry", some "dev-dependencies", none]
    || pathMatches path
      [some "tool", some "poetry", some "group", none, some "dependencies", none]

/-- Is the path that of a list of requirements? -/
def isRequirementList (path : List Segment) : Bool :=
  pathMatches path [some "project", some "dependencies"]
    || pathMatches path [some "project", some "optional-dependencies", none]

/-- The mentions of an array's strings that start with a name. -/
def requirementMentions (lines : LineIndex) : Option Value → List Mention
  | some (.array _ items) => items.filterMap fun item => do
    let (_, name) ← requirementSpan? (← item.text?)
    return Mention.ofName .pypi name (lines.rangeOf item.span)
  | _ => []

/-- The mentions a key of `pyproject.toml` makes. The interpreter itself is not a package. -/
def pyprojectMentions (lines : LineIndex) (v : Visit) : List Mention :=
  if isPoetryDependency v.path then
    if v.lastName? = some "python" then [] else keyMention lines v
  else if isRequirementList v.path then requirementMentions lines v.value
  else []

/-- The mentions a key of `Pipfile` makes. -/
def pipfileMentions (lines : LineIndex) (v : Visit) : List Mention :=
  if pathMatches v.path [some "packages", none] || pathMatches v.path [some "dev-packages", none]
  then keyMention lines v else []

/-- The packages of a manifest whose keys make mentions; `none` if it is malformed. -/
def ofKeys (mentions : LineIndex → Visit → List Mention) (text : String) : Option References :=
  (parse? tomlRules text).map fun doc =>
    .ofMentions (doc.visits.flatMap (mentions (LineIndex.ofText text)))

/-- The packages of a `pyproject.toml`. -/
def pyproject (text : String) : Option References :=
  ofKeys pyprojectMentions text

/-- The packages of a `Pipfile`. -/
def pipfile (text : String) : Option References :=
  ofKeys pipfileMentions text

/-! ## Lists of requirements -/

/-- A line without its comment, which starts with a hash at the start or after a blank. -/
def withoutComment : List Char → List Char
  | '#' :: _ => []
  | cs => go cs
where
  go : List Char → List Char
  | [] => []
  | c :: '#' :: cs => if isBlank c then [] else c :: go ('#' :: cs)
  | c :: cs => c :: go cs

/-- The mention of a line, from the name to the last character that is not blank. -/
def requirementLine (lines : LineIndex) (i : Nat) (raw : List Char) : Option Mention :=
  let line := withoutComment raw
  (requirementName? line).map fun (blanks, name) =>
    Mention.ofName .pypi (String.ofList name)
      ⟨lines.positionAt i (byteLength blanks), lines.positionAt i (byteLength (trimEnd line))⟩

/-- The packages of a list of requirements. -/
def requirements (text : String) : References :=
  let lines := LineIndex.ofText text
  let mentions := (pieces '\n' text.toList).zipIdx.filterMap fun (raw, i) =>
    requirementLine lines i raw
  .ofMentions mentions

end DepScope.Manifest
