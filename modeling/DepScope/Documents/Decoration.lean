import DepScope.Cache.Basic
import DepScope.References

/-!
# DepScope.Documents.Decoration

How references are shown: the class of a mark in a document, and the summary of a package.
-/

namespace DepScope.Documents

open Package Text Score

/-- The class of a mark. -/
inductive Severity where
  | error
  | warn
  | info
deriving DecidableEq, Inhabited

namespace Severity

/-- The name of a class. -/
def name : Severity → String
  | error => "error"
  | warn => "warn"
  | info => "info"

/-- The class of what is known: that of the worst alert. Everything short of a warning is
informational, also if nothing is known. -/
def ofSnapshot (s : Option Cache.Snapshot) : Severity :=
  match (s.bind (·.data)).bind Record.worst? with
  | some .error => error
  | some .warn => warn
  | _ => info

end Severity

/-- A mark in a document. -/
structure Decoration where
  purl : Purl
  range : Range
  severity : Severity
deriving DecidableEq

/-- What is shown about a package. -/
structure PackageState where
  purl : Purl
  builtin : Bool
  /-- How many open documents refer to it. -/
  documents : Nat
  snapshot : Option Cache.Snapshot

/-- A score as a percentage without places, a half going to the even neighbour. -/
def percentage (x : Decimal.Finite) : String :=
  (if x.negative then "-" else "") ++
    match x.times? 100 with
    | some y => String.ofList (decimalDigits y.nearestWhole)
    | none => "inf"

/-- The line about an alert. -/
def alertLine (a : Alert) : String :=
  "\n[" ++ a.action.name ++ "] " ++ a.kind
    ++ if a.severity.isEmpty then "" else " (" ++ a.severity ++ ")"

/-- The alerts without those whose kind has come before. -/
def firstOfKind (seen : List String) : List Alert → List Alert
  | [] => []
  | a :: as =>
    if seen.contains a.kind then firstOfKind seen as
    else a :: firstOfKind (a.kind :: seen) as

/-- The lines about a record: the overall score, then each kind of alert, by action. -/
def recordLines (r : Record) : String :=
  let groups := Action.all.map fun x => firstOfKind [] (r.alerts.filter (·.action = x))
  "\noverall: " ++ percentage r.ratings.overall ++ "%"
    ++ String.join (groups.flatten.map alertLine)

namespace PackageState

/-- The class of a package. -/
def severity (s : PackageState) : Severity :=
  if s.builtin then .info else .ofSnapshot s.snapshot

/-- The summary of a package. -/
def describe (s : PackageState) : String :=
  s.purl.text ++
    if s.builtin then "\nbuiltin module"
    else match s.snapshot with
      | none => "\nnot tracked"
      | some e =>
        match e.data, e.error with
        | some r, _ => recordLines r
        | none, some error => "\n" ++ error
        | none, none => "\nloading..."

end PackageState

end DepScope.Documents
