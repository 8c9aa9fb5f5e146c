import DepScope.Json.Value
import DepScope.Package.Purl

/-!
# DepScope.Score.Record

What the scoring service says about one package: its coordinates, its scores and its alerts. The
same text is the format of the files on disk.

1. Fields that are not known are passed over, a known field may stand only once, and a record may
   also be written as the list of its fields' values.
2. Optional coordinates may be null or absent; scores default to zero, alerts to none.
3. Qualifiers come as a text or as a map, which is written `key=value`, joined with `&`.
4. An action that is not known counts as `ignore`.

Writing leaves absent coordinates out and sorts the members of an alert's properties.
-/

namespace DepScope.Score

open Package Json

/-! ## Alerts -/

/-- What an alert asks for, the most severe first. -/
inductive Action where
  | error
  | warn
  | monitor
  | ignore
deriving DecidableEq, Inhabited

namespace Action

/-- All actions, the most severe first. -/
def all : List Action := [error, warn, monitor, ignore]

/-- The name of an action. -/
def name : Action → String
  | error => "error"
  | warn => "warn"
  | monitor => "monitor"
  | ignore => "ignore"

/-- The action of a name. -/
def ofName (s : String) : Action :=
  (all.find? (·.name == s)).getD ignore

/-- Decodes an action: its name, or an object with the name and null. -/
def ofJson? : Value → Option Action
  | .string s => s.map ofName
  | .object [(some s, .null)] => some (ofName s)
  | _ => none

/-- The place of an action, from the most severe one on. -/
def rank : Action → Nat
  | error => 0
  | warn => 1
  | monitor => 2
  | ignore => 3

/-- The more severe of two actions. -/
def worse (a b : Action) : Action :=
  if a.rank ≤ b.rank then a else b

end Action

/-- An alert about a package. -/
structure Alert where
  action : Action
  kind : String
  severity : String
  /-- Further data, in normal form. -/
  props : Value

/-- Decodes an alert. -/
def Alert.ofJson? (v : Value) : Option Alert := do
  match ← v.fields? ["action", "type", "severity", "props"] with
  | [some action, some kind, severity, props] =>
    return ⟨← Action.ofJson? action, ← kind.text?, ← orDefault? "" Value.text? severity,
      ← orDefault? .null (Value.data? 3) props⟩
  | _ => none

/-- An alert as data. -/
def Alert.toJson (a : Alert) : Value :=
  object [("action", text a.action.name), ("type", text a.kind), ("severity", text a.severity),
    ("props", a.props)]

/-! ## Scores -/

/-- The scores of a package, usually between zero and one. -/
structure Ratings where
  overall : Decimal.Finite
  license : Decimal.Finite
  maintenance : Decimal.Finite
  quality : Decimal.Finite
  supplyChain : Decimal.Finite
  vulnerability : Decimal.Finite
deriving DecidableEq

/-- Nothing but zeros. -/
def Ratings.zero : Ratings := ⟨.zero, .zero, .zero, .zero, .zero, .zero⟩

/-- Decodes scores. -/
def Ratings.ofJson? (v : Value) : Option Ratings := do
  let fields ← v.fields?
    ["overall", "license", "maintenance", "quality", "supplyChain", "vulnerability"]
  match ← fields.mapM (orDefault? .zero Value.real?) with
  | [overall, license, maintenance, quality, supplyChain, vulnerability] =>
    return ⟨overall, license, maintenance, quality, supplyChain, vulnerability⟩
  | _ => none

/-- Scores as data. -/
def Ratings.toJson (r : Ratings) : Value :=
  object [("overall", real r.overall), ("license", real r.license),
    ("maintenance", real r.maintenance), ("quality", real r.quality),
    ("supplyChain", real r.supplyChain), ("vulnerability", real r.vulnerability)]

/-! ## Records -/

/-- What is known about a package. -/
structure Record where
  coordinates : Coordinates
  ratings : Ratings
  alerts : List Alert

/-- Decodes qualifiers; a map without entries stands for none. -/
def qualifiers? : Value → Option (Option String)
  | .null => some none
  | .string s => s.map some
  | v => do
    let entries ← v.map? Value.text?
    if entries.isEmpty then return none
    return some (String.intercalate "&" (entries.map fun (k, v) => k ++ "=" ++ v))

namespace Record

/-- Decodes a record. -/
def ofJson? (v : Value) : Option Record := do
  match ← v.fields? ["type", "namespace", "name", "version", "qualifiers", "subpath", "score",
      "alerts"] with
  | [some kind, space, some name, version, qualifiers, subpath, score, alerts] =>
    let coordinates : Coordinates := ⟨← kind.text?, ← name.text?, ← orNull? Value.text? space,
      ← orNull? Value.text? version, ← orDefault? none qualifiers? qualifiers,
      ← orNull? Value.text? subpath⟩
    let ratings ← orDefault? .zero Ratings.ofJson? score
    let alerts ← orDefault? [] (fun v => do (← v.items?).mapM Alert.ofJson?) alerts
    return ⟨coordinates, ratings, alerts⟩
  | _ => none

/-- A field that is left out when it is absent. -/
def field (name : String) (s : Option String) : List (String × Value) :=
  s.toList.map fun s => (name, text s)

/-- A record as data. -/
def toJson (r : Record) : Value :=
  let c := r.coordinates
  object ([("type", text c.packageType)] ++ field "namespace" c.space
    ++ [("name", text c.name)] ++ field "version" c.version ++ field "qualifiers" c.qualifiers
    ++ field "subpath" c.subpath
    ++ [("score", r.ratings.toJson), ("alerts", .array (r.alerts.map Alert.toJson))])

/-- Reads a record from its text. -/
def read? (text : String) : Option Record :=
  (Json.read? text).bind ofJson?

/-- The text of a record, on one line. -/
def write (r : Record) : String :=
  r.toJson.compact

/-- The identifier without the version. -/
def unversioned (r : Record) : Purl :=
  r.coordinates.unversioned

/-- The identifier with the version, if there is one. -/
def versioned (r : Record) : Purl :=
  r.coordinates.purl

/-- The identifiers a record answers, each once. -/
def forms (r : Record) : List Purl :=
  if r.versioned = r.unversioned then [r.unversioned] else [r.unversioned, r.versioned]

/-- The most severe action among the alerts. -/
def worst? (r : Record) : Option Action :=
  match r.alerts.map (·.action) with
  | [] => none
  | a :: as => some (as.foldl Action.worse a)

end Record

end DepScope.Score
