import DepScope.Documents.Decoration

/-!
# DepScope.Documents.Workspace

The open documents and the packages they refer to.

1. An update of a document begins, its text is read, and it finishes with what was found. Each
   update has a token of its own, and the next update or a close of the document cancels it: an
   update whose token is cancelled has no effect.
2. A package is tracked as long as some document refers to it. One that is neither part of a
   runtime nor local is watched in the cache, with one subscription for all documents.
3. A document is rendered when an update changes its references, and when an entry changes that it
   refers to.

The packages keep the flag they had when they were first seen.
-/

namespace DepScope.Documents

open Package Text Cache

/-- An open document. -/
structure Document where
  /-- How many updates have begun since it was opened. -/
  generation : Nat
  /-- The token of the last of them. -/
  token : Nat
  /-- What the last update that was accepted found. -/
  references : Option References := none

/-- A package that documents refer to. -/
structure Tracker where
  builtin : Bool
  /-- The documents, ascending, each once. -/
  documents : List String := []
  subscription : Option Nat := none

/-- An update that has begun. -/
structure Pending where
  uri : String
  generation : Nat
  token : Nat
deriving DecidableEq

/-- How an update ends. -/
inductive UpdateOutcome where
  /-- Another update or a close came in between. -/
  | superseded
  /-- The text gave no information; what was known stays. -/
  | noInformation
  /-- The same references as before. -/
  | unchanged
  | rendered (ds : List Decoration)
deriving DecidableEq

/-- Something to show: the marks of a document. -/
structure Rendering where
  uri : String
  decorations : List Decoration
deriving DecidableEq

/-- The open documents over a cache. -/
structure Workspace where
  cache : Cache.State
  documents : List (String × Document) := []
  packages : List (Purl × Tracker) := []
  /-- How many tokens have been given out. -/
  tokens : Nat := 0
  /-- The tokens that have been cancelled. -/
  cancelled : List Nat := []

/-- Does an identifier name something on this machine? -/
def isLocal (p : Purl) : Bool :=
  match p.ecosystem? with
  | some e => e.isLocal p.name
  | none => false

/-- Is a reference looked up? -/
def isWatched (p : Purl) (r : Reference) : Bool :=
  !r.builtin && !isLocal p

/-- Puts a document into an ascending list without repeats. -/
def insertUri (uri : String) : List String → List String
  | [] => [uri]
  | u :: us =>
    if uri = u then u :: us
    else if uri < u then uri :: u :: us
    else u :: insertUri uri us

namespace Workspace

/-! ## Looking -/

/-- The class of an identifier's marks. -/
def severityOf (w : Workspace) (p : Purl) : Severity :=
  match Keyed.get? p w.packages with
  | some t => if t.builtin then .info else .ofSnapshot (w.cache.snapshot? p)
  | none => .info

/-- The marks of references. -/
def decorationsOf (w : Workspace) (rs : References) : List Decoration :=
  rs.entries.flatMap fun (p, r) => r.ranges.map fun range => ⟨p, range, w.severityOf p⟩

/-- The references of a document that has accepted some. -/
def references? (w : Workspace) (uri : String) : Option References :=
  (Keyed.get? uri w.documents).bind (·.references)

/-- The marks of a document. -/
def decorations (w : Workspace) (uri : String) : List Decoration :=
  match w.references? uri with
  | some rs => w.decorationsOf rs
  | none => []

/-- What is shown about a package that is tracked. -/
def packageState? (w : Workspace) (p : Purl) : Option PackageState :=
  (Keyed.get? p w.packages).map fun t =>
    ⟨p, t.builtin, t.documents.length, w.cache.snapshot? p⟩

/-- The identifiers that documents refer to, ascending. -/
def tracked (w : Workspace) : List Purl :=
  (w.packages.map (·.1)).mergeSort fun a b => decide (a.text ≤ b.text)

/-- What has to be rendered when an entry has changed. -/
def renderings (w : Workspace) (p : Purl) : List Rendering :=
  match Keyed.get? p w.packages with
  | some t => t.documents.map fun uri => ⟨uri, w.decorations uri⟩
  | none => []

/-! ## Tracking -/

/-- A document refers to an identifier. -/
def track (w : Workspace) (uri : String) (p : Purl) (r : Reference) : Workspace :=
  let watched := isWatched p r
  let t := (Keyed.get? p w.packages).getD { builtin := !watched }
  let t := { t with documents := insertUri uri t.documents }
  if watched then
    let cache := (w.cache.watch p).2
    match t.subscription with
    | some _ => { w with cache, packages := Keyed.put p t w.packages }
    | none =>
      let (id, cache) := cache.subscribe p .documents
      { w with cache, packages := Keyed.put p { t with subscription := some id } w.packages }
  else { w with packages := Keyed.put p t w.packages }

/-- A document no longer refers to an identifier. -/
def release (w : Workspace) (uri : String) (p : Purl) : Workspace :=
  match Keyed.get? p w.packages with
  | none => w
  | some t =>
    let left := t.documents.filter (· ≠ uri)
    if left.isEmpty then
      let cache := match t.subscription with
        | some id => (w.cache.unsubscribe p id).2
        | none => w.cache
      { w with cache, packages := Keyed.erase p w.packages }
    else { w with packages := Keyed.put p { t with documents := left } w.packages }

/-- A document refers to several identifiers. -/
def trackEach (w : Workspace) (uri : String) (es : List (Purl × Reference)) : Workspace :=
  es.foldl (fun w (p, r) => w.track uri p r) w

/-- A document no longer refers to several identifiers. -/
def releaseEach (w : Workspace) (uri : String) (ps : List Purl) : Workspace :=
  ps.foldl (fun w p => w.release uri p) w

/-- The identifiers of the references that a document has, if it has any. -/
def purlsOf (rs : Option References) : List Purl :=
  (rs.map References.purls).getD []

/-- A document refers to what was found now, and no longer to what was found before. -/
def trackAll (w : Workspace) (uri : String) (previous : Option References)
    (current : References) : Workspace :=
  (w.trackEach uri current.entries).releaseEach uri
    ((purlsOf previous).filter (!current.contains ·))

/-! ## Updates -/

/-- Cancels the token of a document, so that an update that has it comes to nothing. -/
def cancel (w : Workspace) (d : Document) : Workspace :=
  { w with cancelled := d.token :: w.cancelled }

/-- An update begins: it gets a new token, and the one before is cancelled. The document is opened
if need be. -/
def beginUpdate (w : Workspace) (uri : String) : Pending × Workspace :=
  let (d, w) := match Keyed.get? uri w.documents with
    | some d => ({ d with generation := d.generation + 1, token := w.tokens }, w.cancel d)
    | none => ({ generation := 1, token := w.tokens }, w)
  (⟨uri, d.generation, d.token⟩,
    { w with documents := Keyed.put uri d w.documents, tokens := w.tokens + 1 })

/-- The document of an update, unless it has begun another one or the update's token is
cancelled. -/
def current? (w : Workspace) (u : Pending) : Option Document :=
  (Keyed.get? u.uri w.documents).filter fun d =>
    d.generation = u.generation && !w.cancelled.contains u.token

/-- Are these the references a document had before? -/
def isSame (previous : Option References) (current : References) : Bool :=
  match previous with
  | some rs => rs.alike current
  | none => false

/-- A document goes over to other references. -/
def accept (w : Workspace) (uri : String) (d : Document) (rs : References) : Workspace :=
  let w := w.trackAll uri d.references rs
  { w with documents := Keyed.put uri { d with references := some rs } w.documents }

/-- An update finishes with what was found. -/
def finishUpdate (w : Workspace) (u : Pending) (found : Option References) :
    UpdateOutcome × Workspace :=
  match w.current? u, found with
  | none, _ => (.superseded, w)
  | some _, none => (.noInformation, w)
  | some d, some rs =>
    let w := w.accept u.uri d rs
    (if isSame d.references rs then .unchanged else .rendered (w.decorations u.uri), w)

/-- Forgets a document, and cancels its token. -/
def forget (w : Workspace) (uri : String) (d : Document) : Workspace :=
  { w.cancel d with documents := Keyed.erase uri w.documents }

/-- Closes a document. -/
def close (w : Workspace) (uri : String) : Workspace :=
  match Keyed.get? uri w.documents with
  | none => w
  | some d => (w.forget uri d).releaseEach uri (purlsOf d.references)

end Workspace

end DepScope.Documents
