import DepScope.Documents.Workspace
import DepScope.Extraction

/-!
# DepScope.Session

A workspace at work on one thread. Batches go on their way only while somebody waits: until then
identifiers gather in the queue. What happens meanwhile is a list of events, in order.
-/

namespace DepScope

open Package Cache Documents Service

/-- Something that can be seen from outside. -/
inductive Event where
  | notified (name : String) (snapshot : Snapshot)
  | rendered (r : Rendering)

/-- A workspace with its key, its network, and the subscriptions of its clients by name. -/
structure Session where
  workspace : Workspace
  network : Network
  key : String
  handles : List (String × Nat) := []

namespace Session

/-- What follows from notices. -/
def events (w : Workspace) (notices : List Notice) : List Event :=
  notices.flatMap fun n =>
    match n.listener with
    | .client name => [.notified name n.snapshot]
    | .documents => (w.renderings n.snapshot.purl).map .rendered

/-- The session with another state of the cache. -/
def setCache (s : Session) (c : Cache.State) : Session :=
  { s with workspace := { s.workspace with cache := c } }

/-- What a step of the session yields besides its result: the requests that got through, and the
events. -/
structure Trace where
  requests : List Request := []
  events : List Event := []

/-- One trace after another. -/
def Trace.append (a b : Trace) : Trace :=
  ⟨a.requests ++ b.requests, a.events ++ b.events⟩

/-! ## Batches -/

/-- A step of the cache, and what follows from its notices before the next one. -/
def perform (s : Session) (step : Cache.State → Cache.State × List Notice) :
    List Event × Session :=
  let (c, notices) := step s.workspace.cache
  let s := s.setCache c
  (events s.workspace notices, s)

/-- Records come, one after the other. -/
def receive (s : Session) : List Score.Record → List Event × Session
  | [] => ([], s)
  | r :: rs =>
    let (first, s) := s.perform (·.applyRecord r)
    let (more, s) := s.receive rs
    (first ++ more, s)

/-- A batch runs to its end: its records come, then it ends. -/
def runBatch (s : Session) (b : Batch) : Trace × Session :=
  let request := scoresRequest b.members (bearer s.key)
  let reply := s.network request
  let sent := !s.key.isEmpty && reply ≠ .unreachable
  let (records, message) := Cache.State.outcomeOf s.key reply
  let (first, s) := s.receive records
  let (more, s) := s.perform (·.endBatch b message)
  (⟨if sent then [request] else [], first ++ more⟩, s)

/-- Events do not act on the cache: it goes through the same records without a session. -/
theorem cache_receive (s : Session) (rs : List Score.Record) :
    (s.receive rs).2.workspace.cache = (s.workspace.cache.applyRecords rs).1 := by
  induction rs generalizing s with
  | nil => rfl
  | cons r rs ih => simp [receive, Cache.State.applyRecords, ih, perform, setCache]

/-- A batch of a session does to the cache what the batch does without one. -/
theorem cache_runBatch (s : Session) (b : Batch) :
    (s.runBatch b).2.workspace.cache =
      (s.workspace.cache.runBatch b s.key
        (s.network (scoresRequest b.members (bearer s.key)))).1 := by
  simp [runBatch, Cache.State.runBatch, perform, setCache, cache_receive]

/-- Several batches run to their end, one after the other. -/
def runBatches (s : Session) : List Batch → Trace × Session
  | [] => ({}, s)
  | b :: bs =>
    let (first, s) := s.runBatch b
    let (more, s) := s.runBatches bs
    (first.append more, s)

/-- The batches on their way run to their end. -/
def finishRunning (s : Session) : Trace × Session :=
  s.runBatches s.workspace.cache.running

/-- A scheduled dispatch takes the queue. Without a key the batch ends at once. -/
def dispatch (s : Session) : Trace × Session :=
  if s.workspace.cache.scheduled = 0 then ({}, s)
  else
    let (b, c) := s.workspace.cache.dispatch
    let s := s.setCache c
    match b with
    | some b => if s.key.isEmpty then s.runBatch b else ({}, s)
    | none => ({}, s)

/-- Waits until nothing is queued or in flight. -/
def settle (s : Session) : Trace × Session :=
  let (a, s) := s.finishRunning
  let (b, s) := s.dispatch
  let (c, s) := s.finishRunning
  ((a.append b).append c, s)

/-- Waits, then starts again on the same disk. -/
def reopen (s : Session) : Trace × Session :=
  let (t, s) := s.settle
  (t, { s with workspace := { cache := s.workspace.cache.reopened }, handles := [] })

/-! ## Clients -/

/-- A client watches an identifier. -/
def watch (s : Session) (p : Purl) : Snapshot × Session :=
  let (snapshot, c) := s.workspace.cache.watch p
  (snapshot, s.setCache c)

/-- A client subscribes under a name; an older subscription of that name stays, but can no longer be
ended by it. -/
def subscribe (s : Session) (p : Purl) (name : String) : Session :=
  let (id, c) := s.workspace.cache.subscribe p (.client name)
  { s.setCache c with handles := Keyed.put name id s.handles }

/-- A client ends the subscription of a name; `none` if there never was one. -/
def unsubscribe (s : Session) (p : Purl) (name : String) : Option Bool × Session :=
  match Keyed.get? name s.handles with
  | none => (none, s)
  | some id =>
    let (found, c) := s.workspace.cache.unsubscribe p id
    (some found, s.setCache c)

/-! ## Documents -/

/-- A text of a document. -/
structure Edit where
  uri : String
  language : String
  path : String
  text : String

/-- Finishes an update, and shows its marks if they are new. -/
def finishUpdate (s : Session) (u : Pending) (found : Option References) :
    UpdateOutcome × List Event × Session :=
  let (outcome, w) := s.workspace.finishUpdate u found
  let shown := match outcome with
    | .rendered ds => [.rendered ⟨u.uri, ds⟩]
    | _ => []
  (outcome, shown, { s with workspace := w })

/-- Updates a document from its text. -/
def update (s : Session) (e : Edit) : UpdateOutcome × List Event × Session :=
  let (u, w) := s.workspace.beginUpdate e.uri
  { s with workspace := w }.finishUpdate u
    (extract .builtIn .absent false e.language e.path e.text)

/-- Closes a document. -/
def close (s : Session) (uri : String) : Session :=
  { s with workspace := s.workspace.close uri }

/-- An update whose text takes long to read, and what is done to the document meanwhile. The slow
update begins once nothing else can happen. -/
def race {α : Type} (s : Session) (uri : String) (meanwhile : Session → α × List Event × Session) :
    (UpdateOutcome × α) × Trace × Session :=
  let (a, s) := s.finishRunning
  let (b, s) := s.dispatch
  let (u, w) := s.workspace.beginUpdate uri
  let (result, first, s) := meanwhile { s with workspace := w }
  let (outcome, more, s) := s.finishUpdate u none
  ((outcome, result), (a.append b).append ⟨[], first ++ more⟩, s)

end Session

end DepScope
