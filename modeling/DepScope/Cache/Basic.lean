import DepScope.Cache.Store
import DepScope.Service.Client

/-!
# DepScope.Cache.Basic

One entry for each identifier that somebody watches. An entry starts with what is on disk and is
refreshed once it is stale.

Refreshes go through four places. An identifier that needs one waits in the *queue*; the first one
into an empty queue has a dispatch *scheduled*; the dispatch takes the whole queue as one *batch*,
whose identifiers are *in flight* until a record answers them or the batch ends. An identifier in
flight is not queued again.

Each function below is one step of this system. A step that changes an entry also tells whom to
notify, with the entry as it is after the step.
-/

namespace DepScope.Cache

open Package Score Service

/-! ## Entries -/

/-- What is known about an identifier at some time. -/
structure Snapshot where
  purl : Purl
  data : Option Record := none
  error : Option String := none
  updated : Option Int := none

/-- Never updated, or updated longer ago than `ttl`. Times to come count as fresh. -/
def isStaleAt (updated : Option Int) (now : Int) (ttl : Nat) : Bool :=
  match updated with
  | none => true
  | some t => t + ttl < now

/-- Who hears about changes of an entry. -/
inductive Listener where
  /-- A client of its own. -/
  | client (name : String)
  /-- The open documents. -/
  | documents
deriving DecidableEq

/-- An entry with its subscriptions, the oldest first. -/
structure Entry where
  snapshot : Snapshot
  subscribers : List (Nat × Listener) := []

/-- A listener to notify, and what to say. -/
structure Notice where
  listener : Listener
  snapshot : Snapshot

/-- The notices to all subscribers of an entry. -/
def Entry.notices (e : Entry) : List Notice :=
  e.subscribers.map fun (_, l) => ⟨l, e.snapshot⟩

/-- A batch on its way. -/
structure Batch where
  id : Nat
  members : List Purl
deriving DecidableEq

/-! ## The cache -/

/-- The state of a cache. -/
structure State where
  /-- How long an entry is fresh, in milliseconds. -/
  staleAfter : Nat
  /-- Can dispatches be scheduled? -/
  hasRuntime : Bool := true
  now : Int := 0
  store : Store
  entries : List (Purl × Entry) := []
  /-- Ascending, each identifier once. -/
  queued : List Purl := []
  inFlight : List Purl := []
  /-- Dispatches that have not taken the queue yet. -/
  scheduled : Nat := 0
  running : List Batch := []
  /-- How many batches there have been. -/
  batches : Nat := 0
  nextSubscription : Nat := 1

/-- What every failure to refresh says first. -/
def loadFailure : String := "Unable to load data from Socket API"

/-- Puts an identifier into an ascending list without repeats. -/
def insertSorted (p : Purl) : List Purl → List Purl
  | [] => [p]
  | q :: qs =>
    if p = q then q :: qs
    else if p.text < q.text then p :: q :: qs
    else q :: insertSorted p qs

namespace State

/-- The entry of an identifier as it would be now, made from the disk if there is none. -/
def entryOf (c : State) (p : Purl) : Entry :=
  match Keyed.get? p c.entries with
  | some e => e
  | none =>
    match c.store.load? p with
    | some (r, t) => { snapshot := { purl := p, data := some r, updated := some t } }
    | none => { snapshot := { purl := p } }

/-- Sets an entry. -/
def setEntry (c : State) (p : Purl) (e : Entry) : State :=
  { c with entries := Keyed.put p e c.entries }

/-- What is known about an identifier, if it has an entry. -/
def snapshot? (c : State) (p : Purl) : Option Snapshot :=
  (Keyed.get? p c.entries).map (·.snapshot)

/-- Does an identifier need a refresh? -/
def isStale (c : State) (p : Purl) : Bool :=
  match c.snapshot? p with
  | some s => isStaleAt s.updated c.now c.staleAfter
  | none => true

/-! ### Failing and applying -/

/-- Records a failure for an identifier in flight; without data, its subscribers hear of it. -/
def failOne (c : State) (message : String) (p : Purl) : State × List Notice :=
  if c.inFlight.contains p then
    let c := { c with inFlight := c.inFlight.filter (· ≠ p) }
    match Keyed.get? p c.entries with
    | none => (c, [])
    | some e =>
      let e := { e with snapshot := { e.snapshot with error := some message } }
      (c.setEntry p e, if e.snapshot.data.isNone then e.notices else [])
  else (c, [])

/-- Records a failure for those of several identifiers that are in flight. -/
def failAll (c : State) (message : String) : List Purl → State × List Notice
  | [] => (c, [])
  | p :: ps =>
    let (c, first) := c.failOne message p
    let (c, more) := c.failAll message ps
    (c, first ++ more)

/-- Gives a record to the entry of one of its identifiers, if there is one. -/
def applyForm (c : State) (r : Record) (p : Purl) : State × List Notice :=
  let c := { c with inFlight := c.inFlight.filter (· ≠ p) }
  match Keyed.get? p c.entries with
  | none => (c, [])
  | some e =>
    let e := { e with snapshot := ⟨e.snapshot.purl, some r, none, some c.now⟩ }
    ({ c.setEntry p e with store := c.store.save 0 c.now p r }, e.notices)

/-- Gives a record to the entries of its identifiers. -/
def applyForms (c : State) (r : Record) : List Purl → State × List Notice
  | [] => (c, [])
  | p :: ps =>
    let (c, first) := c.applyForm r p
    let (c, more) := c.applyForms r ps
    (c, first ++ more)

/-- A record has come. -/
def applyRecord (c : State) (r : Record) : State × List Notice :=
  c.applyForms r r.forms

/-- Several records have come. -/
def applyRecords (c : State) : List Record → State × List Notice
  | [] => (c, [])
  | r :: rs =>
    let (c, first) := c.applyRecord r
    let (c, more) := c.applyRecords rs
    (c, first ++ more)

/-! ### Watching -/

/-- Puts an identifier that is not in flight into the queue; `true` if it is the first one there, so
that a dispatch is due. -/
def enqueue (c : State) (p : Purl) : Bool × State :=
  if c.inFlight.contains p then (false, c)
  else (c.queued.isEmpty, { c with queued := insertSorted p c.queued })

/-- The whole queue goes in flight. -/
def takeQueue (c : State) : State :=
  { c with queued := [], inFlight := c.inFlight ++ c.queued }

/-- Has a dispatch scheduled. Where nothing can be scheduled, the queue fails at once and nobody is
told. -/
def schedule (c : State) : State :=
  if c.hasRuntime then { c with scheduled := c.scheduled + 1 }
  else (c.takeQueue.failAll (loadFailure ++ ": no runtime") c.queued).1

/-- The entry of an identifier; one that is stale goes into the queue. -/
def watch (c : State) (p : Purl) : Snapshot × State :=
  let e := c.entryOf p
  let c := c.setEntry p e
  let c := if isStaleAt e.snapshot.updated c.now c.staleAfter then
      let (first, c) := c.enqueue p
      if first then c.schedule else c
    else c
  (e.snapshot, c)

/-- Subscribes to an identifier; nothing is said about what is known already. -/
def subscribe (c : State) (p : Purl) (l : Listener) : Nat × State :=
  let e := c.entryOf p
  let id := c.nextSubscription
  let e := { e with subscribers := e.subscribers ++ [(id, l)] }
  (id, { c.setEntry p e with nextSubscription := id + 1 })

/-- Ends a subscription; `false` if there is no such one. -/
def unsubscribe (c : State) (p : Purl) (id : Nat) : Bool × State :=
  match Keyed.get? p c.entries with
  | none => (false, c)
  | some e =>
    let left := e.subscribers.filter (·.1 ≠ id)
    (left.length ≠ e.subscribers.length, c.setEntry p { e with subscribers := left })

/-! ### Batches -/

/-- A scheduled dispatch takes the queue as a batch. -/
def dispatch (c : State) : Option Batch × State :=
  let c := { c with scheduled := c.scheduled - 1 }
  if c.queued.isEmpty then (none, c)
  else
    let batch : Batch := ⟨c.batches, c.queued⟩
    (some batch, { c.takeQueue with batches := c.batches + 1, running := c.running ++ [batch] })

/-- A batch ends: what is still in flight of it has failed. -/
def endBatch (c : State) (b : Batch) (message : String) : State × List Notice :=
  let (c, notices) := c.failAll message b.members
  ({ c with running := c.running.filter (· ≠ b) }, notices)

/-- Why identifiers that got no record got none. -/
def failureMessage : StreamEnd → String
  | .finished => loadFailure ++ ": Not Found"
  | .failed e => loadFailure ++ ": " ++ e.message
  | .stalled => loadFailure ++ ": request timed out"

/-- What a batch gets: the records that come, and what is said about the rest. -/
def outcomeOf (key : String) (reply : Reply) : List Record × String :=
  if key.isEmpty then ([], loadFailure)
  else match readScores reply with
    | .error e => ([], failureMessage (.failed e))
    | .ok d => (d.records, failureMessage d.ending)

/-- A batch runs to its end: its records come, then it ends. -/
def runBatch (c : State) (b : Batch) (key : String) (reply : Reply) : State × List Notice :=
  let (records, message) := outcomeOf key reply
  let (c, first) := c.applyRecords records
  let (c, more) := c.endBatch b message
  (c, first ++ more)

/-! ### Other steps -/

/-- Time passes. -/
def advance (c : State) (ms : Nat) : State :=
  { c with now := c.now + ms }

/-- Removes the files on disk; entries stay. -/
def clearDisk (c : State) : State :=
  { c with store := c.store.clear }

/-- Is nothing queued or in flight? -/
def isSettled (c : State) : Bool :=
  c.queued.isEmpty && c.inFlight.isEmpty

/-- A new cache on the same disk. -/
def reopened (c : State) : State :=
  { staleAfter := c.staleAfter, hasRuntime := c.hasRuntime, now := c.now, store := c.store }

end State

end DepScope.Cache
