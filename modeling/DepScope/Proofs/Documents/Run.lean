import DepScope.Session
import DepScope.Proofs.Documents.Operations

/-!
# DepScope.Proofs.Documents.Run

A session as a step system, and its runs.

1. An update begins, and finishes with whatever was found in its text; a document is closed. Any
   number of updates may be under way, of one document or of several.
2. The cache goes on meanwhile as in `Cache.Step`. A record, or the end of a batch, is one step
   with the notices and the renderings that it leads to. Clients may do what they like with the
   cache, except that they neither subscribe for the documents nor end their subscriptions.
3. A run is any sequence of steps from a new session. Its history keeps each step with the session
   it was made in and the events it led to, the latest first.

A session that does one thing after another goes through such a run (`run_update`,
`run_runBatch`), and what every operation keeps holds in all of them (`Run.invariant`).

What a document refers to is told by the history alone (`accepted`), and so is what has been shown
of it last (`lastShown?`).
-/

namespace DepScope

open Package Cache Documents

/-- Is a step of the cache one that others than the documents can make? -/
def Cache.State.admits (c : State) : Cache.Step → Bool
  | .subscribe _ l => l ≠ .documents
  | .unsubscribe _ id => c.entries.all fun x => !x.2.subscribers.contains (id, .documents)
  | _ => true

namespace Documents

/-! ## Steps -/

/-- Something that happens to a session. -/
inductive Step where
  /-- An update of a document begins. -/
  | begin (uri : String)
  /-- An update finishes with what was found in the text, if anything was. -/
  | finish (u : Pending) (found : Option References)
  | close (uri : String)
  /-- Something happens to the cache. -/
  | cache (a : Cache.Step)

end Documents

/-- The events of a step and the session after it; `none` if the step cannot happen. -/
def Session.step? (s : Session) : Documents.Step → Option (List Event × Session)
  | .begin uri => some ([], { s with workspace := (s.workspace.beginUpdate uri).2 })
  | .finish u found => some (s.finishUpdate u found).2
  | .close uri => some ([], s.close uri)
  | .cache (.apply b r) =>
    if b ∈ s.workspace.cache.running then some (s.perform (·.applyRecord r)) else none
  | .cache (.finish b e) =>
    if b ∈ s.workspace.cache.running then some (s.perform (·.endBatch b e.message)) else none
  | .cache a =>
    if s.workspace.cache.admits a then
      (s.workspace.cache.step? a).map fun c => ([], s.setCache c)
    else none

namespace Documents

/-- A step that has been made, with the session before it and the events it led to. -/
structure Moment where
  before : Session
  step : Step
  events : List Event

/-- The steps made so far, the latest first. -/
abbrev History := List Moment

/-- The runs of a session. -/
inductive Run (s₀ : Session) : History → Session → Prop
  | start : Run s₀ [] s₀
  | next {h : History} {s s' : Session} {a : Step} {es : List Event} :
      Run s₀ h s → s.step? a = some (es, s') → Run s₀ (⟨s, a, es⟩ :: h) s'

variable {s₀ s s' : Session} {h h' : History} {a : Step} {es : List Event} {uri : String}

/-- A run goes on by a step, whatever the step leads to. -/
theorem Run.step {x : List Event × Session} (hr : Run s₀ h s) (hs : s.step? a = some x) :
    Run s₀ (⟨s, a, x.1⟩ :: h) x.2 :=
  .next hr hs

/-- A run goes through each of its steps. -/
theorem Run.split {m : Moment} (hr : Run s₀ (h' ++ m :: h) s') :
    ∃ s₁, Run s₀ h m.before ∧ m.before.step? m.step = some (m.events, s₁) ∧ Run s₁ h' s' := by
  induction h' generalizing s' with
  | nil =>
    cases hr with
    | next hr hs => exact ⟨s', hr, hs, .start⟩
  | cons x h' ih =>
    cases hr with
    | next hr hs =>
      obtain ⟨s₁, hr₀, hs₀, hr₁⟩ := ih hr
      exact ⟨s₁, hr₀, hs₀, .next hr₁ hs⟩

/-- All events, in the order in which they happened. -/
def happened (h : History) : List Event :=
  h.reverse.flatMap (·.events)

@[simp]
theorem happened_nil : happened [] = [] := rfl

theorem happened_cons (m : Moment) (h : History) : happened (m :: h) = happened h ++ m.events := by
  simp [happened]

theorem happened_append (h h' : History) : happened (h' ++ h) = happened h ++ happened h' := by
  simp [happened]

/-- A run may go on from where another ends. -/
theorem Run.trans (hr : Run s₀ h s) (hr' : Run s h' s') : Run s₀ (h' ++ h) s' := by
  induction hr' with
  | start => exact hr
  | next _ hs ih => exact .next ih hs

/-- Makes steps one after the other; `none` if one of them cannot happen. -/
def play? (s : Session) (h : History) : List Step → Option (History × Session)
  | [] => some (h, s)
  | a :: as => (s.step? a).bind fun (es, s') => play? s' (⟨s, a, es⟩ :: h) as

theorem Run.play {as : List Step} (hr : Run s₀ h s) (hp : play? s h as = some (h', s')) :
    Run s₀ h' s' := by
  induction as generalizing h s with
  | nil =>
    cases hp
    exact hr
  | cons a as ih =>
    obtain ⟨⟨es, s₁⟩, hs, hp⟩ := Option.bind_eq_some_iff.mp hp
    exact ih (.next hr hs) hp

/-- A property that steps lead to is one of a run. -/
theorem exists_run {P : History → Session → Prop} [∀ h s, Decidable (P h s)] (as : List Step)
    (hp : (play? s₀ [] as).any (fun x => decide (P x.1 x.2)) = true) :
    ∃ h s, Run s₀ h s ∧ P h s := by
  cases hplay : play? s₀ [] as with
  | none => simp [hplay] at hp
  | some x =>
    rw [hplay] at hp
    exact ⟨x.1, x.2, Run.start.play hplay, of_decide_eq_true hp⟩

/-- Nothing has happened yet: no document is open, and the cache is new. -/
def IsNew (s : Session) : Prop :=
  s.workspace = { cache := s.workspace.cache.reopened }

/-- A new session with nothing on disk. -/
def blank : Session := { workspace := { cache := State.empty }, network := .down, key := "" }

theorem isNew_blank : IsNew blank := rfl

/-! ## What a session does -/

/-- An update is two steps, with nothing in between. -/
theorem run_update (s : Session) (e : Session.Edit) :
    ∃ h, Run s h (s.update e).2.2 ∧ happened h = (s.update e).2.1 := by
  have hbegin : Run s _ _ := Run.start.step (a := .begin e.uri) rfl
  have hfinish := hbegin.step (a := .finish (s.workspace.beginUpdate e.uri).1
    (extract .builtIn .absent false e.language e.path e.text)) rfl
  exact ⟨_, hfinish, by rw [happened_cons]; rfl⟩

/-- The cache after a step with what follows from its notices. -/
theorem cache_perform (s : Session) (f : State → State × List Notice) :
    (s.perform f).2.workspace.cache = (f s.workspace.cache).1 := rfl

theorem run_receive {b : Batch} (hb : b ∈ s.workspace.cache.running) (rs : List Score.Record) :
    ∃ h, Run s h (s.receive rs).2 ∧ happened h = (s.receive rs).1 ∧
      b ∈ (s.receive rs).2.workspace.cache.running := by
  induction rs generalizing s with
  | nil => exact ⟨[], .start, rfl, hb⟩
  | cons r rs ih =>
    have hb' : b ∈ (s.perform (·.applyRecord r)).2.workspace.cache.running := by
      rw [cache_perform, (State.applyRecord_agrees _ r).running]
      exact hb
    have hcons : s.receive (r :: rs) =
        ((s.perform (·.applyRecord r)).1 ++ ((s.perform (·.applyRecord r)).2.receive rs).1,
          ((s.perform (·.applyRecord r)).2.receive rs).2) := by rw [Session.receive]
    have hs : s.step? (.cache (.apply b r)) = some (s.perform (·.applyRecord r)) := if_pos hb
    obtain ⟨h, hr, hes, hrun⟩ := ih hb'
    rw [hcons]
    generalize s.perform (·.applyRecord r) = x at *
    refine ⟨_, (Run.start.step hs).trans hr, ?_, hrun⟩
    simp [happened_append, happened_cons, hes]

/-- A batch that runs to its end without anything in between does so by steps of the system. -/
theorem run_runBatch {b : Batch} (hb : b ∈ s.workspace.cache.running) :
    ∃ h, Run s h (s.runBatch b).2 ∧ happened h = (s.runBatch b).1.events := by
  let reply := s.network (Service.scoresRequest b.members (Service.bearer s.key))
  let out := State.outcomeOf s.key reply
  have hevents : (s.runBatch b).1.events =
      (s.receive out.1).1 ++ ((s.receive out.1).2.perform (·.endBatch b out.2)).1 := rfl
  have hafter : (s.runBatch b).2 = ((s.receive out.1).2.perform (·.endBatch b out.2)).2 := rfl
  obtain ⟨e, he⟩ := Cache.exists_ending s.key reply
  obtain ⟨h, hr, hes, hrun⟩ := run_receive hb out.1
  rw [hevents, hafter]
  generalize s.receive out.1 = x at *
  have hs : x.2.step? (.cache (.finish b e)) = some (x.2.perform (·.endBatch b out.2)) := by
    rw [show out.2 = e.message from he]
    exact if_pos hrun
  generalize x.2.perform (·.endBatch b out.2) = y at *
  exact ⟨_, hr.step hs, by rw [happened_cons, hes]⟩

/-! ## What a step does -/

/-- A step of the cache that leaves the subscriptions of the documents alone: it makes none for them
and ends none of theirs. -/
structure Foreign (c : State) (b : Cache.Step) : Prop where
  subscribe : ∀ p, b ≠ .subscribe p .documents
  unsubscribe : ∀ p id, Subscribed c p id .documents → b ≠ .unsubscribe p id

/-- What the cache admits from others leaves the subscriptions of the documents alone. -/
theorem foreign_of_admits {c : State} {b : Cache.Step} (hb : c.admits b = true) : Foreign c b where
  subscribe p := by
    rintro rfl
    simp [State.admits] at hb
  unsubscribe p id hsub := by
    rintro rfl
    obtain ⟨e, he, hmem⟩ := hsub
    have hnot := List.all_eq_true.mp hb (p, e) (Keyed.mem_of_get? he)
    simp [hmem] at hnot

/-- **A step of the cache in a session** is the same step without one. What follows from its notices
are its events, and a record brings the notices that it calls for. Subscriptions of the documents
are left alone. -/
theorem step?_cache {b : Cache.Step} (hs : s.step? (.cache b) = some (es, s')) :
    ∃ c ns, s.workspace.cache.step? b = some c ∧ s' = s.setCache c ∧
      es = Session.events s'.workspace ns ∧
      (∀ b' r, b = .apply b' r → ns = (s.workspace.cache.applyRecord r).2) ∧
      Foreign s.workspace.cache b := by
  -- all steps but records and ends of batches are made by the cache alone
  have hquiet (hs : (if s.workspace.cache.admits b then
      (s.workspace.cache.step? b).map fun c => ([], s.setCache c) else none) = some (es, s'))
      (hb : ∀ b' r, b ≠ .apply b' r) :
      ∃ c ns, s.workspace.cache.step? b = some c ∧ s' = s.setCache c ∧
        es = Session.events s'.workspace ns ∧
        (∀ b' r, b = .apply b' r → ns = (s.workspace.cache.applyRecord r).2) ∧
        Foreign s.workspace.cache b := by
    rw [Option.ite_none_right_eq_some] at hs
    obtain ⟨hadmits, hs⟩ := hs
    obtain ⟨c, hc, hs⟩ := Option.map_eq_some_iff.mp hs
    cases hs
    exact ⟨c, [], hc, rfl, rfl, fun b' r h => absurd h (hb b' r), foreign_of_admits hadmits⟩
  -- these two are made with what follows from their notices
  have hperform (f : State → State × List Notice) (hs : s.perform f = (es, s')) :
      s' = s.setCache (f s.workspace.cache).1 ∧
        es = Session.events s'.workspace (f s.workspace.cache).2 := by
    obtain ⟨rfl, rfl⟩ := Prod.ext_iff.mp hs
    exact ⟨rfl, rfl⟩
  cases b with
  | apply b r =>
    simp only [Session.step?, Option.ite_none_right_eq_some, Option.some.injEq] at hs
    obtain ⟨hs', hes⟩ := hperform _ hs.2
    refine ⟨_, _, if_pos hs.1, hs', hes, ?_, by simp, by simp⟩
    rintro b' r' ⟨⟩
    rfl
  | finish b e =>
    simp only [Session.step?, Option.ite_none_right_eq_some, Option.some.injEq] at hs
    obtain ⟨hs', hes⟩ := hperform _ hs.2
    exact ⟨_, _, if_pos hs.1, hs', hes, by simp, by simp, by simp⟩
  | _ => exact hquiet hs (by simp)

/-- Has the update brought something to its document? -/
def UpdateOutcome.isAccepted : UpdateOutcome → Bool
  | .unchanged | .rendered _ => true
  | .superseded | .noInformation => false

/-- **An update that finishes** does so without any effect, or its document goes over to what was
found; that is shown if it is not what the document referred to before. -/
theorem step?_finish {u : Pending} {found : Option References}
    (hs : s.step? (.finish u found) = some (es, s')) :
    ((s.finishUpdate u found).1.isAccepted = false ∧ es = [] ∧ s' = s) ∨
    (∃ d rs, (s.finishUpdate u found).1.isAccepted = true ∧ s.workspace.current? u = some d ∧
      found = some rs ∧ s'.workspace = s.workspace.accept u.uri d rs ∧
      (Workspace.isSame d.references rs = true ∧ es = [] ∨
        Workspace.isSame d.references rs = false ∧
          es = [.rendered ⟨u.uri, s'.workspace.decorations u.uri⟩])) := by
  have hs' : (s.finishUpdate u found).2 = (es, s') := Option.some.inj hs
  unfold Session.finishUpdate at hs' ⊢
  obtain ⟨-, h⟩ | ⟨d, -, -, h⟩ | ⟨d, rs, hd, hf, hsame, h⟩ | ⟨d, rs, hd, hf, hsame, h⟩ :=
    s.workspace.finishUpdate_cases u found <;> rw [h] at hs' ⊢ <;> cases hs'
  · exact .inl ⟨rfl, rfl, rfl⟩
  · exact .inl ⟨rfl, rfl, rfl⟩
  · exact .inr ⟨d, rs, rfl, hd, hf, rfl, .inl ⟨hsame, rfl⟩⟩
  · exact .inr ⟨d, rs, rfl, hd, hf, rfl, .inr ⟨hsame, rfl⟩⟩

/-- The documents only call the cache. -/
theorem called_step? (hs : s.step? a = some (es, s')) (ha : ∀ b, a ≠ .cache b) :
    Called s.workspace.cache s'.workspace.cache := by
  cases a with
  | begin uri =>
    cases hs
    rw [Workspace.cache_beginUpdate]
    exact Called.refl _
  | close uri => cases hs; exact Workspace.called_close _ _
  | finish u found =>
    obtain ⟨-, -, rfl⟩ | ⟨d, rs, -, -, -, hw, -⟩ := step?_finish hs
    · exact Called.refl _
    · rw [hw]
      exact Workspace.called_trackAll _ _ _ _
  | cache b => exact absurd rfl (ha b)

/-! ## What a run does -/

/-- **What every operation keeps holds in every run.** The cache takes whatever step it takes, as long
as it leaves the subscriptions of the documents alone. -/
theorem Run.invariant {P : Workspace → Prop} (hn : IsNew s₀) (hr : Run s₀ h s)
    (hnew : ∀ c : State, P { cache := c.reopened })
    (hbegin : ∀ w uri, P w → P (w.beginUpdate uri).2)
    (haccept : ∀ w uri d rs, Keyed.get? uri w.documents = some d → P w → P (w.accept uri d rs))
    (hclose : ∀ w uri, P w → P (w.close uri))
    (hcache : ∀ w b c, w.cache.step? b = some c → Foreign w.cache b → P w →
      P { w with cache := c }) : P s.workspace := by
  induction hr with
  | start =>
    rw [hn]
    exact hnew _
  | @next h s s' a es _ hs ih =>
    cases a with
    | begin uri => cases hs; exact hbegin _ uri ih
    | close uri => cases hs; exact hclose _ uri ih
    | finish u found =>
      obtain ⟨-, -, rfl⟩ | ⟨d, rs, -, hd, -, hw, -⟩ := step?_finish hs
      · exact ih
      · rw [hw]
        exact haccept _ u.uri d rs (Workspace.current?_eq_some_iff.mp hd).1 ih
    | cache b =>
      obtain ⟨c, ns, hc, rfl, -, -, hforeign⟩ := step?_cache hs
      exact hcache _ b c hc hforeign ih

/-- The cache of a session goes through a run of its own. -/
theorem Run.cache (hr : Run s₀ h s) :
    ∃ h', Cache.Run s₀.workspace.cache h' s.workspace.cache := by
  induction hr with
  | start => exact ⟨[], .start⟩
  | @next h s s' a es _ hs ih =>
    obtain ⟨h', hrc⟩ := ih
    by_cases ha : ∃ b, a = .cache b
    · obtain ⟨b, rfl⟩ := ha
      obtain ⟨c, ns, hc, rfl, -⟩ := step?_cache hs
      exact ⟨_, hrc.next hc⟩
    · obtain ⟨h₁, hr₁, -⟩ := called_step? hs fun b hb => ha ⟨b, hb⟩
      exact ⟨_, hrc.trans hr₁⟩

theorem IsNew.cache (hn : IsNew s₀) : s₀.workspace.cache.reopened = s₀.workspace.cache :=
  (congrArg Workspace.cache hn).symm

/-! ## What the history tells -/

/-- What a document refers to: what the last update brought that was accepted, if the document has
not been closed since. -/
def accepted (uri : String) : History → Option References
  | [] => none
  | m :: h =>
    match m.step with
    | .close v => if uri = v then none else accepted uri h
    | .finish u found =>
      if uri = u.uri ∧ (m.before.finishUpdate u found).1.isAccepted = true then found
      else accepted uri h
    | _ => accepted uri h

/-- **The references that a document has are those of the history.** -/
theorem Run.references?_eq (hn : IsNew s₀) (hr : Run s₀ h s) (uri : String) :
    s.workspace.references? uri = accepted uri h := by
  induction hr with
  | start =>
    rw [hn]
    rfl
  | @next h s s' a es _ hs ih =>
    cases a with
    | begin v =>
      cases hs
      rw [accepted, ← ih]
      exact Workspace.references?_beginUpdate _ _
    | close v =>
      cases hs
      rw [accepted, ← ih]
      exact Workspace.references?_close
    | finish u found =>
      rw [accepted, ← ih]
      obtain ⟨hacc, -, rfl⟩ | ⟨d, rs, hacc, -, rfl, hw, -⟩ := step?_finish hs
      · simp [hacc]
      · rw [hw, Workspace.references?_accept]
        simp [hacc]
    | cache b =>
      obtain ⟨c, ns, -, rfl, -⟩ := step?_cache hs
      exact ih

/-- What an event shows of a document, if it does. -/
def shows? (uri : String) : Event → Option (List Decoration)
  | .rendered r => if r.uri = uri then some r.decorations else none
  | .notified _ _ => none

theorem shows?_eq_some_iff {e : Event} {ds : List Decoration} :
    shows? uri e = some ds ↔ e = .rendered ⟨uri, ds⟩ := by
  cases e with
  | notified name snapshot => simp [shows?]
  | rendered r =>
    obtain ⟨v, ds'⟩ := r
    simp [shows?]

/-- What has been shown of a document last. -/
def lastShown? (uri : String) (h : History) : Option (List Decoration) :=
  (happened h).reverse.findSome? (shows? uri)

end Documents

end DepScope
