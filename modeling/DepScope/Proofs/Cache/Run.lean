import DepScope.Proofs.Cache.Operations

/-!
# DepScope.Proofs.Cache.Run

A cache as a step system, and its runs.

1. A step is a call of a client, a scheduled dispatch that takes the queue, a running batch that
   applies one record or ends, or something from outside: the clock is set, calls come from a
   thread with or without a runtime, the folder changes.
2. A batch may end in each of the ways of `Ending`, at any time.
3. A run is any sequence of steps from a new cache. Its history keeps each step with the state it
   was made in, the latest first, so that what happened "since" is a matter of the front part.

`step?_entry` says once and for all what a step can do to an entry.
-/

namespace DepScope.Cache

open Package Score Service

/-! ## Steps -/

/-- How a batch ends: at once for want of a key, or as its stream does. -/
inductive Ending where
  | noKey
  | stream (e : StreamEnd)

/-- What is said about identifiers that got no record. -/
def Ending.message : Ending → String
  | noKey => loadFailure
  | stream e => State.failureMessage e

/-- Something that happens to a cache. -/
inductive Step where
  | watch (p : Purl)
  | subscribe (p : Purl) (l : Listener)
  | unsubscribe (p : Purl) (id : Nat)
  /-- A scheduled dispatch takes the queue. -/
  | dispatch
  /-- A running batch gets a record. -/
  | apply (b : Batch) (r : Record)
  /-- A running batch ends. -/
  | finish (b : Batch) (e : Ending)
  /-- The clock is set, forward or back. -/
  | clock (t : Int)
  /-- Calls come from a thread with a runtime, or without one. -/
  | caller (onRuntime : Bool)
  /-- The folder on disk changes. -/
  | disk (s : Store)

/-- Does a step apply a record that has the identifier as one of its forms? -/
def Step.answers (p : Purl) : Step → Bool
  | apply _ r => r.forms.contains p
  | _ => false

/-- The state after a step; `none` if the step cannot happen. -/
def State.step? (c : State) : Step → Option State
  | .watch p => some (c.watch p).2
  | .subscribe p l => some (c.subscribe p l).2
  | .unsubscribe p id => some (c.unsubscribe p id).2
  | .dispatch => if c.scheduled = 0 then none else some c.dispatch.2
  | .apply b r => if b ∈ c.running then some (c.applyRecord r).1 else none
  | .finish b e => if b ∈ c.running then some (c.endBatch b e.message).1 else none
  | .clock t => some { c with now := t }
  | .caller on => some { c with hasRuntime := on }
  | .disk s => some { c with store := s }

/-- The steps made so far, each with the state it was made in, the latest first. -/
abbrev History := List (State × Step)

/-- The runs of a cache. -/
inductive Run (c₀ : State) : History → State → Prop
  | start : Run c₀ [] c₀
  | next {h : History} {c c' : State} {s : Step} :
      Run c₀ h c → c.step? s = some c' → Run c₀ ((c, s) :: h) c'

/-- The batch that the latest step of a history took from the queue, if it did. -/
def dispatched? : State × Step → Option Batch
  | (c, .dispatch) => c.dispatch.1
  | _ => none

variable {c₀ c c' : State} {h h' : History} {s : Step} {p : Purl} {b : Batch}

/-- A run may go on from where another ends. -/
theorem Run.trans (hr : Run c₀ h c) (hr' : Run c h' c') : Run c₀ (h' ++ h) c' := by
  induction hr' with
  | start => exact hr
  | next _ hs ih => exact .next ih hs

/-- A run goes through each of its steps: there it is a run up to the step and one from it on. -/
theorem Run.split (hr : Run c₀ (h' ++ (c, s) :: h) c') :
    ∃ c₁, Run c₀ h c ∧ c.step? s = some c₁ ∧ Run c₁ h' c' := by
  induction h' generalizing c' with
  | nil =>
    cases hr with
    | next hr hs => exact ⟨c', hr, hs, .start⟩
  | cons x h' ih =>
    cases hr with
    | next hr hs =>
      obtain ⟨c₁, hr₀, hs₀, hr₁⟩ := ih hr
      exact ⟨c₁, hr₀, hs₀, .next hr₁ hs⟩

/-- Makes steps one after the other; `none` if one of them cannot happen. -/
def State.play? (c : State) (h : History) : List Step → Option (History × State)
  | [] => some (h, c)
  | s :: ss => (c.step? s).bind fun c' => c'.play? ((c, s) :: h) ss

/-- Steps that are made one after the other are a run. -/
theorem Run.play {ss : List Step} (hr : Run c₀ h c) (hp : c.play? h ss = some (h', c')) :
    Run c₀ h' c' := by
  induction ss generalizing h c with
  | nil =>
    cases hp
    exact hr
  | cons s ss ih =>
    obtain ⟨c₁, hs, hp⟩ := Option.bind_eq_some_iff.mp hp
    exact ih (.next hr hs) hp

/-- A property that steps lead to is one of a run. -/
theorem exists_run {P : History → State → Prop} [∀ h c, Decidable (P h c)] (ss : List Step)
    (hp : (c₀.play? [] ss).any (fun x => decide (P x.1 x.2)) = true) :
    ∃ h c, Run c₀ h c ∧ P h c := by
  cases hplay : c₀.play? [] ss with
  | none => simp [hplay] at hp
  | some x =>
    rw [hplay] at hp
    exact ⟨x.1, x.2, Run.start.play hplay, of_decide_eq_true hp⟩

/-- A new cache with nothing on disk, whose entries go stale at once. -/
def State.empty : State := { staleAfter := 0, store := ⟨"cache", []⟩ }

/-! ## Batches that run undisturbed -/

/-- The message of a batch is that of one of the endings. -/
theorem exists_ending (key : String) (reply : Reply) :
    ∃ e : Ending, (State.outcomeOf key reply).2 = e.message := by
  unfold State.outcomeOf
  split
  · exact ⟨.noKey, rfl⟩
  · split
    · next e _ => exact ⟨.stream (.failed e), rfl⟩
    · next d _ => exact ⟨.stream d.ending, rfl⟩

theorem run_applyRecords (hb : b ∈ c.running) (rs : List Record) :
    ∃ h, Run c h (c.applyRecords rs).1 ∧ b ∈ (c.applyRecords rs).1.running := by
  induction rs generalizing c with
  | nil => exact ⟨[], .start, hb⟩
  | cons r rs ih =>
    have hb' : b ∈ (c.applyRecord r).1.running := by
      rw [(State.applyRecord_agrees c r).running]
      exact hb
    obtain ⟨h, hr, hrun⟩ := ih hb'
    have hs : c.step? (.apply b r) = some (c.applyRecord r).1 := by simp [State.step?, hb]
    rw [State.applyRecords_cons]
    exact ⟨h ++ [(c, .apply b r)], (Run.next .start hs).trans hr, hrun⟩

/-- A batch that runs to its end without anything in between does so by steps of the system. -/
theorem run_runBatch (hb : b ∈ c.running) (key : String) (reply : Reply) :
    ∃ h, Run c h (c.runBatch b key reply).1 := by
  obtain ⟨h, hr, hb'⟩ := run_applyRecords hb (State.outcomeOf key reply).1
  obtain ⟨e, he⟩ := exists_ending key reply
  rw [State.runBatch_eq, he]
  exact ⟨_, .next hr (s := .finish b e) (if_pos hb')⟩

/-! ## What a step does to an entry -/

/-- The entry has the same data from the same time, and an error if it had one. -/
structure Entry.Kept (e e' : Entry) : Prop where
  purl : e'.snapshot.purl = e.snapshot.purl
  data : e'.snapshot.data = e.snapshot.data
  updated : e'.snapshot.updated = e.snapshot.updated
  error : e.snapshot.error.isSome → e'.snapshot.error.isSome

theorem Entry.Kept.refl (e : Entry) : e.Kept e := ⟨rfl, rfl, rfl, id⟩

theorem Entry.Kept.failed (e : Entry) (message : String) : e.Kept (e.failed message) :=
  ⟨rfl, rfl, rfl, fun _ => rfl⟩

namespace State

theorem get?_watch :
    Keyed.get? p (c.watch p).2.entries = some (c.entryOf p) ∨
      Keyed.get? p (c.watch p).2.entries = some ((c.entryOf p).failed noRuntime) := by
  obtain ⟨-, h⟩ | ⟨-, h⟩ | ⟨-, h⟩ := watch_cases c p <;> rw [h]
  · simp [get?_setEntry]
  · simp [joined, get?_setEntry]
  · simp [get?_setEntry]

theorem get?_watch_of_ne {q : Purl} (hne : p ≠ q) :
    Keyed.get? p (c.watch q).2.entries = Keyed.get? p c.entries := by
  obtain ⟨-, h⟩ | ⟨-, h⟩ | ⟨-, h⟩ := watch_cases c q <;> rw [h]
  · simp [get?_setEntry, hne]
  · simp [joined, get?_setEntry, hne]
  · simp [get?_setEntry, hne]

theorem get?_dispatch : Keyed.get? p c.dispatch.2.entries = Keyed.get? p c.entries := by
  simp only [dispatch]
  split <;> rfl

theorem get?_endBatch {message : String} :
    Keyed.get? p (c.endBatch b message).1.entries =
      if p ∈ b.members ∧ p ∈ c.inFlight then (Keyed.get? p c.entries).map (Entry.failed message)
      else Keyed.get? p c.entries :=
  get?_failAll

theorem get?_subscribe {q : Purl} {l : Listener} :
    Keyed.get? p (c.subscribe q l).2.entries =
      if p = q then
        some { c.entryOf q with
          subscribers := (c.entryOf q).subscribers ++ [(c.nextSubscription, l)] }
      else Keyed.get? p c.entries :=
  get?_setEntry

theorem get?_unsubscribe {q : Purl} {id : Nat} :
    Keyed.get? p (c.unsubscribe q id).2.entries =
      if p = q then (Keyed.get? q c.entries).map fun e =>
        { e with subscribers := e.subscribers.filter (·.1 ≠ id) }
      else Keyed.get? p c.entries := by
  unfold unsubscribe
  split
  · next h => by_cases hp : p = q <;> simp [hp, h]
  · next e h => simp [get?_setEntry, h]

/-- **What a step can do to an entry**: apply a record to it, or leave its data alone. An entry that
was not there before is made from the disk. -/
theorem step?_entry {e' : Entry} (hs : c.step? s = some c')
    (he : Keyed.get? p c'.entries = some e') :
    (∃ b r e, s = .apply b r ∧ p ∈ r.forms ∧ Keyed.get? p c.entries = some e ∧
      e' = e.answered r c.now) ∨
    (s.answers p = false ∧ (c.entryOf p).Kept e') := by
  -- an entry that is there already and stays as it is
  have hsame : Keyed.get? p c.entries = some e' → (c.entryOf p).Kept e' := fun h =>
    entryOf_of_get? h ▸ Entry.Kept.refl e'
  cases s with
  | watch q =>
    cases hs
    refine .inr ⟨rfl, ?_⟩
    by_cases hp : p = q
    · subst hp
      obtain h | h := get?_watch (c := c) (p := p) <;> rw [h] at he <;> cases he
      · exact Entry.Kept.refl _
      · exact Entry.Kept.failed _ _
    · exact hsame (get?_watch_of_ne hp ▸ he)
  | subscribe q l =>
    cases hs
    refine .inr ⟨rfl, ?_⟩
    rw [get?_subscribe] at he
    split at he
    · next hp =>
      cases he
      exact hp ▸ ⟨rfl, rfl, rfl, id⟩
    · exact hsame he
  | unsubscribe q id' =>
    cases hs
    refine .inr ⟨rfl, ?_⟩
    rw [get?_unsubscribe] at he
    split at he
    · next hp =>
      subst hp
      obtain ⟨e, h, rfl⟩ := Option.map_eq_some_iff.mp he
      exact entryOf_of_get? h ▸ ⟨rfl, rfl, rfl, id⟩
    · exact hsame he
  | dispatch =>
    simp only [step?, Option.ite_none_left_eq_some, Option.some.injEq] at hs
    rw [← hs.2, get?_dispatch] at he
    exact .inr ⟨rfl, hsame he⟩
  | apply b r =>
    simp only [step?, Option.ite_none_right_eq_some, Option.some.injEq] at hs
    rw [← hs.2, get?_applyRecord] at he
    split at he
    · next hp =>
      obtain ⟨e, h, rfl⟩ := Option.map_eq_some_iff.mp he
      exact .inl ⟨b, r, e, rfl, hp, h, rfl⟩
    · next hp => exact .inr ⟨by simpa [Step.answers] using hp, hsame he⟩
  | finish b e =>
    simp only [step?, Option.ite_none_right_eq_some, Option.some.injEq] at hs
    rw [← hs.2, get?_endBatch] at he
    refine .inr ⟨rfl, ?_⟩
    split at he
    · obtain ⟨e, h, rfl⟩ := Option.map_eq_some_iff.mp he
      exact entryOf_of_get? h ▸ Entry.Kept.failed _ _
    · exact hsame he
  | clock t =>
    cases hs
    exact .inr ⟨rfl, hsame he⟩
  | caller on =>
    cases hs
    exact .inr ⟨rfl, hsame he⟩
  | disk st =>
    cases hs
    exact .inr ⟨rfl, hsame he⟩

/-- No step removes an entry. -/
theorem step?_known (hs : c.step? s = some c') (hp : (Keyed.get? p c.entries).isSome) :
    (Keyed.get? p c'.entries).isSome := by
  cases s with
  | watch q =>
    cases hs
    by_cases hq : p = q
    · subst hq
      obtain h | h := get?_watch (c := c) (p := p) <;> simp [h]
    · rwa [get?_watch_of_ne hq]
  | subscribe q l =>
    cases hs
    rw [get?_subscribe]
    split <;> simp [hp]
  | unsubscribe q id =>
    cases hs
    rw [get?_unsubscribe]
    split
    · next h => simpa [h] using hp
    · exact hp
  | dispatch =>
    simp only [step?, Option.ite_none_left_eq_some, Option.some.injEq] at hs
    rwa [← hs.2, get?_dispatch]
  | apply b r =>
    simp only [step?, Option.ite_none_right_eq_some, Option.some.injEq] at hs
    rw [← hs.2, get?_applyRecord]
    split <;> simp [hp]
  | finish b e =>
    simp only [step?, Option.ite_none_right_eq_some, Option.some.injEq] at hs
    rw [← hs.2, get?_endBatch]
    split <;> simp [hp]
  | clock t => cases hs; exact hp
  | caller on => cases hs; exact hp
  | disk st => cases hs; exact hp

end State

end DepScope.Cache
