import DepScope.Cache.Basic

/-!
# DepScope.Proofs.Cache.Operations

What each operation of a cache does, said once. Entries are seen through `Keyed.get?`, the queue and
what is in flight through membership; everything an operation leaves alone is in `State.Agree`.

* `watch_cases`: a watch makes the entry and then does nothing more, puts the identifier into the
  queue, or fails it at once;
* `get?_failAll`, `get?_applyForms`: the entries after a failure and after a record;
* `mem_inFlight_failAll`, `mem_inFlight_applyForms`: what is in flight then.

Later proofs cite these and unfold no operation.
-/

namespace DepScope.Cache

open Package Score

/-! ## Entries -/

/-- An entry after a failure to refresh it. -/
def Entry.failed (message : String) (e : Entry) : Entry :=
  { e with snapshot := { e.snapshot with error := some message } }

/-- An entry after a record has come for it. -/
def Entry.answered (r : Record) (now : Int) (e : Entry) : Entry :=
  { e with snapshot := ⟨e.snapshot.purl, some r, none, some now⟩ }

/-- Once updated, an entry that was stale stays so as time goes on. -/
theorem isStaleAt_mono {updated : Option Int} {now later : Int} {ttl : Nat}
    (h : isStaleAt updated now ttl = true) (hle : now ≤ later) :
    isStaleAt updated later ttl = true := by
  cases updated with
  | none => rfl
  | some t =>
    simp only [isStaleAt, decide_eq_true_eq] at h ⊢
    omega

namespace State

/-! ## What operations leave alone -/

/-- Two states that differ at most in their entries, in what is in flight and on disk. -/
structure Agree (c c' : State) : Prop where
  staleAfter : c'.staleAfter = c.staleAfter
  hasRuntime : c'.hasRuntime = c.hasRuntime
  now : c'.now = c.now
  queued : c'.queued = c.queued
  scheduled : c'.scheduled = c.scheduled
  running : c'.running = c.running
  batches : c'.batches = c.batches

theorem Agree.refl (c : State) : Agree c c := ⟨rfl, rfl, rfl, rfl, rfl, rfl, rfl⟩

theorem Agree.trans {a b c : State} (h : Agree a b) (h' : Agree b c) : Agree a c where
  staleAfter := h'.staleAfter.trans h.staleAfter
  hasRuntime := h'.hasRuntime.trans h.hasRuntime
  now := h'.now.trans h.now
  queued := h'.queued.trans h.queued
  scheduled := h'.scheduled.trans h.scheduled
  running := h'.running.trans h.running
  batches := h'.batches.trans h.batches

/-! ## The queue -/

theorem mem_insertSorted {p q : Purl} {ps : List Purl} :
    q ∈ insertSorted p ps ↔ q = p ∨ q ∈ ps := by
  induction ps with
  | nil => simp [insertSorted]
  | cons x ps ih =>
    simp only [insertSorted]
    split
    · next h => subst h; simp
    · split
      · simp
      · simp only [List.mem_cons, ih]
        exact or_left_comm

/-- Texts that are neither equal nor in order are in the other order. -/
theorem text_lt_of_not_lt {p q : Purl} (hne : p ≠ q) (h : ¬p.text < q.text) : q.text < p.text := by
  obtain ⟨s⟩ := p
  obtain ⟨t⟩ := q
  refine Decidable.byContradiction fun h' => hne ?_
  exact congrArg Purl.mk (String.le_antisymm (String.not_lt.mp h') (String.not_lt.mp h))

/-- Inserting keeps a list ascending, and hence without repeats. -/
theorem pairwise_insertSorted {p : Purl} {ps : List Purl}
    (h : ps.Pairwise (·.text < ·.text)) : (insertSorted p ps).Pairwise (·.text < ·.text) := by
  induction ps with
  | nil => simp [insertSorted]
  | cons x ps ih =>
    obtain ⟨hx, hps⟩ := List.pairwise_cons.mp h
    simp only [insertSorted]
    split
    · exact h
    · next hne =>
      split
      · next hlt =>
        refine List.pairwise_cons.mpr ⟨fun q hq => ?_, h⟩
        obtain rfl | hq := List.mem_cons.mp hq
        · exact hlt
        · exact String.lt_trans hlt (hx q hq)
      · next hlt =>
        refine List.pairwise_cons.mpr ⟨fun q hq => ?_, ih hps⟩
        obtain rfl | hq := mem_insertSorted.mp hq
        · exact text_lt_of_not_lt hne hlt
        · exact hx q hq

theorem insertSorted_ne_nil (p : Purl) (ps : List Purl) : insertSorted p ps ≠ [] :=
  List.ne_nil_of_mem (mem_insertSorted.mpr (.inl rfl))

/-! ## Failures -/

variable {c : State} {message : String} {p q : Purl} {ps : List Purl} {r : Record}

theorem failOne_agrees (c : State) (message : String) (p : Purl) :
    Agree c (c.failOne message p).1 := by
  simp only [failOne, setEntry]
  split
  · split <;> exact ⟨rfl, rfl, rfl, rfl, rfl, rfl, rfl⟩
  · exact Agree.refl c

theorem mem_inFlight_failOne :
    q ∈ (c.failOne message p).1.inFlight ↔ q ∈ c.inFlight ∧ q ≠ p := by
  simp only [failOne, setEntry]
  split
  · split <;> simp
  · next h =>
    refine ⟨fun hq => ⟨hq, ?_⟩, And.left⟩
    rintro rfl
    exact h (by simpa using hq)

theorem get?_failOne :
    Keyed.get? q (c.failOne message p).1.entries =
      if q = p ∧ q ∈ c.inFlight then (Keyed.get? q c.entries).map (Entry.failed message)
      else Keyed.get? q c.entries := by
  by_cases hp : p ∈ c.inFlight
  · by_cases hq : q = p
    · subst hq
      cases he : Keyed.get? q c.entries <;> simp [failOne, setEntry, hp, he, Entry.failed]
    · cases he : Keyed.get? p c.entries <;> simp [failOne, setEntry, hp, he, hq, Ne.symm hq]
  · have hn : ¬(q = p ∧ q ∈ c.inFlight) := by
      rintro ⟨rfl, h⟩
      exact hp h
    simp [failOne, hp, hn]

theorem store_failOne : (c.failOne message p).1.store = c.store := by
  simp only [failOne, setEntry]
  split
  · split <;> rfl
  · rfl

theorem failAll_agrees (c : State) (message : String) (ps : List Purl) :
    Agree c (c.failAll message ps).1 := by
  induction ps generalizing c with
  | nil => exact Agree.refl c
  | cons p ps ih => exact (failOne_agrees c message p).trans (ih _)

/-- What a failure of several identifiers leaves in flight: all others. -/
theorem mem_inFlight_failAll :
    q ∈ (c.failAll message ps).1.inFlight ↔ q ∈ c.inFlight ∧ q ∉ ps := by
  induction ps generalizing c with
  | nil => simp [failAll]
  | cons p ps ih =>
    simp only [failAll, ih, mem_inFlight_failOne, List.mem_cons, not_or, and_assoc]

/-- A failure of several identifiers sets the error of those of them that are in flight, and leaves
every other entry as it is. -/
theorem get?_failAll :
    Keyed.get? q (c.failAll message ps).1.entries =
      if q ∈ ps ∧ q ∈ c.inFlight then (Keyed.get? q c.entries).map (Entry.failed message)
      else Keyed.get? q c.entries := by
  induction ps generalizing c with
  | nil => simp [failAll]
  | cons p ps ih =>
    simp only [failAll, ih, mem_inFlight_failOne, get?_failOne, List.mem_cons]
    by_cases hp : q = p
    · simp [hp]
    · simp [hp]

theorem store_failAll : (c.failAll message ps).1.store = c.store := by
  induction ps generalizing c with
  | nil => rfl
  | cons p ps ih => simp only [failAll, ih, store_failOne]

/-! ## Records -/

theorem applyForm_agrees (c : State) (r : Record) (p : Purl) :
    Agree c (c.applyForm r p).1 := by
  simp only [applyForm, setEntry]
  split <;> exact ⟨rfl, rfl, rfl, rfl, rfl, rfl, rfl⟩

theorem mem_inFlight_applyForm :
    q ∈ (c.applyForm r p).1.inFlight ↔ q ∈ c.inFlight ∧ q ≠ p := by
  simp only [applyForm, setEntry]
  split <;> simp

theorem get?_applyForm :
    Keyed.get? q (c.applyForm r p).1.entries =
      if q = p then (Keyed.get? q c.entries).map (Entry.answered r c.now)
      else Keyed.get? q c.entries := by
  by_cases hq : q = p
  · subst hq
    cases he : Keyed.get? q c.entries <;> simp [applyForm, setEntry, he, Entry.answered]
  · cases he : Keyed.get? p c.entries <;> simp [applyForm, setEntry, he, hq, Ne.symm hq]

theorem applyForms_agrees (c : State) (r : Record) (ps : List Purl) :
    Agree c (c.applyForms r ps).1 := by
  induction ps generalizing c with
  | nil => exact Agree.refl c
  | cons p ps ih => exact (applyForm_agrees c r p).trans (ih _)

theorem mem_inFlight_applyForms :
    q ∈ (c.applyForms r ps).1.inFlight ↔ q ∈ c.inFlight ∧ q ∉ ps := by
  induction ps generalizing c with
  | nil => simp [applyForms]
  | cons p ps ih =>
    simp only [applyForms, ih, mem_inFlight_applyForm, List.mem_cons, not_or, and_assoc]

theorem get?_applyForms :
    Keyed.get? q (c.applyForms r ps).1.entries =
      if q ∈ ps then (Keyed.get? q c.entries).map (Entry.answered r c.now)
      else Keyed.get? q c.entries := by
  induction ps generalizing c with
  | nil => simp [applyForms]
  | cons p ps ih =>
    simp only [applyForms, ih, get?_applyForm, (applyForm_agrees c r p).now, List.mem_cons]
    by_cases hp : q = p
    · -- a form that stands twice gets the same record twice
      cases he : Keyed.get? p c.entries <;> simp [hp, he, Entry.answered]
    · simp [hp]

/-- A record answers the entries of its forms and no other. -/
theorem get?_applyRecord :
    Keyed.get? q (c.applyRecord r).1.entries =
      if q ∈ r.forms then (Keyed.get? q c.entries).map (Entry.answered r c.now)
      else Keyed.get? q c.entries :=
  get?_applyForms

/-- A record takes its forms out of what is in flight. -/
theorem mem_inFlight_applyRecord :
    q ∈ (c.applyRecord r).1.inFlight ↔ q ∈ c.inFlight ∧ q ∉ r.forms :=
  mem_inFlight_applyForms

theorem applyRecord_agrees (c : State) (r : Record) : Agree c (c.applyRecord r).1 :=
  applyForms_agrees c r r.forms

theorem applyRecords_cons (c : State) (r : Record) (rs : List Record) :
    (c.applyRecords (r :: rs)).1 = ((c.applyRecord r).1.applyRecords rs).1 := rfl

/-! ## Watching -/

/-- Does a watch find the entry stale and the identifier not in flight? -/
def Wants (c : State) (p : Purl) : Prop :=
  isStaleAt (c.entryOf p).snapshot.updated c.now c.staleAfter = true ∧ p ∉ c.inFlight

/-- Does a watch put the identifier into the queue, to be dispatched from there? -/
def Joins (c : State) (p : Purl) : Prop :=
  c.Wants p ∧ (c.hasRuntime = true ∨ c.queued ≠ [])

/-- The state after an identifier has joined the queue. -/
def joined (c : State) (p : Purl) : State :=
  { c.setEntry p (c.entryOf p) with
    queued := insertSorted p c.queued
    scheduled := if c.queued.isEmpty then c.scheduled + 1 else c.scheduled }

/-- What is said where nothing can be scheduled. -/
def noRuntime : String := loadFailure ++ ": no runtime"

theorem get?_setEntry {e : Entry} :
    Keyed.get? q (c.setEntry p e).entries = if q = p then some e else Keyed.get? q c.entries := by
  by_cases h : q = p
  · simp [setEntry, h]
  · simp [setEntry, h, Ne.symm h]

theorem watch_of_not_wants (h : ¬c.Wants p) : (c.watch p).2 = c.setEntry p (c.entryOf p) := by
  by_cases hs : isStaleAt (c.entryOf p).snapshot.updated c.now c.staleAfter = true
  · have hf : p ∈ c.inFlight := Decidable.byContradiction fun hf => h ⟨hs, hf⟩
    simp [watch, setEntry, hs, enqueue, hf]
  · simp [watch, setEntry, hs]

theorem watch_of_joins (h : c.Joins p) : (c.watch p).2 = c.joined p := by
  obtain ⟨⟨hs, hf⟩, hr⟩ := h
  cases hq : c.queued with
  | nil =>
    have hr : c.hasRuntime = true := by simpa [hq] using hr
    simp [watch, setEntry, hs, enqueue, hf, schedule, joined, hq, hr]
  | cons x xs => simp [watch, setEntry, hs, enqueue, hf, joined, hq]

/-- A queue that cannot be dispatched holds the identifier alone, which fails at once. -/
theorem watch_of_wants_of_not_joins (h : c.Wants p) (h' : ¬c.Joins p) :
    (c.watch p).2 = c.setEntry p ((c.entryOf p).failed noRuntime) := by
  obtain ⟨hs, hf⟩ := h
  have hq : c.queued = [] := Decidable.byContradiction fun hq => h' ⟨⟨hs, hf⟩, .inr hq⟩
  have hr : c.hasRuntime = false := by
    cases hr : c.hasRuntime with
    | false => rfl
    | true => exact absurd ⟨⟨hs, hf⟩, .inl hr⟩ h'
  have hkeep : c.inFlight.filter (fun q => !decide (q = p)) = c.inFlight :=
    List.filter_eq_self.mpr fun q hq => by
      have : q ≠ p := fun h => hf (h ▸ hq)
      simpa using this
  simp [watch, setEntry, hs, enqueue, hf, schedule, hq, hr, takeQueue, failAll, failOne,
    insertSorted, List.filter_append, hkeep, Entry.failed, noRuntime]

/-- **A watch** makes the entry, and then leaves it at that, puts the identifier into the queue, or
fails it at once where nothing can be scheduled. -/
theorem watch_cases (c : State) (p : Purl) :
    (¬c.Wants p ∧ (c.watch p).2 = c.setEntry p (c.entryOf p)) ∨
    (c.Joins p ∧ (c.watch p).2 = c.joined p) ∨
    (¬c.Joins p ∧ (c.watch p).2 = c.setEntry p ((c.entryOf p).failed noRuntime)) := by
  by_cases hw : c.Wants p
  · by_cases hj : c.Joins p
    · exact .inr (.inl ⟨hj, watch_of_joins hj⟩)
    · exact .inr (.inr ⟨hj, watch_of_wants_of_not_joins hw hj⟩)
  · exact .inl ⟨hw, watch_of_not_wants hw⟩

/-- The entry a watch or a subscription goes on with is the one that is there. -/
theorem entryOf_of_get? {e : Entry} (h : Keyed.get? p c.entries = some e) : c.entryOf p = e := by
  simp [entryOf, h]

/-! ## Dispatching -/

/-- The batch that a dispatch would take now. -/
def nextBatch (c : State) : Batch := ⟨c.batches, c.queued⟩

/-- A dispatch that finds something in the queue takes all of it. -/
theorem dispatch_of_ne_nil (h : c.queued ≠ []) :
    c.dispatch = (some c.nextBatch,
      { c with
        scheduled := c.scheduled - 1
        queued := []
        inFlight := c.inFlight ++ c.queued
        running := c.running ++ [c.nextBatch]
        batches := c.batches + 1 }) := by
  simp [dispatch, takeQueue, nextBatch, h]

theorem runBatch_eq (c : State) (b : Batch) (key : String) (reply : Service.Reply) :
    (c.runBatch b key reply).1 =
      ((c.applyRecords (outcomeOf key reply).1).1.endBatch b (outcomeOf key reply).2).1 := rfl

end State

end DepScope.Cache
