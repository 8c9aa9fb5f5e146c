import DepScope.Proofs.Cache.Run

/-!
# DepScope.Proofs.Cache.Coherence

How the queue, the scheduled dispatches, what is in flight and the running batches fit together in
every state that a run of a cache goes through.

* `Coherent`: the queue is ascending and apart from what is in flight, both have entries, a dispatch
  is scheduled exactly while the queue holds something, and batches are numbered.
* `Moves`: the five ways in which a step touches any of this, which every later invariant is proved
  by.
* `mem_queued_iff_joinedSince`: the queue is what has joined it since the last dispatch.
* `Outstanding`: what a batch still waits for; everything in flight is outstanding somewhere.
-/

namespace DepScope.Cache

open Package Score

/-- The parts of a cache fit together. -/
structure Coherent (c : State) : Prop where
  ascending : c.queued.Pairwise (·.text < ·.text)
  apart : ∀ p ∈ c.queued, p ∉ c.inFlight
  queued_known : ∀ p ∈ c.queued, (Keyed.get? p c.entries).isSome
  inFlight_known : ∀ p ∈ c.inFlight, (Keyed.get? p c.entries).isSome
  scheduled : c.scheduled = if c.queued = [] then 0 else 1
  numbered : ∀ b ∈ c.running, b.id < c.batches

variable {c₀ c c' : State} {h h' : History} {s : Step} {p : Purl} {b b' : Batch}

theorem Coherent.of_fresh (hc : c.reopened = c) : Coherent c := by
  rw [← hc]
  constructor <;> simp [State.reopened]

/-- While a dispatch is scheduled there is something for it to take. -/
theorem Coherent.queued_ne_nil (hc : Coherent c) (hs : c.scheduled ≠ 0) : c.queued ≠ [] := by
  intro hq
  rw [hc.scheduled, if_pos hq] at hs
  exact hs rfl

/-! ## The ways of a step -/

/-- A step that touches neither the queue nor a batch. -/
def State.Quiet (c : State) : Step → Prop
  | .watch p => ¬c.Joins p
  | .dispatch | .apply .. | .finish .. => False
  | _ => True

/-- What a step does to the queue, to what is in flight and to the batches. -/
inductive Moves (c c' : State) : Step → Prop
  /-- Nothing. -/
  | still {s : Step} (quiet : c.Quiet s) (queued : c'.queued = c.queued)
      (inFlight : c'.inFlight = c.inFlight) (scheduled : c'.scheduled = c.scheduled)
      (running : c'.running = c.running) (batches : c'.batches = c.batches) : Moves c c' s
  /-- An identifier joins the queue. -/
  | joins {p : Purl} (joins : c.Joins p) (queued : c'.queued = insertSorted p c.queued)
      (inFlight : c'.inFlight = c.inFlight)
      (scheduled : c'.scheduled = if c.queued.isEmpty then c.scheduled + 1 else c.scheduled)
      (running : c'.running = c.running) (batches : c'.batches = c.batches) : Moves c c' (.watch p)
  /-- A batch takes the queue. -/
  | takes (some : c.dispatch.1 = some c.nextBatch) (queued : c'.queued = [])
      (inFlight : c'.inFlight = c.inFlight ++ c.queued) (scheduled : c'.scheduled = c.scheduled - 1)
      (running : c'.running = c.running ++ [c.nextBatch])
      (batches : c'.batches = c.batches + 1) : Moves c c' .dispatch
  /-- A record takes its forms out of what is in flight. -/
  | answers {b : Batch} {r : Record} (queued : c'.queued = c.queued)
      (inFlight : ∀ p, p ∈ c'.inFlight ↔ p ∈ c.inFlight ∧ p ∉ r.forms)
      (scheduled : c'.scheduled = c.scheduled) (running : c'.running = c.running)
      (batches : c'.batches = c.batches) : Moves c c' (.apply b r)
  /-- A batch takes its members out of what is in flight, and is gone. -/
  | ends {b : Batch} {e : Ending} (queued : c'.queued = c.queued)
      (inFlight : ∀ p, p ∈ c'.inFlight ↔ p ∈ c.inFlight ∧ p ∉ b.members)
      (scheduled : c'.scheduled = c.scheduled)
      (running : ∀ b', b' ∈ c'.running ↔ b' ∈ c.running ∧ b' ≠ b)
      (batches : c'.batches = c.batches) : Moves c c' (.finish b e)

theorem moves_watch (c : State) (p : Purl) : Moves c (c.watch p).2 (.watch p) := by
  obtain ⟨hw, h⟩ | ⟨hj, h⟩ | ⟨hj, h⟩ := State.watch_cases c p
  · rw [h]
    exact .still (fun hj => hw hj.1) rfl rfl rfl rfl rfl
  · rw [h]
    exact .joins hj rfl rfl rfl rfl rfl
  · rw [h]
    exact .still hj rfl rfl rfl rfl rfl

theorem moves_unsubscribe (c : State) (p : Purl) (id : Nat) :
    Moves c (c.unsubscribe p id).2 (.unsubscribe p id) := by
  unfold State.unsubscribe
  split <;> exact .still trivial rfl rfl rfl rfl rfl

/-- Every step is one of the five. -/
theorem Coherent.moves (hc : Coherent c) (hs : c.step? s = some c') : Moves c c' s := by
  cases s with
  | watch p => cases hs; exact moves_watch c p
  | subscribe p l =>
    cases hs
    exact .still trivial rfl rfl rfl rfl rfl
  | unsubscribe p id => cases hs; exact moves_unsubscribe c p id
  | dispatch =>
    simp only [State.step?, Option.ite_none_left_eq_some, Option.some.injEq] at hs
    obtain ⟨hne, rfl⟩ := hs
    have hd := State.dispatch_of_ne_nil (hc.queued_ne_nil hne)
    refine .takes ?_ ?_ ?_ ?_ ?_ ?_ <;> rw [hd]
  | apply b r =>
    simp only [State.step?, Option.ite_none_right_eq_some, Option.some.injEq] at hs
    obtain ⟨-, rfl⟩ := hs
    have ha := State.applyRecord_agrees c r
    exact .answers ha.queued (fun p => State.mem_inFlight_applyRecord) ha.scheduled ha.running
      ha.batches
  | finish b e =>
    simp only [State.step?, Option.ite_none_right_eq_some, Option.some.injEq] at hs
    obtain ⟨-, rfl⟩ := hs
    have ha := State.failAll_agrees c e.message b.members
    refine .ends ha.queued (fun p => State.mem_inFlight_failAll) ha.scheduled ?_ ha.batches
    intro b'
    simp [State.endBatch, ha.running]
  | clock t => cases hs; exact .still trivial rfl rfl rfl rfl rfl
  | caller on => cases hs; exact .still trivial rfl rfl rfl rfl rfl
  | disk st => cases hs; exact .still trivial rfl rfl rfl rfl rfl

/-! ## Coherence is kept -/

theorem known_watch (c : State) (p : Purl) : (Keyed.get? p (c.watch p).2.entries).isSome := by
  obtain h | h := State.get?_watch (c := c) (p := p) <;> simp [h]

/-- Coherence does not mind what leaves: it only looks at what is in flight and at what runs. -/
theorem Coherent.of_shrink (hc : Coherent c) (hs : c.step? s = some c')
    (queued : c'.queued = c.queued) (inFlight : ∀ p ∈ c'.inFlight, p ∈ c.inFlight)
    (scheduled : c'.scheduled = c.scheduled) (running : ∀ b ∈ c'.running, b ∈ c.running)
    (batches : c'.batches = c.batches) : Coherent c' := by
  refine ⟨?_, ?_, ?_, ?_, ?_, ?_⟩
  · rw [queued]; exact hc.ascending
  · rw [queued]; exact fun p hp hf => hc.apart p hp (inFlight p hf)
  · rw [queued]; exact fun p hp => State.step?_known hs (hc.queued_known p hp)
  · exact fun p hp => State.step?_known hs (hc.inFlight_known p (inFlight p hp))
  · rw [scheduled, queued]; exact hc.scheduled
  · rw [batches]; exact fun b hb => hc.numbered b (running b hb)

/-- **Every step keeps a cache coherent.** -/
theorem Coherent.step (hc : Coherent c) (hs : c.step? s = some c') : Coherent c' := by
  cases hc.moves hs with
  | still _ queued inFlight scheduled running batches =>
    exact hc.of_shrink hs queued (by simp [inFlight]) scheduled (by simp [running]) batches
  | @joins p hj queued inFlight scheduled running batches =>
    refine ⟨?_, ?_, ?_, ?_, ?_, ?_⟩
    · rw [queued]; exact State.pairwise_insertSorted hc.ascending
    · rw [queued, inFlight]
      intro q hq
      obtain rfl | hq := State.mem_insertSorted.mp hq
      · exact hj.1.2
      · exact hc.apart q hq
    · rw [queued]
      intro q hq
      obtain rfl | hq := State.mem_insertSorted.mp hq
      · cases hs; exact known_watch c q
      · exact State.step?_known hs (hc.queued_known q hq)
    · rw [inFlight]; exact fun q hq => State.step?_known hs (hc.inFlight_known q hq)
    · rw [scheduled, queued, if_neg (State.insertSorted_ne_nil p c.queued), hc.scheduled]
      by_cases hq : c.queued = [] <;> simp [hq]
    · rw [running, batches]; exact hc.numbered
  | takes hsome queued inFlight scheduled running batches =>
    refine ⟨?_, ?_, ?_, ?_, ?_, ?_⟩
    · rw [queued]; exact List.Pairwise.nil
    · rw [queued]; simp
    · rw [queued]; simp
    · rw [inFlight]
      intro p hp
      obtain hp | hp := List.mem_append.mp hp
      · exact State.step?_known hs (hc.inFlight_known p hp)
      · exact State.step?_known hs (hc.queued_known p hp)
    · rw [scheduled, queued, hc.scheduled]
      by_cases hq : c.queued = [] <;> simp [hq]
    · rw [running, batches]
      intro b hb
      obtain hb | hb := List.mem_append.mp hb
      · exact Nat.lt_succ_of_lt (hc.numbered b hb)
      · rw [List.mem_singleton.mp hb]; exact Nat.lt_succ_self _
  | answers queued inFlight scheduled running batches =>
    exact hc.of_shrink hs queued (fun p hp => ((inFlight p).mp hp).1) scheduled
      (by simp [running]) batches
  | ends queued inFlight scheduled running batches =>
    exact hc.of_shrink hs queued (fun p hp => ((inFlight p).mp hp).1) scheduled
      (fun b hb => ((running b).mp hb).1) batches

/-- Every run of a new cache keeps it coherent. -/
theorem Run.coherent (hc : c₀.reopened = c₀) (hr : Run c₀ h c) : Coherent c := by
  induction hr with
  | start => exact Coherent.of_fresh hc
  | next _ hs ih => exact ih.step hs

/-! ## The queue and the history -/

/-- Has an identifier joined the queue since the last dispatch? -/
def JoinedSince (p : Purl) : History → Prop
  | [] => False
  | (_, .dispatch) :: _ => False
  | (c, .watch q) :: h => (q = p ∧ c.Joins q) ∨ JoinedSince p h
  | _ :: h => JoinedSince p h

theorem joinedSince_cons (hd : s ≠ .dispatch) (hj : ∀ q, s = .watch q → ¬c.Joins q) :
    JoinedSince p ((c, s) :: h) ↔ JoinedSince p h := by
  cases s <;> simp_all [JoinedSince]

/-- The queue holds exactly what has joined it since the last dispatch. -/
theorem mem_queued_iff_joinedSince (hc : c₀.reopened = c₀) (hr : Run c₀ h c) :
    p ∈ c.queued ↔ JoinedSince p h := by
  induction hr with
  | start =>
    rw [← hc]
    simp [State.reopened, JoinedSince]
  | @next h c c' s hr hs ih =>
    cases (hr.coherent hc).moves hs with
    | still quiet queued =>
      rw [queued, ih, joinedSince_cons]
      · rintro rfl; exact quiet
      · rintro q rfl; exact quiet
    | @joins q hj queued =>
      rw [queued, State.mem_insertSorted, ih, JoinedSince]
      simp [hj, eq_comm]
    | takes _ queued => simp [queued, JoinedSince]
    | answers queued => rw [queued, ih, joinedSince_cons (by simp) (by simp)]
    | ends queued => rw [queued, ih, joinedSince_cons (by simp) (by simp)]

/-! ## What a batch still waits for -/

/-- Has a record for the identifier been applied since the batch was dispatched? -/
def answeredSince (b : Batch) (p : Purl) : History → Bool
  | [] => false
  | x :: h => if dispatched? x = some b then false else x.2.answers p || answeredSince b p h

/-- A running batch still waits for an identifier: no record for it has been applied since the batch
was dispatched. -/
def Outstanding (h : History) (c : State) (b : Batch) (p : Purl) : Prop :=
  b ∈ c.running ∧ p ∈ b.members ∧ answeredSince b p h = false

instance (h : History) (c : State) (b : Batch) (p : Purl) : Decidable (Outstanding h c b p) :=
  inferInstanceAs (Decidable (b ∈ c.running ∧ p ∈ b.members ∧ answeredSince b p h = false))

/-- No running batch has the number of the next one. -/
theorem Coherent.ne_nextBatch (hc : Coherent c) (hb : b ∈ c.running) : b ≠ c.nextBatch := by
  rintro rfl
  exact Nat.lt_irrefl _ (hc.numbered _ hb)

/-- **What is outstanding after a step**: all that a new batch has taken, and what was outstanding
before, unless the step applies a record for it or ends the batch. -/
theorem outstanding_cons (hc : Coherent c) (hs : c.step? s = some c') :
    Outstanding ((c, s) :: h) c' b p ↔
      (s = .dispatch ∧ b = c.nextBatch ∧ p ∈ c.queued) ∨
      (Outstanding h c b p ∧ s.answers p = false ∧ ∀ e, s ≠ .finish b e) := by
  simp only [Outstanding, answeredSince]
  cases hc.moves hs with
  | still quiet _ _ _ running =>
    cases s <;> simp_all [State.Quiet, dispatched?, Step.answers]
  | joins _ _ _ _ running => simp [running, dispatched?, Step.answers]
  | takes hsome _ _ _ running =>
    by_cases hb : b = c.nextBatch
    · subst hb
      have hold : c.nextBatch ∉ c.running := fun h => hc.ne_nextBatch h rfl
      simp [running, dispatched?, hsome, hold]
      rfl
    · simp [running, dispatched?, hsome, hb, Ne.symm hb, Step.answers]
  | answers _ _ _ running => grind [dispatched?, Step.answers]
  | ends _ _ _ running => grind [dispatched?, Step.answers]

/-- Whatever is in flight is outstanding in a running batch. -/
theorem exists_outstanding (hc : c₀.reopened = c₀) (hr : Run c₀ h c) (hp : p ∈ c.inFlight) :
    ∃ b, Outstanding h c b p := by
  induction hr with
  | start =>
    rw [← hc] at hp
    simp [State.reopened] at hp
  | @next h c c' s hr hs ih =>
    have hcoh := hr.coherent hc
    simp only [outstanding_cons hcoh hs]
    cases hcoh.moves hs with
    | still quiet _ inFlight =>
      obtain ⟨b, hb⟩ := ih (inFlight ▸ hp)
      refine ⟨b, .inr ⟨hb, ?_, ?_⟩⟩
      · cases s <;> first | rfl | exact quiet.elim
      · rintro e rfl; exact quiet
    | joins _ _ inFlight =>
      obtain ⟨b, hb⟩ := ih (inFlight ▸ hp)
      exact ⟨b, .inr ⟨hb, rfl, by simp⟩⟩
    | takes _ _ inFlight =>
      rw [inFlight] at hp
      obtain hp | hp := List.mem_append.mp hp
      · obtain ⟨b, hb⟩ := ih hp
        exact ⟨b, .inr ⟨hb, rfl, by simp⟩⟩
      · exact ⟨c.nextBatch, .inl ⟨rfl, rfl, hp⟩⟩
    | answers _ inFlight =>
      obtain ⟨hp, hf⟩ := (inFlight p).mp hp
      obtain ⟨b, hb⟩ := ih hp
      exact ⟨b, .inr ⟨hb, by simpa [Step.answers] using hf, by simp⟩⟩
    | ends _ inFlight =>
      obtain ⟨hp, hf⟩ := (inFlight p).mp hp
      obtain ⟨b, hb⟩ := ih hp
      refine ⟨b, .inr ⟨hb, rfl, ?_⟩⟩
      rintro e ⟨⟩
      exact hf hb.2.1

/-! ## The cache at any time -/

/-- **The flow of identifiers.** After any run of a new cache: nothing is both queued and in flight,
both have entries, one dispatch is scheduled while the queue holds something and none otherwise, and
whatever is in flight belongs to a running batch. So a dispatch that is scheduled takes a batch with
exactly what has joined the queue since the last one, each once and in ascending order; and once
nothing is scheduled and nothing runs, nothing is queued or in flight. -/
theorem flow_of_run (hc : c₀.reopened = c₀) (hr : Run c₀ h c) :
    (∀ p ∈ c.queued, p ∉ c.inFlight) ∧
    (∀ p, p ∈ c.queued ∨ p ∈ c.inFlight → Keyed.contains p c.entries = true) ∧
    c.scheduled = (if c.queued = [] then 0 else 1) ∧
    (∀ p ∈ c.inFlight, ∃ b ∈ c.running, p ∈ b.members) ∧
    (c.scheduled ≠ 0 → ∃ b, c.dispatch.1 = some b ∧ b.members ≠ [] ∧
      b.members.Pairwise (·.text < ·.text) ∧ ∀ p, p ∈ b.members ↔ JoinedSince p h) ∧
    (c.scheduled = 0 → c.running = [] → c.isSettled = true) := by
  have hcoh := hr.coherent hc
  have owned : ∀ p ∈ c.inFlight, ∃ b ∈ c.running, p ∈ b.members := fun p hp =>
    have ⟨b, hb⟩ := exists_outstanding hc hr hp
    ⟨b, hb.1, hb.2.1⟩
  refine ⟨hcoh.apart, ?_, hcoh.scheduled, owned, ?_, ?_⟩
  · rintro p (hp | hp)
    · exact hcoh.queued_known p hp
    · exact hcoh.inFlight_known p hp
  · intro hs
    have hq := hcoh.queued_ne_nil hs
    refine ⟨c.nextBatch, by rw [State.dispatch_of_ne_nil hq], hq, hcoh.ascending, fun p => ?_⟩
    exact mem_queued_iff_joinedSince hc hr
  · intro hs hrun
    have hq : c.queued = [] := Decidable.byContradiction fun hq => by
      simp [hcoh.scheduled, hq] at hs
    have hf : c.inFlight = [] := List.eq_nil_iff_forall_not_mem.mpr fun p hp => by
      obtain ⟨b, hb, -⟩ := owned p hp
      simp [hrun] at hb
    simp [State.isSettled, hq, hf]

/-- Two watches on a new cache schedule one dispatch, whatever their order. -/
theorem flow_of_two_watches :
    ∃ h c, Run State.empty h c ∧ c.scheduled ≠ 0 ∧ ∃ b, c.dispatch.1 = some b ∧ b.members ≠ [] ∧
      b.members.Pairwise (·.text < ·.text) ∧ ∀ p, p ∈ b.members ↔ JoinedSince p h := by
  have hr : Run State.empty _ _ :=
    .next (.next .start (s := .watch ⟨"pkg:npm/b"⟩) rfl) (s := .watch ⟨"pkg:npm/a"⟩) rfl
  exact ⟨_, _, hr, by decide, (flow_of_run rfl hr).2.2.2.2.1 (by decide)⟩

end DepScope.Cache
