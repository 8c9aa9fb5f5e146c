import DepScope.Proofs.Cache.Coherence

/-!
# DepScope.Proofs.Cache.Settlement

What has become of the identifiers of a batch once it has ended, in whatever way it ended and
whatever other batches did meanwhile.

1. Each of them has been answered by a record since the dispatch, or carries an error.
2. None of them is in flight.
3. One that no record has been applied for keeps its data and its time, so it is still as stale as
   when it was enqueued, and the next watch puts it into the queue again.

`settled_of_finish` says all three.
-/

namespace DepScope.Cache

open Package Score

variable {c₀ c c' : State} {h : History} {s : Step} {p : Purl} {b : Batch} {e : Entry}

/-! ## Entries through steps and runs -/

/-- A step that applies no record for an identifier keeps its entry. -/
theorem State.step?_kept (hs : c.step? s = some c') (ha : s.answers p = false)
    (he : Keyed.get? p c.entries = some e) :
    ∃ e', Keyed.get? p c'.entries = some e' ∧ e.Kept e' := by
  have hknown : (Keyed.get? p c.entries).isSome := by simp [he]
  obtain ⟨e', he'⟩ := Option.isSome_iff_exists.mp (State.step?_known hs hknown)
  obtain ⟨_, r, _, rfl, hp, -⟩ | ⟨-, hk⟩ := State.step?_entry hs he'
  · simp [Step.answers, hp] at ha
  · exact ⟨e', he', State.entryOf_of_get? he ▸ hk⟩

theorem Entry.Kept.trans {e₁ e₂ e₃ : Entry} (h : e₁.Kept e₂) (h' : e₂.Kept e₃) : e₁.Kept e₃ where
  purl := h'.purl.trans h.purl
  data := h'.data.trans h.data
  updated := h'.updated.trans h.updated
  error he := h'.error (h.error he)

/-- A run that applies no record for an identifier keeps its entry. -/
theorem Run.kept (hr : Run c h c') (ha : ∀ x ∈ h, x.2.answers p = false)
    (he : Keyed.get? p c.entries = some e) :
    ∃ e', Keyed.get? p c'.entries = some e' ∧ e.Kept e' := by
  induction hr with
  | start => exact ⟨e, he, Entry.Kept.refl e⟩
  | next _ hs ih =>
    obtain ⟨e₁, he₁, hk₁⟩ := ih fun x hx => ha x (List.mem_cons_of_mem _ hx)
    obtain ⟨e₂, he₂, hk₂⟩ := State.step?_kept hs (ha _ List.mem_cons_self) he₁
    exact ⟨e₂, he₂, hk₁.trans hk₂⟩

/-- Only the clock changes the time, and nothing changes how long entries are fresh. -/
theorem State.step?_time (hs : c.step? s = some c') :
    c'.staleAfter = c.staleAfter ∧ (c'.now = c.now ∨ s = .clock c'.now) := by
  cases s with
  | watch q =>
    cases hs
    obtain ⟨-, h⟩ | ⟨-, h⟩ | ⟨-, h⟩ := State.watch_cases c q <;> rw [h] <;> exact ⟨rfl, .inl rfl⟩
  | subscribe q l => cases hs; exact ⟨rfl, .inl rfl⟩
  | unsubscribe q id =>
    cases hs
    unfold State.unsubscribe
    split <;> exact ⟨rfl, .inl rfl⟩
  | dispatch =>
    simp only [State.step?, Option.ite_none_left_eq_some, Option.some.injEq] at hs
    obtain ⟨-, rfl⟩ := hs
    unfold State.dispatch
    dsimp only
    split <;> exact ⟨rfl, .inl rfl⟩
  | apply b r =>
    simp only [State.step?, Option.ite_none_right_eq_some, Option.some.injEq] at hs
    obtain ⟨-, rfl⟩ := hs
    have ha := State.applyRecord_agrees c r
    exact ⟨ha.staleAfter, .inl ha.now⟩
  | finish b e =>
    simp only [State.step?, Option.ite_none_right_eq_some, Option.some.injEq] at hs
    obtain ⟨-, rfl⟩ := hs
    have ha := State.failAll_agrees c e.message b.members
    exact ⟨ha.staleAfter, .inl ha.now⟩
  | clock t => cases hs; exact ⟨rfl, .inr rfl⟩
  | caller on => cases hs; exact ⟨rfl, .inl rfl⟩
  | disk st => cases hs; exact ⟨rfl, .inl rfl⟩

/-- The clock never goes back. -/
def NeverBack (h : History) : Prop :=
  ∀ c t, (c, Step.clock t) ∈ h → c.now ≤ t

theorem Run.time (hr : Run c h c') (hb : NeverBack h) :
    c'.staleAfter = c.staleAfter ∧ c.now ≤ c'.now := by
  induction hr with
  | start => exact ⟨rfl, Int.le_refl _⟩
  | @next h c₁ c₂ s _ hs ih =>
    obtain ⟨hst, hle⟩ := ih fun c t hx => hb c t (List.mem_cons_of_mem _ hx)
    obtain ⟨hst', hnow⟩ := State.step?_time hs
    refine ⟨hst'.trans hst, ?_⟩
    obtain hnow | rfl := hnow
    · rw [hnow]; exact hle
    · exact Int.le_trans hle (hb c₁ _ List.mem_cons_self)

/-! ## Outstanding identifiers -/

/-- The entry of an identifier carries an error. -/
def State.HasError (c : State) (p : Purl) : Prop :=
  ∃ s, c.snapshot? p = some s ∧ s.error.isSome

theorem State.hasError_of_get? (he : Keyed.get? p c.entries = some e)
    (herr : e.snapshot.error.isSome) : c.HasError p :=
  ⟨e.snapshot, by simp [State.snapshot?, he], herr⟩

theorem State.HasError.get? (h : c.HasError p) :
    ∃ e, Keyed.get? p c.entries = some e ∧ e.snapshot.error.isSome := by
  obtain ⟨s, hs, herr⟩ := h
  obtain ⟨e, he, rfl⟩ := Option.map_eq_some_iff.mp hs
  exact ⟨e, he, herr⟩

/-- Only a record clears an error. -/
theorem State.HasError.step (hp : c.HasError p) (hs : c.step? s = some c')
    (ha : s.answers p = false) : c'.HasError p := by
  obtain ⟨e, he, herr⟩ := hp.get?
  obtain ⟨e', he', hk⟩ := State.step?_kept hs ha he
  exact State.hasError_of_get? he' (hk.error herr)

/-- The end of a batch sets the error of those of its members that are in flight. -/
theorem Coherent.hasError_of_finish {e : Ending} (hc : Coherent c)
    (hs : c.step? (.finish b e) = some c') (hb : p ∈ b.members) (hf : p ∈ c.inFlight) :
    c'.HasError p := by
  simp only [State.step?, Option.ite_none_right_eq_some, Option.some.injEq] at hs
  obtain ⟨-, rfl⟩ := hs
  obtain ⟨e₀, he₀⟩ := Option.isSome_iff_exists.mp (hc.inFlight_known p hf)
  have he : Keyed.get? p (c.endBatch b e.message).1.entries = some (e₀.failed e.message) := by
    rw [State.get?_endBatch, if_pos ⟨hb, hf⟩, he₀]
    rfl
  exact State.hasError_of_get? he rfl

/-- What is in flight stays so, unless a record for it is applied or a batch that has it ends. -/
theorem Coherent.inFlight_step (hc : Coherent c) (hs : c.step? s = some c') (hf : p ∈ c.inFlight)
    (ha : s.answers p = false) : p ∈ c'.inFlight ∨ ∃ b e, s = .finish b e ∧ p ∈ b.members := by
  cases hc.moves hs with
  | still _ _ inFlight => exact .inl (inFlight ▸ hf)
  | joins _ _ inFlight => exact .inl (inFlight ▸ hf)
  | takes _ _ inFlight => exact .inl (inFlight ▸ List.mem_append_left _ hf)
  | answers _ inFlight =>
    exact .inl ((inFlight p).mpr ⟨hf, by simpa [Step.answers] using ha⟩)
  | @ends b e _ inFlight =>
    by_cases hb : p ∈ b.members
    · exact .inr ⟨b, e, rfl, hb⟩
    · exact .inl ((inFlight p).mpr ⟨hf, hb⟩)

/-- An identifier that a batch still waits for is in flight, or another batch has failed it. -/
theorem Outstanding.inFlight_or_failed (hc : c₀.reopened = c₀) (hr : Run c₀ h c)
    (ho : Outstanding h c b p) : p ∈ c.inFlight ∨ c.HasError p := by
  induction hr generalizing b with
  | start => rw [← hc] at ho; simp [Outstanding, State.reopened] at ho
  | @next h c c' s hr hs ih =>
    have hcoh := hr.coherent hc
    obtain ⟨rfl, -, hq⟩ | ⟨ho, ha, -⟩ := (outstanding_cons hcoh hs).mp ho
    · -- a batch that has just been dispatched has all of its members in flight
      cases hcoh.moves hs with
      | still quiet => exact quiet.elim
      | takes _ _ inFlight => exact .inl (inFlight ▸ List.mem_append_right _ hq)
    · obtain hf | herr := ih ho
      · obtain hf' | ⟨b', e, rfl, hb'⟩ := hcoh.inFlight_step hs hf ha
        · exact .inl hf'
        · exact .inr (hcoh.hasError_of_finish hs hb' hf)
      · exact .inr (herr.step hs ha)

/-! ## The end of a batch -/

/-- A watch, made in the state `c` with `before` behind it, enqueued the identifier for the batch:
it was the one to put it into the queue, and the next dispatch after it was that of the batch.
`since` is what has happened from then on. -/
structure EnqueuedFor (b : Batch) (p : Purl) (before : History) (c : State) (since h : History) :
    Prop where
  history : h = since ++ (c, .watch p) :: before
  entered : p ∉ c.queued ∧ c.Joins p
  dispatched : ∃ after cd between, since = after ++ (cd, .dispatch) :: between ∧
    cd.dispatch.1 = some b ∧ ∀ x ∈ between, dispatched? x = none

/-- A stale identifier that is not in flight goes into the queue when it is watched again. -/
theorem State.mem_queued_watch (hr : c.hasRuntime = true) (hw : c.Wants p) :
    p ∈ (c.watch p).2.queued := by
  rw [State.watch_of_joins ⟨hw, .inl hr⟩]
  exact State.mem_insertSorted.mpr (.inl rfl)

/-- What a watch that enqueues an identifier leaves as its entry is what the watch returns. -/
theorem State.get?_watch_of_joins (hj : c.Joins p) :
    Keyed.get? p (c.watch p).2.entries = some (c.entryOf p) := by
  rw [State.watch_of_joins hj]
  simp [State.joined, State.get?_setEntry]

/-- **A batch settles its identifiers.** Once a batch has ended, in any of the ways it can and after
any run, each of its identifiers has been answered since the dispatch or carries an error, and is
not in flight. If no record for it has been applied since it was enqueued for the batch and the
clock has not gone back, it has the data and the time it had then, and a watch that can schedule a
dispatch puts it into the queue again. -/
theorem settled_of_finish {e : Ending} (hc : c₀.reopened = c₀) (hr : Run c₀ h c)
    (hs : c.step? (.finish b e) = some c') (hp : p ∈ b.members) :
    (answeredSince b p h = true ∨ ∃ s, c'.snapshot? p = some s ∧ s.error.isSome) ∧
    p ∉ c'.inFlight ∧
    ∀ before ce since, EnqueuedFor b p before ce since h →
      (∀ x ∈ since, x.2.answers p = false) → NeverBack since →
      (∃ s, c'.snapshot? p = some s ∧ s.data = (ce.watch p).1.data ∧
        s.updated = (ce.watch p).1.updated) ∧
      (c'.hasRuntime = true → p ∈ (c'.watch p).2.queued) := by
  have hcoh := hr.coherent hc
  have hgone : p ∉ c'.inFlight := by
    cases hcoh.moves hs with
    | still quiet => exact quiet.elim
    | ends _ inFlight => exact fun hf => ((inFlight p).mp hf).2 hp
  refine ⟨?_, hgone, ?_⟩
  · cases hans : answeredSince b p h with
    | true => exact .inl rfl
    | false =>
      have hb : b ∈ c.running := by
        simp only [State.step?, Option.ite_none_right_eq_some] at hs
        exact hs.1
      obtain hf | herr := Outstanding.inFlight_or_failed hc hr ⟨hb, hp, hans⟩
      · exact .inr (hcoh.hasError_of_finish hs hp hf)
      · exact .inr (herr.step hs rfl)
  · intro before ce since henq hnone hback
    obtain ⟨c₁, -, hw, hrun⟩ := (henq.history ▸ hr).split
    cases hw
    -- from the watch on, the entry is the one the watch returned
    obtain ⟨e₁, he₁, hk₁⟩ := hrun.kept hnone (State.get?_watch_of_joins henq.entered.2)
    obtain ⟨e₂, he₂, hk₂⟩ := State.step?_kept hs rfl he₁
    have hk := hk₁.trans hk₂
    refine ⟨⟨e₂.snapshot, by simp [State.snapshot?, he₂], hk.data, hk.updated⟩, fun hon => ?_⟩
    refine State.mem_queued_watch hon ⟨?_, hgone⟩
    have hstale := henq.entered.2.1.1
    obtain ⟨httl₀, hnow₀⟩ := State.step?_time (s := .watch p) (c := ce) rfl
    obtain ⟨httl₁, hnow₁⟩ := hrun.time hback
    obtain ⟨httl₂, hnow₂⟩ := State.step?_time hs
    have hnow : ce.now ≤ c'.now := by
      obtain hnow₀ | hnow₀ := hnow₀ <;> obtain hnow₂ | hnow₂ := hnow₂ <;> simp_all
    rw [State.entryOf_of_get? he₂, hk.updated, httl₂, httl₁, httl₀]
    exact isStaleAt_mono hstale hnow

/-- A batch that times out leaves its identifier with an error, and to be asked for again. -/
theorem settled_of_timeout :
    ∃ h c c', Run State.empty h c ∧
      c.step? (.finish ⟨0, [⟨"pkg:npm/a"⟩]⟩ (.stream .stalled)) = some c' ∧
      (∃ s, c'.snapshot? ⟨"pkg:npm/a"⟩ = some s ∧ s.error.isSome) ∧
      ⟨"pkg:npm/a"⟩ ∉ c'.inFlight ∧ ⟨"pkg:npm/a"⟩ ∈ (c'.watch ⟨"pkg:npm/a"⟩).2.queued := by
  have hw : Run State.empty _ _ := .next .start (s := .watch ⟨"pkg:npm/a"⟩) rfl
  have hr : Run State.empty _ _ := .next hw (s := .dispatch) rfl
  have hend := settled_of_finish (b := ⟨0, [⟨"pkg:npm/a"⟩]⟩) (p := ⟨"pkg:npm/a"⟩)
    (e := .stream .stalled) rfl hr rfl (by decide)
  obtain ⟨hresult, hgone, hkept⟩ := hend
  have henq : EnqueuedFor ⟨0, [⟨"pkg:npm/a"⟩]⟩ ⟨"pkg:npm/a"⟩ [] State.empty
      [((State.empty.watch ⟨"pkg:npm/a"⟩).2, .dispatch)] _ :=
    ⟨rfl, ⟨by decide, ⟨rfl, by decide⟩, .inl rfl⟩, [], _, [], rfl, rfl, by simp⟩
  refine ⟨_, _, _, hr, rfl, hresult.resolve_left (by decide), hgone, ?_⟩
  exact (hkept _ _ _ henq (by simp [Step.answers]) (by simp [NeverBack])).2 rfl

end DepScope.Cache
