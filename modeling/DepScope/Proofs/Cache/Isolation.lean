import DepScope.Proofs.Cache.Settlement

/-!
# DepScope.Proofs.Cache.Isolation

Do overlapping batches leave each other alone? What is in flight is one set for all of them, while
the end of a batch goes through all that the batch was dispatched with.

1. `Held`: what a batch still waits for is in flight, so that no later batch asks for it.
2. `EndsAlone`: the end of a batch sets the error of what it still waits for, and changes no other
   entry.
3. `Isolated`: both hold at every point of a run.

They hold exactly as long as no batch ends while another one waits for one of its identifiers
(`isolated_iff_clean`). An identifier comes to be in two batches when a record answers it in the
first, it goes stale while that batch still runs, and a watch sends it out again: then the end of
the first batch fails it in the second (`not_isolated_of_redispatch`).
-/

namespace DepScope.Cache

open Package Score

/-- What a batch still waits for is in flight, and a dispatch would not take it. -/
def Held (h : History) (c : State) : Prop :=
  ∀ b p, Outstanding h c b p → p ∈ c.inFlight ∧ ∀ b', c.dispatch.1 = some b' → p ∉ b'.members

/-- The end of the batch sets the error of what it still waits for and changes no other entry. -/
def EndsAlone (h : History) (c : State) (b : Batch) (e : Ending) : Prop :=
  ∀ p, (Outstanding h c b p → ∃ e₀, Keyed.get? p c.entries = some e₀ ∧
      Keyed.get? p (c.endBatch b e.message).1.entries = some (e₀.failed e.message)) ∧
    (¬Outstanding h c b p →
      Keyed.get? p (c.endBatch b e.message).1.entries = Keyed.get? p c.entries)

/-- At every point of the run batches leave each other alone. -/
def Isolated (c₀ : State) (h : History) : Prop :=
  ∀ h' c, h' <:+ h → Run c₀ h' c →
    Held h' c ∧ ∀ b e, (c, .finish b e) :: h' <:+ h → EndsAlone h' c b e

/-- No batch ends while another one waits for one of its identifiers. -/
def Clean (h : History) : Prop :=
  ∀ h' c b e, (c, .finish b e) :: h' <:+ h → ∀ p ∈ b.members, ∀ b', Outstanding h' c b' p → b' = b

variable {c₀ c c' : State} {h h' : History} {s : Step} {p : Purl} {b b' : Batch}

theorem Clean.of_suffix (hcl : Clean h) (hsuf : h' <:+ h) : Clean h' :=
  fun h'' c b e hx => hcl h'' c b e (hx.trans hsuf)

theorem clean_nil : Clean [] := by
  intro h' c b e hx
  simp at hx

/-- Only a step that ends a batch can spoil a clean run. -/
theorem clean_cons :
    Clean ((c, s) :: h) ↔ Clean h ∧
      ∀ b e, s = .finish b e → ∀ p ∈ b.members, ∀ b', Outstanding h c b' p → b' = b := by
  constructor
  · refine fun hcl => ⟨hcl.of_suffix (List.suffix_cons _ _), ?_⟩
    rintro b e rfl
    exact hcl h c b e (List.suffix_refl _)
  · rintro ⟨hcl, hend⟩ h' c' b e hx
    obtain hx | hx := List.suffix_cons_iff.mp hx
    · cases hx
      exact hend b e rfl
    · exact hcl h' c' b e hx

/-- In a clean run everything outstanding is in flight, and outstanding in one batch only. The two
go together: what is in flight is never queued, so no second batch gets it. -/
theorem Run.held_of_clean (hc : c₀.reopened = c₀) (hr : Run c₀ h c) (hcl : Clean h) :
    (∀ b p, Outstanding h c b p → p ∈ c.inFlight) ∧
    ∀ b b' p, Outstanding h c b p → Outstanding h c b' p → b = b' := by
  induction hr with
  | start =>
    have hnone : ∀ b p, ¬Outstanding [] c₀ b p := by
      intro b p ho
      rw [← hc] at ho
      simp [Outstanding, State.reopened] at ho
    exact ⟨fun b p ho => absurd ho (hnone b p), fun b _ p ho => absurd ho (hnone b p)⟩
  | @next h c c' s hr hs ih =>
    obtain ⟨hheld, hone⟩ := ih (hcl.of_suffix (List.suffix_cons _ _))
    have hcoh := hr.coherent hc
    have hnew : ∀ b p, p ∈ c.queued → ¬Outstanding h c b p := fun b p hq ho =>
      hcoh.apart p hq (hheld b p ho)
    constructor
    · intro b p ho
      obtain ⟨rfl, -, hq⟩ | ⟨hold, ha, hne⟩ := (outstanding_cons hcoh hs).mp ho
      · cases hcoh.moves hs with
        | still quiet => exact quiet.elim
        | takes _ _ inFlight => exact inFlight ▸ List.mem_append_right _ hq
      · obtain hf | ⟨b₀, e, rfl, hb₀⟩ := hcoh.inFlight_step hs (hheld b p hold) ha
        · exact hf
        · have : b = b₀ := hcl h c b₀ e (List.suffix_refl _) p hb₀ b hold
          exact absurd rfl (this ▸ hne e)
    · intro b b' p ho ho'
      obtain ⟨-, hb, hq⟩ | ⟨ho, -⟩ := (outstanding_cons hcoh hs).mp ho <;>
        obtain ⟨-, hb', hq'⟩ | ⟨ho', -⟩ := (outstanding_cons hcoh hs).mp ho'
      · rw [hb, hb']
      · exact absurd ho' (hnew b' p hq)
      · exact absurd ho (hnew b p hq')
      · exact hone b b' p ho ho'

/-- In a clean run a scheduled dispatch takes nothing that is outstanding. -/
theorem Run.held (hc : c₀.reopened = c₀) (hr : Run c₀ h c) (hcl : Clean h) : Held h c := by
  intro b p ho
  have hf := (hr.held_of_clean hc hcl).1 b p ho
  refine ⟨hf, fun b' hb' hp => ?_⟩
  have hq : c.queued ≠ [] := by
    rintro hq
    simp [State.dispatch, hq] at hb'
  rw [State.dispatch_of_ne_nil hq] at hb'
  cases hb'
  exact (hr.coherent hc).apart p hp hf

/-- In a clean run the members of an ending batch that are in flight are those it waits for. -/
theorem Run.endsAlone {e : Ending} (hc : c₀.reopened = c₀) (hr : Run c₀ h c)
    (hcl : Clean ((c, .finish b e) :: h)) : EndsAlone h c b e := by
  have hheld := (hr.held_of_clean hc (hcl.of_suffix (List.suffix_cons _ _))).1
  intro p
  constructor
  · intro ho
    have hf := hheld b p ho
    obtain ⟨e₀, he₀⟩ := Option.isSome_iff_exists.mp ((hr.coherent hc).inFlight_known p hf)
    refine ⟨e₀, he₀, ?_⟩
    rw [State.get?_endBatch, if_pos ⟨ho.2.1, hf⟩, he₀]
    rfl
  · intro hno
    rw [State.get?_endBatch, if_neg]
    rintro ⟨hp, hf⟩
    obtain ⟨b', ho'⟩ := exists_outstanding hc hr hf
    have : b' = b := hcl h c b e (List.suffix_refl _) p hp b' ho'
    exact hno (this ▸ ho')

/-- **When overlapping batches leave each other alone**: a run of a new cache keeps everything that
a batch waits for in flight and lets the end of a batch touch nothing else, if and only if no batch
ends while another one waits for one of its identifiers. -/
theorem isolated_iff_clean (hc : c₀.reopened = c₀) (hr : Run c₀ h c) :
    Isolated c₀ h ↔ Clean h := by
  constructor
  · intro hiso h' c₁ b e hsuf p hp b' ho
    obtain ⟨t, ht⟩ := hsuf
    obtain ⟨c₂, hr₁, hs, -⟩ := (ht ▸ hr).split
    have hcoh := hr₁.coherent hc
    refine Decidable.byContradiction fun hne => ?_
    -- the other batch still waits for the identifier, which is no longer in flight
    have hstill : Outstanding ((c₁, .finish b e) :: h') c₂ b' p :=
      (outstanding_cons hcoh hs).mpr (.inr ⟨ho, rfl, by simpa using Ne.symm hne⟩)
    have hheld := (hiso _ c₂ ⟨t, ht⟩ (.next hr₁ hs)).1
    cases hcoh.moves hs with
    | still quiet => exact quiet
    | ends _ inFlight => exact ((inFlight p).mp (hheld b' p hstill).1).2 hp
  · intro hcl h' c' hsuf hr'
    refine ⟨hr'.held hc (hcl.of_suffix hsuf), fun b e hx => ?_⟩
    exact hr'.endsAlone hc (hcl.of_suffix hx)

/-- Two batches that share no identifier overlap, and the end of the first leaves the second
alone. -/
theorem isolated_of_apart :
    ∃ h c, Run State.empty h c ∧ c.running = [⟨1, [⟨"pkg:npm/b"⟩]⟩] ∧ Isolated State.empty h := by
  have hr : Run State.empty _ _ :=
    .next (.next (.next (.next (.next .start (s := .watch ⟨"pkg:npm/a"⟩) rfl) (s := .dispatch) rfl)
      (s := .watch ⟨"pkg:npm/b"⟩) rfl) (s := .dispatch) rfl)
      (s := .finish ⟨0, [⟨"pkg:npm/a"⟩]⟩ (.stream .stalled)) rfl
  refine ⟨_, _, hr, by decide, (isolated_iff_clean rfl hr).mpr ?_⟩
  -- one step ends a batch; of the two that run then, only that batch has its identifier
  simp only [clean_cons, clean_nil, true_and, reduceCtorEq, false_implies, implies_true]
  rintro _ _ ⟨⟩ p hp b' ⟨hrun, hp', -⟩
  have hboth : b' ∈ [⟨0, [⟨"pkg:npm/a"⟩]⟩, ⟨1, [⟨"pkg:npm/b"⟩]⟩] := hrun
  rw [List.mem_singleton.mp hp] at hp'
  rw [List.mem_cons, List.mem_singleton] at hboth
  obtain rfl | rfl := hboth
  · rfl
  · exact absurd hp' (by decide)

/-! ## Batches that share an identifier -/

/-- The record of a package without a version. -/
def bareRecord : Record := ⟨{ packageType := "npm", name := "a" }, .zero, []⟩

/-- An identifier is dispatched, answered, gone stale and dispatched again while the first batch
still runs; then the first batch ends. -/
def redispatch : List Step :=
  [.watch ⟨"pkg:npm/a"⟩, .dispatch, .apply ⟨0, [⟨"pkg:npm/a"⟩]⟩ bareRecord, .clock 1,
    .watch ⟨"pkg:npm/a"⟩, .dispatch, .finish ⟨0, [⟨"pkg:npm/a"⟩]⟩ (.stream .stalled)]

/-- The end of a batch fails an identifier that a record has answered in it and that another batch
is waiting for, and so takes it out of what is in flight: batches are not isolated. -/
theorem not_isolated_of_redispatch :
    ∃ h c, Run State.empty h c ∧ Outstanding h c ⟨1, [⟨"pkg:npm/a"⟩]⟩ ⟨"pkg:npm/a"⟩ ∧
      ⟨"pkg:npm/a"⟩ ∉ c.inFlight ∧ ((c.snapshot? ⟨"pkg:npm/a"⟩).bind (·.error)).isSome ∧
      ¬Isolated State.empty h := by
  obtain ⟨h, c, hr, ho, hf, herr⟩ : ∃ h c, Run State.empty h c ∧
      Outstanding h c ⟨1, [⟨"pkg:npm/a"⟩]⟩ ⟨"pkg:npm/a"⟩ ∧ ⟨"pkg:npm/a"⟩ ∉ c.inFlight ∧
      ((c.snapshot? ⟨"pkg:npm/a"⟩).bind (·.error)).isSome :=
    exists_run redispatch (by decide)
  refine ⟨h, c, hr, ho, hf, herr, fun hiso => hf ?_⟩
  exact ((hiso h c (List.suffix_refl _) hr).1 _ _ ho).1

end DepScope.Cache
