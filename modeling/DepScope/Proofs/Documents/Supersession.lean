import DepScope.Proofs.Documents.Run

/-!
# DepScope.Proofs.Documents.Supersession

The last update wins. An update counts if and only if, between its beginning and its end, no other
update of its document has begun and the document has not been closed; one that does not count, or
that found nothing, leaves everything as it is (`last_update_wins`).

The generation of a document alone would not do: it starts again when the document is closed and
opened again, so that an old update may have the generation of a new one. What tells them apart is
the token, and `Issued` says why: no token is given out twice, no two documents have the same one,
and the token that a document has is never cancelled.
-/

namespace DepScope.Documents

open Package

/-- Does a step begin an update of the document, or close it? -/
def Step.supersedes (uri : String) : Step → Bool
  | .begin v | .close v => v = uri
  | _ => false

theorem Step.supersedes_eq_false_iff {uri : String} {a : Step} :
    a.supersedes uri = false ↔ a ≠ .begin uri ∧ a ≠ .close uri := by
  cases a with
  | begin v => by_cases hv : v = uri <;> simp [supersedes, hv]
  | close v => by_cases hv : v = uri <;> simp [supersedes, hv]
  | finish u found => simp [supersedes]
  | cache b => simp [supersedes]

namespace Workspace

variable {w w' : Workspace} {uri v : String} {u : Pending} {d : Document} {rs : References}

/-- What tokens are good for. -/
structure Issued (w : Workspace) : Prop where
  token_lt : ∀ v d, Keyed.get? v w.documents = some d → d.token < w.tokens
  cancelled_lt : ∀ t ∈ w.cancelled, t < w.tokens
  alive : ∀ v d, Keyed.get? v w.documents = some d → d.token ∉ w.cancelled
  own : ∀ v v' d d', Keyed.get? v w.documents = some d → Keyed.get? v' w.documents = some d' →
    d.token = d'.token → v = v'

/-- Whatever keeps the documents with their tokens and cancels nothing is fine. -/
theorem Issued.of_tokens (hw : Issued w)
    (hdocs : ∀ v d', Keyed.get? v w'.documents = some d' →
      ∃ d, Keyed.get? v w.documents = some d ∧ d'.token = d.token)
    (htokens : w'.tokens = w.tokens) (hcancelled : w'.cancelled = w.cancelled) : Issued w' where
  token_lt v d' hd' := by
    obtain ⟨d, hd, ht⟩ := hdocs v d' hd'
    rw [htokens, ht]
    exact hw.token_lt v d hd
  cancelled_lt := by
    rw [htokens, hcancelled]
    exact hw.cancelled_lt
  alive v d' hd' := by
    obtain ⟨d, hd, ht⟩ := hdocs v d' hd'
    rw [hcancelled, ht]
    exact hw.alive v d hd
  own v v' d₁ d₂ h₁ h₂ heq := by
    obtain ⟨d, hd, ht⟩ := hdocs v d₁ h₁
    obtain ⟨d', hd', ht'⟩ := hdocs v' d₂ h₂
    exact hw.own v v' d d' hd hd' (by rw [← ht, ← ht', heq])

/-- An update that begins and a close do the same to tokens: they cancel that of the document, and
the document has none or a new one after it. -/
theorem Issued.renew (hw : Issued w) (htokens : w.tokens ≤ w'.tokens)
    (hdocs : ∀ v d, Keyed.get? v w'.documents = some d →
      v ≠ uri ∧ Keyed.get? v w.documents = some d ∨
      v = uri ∧ d.token = w.tokens ∧ w.tokens < w'.tokens)
    (hcancelled : w'.cancelled =
      ((Keyed.get? uri w.documents).map (·.token)).toList ++ w.cancelled) : Issued w' where
  token_lt v d hd := by
    obtain ⟨-, hd⟩ | ⟨-, ht, hlt⟩ := hdocs v d hd
    · exact Nat.lt_of_lt_of_le (hw.token_lt v d hd) htokens
    · rw [ht]
      exact hlt
  cancelled_lt t ht := by
    simp only [hcancelled, List.mem_append, Option.mem_toList, Option.map_eq_some_iff] at ht
    obtain ⟨d, hd, rfl⟩ | ht := ht
    · exact Nat.lt_of_lt_of_le (hw.token_lt uri d hd) htokens
    · exact Nat.lt_of_lt_of_le (hw.cancelled_lt t ht) htokens
  alive v d hd hmem := by
    simp only [hcancelled, List.mem_append, Option.mem_toList, Option.map_eq_some_iff] at hmem
    obtain ⟨hv, hd⟩ | ⟨-, ht, -⟩ := hdocs v d hd
    · obtain ⟨d₀, hd₀, heq⟩ | hmem := hmem
      · exact hv (hw.own v uri d d₀ hd hd₀ heq.symm)
      · exact hw.alive v d hd hmem
    · -- a new token is larger than any that there has been
      rw [ht] at hmem
      obtain ⟨d₀, hd₀, heq⟩ | hmem := hmem
      · exact Nat.lt_irrefl _ (heq ▸ hw.token_lt uri d₀ hd₀)
      · exact Nat.lt_irrefl _ (hw.cancelled_lt _ hmem)
  own v v' d d' hd hd' heq := by
    obtain ⟨-, hd⟩ | ⟨hv, ht, -⟩ := hdocs v d hd <;>
      obtain ⟨-, hd'⟩ | ⟨hv', ht', -⟩ := hdocs v' d' hd'
    · exact hw.own v v' d d' hd hd' heq
    · exact absurd (hw.token_lt v d hd) (by omega)
    · exact absurd (hw.token_lt v' d' hd') (by omega)
    · rw [hv, hv']

theorem Issued.beginUpdate (hw : Issued w) (uri : String) : Issued (w.beginUpdate uri).2 := by
  have htokens := tokens_beginUpdate w uri
  refine hw.renew (by omega) (fun v d hd => ?_) (cancelled_beginUpdate w uri)
  rw [get?_beginUpdate] at hd
  split at hd
  · next hv =>
    cases hd
    exact .inr ⟨hv, rfl, by omega⟩
  · next hv => exact .inl ⟨hv, hd⟩

/-- A close cancels the token of the document and no other. -/
theorem cancelled_close (w : Workspace) (uri : String) :
    (w.close uri).cancelled =
      ((Keyed.get? uri w.documents).map (·.token)).toList ++ w.cancelled := by
  obtain ⟨hd, h⟩ | ⟨d, hd, hagree, -⟩ := close_cases w uri
  · rw [h, hd]
    rfl
  · rw [hagree.cancelled, hd]
    rfl

theorem Issued.close (hw : Issued w) (uri : String) : Issued (w.close uri) := by
  have htokens : (w.close uri).tokens = w.tokens := by
    obtain ⟨-, h⟩ | ⟨d, -, hagree, -⟩ := close_cases w uri
    · rw [h]
    · exact hagree.tokens
  refine hw.renew (by omega) (fun v d hd => ?_) (cancelled_close w uri)
  rw [get?_close] at hd
  split at hd
  · cases hd
  · next hv => exact .inl ⟨hv, hd⟩

theorem Issued.accept (hw : Issued w) (hd : Keyed.get? uri w.documents = some d) :
    Issued (w.accept uri d rs) := by
  have hagree := agree_trackAll w uri d.references rs
  refine hw.of_tokens (fun v d' hd' => ?_) hagree.tokens hagree.cancelled
  rw [get?_accept] at hd'
  split at hd'
  · next hv =>
    cases hd'
    exact ⟨d, hv ▸ hd, rfl⟩
  · exact ⟨d', hd', rfl⟩

/-! ## One update -/

/-- The document of an update has not begun another one since. -/
def Awaits (w : Workspace) (u : Pending) : Prop :=
  ∃ d, Keyed.get? u.uri w.documents = some d ∧ d.generation = u.generation ∧ d.token = u.token

theorem awaits_beginUpdate (w : Workspace) (uri : String) :
    (w.beginUpdate uri).2.Awaits (w.beginUpdate uri).1 :=
  ⟨⟨_, w.tokens, w.references? uri⟩, by rw [get?_beginUpdate, uri_beginUpdate, if_pos rfl], rfl,
    (token_beginUpdate w uri).symm⟩

/-- An update that its document waits for is current. -/
theorem Awaits.current? (h : w.Awaits u) (hw : Issued w) : (w.current? u).isSome := by
  obtain ⟨d, hd, hg, ht⟩ := h
  have halive := hw.alive u.uri d hd
  rw [ht] at halive
  rw [current?_eq_some_iff.mpr ⟨hd, hg, halive⟩]
  rfl

end Workspace

variable {s₀ s s' : Session} {h h' : History} {a : Step} {es : List Event} {u : Pending}

/-- **Every run keeps tokens apart.** -/
theorem Run.issued (hn : IsNew s₀) (hr : Run s₀ h s) : s.workspace.Issued :=
  hr.invariant hn (fun _ => ⟨by simp, by simp, by simp, by simp⟩)
    (fun _ uri hw => hw.beginUpdate uri) (fun _ _ _ _ hd hw => hw.accept hd)
    (fun _ uri hw => hw.close uri)
    fun _ _ _ _ _ hw => hw.of_tokens (fun v d hd => ⟨d, hd, rfl⟩) rfl rfl

/-- **A step and an update that is awaited**: only another update of the document or its close ends
the waiting, and both cancel the token. -/
theorem awaits_step? (hs : s.step? a = some (es, s')) (hu : s.workspace.Awaits u) :
    if a.supersedes u.uri then u.token ∈ s'.workspace.cancelled else s'.workspace.Awaits u := by
  obtain ⟨d, hd, hg, ht⟩ := hu
  have hgone : u.token ∈ ((Keyed.get? u.uri s.workspace.documents).map (·.token)).toList := by
    simp [hd, ht]
  cases a with
  | begin v =>
    cases hs
    by_cases hv : v = u.uri
    · simp only [Step.supersedes, hv, decide_true, if_true]
      rw [Workspace.cancelled_beginUpdate]
      exact List.mem_append_left _ hgone
    · simp only [Step.supersedes, hv, decide_false, Bool.false_eq_true, if_false]
      exact ⟨d, by rw [Workspace.get?_beginUpdate, if_neg (Ne.symm hv), hd], hg, ht⟩
  | close v =>
    cases hs
    by_cases hv : v = u.uri
    · simp only [Step.supersedes, hv, decide_true, if_true, Session.close]
      rw [Workspace.cancelled_close]
      exact List.mem_append_left _ hgone
    · simp only [Step.supersedes, hv, decide_false, Bool.false_eq_true, if_false]
      exact ⟨d, by rw [Session.close, Workspace.get?_close, if_neg (Ne.symm hv), hd], hg, ht⟩
  | finish u' found =>
    obtain ⟨-, -, rfl⟩ | ⟨d', rs, -, hd', -, hw, -⟩ := step?_finish hs
    · exact ⟨d, hd, hg, ht⟩
    · have hcur := (Workspace.current?_eq_some_iff.mp hd').1
      simp only [Step.supersedes, Bool.false_eq_true, if_false]
      rw [Workspace.Awaits, hw, Workspace.get?_accept]
      split
      · next hv =>
        rw [← hv, hd] at hcur
        cases hcur
        exact ⟨_, rfl, hg, ht⟩
      · exact ⟨d, hd, hg, ht⟩
  | cache b =>
    obtain ⟨c, ns, -, rfl, -⟩ := step?_cache hs
    exact ⟨d, hd, hg, ht⟩

/-- A token that is cancelled stays so. -/
theorem cancelled_step? {t : Nat} (hs : s.step? a = some (es, s'))
    (ht : t ∈ s.workspace.cancelled) : t ∈ s'.workspace.cancelled := by
  cases a with
  | begin v =>
    cases hs
    rw [Workspace.cancelled_beginUpdate]
    exact List.mem_append_right _ ht
  | close v =>
    cases hs
    rw [Session.close, Workspace.cancelled_close]
    exact List.mem_append_right _ ht
  | finish u found =>
    obtain ⟨-, -, rfl⟩ | ⟨d, rs, -, -, -, hw, -⟩ := step?_finish hs
    · exact ht
    · rw [hw, Workspace.accept, (Workspace.agree_trackAll _ _ _ _).cancelled]
      exact ht
  | cache b =>
    obtain ⟨c, ns, -, rfl, -⟩ := step?_cache hs
    exact ht

/-- **A run and an update that is awaited** when it starts: at its end the update is awaited still,
or superseded and its token cancelled. -/
theorem awaits_run (hr : Run s h s') (hu : s.workspace.Awaits u) :
    if h.any (·.step.supersedes u.uri) then u.token ∈ s'.workspace.cancelled
    else s'.workspace.Awaits u := by
  induction hr with
  | start => exact hu
  | @next h s₁ s₂ a es _ hs ih =>
    rw [List.any_cons]
    cases hany : h.any (·.step.supersedes u.uri) with
    | true =>
      rw [hany, if_pos rfl] at ih
      simpa using cancelled_step? hs ih
    | false =>
      rw [hany, if_neg Bool.false_ne_true] at ih
      simpa using awaits_step? hs ih

/-- An update that its document no longer knows is superseded, and no other. -/
theorem superseded_iff {found : Option References} :
    (s.finishUpdate u found).1 = .superseded ↔ s.workspace.current? u = none := by
  unfold Session.finishUpdate
  obtain ⟨hd, h⟩ | ⟨d, hd, -, h⟩ | ⟨d, rs, hd, -, -, h⟩ | ⟨d, rs, hd, -, -, h⟩ :=
    s.workspace.finishUpdate_cases u found <;> rw [h, hd] <;> simp

/-- **The last update wins.** An update that began at some point of a run finishes with an outcome
other than `superseded` if and only if no step since then has begun an update of the same document
or closed it. And an update that is superseded, or that found no information, causes no event and
leaves the whole session as it is: documents, trackers, subscriptions and cache. -/
theorem last_update_wins {s₁ : Session} {uri : String} (hn : IsNew s₀)
    (hr : Run s₀ (h' ++ ⟨s₁, .begin uri, es⟩ :: h) s) :
    (∀ found, (s.finishUpdate (s₁.workspace.beginUpdate uri).1 found).1 ≠ .superseded ↔
      ∀ m ∈ h', m.step ≠ .begin uri ∧ m.step ≠ .close uri) ∧
    ∀ u found, (s.finishUpdate u found).1 = .superseded ∨
      (s.finishUpdate u found).1 = .noInformation → (s.finishUpdate u found).2 = ([], s) := by
  constructor
  · intro found
    obtain ⟨s₂, -, hs, hr₂⟩ := hr.split
    cases hs
    have hrun := awaits_run hr₂ (s₁.workspace.awaits_beginUpdate uri)
    rw [Workspace.uri_beginUpdate] at hrun
    have hquiet : (∀ m ∈ h', m.step ≠ .begin uri ∧ m.step ≠ .close uri) ↔
        h'.any (·.step.supersedes uri) = false := by
      simp only [List.any_eq_false, Bool.not_eq_true, Step.supersedes_eq_false_iff]
    rw [hquiet, ne_eq, superseded_iff]
    cases hany : h'.any (·.step.supersedes uri) with
    | true =>
      rw [hany, if_pos rfl] at hrun
      simp [Workspace.current?_eq_none_of_cancelled hrun]
    | false =>
      rw [hany, if_neg Bool.false_ne_true] at hrun
      simpa [← Option.isSome_iff_ne_none] using hrun.current? (hr.issued hn)
  · intro u found hout
    have hstep : s.step? (.finish u found) = some (s.finishUpdate u found).2 := rfl
    obtain ⟨-, hes, hs⟩ | ⟨d, rs, hacc, -⟩ := step?_finish hstep
    · exact Prod.ext hes hs
    · obtain hout | hout := hout <;> simp [hout, UpdateOutcome.isAccepted] at hacc

/-- A document is closed and opened again while an update is under way. The update has the same
generation as the one that begins then, and is superseded all the same. -/
theorem superseded_of_reopened :
    ∃ h s u u', Run blank h s ∧ u.uri = u'.uri ∧ u.generation = u'.generation ∧
      ∀ found, (s.finishUpdate u found).1 = .superseded ∧
        (s.finishUpdate u' found).1 ≠ .superseded := by
  have hr : Run blank _ _ :=
    .next (.next (.next .start (a := .begin "a") rfl) (a := .close "a") rfl) (a := .begin "a") rfl
  have hfirst : Run blank ([_, _] ++ [_]) _ := hr
  have hsecond : Run blank ([] ++ _) _ := hr
  refine ⟨_, _, ⟨"a", 1, 0⟩, ⟨"a", 1, 1⟩, hr, rfl, rfl, fun found => ⟨?_, ?_⟩⟩
  · refine Classical.byContradiction fun hcounts => ?_
    have hquiet := ((last_update_wins isNew_blank hfirst).1 found).mp hcounts
    exact (hquiet _ List.mem_cons_self).1 rfl
  · exact ((last_update_wins isNew_blank hsecond).1 found).mpr (List.forall_mem_nil _)

end DepScope.Documents
