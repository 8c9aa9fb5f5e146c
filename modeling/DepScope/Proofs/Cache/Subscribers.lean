import DepScope.Proofs.Cache.Settlement

/-!
# DepScope.Proofs.Cache.Subscribers

Who hears of a change.

1. A subscription stays until it is ended (`Subscribed.step`).
2. Every subscriber of an entry hears of a record for it (`Subscribed.notice_applyForms`), and the
   notice names the identifier of the entry (`Run.purl_eq`).
-/

namespace DepScope.Cache

open Package Score

variable {c₀ c c' : State} {h : History} {s : Step} {p : Purl} {id : Nat} {l : Listener}

/-- A listener has subscribed to an identifier, under a number. -/
def Subscribed (c : State) (p : Purl) (id : Nat) (l : Listener) : Prop :=
  ∃ e, Keyed.get? p c.entries = some e ∧ (id, l) ∈ e.subscribers

theorem Subscribed.known (hsub : Subscribed c p id l) : (Keyed.get? p c.entries).isSome := by
  obtain ⟨e, he, -⟩ := hsub
  rw [he]
  rfl

/-- A subscription is there once it is made. -/
theorem subscribed_subscribe (c : State) (p : Purl) (l : Listener) :
    Subscribed (c.subscribe p l).2 p (c.subscribe p l).1 l :=
  ⟨_, by rw [State.get?_subscribe, if_pos rfl], List.mem_append_right _ (List.mem_singleton_self _)⟩

/-- **A subscription stays until it is ended.** -/
theorem Subscribed.step (hsub : Subscribed c p id l) (hs : c.step? s = some c')
    (hne : s ≠ .unsubscribe p id) : Subscribed c' p id l := by
  obtain ⟨e, he, hmem⟩ := hsub
  cases s with
  | watch q =>
    cases hs
    by_cases hq : p = q
    · subst hq
      obtain h | h := State.get?_watch (c := c) (p := p)
      · exact ⟨_, h, by rwa [State.entryOf_of_get? he]⟩
      · exact ⟨_, h, by rwa [State.entryOf_of_get? he]⟩
    · exact ⟨e, by rw [State.get?_watch_of_ne hq, he], hmem⟩
  | subscribe q l' =>
    cases hs
    rw [Subscribed, State.get?_subscribe]
    split
    · next hq =>
      subst hq
      exact ⟨_, rfl, List.mem_append_left _ (by rwa [State.entryOf_of_get? he])⟩
    · exact ⟨e, he, hmem⟩
  | unsubscribe q id' =>
    cases hs
    rw [Subscribed, State.get?_unsubscribe]
    split
    · next hq =>
      subst hq
      have hid : id ≠ id' := fun h => hne (h ▸ rfl)
      rw [he]
      exact ⟨_, rfl, List.mem_filter.mpr ⟨hmem, by simpa using hid⟩⟩
    · exact ⟨e, he, hmem⟩
  | dispatch =>
    simp only [State.step?, Option.ite_none_left_eq_some, Option.some.injEq] at hs
    exact ⟨e, by rw [← hs.2, State.get?_dispatch, he], hmem⟩
  | apply b r =>
    simp only [State.step?, Option.ite_none_right_eq_some, Option.some.injEq] at hs
    rw [Subscribed, ← hs.2, State.get?_applyRecord, he]
    split
    · exact ⟨_, rfl, hmem⟩
    · exact ⟨e, rfl, hmem⟩
  | finish b e' =>
    simp only [State.step?, Option.ite_none_right_eq_some, Option.some.injEq] at hs
    rw [Subscribed, ← hs.2, State.get?_endBatch, he]
    split
    · exact ⟨_, rfl, hmem⟩
    · exact ⟨e, rfl, hmem⟩
  | clock t => cases hs; exact ⟨e, he, hmem⟩
  | caller on => cases hs; exact ⟨e, he, hmem⟩
  | disk st => cases hs; exact ⟨e, he, hmem⟩

/-! ## Notices -/

/-- The entry that an identifier has or would get is about it. -/
theorem State.purl_entryOf (hc : ∀ e, Keyed.get? p c.entries = some e → e.snapshot.purl = p) :
    (c.entryOf p).snapshot.purl = p := by
  unfold State.entryOf
  split
  · next e he => exact hc e he
  · split <;> rfl

/-- Every entry of a cache is about the identifier it is kept under. -/
theorem Run.purl_eq (hc : c₀.reopened = c₀) (hr : Run c₀ h c) {e : Entry}
    (he : Keyed.get? p c.entries = some e) : e.snapshot.purl = p := by
  induction hr generalizing e with
  | start =>
    rw [← hc] at he
    cases he
  | @next h c c' s _ hs ih =>
    obtain ⟨_, _, e₀, -, -, he₀, rfl⟩ | ⟨-, hk⟩ := State.step?_entry hs he
    · have hpurl : e₀.snapshot.purl = p := ih he₀
      exact hpurl
    · rw [hk.purl]
      exact State.purl_entryOf fun e he => ih he

/-- Every subscriber of an entry hears of a record for it. -/
theorem Subscribed.notice_applyForms {r : Record} {ps : List Purl} (hsub : Subscribed c p id l)
    (hnamed : ∀ e, Keyed.get? p c.entries = some e → e.snapshot.purl = p) (hp : p ∈ ps) :
    ∃ n ∈ (c.applyForms r ps).2, n.listener = l ∧ n.snapshot.purl = p := by
  induction ps generalizing c with
  | nil => simp at hp
  | cons q ps ih =>
    simp only [State.applyForms, List.mem_append]
    by_cases hq : p = q
    · subst hq
      obtain ⟨e, he, hmem⟩ := hsub
      refine ⟨⟨l, ⟨e.snapshot.purl, some r, none, some c.now⟩⟩, .inl ?_, rfl, hnamed e he⟩
      simp only [State.applyForm, he, Entry.notices, List.mem_map]
      exact ⟨(id, l), hmem, rfl⟩
    · -- the entry of another identifier is not touched
      have hsame : Keyed.get? p (c.applyForm r q).1.entries = Keyed.get? p c.entries := by
        rw [State.get?_applyForm, if_neg hq]
      have hp' : p ∈ ps := (List.mem_cons.mp hp).resolve_left hq
      obtain ⟨n, hn, hn'⟩ := ih (c := (c.applyForm r q).1) (by rwa [Subscribed, hsame])
        (by rwa [hsame]) hp'
      exact ⟨n, .inr hn, hn'⟩

end DepScope.Cache
