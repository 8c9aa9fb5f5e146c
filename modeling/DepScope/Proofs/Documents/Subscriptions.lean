import DepScope.Proofs.Documents.Rendering

/-!
# DepScope.Proofs.Documents.Subscriptions

Subscriptions and trackers go together (`subscriptions_of_run`): in every session that can be
reached, the documents have exactly the subscription to an identifier that its tracker names, and
none if there is no tracker or the tracker names none.

1. Who has subscribed changes only by subscribing and ending subscriptions
   (`State.subscribers_step?`).
2. A tracker gets its subscription when there is none yet, and takes it along when it goes
   (`Enrolled`).
3. So a record sends the documents one notice for each of its forms that is subscribed to, and a
   document that refers to the form is shown once for it (`shown_of_apply`). A document that is not
   shown has the marks it had (`decorations_of_apply`).
-/

namespace DepScope.Cache

open Package Score

variable {c c' : State} {s : Step} {p : Purl} {l : Listener}

/-! ## Who has subscribed -/

namespace State

/-- The subscriptions to an identifier, the oldest first. -/
def subscribers (c : State) (p : Purl) : List (Nat × Listener) :=
  ((Keyed.get? p c.entries).map (·.subscribers)).getD []

/-- The numbers of the subscriptions that a listener has to an identifier. -/
def subscriptionsOf (c : State) (l : Listener) (p : Purl) : List Nat :=
  ((c.subscribers p).filter (·.2 = l)).map (·.1)

theorem subscribers_entryOf (c : State) (p : Purl) :
    (c.entryOf p).subscribers = c.subscribers p := by
  unfold entryOf subscribers
  cases Keyed.get? p c.entries with
  | some e => rfl
  | none => cases c.store.load? p <;> rfl

/-- An entry that changes in other respects keeps its subscriptions. -/
theorem subscribers_map {f : Entry → Entry} (hf : ∀ e, (f e).subscribers = e.subscribers) :
    (((Keyed.get? p c.entries).map f).map (·.subscribers)).getD [] = c.subscribers p := by
  unfold subscribers
  cases Keyed.get? p c.entries with
  | none => rfl
  | some e => exact hf e

/-- The subscriptions to an identifier after a step: one more at the end, one less, or those that
there were. -/
def subscribersAfter (c : State) (p : Purl) : Step → List (Nat × Listener)
  | .subscribe q l =>
    if p = q then c.subscribers p ++ [(c.nextSubscription, l)] else c.subscribers p
  | .unsubscribe q id =>
    if p = q then (c.subscribers p).filter (·.1 ≠ id) else c.subscribers p
  | _ => c.subscribers p

/-- **Subscriptions change only by subscribing and by ending them.** -/
theorem subscribers_step? (hs : c.step? s = some c') :
    c'.subscribers p = c.subscribersAfter p s := by
  cases s with
  | watch q =>
    cases hs
    by_cases hq : p = q
    · subst hq
      have hentry := subscribers_entryOf c p
      rw [subscribers]
      obtain h | h := get?_watch (c := c) (p := p) <;> rw [h] <;> exact hentry
    · rw [subscribers, get?_watch_of_ne hq]
      rfl
  | subscribe q l =>
    cases hs
    rw [subscribersAfter, subscribers, get?_subscribe]
    by_cases hq : p = q
    · subst hq
      simp [subscribers_entryOf]
    · simp [hq, subscribers]
  | unsubscribe q id =>
    cases hs
    rw [subscribersAfter, subscribers, get?_unsubscribe]
    by_cases hq : p = q
    · subst hq
      cases he : Keyed.get? p c.entries <;> simp [he, subscribers]
    · simp [hq, subscribers]
  | dispatch =>
    simp only [step?, Option.ite_none_left_eq_some, Option.some.injEq] at hs
    rw [← hs.2, subscribers, get?_dispatch]
    rfl
  | apply b r =>
    simp only [step?, Option.ite_none_right_eq_some, Option.some.injEq] at hs
    rw [← hs.2, subscribers, get?_applyRecord]
    split
    · exact subscribers_map fun _ => rfl
    · rfl
  | finish b e =>
    simp only [step?, Option.ite_none_right_eq_some, Option.some.injEq] at hs
    rw [← hs.2, subscribers, get?_endBatch]
    split
    · exact subscribers_map fun _ => rfl
    · rfl
  | clock t => cases hs; rfl
  | caller on => cases hs; rfl
  | disk st => cases hs; rfl

theorem subscriptionsOf_watch (c : State) (l : Listener) (q p : Purl) :
    (c.watch q).2.subscriptionsOf l p = c.subscriptionsOf l p := by
  have h : (c.watch q).2.subscribers p = c.subscribers p := subscribers_step? (s := .watch q) rfl
  rw [subscriptionsOf, h, subscriptionsOf]

theorem subscriptionsOf_subscribe (c : State) (l : Listener) (q p : Purl) :
    (c.subscribe q l).2.subscriptionsOf l p =
      c.subscriptionsOf l p ++ if p = q then [(c.subscribe q l).1] else [] := by
  have h := subscribers_step? (c := c) (s := .subscribe q l) (p := p) rfl
  rw [subscriptionsOf, h, subscriptionsOf, subscribersAfter]
  by_cases hq : p = q
  · simp [hq, State.subscribe]
  · simp [hq]

theorem subscriptionsOf_unsubscribe (c : State) (l : Listener) (q p : Purl) (id : Nat) :
    (c.unsubscribe q id).2.subscriptionsOf l p =
      (c.subscriptionsOf l p).filter fun i => p ≠ q ∨ i ≠ id := by
  have h := subscribers_step? (c := c) (s := .unsubscribe q id) (p := p) rfl
  rw [subscriptionsOf, h, subscriptionsOf, subscribersAfter]
  by_cases hq : p = q
  · simp [hq, List.filter_map, List.filter_filter, Function.comp_def, Bool.and_comm]
  · simp [hq]

theorem mem_subscriptionsOf {id : Nat} :
    id ∈ c.subscriptionsOf l p ↔ Subscribed c p id l := by
  simp only [subscriptionsOf, subscribers, Subscribed, List.mem_map, List.mem_filter,
    decide_eq_true_eq]
  cases Keyed.get? p c.entries with
  | none => simp
  | some e =>
    constructor
    · rintro ⟨⟨i, l'⟩, ⟨hmem, rfl⟩, rfl⟩
      exact ⟨e, rfl, hmem⟩
    · rintro ⟨_, ⟨⟩, hmem⟩
      exact ⟨(id, l), ⟨hmem, rfl⟩, rfl⟩

/-- The notices of a record: for each of its forms, one to every subscription. -/
theorem notices_applyForms {r : Record} {ps : List Purl}
    (hnamed : ∀ p e, Keyed.get? p c.entries = some e → e.snapshot.purl = p) :
    (c.applyForms r ps).2 = ps.flatMap fun p =>
      (c.subscribers p).map fun x => ⟨x.2, ⟨p, some r, none, some c.now⟩⟩ := by
  induction ps generalizing c with
  | nil => rfl
  | cons q ps ih =>
    have hkept (p : Purl) : (c.applyForm r q).1.subscribers p = c.subscribers p := by
      rw [subscribers, get?_applyForm]
      split
      · exact subscribers_map fun _ => rfl
      · rfl
    have hnamed' : ∀ p e, Keyed.get? p (c.applyForm r q).1.entries = some e →
        e.snapshot.purl = p := by
      intro p e he
      rw [get?_applyForm] at he
      split at he
      · obtain ⟨e₀, he₀, rfl⟩ := Option.map_eq_some_iff.mp he
        exact hnamed p e₀ he₀
      · exact hnamed p e he
    have hfirst : (c.applyForm r q).2 =
        (c.subscribers q).map fun x => ⟨x.2, ⟨q, some r, none, some c.now⟩⟩ := by
      unfold applyForm subscribers
      cases he : Keyed.get? q c.entries with
      | none => simp [he]
      | some e => simp [he, Entry.notices, hnamed q e he]
    rw [applyForms, List.flatMap_cons, ← hfirst]
    simp only [ih hnamed', hkept, (applyForm_agrees c r q).now]

end State

end DepScope.Cache

namespace DepScope.Documents

open Package Cache

namespace Workspace

variable {w : Workspace} {uri : String} {p q : Purl} {d : Document} {rs : References} {c : State}

/-! ## Subscriptions of trackers -/

/-- The subscription that the tracker of an identifier names. -/
def subscription? (w : Workspace) (p : Purl) : Option Nat :=
  (Keyed.get? p w.packages).bind (·.subscription)

/-- The documents have the subscriptions that the trackers name, and no others. -/
def Enrolled (w : Workspace) : Prop :=
  ∀ p, w.cache.subscriptionsOf .documents p = (w.subscription? p).toList

/-- Does a change of an entry affect a document? It does if the document refers to the identifier and
the identifier's tracker has a subscription. -/
def affects (w : Workspace) (p : Purl) (uri : String) : Bool :=
  (w.subscription? p).isSome && (purlsOf (w.references? uri)).contains p

theorem subscription?_put {t : Tracker} (ht : t.subscription = w.subscription? p) :
    Workspace.subscription? { w with cache := c, packages := Keyed.put p t w.packages } q =
      w.subscription? q := by
  unfold subscription?
  rw [Keyed.get?_put]
  split
  · next hp =>
    subst hp
    exact ht
  · rfl

theorem subscription_joined (w : Workspace) (uri : String) (p : Purl) (r : Reference) :
    (w.joined uri p r).subscription = w.subscription? p := by
  unfold joined subscription?
  cases Keyed.get? p w.packages <;> rfl

/-- A tracker subscribes only if it has no subscription. -/
theorem Enrolled.track (hw : Enrolled w) (uri : String) (p : Purl) (r : Reference) :
    Enrolled (w.track uri p r) := by
  have hjoined := subscription_joined w uri p r
  intro q
  obtain ⟨-, h⟩ | ⟨id, -, -, h⟩ | ⟨-, hnone, h⟩ := track_cases w uri p r <;> rw [h]
  · rw [subscription?_put hjoined]
    exact hw q
  · rw [subscription?_put hjoined, State.subscriptionsOf_watch]
    exact hw q
  · rw [State.subscriptionsOf_subscribe, State.subscriptionsOf_watch, hw q]
    by_cases hq : q = p
    · subst hq
      rw [← hjoined, hnone]
      simp [subscription?]
    · simp [hq, Ne.symm hq, subscription?]

/-- A tracker that goes takes its subscription along. -/
theorem Enrolled.release (hw : Enrolled w) (uri : String) (p : Purl) :
    Enrolled (w.release uri p) := by
  intro q
  obtain ⟨-, h⟩ | ⟨t, ht, -, h⟩ | ⟨t, c, ht, -, hc, h⟩ := release_cases w uri p <;> rw [h]
  · exact hw q
  · rw [subscription?_put (by simp [subscription?, ht])]
    exact hw q
  · have hgone : Workspace.subscription?
        { w with cache := c, packages := Keyed.erase p w.packages } q =
        if p = q then none else w.subscription? q := by
      unfold subscription?
      rw [Keyed.get?_erase]
      split <;> rfl
    have hp : w.subscription? p = t.subscription := by simp [subscription?, ht]
    rw [hgone]
    obtain ⟨hs, rfl⟩ | ⟨id, hs, rfl⟩ := hc
    · rw [hw q]
      split
      · next hq =>
        rw [← hq, hp, hs]
      · rfl
    · rw [State.subscriptionsOf_unsubscribe, hw q]
      by_cases hq : p = q
      · rw [← hq, hp, hs]
        simp
      · simp [hq, Ne.symm hq]

theorem Enrolled.beginUpdate (hw : Enrolled w) (uri : String) : Enrolled (w.beginUpdate uri).2 := by
  unfold Enrolled subscription?
  rw [packages_beginUpdate, cache_beginUpdate]
  exact hw

theorem Enrolled.accept (hw : Enrolled w) (uri : String) (d : Document) (rs : References) :
    Enrolled (w.accept uri d rs) :=
  trackAll_of (fun _ p r h => h.track uri p r) (fun _ p h => h.release uri p) hw d.references rs

theorem Enrolled.close (hw : Enrolled w) (uri : String) : Enrolled (w.close uri) := by
  obtain ⟨-, h⟩ | ⟨d, -, -, h⟩ := close_cases w uri <;> rw [h]
  · exact hw
  · have hforget : Enrolled (w.forget uri d) := hw
    exact releaseEach_of (fun _ p h => h.release uri p) hforget _

/-- What others do to the cache does not touch the subscriptions of the documents. -/
theorem Enrolled.cache {b : Cache.Step} (hw : Enrolled w) (hc : w.cache.step? b = some c)
    (hf : Foreign w.cache b) : Enrolled { w with cache := c } := by
  intro p
  have hsame : c.subscriptionsOf .documents p = w.cache.subscriptionsOf .documents p := by
    have h := State.subscribers_step? (p := p) hc
    cases b with
    | subscribe q l =>
      have hl : l ≠ .documents := fun hl => hf.subscribe q (hl ▸ rfl)
      rw [State.subscriptionsOf, h, State.subscriptionsOf, State.subscribersAfter]
      by_cases hq : p = q <;> simp [hq, hl]
    | unsubscribe q id =>
      cases hc
      rw [State.subscriptionsOf_unsubscribe, List.filter_eq_self]
      intro i hi
      by_cases hq : p = q
      · subst hq
        have hid : i ≠ id := fun hid =>
          hf.unsubscribe p i (State.mem_subscriptionsOf.mp hi) (hid ▸ rfl)
        simp [hid]
      · simp [hq]
    | _ =>
      rw [State.subscriptionsOf, h]
      rfl
  rw [hsame]
  exact hw p

end Workspace

variable {s₀ s s' : Session} {h : History} {es : List Event} {p : Purl} {uri : String}

/-- **Every run keeps subscriptions and trackers together.** -/
theorem Run.enrolled (hn : IsNew s₀) (hr : Run s₀ h s) : s.workspace.Enrolled :=
  hr.invariant hn (fun _ _ => rfl) (fun _ uri hw => hw.beginUpdate uri)
    (fun _ uri d rs _ hw => hw.accept uri d rs) (fun _ uri hw => hw.close uri)
    fun _ _ _ hc hf hw => hw.cache hc hf

/-! ## What a record shows -/

/-- A document is shown once when the entry of an identifier changes to which it refers. -/
theorem shows_renderings {w : Workspace} (hw : w.Tended) :
    ((w.renderings p).map Event.rendered).filterMap (shows? uri) =
      if uri ∈ w.holders p then [w.decorations uri] else [] := by
  have hsorted := hw.holders p
  have hrender : (w.renderings p).map Event.rendered =
      (w.holders p).map fun v => .rendered ⟨v, w.decorations v⟩ := by
    unfold Workspace.renderings Workspace.holders
    cases Keyed.get? p w.packages <;> simp
  rw [hrender]
  generalize w.holders p = us at hsorted ⊢
  induction us with
  | nil => rfl
  | cons v vs ih =>
    obtain ⟨hv, hvs⟩ := List.pairwise_cons.mp hsorted
    by_cases huri : v = uri
    · subst huri
      have hnot : v ∉ vs := fun hmem => String.lt_irrefl v (hv v hmem)
      simp [shows?, ih hvs, hnot]
    · simp [shows?, ih hvs, huri, Ne.symm huri]

/-- What notices show of a document: those to the documents show it, if it refers to the
identifier. -/
theorem shows_events {w : Workspace} (hw : w.Tended) (ns : List Notice) :
    (Session.events w ns).filterMap (shows? uri) = ns.flatMap fun n =>
      if n.listener = .documents ∧ uri ∈ w.holders n.snapshot.purl then [w.decorations uri]
      else [] := by
  induction ns with
  | nil => rfl
  | cons n ns ih =>
    have hcons : Session.events w (n :: ns) = Session.events w [n] ++ Session.events w ns := by
      simp [Session.events]
    have hone : (Session.events w [n]).filterMap (shows? uri) =
        if n.listener = .documents ∧ uri ∈ w.holders n.snapshot.purl then [w.decorations uri]
        else [] := by
      cases hl : n.listener with
      | client name => simp [Session.events, hl, shows?]
      | documents => simpa [Session.events, hl] using shows_renderings hw
    rw [hcons, List.filterMap_append, hone, ih, List.flatMap_cons]

/-- The subscriptions to an identifier show a document once if the identifier affects it, and not at
all otherwise. -/
theorem shows_subscribers {α : Type} {w : Workspace} (hw : w.Enrolled) (hacc : w.Accurate)
    (p : Purl) (uri : String) (x : α) :
    (w.cache.subscribers p).flatMap
        (fun sub => if sub.2 = .documents ∧ uri ∈ w.holders p then [x] else []) =
      if w.affects p uri then [x] else [] := by
  have hone : (w.cache.subscribers p).flatMap
      (fun sub => if sub.2 = .documents ∧ uri ∈ w.holders p then [x] else []) =
      (w.cache.subscriptionsOf .documents p).flatMap
        (fun _ => if uri ∈ w.holders p then [x] else []) := by
    unfold State.subscriptionsOf
    induction w.cache.subscribers p with
    | nil => rfl
    | cons sub subs ih => by_cases hsub : sub.2 = .documents <;> simp [hsub, ih]
  rw [hone, hw p, Workspace.affects]
  cases w.subscription? p <;> simp [hacc.holders uri p]

/-- **What a record shows of a document**: its marks, once for each form that affects it. -/
theorem shown_of_apply {b : Batch} {r : Score.Record} (hn : IsNew s₀) (hr : Run s₀ h s)
    (hs : s.step? (.cache (.apply b r)) = some (es, s')) (uri : String) :
    es.filterMap (shows? uri) =
      (r.forms.filter (s.workspace.affects · uri)).map fun _ => s'.workspace.decorations uri := by
  obtain ⟨h', hrc⟩ := hr.cache
  have hacc := hr.accurate hn
  obtain ⟨c, ns, -, rfl, rfl, hns, -⟩ := step?_cache hs
  have hnotices : ns = r.forms.flatMap fun p => (s.workspace.cache.subscribers p).map fun sub =>
      ⟨sub.2, ⟨p, some r, none, some s.workspace.cache.now⟩⟩ := by
    rw [hns b r rfl]
    exact State.notices_applyForms fun p e he => hrc.purl_eq hn.cache he
  -- the trackers and the references are those of before
  have htended : (s.setCache c).workspace.Tended := hacc.tended
  have hheld (p : Purl) : (s.setCache c).workspace.holders p = s.workspace.holders p := rfl
  have hform (p : Purl) := shows_subscribers (hr.enrolled hn) hacc p uri
    ((s.setCache c).workspace.decorations uri)
  rw [shows_events htended, hnotices, List.flatMap_assoc]
  simp only [List.flatMap_map, hheld, hform]
  induction r.forms with
  | nil => rfl
  | cons p ps ih => by_cases hp : s.workspace.affects p uri <;> simp [hp, ih]

/-- **A record leaves the marks of a document as they are** if none of its forms affects it. -/
theorem decorations_of_apply {b : Batch} {r : Score.Record} (hn : IsNew s₀) (hr : Run s₀ h s)
    (hs : s.step? (.cache (.apply b r)) = some (es, s'))
    (hp : ∀ p ∈ r.forms, s.workspace.affects p uri = false) :
    s'.workspace.decorations uri = s.workspace.decorations uri := by
  have hshown := shown_of_apply hn hr hs uri
  rw [List.filter_eq_nil_iff.mpr fun p hmem => by simp [hp p hmem], List.map_nil,
    List.filterMap_eq_nil_iff] at hshown
  have hquiet : ∀ x, Event.rendered x ∈ es → x.uri ≠ uri := by
    intro x hx huri
    simpa [shows?, huri] using hshown _ hx
  have hsame : s'.workspace.references? uri = s.workspace.references? uri := by
    obtain ⟨c, ns, -, rfl, -⟩ := step?_cache hs
    rfl
  unfold Workspace.decorations
  rw [hsame]
  cases hrs : s.workspace.references? uri with
  | none => rfl
  | some rs =>
    exact Workspace.decorationsOf_congr
      (hr.severityOf_eq hn hs hquiet hrs (hsame.trans hrs) (.refl _))

/-- The forms of a record are different. -/
theorem nodup_forms (r : Score.Record) : r.forms.Nodup := by
  unfold Score.Record.forms
  split
  · simp
  · next hne => simpa using Ne.symm hne

/-- **One subscription for each tracker that needs one.** After any run, the subscriptions that the
documents have to an identifier are exactly the one that its tracker names, and none if it has no
tracker or the tracker names none; and a tracker whose entry is looked at names one. So a record that
is applied then shows every document once for each of its forms that affects it, and leaves the marks
of all others as they are. -/
theorem subscriptions_of_run (hn : IsNew s₀) (hr : Run s₀ h s) :
    (∀ p, s.workspace.cache.subscriptionsOf .documents p =
      (s.workspace.subscription? p).toList) ∧
    (∀ p t, Keyed.get? p s.workspace.packages = some t → t.builtin = false →
      t.subscription.isSome) ∧
    ∀ b r es s', s.step? (.cache (.apply b r)) = some (es, s') → r.forms.Nodup ∧ ∀ uri,
      es.filterMap (shows? uri) = (r.forms.filter (s.workspace.affects · uri)).map
        (fun _ => s'.workspace.decorations uri) ∧
      ((∀ p ∈ r.forms, s.workspace.affects p uri = false) →
        s'.workspace.decorations uri = s.workspace.decorations uri) := by
  refine ⟨hr.enrolled hn, ?_, ?_⟩
  · intro p t ht hb
    obtain ⟨id, hid, -⟩ := hr.attentive hn p t ht hb
    rw [hid]
    rfl
  · intro b r es s' hs
    exact ⟨nodup_forms r, fun uri => ⟨shown_of_apply hn hr hs uri, decorations_of_apply hn hr hs⟩⟩

/-- A document with one reference, which is flagged as part of the runtime or not. -/
def flaggedReference (builtin : Bool) : References :=
  .ofMentions [⟨⟨"pkg:npm/a"⟩, builtin, .ofCoords 0 0 0 1⟩]

/-- A document refers to a part of the runtime, another one to a package of the same name, and the
second one is closed. The tracker keeps the subscription that was made for the second document, and
a record shows the first one once. -/
theorem subscriptions_of_reflagged :
    ∃ h s es s', Run blank h s ∧
      s.step? (.cache (.apply ⟨0, [⟨"pkg:npm/a"⟩]⟩ (alarmingRecord "npm" "a"))) = some (es, s') ∧
      s.workspace.cache.subscriptionsOf .documents ⟨"pkg:npm/a"⟩ = [1] ∧
      es.filterMap (shows? "a") = [s'.workspace.decorations "a"] := by
  obtain ⟨h, s, hr, hsub, haffects, hrun⟩ : ∃ h s, Run blank h s ∧
      s.workspace.subscription? ⟨"pkg:npm/a"⟩ = some 1 ∧
      s.workspace.affects ⟨"pkg:npm/a"⟩ "a" = true ∧
      ⟨0, [⟨"pkg:npm/a"⟩]⟩ ∈ s.workspace.cache.running :=
    exists_run [.begin "a", .finish ⟨"a", 1, 0⟩ (some (flaggedReference true)), .begin "b",
      .finish ⟨"b", 1, 1⟩ (some (flaggedReference false)), .close "b", .cache .dispatch]
      (by decide)
  have hforms : (alarmingRecord "npm" "a").forms.filter (s.workspace.affects · "a") =
      [⟨"pkg:npm/a"⟩] := by
    rw [show (alarmingRecord "npm" "a").forms = [⟨"pkg:npm/a"⟩] by decide]
    simp [haffects]
  have hs : s.step? (.cache (.apply ⟨0, [⟨"pkg:npm/a"⟩]⟩ (alarmingRecord "npm" "a"))) =
      some (s.perform (·.applyRecord (alarmingRecord "npm" "a"))) := if_pos hrun
  obtain ⟨hids, -, happly⟩ := subscriptions_of_run isNew_blank hr
  refine ⟨h, s, _, _, hr, hs, by rw [hids, hsub]; rfl, ?_⟩
  rw [((happly _ _ _ _ hs).2 "a").1, hforms]
  rfl

end DepScope.Documents
