import DepScope.Proofs.Documents.Tracking
import DepScope.Proofs.References.History

/-!
# DepScope.Proofs.Documents.Rendering

What is shown of a document is never out of date (`shown_is_current`). Three things could make it
so, and each is seen to:

1. other references: they are shown at once, unless they are the same in another order
   (`references?_step?`);
2. another flag of a tracker: a tracker that a document keeps, keeps its flag (`flag?_step?`);
3. other data of an entry: only records bring some, and every tracker whose entry is looked at has
   a subscription (`Attentive`), so that the documents it names are shown again.

The failure of a batch tells no one who has data already, and need not: the class of a mark depends
on the data alone.
-/

namespace DepScope

open Package Cache

namespace Documents

namespace Workspace

variable {w w' : Workspace} {uri : String} {p : Purl} {t : Tracker} {d : Document}
  {rs : References} {c : State}

/-! ## Subscriptions -/

/-- The documents have a subscription for every tracker whose entry is looked at. -/
def Attentive (w : Workspace) : Prop :=
  ∀ p t, Keyed.get? p w.packages = some t → t.builtin = false →
    ∃ id, t.subscription = some id ∧ Subscribed w.cache p id .documents

theorem Attentive.setCache (hw : Attentive w)
    (hc : ∀ q id, Subscribed w.cache q id .documents → Subscribed c q id .documents) :
    Attentive { w with cache := c } := by
  intro q t ht hb
  obtain ⟨id, hid, hsub⟩ := hw q t ht hb
  exact ⟨id, hid, hc q id hsub⟩

theorem Attentive.put (hw : Attentive w) (ht : t.builtin = false →
      ∃ id, t.subscription = some id ∧ Subscribed w.cache p id .documents) :
    Attentive { w with packages := Keyed.put p t w.packages } := by
  intro q t' ht' hb
  rw [Keyed.get?_put] at ht'
  split at ht'
  · next hp =>
    cases ht'
    exact hp ▸ ht hb
  · exact hw q t' ht' hb

/-- The tracker that a document joins was there, or is made for it. -/
theorem joined_cases (w : Workspace) (uri : String) (p : Purl) (r : Reference) :
    (∃ t, Keyed.get? p w.packages = some t ∧ (w.joined uri p r).builtin = t.builtin ∧
      (w.joined uri p r).subscription = t.subscription) ∨
    ((w.joined uri p r).builtin = !isWatched p r ∧ (w.joined uri p r).subscription = none) := by
  unfold joined
  cases Keyed.get? p w.packages with
  | none => exact .inr ⟨rfl, rfl⟩
  | some t => exact .inl ⟨t, rfl, rfl, rfl⟩

/-- A tracker that is made for a reference that is looked up gets a subscription with it. -/
theorem Attentive.track (hw : Attentive w) (uri : String) (p : Purl) (r : Reference) :
    Attentive (w.track uri p r) := by
  have hwatch (q : Purl) (id : Nat) (hsub : Subscribed w.cache q id .documents) :
      Subscribed (w.cache.watch p).2 q id .documents :=
    hsub.step (s := .watch p) rfl (by simp)
  obtain ⟨hr, h⟩ | ⟨id, hr, hid, h⟩ | ⟨hr, hnone, h⟩ := track_cases w uri p r <;> rw [h]
  · refine hw.put fun hb => ?_
    obtain ⟨t, ht, hbt, hst⟩ | ⟨hnew, -⟩ := joined_cases w uri p r
    · rw [hst]
      exact hw p t ht (hbt ▸ hb)
    · rw [hnew, hr] at hb
      cases hb
  · refine (hw.setCache hwatch).put fun hb => ?_
    obtain ⟨t, ht, hbt, hst⟩ | ⟨-, hnew⟩ := joined_cases w uri p r
    · obtain ⟨id', hid', hsub⟩ := hw p t ht (hbt ▸ hb)
      exact ⟨id', hst.trans hid', hwatch p id' hsub⟩
    · rw [hnew] at hid
      cases hid
  · refine (hw.setCache fun q id hsub => ?_).put fun _ => ⟨_, rfl, subscribed_subscribe _ p _⟩
    exact (hwatch q id hsub).step (s := .subscribe p .documents) rfl (by simp)

/-- A subscription goes with its tracker, and no other does. -/
theorem Attentive.release (hw : Attentive w) (uri : String) (p : Purl) :
    Attentive (w.release uri p) := by
  obtain ⟨-, h⟩ | ⟨t, ht, -, h⟩ | ⟨t, c, -, -, hc, h⟩ := release_cases w uri p <;> rw [h]
  · exact hw
  · exact hw.put (hw p t ht)
  · intro q t' ht' hb
    rw [Keyed.get?_erase] at ht'
    split at ht'
    · cases ht'
    · next hq =>
      obtain ⟨id, hid, hsub⟩ := hw q t' ht' hb
      refine ⟨id, hid, ?_⟩
      obtain ⟨-, rfl⟩ | ⟨id', -, rfl⟩ := hc
      · exact hsub
      · exact hsub.step (s := .unsubscribe p id') rfl (by simp [hq])

theorem Attentive.beginUpdate (hw : Attentive w) (uri : String) :
    Attentive (w.beginUpdate uri).2 := by
  unfold Attentive
  rw [packages_beginUpdate, cache_beginUpdate]
  exact hw

theorem Attentive.accept (hw : Attentive w) (uri : String) (d : Document) (rs : References) :
    Attentive (w.accept uri d rs) :=
  trackAll_of (fun _ p r h => h.track uri p r) (fun _ p h => h.release uri p) hw d.references rs

theorem Attentive.close (hw : Attentive w) (uri : String) : Attentive (w.close uri) := by
  obtain ⟨-, h⟩ | ⟨d, -, -, h⟩ := close_cases w uri <;> rw [h]
  · exact hw
  · have hforget : Attentive (w.forget uri d) := hw
    exact releaseEach_of (fun _ p h => h.release uri p) hforget _

theorem Attentive.subscribed (hw : Attentive w) (hp : w.flag? p = some false) :
    ∃ id, Subscribed w.cache p id .documents := by
  obtain ⟨t, ht, hb⟩ := Option.map_eq_some_iff.mp hp
  obtain ⟨id, -, hsub⟩ := hw p t ht hb
  exact ⟨id, hsub⟩

/-! ## Classes -/

/-- The class of an identifier stays if its flag does and, where it counts, the data of its
entry. -/
theorem severityOf_congr (hflag : w'.flag? p = w.flag? p)
    (hkept : w.flag? p = some false → ∃ e e', Keyed.get? p w.cache.entries = some e ∧
      Keyed.get? p w'.cache.entries = some e' ∧ e.Kept e') :
    w'.severityOf p = w.severityOf p := by
  rw [severityOf_eq, severityOf_eq, hflag]
  split
  · next hp =>
    obtain ⟨e, e', he, he', hk⟩ := hkept hp
    simp [State.snapshot?, Severity.ofSnapshot, he, he', hk.data]
  · rfl

theorem decorationsOf_congr (h : ∀ p ∈ rs.purls, w'.severityOf p = w.severityOf p) :
    w'.decorationsOf rs = w.decorationsOf rs := by
  unfold decorationsOf
  refine List.flatMap_congr fun e he => ?_
  have hp : w'.severityOf e.1 = w.severityOf e.1 := h e.1 (List.mem_map_of_mem he)
  simp only [hp]

end Workspace

/-! ## What a step does to what is shown -/

variable {s₀ s s' : Session} {h : History} {a : Step} {es : List Event} {p : Purl} {v : String}
  {rs : References}

/-- A tracker that stays keeps its flag. -/
theorem flag?_step? (hs : s.step? a = some (es, s')) (hp : (s.workspace.flag? p).isSome)
    (hp' : (s'.workspace.flag? p).isSome) : s'.workspace.flag? p = s.workspace.flag? p := by
  cases a with
  | begin uri =>
    cases hs
    rw [Workspace.flag?, Workspace.packages_beginUpdate]
    rfl
  | close uri => cases hs; exact Workspace.flag?_close hp'
  | finish u found =>
    obtain ⟨-, -, rfl⟩ | ⟨d, rs, -, -, -, hw, -⟩ := step?_finish hs
    · rfl
    · rw [hw] at hp' ⊢
      rw [Workspace.flag?_accept hp']
      obtain ⟨b, hb⟩ := Option.isSome_iff_exists.mp hp
      rw [hb, Option.some_or]
  | cache b =>
    obtain ⟨c, ns, -, rfl, -⟩ := step?_cache hs
    rfl

/-- **What a step shows is how things are after it.** -/
theorem decorations_of_rendered {r : Rendering} (hs : s.step? a = some (es, s'))
    (hr : Event.rendered r ∈ es) : r.decorations = s'.workspace.decorations r.uri := by
  cases a with
  | begin uri => cases hs; simp at hr
  | close uri => cases hs; simp at hr
  | finish u found =>
    obtain ⟨-, rfl, -⟩ | ⟨d, rs, -, -, -, -, ⟨-, rfl⟩ | ⟨-, rfl⟩⟩ := step?_finish hs
    · simp at hr
    · simp at hr
    · simp only [List.mem_singleton, Event.rendered.injEq] at hr
      rw [hr]
  | cache b =>
    obtain ⟨c, ns, -, -, rfl, -⟩ := step?_cache hs
    obtain ⟨n, -, hr⟩ := List.mem_flatMap.mp hr
    cases hl : n.listener with
    | client name => simp [hl] at hr
    | documents =>
      simp only [hl, List.mem_map, Event.rendered.injEq, exists_eq_right,
        Workspace.renderings] at hr
      split at hr
      · obtain ⟨uri, -, rfl⟩ := List.mem_map.mp hr
        rfl
      · simp at hr

/-- Every document that refers to an identifier is shown again when a record answers it. -/
theorem rendered_of_answers {b : Cache.Step} {id : Nat} (hs : s.step? (.cache b) = some (es, s'))
    (hnamed : ∀ e, Keyed.get? p s.workspace.cache.entries = some e → e.snapshot.purl = p)
    (hsub : Subscribed s.workspace.cache p id .documents) (ha : b.answers p = true)
    (hv : v ∈ s.workspace.holders p) : ∃ r, Event.rendered r ∈ es ∧ r.uri = v := by
  obtain ⟨c, ns, -, rfl, rfl, hns, -⟩ := step?_cache hs
  cases b with
  | apply b r =>
    obtain ⟨n, hn, hl, hp⟩ := hsub.notice_applyForms hnamed (List.contains_iff_mem.mp ha)
    refine ⟨⟨v, (s.setCache c).workspace.decorations v⟩, ?_, rfl⟩
    rw [hns b r rfl]
    refine List.mem_flatMap.mpr ⟨n, hn, ?_⟩
    have hheld : v ∈ (s.setCache c).workspace.holders p := hv
    simp only [hl, hp, List.mem_map, Event.rendered.injEq, exists_eq_right, Workspace.renderings]
    unfold Workspace.holders at hheld
    split
    · next t ht => exact List.mem_map.mpr ⟨v, by simpa [ht] using hheld, rfl⟩
    · next ht => simp [ht] at hheld
  | _ => cases ha

/-- **The class of an identifier** that a document refers to all the time changes only in steps that
show the document. -/
theorem severityOf_step? (hs : s.step? a = some (es, s')) (hw : s.workspace.Attentive)
    (hnamed : ∀ e, Keyed.get? p s.workspace.cache.entries = some e → e.snapshot.purl = p)
    (hv : v ∈ s.workspace.holders p) (hv' : v ∈ s'.workspace.holders p)
    (hquiet : ∀ r, Event.rendered r ∈ es → r.uri ≠ v) :
    s'.workspace.severityOf p = s.workspace.severityOf p := by
  refine Workspace.severityOf_congr
    (flag?_step? hs (Workspace.flag?_isSome hv) (Workspace.flag?_isSome hv')) fun hp => ?_
  obtain ⟨id, hsub⟩ := hw.subscribed hp
  obtain ⟨e, he⟩ := Option.isSome_iff_exists.mp hsub.known
  refine ⟨e, ?_⟩
  by_cases ha : ∃ b, a = .cache b
  · obtain ⟨b, rfl⟩ := ha
    cases hb : b.answers p with
    | true =>
      obtain ⟨r, hr, hrv⟩ := rendered_of_answers hs hnamed hsub hb hv
      exact absurd hrv (hquiet r hr)
    | false =>
      obtain ⟨c, ns, hc, rfl, -⟩ := step?_cache hs
      obtain ⟨e', he', hk⟩ := State.step?_kept hc hb he
      exact ⟨e', he, he', hk⟩
  · obtain ⟨e', he', hk⟩ := (called_step? hs fun b hb => ha ⟨b, hb⟩).kept he
    exact ⟨e', he, he', hk⟩

/-- **The references of a document** change only in steps that show it, their order apart. -/
theorem references?_step? (hs : s.step? a = some (es, s'))
    (hrs : s'.workspace.references? v = some rs)
    (hquiet : ∀ r, Event.rendered r ∈ es → r.uri ≠ v) :
    ∃ rs₀, s.workspace.references? v = some rs₀ ∧ rs₀.entries.Perm rs.entries := by
  cases a with
  | begin uri =>
    cases hs
    rw [Workspace.references?_beginUpdate] at hrs
    exact ⟨rs, hrs, .refl _⟩
  | close uri =>
    cases hs
    rw [Session.close, Workspace.references?_close] at hrs
    split at hrs
    · cases hrs
    · exact ⟨rs, hrs, .refl _⟩
  | finish u found =>
    obtain ⟨-, -, rfl⟩ | ⟨d, rs', -, hd, -, hw, hshown⟩ := step?_finish hs
    · exact ⟨rs, hrs, .refl _⟩
    · rw [hw, Workspace.references?_accept] at hrs
      split at hrs
      · next hv =>
        cases hrs
        obtain ⟨hsame, -⟩ | ⟨-, rfl⟩ := hshown
        · unfold Workspace.isSame at hsame
          split at hsame
          · next rs₀ hrs₀ =>
            refine ⟨rs₀, ?_, References.perm_of_alike hsame⟩
            rw [hv, Workspace.references?, (Workspace.current?_eq_some_iff.mp hd).1]
            exact hrs₀
          · cases hsame
        · exact absurd hv.symm (hquiet _ (List.mem_singleton_self _))
      · exact ⟨rs, hrs, .refl _⟩
  | cache b =>
    obtain ⟨c, ns, -, rfl, -⟩ := step?_cache hs
    exact ⟨rs, hrs, .refl _⟩

/-! ## Runs -/

/-- **Every run keeps the documents attentive.** -/
theorem Run.attentive (hn : IsNew s₀) (hr : Run s₀ h s) : s.workspace.Attentive :=
  hr.invariant hn (fun _ _ _ ht => by cases ht) (fun _ uri hw => hw.beginUpdate uri)
    (fun _ uri d rs _ hw => hw.accept uri d rs) (fun _ uri hw => hw.close uri)
    fun _ _ _ hc hf hw => hw.setCache fun q id hsub => hsub.step hc (hf.unsubscribe q id hsub)

/-- A step shows a document as it is then, or not at all. -/
theorem lastShown?_cons (hs : s.step? a = some (es, s')) :
    lastShown? v (⟨s, a, es⟩ :: h) = some (s'.workspace.decorations v) ∨
    (∀ r, Event.rendered r ∈ es → r.uri ≠ v) ∧ lastShown? v (⟨s, a, es⟩ :: h) = lastShown? v h := by
  have hcons : lastShown? v (⟨s, a, es⟩ :: h) =
      (es.reverse.findSome? (shows? v)).or (lastShown? v h) := by
    simp only [lastShown?, happened_cons, List.reverse_append, List.findSome?_append]
  rw [hcons]
  cases hfind : es.reverse.findSome? (shows? v) with
  | some ds =>
    obtain ⟨e, he, hds⟩ := List.exists_of_findSome?_eq_some hfind
    rw [shows?_eq_some_iff] at hds
    subst hds
    have hds : ds = s'.workspace.decorations v :=
      decorations_of_rendered hs (List.mem_reverse.mp he)
    exact .inl (by rw [hds, Option.some_or])
  | none =>
    refine .inr ⟨fun r hr hv => ?_, Option.none_or⟩
    have hnone := List.findSome?_eq_none_iff.mp hfind _ (List.mem_reverse.mpr hr)
    simp [shows?, hv] at hnone

/-- A step that does not show a document leaves the classes of its references as they are. -/
theorem Run.severityOf_eq {rs₀ : References} (hn : IsNew s₀) (hr : Run s₀ h s)
    (hs : s.step? a = some (es, s')) (hquiet : ∀ r, Event.rendered r ∈ es → r.uri ≠ v)
    (hrs₀ : s.workspace.references? v = some rs₀) (hrs : s'.workspace.references? v = some rs)
    (hperm : rs₀.entries.Perm rs.entries) :
    ∀ p ∈ rs₀.purls, s'.workspace.severityOf p = s.workspace.severityOf p := by
  intro p hp
  obtain ⟨h', hrc⟩ := hr.cache
  have hv : v ∈ s.workspace.holders p := by
    rw [(hr.accurate hn).holders, hrs₀]
    exact hp
  have hv' : v ∈ s'.workspace.holders p := by
    rw [((hr.next hs).accurate hn).holders, hrs]
    exact (hperm.map _).mem_iff.mp hp
  exact severityOf_step? hs (hr.attentive hn) (fun e he => hrc.purl_eq hn.cache he) hv hv' hquiet

/-- **Every run shows documents as they are**: references change with a rendering or in their order
only, and so do the classes of their marks. -/
theorem Run.lastShown?_eq (hn : IsNew s₀) (hr : Run s₀ h s)
    (hrs : s.workspace.references? v = some rs) :
    ∃ rs', rs'.entries.Perm rs.entries ∧
      lastShown? v h = some (s.workspace.decorationsOf rs') := by
  induction hr generalizing rs with
  | start =>
    rw [hn] at hrs
    cases hrs
  | @next h s s' a es hr hs ih =>
    obtain hlast | ⟨hquiet, hlast⟩ := lastShown?_cons (h := h) (v := v) hs
    · exact ⟨rs, .refl _, by rw [hlast, Workspace.decorations, hrs]⟩
    · obtain ⟨rs₀, hrs₀, hperm⟩ := references?_step? hs hrs hquiet
      obtain ⟨rs', hperm', hlast'⟩ := ih hrs₀
      have hclass := hr.severityOf_eq hn hs hquiet hrs₀ hrs hperm
      have hmarks : s'.workspace.decorationsOf rs' = s.workspace.decorationsOf rs' :=
        Workspace.decorationsOf_congr fun p hp => hclass p ((hperm'.map _).mem_iff.mp hp)
      exact ⟨rs', hperm'.trans hperm, by rw [hlast, hlast', hmarks]⟩

/-- **What is shown is current.** After any run, and for every open document that has accepted
references since it was opened, the last thing shown of it are its marks as they are now, up to the
order of the identifiers. -/
theorem shown_is_current (hn : IsNew s₀) (hr : Run s₀ h s) (hacc : accepted v h = some rs) :
    ∃ rs', rs'.entries.Perm rs.entries ∧
      lastShown? v h = some (s.workspace.decorationsOf rs') ∧
      s.workspace.decorations v = s.workspace.decorationsOf rs := by
  rw [← hr.references?_eq hn v] at hacc
  obtain ⟨rs', hperm, hlast⟩ := hr.lastShown?_eq hn hacc
  exact ⟨rs', hperm, hlast, by rw [Workspace.decorations, hacc]⟩

/-- Two packages that a manifest refers to, each on a line. -/
def twoReferences : References :=
  .ofMentions [⟨⟨"pkg:npm/a"⟩, false, .ofCoords 0 0 0 1⟩, ⟨⟨"pkg:npm/b"⟩, false, .ofCoords 1 0 1 1⟩]

/-- The same, found in another order. -/
def swappedReferences : References :=
  .ofMentions [⟨⟨"pkg:npm/b"⟩, false, .ofCoords 1 0 1 1⟩, ⟨⟨"pkg:npm/a"⟩, false, .ofCoords 0 0 0 1⟩]

/-- The record of a package that must not be used. -/
def alarmingRecord (ecosystem name : String) : Score.Record :=
  ⟨{ packageType := ecosystem, name }, .zero, [⟨.error, "malware", "critical", .null⟩]⟩

/-- A record brings an alert, and then the references are found in another order. Nothing is shown
of that, and still all that is shown is right. -/
theorem shown_of_swapped :
    ∃ h s rs, Run blank h s ∧ accepted "a" h = some swappedReferences ∧
      s.workspace.severityOf ⟨"pkg:npm/a"⟩ = .error ∧
      lastShown? "a" h ≠ some (s.workspace.decorations "a") ∧
      rs.entries.Perm swappedReferences.entries ∧
      lastShown? "a" h = some (s.workspace.decorationsOf rs) := by
  obtain ⟨h, s, hr, hacc, herror, hne⟩ : ∃ h s, Run blank h s ∧
      accepted "a" h = some swappedReferences ∧
      s.workspace.severityOf ⟨"pkg:npm/a"⟩ = .error ∧
      lastShown? "a" h ≠ some (s.workspace.decorations "a") :=
    exists_run [.begin "a", .finish ⟨"a", 1, 0⟩ (some twoReferences), .cache .dispatch,
      .cache (.apply ⟨0, [⟨"pkg:npm/a"⟩, ⟨"pkg:npm/b"⟩]⟩ (alarmingRecord "npm" "a")), .begin "a",
      .finish ⟨"a", 2, 1⟩ (some swappedReferences)] (by decide)
  obtain ⟨rs, hperm, hlast, -⟩ := shown_is_current isNew_blank hr hacc
  exact ⟨h, s, rs, hr, hacc, herror, hne, hperm, hlast⟩

end Documents

end DepScope
