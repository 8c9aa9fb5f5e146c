import DepScope.Proofs.Documents.Run

/-!
# DepScope.Proofs.Documents.Tracking

The trackers count documents exactly. In every session that can be reached, an identifier has a
tracker if and only if some document refers to it, and the tracker names these documents, each once
and in ascending order (`trackers_of_run`).

`Accurate` is the invariant behind it: `holders`, what the trackers say, against `references?`, what
the documents say. An update names the document before it releases what is gone, and a close
releases everything, so that the two stay in step.
-/

namespace DepScope.Documents

open Package

namespace Workspace

variable {w : Workspace} {uri v : String} {p q : Purl} {r : Reference} {t : Tracker}
  {d : Document} {rs : References}

theorem mem_purlsOf {found : Option References} :
    p ∈ purlsOf found ↔ ∃ rs, found = some rs ∧ rs.contains p = true := by
  cases found with
  | none => simp [purlsOf]
  | some rs => simp [purlsOf, References.contains_iff]

/-- Every tracker names at least one document, and names documents in order. -/
def Tended (w : Workspace) : Prop :=
  ∀ p t, Keyed.get? p w.packages = some t → t.documents ≠ [] ∧ t.documents.Pairwise (· < ·)

theorem Tended.holders (ht : Tended w) (p : Purl) : (w.holders p).Pairwise (· < ·) := by
  unfold Workspace.holders
  cases h : Keyed.get? p w.packages with
  | none => exact List.Pairwise.nil
  | some t => exact (ht p t h).2

theorem Tended.track (ht : Tended w) (uri : String) (p : Purl) (r : Reference) :
    Tended (w.track uri p r) := by
  intro q t h
  obtain ⟨-, hold⟩ | ⟨rfl, hdocs, -⟩ := get?_track h
  · exact ht q t hold
  · rw [hdocs, documents_joined]
    exact ⟨List.ne_nil_of_mem (mem_insertUri.mpr (.inl rfl)), pairwise_insertUri (ht.holders q)⟩

theorem Tended.release (ht : Tended w) (uri : String) (p : Purl) : Tended (w.release uri p) := by
  intro q t h
  obtain ⟨-, hr⟩ | ⟨t₀, ht₀, hne, hr⟩ | ⟨_, _, -, -, -, hr⟩ := release_cases w uri p <;>
    rw [hr] at h
  · exact ht q t h
  · rw [Keyed.get?_put] at h
    split at h
    · cases h
      exact ⟨hne, (ht p t₀ ht₀).2.filter _⟩
    · exact ht q t h
  · rw [Keyed.get?_erase] at h
    split at h
    · cases h
    · exact ht q t h

/-! ## The trackers and the documents -/

/-- The trackers name exactly the documents that refer to an identifier. -/
structure Accurate (w : Workspace) : Prop where
  tended : Tended w
  holders : ∀ v p, v ∈ w.holders p ↔ p ∈ purlsOf (w.references? v)

theorem accurate_new (c : Cache.State) : Accurate { cache := c } where
  tended _ _ ht := by cases ht
  holders v p := by simp [Workspace.holders, references?, purlsOf]

theorem Accurate.beginUpdate (hw : Accurate w) (uri : String) :
    Accurate (w.beginUpdate uri).2 where
  tended := by
    unfold Tended
    rw [packages_beginUpdate]
    exact hw.tended
  holders v p := by
    rw [references?_beginUpdate, ← hw.holders v p, Workspace.holders, packages_beginUpdate]
    rfl

/-- An update that is accepted keeps the trackers accurate: everything found is tracked, and what
was found before and is not found now is released. -/
theorem Accurate.accept (hw : Accurate w) (hd : Keyed.get? uri w.documents = some d) :
    Accurate (w.accept uri d rs) where
  tended := trackAll_of (fun _ p r h => h.track uri p r) (fun _ p h => h.release uri p) hw.tended
    d.references rs
  holders v p := by
    have hheld : v ∈ (w.accept uri d rs).holders p ↔
        v = uri ∧ p ∈ rs.purls ∨ v ∈ w.holders p ∧ ¬(v = uri ∧ p ∈ purlsOf d.references) :=
      mem_holders_trackAll
    rw [hheld, hw.holders v p, references?_accept]
    by_cases hv : v = uri
    · subst hv
      simp [references?, hd, purlsOf]
    · simp [hv]

theorem Accurate.close (hw : Accurate w) (uri : String) : Accurate (w.close uri) where
  tended := by
    obtain ⟨-, h⟩ | ⟨d, -, -, h⟩ := close_cases w uri <;> rw [h]
    · exact hw.tended
    · have hforget : Tended (w.forget uri d) := hw.tended
      exact releaseEach_of (fun _ p h => h.release uri p) hforget _
  holders v p := by
    rw [mem_holders_close, hw.holders v p, references?_close]
    by_cases hv : v = uri
    · simp [hv, purlsOf]
    · simp [hv]

end Workspace

variable {s₀ s : Session} {h : History}

/-- **Every run keeps the trackers accurate.** -/
theorem Run.accurate (hn : IsNew s₀) (hr : Run s₀ h s) : s.workspace.Accurate :=
  hr.invariant hn (fun _ => Workspace.accurate_new _) (fun _ uri hw => hw.beginUpdate uri)
    (fun _ _ _ _ hd hw => hw.accept hd) (fun _ uri hw => hw.close uri)
    fun _ _ _ _ _ hw => ⟨hw.tended, hw.holders⟩

/-- **References are counted exactly.** After any run, an identifier has a tracker if and only if it
is in the references last accepted for some document that is open; and the tracker names exactly
the documents for which it is, each once and in ascending order. -/
theorem trackers_of_run (hn : IsNew s₀) (hr : Run s₀ h s) (p : Purl) :
    (Keyed.contains p s.workspace.packages = true ↔
      ∃ uri rs, Keyed.contains uri s.workspace.documents = true ∧ accepted uri h = some rs ∧
        rs.contains p = true) ∧
    ∀ t, Keyed.get? p s.workspace.packages = some t →
      t.documents.Pairwise (· < ·) ∧
      ∀ uri, uri ∈ t.documents ↔ ∃ rs, accepted uri h = some rs ∧ rs.contains p = true := by
  have hacc := hr.accurate hn
  have hnames : ∀ t, Keyed.get? p s.workspace.packages = some t → ∀ uri,
      uri ∈ t.documents ↔ ∃ rs, accepted uri h = some rs ∧ rs.contains p = true := by
    intro t ht uri
    rw [← hr.references?_eq hn uri, ← Workspace.mem_purlsOf, ← hacc.holders uri p]
    simp [Workspace.holders, ht]
  refine ⟨⟨fun hp => ?_, ?_⟩, fun t ht => ⟨(hacc.tended p t ht).2, hnames t ht⟩⟩
  · obtain ⟨t, ht⟩ := Option.isSome_iff_exists.mp hp
    obtain ⟨uri, huri⟩ := List.exists_mem_of_ne_nil _ (hacc.tended p t ht).1
    obtain ⟨rs, hrs, hp⟩ := (hnames t ht uri).mp huri
    refine ⟨uri, rs, ?_, hrs, hp⟩
    rw [← hr.references?_eq hn uri] at hrs
    obtain ⟨d, hd, -⟩ := Option.bind_eq_some_iff.mp hrs
    simp [Keyed.contains, hd]
  · rintro ⟨uri, rs, -, hrs, hp⟩
    rw [← hr.references?_eq hn uri] at hrs
    have hheld : uri ∈ s.workspace.holders p :=
      (hacc.holders uri p).mpr (Workspace.mem_purlsOf.mpr ⟨rs, hrs, hp⟩)
    have hflag := Workspace.flag?_isSome hheld
    simpa [Workspace.flag?, Keyed.contains] using hflag

/-- What a manifest with one package refers to. -/
def oneReference : References :=
  .ofMentions [⟨⟨"pkg:npm/left-pad"⟩, false, .ofCoords 0 17 0 35⟩]

/-- Two documents refer to a package, and one of them is closed: the tracker names the other. -/
theorem trackers_of_two_documents :
    ∃ h s t, Run blank h s ∧ accepted "a" h = none ∧ accepted "b" h = some oneReference ∧
      Keyed.get? ⟨"pkg:npm/left-pad"⟩ s.workspace.packages = some t ∧
      "a" ∉ t.documents ∧ "b" ∈ t.documents := by
  obtain ⟨h, s, hr, hopen, ha, hb⟩ : ∃ h s, Run blank h s ∧
      Keyed.contains "b" s.workspace.documents = true ∧ accepted "a" h = none ∧
      accepted "b" h = some oneReference :=
    exists_run [.begin "a", .finish ⟨"a", 1, 0⟩ (some oneReference), .begin "b",
      .finish ⟨"b", 1, 1⟩ (some oneReference), .close "a"] (by decide)
  have hp : oneReference.contains ⟨"pkg:npm/left-pad"⟩ = true := by decide
  obtain ⟨htracked, hnames⟩ := trackers_of_run isNew_blank hr ⟨"pkg:npm/left-pad"⟩
  obtain ⟨t, ht⟩ := Option.isSome_iff_exists.mp (htracked.mpr ⟨"b", _, hopen, hb, hp⟩)
  have hdocs := (hnames t ht).2
  refine ⟨h, s, t, hr, ha, hb, ht, ?_, (hdocs "b").mpr ⟨_, hb, hp⟩⟩
  rw [hdocs "a", ha]
  simp

end DepScope.Documents
