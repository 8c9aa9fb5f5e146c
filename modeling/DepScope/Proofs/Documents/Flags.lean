import DepScope.Proofs.Documents.Rendering

/-!
# DepScope.Proofs.Documents.Flags

Whose flag counts. A document flags each of its references as part of the runtime or not, and the
class of its marks should follow from its own flags and the cache. But an identifier has one
tracker for all documents, and the tracker keeps the flag of the reference it was made for
(`Run.flag?_eq`). So the class is the right one exactly if that reference has the same flag as the
document's own, or the flag makes no difference (`own_class_iff`).

It does make one where a package has the name of a part of the runtime up to folding: once such a
part is imported somewhere, no alert about the package is shown in any document
(`alert_hidden_of_import`).
-/

namespace DepScope.Documents

open Package Cache

/-- The reference for which the tracker of an identifier was made: the first that was accepted when
no document referred to the identifier, the last time that this was so. -/
def origin? (p : Purl) : History → Option Reference
  | [] => none
  | m :: h =>
    match m.step with
    | .finish u found =>
      if (m.before.finishUpdate u found).1.isAccepted = true ∧
          m.before.workspace.flag? p = none then
        (found.bind (·.get? p)).or (origin? p h)
      else origin? p h
    | _ => origin? p h

variable {s₀ s : Session} {h : History} {p : Purl} {uri : String} {rs : References}
  {r : Reference}

/-- **A tracker has the flag of the reference it was made for.** -/
theorem Run.flag?_eq {b : Bool} (hn : IsNew s₀) (hr : Run s₀ h s)
    (hb : s.workspace.flag? p = some b) : ∃ r, origin? p h = some r ∧ b = !isWatched p r := by
  induction hr generalizing b with
  | start =>
    rw [hn] at hb
    cases hb
  | @next h s s' a es _ hs ih =>
    cases a with
    | begin v =>
      cases hs
      rw [Workspace.flag?, Workspace.packages_beginUpdate] at hb
      exact ih hb
    | close v =>
      cases hs
      rw [Session.close, Workspace.flag?_close (by rw [hb]; rfl)] at hb
      exact ih hb
    | cache c =>
      obtain ⟨_, _, -, rfl, -⟩ := step?_cache hs
      exact ih hb
    | finish u found =>
      rw [origin?]
      obtain ⟨hacc, -, rfl⟩ | ⟨d, rs, hacc, -, rfl, hw, -⟩ := step?_finish hs
      · simp only [hacc, Bool.false_eq_true, false_and, if_false]
        exact ih hb
      · rw [hw] at hb
        rw [Workspace.flag?_accept (by rw [hb]; rfl)] at hb
        cases hold : s.workspace.flag? p with
        | some b₀ =>
          simp only [hold, Option.some_or, Option.some.injEq, reduceCtorEq, and_false,
            if_false] at hb ⊢
          exact hb ▸ ih hold
        | none =>
          rw [hold, Option.none_or] at hb
          obtain ⟨r, hget, rfl⟩ := Option.map_eq_some_iff.mp hb
          exact ⟨r, by simp [hacc, hget], rfl⟩

/-- The class that a document's own reference calls for. -/
def ownSeverity (w : Workspace) (p : Purl) (r : Reference) : Severity :=
  if r.builtin || isLocal p then .info else .ofSnapshot (w.cache.snapshot? p)

/-- Every reference of a document is marked somewhere. -/
theorem forall_marks_iff {w : Workspace} {P : Severity → Prop} (hrs : w.references? uri = some rs)
    (hp : rs.get? p = some r) :
    (∀ d ∈ w.decorations uri, d.purl = p → P d.severity) ↔ P (w.severityOf p) := by
  have hmem := References.get?_eq_some_iff.mp hp
  simp only [Workspace.decorations, hrs, Workspace.decorationsOf, List.mem_flatMap, List.mem_map]
  constructor
  · intro hall
    obtain ⟨range, hrange⟩ := List.exists_mem_of_ne_nil _ (rs.mentioned _ hmem)
    exact hall _ ⟨(p, r), hmem, range, hrange, rfl⟩ rfl
  · rintro hsev _ ⟨⟨q, r'⟩, -, range, -, rfl⟩ rfl
    exact hsev

/-- **Own references decide the class of the marks of a document** exactly where the flag of another
document makes no difference. After any run, take an identifier that an open document refers to.
There is a reference for which its tracker was made; and all marks of the identifier in the document
have the class that the document's own reference and the cache call for if and only if the two
references have the same flag, or the identifier is local, or what is known about it is
informational anyway. -/
theorem own_class_iff (hn : IsNew s₀) (hr : Run s₀ h s) (hacc : accepted uri h = some rs)
    (hp : rs.get? p = some r) :
    ∃ r₀, origin? p h = some r₀ ∧
      ((∀ d ∈ s.workspace.decorations uri, d.purl = p →
          d.severity = ownSeverity s.workspace p r) ↔
        r₀.builtin = r.builtin ∨ isLocal p = true ∨
          .ofSnapshot (s.workspace.cache.snapshot? p) = Severity.info) := by
  rw [← hr.references?_eq hn uri] at hacc
  have hheld : uri ∈ s.workspace.holders p := by
    rw [(hr.accurate hn).holders, Workspace.mem_purlsOf]
    exact ⟨rs, hacc, by rw [References.contains, hp]; rfl⟩
  obtain ⟨b, hb⟩ := Option.isSome_iff_exists.mp (Workspace.flag?_isSome hheld)
  obtain ⟨r₀, horigin, hflag⟩ := hr.flag?_eq hn hb
  refine ⟨r₀, horigin, ?_⟩
  rw [forall_marks_iff (P := (· = ownSeverity s.workspace p r)) hacc hp, Workspace.severityOf_eq,
    hb, hflag, ownSeverity]
  -- both classes are `info` or that of the snapshot, as the two flags say
  cases hlocal : isLocal p <;> cases h₀ : r₀.builtin <;> cases r.builtin <;>
    simp [isWatched, hlocal, h₀, eq_comm]

/-- A source that imports a module of the runtime. -/
def importedModule : References :=
  .ofMentions [.ofName .pypi "py_compile" (.ofCoords 0 0 0 17)]

/-- A list of requirements with a package that is called the same but for folding. -/
def requiredPackage : References :=
  .ofMentions [.ofName .pypi "py-compile" (.ofCoords 0 0 0 10)]

/-- The package is required while nothing imports the module: its alert is shown. -/
theorem own_class_of_requirement :
    ∃ h s r, Run blank h s ∧ accepted "requirements.txt" h = some requiredPackage ∧
      requiredPackage.get? ⟨"pkg:pypi/py_compile"⟩ = some r ∧
      ownSeverity s.workspace ⟨"pkg:pypi/py_compile"⟩ r = .error ∧
      ∀ d ∈ s.workspace.decorations "requirements.txt", d.purl = ⟨"pkg:pypi/py_compile"⟩ →
        d.severity = ownSeverity s.workspace ⟨"pkg:pypi/py_compile"⟩ r := by
  obtain ⟨h, s, hr, hacc, horigin, herror⟩ : ∃ h s, Run blank h s ∧
      accepted "requirements.txt" h = some requiredPackage ∧
      origin? ⟨"pkg:pypi/py_compile"⟩ h = some ⟨false, [.ofCoords 0 0 0 10]⟩ ∧
      ownSeverity s.workspace ⟨"pkg:pypi/py_compile"⟩ ⟨false, [.ofCoords 0 0 0 10]⟩ = .error :=
    exists_run [.begin "requirements.txt",
      .finish ⟨"requirements.txt", 1, 0⟩ (some requiredPackage), .cache .dispatch,
      .cache (.apply ⟨0, [⟨"pkg:pypi/py_compile"⟩]⟩ (alarmingRecord "pypi" "py_compile"))]
      (by decide)
  have hp : requiredPackage.get? ⟨"pkg:pypi/py_compile"⟩ =
      some ⟨false, [.ofCoords 0 0 0 10]⟩ := by decide
  obtain ⟨r₀, hr₀, hiff⟩ := own_class_iff isNew_blank hr hacc hp
  rw [horigin] at hr₀
  cases hr₀
  exact ⟨h, s, _, hr, hacc, hp, herror, hiff.mpr (.inl rfl)⟩

/-- A source imports a module of the runtime, then a list requires the package that is called the
same. The package is looked up and has an alert, but its mark is informational. -/
theorem alert_hidden_of_import :
    ∃ h s r, Run blank h s ∧ accepted "requirements.txt" h = some requiredPackage ∧
      requiredPackage.get? ⟨"pkg:pypi/py_compile"⟩ = some r ∧
      r.builtin = false ∧ isLocal ⟨"pkg:pypi/py_compile"⟩ = false ∧
      .ofSnapshot (s.workspace.cache.snapshot? ⟨"pkg:pypi/py_compile"⟩) = Severity.error ∧
      s.workspace.decorations "requirements.txt" =
        [⟨⟨"pkg:pypi/py_compile"⟩, .ofCoords 0 0 0 10, .info⟩] := by
  have hp : requiredPackage.get? ⟨"pkg:pypi/py_compile"⟩ =
      some ⟨false, [.ofCoords 0 0 0 10]⟩ := by decide
  obtain ⟨h, s, hr, hacc, herror, hmarks⟩ : ∃ h s, Run blank h s ∧
      accepted "requirements.txt" h = some requiredPackage ∧
      .ofSnapshot (s.workspace.cache.snapshot? ⟨"pkg:pypi/py_compile"⟩) = Severity.error ∧
      s.workspace.decorations "requirements.txt" =
        [⟨⟨"pkg:pypi/py_compile"⟩, .ofCoords 0 0 0 10, .info⟩] :=
    exists_run [.begin "a.py", .finish ⟨"a.py", 1, 0⟩ (some importedModule),
      .begin "requirements.txt", .finish ⟨"requirements.txt", 1, 1⟩ (some requiredPackage),
      .cache .dispatch,
      .cache (.apply ⟨0, [⟨"pkg:pypi/py_compile"⟩]⟩ (alarmingRecord "pypi" "py_compile"))]
      (by decide)
  exact ⟨h, s, _, hr, hacc, hp, rfl, by decide, herror, hmarks⟩

end DepScope.Documents
