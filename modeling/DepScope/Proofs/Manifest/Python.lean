import DepScope.Manifest.Python
import DepScope.Proofs.References
import DepScope.Proofs.Toml.Legible
import DepScope.Proofs.Toml.Rules

/-!
# DepScope.Proofs.Manifest.Python

The packages that `Pipfile` and `pyproject.toml` name, against the tables that the documents mean.

1. A package is reported for the path of a key (`contains_pipfile`, `reported_poetry`). By what the
   paths of keys are, it is reported for an entry that is written out, or for a key behind an array
   (`reached_iff`).
2. So exactly the entries are reported, unless one is not written out and nothing of the same name is
   reported, or something is reported from behind an array and no entry has its name
   (`exact_iff_faithful`).
3. That holds if no dependency table is an array and all their entries are written out
   (`faithful_of_plain`).
-/

namespace DepScope.Manifest

open Text Package Toml

variable {doc : Document} {root : Entries} {q : List String} {p : Purl}

/-! ## Paths -/

theorem pathMatches_nil_iff {path : List Segment} : pathMatches path [] = true ↔ path = [] := by
  cases path <;> simp [pathMatches]

theorem pathMatches_some_iff {path : List Segment} {s : String} {pattern : List (Option String)} :
    pathMatches path (some s :: pattern) = true ↔
      ∃ rest, path = .name s :: rest ∧ pathMatches rest pattern = true := by
  match path with
  | [] | .index _ :: _ => simp [pathMatches]
  | .name t :: rest => simp [pathMatches]

theorem pathMatches_none_iff {path : List Segment} {pattern : List (Option String)} :
    pathMatches path (none :: pattern) = true ↔
      ∃ n rest, path = .name n :: rest ∧ pathMatches rest pattern = true := by
  match path with
  | [] | .index _ :: _ => simp [pathMatches]
  | .name t :: rest => simp [pathMatches]

/-- The paths of dependencies in a `Pipfile`. -/
def IsPipfileEntry (q : List String) : Prop :=
  ∃ n, q = ["packages", n] ∨ q = ["dev-packages", n]

/-- The paths of dependencies of Poetry; the interpreter itself is none. -/
def IsPoetryEntry (q : List String) : Prop :=
  ∃ n, n ≠ "python" ∧ (q = ["tool", "poetry", "dependencies", n] ∨
    q = ["tool", "poetry", "dev-dependencies", n] ∨
    ∃ g, q = ["tool", "poetry", "group", g, "dependencies", n])

/-- The package that a path names last. -/
def purlAt (q : List String) : Purl :=
  Purl.ofName .pypi (q.getLast?.getD "")

theorem IsPipfileEntry.ne_nil (h : IsPipfileEntry q) : q ≠ [] := by
  obtain ⟨n, rfl | rfl⟩ := h <;> simp

theorem IsPoetryEntry.ne_nil (h : IsPoetryEntry q) : q ≠ [] := by
  obtain ⟨n, -, rfl | rfl | ⟨g, rfl⟩⟩ := h <;> simp

theorem pathMatches_pipfile {path : List Segment} :
    (pathMatches path [some "packages", none] || pathMatches path [some "dev-packages", none]) = true ↔
      ∃ q, IsPipfileEntry q ∧ path = q.map .name := by
  simp only [Bool.or_eq_true, pathMatches_some_iff, pathMatches_none_iff, pathMatches_nil_iff]
  constructor
  · rintro (⟨_, rfl, n, _, rfl, rfl⟩ | ⟨_, rfl, n, _, rfl, rfl⟩)
    · exact ⟨["packages", n], ⟨n, .inl rfl⟩, rfl⟩
    · exact ⟨["dev-packages", n], ⟨n, .inr rfl⟩, rfl⟩
  · rintro ⟨q, ⟨n, rfl | rfl⟩, rfl⟩
    · exact .inl ⟨_, rfl, n, _, rfl, rfl⟩
    · exact .inr ⟨_, rfl, n, _, rfl, rfl⟩

theorem isPoetryDependency_iff {v : Visit} :
    (isPoetryDependency v.path = true ∧ v.lastName? ≠ some "python") ↔
      ∃ q, IsPoetryEntry q ∧ v.path = q.map .name := by
  simp only [isPoetryDependency, Bool.or_eq_true, pathMatches_some_iff, pathMatches_none_iff,
    pathMatches_nil_iff, Visit.lastName?]
  constructor
  · rintro ⟨(⟨_, h, _, rfl, _, rfl, n, _, rfl, rfl⟩ | ⟨_, h, _, rfl, _, rfl, n, _, rfl, rfl⟩) |
      ⟨_, h, _, rfl, _, rfl, g, _, rfl, _, rfl, n, _, rfl, rfl⟩, hname⟩
    · exact ⟨["tool", "poetry", "dependencies", n],
        ⟨n, by rintro rfl; exact hname (by rw [h]; rfl), .inl rfl⟩, h⟩
    · exact ⟨["tool", "poetry", "dev-dependencies", n],
        ⟨n, by rintro rfl; exact hname (by rw [h]; rfl), .inr (.inl rfl)⟩, h⟩
    · exact ⟨["tool", "poetry", "group", g, "dependencies", n],
        ⟨n, by rintro rfl; exact hname (by rw [h]; rfl), .inr (.inr ⟨g, rfl⟩)⟩, h⟩
  · rintro ⟨q, ⟨n, hn, rfl | rfl | ⟨g, rfl⟩⟩, h⟩ <;> rw [h]
    · exact ⟨.inl (.inl ⟨_, rfl, _, rfl, _, rfl, n, _, rfl, rfl⟩), by simpa [Segment.name?] using hn⟩
    · exact ⟨.inl (.inr ⟨_, rfl, _, rfl, _, rfl, n, _, rfl, rfl⟩), by simpa [Segment.name?] using hn⟩
    · exact ⟨.inr ⟨_, rfl, _, rfl, _, rfl, g, _, rfl, _, rfl, n, _, rfl, rfl⟩,
        by simpa [Segment.name?] using hn⟩

/-! ## What is reported -/

/-- Keys with the paths in a set are mentioned by their last names. -/
theorem exists_keyMention {D : List String → Prop} {fits : Visit → Prop} {vs : List Visit}
    (hfits : ∀ v, fits v ↔ ∃ q, D q ∧ v.path = q.map .name) (hD : ∀ q, D q → q ≠ [])
    (lines : LineIndex) :
    (∃ v ∈ vs, fits v ∧ ∃ m ∈ keyMention lines v, m.purl = p) ↔
      ∃ q, D q ∧ Visited vs q ∧ purlAt q = p := by
  have hpurl {v : Visit} {q : List String} (hq : D q) (hpath : v.path = q.map .name) :
      (∃ m ∈ keyMention lines v, m.purl = p) ↔ purlAt q = p := by
    have hlast : v.lastName? = some (q.getLast (hD q hq)) := by
      rw [Visit.lastName?, hpath, List.getLast?_map, List.getLast?_eq_some_getLast (hD q hq)]
      rfl
    simp [keyMention, hlast, purlAt, List.getLast?_eq_some_getLast (hD q hq), Mention.ofName]
  constructor
  · rintro ⟨v, hv, hfit, hm⟩
    obtain ⟨q, hq, hpath⟩ := (hfits v).mp hfit
    exact ⟨q, hq, ⟨v, hv, hpath⟩, (hpurl hq hpath).mp hm⟩
  · rintro ⟨q, hq, ⟨v, hv, hpath⟩, hp⟩
    exact ⟨v, hv, (hfits v).mpr ⟨q, hq, hpath⟩, (hpurl hq hpath).mpr hp⟩

/-- What a `Pipfile` names. -/
theorem contains_pipfile {text : String} (h : parse? tomlRules text = some doc) :
    ∃ refs, pipfile text = some refs ∧
      ∀ p, refs.contains p = true ↔ ∃ q, IsPipfileEntry q ∧ Visited doc.visits q ∧ purlAt q = p := by
  refine ⟨_, by rw [pipfile, ofKeys, h]; rfl, fun p => ?_⟩
  rw [References.contains_ofMentions, ← exists_keyMention (fun _ => pathMatches_pipfile)
    (fun _ => IsPipfileEntry.ne_nil) (LineIndex.ofText text)]
  constructor
  · rintro ⟨m, hm, hp⟩
    obtain ⟨v, hv, hm⟩ := List.mem_flatMap.mp hm
    rw [pipfileMentions] at hm
    split at hm
    · next hfit => exact ⟨v, hv, hfit, m, hm, hp⟩
    · cases hm
  · rintro ⟨v, hv, hfit, m, hm, hp⟩
    exact ⟨m, List.mem_flatMap.mpr ⟨v, hv, by rwa [pipfileMentions, if_pos hfit]⟩, hp⟩

/-- A package is reported for a key of `pyproject.toml` whose path is of a kind. -/
def Reported (kind : List Segment → Bool) (text : String) (doc : Document) (p : Purl) : Prop :=
  ∃ v ∈ doc.visits, kind v.path = true ∧
    ∃ m ∈ pyprojectMentions (LineIndex.ofText text) v, m.purl = p

/-- What a `pyproject.toml` names: dependencies of Poetry, and what its lists require. -/
theorem contains_pyproject {text : String} (h : parse? tomlRules text = some doc) :
    ∃ refs, pyproject text = some refs ∧ ∀ p, refs.contains p = true ↔
      Reported isPoetryDependency text doc p ∨ Reported isRequirementList text doc p := by
  refine ⟨_, by rw [pyproject, ofKeys, h]; rfl, fun p => ?_⟩
  rw [References.contains_ofMentions]
  constructor
  · rintro ⟨m, hm, hp⟩
    obtain ⟨v, hv, hm⟩ := List.mem_flatMap.mp hm
    by_cases hpoetry : isPoetryDependency v.path = true
    · exact .inl ⟨v, hv, hpoetry, m, hm, hp⟩
    · by_cases hlist : isRequirementList v.path = true
      · exact .inr ⟨v, hv, hlist, m, hm, hp⟩
      · simp [pyprojectMentions, hpoetry, hlist] at hm
  · rintro (⟨v, hv, -, m, hm, hp⟩ | ⟨v, hv, -, m, hm, hp⟩) <;>
      exact ⟨m, List.mem_flatMap.mpr ⟨v, hv, hm⟩, hp⟩

/-- Which dependencies of Poetry are named. -/
theorem reported_poetry {text : String} :
    Reported isPoetryDependency text doc p ↔
      ∃ q, IsPoetryEntry q ∧ Visited doc.visits q ∧ purlAt q = p := by
  rw [← exists_keyMention (fun _ => isPoetryDependency_iff) (fun _ => IsPoetryEntry.ne_nil)
    (LineIndex.ofText text), Reported]
  refine exists_congr fun v => and_congr_right fun _ => ?_
  rw [and_assoc]
  refine and_congr_right fun hpoetry => ?_
  rw [pyprojectMentions, if_pos hpoetry]
  split
  · next hpython => simp [hpython]
  · next hpython => simp [hpython]

/-! ## Exactness -/

/-- The tables that a document means have an entry that names a package. -/
def Listed (root : Entries) (D : List String → Prop) (p : Purl) : Prop :=
  ∃ q, D q ∧ (nodeAt? root q).isSome = true ∧ purlAt q = p

/-- An entry is written out at a path, or a key has the path but there is an array on its way. -/
def Reached (doc : Document) (root : Entries) (q : List String) : Prop :=
  ownAt root q = true ∨ crossesArray root q = true ∧ Visited doc.visits q

theorem reached_iff (hlegible : doc.Legible) (hroot : doc.table? = some root) :
    Visited doc.visits q ↔ Reached doc root q := by
  cases hq : crossesArray root q with
  | false => simp [Reached, visited_iff hlegible hroot hq, hq]
  | true => simp [Reached, hq, ownAt, nodeAt?_of_crossesArray hq]

/-- Neither does an entry get lost because it is not written out, nor is something behind an array
taken for one; unless a name like it is reported, or is an entry. -/
structure Faithful (doc : Document) (root : Entries) (D : List String → Prop) : Prop where
  entries : ∀ q, D q → (nodeAt? root q).isSome = true → ownAt root q = false →
    ∃ q', D q' ∧ Reached doc root q' ∧ purlAt q' = purlAt q
  strays : ∀ q, D q → crossesArray root q = true → Visited doc.visits q →
    Listed root D (purlAt q)

/-- **When the keys give exactly the entries.** -/
theorem exact_iff_faithful (hlegible : doc.Legible) (hroot : doc.table? = some root)
    (D : List String → Prop) :
    (∀ p, (∃ q, D q ∧ Visited doc.visits q ∧ purlAt q = p) ↔ Listed root D p) ↔
      Faithful doc root D := by
  simp only [reached_iff hlegible hroot]
  constructor
  · refine fun h => ⟨fun q hq hsome _ => (h (purlAt q)).mpr ⟨q, hq, hsome, rfl⟩,
      fun q hq hcross hvisit => ?_⟩
    exact (h (purlAt q)).mp ⟨q, hq, .inr ⟨hcross, hvisit⟩, rfl⟩
  · intro h p
    constructor
    · rintro ⟨q, hq, hown | ⟨hcross, hvisit⟩, rfl⟩
      · refine ⟨q, hq, ?_, rfl⟩
        cases hnode : nodeAt? root q with
        | none => simp [ownAt, hnode] at hown
        | some node => rfl
      · exact h.strays q hq hcross hvisit
    · rintro ⟨q, hq, hsome, rfl⟩
      cases hown : ownAt root q with
      | true => exact ⟨q, hq, .inl hown, rfl⟩
      | false => exact h.entries q hq hsome hown

/-- Tables that are no arrays and whose entries are all written out give exactly their entries. -/
theorem faithful_of_plain {D : List String → Prop}
    (h : ∀ q, D q → ∃ path n, q = path ++ [n] ∧ path ≠ [] ∧ plainTable root path = true) :
    Faithful doc root D where
  entries q hq hsome hown := by
    obtain ⟨path, n, rfl, hne, hplain⟩ := h q hq
    simp [(ownAt_of_plainTable hplain hne n).2 hsome] at hown
  strays q hq hcross _ := by
    obtain ⟨path, n, rfl, hne, hplain⟩ := h q hq
    simp [(ownAt_of_plainTable hplain hne n).1] at hcross

theorem faithful_pipfile (h : plainTable root ["packages"] = true)
    (hdev : plainTable root ["dev-packages"] = true) : Faithful doc root IsPipfileEntry := by
  refine faithful_of_plain fun q hq => ?_
  obtain ⟨n, rfl | rfl⟩ := hq
  · exact ⟨["packages"], n, rfl, by simp, h⟩
  · exact ⟨["dev-packages"], n, rfl, by simp, hdev⟩

/-- **Manifests against their meaning.** A text whose document means a table is refused by both
readers where the strict grammar refuses it. Otherwise a `Pipfile` reports exactly the entries of its
dependency tables if and only if these are faithful to their keys, and so do the tables of Poetry in
a `pyproject.toml`, which reports nothing else but what its lists require. -/
theorem manifests_exact_iff_faithful {text : String} (hdoc : parse? ⟨true⟩ text = some doc)
    (hroot : doc.table? = some root) :
    (parse? tomlRules text = none → pipfile text = none ∧ pyproject text = none) ∧
    (parse? tomlRules text ≠ none → ∃ refs refs',
      pipfile text = some refs ∧ pyproject text = some refs' ∧
      ((∀ p, refs.contains p = true ↔ Listed root IsPipfileEntry p) ↔
        Faithful doc root IsPipfileEntry) ∧
      (∀ p, refs'.contains p = true ↔
        Reported isPoetryDependency text doc p ∨ Reported isRequirementList text doc p) ∧
      ((∀ p, Reported isPoetryDependency text doc p ↔ Listed root IsPoetryEntry p) ↔
        Faithful doc root IsPoetryEntry)) := by
  refine ⟨fun h => ⟨by simp [pipfile, ofKeys, h], by simp [pyproject, ofKeys, h]⟩, fun h => ?_⟩
  obtain ⟨doc', hdoc'⟩ := Option.ne_none_iff_exists'.mp h
  -- where the strict grammar reads the text at all, it reads the same document
  obtain rfl : doc = doc' := by simpa [hdoc] using parse?_loose hdoc'
  have hlegible := legible_parse hdoc
  obtain ⟨refs, hrefs, hpipfile⟩ := contains_pipfile hdoc'
  obtain ⟨refs', hrefs', hpyproject⟩ := contains_pyproject hdoc'
  refine ⟨refs, refs', hrefs, hrefs', ?_, hpyproject, ?_⟩
  · simp only [hpipfile]
    exact exact_iff_faithful hlegible hroot IsPipfileEntry
  · simp only [reported_poetry]
    exact exact_iff_faithful hlegible hroot IsPoetryEntry

/-- A `Pipfile` can be run, and its table be looked at. -/
theorem exists_of_run (text : String) (check : Entries → References → Bool)
    (h : ((parse? ⟨true⟩ text).any fun doc => doc.table?.any fun root =>
      (pipfile text).any (check root)) = true) :
    ∃ doc root refs, parse? ⟨true⟩ text = some doc ∧ doc.table? = some root ∧
      pipfile text = some refs ∧ check root refs = true := by
  obtain ⟨doc, hdoc, h⟩ := (Option.any_eq_true _ _).mp h
  obtain ⟨root, hroot, h⟩ := (Option.any_eq_true _ _).mp h
  obtain ⟨refs, hrefs, h⟩ := (Option.any_eq_true _ _).mp h
  exact ⟨doc, root, refs, hdoc, hroot, hrefs, h⟩

/-- Entries spelt in three ways. -/
def spellings : String :=
  "[packages]\nrequests = \"*\"\n\"flask\" = \x7bversion = \"1\"\x7d\n[packages.django]\nversion = \"2\"\n"

theorem manifests_exact_of_spellings :
    ∃ doc root refs, parse? ⟨true⟩ spellings = some doc ∧ doc.table? = some root ∧
      pipfile spellings = some refs ∧
      (∀ p, refs.contains p = true ↔ Listed root IsPipfileEntry p) ∧
      refs.purls = ["requests", "flask", "django"].map (Purl.ofName .pypi) := by
  obtain ⟨doc, root, refs, hdoc, hroot, hrefs, hrun⟩ := exists_of_run spellings
    (fun root refs => plainTable root ["packages"] && plainTable root ["dev-packages"] &&
      refs.purls == ["requests", "flask", "django"].map (Purl.ofName .pypi)) (by decide +kernel)
  simp only [Bool.and_eq_true, beq_iff_eq] at hrun
  obtain ⟨⟨hplain, hdev⟩, hpurls⟩ := hrun
  have hstrict : parse? tomlRules spellings ≠ none := by
    rw [← Option.isSome_iff_ne_none]
    decide +kernel
  obtain ⟨refs', -, hrefs', -, hexact, -⟩ := (manifests_exact_iff_faithful hdoc hroot).2 hstrict
  obtain rfl : refs = refs' := by simpa [hrefs] using hrefs'
  exact ⟨doc, root, refs, hdoc, hroot, hrefs, hexact.mpr (faithful_pipfile hplain hdev), hpurls⟩

/-- A dotted key makes an entry that is not reported, and an inline table in an array makes none but
is reported. -/
theorem manifests_lose_and_invent :
    (∃ doc root refs, parse? ⟨true⟩ "[packages]\nrequests.version = \"*\"\n" = some doc ∧
      doc.table? = some root ∧ pipfile "[packages]\nrequests.version = \"*\"\n" = some refs ∧
      Listed root IsPipfileEntry (Purl.ofName .pypi "requests") ∧
      refs.contains (Purl.ofName .pypi "requests") = false) ∧
    (∃ doc root refs, parse? ⟨true⟩ "packages = [\x7brequests = \"*\"\x7d]\n" = some doc ∧
      doc.table? = some root ∧ pipfile "packages = [\x7brequests = \"*\"\x7d]\n" = some refs ∧
      (∀ p, ¬Listed root IsPipfileEntry p) ∧
      refs.contains (Purl.ofName .pypi "requests") = true) := by
  constructor
  · obtain ⟨doc, root, refs, hdoc, hroot, hrefs, hrun⟩ := exists_of_run
      "[packages]\nrequests.version = \"*\"\n"
      (fun root refs => (nodeAt? root ["packages", "requests"]).isSome &&
        !refs.contains (Purl.ofName .pypi "requests")) (by decide +kernel)
    simp only [Bool.and_eq_true, Bool.not_eq_true'] at hrun
    exact ⟨doc, root, refs, hdoc, hroot, hrefs, ⟨_, ⟨"requests", .inl rfl⟩, hrun.1, rfl⟩, hrun.2⟩
  · obtain ⟨doc, root, refs, hdoc, hroot, hrefs, hrun⟩ := exists_of_run
      "packages = [\x7brequests = \"*\"\x7d]\n"
      (fun root refs => (nodeAt? root ["packages"]).any Node.isArray &&
        (nodeAt? root ["dev-packages"]).isNone &&
        refs.contains (Purl.ofName .pypi "requests")) (by decide +kernel)
    simp only [Bool.and_eq_true, Option.isNone_iff_eq_none] at hrun
    obtain ⟨⟨harray, hdev⟩, hcontains⟩ := hrun
    refine ⟨doc, root, refs, hdoc, hroot, hrefs, ?_, hcontains⟩
    rintro p ⟨q, ⟨n, rfl | rfl⟩, hsome, -⟩
    · have hcross : crossesArray root (["packages"] ++ [n]) = true := by
        rw [crossesArray_concat (by simp), harray, Bool.or_true]
      rw [show ["packages", n] = ["packages"] ++ [n] from rfl, nodeAt?_of_crossesArray hcross] at hsome
      cases hsome
    · rw [show ["dev-packages", n] = ["dev-packages"] ++ [n] from rfl, nodeAt?_concat (by simp), hdev]
        at hsome
      cases hsome

end DepScope.Manifest
