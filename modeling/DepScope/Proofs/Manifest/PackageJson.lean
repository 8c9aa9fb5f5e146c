import DepScope.Manifest.PackageJson
import DepScope.Proofs.Json.Placement
import DepScope.Proofs.References
import DepScope.Proofs.Text.Position
import Mathlib.Data.List.Forall2

/-!
# DepScope.Proofs.Manifest.PackageJson

What a `package.json` names depends on its value and not on how it is spelled
(`packageJson_of_spellings`).

1. `namedPlaces` says it of a value: the packages it names in their order, each with the node that
   names it. A tree is extracted accordingly, whatever places its nodes have (`spans_named`).
2. So two documents of one value give the same identifiers in the same order, with the same flags and
   as many ranges each; and in each of them the ranges of an identifier, taken back to bytes, are the
   nodes that name it (`Covers`).

A NUL in a comment and a plus sign in an exponent make a document that names nothing
(`packageJson_of_nul_and_plus`).
-/

namespace DepScope.Manifest

open Text Package Json

/-! ## The nodes that name packages -/

/-- What is named among the later members or items. -/
def later (ws : List (String × Way)) : List (String × Way) :=
  ws.map fun (n, w) => (n, .next w)

/-- What is named inside the value of the first member. -/
def below (ws : List (String × Way)) : List (String × Way) :=
  ws.map fun (n, w) => (n, .child (.inside w))

/-- Members of a dependency field: each names a package as a whole. -/
def dependencyPlaces : List (Option String × Value) → List (String × Way)
  | [] => []
  | (key, _) :: rest => (key.map (·, Way.pair)).toList ++ later (dependencyPlaces rest)

/-- Items of a list of bundled packages: each string names one. -/
def bundledPlaces : List Value → List (String × Way)
  | [] => []
  | .string (some n) :: rest => (n, .child .here) :: later (bundledPlaces rest)
  | _ :: rest => later (bundledPlaces rest)

mutual

/-- Overrides that belong to a package. -/
def overridePlaces (owner : Option String) : List (Option String × Value) → List (String × Way)
  | [] => []
  | (key, v) :: rest =>
    (match key with
      | some k => overridePlace (overrideTarget owner k) owner v
      | none => []) ++ later (overridePlaces owner rest)

/-- One override: its name alone if an object follows, else the whole of it; and a string that refers to
another package names that. -/
def overridePlace (target owner : Option String) : Value → List (String × Way)
  | .object ms => (target.map (·, Way.name)).toList ++ below (overridePlaces (target.or owner) ms)
  | .string text =>
    (target.map (·, Way.pair)).toList ++
      (match text.bind fun t => afterPrefix? ['$'] t.toList with
        | some other => [(String.ofList other, .child .here)]
        | none => [])
  | _ => (target.map (·, Way.pair)).toList

end

/-- A field of the manifest. -/
def fieldPlaces (name : String) (v : Value) : List (String × Way) :=
  if dependencyFields.contains name then
    match v with
    | .object ms => dependencyPlaces ms
    | _ => []
  else if name = "bundledDependencies" then
    match v with
    | .array items => bundledPlaces items
    | _ => []
  else if name = "overrides" then
    match v with
    | .object ms => overridePlaces none ms
    | _ => []
  else []

/-- The fields of the manifest. -/
def fieldsPlaces : List (Option String × Value) → List (String × Way)
  | [] => []
  | (key, v) :: rest =>
    (match key with
      | some k => below (fieldPlaces k v)
      | none => []) ++ later (fieldsPlaces rest)

/-- The packages that a value names in their order, each with the node that names it. -/
def namedPlaces : Value → List (String × Place)
  | .object ms => (fieldsPlaces ms).map fun (n, w) => (n, .inside w)
  | _ => []

/-! ## What is extracted from a tree -/

/-- Names with their spans. -/
def spans (ns : List Named) : List (String × Option Span) :=
  ns.map fun n => (n.name, some n.span)

/-- Names with the spans of their nodes among members. -/
def memberSpans (ms : List (Key × Tree)) (ws : List (String × Way)) : List (String × Option Span) :=
  ws.map fun (n, w) => (n, memberSpanAt? ms w)

/-- Names with the spans of their nodes among items. -/
def itemSpans (ts : List Tree) (ws : List (String × Way)) : List (String × Option Span) :=
  ws.map fun (n, w) => (n, itemSpanAt? ts w)

theorem spans_append (ns ns' : List Named) : spans (ns ++ ns') = spans ns ++ spans ns' :=
  List.map_append

section Members

variable {m : Key × Tree} {ms rest : List (Key × Tree)} {t : Tree} {ts : List Tree}
  {ws ws' : List (String × Way)} {key : Key} {span : Span}

theorem memberSpans_append :
    memberSpans ms (ws ++ ws') = memberSpans ms ws ++ memberSpans ms ws' :=
  List.map_append

theorem memberSpans_later : memberSpans (m :: ms) (later ws) = memberSpans ms ws := by
  simp [memberSpans, later, memberSpanAt?]

theorem itemSpans_later : itemSpans (t :: ts) (later ws) = itemSpans ts ws := by
  simp [itemSpans, later, itemSpanAt?]

theorem memberSpans_below_object :
    memberSpans ((key, .object span ms) :: rest) (below ws) = memberSpans ms ws := by
  simp [memberSpans, below, memberSpanAt?, Tree.spanAt?]

theorem memberSpans_below_array :
    memberSpans ((key, .array span ts) :: rest) (below ws) = itemSpans ts ws := by
  simp [memberSpans, itemSpans, below, memberSpanAt?, Tree.spanAt?]

end Members

/-- Dependencies are extracted with the spans of their nodes. -/
theorem spans_dependencies (ms : List (Key × Tree)) :
    spans ((members ms).map fun d => ⟨d.name, d.span⟩) =
      memberSpans ms (dependencyPlaces (Tree.memberValues ms)) := by
  induction ms with
  | nil => rfl
  | cons m ms ih =>
    obtain ⟨key, t⟩ := m
    rw [Tree.memberValues, dependencyPlaces, memberSpans_append, memberSpans_later, ← ih]
    cases hkey : key.text <;> simp [members, spans, memberSpans, memberSpanAt?, hkey]

/-- Bundled packages are extracted with the spans of their nodes. -/
theorem spans_bundled (ts : List Tree) :
    spans (ts.filterMap fun i => i.text?.map fun n => ⟨n, i.span⟩) =
      itemSpans ts (bundledPlaces (Tree.values ts)) := by
  induction ts with
  | nil => rfl
  | cons t ts ih =>
    have hskip (h : t.text? = none) (hv : ∀ n, t.value ≠ .string (some n)) :
        spans ((t :: ts).filterMap fun i => i.text?.map fun n => ⟨n, i.span⟩) =
          itemSpans (t :: ts) (bundledPlaces (Tree.values (t :: ts))) := by
      rw [Tree.values, bundledPlaces, itemSpans_later, ← ih]
      · simp [h]
      · exact hv
    cases t with
    | string span text =>
      cases text with
      | none => exact hskip rfl (by simp [Tree.value])
      | some n =>
        rw [Tree.values, Tree.value, bundledPlaces, itemSpans, List.map_cons]
        exact congrArg _ (ih.trans itemSpans_later.symm)
    | _ => exact hskip rfl (by simp [Tree.value])

mutual

/-- Overrides are extracted with the spans of their nodes. -/
theorem spans_overrides (owner : Option String) : (ms : List (Key × Tree)) →
    spans (overrides owner ms) = memberSpans ms (overridePlaces owner (Tree.memberValues ms))
  | [] => rfl
  | (key, t) :: rest => by
    rw [overrides, spans_append, Tree.memberValues, spans_overrides owner rest]
    cases key.text with
    | none =>
      rw [overridePlaces, memberSpans_append, memberSpans_later]
      rfl
    | some k =>
      rw [overridePlaces, memberSpans_append, memberSpans_later]
      exact congrArg (· ++ _) (spans_override _ owner key t rest)

theorem spans_override (target owner : Option String) (key : Key) : (t : Tree) →
    (rest : List (Key × Tree)) → spans (override target owner key t) =
      memberSpans ((key, t) :: rest) (overridePlace target owner t.value)
  | .object span ms, rest => by
    rw [override, spans_append, Tree.value, overridePlace, memberSpans_append,
      memberSpans_below_object, spans_overrides _ ms]
    congr 1
    cases target <;> rfl
  | .string span text, rest => by
    rw [override, spans_append, Tree.value, overridePlace, memberSpans_append]
    congr 1
    · cases target <;> rfl
    · cases text.bind fun t => afterPrefix? ['$'] t.toList <;> rfl
  | .array span items, rest => by cases target <;> rfl
  | .number span text, rest => by cases target <;> rfl
  | .truth span b, rest => by cases target <;> rfl
  | .null span, rest => by cases target <;> rfl

end

/-- A field is extracted with the spans of its nodes. -/
theorem spans_field (m : Member) (key : Key) (rest : List (Key × Tree)) :
    spans (field m) =
      memberSpans ((key, m.value) :: rest) (below (fieldPlaces m.name m.value.value)) := by
  unfold field fieldPlaces
  generalize m.value = t
  split
  · cases t with
    | object span ms =>
      rw [Tree.value, memberSpans_below_object]
      exact spans_dependencies ms
    | _ => rfl
  · split
    · cases t with
      | array span ts =>
        rw [Tree.value, memberSpans_below_array]
        exact spans_bundled ts
      | _ => rfl
    · split
      · cases t with
        | object span ms =>
          rw [Tree.value, memberSpans_below_object]
          exact spans_overrides none ms
        | _ => rfl
      · rfl

theorem spans_fields (ms : List (Key × Tree)) :
    spans ((members ms).flatMap field) = memberSpans ms (fieldsPlaces (Tree.memberValues ms)) := by
  induction ms with
  | nil => rfl
  | cons m ms ih =>
    obtain ⟨key, t⟩ := m
    rw [Tree.memberValues]
    cases hkey : key.text with
    | none =>
      rw [fieldsPlaces, memberSpans_append, memberSpans_later, ← ih]
      simp [members, hkey, memberSpans]
    | some k =>
      rw [fieldsPlaces, memberSpans_append, memberSpans_later, ← ih]
      have hcons : members ((key, t) :: ms) =
          ⟨key, k, ⟨key.span.start, t.span.stop⟩, t⟩ :: members ms := by
        simp [members, hkey]
      rw [hcons, List.flatMap_cons, spans_append, spans_field _ key ms]

/-- **A tree is extracted as its value says**, with the spans that the nodes have in it. -/
theorem spans_named (span : Span) (ms : List (Key × Tree)) :
    spans ((members ms).flatMap field) =
      (namedPlaces (Tree.object span ms).value).map fun (n, p) =>
        (n, (Tree.object span ms).spanAt? p) := by
  rw [spans_fields, Tree.value, namedPlaces, List.map_map]
  rfl

/-! ## Documents -/

section Documents

variable {d : Document} {p : Purl} {place : Place}

/-- The nodes of a value that name an identifier. -/
def placesOf (p : Purl) (v : Value) : List Place :=
  ((namedPlaces v).filter fun n => decide (Purl.ofName .npm n.1 = p)).map (·.2)

/-- A range, taken back to bytes, is a node: the whole of it and nothing else. -/
def Covers (d : Document) (place : Place) (range : Range) : Prop :=
  ∃ e, d.excerpt? place = some e ∧ e.before ++ e.text ++ e.after = d.text.toList ∧
    (LineIndex.ofText d.text).spanOf range = e.span

theorem covers_rangeOf {span : Span} (h : d.tree.spanAt? place = some span) :
    Covers d place ((LineIndex.ofText d.text).rangeOf span) := by
  rw [Document.spanAt?_excerpt] at h
  obtain ⟨e, he, rfl⟩ := Option.map_eq_some_iff.mp h
  have htext := Document.append_of_excerpt? he
  have hback := LineIndex.spanOf_rangeOf e.before e.text e.after
  rw [htext, String.ofList_toList] at hback
  exact ⟨e, he, htext, hback⟩

/-- The mentions of an identifier cover the nodes that name it. -/
theorem forall₂_covers {ns : List Named} {nps : List (String × Place)}
    (h : spans ns = nps.map fun (n, place) => (n, d.tree.spanAt? place)) :
    List.Forall₂ (Covers d) ((nps.filter fun n => decide (Purl.ofName .npm n.1 = p)).map (·.2))
      (((ns.map (Named.mention .npm (LineIndex.ofText d.text))).filter
        fun m => decide (m.purl = p)).map (·.range)) := by
  induction nps generalizing ns with
  | nil =>
    obtain rfl := List.map_eq_nil_iff.mp h
    exact .nil
  | cons np nps ih =>
    obtain ⟨n, ns, rfl, hn, hns⟩ := List.map_eq_cons_iff.mp h
    obtain ⟨name, place⟩ := np
    obtain ⟨hname, hspan⟩ := Prod.mk.inj hn
    have hpurl : (n.mention .npm (LineIndex.ofText d.text)).purl = Purl.ofName .npm name := by
      rw [← hname]
      rfl
    by_cases hp : Purl.ofName .npm name = p
    · simp only [List.map_cons, List.filter_cons, hpurl, hp, decide_true, if_true]
      exact .cons (covers_rangeOf hspan.symm) (ih hns)
    · simp only [List.map_cons, List.filter_cons, hpurl, hp, decide_false]
      exact ih hns

/-- What is extracted from a document whose value is an object. -/
theorem packageJson_document (h : d.Plain) {vs : List (Option String × Value)}
    (hroot : d.value = .object vs) :
    ∃ ns : List Named, packageJson d.text =
        some (.ofMentions (ns.map (Named.mention .npm (LineIndex.ofText d.text)))) ∧
      spans ns = (namedPlaces d.value).map fun (n, place) => (n, d.tree.spanAt? place) := by
  have hvalue : d.value = d.tree.value := (value_tree _ d.root).symm
  obtain ⟨span, ms, htree⟩ : ∃ span ms, d.tree = .object span ms := by
    rw [hvalue] at hroot
    cases ht : d.tree <;> rw [ht] at hroot <;> cases hroot
    exact ⟨_, _, rfl⟩
  refine ⟨(members ms).flatMap field, ?_, ?_⟩
  · rw [packageJson, Document.parse?_text h, htree]
    rfl
  · rw [hvalue, htree]
    exact spans_named span ms

/-- The identifiers and flags of the mentions are those that the value names. -/
theorem labels_of_spans {ns : List Named} {nps : List (String × Place)} {lines : LineIndex}
    (h : spans ns = nps.map fun (n, place) => (n, d.tree.spanAt? place)) :
    (ns.map (Named.mention .npm lines)).map (fun m => (m.purl, m.builtin)) =
      (nps.map (·.1)).map fun n => (Purl.ofName .npm n, Ecosystem.isBuiltin .npm n) := by
  have hnames : ns.map (·.name) = nps.map (·.1) := by
    have hfst := congrArg (List.map (·.1)) h
    simpa [spans, Function.comp_def] using hfst
  rw [← hnames, List.map_map, List.map_map]
  rfl

/-- **What a manifest names does not depend on how it is spelled.** Of two documents of one value that
is an object, both are read; they give the same identifiers in the same order, with the same flags and
as many ranges each; and in each of them the ranges of every identifier are, one by one, the nodes that
name it. -/
theorem packageJson_of_spellings {a b : Document} {vs : List (Option String × Value)}
    (ha : a.Plain) (hb : b.Plain) (hroot : a.value = .object vs) (hvalue : b.value = a.value) :
    ∃ ra rb, packageJson a.text = some ra ∧ packageJson b.text = some rb ∧
      ra.outline = rb.outline ∧
      ∀ p, List.Forall₂ (Covers a) (placesOf p a.value) (ra.rangesOf p) ∧
        List.Forall₂ (Covers b) (placesOf p a.value) (rb.rangesOf p) := by
  obtain ⟨na, hra, hna⟩ := packageJson_document ha hroot
  obtain ⟨nb, hrb, hnb⟩ := packageJson_document hb (hvalue.trans hroot)
  refine ⟨_, _, hra, hrb, ?_, fun p => ⟨?_, ?_⟩⟩
  · refine References.outline_ofMentions ?_
    rw [labels_of_spans hna, labels_of_spans hnb, hvalue]
  · rw [References.rangesOf_ofMentions]
    exact forall₂_covers hna
  · rw [References.rangesOf_ofMentions, ← hvalue]
    exact forall₂_covers hnb

/-- A manifest on one line, whose fields follow each other without a gap. -/
def plainManifest : Document where
  root := .object [] [
    ({ name := .plain "dependencies" (by decide) }, .object [] [
      ({ name := .plain "a/b" (by decide) }, .string (.plain "1" (by decide)))]),
    ({ name := .plain "bundledDependencies" (by decide) }, .array [] [
      ({}, .string (.plain "fs" (by decide)))]),
    ({ name := .plain "overrides" (by decide) }, .object [] [
      ({ name := .plain "a/b@2" (by decide) }, .object [] [
        ({ name := .plain "." (by decide) }, .string (.plain "$fs" (by decide)))])])]

/-- The same manifest with comments in unusual places, and with escapes. -/
def fancyManifest : Document where
  lead := [.line "first".toList (by decide), .blank '\t' (by decide)]
  root := .object [.block "* / *".toList (by decide)] [
    ({ name := ⟨"dependencies", "\\u0064ependencies".toList,
        .cons (.units ["0064".toList] (by decide)) (spellsText_self (by decide))⟩,
       beforeColon := [.line [] (by decide)], afterColon := [.block "/".toList (by decide)] },
      .object [] [
        ({ name := ⟨"a/b", "a\\/b".toList,
            .cons (.plain (by decide) (by decide) (by decide))
              (.cons (.short (by decide)) (spellsText_self (by decide)))⟩,
           after := [.blank '\n' (by decide)] }, .string (.plain "1" (by decide)))]),
    ({ name := .plain "bundledDependencies" (by decide) }, .array [.blank ' ' (by decide)] [
      ({ after := [.line "\"]".toList (by decide)] }, .string (.plain "fs" (by decide)))]),
    ({ name := .plain "overrides" (by decide) }, .object [] [
      ({ name := .plain "a/b@2" (by decide) }, .object [] [
        ({ name := .plain "." (by decide) },
          .string ⟨"$fs", "\\u0024fs".toList,
            .cons (.units ["0024".toList] (by decide)) (spellsText_self (by decide))⟩)])])]
  last := some ⟨"the end".toList, by decide⟩

/-- The two manifests are different texts of one value. -/
theorem packageJson_of_two_manifests :
    plainManifest.Plain ∧ fancyManifest.Plain ∧ fancyManifest.value = plainManifest.value ∧
      plainManifest.text ≠ fancyManifest.text ∧
      ∃ ra rb, packageJson plainManifest.text = some ra ∧ packageJson fancyManifest.text = some rb ∧
        ra.outline = rb.outline ∧
        ∀ p, List.Forall₂ (Covers plainManifest) (placesOf p plainManifest.value) (ra.rangesOf p) ∧
          List.Forall₂ (Covers fancyManifest) (placesOf p plainManifest.value) (rb.rangesOf p) := by
  have hplain : plainManifest.Plain := by decide +kernel
  have hfancy : fancyManifest.Plain := by decide +kernel
  exact ⟨hplain, hfancy, rfl, by decide +kernel, packageJson_of_spellings hplain hfancy rfl rfl⟩

/-- A manifest with one dependency; what follows the field and the further fields are open. -/
def oneDependency (after : Gap) (more : List (Label × Spelling)) : Document where
  root := .object [] (
    ({ name := .plain "dependencies" (by decide), after }, .object [] [
      ({ name := .plain "a" (by decide) }, .string (.plain "1" (by decide)))]) :: more)

/-- A number with a plus sign. -/
def plusNumeral : Numeral where
  text := ['1', 'e', '+', '5']
  grammar :=
    have hwhole : IsWhole ['1'] := .inr ⟨isDigits_singleton (by decide), by decide⟩
    have hpower : IsPower ['e', '+', '5'] :=
      .inr ⟨'e', ['+'], ['5'], .inl rfl, .inr (.inl rfl), isDigits_singleton (by decide), rfl⟩
    .mk false (.mk hwhole (.inl rfl) hpower)

/-- A manifest with a comment that holds a NUL. -/
def nulManifest : Document :=
  oneDependency [.block ['\x00'] (by decide)] []

/-- A manifest with a number that has a plus sign. -/
def plusManifest : Document :=
  oneDependency [] [({ name := .plain "n" (by decide) }, .number plusNumeral)]

/-- A comment that holds a NUL takes away what the manifest names, and so does a number with a plus
sign. -/
theorem packageJson_of_nul_and_plus :
    (∃ vs, nulManifest.value = .object vs) ∧ nulManifest.value = (oneDependency [] []).value ∧
      (packageJson (oneDependency [] []).text).isSome ∧ packageJson nulManifest.text = none ∧
      (∃ vs, plusManifest.value = .object vs) ∧ packageJson plusManifest.text = none := by
  refine ⟨⟨_, rfl⟩, rfl, ?_, ?_, ⟨_, rfl⟩, ?_⟩ <;> decide +kernel

end Documents

end DepScope.Manifest
