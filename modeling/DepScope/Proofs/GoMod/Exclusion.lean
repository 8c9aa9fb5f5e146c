import DepScope.Manifest.Kind
import DepScope.Proofs.GoMod.Entries
import DepScope.Proofs.GoMod.Statements
import DepScope.Proofs.Package.Purl

/-!
# DepScope.Proofs.GoMod.Exclusion

What a file of modules reports when it excludes some of them.

1. A module is reported if it is brought in and not excluded, at whatever version; its ranges are those
   of the entries that require it, then those of the entries that put it in the place of another
   (`contains_references`, `rangesOf_references`), each in the order of the file (`entries_ascending`).
2. A statement that excludes modules brings none in (`declared_of_isExclusion`). So such statements may
   be moved between the others: what is reported, in which order and in how many places stays the same
   (`outline_of_moved`).
-/

namespace DepScope.GoMod

open Text Package

variable {f f' g : File} {l : Line} {block block' : Option String} {lines : List (List Token)}
  {text path : String} {ix : LineIndex}

/-! ## What is reported -/

/-- The modules that a file requires. -/
def File.required (f : File) : List String :=
  f.require.map (·.module.path)

/-- The modules that a file puts in the place of others. -/
def File.substitutes (f : File) : List String :=
  f.replace.map (·.new.path)

/-- The modules that a file excludes, at whatever version. -/
def File.excluded (f : File) : List String :=
  f.exclude.map (·.module.path)

theorem excludes_iff : f.excludes path = true ↔ path ∈ f.excluded := by
  simp [File.excludes, File.excluded]

/-- The modules that are reported, with the places of their entries. -/
def File.reported (f : File) : List (String × Stretch) :=
  f.brought.filter fun (path, _) => !f.excludes path

theorem mem_reported {e : String × Stretch} :
    e ∈ f.reported ↔ e ∈ f.brought ∧ e.1 ∉ f.excluded := by
  rw [File.reported, List.mem_filter, ← excludes_iff]
  simp

theorem path_mem_brought :
    (∃ place, (path, place) ∈ f.brought) ↔ path ∈ f.required ∨ path ∈ f.substitutes := by
  simp only [File.brought, File.required, File.substitutes, List.mem_append, List.mem_map,
    Prod.mk.injEq, exists_or]
  refine or_congr ⟨?_, ?_⟩ ⟨?_, ?_⟩
  · rintro ⟨_, r, hr, hpath, -⟩
    exact ⟨r, hr, hpath⟩
  · rintro ⟨r, hr, hpath⟩
    exact ⟨r.place, r, hr, hpath, rfl⟩
  · rintro ⟨_, r, hr, hpath, -⟩
    exact ⟨r, hr, hpath⟩
  · rintro ⟨r, hr, hpath⟩
    exact ⟨r.place, r, hr, hpath, rfl⟩

/-- **The identifiers that are reported**: those of modules brought in and not excluded. -/
theorem contains_references {p : Purl} :
    (f.references ix).contains p = true ↔
      ∃ path, (path ∈ f.required ∨ path ∈ f.substitutes) ∧ path ∉ f.excluded ∧
        p = Purl.ofName .golang path := by
  rw [File.references, References.contains_ofMentions]
  constructor
  · rintro ⟨m, hm, rfl⟩
    obtain ⟨⟨path, place⟩, hreported, rfl⟩ := List.mem_map.mp hm
    obtain ⟨hbrought, hexcluded⟩ := mem_reported.mp hreported
    exact ⟨path, path_mem_brought.mp ⟨place, hbrought⟩, hexcluded, rfl⟩
  · rintro ⟨path, hpath, hexcluded, rfl⟩
    obtain ⟨place, hbrought⟩ := path_mem_brought.mpr hpath
    exact ⟨_, List.mem_map_of_mem (mem_reported.mpr ⟨hbrought, hexcluded⟩), rfl⟩

/-- **The ranges of a module**: one for each entry that requires it, then one for each entry that puts
it in the place of another. -/
theorem rangesOf_references (h : path ∉ f.excluded) :
    (f.references ix).rangesOf (Purl.ofName .golang path) =
      (f.require.filter (·.module.path = path)).map (fun r => ix.rangeOf r.place.span) ++
        (f.replace.filter (·.new.path = path)).map (fun r => ix.rangeOf r.place.span) := by
  have hnot : f.excludes path = false := by
    rw [← Bool.not_eq_true, excludes_iff]
    exact h
  have hkept : f.reported.filter (fun e => decide (e.1 = path)) =
      f.brought.filter (fun e => decide (e.1 = path)) := by
    rw [File.reported, List.filter_filter]
    refine List.filter_congr fun e _ => ?_
    by_cases he : e.1 = path
    · simp [he, hnot]
    · simp [he]
  have hmentions : (f.reported.map fun (path, place) =>
        Mention.ofName .golang path (ix.rangeOf place.span)).filter
          (fun m => decide (m.purl = Purl.ofName .golang path)) =
      (f.reported.filter (fun e => decide (e.1 = path))).map fun (path, place) =>
        Mention.ofName .golang path (ix.rangeOf place.span) := by
    rw [List.filter_map]
    congr 1
    refine List.filter_congr fun e _ => ?_
    simp [Mention.ofName, ofName_inj_of_ne]
  change (References.ofMentions (f.reported.map _)).rangesOf _ = _
  rw [References.rangesOf_ofMentions, hmentions, hkept, File.brought, List.filter_append,
    List.filter_map, List.filter_map]
  simp [Function.comp_def, Mention.ofName]

/-- What is reported does not depend on the places of the entries, nor on the order in which modules are
excluded. -/
theorem outline_references {ix' : LineIndex} (hrequired : f.required = g.required)
    (hsubstitutes : f.substitutes = g.substitutes)
    (hexcluded : ∀ path, path ∈ f.excluded ↔ path ∈ g.excluded) :
    (f.references ix).outline = (g.references ix').outline := by
  have hpaths (f : File) : f.brought.map (·.1) = f.required ++ f.substitutes := by
    simp [File.brought, File.required, File.substitutes, Function.comp_def]
  have hexcludes : f.excludes = g.excludes := by
    funext path
    rw [Bool.eq_iff_iff, excludes_iff, excludes_iff]
    exact hexcluded path
  have hreported : f.reported.map (·.1) = g.reported.map (·.1) := by
    have hfilter (f : File) : f.reported.map (·.1) =
        (f.brought.map (·.1)).filter (fun path => !f.excludes path) := by
      rw [File.reported, List.filter_map]
      rfl
    rw [hfilter, hfilter, hpaths, hpaths, hrequired, hsubstitutes, hexcludes]
  refine References.outline_ofMentions ?_
  have hnames (f : File) (ix : LineIndex) :
      (f.reported.map fun (path, place) => Mention.ofName .golang path (ix.rangeOf place.span)).map
        (fun m => (m.purl, m.builtin)) =
      (f.reported.map (·.1)).map fun path => (Purl.ofName .golang path, isGoStandard path) := by
    simp [Mention.ofName, Function.comp_def, Ecosystem.isBuiltin]
  exact (hnames f ix).trans ((congrArg _ hreported).trans (hnames g ix').symm)

/-! ## The order of the file -/

/-- Places that follow each other, all of them before some words. -/
def Before (places : List Stretch) (ts : List Token) : Prop :=
  places.Pairwise (fun a b => a.stop.byte ≤ b.start.byte) ∧
    ∀ a ∈ places, ∀ t ∈ ts, a.stop.byte ≤ t.place.start.byte

theorem Before.rest {places : List Stretch} {as bs : List Token} (h : Before places (as ++ bs)) :
    Before places bs :=
  ⟨h.1, fun a ha t ht => h.2 a ha t (List.mem_append_right as ht)⟩

/-- The place of a line follows those before it. -/
theorem Before.concat {places : List Stretch} {ts : List Token}
    (hascending : (l.words ++ ts).Pairwise fun t u => t.place.stop.byte ≤ u.place.start.byte)
    (h : Before places (l.words ++ ts)) : Before (places ++ [l.place]) ts := by
  obtain ⟨init, last, hlast, hplace⟩ := l.exists_last
  have hfirst : l.first ∈ l.words ++ ts := List.mem_append_left ts List.mem_cons_self
  have hmem : last ∈ l.words := by simp [hlast]
  refine ⟨?_, fun a ha t ht => ?_⟩
  · refine List.pairwise_append.mpr ⟨h.1, by simp, fun a ha b hb => ?_⟩
    obtain rfl := List.mem_singleton.mp hb
    rw [hplace]
    exact h.2 a ha l.first hfirst
  · obtain ha | ha := List.mem_append.mp ha
    · exact h.2 a ha t (List.mem_append_right _ ht)
    · obtain rfl := List.mem_singleton.mp ha
      rw [hplace]
      exact (List.pairwise_append.mp hascending).2.2 last hmem t ht

/-- A line leaves the file as it is, or applies a verb: that of the open block, or its first word. -/
theorem line_applies (h : f.line block l = .ok (f', block')) :
    f' = f ∨ ∃ args, f.apply (block.getD l.first.text) args l.place = .ok f' := by
  have happly {verb : String} {args : List Token} {b : Option String}
      (h : (f.apply verb args l.place).map (·, b) = .ok (f', block')) :
      f.apply verb args l.place = .ok f' := by
    cases hfile : f.apply verb args l.place with
    | error e => rw [hfile] at h; cases h
    | ok g =>
      rw [hfile] at h
      cases h
      rfl
  obtain ⟨first, others⟩ := l
  cases block with
  | some verb =>
    simp only [File.line] at h
    split at h
    · split at h
      · cases h
        exact .inl rfl
      · cases h
    · exact .inr ⟨_, happly h⟩
  | none =>
    simp only [File.line] at h
    split at h
    · cases h
    · split at h
      · split at h
        · split at h
          · cases h
            exact .inl rfl
          · split at h
            · cases h
              exact .inl rfl
            · cases h
          · cases h
        · exact .inr ⟨_, happly h⟩
      · exact .inr ⟨_, happly h⟩

/-- All that a line can do to the entries of a file that bring modules in: it adds at most one, with its
own place. -/
theorem line_entries (h : f.line block l = .ok (f', block')) :
    (f'.require = f.require ∧ f'.replace = f.replace) ∨
      (∃ e, e.place = l.place ∧ f'.require = f.require ++ [e] ∧ f'.replace = f.replace) ∨
      (∃ e, e.place = l.place ∧ f'.require = f.require ∧ f'.replace = f.replace ++ [e]) := by
  obtain rfl | ⟨args, happly⟩ := line_applies h
  · exact .inl ⟨rfl, rfl⟩
  · obtain hsame | ⟨_, _, -, -, hrequire, hreplace⟩ | ⟨_, _, -, -, hrequire, hreplace⟩ :=
      apply_cases happly
    · exact .inl hsame
    · exact .inr (.inl ⟨_, rfl, hrequire, hreplace⟩)
    · exact .inr (.inr ⟨_, rfl, hrequire, hreplace⟩)

/-- Entries that follow each other before lines are followed by those of the lines. -/
theorem lines_before (h : f.lines block lines = .ok f')
    (hascending : lines.flatten.Pairwise fun t u => t.place.stop.byte ≤ u.place.start.byte)
    (hrequire : Before (f.require.map (·.place)) lines.flatten)
    (hreplace : Before (f.replace.map (·.place)) lines.flatten) :
    Before (f'.require.map (·.place)) [] ∧ Before (f'.replace.map (·.place)) [] := by
  induction lines generalizing f block with
  | nil =>
    rw [File.lines] at h
    split at h
    · cases h
    · cases h
      exact ⟨hrequire, hreplace⟩
  | cons ts lines ih =>
    cases ts with
    | nil => exact ih h hascending hrequire hreplace
    | cons first others =>
      rw [File.lines] at h
      cases hline : f.line block ⟨first, others⟩ with
      | error => rw [hline] at h; cases h
      | ok r =>
        obtain ⟨g, block'⟩ := r
        rw [hline] at h
        have hrest := (List.pairwise_append.mp hascending).2.1
        refine ih h hrest ?_ ?_
        all_goals
          obtain ⟨hsame, hsame'⟩ | ⟨e, hplace, hmore, hsame⟩ | ⟨e, hplace, hsame, hmore⟩ :=
            line_entries hline
        · rw [hsame]
          exact hrequire.rest
        · rw [hmore, List.map_append, List.map_singleton, hplace]
          exact Before.concat hascending hrequire
        · rw [hsame]
          exact hrequire.rest
        · rw [hsame']
          exact hreplace.rest
        · rw [hsame]
          exact hreplace.rest
        · rw [hmore, List.map_append, List.map_singleton, hplace]
          exact Before.concat hascending hreplace

/-- **Entries are kept in the order of the file.** -/
theorem entries_ascending (h : File.parse text = .ok f) :
    (f.require.map (·.place)).Pairwise (fun a b => a.stop.byte ≤ b.start.byte) ∧
      (f.replace.map (·.place)).Pairwise (fun a b => a.stop.byte ≤ b.start.byte) := by
  rw [File.parse] at h
  cases htokens : tokenize text with
  | error => rw [htokens] at h; cases h
  | ok lines =>
    rw [htokens] at h
    have hfaithful := faithful_of_tokenize htokens
    have hnone : Before [] lines.flatten := ⟨.nil, by simp⟩
    obtain ⟨hrequire, hreplace⟩ := lines_before h hfaithful.ascending hnone hnone
    exact ⟨hrequire.1, hreplace.1⟩

/-! ## Statements that exclude modules -/

/-- Does each line start with the verb that excludes modules, or stand in a block of it? -/
def excludesOnly : Option String → List (List Token) → Bool
  | _, [] => true
  | none, line :: lines =>
    line.head?.any (·.is "exclude") && excludesOnly (blockAfter none line) lines
  | some verb, line :: lines => verb == "exclude" && excludesOnly (blockAfter verb line) lines

/-- Does a text consist of statements that exclude modules? -/
def isExclusion (text : String) : Bool :=
  (tokenize text).toOption.any (excludesOnly none)

/-- Lines that exclude modules bring none in. -/
theorem lines_exclude (hexcludes : excludesOnly block lines = true)
    (h : f.lines block lines = .ok f') : f'.require = f.require ∧ f'.replace = f.replace := by
  induction lines generalizing f block with
  | nil =>
    rw [File.lines] at h
    split at h
    · cases h
    · cases h
      exact ⟨rfl, rfl⟩
  | cons line lines ih =>
    cases line with
    | nil =>
      cases block with
      | none => cases hexcludes
      | some verb => exact ih (Bool.and_eq_true_iff.mp hexcludes).2 h
    | cons first others =>
      have hverb : block.getD first.text = "exclude" ∧
          excludesOnly (blockAfter block (first :: others)) lines = true := by
        cases block with
        | none =>
          obtain ⟨hfirst, hrest⟩ := Bool.and_eq_true_iff.mp hexcludes
          have hword : first.is "exclude" = true := by simpa using hfirst
          exact ⟨by simpa using (Bool.and_eq_true_iff.mp hword).2, hrest⟩
        | some verb =>
          obtain ⟨hblock, hrest⟩ := Bool.and_eq_true_iff.mp hexcludes
          exact ⟨by simpa using hblock, hrest⟩
      rw [File.lines] at h
      cases hline : f.line block ⟨first, others⟩ with
      | error => rw [hline] at h; cases h
      | ok r =>
        obtain ⟨g, block'⟩ := r
        rw [hline] at h
        obtain ⟨rfl, -⟩ := line_brought hline
        obtain ⟨hrequire, hreplace⟩ := ih hverb.2 h
        have hsame : g.require = f.require ∧ g.replace = f.replace := by
          obtain rfl | ⟨args, happly⟩ := line_applies hline
          · exact ⟨rfl, rfl⟩
          · rw [hverb.1] at happly
            obtain hsame | ⟨_, _, hne, -⟩ | ⟨_, _, hne, -⟩ := apply_cases happly
            · exact hsame
            · exact absurd hne (by decide)
            · exact absurd hne (by decide)
        exact ⟨hrequire.trans hsame.1, hreplace.trans hsame.2⟩

/-- **A statement that excludes modules** brings none in. -/
theorem declared_of_isExclusion (h : isExclusion text = true) :
    (declared text).required = [] ∧ (declared text).substitutes = [] := by
  cases htokens : tokenize text with
  | error e => simp [isExclusion, htokens, Except.toOption] at h
  | ok lines =>
    have hexcludes : excludesOnly none lines = true := by
      simpa [isExclusion, htokens, Except.toOption] using h
    have hparse : File.parse text = File.lines {} none lines := by
      rw [File.parse, htokens]
      rfl
    cases hlines : File.lines {} none lines with
    | error e => simp [declared, hparse, hlines, Except.toOption, File.required, File.substitutes]
    | ok f =>
      obtain ⟨hrequire, hreplace⟩ := lines_exclude hexcludes hlines
      simp [declared, hparse, hlines, Except.toOption, File.required, File.substitutes, File.unplaced,
        hrequire, hreplace]

/-! ## Moving statements -/

/-- Statements in another order, in which only those have moved that exclude modules. -/
def Moved (as bs : List String) : Prop :=
  as.Perm bs ∧ as.filter (!isExclusion ·) = bs.filter (!isExclusion ·)

theorem required_followedBy (f g : File) :
    (f.followedBy g).required = f.required ++ g.required := by
  simp [File.followedBy, File.required]

theorem substitutes_followedBy (f g : File) :
    (f.followedBy g).substitutes = f.substitutes ++ g.substitutes := by
  simp [File.followedBy, File.substitutes]

theorem excluded_followedBy (f g : File) :
    (f.followedBy g).excluded = f.excluded ++ g.excluded := by
  simp [File.followedBy, File.excluded]

/-- What statements bring in can be told from those that do not exclude modules. -/
theorem brought_declaredAll (as : List String) :
    (declaredAll as).required =
        (as.filter (!isExclusion ·)).flatMap (fun a => (declared a).required) ∧
      (declaredAll as).substitutes =
        (as.filter (!isExclusion ·)).flatMap (fun a => (declared a).substitutes) := by
  induction as with
  | nil => exact ⟨rfl, rfl⟩
  | cons a as ih =>
    obtain ⟨hrequired, hsubstitutes⟩ := ih
    have hcons : declaredAll (a :: as) = (declared a).followedBy (declaredAll as) := rfl
    rw [hcons, required_followedBy, substitutes_followedBy, hrequired, hsubstitutes]
    cases ha : isExclusion a with
    | true =>
      obtain ⟨hnone, hnone'⟩ := declared_of_isExclusion ha
      simp [ha, hnone, hnone']
    | false => simp [ha]

theorem excluded_declaredAll (as : List String) :
    (declaredAll as).excluded = as.flatMap fun a => (declared a).excluded := by
  induction as with
  | nil => rfl
  | cons a as ih =>
    have hcons : declaredAll (a :: as) = (declared a).followedBy (declaredAll as) := rfl
    rw [hcons, excluded_followedBy, ih, List.flatMap_cons]

theorem declared_of_parse (h : File.parse text = .ok f) :
    (declared text).required = f.required ∧ (declared text).substitutes = f.substitutes ∧
      (declared text).excluded = f.excluded := by
  simp [declared, h, Except.toOption, File.unplaced, File.required, File.substitutes, File.excluded,
    Entry.unplaced, Replacement.unplaced, Function.comp_def]

/-- **Statements that exclude modules may be moved.** -/
theorem outline_of_moved {as bs : List String} (has : ∀ a ∈ as, Accepted a) (h : Moved as bs)
    (hf : File.parse ("\n".intercalate as) = .ok f) :
    ∃ g, File.parse ("\n".intercalate bs) = .ok g ∧
      ∀ ix ix', (g.references ix').outline = (f.references ix).outline := by
  have hbs : ∀ b ∈ bs, Accepted b := fun b hb => has b (h.1.mem_iff.mpr hb)
  obtain ⟨⟨g, hg⟩, hdeclared⟩ := declared_join hbs
  have hdeclared' := (declared_join has).2
  obtain ⟨hrequired, hsubstitutes, hexcluded⟩ := declared_of_parse hg
  obtain ⟨hrequired', hsubstitutes', hexcluded'⟩ := declared_of_parse hf
  obtain ⟨hbrought, hplaced⟩ := brought_declaredAll bs
  obtain ⟨hbrought', hplaced'⟩ := brought_declaredAll as
  rw [hdeclared] at hrequired hsubstitutes hexcluded
  rw [hdeclared'] at hrequired' hsubstitutes' hexcluded'
  refine ⟨g, hg, fun ix ix' => outline_references ?_ ?_ fun path => ?_⟩
  · rw [← hrequired, ← hrequired', hbrought, hbrought', h.2]
  · rw [← hsubstitutes, ← hsubstitutes', hplaced, hplaced', h.2]
  · rw [← hexcluded, ← hexcluded', excluded_declaredAll, excluded_declaredAll]
    exact (h.1.flatMap_right _).symm.mem_iff

theorem extract_of_parse (h : File.parse text = .ok f) :
    Manifest.extract .goMod text = some (f.references (LineIndex.ofText text)) := by
  simp [Manifest.extract, h, Except.toOption]

/-- **Exclusion is complete, wherever it stands.** A file that can be read reports the identifiers of
the modules that it requires or puts in the place of others, and that it does not exclude at any
version. The ranges of such a module are those of its requirements and then of its replacements, in the
order of the file. If the file is put together from statements, those among them that exclude modules
may stand anywhere between the others: the same identifiers are reported, in the same order and in as
many places. -/
theorem exclusion_complete (h : File.parse text = .ok f) :
    ∃ refs, Manifest.extract .goMod text = some refs ∧
      (∀ p, refs.contains p = true ↔
        ∃ path, (path ∈ f.required ∨ path ∈ f.substitutes) ∧ path ∉ f.excluded ∧
          p = Purl.ofName .golang path) ∧
      (∀ path, path ∉ f.excluded →
        refs.rangesOf (Purl.ofName .golang path) =
          (f.require.filter (·.module.path = path)).map
              (fun r => (LineIndex.ofText text).rangeOf r.place.span) ++
            (f.replace.filter (·.new.path = path)).map
              (fun r => (LineIndex.ofText text).rangeOf r.place.span)) ∧
      ((f.require.map (·.place)).Pairwise (fun a b => a.stop.byte ≤ b.start.byte) ∧
        (f.replace.map (·.place)).Pairwise (fun a b => a.stop.byte ≤ b.start.byte)) ∧
      ∀ as bs, text = "\n".intercalate as → (∀ a ∈ as, Accepted a) → Moved as bs →
        ∃ refs', Manifest.extract .goMod ("\n".intercalate bs) = some refs' ∧
          refs'.outline = refs.outline := by
  refine ⟨_, extract_of_parse h, fun p => contains_references, fun path hpath =>
    rangesOf_references hpath, entries_ascending h, ?_⟩
  rintro as bs rfl has hmoved
  obtain ⟨g, hg, houtline⟩ := outline_of_moved has hmoved h
  exact ⟨_, extract_of_parse hg, houtline _ _⟩

/-- A block of exclusions before and behind what it concerns. A module that is required at one version
and excluded at another is not reported. -/
theorem exclusion_of_moved_block :
    let exclusion := "exclude ( // withdrawn\n\tx.org/b v2\n\t\"x.org/d\" v1\n)"
    let as := ["module m", exclusion, "require (\n\tx.org/a v1\n\tx.org/b v1\n)",
      "replace x.org/c => x.org/a v3"]
    let bs := ["module m", "require (\n\tx.org/a v1\n\tx.org/b v1\n)",
      "replace x.org/c => x.org/a v3", exclusion]
    Accepted ("\n".intercalate as) ∧ (∀ a ∈ as, Accepted a) ∧ Moved as bs ∧
      ∃ refs refs', Manifest.extract .goMod ("\n".intercalate as) = some refs ∧
        Manifest.extract .goMod ("\n".intercalate bs) = some refs' ∧
        refs.contains (Purl.ofName .golang "x.org/b") = false ∧
        refs.rangesOf (Purl.ofName .golang "x.org/a") = [.ofCoords 6 1 6 11, .ofCoords 9 0 9 29] ∧
        refs'.outline = refs.outline ∧ refs'.outline = [(Purl.ofName .golang "x.org/a", false, 2)] := by
  intro exclusion as bs
  have haccepted (a : String) (h : (File.parse a).toOption.isSome = true) : Accepted a := by
    cases hf : File.parse a with
    | error e => simp [hf, Except.toOption] at h
    | ok f => exact ⟨f, hf⟩
  have hjoined : Accepted ("\n".intercalate as) := haccepted _ (by decide +kernel)
  have hsingle : ∀ a ∈ as, Accepted a := by
    have hall : ∀ a ∈ as, (File.parse a).toOption.isSome = true := by decide +kernel
    exact fun a ha => haccepted a (hall a ha)
  have hmoved : Moved as bs := ⟨by decide +kernel, by decide +kernel⟩
  obtain ⟨f, hf⟩ := id hjoined
  obtain ⟨refs, hrefs, -, -, -, hmove⟩ := exclusion_complete hf
  obtain ⟨refs', hrefs', houtline⟩ := hmove as bs rfl hsingle hmoved
  have hread : (Manifest.extract .goMod ("\n".intercalate as)).map (fun refs =>
      (refs.contains (Purl.ofName .golang "x.org/b"), refs.rangesOf (Purl.ofName .golang "x.org/a"),
        refs.outline)) =
      some (false, [.ofCoords 6 1 6 11, .ofCoords 9 0 9 29],
        [(Purl.ofName .golang "x.org/a", false, 2)]) := by
    decide +kernel
  rw [hrefs] at hread
  simp only [Option.map_some, Option.some.injEq, Prod.mk.injEq] at hread
  obtain ⟨hexcluded, hranges, hread⟩ := hread
  exact ⟨hjoined, hsingle, hmoved, refs, refs', hrefs, hrefs', hexcluded, hranges, houtline,
    houtline.trans hread⟩

end DepScope.GoMod
