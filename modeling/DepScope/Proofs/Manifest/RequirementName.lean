import DepScope.Proofs.Manifest.Requirements

/-!
# DepScope.Proofs.Manifest.RequirementName

The name in front of a requirement, by its grammar:

* blanks;
* the name, made of letters, digits, dots, underscores and dashes, the first and the last of which is a
  letter or a digit;
* nothing, or a rest that starts with a blank or with one of `< ! > ~ = @ ( [ ;`.

A text can be taken apart like this in one way at most, since no character of a name is a blank or
starts a rest (`RequirementSplit.unique`), and what is read is that way (`requirementName?_iff`).
`requirementSpan?_grammar` says so of the bytes of a text.
-/

namespace DepScope.Manifest

open Text

variable {c : Char} {cs spec blanks name rest : List Char}

/-! ## The grammar -/

/-- A letter from `A` to `Z` in either case, or a digit from `0` to `9`. Letters beyond ASCII that have
the same case folding as one of these count as it: the long s and the kelvin sign. -/
def IsNameLetter (c : Char) : Prop :=
  ('A' ≤ c ∧ c ≤ 'Z') ∨ ('a' ≤ c ∧ c ≤ 'z') ∨ ('0' ≤ c ∧ c ≤ '9') ∨ c = '\u017F' ∨ c = '\u212A'

/-- The name of a package in a requirement. -/
structure IsRequirementName (name : List Char) : Prop where
  chars : ∀ c ∈ name, IsNameLetter c ∨ c = '.' ∨ c = '_' ∨ c = '-'
  first : ∃ c ∈ name.head?, IsNameLetter c
  last : ∃ c ∈ name.getLast?, IsNameLetter c

/-- What may follow a name. -/
def IsRequirementRest (rest : List Char) : Prop :=
  ∀ c ∈ rest.head?, isBlank c = true ∨ c ∈ ['<', '!', '>', '~', '=', '@', '(', '[', ';']

/-- A requirement, taken apart. -/
structure RequirementSplit (spec blanks name rest : List Char) : Prop where
  whole : spec = blanks ++ name ++ rest
  blank : ∀ c ∈ blanks, isBlank c = true
  name : IsRequirementName name
  ends : IsRequirementRest rest

theorem isNameEdge_iff : isNameEdge c = true ↔ IsNameLetter c := by
  simp only [isNameEdge, isAsciiAlnum, isAsciiLetter, isAsciiDigit, Bool.or_eq_true,
    Bool.and_eq_true, decide_eq_true_eq, IsNameLetter]
  tauto

theorem isNameInner_iff :
    isNameInner c = true ↔ IsNameLetter c ∨ c = '.' ∨ c = '_' ∨ c = '-' := by
  simp only [isNameInner, Bool.or_eq_true, decide_eq_true_eq, isNameEdge_iff, or_assoc]

theorem endsName_iff : endsName rest = true ↔ IsRequirementRest rest := by
  cases rest with
  | nil => simp [endsName, IsRequirementRest]
  | cons c rest => simp [endsName, IsRequirementRest]

/-! ## Reading -/

/-- No character of a name starts a rest. -/
theorem isNameInner_of_isRequirementRest (h : IsRequirementRest (c :: rest)) :
    isNameInner c = false := by
  obtain hblank | hsign := h c rfl
  · by_contra hinner
    rw [isBlank_of_isNameInner (by simpa using hinner)] at hblank
    cases hblank
  · have hall :
        ['<', '!', '>', '~', '=', '@', '(', '[', ';'].all (fun c => !isNameInner c) = true := by
      decide
    simpa using List.all_eq_true.mp hall c hsign

/-- The longest name is a name. -/
theorem isRequirementName_leadingName (h : leadingName cs ≠ []) :
    IsRequirementName (leadingName cs) := by
  cases cs with
  | nil => exact absurd rfl h
  | cons c cs =>
    by_cases hc : isNameEdge c = true
    · rw [leadingName, if_pos hc]
      have hsub := List.rdropWhile_prefix (fun x => !isNameEdge x) (cs.takeWhile isNameInner)
      have hlast := List.rdropWhile_last_not (fun x => !isNameEdge x) (cs.takeWhile isNameInner)
      rw [List.rdropWhile] at hsub hlast
      generalize ((cs.takeWhile isNameInner).reverse.dropWhile fun x => !isNameEdge x).reverse = more
        at *
      refine ⟨?_, ⟨c, rfl, isNameEdge_iff.mp hc⟩, ?_⟩
      · intro x hx
        obtain rfl | hx := List.mem_cons.mp hx
        · exact .inl (isNameEdge_iff.mp hc)
        · exact isNameInner_iff.mp (List.mem_takeWhile_imp (hsub.subset hx))
      · cases more with
        | nil => exact ⟨c, rfl, isNameEdge_iff.mp hc⟩
        | cons x more =>
          refine ⟨(x :: more).getLast (by simp), ?_, ?_⟩
          · rw [List.getLast?_cons_cons, List.getLast?_eq_some_getLast (by simp)]
            rfl
          · rw [← isNameEdge_iff]
            simpa using hlast (by simp)
    · rw [leadingName, if_neg hc] at h
      exact absurd rfl h

/-- A name is the longest one wherever a rest follows it. -/
theorem leadingName_append (hname : IsRequirementName name) (hrest : IsRequirementRest rest) :
    leadingName (name ++ rest) = name := by
  obtain ⟨hchars, ⟨c, hc, hfirst⟩, hlast⟩ := hname
  obtain ⟨more, rfl⟩ : ∃ more, name = c :: more := by
    cases name with
    | nil => cases hc
    | cons x more =>
      cases hc
      exact ⟨more, rfl⟩
  have hinner : ∀ x ∈ more, isNameInner x = true := fun x hx =>
    isNameInner_iff.mpr (hchars x (List.mem_cons_of_mem _ hx))
  have htake : (more ++ rest).takeWhile isNameInner = more := by
    rw [List.takeWhile_append_of_pos hinner]
    cases rest with
    | nil => simp
    | cons x rest =>
      rw [List.takeWhile_cons_of_neg (by simp [isNameInner_of_isRequirementRest hrest]),
        List.append_nil]
  have hdrop : more.rdropWhile (fun x => !isNameEdge x) = more := by
    refine List.rdropWhile_eq_self_iff.mpr fun hne => ?_
    obtain ⟨x, hx, hedge⟩ := hlast
    obtain ⟨y, ys, rfl⟩ := List.exists_cons_of_ne_nil hne
    rw [List.getLast?_cons_cons, List.getLast?_eq_some_getLast hne] at hx
    cases hx
    simp [isNameEdge_iff.mpr hedge]
  rw [List.rdropWhile] at hdrop
  rw [List.cons_append, leadingName, if_pos (isNameEdge_iff.mpr hfirst), htake, hdrop]

/-- **What is read in front of a requirement** is how it can be taken apart. -/
theorem requirementName?_iff :
    requirementName? spec = some (blanks, name) ↔ ∃ rest, RequirementSplit spec blanks name rest := by
  rw [requirementName?_eq_some_iff]
  constructor
  · rintro ⟨rfl, rfl, hne, hends⟩
    refine ⟨_, ?_, fun c hc => List.mem_takeWhile_imp hc, isRequirementName_leadingName hne,
      endsName_iff.mp hends⟩
    rw [List.append_assoc, ← List.prefix_append_drop (leadingName_isPrefix _),
      List.takeWhile_append_dropWhile]
  · rintro ⟨rest, rfl, hblanks, hname, hends⟩
    obtain ⟨c, hc, hfirst⟩ := hname.first
    obtain ⟨more, rfl⟩ : ∃ more, name = c :: more := ⟨name.tail, List.eq_cons_of_mem_head? hc⟩
    have hlead := leadingName_append hname hends
    have hblank : isBlank c = false :=
      isBlank_of_isNameInner (isNameInner_of_isNameEdge (isNameEdge_iff.mpr hfirst))
    have hdrop : (blanks ++ (c :: more) ++ rest).dropWhile isBlank = c :: more ++ rest := by
      rw [List.append_assoc, List.dropWhile_append_of_pos hblanks, List.cons_append,
        List.dropWhile_cons_of_neg (by simp [hblank])]
    refine ⟨?_, ?_, by simp, ?_⟩
    · rw [List.append_assoc, List.takeWhile_append_of_pos hblanks, List.cons_append,
        List.takeWhile_cons_of_neg (by simp [hblank]), List.append_nil]
    · rw [hdrop, hlead]
    · rw [hdrop, List.drop_left' rfl, endsName_iff]
      exact hends

/-- A requirement can be taken apart in one way only. -/
theorem RequirementSplit.unique {blanks' name' rest' : List Char}
    (h : RequirementSplit spec blanks name rest) (h' : RequirementSplit spec blanks' name' rest') :
    blanks = blanks' ∧ name = name' ∧ rest = rest' := by
  have hread := requirementName?_iff.mpr ⟨rest, h⟩
  have hread' := requirementName?_iff.mpr ⟨rest', h'⟩
  rw [hread, Option.some.injEq, Prod.mk.injEq] at hread'
  obtain ⟨rfl, rfl⟩ := hread'
  exact ⟨rfl, rfl, List.append_cancel_left (h.whole.symm.trans h'.whole)⟩

/-- **The name of a requirement is read by its grammar**: a text has a name at a place exactly if it is
blanks up to where the place starts, a name up to where it stops, and a rest; and there is one way at
most to take a text apart like this. -/
theorem requirementSpan?_grammar :
    (∀ (spec : String) (start stop : Nat) (name : String),
      requirementSpan? spec = some (⟨start, stop⟩, name) ↔
        ∃ blanks rest, RequirementSplit spec.toList blanks name.toList rest ∧
          start = byteLength blanks ∧ stop = byteLength (blanks ++ name.toList)) ∧
    ∀ spec blanks name rest blanks' name' rest',
      RequirementSplit spec blanks name rest → RequirementSplit spec blanks' name' rest' →
        blanks = blanks' ∧ name = name' ∧ rest = rest' := by
  refine ⟨fun spec start stop name => ?_, fun _ _ _ _ _ _ _ h h' => h.unique h'⟩
  rw [requirementSpan?, Option.map_eq_some_iff]
  constructor
  · rintro ⟨⟨blanks, chars⟩, hread, heq⟩
    obtain ⟨hspan, rfl⟩ := Prod.mk.inj heq
    obtain ⟨rfl, rfl⟩ := Span.mk.inj hspan
    obtain ⟨rest, hsplit⟩ := requirementName?_iff.mp hread
    refine ⟨blanks, rest, ?_, rfl, ?_⟩
    · rwa [String.toList_ofList]
    · rw [String.toList_ofList, byteLength_append]
  · rintro ⟨blanks, rest, hsplit, rfl, rfl⟩
    refine ⟨(blanks, name.toList), requirementName?_iff.mpr ⟨rest, hsplit⟩, ?_⟩
    simp only [byteLength_append, String.ofList_toList]

/-- A name with a letter beyond ASCII, before a sign and behind a blank beyond ASCII. -/
theorem requirementSpan?_of_kelvin :
    RequirementSplit "\u3000\u212Aelvin-2.x>=1".toList ['\u3000'] "\u212Aelvin-2.x".toList
        ">=1".toList ∧
      requirementSpan? "\u3000\u212Aelvin-2.x>=1" = some (⟨3, 15⟩, "\u212Aelvin-2.x") ∧
      ∀ blanks name rest, RequirementSplit "\u3000\u212Aelvin-2.x>=1".toList blanks name rest →
        blanks = ['\u3000'] ∧ name = "\u212Aelvin-2.x".toList ∧ rest = ">=1".toList := by
  have hsplit : RequirementSplit "\u3000\u212Aelvin-2.x>=1".toList ['\u3000']
      "\u212Aelvin-2.x".toList ">=1".toList := by
    refine ⟨by decide, List.all_eq_true.mp (by decide), ⟨?_, ?_, ?_⟩, ?_⟩
    · simp only [← isNameInner_iff]
      exact List.all_eq_true.mp (by decide)
    · exact ⟨'\u212A', rfl, isNameEdge_iff.mp (by decide)⟩
    · exact ⟨'x', rfl, isNameEdge_iff.mp (by decide)⟩
    · exact endsName_iff.mp (by decide)
  refine ⟨hsplit, ?_, fun blanks name rest h => ?_⟩
  · exact (requirementSpan?_grammar.1 _ 3 15 _).mpr ⟨['\u3000'], ">=1".toList, hsplit, rfl, rfl⟩
  · exact requirementSpan?_grammar.2 _ _ _ _ _ _ _ h hsplit

end DepScope.Manifest
