import DepScope.Proofs.Text.Reader
import DepScope.Proofs.Toml.Paths

/-!
# DepScope.Proofs.Toml.Legible

The names of keys that have been read from a text.

Keys are decoded in two ways: with what stands in the text kept where the quotes make no sense, and
strictly. What a quoted name may hold makes the two agree: it is on one line and does not look like a
string on several lines (`legible_quoted`). The rest is that all keys of a document come from one
reader (`legible_parse`).
-/

namespace DepScope.Toml

open Text Reader

/-! ## Quoted names -/

theorem isPlainChar_return : isPlainChar '\r' = false := by decide

/-- A text without returns. -/
def NoReturn (cs : List Char) : Prop := '\r' ∉ cs

theorem plainBreaks_of_noReturn {cs : List Char} (h : NoReturn cs) : plainBreaks cs = cs := by
  induction cs with
  | nil => rfl
  | cons c cs ih =>
    simp only [NoReturn, List.mem_cons, not_or] at h
    rw [plainBreaks, ih h.2]
    rintro more rfl
    exact absurd rfl h.1

theorem noReturn_of_hexRun {n k : Nat} {ds : List Char} (h : escapeLength?.hexRun n ds = some k) :
    k = n + 1 ∧ NoReturn (ds.take n) := by
  simp only [escapeLength?.hexRun] at h
  split at h
  · next hdigits =>
    simp only [Bool.and_eq_true, List.all_eq_true] at hdigits
    exact ⟨(Option.some.inj h).symm, fun hmem => absurd (hdigits.2 _ hmem) (by decide)⟩
  · cases h

theorem noReturn_of_escapeLength? {cs : List Char} {n : Nat} (h : escapeLength? cs = some n) :
    NoReturn (cs.take n) := by
  unfold escapeLength? at h
  split at h
  · obtain ⟨rfl, hds⟩ := noReturn_of_hexRun h
    simpa [NoReturn] using hds
  · obtain ⟨rfl, hds⟩ := noReturn_of_hexRun h
    simpa [NoReturn] using hds
  · next c _ _ _ =>
    split at h
    · next hc =>
      cases h
      intro hmem
      simp only [List.take_succ_cons, List.take_zero, List.mem_singleton] at hmem
      rw [← hmem] at hc
      exact absurd hc (by decide)
    · cases h
  · cases h

theorem noReturn_of_basicLength {fuel : Nat} {cs : List Char} {n : Nat}
    (h : basicLength fuel cs = some n) : NoReturn (cs.take n) := by
  induction fuel generalizing cs n with
  | zero => cases h
  | succ fuel ih =>
    cases cs with
    | nil => cases h
    | cons c cs =>
      rw [basicLength] at h
      split at h
      · next hc =>
        cases h
        simp [NoReturn, hc]
      · split at h
        · next hc =>
          obtain ⟨k, hk, h⟩ := Option.bind_eq_some_iff.mp h
          obtain ⟨l, hl, h⟩ := Option.bind_eq_some_iff.mp h
          cases h
          have hescape := noReturn_of_escapeLength? hk
          have hrest := ih hl
          rw [Nat.add_comm l k, List.take_succ_cons, List.take_add]
          simp only [NoReturn, List.mem_cons, List.mem_append, not_or] at hescape hrest ⊢
          exact ⟨by rw [hc]; decide, hescape, hrest⟩
        · split at h
          · next hplain =>
            obtain ⟨l, hl, rfl⟩ := Option.map_eq_some_iff.mp h
            simp only [NoReturn, List.take_succ_cons, List.mem_cons, not_or]
            exact ⟨fun hc => by simp [← hc, isPlainChar_return] at hplain, ih hl⟩
          · cases h

theorem noReturn_of_literalLength {cs : List Char} {n : Nat} (h : literalLength cs = some n) :
    NoReturn (cs.take n) := by
  induction cs generalizing n with
  | nil => cases h
  | cons c cs ih =>
    rw [literalLength] at h
    split at h
    · next hc =>
      cases h
      simp [NoReturn, hc]
    · split at h
      · next hplain =>
        obtain ⟨l, hl, rfl⟩ := Option.map_eq_some_iff.mp h
        simp only [NoReturn, List.take_succ_cons, List.mem_cons, not_or]
        exact ⟨fun hc => by simp [← hc, isPlainChar_return] at hplain, ih hl⟩
      · cases h

/-- A string on one line does not start with three quotes. -/
theorem afterPrefix?_of_lineStringLength? {cs : List Char} {n : Nat}
    (h : lineStringLength? cs = some n) :
    afterPrefix? ['"', '"', '"'] (cs.take n) = none ∧
      afterPrefix? ['\'', '\'', '\''] (cs.take n) = none := by
  unfold lineStringLength? at h
  split at h
  · next cs =>
    obtain ⟨l, hl, rfl⟩ := Option.map_eq_some_iff.mp h
    refine ⟨?_, by simp [afterPrefix?]⟩
    match cs, hl with
    | c :: cs, hl =>
      by_cases hc : c = '"'
      · rw [List.length_cons, basicLength, if_pos hc] at hl
        cases hl
        simp [afterPrefix?]
      · cases l <;> simp [afterPrefix?, Ne.symm hc]
  · next cs =>
    obtain ⟨l, hl, rfl⟩ := Option.map_eq_some_iff.mp h
    refine ⟨by simp [afterPrefix?], ?_⟩
    match cs, hl with
    | c :: cs, hl =>
      by_cases hc : c = '\''
      · rw [literalLength, if_pos hc] at hl
        cases hl
        simp [afterPrefix?]
      · cases l <;> simp [afterPrefix?, Ne.symm hc]
  · cases h

theorem noReturn_of_lineStringLength? {cs : List Char} {n : Nat}
    (h : lineStringLength? cs = some n) : NoReturn (cs.take n) := by
  unfold lineStringLength? at h
  split at h
  · obtain ⟨l, hl, rfl⟩ := Option.map_eq_some_iff.mp h
    have hbody := noReturn_of_basicLength hl
    simpa [NoReturn] using hbody
  · obtain ⟨l, hl, rfl⟩ := Option.map_eq_some_iff.mp h
    have hbody := noReturn_of_literalLength hl
    simpa [NoReturn] using hbody
  · cases h

/-- One name is what it means, if it means anything. -/
def KeyPart.Legible (p : KeyPart) : Prop :=
  ∀ s, (if p.quoted then plainText? p.raw else some (String.ofList p.raw)) = some s → p.name = s

/-- **Quoted names on one line** are decoded alike in both ways. -/
theorem legible_quoted {cs : List Char} {n : Nat} (h : lineStringLength? cs = some n) :
    KeyPart.Legible ⟨true, cs.take n⟩ := by
  intro s hs
  obtain ⟨hbasic, hliteral⟩ := afterPrefix?_of_lineStringLength? h
  have hsame (skips : Char → Bool) : decodeStringWith? skips (cs.take n) =
      decodeString? (cs.take n) := by
    simp [decodeString?, decodeStringWith?, between?, hbasic, hliteral]
  rw [if_pos rfl, plainText?, plainBreaks_of_noReturn (noReturn_of_lineStringLength? h), hsame] at hs
  obtain ⟨text, htext, rfl⟩ := Option.map_eq_some_iff.mp hs
  simp [KeyPart.name, htext]

/-! ## Documents -/

theorem legible_bare (raw : List Char) : KeyPart.Legible ⟨false, raw⟩ := fun s hs => by
  simpa [KeyPart.name] using hs

theorem legible_keyPart : Yields KeyPart.Legible keyPart := by
  refine .orElse (.after fun raw => .result (legible_bare raw)) ((Yields.measured _).bind ?_)
  rintro raw ⟨cs, n, hn, rfl⟩
  exact .result (legible_quoted hn)

theorem legible_of_parts {k : Key} (h : ∀ p ∈ k.parts, p.Legible) : k.Legible := by
  intro names hnames
  rw [Key.names?] at hnames
  rw [Key.names]
  generalize k.parts = parts at h hnames
  induction parts generalizing names with
  | nil => simpa using hnames
  | cons p parts ih =>
    obtain ⟨hp, hparts⟩ := List.forall_mem_cons.mp h
    rw [List.mapM_cons] at hnames
    obtain ⟨s, hs, hnames⟩ := Option.bind_eq_some_iff.mp hnames
    obtain ⟨more, hmore, hnames⟩ := Option.bind_eq_some_iff.mp hnames
    cases hnames
    rw [List.map_cons, hp s hs, ih more hparts hmore]

theorem legible_key : Yields Key.Legible key := by
  refine .after fun start => legible_keyPart.bind fun first hfirst => .after fun stop => ?_
  have hmore : Yields (fun x : KeyPart × Nat => x.1.Legible) (do
      gap
      exactly "."
      gap
      let p ← keyPart
      return (p, ← pos)) :=
    .after fun _ => .after fun _ => .after fun _ => legible_keyPart.bind fun p hp =>
      .after fun _ => .result hp
  refine hmore.many.bind fun more hmore => .result (legible_of_parts ?_)
  refine List.forall_mem_cons.mpr ⟨hfirst, fun p hp => ?_⟩
  obtain ⟨x, hx, rfl⟩ := List.mem_map.mp hp
  exact hmore x hx

/-- Values, items and pairs, nested at most so deep. -/
theorem legible_values (rules : Rules) (depth : Nat) :
    Yields LegibleValue (value rules depth) ∧ Yields LegibleItems (items rules depth) ∧
      Yields LegiblePairs (inlinePairs rules depth) := by
  induction depth with
  | zero =>
    rw [value, items, inlinePairs]
    exact ⟨.fail, .fail, .fail⟩
  | succ depth ih =>
    obtain ⟨hvalue, hitems, hpairs⟩ := ih
    refine ⟨?_, ?_, ?_⟩
    · rw [value]
      refine .after fun start => .after fun cs => ?_
      split
      · exact .after fun _ => hitems.bind fun items h => .after fun _ => .result h
      · exact .after fun _ => .after fun _ => hpairs.bind fun pairs h => .after fun _ => .result h
      · split
        · exact .after fun raw => .after fun _ => .result trivial
        · split
          · exact .after fun raw => .after fun _ => .result trivial
          · exact .fail
    · rw [items]
      refine .after fun _ => .after fun cs => ?_
      split
      · exact .after fun _ => .result trivial
      · refine hvalue.bind fun v hv => .after fun _ => .after fun cs => ?_
        split
        · exact .after fun _ => hitems.bind fun vs hvs => .result ⟨hv, hvs⟩
        · exact .after fun _ => .result ⟨hv, trivial⟩
        · exact .fail
    · rw [inlinePairs]
      refine .after fun cs => ?_
      split
      · exact .after fun _ => .result trivial
      · refine legible_key.bind fun k hk => .after fun _ => .after fun _ => .after fun _ =>
          hvalue.bind fun v hv => .after fun _ => .after fun cs => ?_
        split
        · exact .after fun _ => .result ⟨hk, hv, trivial⟩
        · refine .after fun _ => .after fun _ => .after fun cs => ?_
          split
          · exact .fail
          · exact hpairs.bind fun ps hps => .result ⟨hk, hv, hps⟩
        · exact .fail

theorem legiblePairs_of_forall {ps : List Pair} (h : ∀ p ∈ ps, p.1.Legible ∧ LegibleValue p.2) :
    LegiblePairs ps := by
  induction ps with
  | nil => trivial
  | cons p ps ih =>
    obtain ⟨hp, hps⟩ := List.forall_mem_cons.mp h
    exact ⟨hp.1, hp.2, ih hps⟩

theorem legible_pairLines (rules : Rules) (depth : Nat) :
    Yields LegiblePairs (pairLines rules depth) := by
  have hpair : Yields (fun p : Pair => p.1.Legible ∧ LegibleValue p.2) (pairLine rules depth) :=
    .after fun _ => legible_key.bind fun k hk => .after fun _ => .after fun _ => .after fun _ =>
      (legible_values rules depth).1.bind fun v hv => .after fun _ => .result ⟨hk, hv⟩
  have hline : Yields (fun x : Option Pair => ∀ p ∈ x, p.1.Legible ∧ LegibleValue p.2)
      ((do return some (← pairLine rules depth)) <|> (do emptyLine; return none)) := by
    refine .orElse (hpair.bind fun p hp => .result ?_) (.after fun _ => .result (by simp))
    rintro _ ⟨⟩
    exact hp
  refine hline.many.bind fun got hgot => .result (legiblePairs_of_forall fun p hp => ?_)
  obtain ⟨x, hx, hxp⟩ := List.mem_filterMap.mp hp
  exact hgot x hx p hxp

theorem legible_table (rules : Rules) (depth : Nat) :
    Yields (fun s : Section => s.header.Legible ∧ LegiblePairs s.pairs) (table rules depth) :=
  .after fun _ => .after fun _ => .after fun _ => .after fun _ => legible_key.bind fun _ hk =>
    .after fun _ => .after fun _ => .after fun _ => (legible_pairLines rules depth).bind fun _ hps =>
      .result ⟨hk, hps⟩

/-- **The keys of a document that has been read** are what they mean. -/
theorem legible_parse {rules : Rules} {text : String} {d : Document}
    (h : parse? rules text = some d) : d.Legible := by
  have hdocument (depth : Nat) : Yields Document.Legible (document rules depth) :=
    (legible_pairLines rules depth).bind fun ps hps => (legible_table rules depth).many.bind
      fun ss hss => .after fun _ => .result ⟨hps, hss⟩
  obtain ⟨⟨a, s⟩, hrun, h⟩ := Option.bind_eq_some_iff.mp h
  have hlegible := hdocument _ _ a s hrun
  simp only at h
  split at h
  · cases h
    exact hlegible
  · cases h

end DepScope.Toml
