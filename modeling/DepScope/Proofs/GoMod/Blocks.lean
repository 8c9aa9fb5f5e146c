import DepScope.GoMod.File
import DepScope.Proofs.GoMod.Words

/-!
# DepScope.Proofs.GoMod.Blocks

A block says its verb once for several lines, and that is all it does.

1. What a file declares does not depend on where its words stand (`through_unplaced`), so a text may
   be replaced by another one with the same words on its lines (`unplaced_parse`).
2. Inside of a block a line means what it means behind the verb of the block (`through_block`).
3. So a block may be written as separate lines (`parse_block_eq_separate`).
-/

namespace DepScope.GoMod

variable {f : File} {block : Option String}

/-! ## Forgetting places -/

/-- An entry without its place. -/
def Entry.unplaced (e : Entry) : Entry :=
  { e with place := .nowhere }

/-- A replacement without its place. -/
def Replacement.unplaced (r : Replacement) : Replacement :=
  { r with place := .nowhere }

/-- What a file declares, without places. -/
def File.unplaced (f : File) : File :=
  { f with
    require := f.require.map Entry.unplaced
    exclude := f.exclude.map Entry.unplaced
    replace := f.replace.map Replacement.unplaced }

@[simp] theorem Token.is_unplaced (t : Token) (s : String) : t.unplaced.is s = t.is s := rfl

@[simp] theorem Token.quoted_unplaced (t : Token) : t.unplaced.quoted = t.quoted := rfl

@[simp] theorem Token.text_unplaced (t : Token) : t.unplaced.text = t.text := rfl

theorem moduleVersion?_unplaced (args : List Token) :
    moduleVersion? (args.map Token.unplaced) = moduleVersion? args := by
  match args with
  | [] | [_] | [_, _] | _ :: _ :: _ :: _ => rfl

theorem splitArrow?_unplaced (args : List Token) :
    splitArrow? (args.map Token.unplaced) =
      (splitArrow? args).map fun r => (r.1.map Token.unplaced, r.2.map Token.unplaced) := by
  induction args with
  | nil => rfl
  | cons t args ih =>
    rw [List.map_cons, splitArrow?, splitArrow?, Token.is_unplaced, ih]
    split
    · rfl
    · cases splitArrow? args <;> rfl

/-- What a verb declares, up to places. -/
theorem apply_unplaced (f : File) (verb : String) (args : List Token) (place : Stretch) :
    (f.apply verb args place).toOption.map File.unplaced =
      (f.unplaced.apply verb (args.map Token.unplaced) .nowhere).toOption := by
  unfold File.apply
  split
  · match args with
    | [] | [_] | _ :: _ :: _ => rfl
  · match args with
    | [] | [_] | _ :: _ :: _ => rfl
  · match args with
    | [] | [_] | _ :: _ :: _ :: _ => rfl
    | [path, version] => simp [Except.toOption, File.unplaced, Entry.unplaced]
  · match args with
    | [] | [_] | _ :: _ :: _ :: _ => rfl
    | [path, version] => simp [Except.toOption, File.unplaced, Entry.unplaced]
  · rw [splitArrow?_unplaced]
    cases splitArrow? args with
    | none => rfl
    | some r =>
      simp only [Option.map_some, moduleVersion?_unplaced]
      split
      · simp [Except.toOption, File.unplaced, Replacement.unplaced]
      · rfl
  · rfl

/-- A line without places. -/
def Line.unplaced (l : Line) : Line :=
  ⟨l.first.unplaced, l.others.map Token.unplaced⟩

theorem Line.place_unplaced (l : Line) : l.unplaced.place = .nowhere := by
  rw [place, unplaced, List.getLast?_map]
  cases l.others.getLast? <;> rfl

/-- What a line means, up to places. -/
theorem line_unplaced (f : File) (block : Option String) (l : Line) :
    (f.line block l).toOption.map (fun r => (r.1.unplaced, r.2)) =
      (f.unplaced.line block l.unplaced).toOption := by
  have happly (verb : String) (args : List Token) (b : Option String) :
      ((f.apply verb args l.place).map (·, b)).toOption.map (fun r => (r.1.unplaced, r.2)) =
        ((f.unplaced.apply verb (args.map Token.unplaced) l.unplaced.place).map (·, b)).toOption := by
    rw [l.place_unplaced, toOption_map, toOption_map, ← apply_unplaced, Option.map_map,
      Option.map_map]
    rfl
  obtain ⟨first, others⟩ := l
  rw [Line.unplaced] at happly ⊢
  unfold File.line
  cases block with
  | some verb =>
    simp only [Token.is_unplaced, List.isEmpty_map]
    split
    · split <;> rfl
    · exact happly verb (first :: others) (some verb)
  | none =>
    simp only [Token.is_unplaced, Token.quoted_unplaced, Token.text_unplaced]
    split
    · rfl
    · cases others with
      | nil => exact happly first.text [] none
      | cons second more =>
        simp only [List.map_cons, Token.is_unplaced]
        split
        · match more with
          | [] => rfl
          | [third] => cases hthird : third.is ")" <;> simp [hthird, Except.toOption]
          | _ :: _ :: _ => rfl
        · exact happly first.text (second :: more) none

/-! ## Lines one after the other -/

/-- What lines mean: the file with what they declare, and the block that is open behind them. -/
def File.through (f : File) (block : Option String) :
    List (List Token) → Except Fault (File × Option String)
  | [] => .ok (f, block)
  | [] :: rest => f.through block rest
  | (first :: others) :: rest => do
    let (f, block) ← f.line block ⟨first, others⟩
    f.through block rest

theorem through_cons (f : File) (block : Option String) (first : Token) (others : List Token)
    (rest : List (List Token)) :
    f.through block ((first :: others) :: rest) =
      (f.line block ⟨first, others⟩).bind fun r => r.1.through r.2 rest := rfl

theorem lines_eq_through (f : File) (block : Option String) (ls : List (List Token)) :
    f.lines block ls = (f.through block ls).bind fun r =>
      if r.2.isSome then .error .unclosedBlock else .ok r.1 := by
  induction ls generalizing f block with
  | nil => rfl
  | cons l ls ih =>
    cases l with
    | nil => exact ih f block
    | cons first others =>
      rw [through_cons]
      have hcons : f.lines block ((first :: others) :: ls) =
          (f.line block ⟨first, others⟩).bind fun r => r.1.lines r.2 ls := rfl
      rw [hcons]
      cases f.line block ⟨first, others⟩ with
      | error e => rfl
      | ok r => exact ih r.1 r.2

theorem through_append (f : File) (block : Option String) (a b : List (List Token)) :
    f.through block (a ++ b) = (f.through block a).bind fun r => r.1.through r.2 b := by
  induction a generalizing f block with
  | nil => rfl
  | cons l a ih =>
    cases l with
    | nil => exact ih f block
    | cons first others =>
      rw [List.cons_append, through_cons, through_cons]
      cases f.line block ⟨first, others⟩ with
      | error e => rfl
      | ok r => exact ih r.1 r.2

/-- **What lines mean, up to places.** -/
theorem through_unplaced (f : File) (block : Option String) (ls : List (List Token)) :
    (f.through block ls).toOption.map (fun r => (r.1.unplaced, r.2)) =
      (f.unplaced.through block (ls.map (·.map Token.unplaced))).toOption := by
  induction ls generalizing f block with
  | nil => rfl
  | cons l ls ih =>
    cases l with
    | nil => exact ih f block
    | cons first others =>
      have hline := line_unplaced f block ⟨first, others⟩
      rw [List.map_cons, List.map_cons, through_cons, through_cons]
      cases hl : f.line block ⟨first, others⟩ with
      | error e =>
        cases hl' : f.unplaced.line block ⟨first.unplaced, others.map Token.unplaced⟩ with
        | error e' => rfl
        | ok r' => simp [Line.unplaced, hl, hl', Except.toOption] at hline
      | ok r =>
        cases hl' : f.unplaced.line block ⟨first.unplaced, others.map Token.unplaced⟩ with
        | error e' => simp [Line.unplaced, hl, hl', Except.toOption] at hline
        | ok r' =>
          obtain rfl : (r.1.unplaced, r.2) = r' := by
            simpa [Line.unplaced, hl, hl', Except.toOption] using hline
          exact ih r.1 r.2

/-- What a text declares up to places is what the words on its lines declare. -/
theorem unplaced_parse (text : String) :
    (File.parse text).toOption.map File.unplaced = (lineWords text.toList).bind fun ls =>
      (({} : File).through none ls).toOption.bind fun r =>
        if r.2.isSome then none else some r.1 := by
  rw [lineWords_eq, File.parse]
  cases tokenize text with
  | error e => rfl
  | ok ls =>
    have hthrough := through_unplaced {} none ls
    have hempty : File.unplaced {} = {} := rfl
    rw [hempty] at hthrough
    change (File.lines {} none ls).toOption.map File.unplaced =
      (({} : File).through none (ls.map (·.map Token.unplaced))).toOption.bind _
    rw [← hthrough, lines_eq_through]
    cases ({} : File).through none ls with
    | error e => rfl
    | ok r => cases hr : r.2 <;> simp [Except.bind, Except.toOption, hr]

/-! ## Blocks -/

/-- The word of a verb. -/
def verbToken (v : String) : Token := ⟨v, false, .nowhere⟩

/-- A line in a block is the arguments of its verb. -/
theorem line_in_block {t : Token} (hclose : t.is ")" = false) (ts : List Token) (v : String)
    (f : File) :
    f.line (some v) ⟨t.unplaced, ts.map Token.unplaced⟩ =
      (f.apply v ((t :: ts).map Token.unplaced) .nowhere).map (·, some v) := by
  have hplace := (Line.mk t ts).place_unplaced
  rw [Line.unplaced] at hplace
  rw [File.line, hplace]
  simp [hclose]

/-- A line outside of blocks is a verb with its arguments. -/
theorem line_of_verb {v : String} (hv : v ≠ "(" ∧ v ≠ ")") {t : Token} (hopen : t.is "(" = false)
    (ts : List Token) (f : File) :
    f.line none ⟨verbToken v, (t :: ts).map Token.unplaced⟩ =
      (f.apply v ((t :: ts).map Token.unplaced) .nowhere).map (·, none) := by
  have hplace := (Line.mk (verbToken v) (t :: ts)).place_unplaced
  have hverb : ((verbToken v).quoted || (verbToken v).is ")" || (verbToken v).is "(") = false := by
    simp [verbToken, Token.is, hv]
  rw [Line.unplaced] at hplace
  rw [File.line, hverb]
  simp only [List.map_cons, Token.is_unplaced, hopen, Bool.false_eq_true, ↓reduceIte]
  exact congrArg (fun p => (f.apply v _ p).map (·, none)) hplace

/-- The lines of a block up to its end mean what they mean one by one behind the verb. -/
theorem through_block {v : String} (hv : v ≠ "(" ∧ v ≠ ")") {ls : List (List Token)}
    (hls : ∀ l ∈ ls, ∃ t ts, l = t :: ts ∧ t.is "(" = false ∧ t.is ")" = false)
    (rest : List (List Token)) (f : File) :
    f.through (some v) (ls.map (·.map Token.unplaced) ++ [verbToken ")"] :: rest) =
      f.through none (ls.map (fun l => verbToken v :: l.map Token.unplaced) ++ rest) := by
  induction ls generalizing f with
  | nil => rfl
  | cons l ls ih =>
    obtain ⟨⟨t, ts, rfl, hopen, hclose⟩, hrest⟩ := List.forall_mem_cons.mp hls
    rw [List.map_cons, List.map_cons, List.map_cons, List.cons_append, List.cons_append,
      through_cons, through_cons, line_in_block hclose, line_of_verb hv hopen]
    cases f.apply v ((t :: ts).map Token.unplaced) .nowhere with
    | error e => rfl
    | ok g => exact ih hrest g

theorem through_open {v : String} (hv : v ≠ "(" ∧ v ≠ ")") (rest : List (List Token)) (f : File) :
    f.through none ([verbToken v, verbToken "("] :: rest) = f.through (some v) rest := by
  have hverb : ((verbToken v).quoted || (verbToken v).is ")" || (verbToken v).is "(") = false := by
    simp [verbToken, Token.is, hv]
  rw [through_cons, File.line, hverb]
  rfl

/-! ## Texts -/

/-- A block: the verb, and the lines of its arguments between parentheses. -/
def blockText (v : String) (ls : List String) : String :=
  v ++ " (\n" ++ String.join (ls.map (· ++ "\n")) ++ ")"

/-- The verb before the arguments on each line. -/
def separateText (v : String) (ls : List String) : String :=
  "\n".intercalate (ls.map fun l => v ++ " " ++ l)

/-- A line of arguments: its words are on one line, its first, and they do not start with a
parenthesis. -/
def IsArgumentLine (l : String) : Prop :=
  ∃ t ts, tokenize l = .ok [t :: ts] ∧ t.place.start.line = 1 ∧ t.is "(" = false ∧ t.is ")" = false

/-- The words of a line of arguments. -/
def argumentsOf (l : String) : List Token :=
  match tokenize l with
  | .ok [ts] => ts
  | _ => []

theorem argumentsOf_eq {l : String} {ts : List Token} (h : tokenize l = .ok [ts]) :
    argumentsOf l = ts := by
  simp [argumentsOf, h]

theorem lineWords_arguments {l : String} (h : IsArgumentLine l) :
    lineWords l.toList = some [(argumentsOf l).map Token.unplaced] := by
  obtain ⟨t, ts, h, -⟩ := h
  rw [lineWords_eq, argumentsOf_eq h, h]
  rfl

theorem lineWords_verb_arguments {v l : String} (hv : IsWord v) (h : IsArgumentLine l) :
    lineWords (v ++ " " ++ l).toList = some [verbToken v :: (argumentsOf l).map Token.unplaced] := by
  obtain ⟨t, ts, h, hline, -⟩ := h
  have := lineWords_word hv h hline
  simpa [argumentsOf_eq h, verbToken] using this

theorem lineWords_argumentLines {ls : List String} (hls : ∀ l ∈ ls, IsArgumentLine l)
    (b : List Char) :
    lineWords ((String.join (ls.map (· ++ "\n"))).toList ++ b) =
      (lineWords b).map (ls.map (fun l => (argumentsOf l).map Token.unplaced) ++ ·) := by
  induction ls with
  | nil => simp
  | cons l ls ih =>
    obtain ⟨hl, hls⟩ := List.forall_mem_cons.mp hls
    have hcut : (String.join ((l :: ls).map (· ++ "\n"))).toList ++ b =
        l.toList ++ '\n' :: ((String.join (ls.map (· ++ "\n"))).toList ++ b) := by
      simp [String.join_cons]
    rw [hcut, lineWords_append (lineWords_arguments hl) (.inr rfl), lineWords_lineFeed, ih hls,
      Option.map_map]
    rfl

/-- The lines of a block. -/
theorem lineWords_blockText {v : String} {ls : List String} {b : List Char} (hv : IsWord v)
    (hls : ∀ l ∈ ls, IsArgumentLine l) (hb : StartsLine b) :
    lineWords ((blockText v ls).toList ++ b) = (lineWords b).map
      ([verbToken v, verbToken "("] :: ls.map (fun l => (argumentsOf l).map Token.unplaced) ++
        [verbToken ")"] :: ·) := by
  have hparen : tokenize "(" = .ok [[⟨"(", false, .start, ⟨1, 2, 1⟩⟩]] := rfl
  have hopen := lineWords_word hv hparen rfl
  have hclose : lineWords [')'] = some [[verbToken ")"]] := rfl
  have hcut : (blockText v ls).toList ++ b = (v.toList ++ ' ' :: "(".toList) ++
      '\n' :: ((String.join (ls.map (· ++ "\n"))).toList ++ ([')'] ++ b)) := by
    simp [blockText]
  rw [hcut, lineWords_append hopen (.inr rfl), lineWords_lineFeed, lineWords_argumentLines hls,
    lineWords_append hclose hb, Option.map_map, Option.map_map]
  exact congrArg (Option.map · _) (funext fun ls => by simp [verbToken, Token.unplaced])

/-- The separate lines. -/
theorem lineWords_separateText {v : String} {ls : List String} {b : List Char} (hv : IsWord v)
    (hls : ∀ l ∈ ls, IsArgumentLine l) (hb : StartsLine b) :
    lineWords ((separateText v ls).toList ++ b) = (lineWords b).map
      (ls.map (fun l => verbToken v :: (argumentsOf l).map Token.unplaced) ++ ·) := by
  unfold separateText
  induction ls with
  | nil => simp
  | cons l ls ih =>
    obtain ⟨hl, hls⟩ := List.forall_mem_cons.mp hls
    have hline := lineWords_verb_arguments hv hl
    cases ls with
    | nil => exact lineWords_append hline hb
    | cons l' ls =>
      rw [List.map_cons, List.map_cons, String.intercalate_cons_cons, ← List.map_cons]
      have hcut (x : String) : (v ++ " " ++ l ++ "\n" ++ x).toList ++ b =
          (v ++ " " ++ l).toList ++ '\n' :: (x.toList ++ b) := by
        simp
      rw [hcut, lineWords_append hline (.inr rfl), lineWords_lineFeed, ih hls, Option.map_map]
      rfl

/-- Complete statements on lines of their own. -/
structure IsComplete (text : String) : Prop extends WholeLines text where
  noBlock : File.parse text ≠ .error .unclosedBlock

/-- Complete statements leave no block open. -/
theorem IsComplete.through {text : String} (h : IsComplete text) {ls : List (List Token)}
    (hls : lineWords text.toList = some ls) {f : File} {block : Option String}
    (hthrough : ({} : File).through none ls = .ok (f, block)) : block = none := by
  rw [lineWords_eq] at hls
  cases htokens : tokenize text with
  | error e => simp [htokens, Except.toOption] at hls
  | ok tokens =>
    obtain rfl : tokens.map (·.map Token.unplaced) = ls := by
      simpa [htokens, Except.toOption] using hls
    have hplaced := through_unplaced {} none tokens
    have hempty : File.unplaced {} = {} := rfl
    rw [hempty, hthrough] at hplaced
    cases hr : ({} : File).through none tokens with
    | error e => simp [hr, Except.toOption] at hplaced
    | ok r =>
      obtain ⟨-, rfl⟩ : r.1.unplaced = f ∧ r.2 = block := by
        simpa [hr, Except.toOption] using hplaced
      have hparse : File.parse text = File.lines {} none tokens := by
        rw [File.parse, htokens]
        rfl
      cases hblock : r.2 with
      | none => rfl
      | some v =>
        refine absurd ?_ h.noBlock
        rw [hparse, lines_eq_through, hr]
        simp [Except.bind, hblock]

/-- **A block only says its verb once.** Between complete statements and lines that follow, a block
and its lines written separately, each behind the verb, declare the same or both cannot be read. -/
theorem parse_block_eq_separate {before after v : String} {ls : List String}
    (hbefore : IsComplete before) (hafter : StartsLine after.toList) (hv : IsWord v)
    (hne : v ≠ "(" ∧ v ≠ ")") (hls : ∀ l ∈ ls, IsArgumentLine l) :
    (File.parse (before ++ blockText v ls ++ after)).toOption.map File.unplaced =
      (File.parse (before ++ separateText v ls ++ after)).toOption.map File.unplaced := by
  have hcut (x : String) :
      (before ++ x ++ after).toList = before.toList ++ (x.toList ++ after.toList) := by
    simp
  rw [unplaced_parse, unplaced_parse, hcut, hcut]
  obtain hnone | ⟨xs, hxs, hbefore'⟩ := hbefore.toWholeLines.lineWords_append
  · rw [hnone, hnone]
  · rw [hbefore', hbefore', lineWords_blockText hv hls hafter, lineWords_separateText hv hls hafter]
    cases lineWords after.toList with
    | none => rfl
    | some ys =>
      simp only [Option.map_some, Option.bind_some]
      rw [through_append _ _ xs, through_append _ _ xs]
      cases hthrough : ({} : File).through none xs with
      | error e => rfl
      | ok r =>
        obtain ⟨f, block⟩ := r
        obtain rfl := hbefore.through hxs hthrough
        have hwords : ∀ ts ∈ ls.map argumentsOf,
            ∃ u us, ts = u :: us ∧ u.is "(" = false ∧ u.is ")" = false := by
          intro ts hts
          obtain ⟨l, hl, rfl⟩ := List.mem_map.mp hts
          obtain ⟨t, ts, htokens, -, hparens⟩ := hls l hl
          exact ⟨t, ts, argumentsOf_eq htokens, hparens⟩
        have hblock := through_block hne hwords ys f
        rw [List.map_map, List.map_map] at hblock
        rw [Except.bind, Except.bind, List.cons_append, through_open hne]
        exact congrArg (fun x => x.toOption.bind fun r => if r.2.isSome then none else some r.1) hblock

/-- A block with a comment and with quoted words, one of them over two lines. -/
theorem parse_block_of_requirements :
    (File.parse "module m\nrequire (\na v1 // first\n\"b\" \x60v\n2\x60\n)\ngo 1.21").toOption.map
        File.unplaced =
      (File.parse "module m\nrequire a v1 // first\nrequire \"b\" \x60v\n2\x60\ngo 1.21").toOption.map
        File.unplaced ∧
    (File.parse "module m\nrequire (\na v1 // first\n\"b\" \x60v\n2\x60\n)\ngo 1.21").toOption.map
        (fun f => (f.module, f.go, f.require.map (·.module))) =
      some (some "m", some "1.21", [⟨"a", some "v1"⟩, ⟨"b", some "v\n2"⟩]) := by
  have hbefore : IsComplete "module m\n" := {
    ends := .inr rfl
    closed := fun n h => by cases h
    noBlock := fun h => by cases h }
  have hline₁ : IsArgumentLine "a v1 // first" := ⟨_, _, rfl, rfl, rfl, rfl⟩
  have hline₂ : IsArgumentLine "\"b\" \x60v\n2\x60" := ⟨_, _, rfl, rfl, rfl, rfl⟩
  have hlines : ∀ l ∈ ["a v1 // first", "\"b\" \x60v\n2\x60"], IsArgumentLine l := by
    simp [hline₁, hline₂]
  have hafter : StartsLine "\ngo 1.21".toList := .inr rfl
  have hverb : IsWord "require" := ⟨_, rfl⟩
  have hsame := parse_block_eq_separate hbefore hafter hverb (by decide) hlines
  exact ⟨hsame, by decide +kernel⟩

end DepScope.GoMod
