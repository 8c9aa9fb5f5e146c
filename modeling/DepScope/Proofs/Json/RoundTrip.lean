import DepScope.Json.Value
import DepScope.Proofs.Json.Word

/-!
# DepScope.Proofs.Json.RoundTrip

A value that is written on one line is read back (`read?_compact`), for every value.

What is read is `Value.reread`: the value itself, but each number is what its text is read as. A
string without a text is written as the empty one, and a number without a value as null.

Both directions go through the words of a value, `Value.marks`. They are legible, since a value is
followed by a comma, a closing mark or nothing; and reading them takes two steps for each word at
most, so that the bound on the nesting is never met.
-/

namespace DepScope.Json

open Text

/-! ## The words of a value -/

/-- The word of a string. -/
def stringMark (s : Option String) : Mark :=
  .string ((s.getD "").toList.flatMap escapeChar)

mutual

/-- The words of a value. -/
def Value.marks : Value → List Mark
  | .null => [.null]
  | .truth b => [if b then .true else .false]
  | .number none => [.null]
  | .number (some n) => [.number n.text]
  | .string s => [stringMark s]
  | .array items => .openBracket :: (itemMarks true items ++ [.closeBracket])
  | .object ms => .openBrace :: (memberMarks true ms ++ [.closeBrace])

/-- The words of the items of an array. -/
def itemMarks (first : Bool) : List Value → List Mark
  | [] => []
  | v :: vs => (if first then [] else [.comma]) ++ v.marks ++ itemMarks false vs

/-- The words of the members of an object. -/
def memberMarks (first : Bool) : List (Option String × Value) → List Mark
  | [] => []
  | (k, v) :: ms =>
    (if first then [] else [.comma]) ++ [stringMark k, .colon] ++ v.marks ++ memberMarks false ms

end

theorem wordsText_append (ms ms' : List Mark) :
    wordsText (ms ++ ms') = wordsText ms ++ wordsText ms' :=
  List.flatMap_append

theorem wordsText_cons (m : Mark) (ms : List Mark) :
    wordsText (m :: ms) = m.word ++ wordsText ms :=
  List.flatMap_cons

@[simp]
theorem wordsText_nil : wordsText [] = [] := rfl

@[simp]
theorem compact_line (n : Nat) : Layout.compact.line n = "" := rfl

@[simp]
theorem compact_colon : Layout.compact.colon = ":" := rfl

theorem toList_quote (s : Option String) : (quote (s.getD "")).toList = (stringMark s).word := by
  simp [quote, stringMark, Mark.word]

mutual

/-- The text of a value is that of its words. -/
theorem toList_writeAt (depth : Nat) : (v : Value) →
    (v.writeAt .compact depth).toList = wordsText v.marks
  | .null => by simp [Value.writeAt, Value.marks, wordsText, Mark.word]
  | .truth b => by
    cases b <;> simp [Value.writeAt, Value.marks, wordsText, Mark.word]
  | .number none => by simp [Value.writeAt, Value.marks, wordsText, Mark.word]
  | .number (some n) => by simp [Value.writeAt, Value.marks, wordsText, Mark.word]
  | .string s => by simp [Value.writeAt, Value.marks, wordsText, toList_quote]
  | .array [] => by simp [Value.writeAt, Value.marks, itemMarks, wordsText, Mark.word]
  | .array (v :: vs) => by
    simp [Value.writeAt, Value.marks, wordsText_cons, wordsText_append,
      toList_writeItems (depth + 1) true (v :: vs), Mark.word]
  | .object [] => by simp [Value.writeAt, Value.marks, memberMarks, wordsText, Mark.word]
  | .object (m :: ms) => by
    simp [Value.writeAt, Value.marks, wordsText_cons, wordsText_append,
      toList_writeMembers (depth + 1) true (m :: ms), Mark.word]

theorem toList_writeItems (depth : Nat) (first : Bool) : (vs : List Value) →
    (writeItems .compact depth first vs).toList = wordsText (itemMarks first vs)
  | [] => rfl
  | v :: vs => by
    cases first <;>
      simp [writeItems, itemMarks, wordsText_cons, wordsText_append, toList_writeAt depth v,
        toList_writeItems depth false vs, Mark.word]

theorem toList_writeMembers (depth : Nat) (first : Bool) :
    (ms : List (Option String × Value)) →
    (writeMembers .compact depth first ms).toList = wordsText (memberMarks first ms)
  | [] => rfl
  | (k, v) :: ms => by
    cases first <;>
      simp [writeMembers, memberMarks, wordsText_cons, wordsText_append, toList_writeAt depth v,
        toList_writeMembers depth false ms, Mark.word, toList_quote]

end

/-! ## The words can be told apart -/

theorem stops_nil : Stops [] := by simp [Stops]

theorem stops_cons {c : Char} {cs : List Char} (h : c = ',' ∨ c = ']' ∨ c = '\x7d') :
    Stops (c :: cs) := by
  rintro d ⟨⟩
  obtain rfl | rfl | rfl := h <;> decide

theorem legible_string {s : Option String} {ms : List Mark} (h : Legible ms) :
    Legible (stringMark s :: ms) :=
  ⟨stringBody_escaped _, h⟩

/-- What follows an item stops a number, if what follows all of them does. -/
theorem stops_itemMarks {vs : List Value} {ms : List Mark} (h : Stops (wordsText ms)) :
    Stops (wordsText (itemMarks false vs ++ ms)) := by
  cases vs with
  | nil => exact h
  | cons v vs => exact stops_cons (.inl rfl)

theorem stops_memberMarks {vs : List (Option String × Value)} {ms : List Mark}
    (h : Stops (wordsText ms)) : Stops (wordsText (memberMarks false vs ++ ms)) := by
  cases vs with
  | nil => exact h
  | cons v vs => exact stops_cons (.inl rfl)

mutual

/-- The words of a value can be told from what follows, if that stops a number. -/
theorem legible_marks : (v : Value) → {ms : List Mark} → Legible ms → Stops (wordsText ms) →
    Legible (v.marks ++ ms)
  | .null, _, h, _ => ⟨trivial, h⟩
  | .truth true, _, h, _ => ⟨trivial, h⟩
  | .truth false, _, h, _ => ⟨trivial, h⟩
  | .number none, _, h, _ => ⟨trivial, h⟩
  | .number (some n), _, h, hs => ⟨⟨isNumber_text n, takesSigns_strict _, hs⟩, h⟩
  | .string s, _, h, _ => legible_string h
  | .array items, ms, h, _ => by
    rw [Value.marks, List.cons_append, List.append_assoc]
    exact ⟨trivial, legible_itemMarks true items ⟨trivial, h⟩ (stops_cons (.inr (.inl rfl)))⟩
  | .object members, ms, h, _ => by
    rw [Value.marks, List.cons_append, List.append_assoc]
    exact ⟨trivial, legible_memberMarks true members ⟨trivial, h⟩ (stops_cons (.inr (.inr rfl)))⟩

theorem legible_itemMarks (first : Bool) : (vs : List Value) → {ms : List Mark} →
    Legible ms → Stops (wordsText ms) → Legible (itemMarks first vs ++ ms)
  | [], _, h, _ => h
  | v :: vs, ms, h, hs => by
    have hrest := legible_itemMarks false vs h hs
    have hv := legible_marks v hrest (stops_itemMarks hs)
    rw [itemMarks, List.append_assoc, List.append_assoc]
    cases first with
    | true => exact hv
    | false => exact ⟨trivial, hv⟩

theorem legible_memberMarks (first : Bool) : (vs : List (Option String × Value)) →
    {ms : List Mark} → Legible ms → Stops (wordsText ms) → Legible (memberMarks first vs ++ ms)
  | [], _, h, _ => h
  | (k, v) :: vs, ms, h, hs => by
    have hrest := legible_memberMarks false vs h hs
    have hv := legible_marks v hrest (stops_memberMarks hs)
    rw [memberMarks, List.append_assoc, List.append_assoc, List.append_assoc]
    cases first with
    | true => exact legible_string ⟨trivial, hv⟩
    | false => exact ⟨trivial, legible_string ⟨trivial, hv⟩⟩

end

/-! ## Reading the words -/

mutual

/-- What is read of a value that was written. -/
def Value.reread : Value → Value
  | .null => .null
  | .truth b => .truth b
  | .number none => .null
  | .number (some n) => .number (Number.ofText? n.text)
  | .string s => .string (some (s.getD ""))
  | .array items => .array (rereadItems items)
  | .object ms => .object (rereadMembers ms)

/-- What is read of the items of an array. -/
def rereadItems : List Value → List Value
  | [] => []
  | v :: vs => v.reread :: rereadItems vs

/-- What is read of the members of an object. -/
def rereadMembers : List (Option String × Value) → List (Option String × Value)
  | [] => []
  | (k, v) :: ms => (some (k.getD ""), v.reread) :: rereadMembers ms

end

/-- A value is read from the front of some words, the rest of which is left. -/
def Reads (fuel : Nat) (ts : List Token) (v : Value) (ms : List Mark) : Prop :=
  ∃ t rest, readTree fuel ts = some (t, rest) ∧ t.value = v ∧ rest.map (·.mark) = ms

theorem exists_token {ts : List Token} {m : Mark} {ms : List Mark}
    (h : ts.map (·.mark) = m :: ms) :
    ∃ span rest, ts = ⟨m, span⟩ :: rest ∧ rest.map (·.mark) = ms := by
  obtain ⟨⟨m', span⟩, rest, rfl, rfl, hrest⟩ := List.map_eq_cons_iff.mp h
  exact ⟨span, rest, rfl, hrest⟩

/-- No value starts with a closing mark. -/
theorem exists_mark (v : Value) :
    ∃ m ms, v.marks = m :: ms ∧ m ≠ .closeBracket ∧ m ≠ .closeBrace := by
  cases v with
  | truth b => cases b <;> exact ⟨_, _, rfl, by simp, by simp⟩
  | number n => cases n <;> exact ⟨_, _, rfl, by simp, by simp⟩
  | string s => exact ⟨_, _, rfl, by simp [stringMark], by simp [stringMark]⟩
  | _ => exact ⟨_, _, rfl, by simp, by simp⟩

theorem itemMarks_false {vs : List Value} (h : vs ≠ []) :
    itemMarks false vs = .comma :: itemMarks true vs := by
  obtain ⟨v, vs, rfl⟩ := List.exists_cons_of_ne_nil h
  simp [itemMarks]

theorem memberMarks_false {vs : List (Option String × Value)} (h : vs ≠ []) :
    memberMarks false vs = .comma :: memberMarks true vs := by
  obtain ⟨v, vs, rfl⟩ := List.exists_cons_of_ne_nil h
  simp [memberMarks]

/-- Items that do not start with a closing mark are read one by one. -/
theorem readTree_array {fuel : Nat} {span : Span} {ts : List Token} {m : Mark} {ms : List Mark}
    (h : ts.map (·.mark) = m :: ms) (hm : m ≠ .closeBracket) :
    readTree (fuel + 1) (⟨.openBracket, span⟩ :: ts) =
      (readItems fuel ts).map fun (items, stop, rest) =>
        (.array ⟨span.start, stop⟩ items, rest) := by
  obtain ⟨span', rest, rfl, -⟩ := exists_token h
  rw [readTree.eq_def]
  simp only
  split
  · next heq =>
    cases heq
    exact absurd rfl hm
  · cases readItems fuel (⟨m, span'⟩ :: rest) <;> rfl

theorem readTree_object {fuel : Nat} {span : Span} {ts : List Token} {m : Mark} {ms : List Mark}
    (h : ts.map (·.mark) = m :: ms) (hm : m ≠ .closeBrace) :
    readTree (fuel + 1) (⟨.openBrace, span⟩ :: ts) =
      (readMembers fuel ts).map fun (members, stop, rest) =>
        (.object ⟨span.start, stop⟩ members, rest) := by
  obtain ⟨span', rest, rfl, -⟩ := exists_token h
  rw [readTree.eq_def]
  simp only
  split
  · next heq =>
    cases heq
    exact absurd rfl hm
  · cases readMembers fuel (⟨m, span'⟩ :: rest) <;> rfl

mutual

/-- The words of a value are read as the value that is read back. -/
theorem reads_marks : (v : Value) → {fuel : Nat} → {ts : List Token} → {ms : List Mark} →
    2 * v.marks.length ≤ fuel → ts.map (·.mark) = v.marks ++ ms → Reads fuel ts v.reread ms
  | v, 0, _, _, hfuel, _ => by
    obtain ⟨m, ms, hm, -⟩ := exists_mark v
    rw [hm, List.length_cons] at hfuel
    omega
  | .null, fuel + 1, ts, ms, _, h => by
    obtain ⟨span, rest, rfl, hrest⟩ := exists_token h
    exact ⟨_, rest, rfl, rfl, hrest⟩
  | .truth b, fuel + 1, ts, ms, _, h => by
    obtain ⟨span, rest, rfl, hrest⟩ := exists_token h
    cases b <;> exact ⟨_, rest, rfl, rfl, hrest⟩
  | .number none, fuel + 1, ts, ms, _, h => by
    obtain ⟨span, rest, rfl, hrest⟩ := exists_token h
    exact ⟨_, rest, rfl, rfl, hrest⟩
  | .number (some n), fuel + 1, ts, ms, _, h => by
    obtain ⟨span, rest, rfl, hrest⟩ := exists_token h
    exact ⟨_, rest, rfl, rfl, hrest⟩
  | .string s, fuel + 1, ts, ms, _, h => by
    obtain ⟨span, rest, rfl, hrest⟩ := exists_token h
    refine ⟨_, rest, rfl, ?_, hrest⟩
    rw [Tree.value, decodeBody?_escaped]
    rfl
  | .array [], fuel + 1, ts, ms, hfuel, h => by
    obtain ⟨span, rest, rfl, hclose⟩ := exists_token h
    obtain ⟨span', rest, rfl, hrest⟩ := exists_token hclose
    exact ⟨_, rest, rfl, rfl, hrest⟩
  | .array (v :: vs), fuel + 1, ts, ms, hfuel, h => by
    rw [Value.marks, List.cons_append, List.append_assoc] at h
    obtain ⟨span, rest, rfl, hrest⟩ := exists_token h
    have hlen : 2 * (itemMarks true (v :: vs)).length < fuel := by
      simp only [Value.marks, List.length_cons, List.length_append, List.length_nil] at hfuel
      omega
    obtain ⟨items, stop, rest', hread, hval, hrest'⟩ := reads_items (v :: vs) (by simp) hlen hrest
    obtain ⟨m, more, hm, hne, -⟩ := exists_mark v
    have hhead : rest.map (·.mark) =
        m :: (more ++ (itemMarks false vs ++ .closeBracket :: ms)) := by
      simpa [itemMarks, hm] using hrest
    refine ⟨.array ⟨span.start, stop⟩ items, rest', ?_, ?_, hrest'⟩
    · rw [readTree_array hhead hne, hread]
      rfl
    · rw [Tree.value, hval, Value.reread]
  | .object [], fuel + 1, ts, ms, hfuel, h => by
    obtain ⟨span, rest, rfl, hclose⟩ := exists_token h
    obtain ⟨span', rest, rfl, hrest⟩ := exists_token hclose
    exact ⟨_, rest, rfl, rfl, hrest⟩
  | .object ((k, v) :: vs), fuel + 1, ts, ms, hfuel, h => by
    rw [Value.marks, List.cons_append, List.append_assoc] at h
    obtain ⟨span, rest, rfl, hrest⟩ := exists_token h
    have hlen : 2 * (memberMarks true ((k, v) :: vs)).length < fuel := by
      simp only [Value.marks, List.length_cons, List.length_append, List.length_nil] at hfuel
      omega
    obtain ⟨members, stop, rest', hread, hval, hrest'⟩ :=
      reads_members ((k, v) :: vs) (by simp) hlen hrest
    refine ⟨.object ⟨span.start, stop⟩ members, rest', ?_, ?_, hrest'⟩
    · rw [readTree_object hrest (by simp [stringMark]), hread]
      rfl
    · rw [Tree.value, hval, Value.reread]

theorem reads_items : (vs : List Value) → vs ≠ [] → {fuel : Nat} → {ts : List Token} →
    {ms : List Mark} → 2 * (itemMarks true vs).length < fuel →
    ts.map (·.mark) = itemMarks true vs ++ .closeBracket :: ms →
    ∃ items stop rest, readItems fuel ts = some (items, stop, rest) ∧
      Tree.values items = rereadItems vs ∧ rest.map (·.mark) = ms
  | [], hne, _, _, _, _, _ => absurd rfl hne
  | v :: vs, _, 0, _, _, hfuel, _ => absurd hfuel (Nat.not_lt_zero _)
  | v :: vs, _, fuel + 1, ts, ms, hfuel, h => by
    simp only [itemMarks, if_true, List.nil_append, List.append_assoc,
      List.length_append] at hfuel h
    have hlen : 2 * v.marks.length ≤ fuel := by omega
    obtain ⟨t, rest, hread, hval, hrest⟩ := reads_marks v hlen h
    by_cases hvs : vs = []
    · subst hvs
      obtain ⟨span, left, rfl, hleft⟩ := exists_token hrest
      refine ⟨[t], span.stop, left, ?_, by simp [Tree.values, rereadItems, hval], hleft⟩
      simp [readItems, hread]
    · rw [itemMarks_false hvs] at hfuel hrest
      obtain ⟨span, left, rfl, hleft⟩ := exists_token hrest
      have hmoreLen : 2 * (itemMarks true vs).length < fuel := by
        rw [List.length_cons] at hfuel
        omega
      obtain ⟨items, stop, rest', hmore, hvals, hrest'⟩ := reads_items vs hvs hmoreLen hleft
      refine ⟨t :: items, stop, rest', ?_, by simp [Tree.values, rereadItems, hval, hvals], hrest'⟩
      simp [readItems, hread, hmore]

theorem reads_members : (vs : List (Option String × Value)) → vs ≠ [] → {fuel : Nat} →
    {ts : List Token} → {ms : List Mark} → 2 * (memberMarks true vs).length < fuel →
    ts.map (·.mark) = memberMarks true vs ++ .closeBrace :: ms →
    ∃ members stop rest, readMembers fuel ts = some (members, stop, rest) ∧
      Tree.memberValues members = rereadMembers vs ∧ rest.map (·.mark) = ms
  | [], hne, _, _, _, _, _ => absurd rfl hne
  | (k, v) :: vs, _, 0, _, _, hfuel, _ => absurd hfuel (Nat.not_lt_zero _)
  | (k, v) :: vs, _, fuel + 1, ts, ms, hfuel, h => by
    simp only [memberMarks, if_true, List.nil_append, List.append_assoc, List.cons_append,
      List.length_append, List.length_cons] at hfuel h
    obtain ⟨spanKey, rest, rfl, hcolon⟩ := exists_token h
    obtain ⟨spanColon, rest, rfl, hvalue⟩ := exists_token hcolon
    have hlen : 2 * v.marks.length ≤ fuel := by omega
    obtain ⟨t, rest, hread, hval, hrest⟩ := reads_marks v hlen hvalue
    have hkey : decodeBody? ((k.getD "").toList.flatMap escapeChar) = some (k.getD "") :=
      decodeBody?_escaped _
    by_cases hvs : vs = []
    · subst hvs
      obtain ⟨span, left, rfl, hleft⟩ := exists_token hrest
      refine ⟨[(⟨spanKey, some (k.getD "")⟩, t)], span.stop, left, ?_, ?_, hleft⟩
      · simp [readMembers, stringMark, hread, hkey]
      · simp [Tree.memberValues, rereadMembers, hval]
    · rw [memberMarks_false hvs] at hfuel hrest
      obtain ⟨span, left, rfl, hleft⟩ := exists_token hrest
      have hmoreLen : 2 * (memberMarks true vs).length < fuel := by
        rw [List.length_cons] at hfuel
        omega
      obtain ⟨members, stop, rest', hmore, hvals, hrest'⟩ := reads_members vs hvs hmoreLen hleft
      refine ⟨(⟨spanKey, some (k.getD "")⟩, t) :: members, stop, rest', ?_, ?_, hrest'⟩
      · simp [readMembers, stringMark, hread, hkey, hmore]
      · simp [Tree.memberValues, rereadMembers, hval, hvals]

end

/-- Words of one value and no more are one value. -/
theorem readAll_marks {v : Value} {ts : List Token} (h : ts.map (·.mark) = v.marks) :
    ∃ t, readAll ts.length ts = some [t] ∧ t.value = v.reread := by
  have hlen : ts.length = v.marks.length := by rw [← h, List.length_map]
  have h' : ts.map (·.mark) = v.marks ++ [] := by rw [h, List.append_nil]
  obtain ⟨t, rest, hread, hval, hrest⟩ := reads_marks v (Nat.le_refl _) h'
  obtain ⟨m, ms, hm, -⟩ := exists_mark v
  obtain ⟨span, ts', rfl, -⟩ := exists_token (h.trans hm)
  rw [← hlen] at hread
  refine ⟨t, ?_, hval⟩
  rw [List.length_cons, readAll, hread, List.map_eq_nil_iff.mp hrest]
  · simp [readAll]
  · simp

/-- **A written value is read back**: what its text is read as is the value up to its numbers. -/
theorem read?_compact (v : Value) : read? v.compact = some v.reread := by
  have hlegible : Legible (v.marks ++ []) := legible_marks v trivial stops_nil
  rw [List.append_nil] at hlegible
  obtain ⟨ts, hlex, hmarks⟩ := lex_words hlegible (Nat.le_refl _) 0
  obtain ⟨t, hread, hval⟩ := readAll_marks hmarks
  have htokens : tokens? .strict v.compact = some ts := by
    rw [← toList_writeAt 0 v] at hlex
    simp only [tokens?, Value.compact]
    exact hlex
  simp [read?, parse?, htokens, hread, single?, hval]

end DepScope.Json
