import DepScope.Proofs.Json.Lenient
import DepScope.Proofs.Json.RoundTrip

/-!
# DepScope.Proofs.Json.Placement

A document is read as the value it was written for, with the place of every node, however it is spelled
(`Document.parse?_text`). Two things have to be kept out of it: a NUL in a comment, and a plus sign in
an exponent (`Document.Plain`).

The words of a value are read as `Spelling.tree` (`readTree_located`), by the recursion of the value. As
for values that are written on one line, two steps for each word are enough.
-/

namespace DepScope.Json

open Text

/-! ## Reading the words -/

section Reading

theorem located_append (off : Nat) (ps qs : List Piece) :
    located off (ps ++ qs) = located off ps ++ located (off + width ps) qs := by
  induction ps generalizing off with
  | nil => rfl
  | cons p ps ih =>
    rw [width_cons, ← Nat.add_assoc]
    cases p with
    | filler f => exact ih _
    | word m => exact congrArg (_ :: ·) (ih _)

theorem located_gap (off : Nat) (g : Gap) : located off (gap g) = [] := by
  induction g generalizing off with
  | nil => rfl
  | cons f g ih => exact ih _

theorem located_word (off : Nat) (m : Mark) (ps : List Piece) :
    located off (.word m :: ps) =
      ⟨m, off, off + width [.word m]⟩ :: located (off + width [.word m]) ps := by
  rw [located, width_cons, width_nil, Nat.add_zero, Piece.text]

/-- Is a piece a word? -/
def Piece.isWord : Piece → Bool
  | word _ => true
  | filler _ => false

/-- The number of words. -/
def wordCount (ps : List Piece) : Nat :=
  ps.countP Piece.isWord

@[simp]
theorem wordCount_append (ps qs : List Piece) :
    wordCount (ps ++ qs) = wordCount ps + wordCount qs :=
  List.countP_append

@[simp]
theorem wordCount_word (m : Mark) (ps : List Piece) :
    wordCount (.word m :: ps) = wordCount ps + 1 :=
  List.countP_cons_of_pos rfl

@[simp]
theorem wordCount_nil : wordCount [] = 0 := rfl

@[simp]
theorem wordCount_gap (g : Gap) : wordCount (gap g) = 0 := by
  induction g with
  | nil => rfl
  | cons f g ih => exact ih

theorem length_located (off : Nat) (ps : List Piece) :
    (located off ps).length = wordCount ps := by
  induction ps generalizing off with
  | nil => rfl
  | cons p ps ih =>
    cases p with
    | filler f => exact ih _
    | word m => rw [located, List.length_cons, ih, wordCount_word]

/-- No value starts with a closing mark. -/
theorem exists_first_word (s : Spelling) (off : Nat) :
    ∃ m span ts, located off s.pieces = ⟨m, span⟩ :: ts ∧ m ≠ .closeBracket ∧ m ≠ .closeBrace := by
  cases s with
  | truth b => cases b <;> exact ⟨_, _, _, rfl, by simp, by simp⟩
  | _ => exact ⟨_, _, _, rfl, by simp, by simp⟩

theorem wordCount_pos (s : Spelling) : 0 < wordCount s.pieces := by
  obtain ⟨m, span, ts, h, -⟩ := exists_first_word s 0
  rw [← length_located 0, h]
  exact Nat.succ_pos _

variable {items : List (Around × Spelling)} {ms : List (Label × Spelling)} {off : Nat}

theorem itemPieces_false (h : items ≠ []) :
    itemPieces false items = .word .comma :: itemPieces true items := by
  obtain ⟨item, items, rfl⟩ := List.exists_cons_of_ne_nil h
  simp [itemPieces, comma]

theorem memberPieces_false (h : ms ≠ []) :
    memberPieces false ms = .word .comma :: memberPieces true ms := by
  obtain ⟨m, ms, rfl⟩ := List.exists_cons_of_ne_nil h
  simp [memberPieces, comma]

theorem itemTrees_false (h : items ≠ []) :
    itemTrees off false items = itemTrees (off + width [.word .comma]) true items := by
  obtain ⟨item, items, rfl⟩ := List.exists_cons_of_ne_nil h
  simp [itemTrees, comma, width_append, width_cons, Nat.add_assoc]

theorem memberTrees_false (h : ms ≠ []) :
    memberTrees off false ms = memberTrees (off + width [.word .comma]) true ms := by
  obtain ⟨m, ms, rfl⟩ := List.exists_cons_of_ne_nil h
  simp [memberTrees, comma, width_append, width_cons, Nat.add_assoc]

theorem located_items (a : Around) (s : Spelling) (rest : List (Around × Spelling)) (off : Nat) :
    located off (itemPieces true ((a, s) :: rest)) =
      located (off + width (comma true ++ gap a.before)) s.pieces ++
        located (off + width (comma true ++ gap a.before) + width (s.pieces ++ gap a.after))
          (itemPieces false rest) := by
  simp only [itemPieces, comma, if_true, List.nil_append, located_append, located_gap, width_append,
    Nat.add_assoc]

/-- The words of a name and its colon. -/
theorem located_label (l : Label) (off : Nat) :
    ∃ colon, located off l.pieces =
      [⟨.string l.name.body, off, off + width [.word (.string l.name.body)]⟩, ⟨.colon, colon⟩] := by
  simp only [Label.pieces, located_word, located_append, located_gap, List.nil_append]
  exact ⟨_, rfl⟩

theorem located_members (l : Label) (s : Spelling) (rest : List (Label × Spelling)) (off : Nat) :
    located off (memberPieces true ((l, s) :: rest)) =
      located (off + width (comma true ++ gap l.before)) l.pieces ++
        (located (off + width (comma true ++ gap l.before) + width l.pieces) s.pieces ++
          located (off + width (comma true ++ gap l.before) +
            width (l.pieces ++ s.pieces ++ gap l.after)) (memberPieces false rest)) := by
  simp only [memberPieces, comma, if_true, List.nil_append, List.append_assoc, located_append,
    located_gap, width_append, Nat.add_assoc]

theorem exists_item_mark (h : items ≠ []) (off : Nat) (rest : List Token) :
    ∃ m ms, (located off (itemPieces true items) ++ rest).map (·.mark) = m :: ms ∧
      m ≠ .closeBracket := by
  obtain ⟨⟨a, s⟩, items, rfl⟩ := List.exists_cons_of_ne_nil h
  obtain ⟨m, span, ts, hts, hm, -⟩ := exists_first_word s (off + width (comma true ++ gap a.before))
  rw [located_items, hts]
  exact ⟨m, _, rfl, hm⟩

theorem exists_member_mark (h : ms ≠ []) (off : Nat) (rest : List Token) :
    ∃ m marks, (located off (memberPieces true ms) ++ rest).map (·.mark) = m :: marks ∧
      m ≠ .closeBrace := by
  obtain ⟨⟨l, s⟩, ms, rfl⟩ := List.exists_cons_of_ne_nil h
  obtain ⟨colon, hlabel⟩ := located_label l (off + width (comma true ++ gap l.before))
  rw [located_members, hlabel]
  exact ⟨_, _, rfl, by simp⟩

/-- The words of what stands between two marks. -/
theorem located_between (opening closing : Mark) (g : Gap) (ps : List Piece) (off : Nat)
    (rest : List Token) :
    located off (.word opening :: gap g ++ (ps ++ [.word closing])) ++ rest =
      ⟨opening, off, off + width [.word opening]⟩ ::
        (located (off + width (.word opening :: gap g)) ps ++
          ⟨closing, off + width (.word opening :: gap g) + width ps,
            off + width (.word opening :: gap g ++ (ps ++ [.word closing]))⟩ :: rest) := by
  simp only [List.cons_append, located_word, located_append, located_gap, located, width_append,
    width_cons, Piece.text, List.nil_append, List.append_assoc, Nat.add_assoc, width_nil,
    Nat.add_zero]

theorem wordCount_between (opening closing : Mark) (g : Gap) (ps : List Piece) :
    wordCount (.word opening :: gap g ++ (ps ++ [.word closing])) = wordCount ps + 2 := by
  simp only [List.cons_append, wordCount_word, wordCount_append, wordCount_gap, wordCount_nil,
    Nat.zero_add]

mutual

/-- **The words of a value are read as the value with its places.** -/
theorem readTree_located : (s : Spelling) → {fuel off : Nat} → {rest : List Token} →
    2 * wordCount s.pieces ≤ fuel →
    readTree fuel (located off s.pieces ++ rest) = some (s.tree off, rest)
  | s, 0, _, _, hfuel => by
    have hpos := wordCount_pos s
    omega
  | .null, fuel + 1, off, rest, _ => rfl
  | .truth true, fuel + 1, off, rest, _ => rfl
  | .truth false, fuel + 1, off, rest, _ => rfl
  | .number n, fuel + 1, off, rest, _ => by
    simp [Spelling.pieces, Spelling.tree, Spelling.span, located_word, located, readTree]
  | .string l, fuel + 1, off, rest, _ => by
    simp [Spelling.pieces, Spelling.tree, Spelling.span, located_word, located, readTree,
      decodeBody?_literal]
  | .array g items, fuel + 1, off, rest, hfuel => by
    rw [Spelling.pieces, wordCount_between] at hfuel
    rw [Spelling.pieces, located_between, Spelling.tree, Spelling.span, Spelling.pieces]
    by_cases hne : items = []
    · subst hne
      rfl
    · obtain ⟨m, ms, hhead, hm⟩ := exists_item_mark hne _ _
      rw [readTree_array hhead hm, readItems_located items hne (by omega)]
      rfl
  | .object g ms, fuel + 1, off, rest, hfuel => by
    rw [Spelling.pieces, wordCount_between] at hfuel
    rw [Spelling.pieces, located_between, Spelling.tree, Spelling.span, Spelling.pieces]
    by_cases hne : ms = []
    · subst hne
      rfl
    · obtain ⟨m, marks, hhead, hm⟩ := exists_member_mark hne _ _
      rw [readTree_object hhead hm, readMembers_located ms hne (by omega)]
      rfl

theorem readItems_located : (items : List (Around × Spelling)) → items ≠ [] → {fuel off : Nat} →
    {span : Span} → {rest : List Token} → 2 * wordCount (itemPieces true items) < fuel →
    readItems fuel (located off (itemPieces true items) ++ ⟨.closeBracket, span⟩ :: rest) =
      some (itemTrees off true items, span.stop, rest)
  | [], hne, _, _, _, _, _ => absurd rfl hne
  | (a, s) :: more, _, 0, _, _, _, hfuel => absurd hfuel (Nat.not_lt_zero _)
  | (a, s) :: more, _, fuel + 1, off, span, rest, hfuel => by
    simp only [itemPieces, wordCount_append, wordCount_gap] at hfuel
    have hlen : 2 * wordCount s.pieces ≤ fuel := by omega
    rw [located_items, List.append_assoc, readItems, readTree_located s hlen, itemTrees]
    by_cases hmore : more = []
    · subst hmore
      rfl
    · rw [itemPieces_false hmore, wordCount_word] at hfuel
      rw [itemPieces_false hmore, itemTrees_false hmore, located_word]
      simp [readItems_located more hmore (show 2 * wordCount (itemPieces true more) < fuel by omega)]

theorem readMembers_located : (ms : List (Label × Spelling)) → ms ≠ [] → {fuel off : Nat} →
    {span : Span} → {rest : List Token} → 2 * wordCount (memberPieces true ms) < fuel →
    readMembers fuel (located off (memberPieces true ms) ++ ⟨.closeBrace, span⟩ :: rest) =
      some (memberTrees off true ms, span.stop, rest)
  | [], hne, _, _, _, _, _ => absurd rfl hne
  | (l, s) :: more, _, 0, _, _, _, hfuel => absurd hfuel (Nat.not_lt_zero _)
  | (l, s) :: more, _, fuel + 1, off, span, rest, hfuel => by
    simp only [memberPieces, wordCount_append, wordCount_gap] at hfuel
    have hlen : 2 * wordCount s.pieces ≤ fuel := by omega
    obtain ⟨colon, hlabel⟩ := located_label l (off + width (comma true ++ gap l.before))
    rw [located_members, hlabel, memberTrees]
    simp only [List.cons_append, List.nil_append, List.append_assoc, readMembers,
      readTree_located s hlen, decodeBody?_literal]
    by_cases hmore : more = []
    · subst hmore
      rfl
    · rw [memberPieces_false hmore, wordCount_word] at hfuel
      rw [memberPieces_false hmore, memberTrees_false hmore, located_word]
      simp [readMembers_located more hmore
        (show 2 * wordCount (memberPieces true more) < fuel by omega)]

end

end Reading

/-! ## Documents -/

namespace Document

/-- The numbers of a document as they are written. -/
def numerals (d : Document) : List (List Char) :=
  d.pieces.filterMap fun
    | .word (.number n) => some n
    | _ => none

/-- No comment of the document holds a NUL, and no number has a plus sign. -/
structure Plain (d : Document) : Prop where
  nul : '\x00' ∉ d.text.toList
  plus : ∀ n ∈ d.numerals, '+' ∉ n

instance (d : Document) : Decidable d.Plain :=
  decidable_of_iff ('\x00' ∉ d.text.toList ∧ ∀ n ∈ d.numerals, '+' ∉ n)
    ⟨fun h => ⟨h.1, h.2⟩, fun h => ⟨h.nul, h.plus⟩⟩

variable {d : Document}

theorem Plain.plus_of_mem (h : d.Plain) {n : List Char} (hn : .word (.number n) ∈ d.pieces) :
    '+' ∉ n :=
  h.plus n (List.mem_filterMap.mpr ⟨_, hn, rfl⟩)

theorem toList_text (d : Document) : d.text.toList = textOf d.pieces ++ d.lastText :=
  String.toList_ofList

/-- Nothing follows the comment at the end. -/
theorem lex_lastText (hnul : '\x00' ∉ d.lastText) {fuel : Nat} (hfuel : d.lastText.length ≤ fuel)
    (off : Nat) : lex .lenient fuel off d.lastText = some [] := by
  unfold lastText at *
  split
  · next body hlast =>
    simp only [hlast, List.mem_cons, not_or] at hnul
    simp only [hlast, List.length_cons] at hfuel
    obtain ⟨fuel, rfl⟩ := Nat.exists_eq_add_of_le' (Nat.le_of_add_left_le hfuel)
    have hlen := commentLength?_line body.property hnul.2.2 [] (by simp)
    have hlex := lex_comment hlen fuel off
    rw [List.append_nil] at hlex
    rw [hlex, lex]
  · rw [lex]

theorem told (d : Document) : Told d.lastText d.pieces := by
  have hend : Told d.lastText [] := trivial
  have hstops : Stops (textOf [] ++ d.lastText) := by
    unfold lastText
    split
    · exact stops_of_head (by decide)
    · exact stops_nil
  have htrail := told_gap d.trail hend
  have hroot := told_pieces d.root htrail (stops_after d.trail hstops)
  rw [List.append_nil] at hroot
  exact told_gap d.lead hroot

/-- The words of a document are those of its value. -/
theorem located_pieces (d : Document) :
    located 0 d.pieces = located (width (gap d.lead)) d.root.pieces := by
  simp only [pieces, located_append, located_gap, List.nil_append, List.append_nil, Nat.zero_add]

/-- A document does not start with a byte order mark. -/
theorem text_ne_mark (h : d.Plain) (cs : List Char) : d.text.toList ≠ '\uFEFF' :: cs := by
  have htold := d.told
  have hplus := fun n => h.plus_of_mem (n := n)
  rw [toList_text]
  cases hp : d.pieces with
  | nil =>
    obtain ⟨m, span, ts, hts, -⟩ := exists_first_word d.root (width (gap d.lead))
    rw [← located_pieces, hp] at hts
    cases hts
  | cons p ps =>
    rw [hp] at htold hplus
    intro heq
    cases p with
    | filler f =>
      cases f with
      | blank c hc =>
        obtain ⟨rfl, -⟩ := List.cons.inj heq
        exact absurd hc (by decide)
      | line body hb => cases heq
      | block body hb => cases heq
    | word m =>
      have hapart := htold.apart fun n hn => hplus n (hn ▸ List.mem_cons_self)
      obtain ⟨c, cs', hword, -, -, hne⟩ := hapart.exists_cons
      have htext : textOf (.word m :: ps) = m.word ++ textOf ps := by
        simp [textOf, Piece.text]
      rw [htext, hword] at heq
      exact hne (List.cons.inj heq).1

theorem tokens?_text (h : d.Plain) :
    tokens? .lenient d.text = some (located (width (gap d.lead)) d.root.pieces) := by
  have hnul := h.nul
  rw [toList_text, List.mem_append, not_or] at hnul
  have hlex := lex_pieces d.told hnul.1 (fun n => h.plus_of_mem)
    (fun fuel off hfuel => lex_lastText hnul.2 hfuel off) (Nat.le_refl _) 0
  rw [← toList_text, located_pieces] at hlex
  have hmark := text_ne_mark h
  simp only [tokens?]
  split
  · next heq => exact absurd heq (hmark _)
  · exact hlex

/-- **A document is read as the value it was written for**, with the place of every node. -/
theorem parse?_text (h : d.Plain) : parse? .lenient d.text = some [d.tree] := by
  have hread : readTree (2 * wordCount d.root.pieces)
      (located (width (gap d.lead)) d.root.pieces ++ []) = some (d.tree, []) :=
    readTree_located d.root (Nat.le_refl _)
  rw [List.append_nil, ← length_located (width (gap d.lead))] at hread
  obtain ⟨m, span, ts, hts, -⟩ := exists_first_word d.root (width (gap d.lead))
  rw [hts] at hread
  simp only [parse?, tokens?_text h, hts, Option.bind_eq_bind, Option.bind_some, List.length_cons]
  rw [readAll, hread]
  · simp [readAll]
  · simp

end Document

end DepScope.Json
