import DepScope.Json.Value
import DepScope.Proofs.Json.Word

/-!
# DepScope.Proofs.Json.Spelling

The texts that stand for a value. A `Spelling` is a value together with everything a writer is free to
choose: blanks and comments between the words, and how each character of a string is written. A
`Document` puts blanks and comments around it as well.

1. `Spelling.value` forgets the choices, `Spelling.pieces` writes them out: the words of the text with
   the blanks and comments between them.
2. A node of a value is named by the way to it (`Place`). In a text, `Spelling.cut?` cuts a node out:
   what stands before it, the node, and what stands after it are the whole text (`pieces_of_cut?`).
3. `Spelling.tree` is the value with the places that the nodes have in the text. The place of a node is
   where it is cut out (`spanAt?_tree`), and nothing but the places depends on the choices
   (`value_tree`).
-/

namespace DepScope.Json

open Text

/-! ## Words that can be written in several ways -/

/-- The escapes of one letter, each with what it stands for. -/
def shortForms : List (Char × Char) :=
  [('"', '"'), ('\\', '\\'), ('/', '/'), ('b', '\x08'), ('f', '\x0c'), ('n', '\n'), ('r', '\r'),
    ('t', '\t')]

/-- The ways to write a character between quotes: as it is, with an escape of one letter, or each of
its UTF-16 units by four hexadecimal digits of either case. -/
inductive Spells : Char → List Char → Prop
  | plain {c : Char} : 0x20 ≤ c.toNat → c ≠ '"' → c ≠ '\\' → Spells c [c]
  | short {e c : Char} : (e, c) ∈ shortForms → Spells c ['\\', e]
  | units {c : Char} (dss : List (List Char)) :
      dss.map (·.map lowerAscii) = (unitsOf c).map hex4 →
      Spells c (dss.flatMap fun ds => '\\' :: 'u' :: ds)

/-- The ways to write a text between quotes. -/
inductive SpellsText : List Char → List Char → Prop
  | nil : SpellsText [] []
  | cons {c : Char} {word s body : List Char} :
      Spells c word → SpellsText s body → SpellsText (c :: s) (word ++ body)

/-- A text, and what is written for it between quotes. -/
structure Literal where
  text : String
  body : List Char
  spelled : SpellsText text.toList body

/-- A text of plain characters can be written as it is. -/
theorem spellsText_self {s : List Char} (h : s.all (fun c => decide (IsPlain c)) = true) :
    SpellsText s s := by
  induction s with
  | nil => exact .nil
  | cons c s ih =>
    rw [List.all_cons, Bool.and_eq_true, decide_eq_true_eq] at h
    obtain ⟨⟨hge, hquote, hslash⟩, hs⟩ := h
    exact .cons (.plain hge hquote hslash) (ih hs)

/-- A text that is written as it is. -/
def Literal.plain (s : String) (h : s.toList.all (fun c => decide (IsPlain c)) = true) : Literal :=
  ⟨s, s.toList, spellsText_self h⟩

/-- A number as it is written. -/
structure Numeral where
  text : List Char
  grammar : IsNumber text

/-- A blank or a comment. A comment that goes to the end of its line has that end. -/
inductive Filler where
  | blank (c : Char) (h : isAsciiBlank c = true)
  | line (body : List Char) (h : '\n' ∉ body)
  | block (body : List Char) (h : ¬['*', '/'] <:+: body)

/-- A filler as it is written. -/
def Filler.text : Filler → List Char
  | blank c _ => [c]
  | line body _ => '/' :: '/' :: (body ++ ['\n'])
  | block body _ => '/' :: '*' :: (body ++ ['*', '/'])

/-- What stands between two words. -/
abbrev Gap := List Filler

/-! ## Pieces of a text -/

/-- A word, or what stands between words. -/
inductive Piece where
  | filler (f : Filler)
  | word (m : Mark)

/-- A piece as it is written. -/
def Piece.text : Piece → List Char
  | filler f => f.text
  | word m => m.word

/-- Pieces one after the other. -/
def textOf (ps : List Piece) : List Char :=
  ps.flatMap Piece.text

/-- The number of bytes of pieces. -/
def width (ps : List Piece) : Nat :=
  byteLength (textOf ps)

theorem textOf_append (ps qs : List Piece) : textOf (ps ++ qs) = textOf ps ++ textOf qs :=
  List.flatMap_append

@[simp]
theorem width_nil : width [] = 0 := rfl

theorem width_append (ps qs : List Piece) : width (ps ++ qs) = width ps + width qs := by
  rw [width, textOf_append, byteLength_append, width, width]

theorem width_cons (p : Piece) (ps : List Piece) :
    width (p :: ps) = byteLength p.text + width ps := by
  rw [width, textOf, List.flatMap_cons, byteLength_append]
  rfl

/-- The pieces of a gap. -/
def gap (g : Gap) : List Piece :=
  g.map .filler

/-- The comma in front of all but the first. -/
def comma (first : Bool) : List Piece :=
  if first then [] else [.word .comma]

/-! ## Spellings -/

/-- The gaps around an item of an array. -/
structure Around where
  before : Gap := []
  after : Gap := []

/-- The name of a member, and the gaps around it, the colon and the value. -/
structure Label where
  before : Gap := []
  name : Literal
  beforeColon : Gap := []
  afterColon : Gap := []
  after : Gap := []

/-- A value with a choice of how to write it. -/
inductive Spelling where
  | null
  | truth (b : Bool)
  | number (n : Numeral)
  | string (l : Literal)
  | array (inner : Gap) (items : List (Around × Spelling))
  | object (inner : Gap) (members : List (Label × Spelling))

mutual

/-- The value that is written. -/
def Spelling.value : Spelling → Value
  | .null => .null
  | .truth b => .truth b
  | .number n => .number (Number.ofText? n.text)
  | .string l => .string (some l.text)
  | .array _ items => .array (itemValues items)
  | .object _ ms => .object (memberValues ms)

/-- The values of the items of an array. -/
def itemValues : List (Around × Spelling) → List Value
  | [] => []
  | (_, s) :: rest => s.value :: itemValues rest

/-- The names and values of the members of an object. -/
def memberValues : List (Label × Spelling) → List (Option String × Value)
  | [] => []
  | (l, s) :: rest => (some l.name.text, s.value) :: memberValues rest

end

/-- The name of a member and the colon, in front of its value. -/
def Label.pieces (l : Label) : List Piece :=
  .word (.string l.name.body) :: (gap l.beforeColon ++ .word .colon :: gap l.afterColon)

mutual

/-- What is written for a value. -/
def Spelling.pieces : Spelling → List Piece
  | .null => [.word .null]
  | .truth b => [.word (if b then .true else .false)]
  | .number n => [.word (.number n.text)]
  | .string l => [.word (.string l.body)]
  | .array g items =>
    .word .openBracket :: gap g ++ (itemPieces true items ++ [.word .closeBracket])
  | .object g ms =>
    .word .openBrace :: gap g ++ (memberPieces true ms ++ [.word .closeBrace])

/-- What is written for the items of an array. -/
def itemPieces (first : Bool) : List (Around × Spelling) → List Piece
  | [] => []
  | (a, s) :: rest =>
    comma first ++ gap a.before ++ (s.pieces ++ (gap a.after ++ itemPieces false rest))

/-- What is written for the members of an object. -/
def memberPieces (first : Bool) : List (Label × Spelling) → List Piece
  | [] => []
  | (l, s) :: rest =>
    comma first ++ gap l.before ++
      (l.pieces ++ s.pieces ++ (gap l.after ++ memberPieces false rest))

end

/-! ## Nodes -/

mutual

/-- A node of a value: the value itself, or a node inside of it. -/
inductive Place where
  | here
  | inside (w : Way)

/-- The way to a node among members or items: the name of the first member, that member as a whole, a
node of the value of the first member or item, or a node of those that come after it. -/
inductive Way where
  | name
  | pair
  | child (p : Place)
  | next (w : Way)

end

mutual

/-- The span of a node. -/
def Tree.spanAt? : Tree → Place → Option Span
  | t, .here => some t.span
  | .array _ items, .inside w => itemSpanAt? items w
  | .object _ ms, .inside w => memberSpanAt? ms w
  | _, .inside _ => none

/-- The span of a node of the items of an array. -/
def itemSpanAt? : List Tree → Way → Option Span
  | t :: _, .child p => t.spanAt? p
  | _ :: ts, .next w => itemSpanAt? ts w
  | _, _ => none

/-- The span of a node of the members of an object. -/
def memberSpanAt? : List (Key × Tree) → Way → Option Span
  | (k, _) :: _, .name => some k.span
  | (k, t) :: _, .pair => some ⟨k.span.start, t.span.stop⟩
  | (_, t) :: _, .child p => t.spanAt? p
  | _ :: ms, .next w => memberSpanAt? ms w
  | [], _ => none

end

/-- A node that is cut out of a text. -/
structure Cut where
  before : List Piece
  node : List Piece
  after : List Piece

namespace Cut

variable (c : Cut) (before after : List Piece) (off : Nat)

/-- The text from which a node is cut out. -/
def pieces : List Piece :=
  c.before ++ c.node ++ c.after

/-- The same node in a longer text. -/
def within : Cut :=
  ⟨before ++ c.before, c.node, c.after ++ after⟩

/-- The span of a node in a text that starts at an offset. -/
def span : Span :=
  ⟨off + width c.before, off + width c.before + width c.node⟩

theorem pieces_within : (c.within before after).pieces = before ++ (c.pieces ++ after) := by
  simp [pieces, within]

theorem span_within : (c.within before after).span off = c.span (off + width before) := by
  simp [span, within, width_append, Nat.add_assoc]

end Cut

mutual

/-- Cuts a node out of what is written for a value. -/
def Spelling.cut? : Spelling → Place → Option Cut
  | s, .here => some ⟨[], s.pieces, []⟩
  | .array g items, .inside w =>
    (cutItem? true items w).map (·.within (.word .openBracket :: gap g) [.word .closeBracket])
  | .object g ms, .inside w =>
    (cutMember? true ms w).map (·.within (.word .openBrace :: gap g) [.word .closeBrace])
  | _, .inside _ => none

/-- Cuts a node out of what is written for the items of an array. -/
def cutItem? (first : Bool) : List (Around × Spelling) → Way → Option Cut
  | (a, s) :: rest, .child p =>
    (s.cut? p).map (·.within (comma first ++ gap a.before) (gap a.after ++ itemPieces false rest))
  | (a, s) :: rest, .next w =>
    (cutItem? false rest w).map
      (·.within (comma first ++ gap a.before ++ (s.pieces ++ gap a.after)) [])
  | _, _ => none

/-- Cuts a node out of what is written for the members of an object. -/
def cutMember? (first : Bool) : List (Label × Spelling) → Way → Option Cut
  | (l, s) :: rest, .name =>
    some ⟨comma first ++ gap l.before, [.word (.string l.name.body)],
      gap l.beforeColon ++ .word .colon :: gap l.afterColon ++
        (s.pieces ++ (gap l.after ++ memberPieces false rest))⟩
  | (l, s) :: rest, .pair =>
    some ⟨comma first ++ gap l.before, l.pieces ++ s.pieces,
      gap l.after ++ memberPieces false rest⟩
  | (l, s) :: rest, .child p =>
    (s.cut? p).map
      (·.within (comma first ++ gap l.before ++ l.pieces) (gap l.after ++ memberPieces false rest))
  | (l, s) :: rest, .next w =>
    (cutMember? false rest w).map
      (·.within (comma first ++ gap l.before ++ (l.pieces ++ s.pieces ++ gap l.after)) [])
  | [], _ => none

end

mutual

/-- **A node that is cut out** is a part of the text. -/
theorem pieces_of_cut? : (s : Spelling) → (p : Place) → {c : Cut} → s.cut? p = some c →
    c.pieces = s.pieces
  | s, .here, _, h => by
    rw [Spelling.cut?] at h
    cases h
    simp [Cut.pieces]
  | .array g items, .inside w, _, h => by
    obtain ⟨c, hc, rfl⟩ := Option.map_eq_some_iff.mp h
    rw [Cut.pieces_within, pieces_of_cutItem? true items w hc, Spelling.pieces]
  | .object g ms, .inside w, _, h => by
    obtain ⟨c, hc, rfl⟩ := Option.map_eq_some_iff.mp h
    rw [Cut.pieces_within, pieces_of_cutMember? true ms w hc, Spelling.pieces]

theorem pieces_of_cutItem? (first : Bool) : (items : List (Around × Spelling)) → (w : Way) →
    {c : Cut} → cutItem? first items w = some c → c.pieces = itemPieces first items
  | (a, s) :: rest, .child p, _, h => by
    obtain ⟨c, hc, rfl⟩ := Option.map_eq_some_iff.mp h
    rw [Cut.pieces_within, pieces_of_cut? s p hc, itemPieces]
  | (a, s) :: rest, .next w, _, h => by
    obtain ⟨c, hc, rfl⟩ := Option.map_eq_some_iff.mp h
    rw [Cut.pieces_within, pieces_of_cutItem? false rest w hc, itemPieces]
    simp only [List.append_assoc, List.append_nil]

theorem pieces_of_cutMember? (first : Bool) : (ms : List (Label × Spelling)) → (w : Way) →
    {c : Cut} → cutMember? first ms w = some c → c.pieces = memberPieces first ms
  | (l, s) :: rest, .name, _, h => by
    rw [cutMember?] at h
    cases h
    simp [Cut.pieces, memberPieces, Label.pieces]
  | (l, s) :: rest, .pair, _, h => by
    rw [cutMember?] at h
    cases h
    simp [Cut.pieces, memberPieces]
  | (l, s) :: rest, .child p, _, h => by
    obtain ⟨c, hc, rfl⟩ := Option.map_eq_some_iff.mp h
    rw [Cut.pieces_within, pieces_of_cut? s p hc, memberPieces]
    simp only [List.append_assoc]
  | (l, s) :: rest, .next w, _, h => by
    obtain ⟨c, hc, rfl⟩ := Option.map_eq_some_iff.mp h
    rw [Cut.pieces_within, pieces_of_cutMember? false rest w hc, memberPieces]
    simp only [List.append_assoc, List.append_nil]

end

/-! ## The value with its places -/

/-- The span of what is written for a value from an offset on. -/
def Spelling.span (off : Nat) (s : Spelling) : Span :=
  ⟨off, off + width s.pieces⟩

mutual

/-- The value that is written from an offset on, with its places. -/
def Spelling.tree (off : Nat) : Spelling → Tree
  | .null => .null (Spelling.null.span off)
  | .truth b => .truth ((Spelling.truth b).span off) b
  | .number n => .number ((Spelling.number n).span off) n.text
  | .string l => .string ((Spelling.string l).span off) (some l.text)
  | .array g items =>
    .array ((Spelling.array g items).span off)
      (itemTrees (off + width (.word .openBracket :: gap g)) true items)
  | .object g ms =>
    .object ((Spelling.object g ms).span off)
      (memberTrees (off + width (.word .openBrace :: gap g)) true ms)

/-- The items of an array with their places. -/
def itemTrees (off : Nat) (first : Bool) : List (Around × Spelling) → List Tree
  | [] => []
  | (a, s) :: rest =>
    let start := off + width (comma first ++ gap a.before)
    s.tree start :: itemTrees (start + width (s.pieces ++ gap a.after)) false rest

/-- The members of an object with their places. -/
def memberTrees (off : Nat) (first : Bool) : List (Label × Spelling) → List (Key × Tree)
  | [] => []
  | (l, s) :: rest =>
    let start := off + width (comma first ++ gap l.before)
    (⟨⟨start, start + width [.word (.string l.name.body)]⟩, some l.name.text⟩,
        s.tree (start + width l.pieces)) ::
      memberTrees (start + width (l.pieces ++ s.pieces ++ gap l.after)) false rest

end

@[simp]
theorem span_tree (off : Nat) (s : Spelling) : (s.tree off).span = s.span off := by
  cases s <;> rfl

mutual

/-- The choices do not show in the value. -/
theorem value_tree (off : Nat) : (s : Spelling) → (s.tree off).value = s.value
  | .null => rfl
  | .truth b => rfl
  | .number n => rfl
  | .string l => rfl
  | .array g items => by
    rw [Spelling.tree, Tree.value, values_itemTrees, Spelling.value]
  | .object g ms => by
    rw [Spelling.tree, Tree.value, memberValues_memberTrees, Spelling.value]

theorem values_itemTrees (off : Nat) (first : Bool) : (items : List (Around × Spelling)) →
    Tree.values (itemTrees off first items) = itemValues items
  | [] => rfl
  | (a, s) :: rest => by
    rw [itemTrees, Tree.values, value_tree _ s, values_itemTrees _ false rest, itemValues]

theorem memberValues_memberTrees (off : Nat) (first : Bool) : (ms : List (Label × Spelling)) →
    Tree.memberValues (memberTrees off first ms) = memberValues ms
  | [] => rfl
  | (l, s) :: rest => by
    rw [memberTrees, Tree.memberValues, value_tree _ s, memberValues_memberTrees _ false rest,
      memberValues]

end

mutual

/-- **The span of a node** is where it is cut out of the text. -/
theorem spanAt?_tree (off : Nat) : (s : Spelling) → (p : Place) →
    (s.tree off).spanAt? p = (s.cut? p).map (·.span off)
  | s, .here => by
    simp [Tree.spanAt?, Spelling.cut?, Cut.span, Spelling.span]
  | .array g items, .inside w => by
    rw [Spelling.tree, Tree.spanAt?, itemSpanAt?_itemTrees, Spelling.cut?, Option.map_map]
    simp only [Function.comp_def, Cut.span_within]
  | .object g ms, .inside w => by
    rw [Spelling.tree, Tree.spanAt?, memberSpanAt?_memberTrees, Spelling.cut?, Option.map_map]
    simp only [Function.comp_def, Cut.span_within]
  | .null, .inside w => rfl
  | .truth b, .inside w => rfl
  | .number n, .inside w => rfl
  | .string l, .inside w => rfl

theorem itemSpanAt?_itemTrees (off : Nat) (first : Bool) : (items : List (Around × Spelling)) →
    (w : Way) → itemSpanAt? (itemTrees off first items) w =
      (cutItem? first items w).map (·.span off)
  | (a, s) :: rest, .child p => by
    rw [itemTrees, itemSpanAt?, spanAt?_tree _ s p, cutItem?, Option.map_map]
    simp only [Function.comp_def, Cut.span_within]
  | (a, s) :: rest, .next w => by
    rw [itemTrees, itemSpanAt?, itemSpanAt?_itemTrees _ false rest w, cutItem?, Option.map_map]
    simp only [Function.comp_def, Cut.span_within, width_append, Nat.add_assoc]
  | (a, s) :: rest, .name => rfl
  | (a, s) :: rest, .pair => rfl
  | [], w => by cases w <;> rfl

theorem memberSpanAt?_memberTrees (off : Nat) (first : Bool) : (ms : List (Label × Spelling)) →
    (w : Way) → memberSpanAt? (memberTrees off first ms) w =
      (cutMember? first ms w).map (·.span off)
  | (l, s) :: rest, .name => rfl
  | (l, s) :: rest, .pair => by
    simp [memberTrees, memberSpanAt?, cutMember?, Cut.span, Spelling.span, width_append,
      Nat.add_assoc]
  | (l, s) :: rest, .child p => by
    rw [memberTrees, memberSpanAt?, spanAt?_tree _ s p, cutMember?, Option.map_map]
    simp only [Function.comp_def, Cut.span_within, width_append, Nat.add_assoc]
  | (l, s) :: rest, .next w => by
    rw [memberTrees, memberSpanAt?, memberSpanAt?_memberTrees _ false rest w, cutMember?,
      Option.map_map]
    simp only [Function.comp_def, Cut.span_within, width_append, Nat.add_assoc]
  | [], w => by cases w <;> rfl

end

/-! ## Documents -/

/-- A text that holds one value: gaps around it, and perhaps a comment to the end of the text. -/
structure Document where
  lead : Gap := []
  root : Spelling
  trail : Gap := []
  last : Option { body : List Char // '\n' ∉ body } := none

namespace Document

/-- The value of a document. -/
def value (d : Document) : Value :=
  d.root.value

/-- The pieces of a document up to the comment at its end. -/
def pieces (d : Document) : List Piece :=
  gap d.lead ++ (d.root.pieces ++ gap d.trail)

/-- The comment at the end. -/
def lastText (d : Document) : List Char :=
  match d.last with
  | some body => '/' :: '/' :: body.val
  | none => []

/-- The text of a document. -/
def text (d : Document) : String :=
  String.ofList (textOf d.pieces ++ d.lastText)

/-- The value with its places. -/
def tree (d : Document) : Tree :=
  d.root.tree (width (gap d.lead))

end Document

/-- A node of a document, between what stands before and after it. -/
structure Excerpt where
  before : List Char
  text : List Char
  after : List Char

/-- The bytes of a node. -/
def Excerpt.span (e : Excerpt) : Span :=
  ⟨byteLength e.before, byteLength e.before + byteLength e.text⟩

namespace Document

variable {d : Document} {p : Place}

/-- Cuts a node out of a document. -/
def excerpt? (d : Document) (p : Place) : Option Excerpt :=
  (d.root.cut? p).map fun c =>
    ⟨textOf (gap d.lead ++ c.before), textOf c.node, textOf (c.after ++ gap d.trail) ++ d.lastText⟩

theorem append_of_excerpt? {e : Excerpt} (h : d.excerpt? p = some e) :
    e.before ++ e.text ++ e.after = d.text.toList := by
  obtain ⟨c, hc, rfl⟩ := Option.map_eq_some_iff.mp h
  have hpieces : c.before ++ c.node ++ c.after = d.root.pieces := pieces_of_cut? d.root p hc
  simp [text, pieces, ← hpieces, textOf_append]

/-- **The span of a node** is where it stands in the document. -/
theorem spanAt?_excerpt : d.tree.spanAt? p = (d.excerpt? p).map Excerpt.span := by
  rw [tree, spanAt?_tree, excerpt?, Option.map_map]
  simp [Function.comp_def, Cut.span, Excerpt.span, width, textOf_append, byteLength_append]

end Document

end DepScope.Json
