import DepScope.Proofs.Scan.GoSpecs

/-!
# DepScope.Proofs.Scan.GoBlocks

Blocks of imports as they are laid out on lines.

A line of a block holds nothing or a path, perhaps with a name for it (`Code`), and may end with a
comment (`BlockLine`). The last line has the closing parenthesis (`Closing`). Such lines never start
with a parenthesis (`head?_trim`), and end with one exactly if their comment does (`getLast?_trim`), so
what the scan sees in a block (`seenFrom`) is told by the lines of the block alone, whatever stands
behind it (`inBlocks_block`).
-/

namespace DepScope.Scan

open Text Package

variable {cs v : List Char} {rs : List LineRest}

/-! ## Code -/

/-- Blanks that do not end a line. -/
def AreBlanks (cs : List Char) : Prop :=
  ∀ c ∈ cs, isBlank c = true ∧ c ≠ '\n'

instance (cs : List Char) : Decidable (AreBlanks cs) :=
  List.decidableBAll _ cs

theorem areBlanks_nil : AreBlanks [] :=
  List.forall_mem_nil _

theorem AreBlanks.blank (h : AreBlanks cs) : ∀ c ∈ cs, isBlank c = true :=
  fun c hc => (h c hc).1

theorem AreBlanks.feed_notMem (h : AreBlanks cs) : '\n' ∉ cs :=
  fun hmem => (h _ hmem).2 rfl

theorem AreBlanks.trimStart_eq (h : AreBlanks cs) : trimStart cs = [] :=
  List.dropWhile_eq_nil_iff.mpr h.blank

theorem AreBlanks.trimEnd_eq (h : AreBlanks cs) : trimEnd cs = [] := by
  rw [trimEnd, List.reverse_eq_nil_iff, List.dropWhile_eq_nil_iff]
  exact fun c hc => h.blank c (List.mem_reverse.mp hc)

theorem isBlank_quote {q : Char} (h : isPathQuote q = true) : isBlank q = false := by
  simp only [isPathQuote, Bool.or_eq_true, decide_eq_true_eq] at h
  obtain rfl | rfl := h <;> decide

theorem AreBlanks.notMem {c : Char} (h : AreBlanks cs) (hc : isBlank c = false) : c ∉ cs := by
  intro hmem
  rw [h.blank c hmem] at hc
  cases hc

theorem AreBlanks.unquoted (h : AreBlanks cs) : ∀ c ∈ cs, isPathQuote c = false := by
  intro c hc
  by_contra hquote
  exact h.notMem (isBlank_quote (by simpa using hquote)) hc

theorem areBlanks_of_isSpace (h : ∀ c ∈ cs, isSpace c = true) : AreBlanks cs := by
  intro c hc
  refine ⟨isBlank_of_isSpace (h c hc), ?_⟩
  rintro rfl
  have hspace := h _ hc
  cases hspace

theorem isSpace_of_mem_nil : ∀ c ∈ [], isSpace c = true :=
  List.forall_mem_nil _

theorem isSpace_of_mem_space : ∀ c ∈ [' '], isSpace c = true := by
  simp [isSpace]

theorem feed_notMem_nil : '\n' ∉ [] :=
  List.not_mem_nil

/-- Characters that neither quote a path nor end a line. -/
def AreUnquoted (cs : List Char) : Prop :=
  ∀ c ∈ cs, isPathQuote c = false ∧ c ≠ '\n'

instance (cs : List Char) : Decidable (AreUnquoted cs) :=
  List.decidableBAll _ cs

/-- A path in quotes, perhaps with a name for it. -/
structure Spec where
  lead : List Char
  name : List Char
  gap : List Char
  quote : Char
  path : List Char
  trail : List Char
  lead_blanks : AreBlanks lead
  named : name = [] ∨ IsName name
  gap_blanks : AreBlanks gap
  quoted : isPathQuote quote = true
  plain : AreUnquoted path
  trail_blanks : AreBlanks trail

namespace Spec

variable (s : Spec)

/-- What stands before the path. -/
def before : List Char :=
  s.lead ++ s.name ++ s.gap

/-- A spec as it is written. -/
def text : List Char :=
  s.before ++ s.quote :: (s.path ++ s.quote :: s.trail)

theorem text_append (v : List Char) :
    s.text ++ v = s.before ++ s.quote :: (s.path ++ s.quote :: (s.trail ++ v)) := by
  simp [text]

theorem quote_ne {c : Char} (hc : isPathQuote c = false) : s.quote ≠ c := by
  rintro rfl
  rw [s.quoted] at hc
  cases hc

/-- Before the path there are blanks and a name. -/
theorem plain_before {c : Char} (hc : c ∈ s.before) : isBlank c = true ∨ isLabelChar c = true := by
  simp only [before, List.mem_append] at hc
  obtain (hc | hc) | hc := hc
  · exact .inl (s.lead_blanks.blank c hc)
  · exact .inr (plain_of_named s.named hc).1
  · exact .inl (s.gap_blanks.blank c hc)

theorem before_unquoted : ∀ c ∈ s.before, isPathQuote c = false := by
  intro c hc
  by_contra hquote
  have hquote : isPathQuote c = true := by simpa using hquote
  obtain hblank | hlabel := s.plain_before hc
  · rw [isBlank_quote hquote] at hblank
    cases hblank
  · rw [isLabelChar_quote hquote] at hlabel
    cases hlabel

theorem parenthesis_notMem_before : '(' ∉ s.before := by
  intro hc
  obtain hblank | hlabel := s.plain_before hc
  · cases hblank
  · cases hlabel

theorem feed_notMem_text : '\n' ∉ s.text := by
  have hname : '\n' ∉ s.name := fun hc => (plain_of_named s.named hc).2.2 rfl
  have hpath : '\n' ∉ s.path := fun hc => (s.plain _ hc).2 rfl
  have hquote : s.quote ≠ '\n' := s.quote_ne (by decide)
  simp [text, before, s.lead_blanks.feed_notMem, hname, s.gap_blanks.feed_notMem, Ne.symm hquote,
    hpath, s.trail_blanks.feed_notMem]

/-- A spec starts with its name, or with the quote. -/
theorem head?_trimStart (v : List Char) : (trimStart (s.text ++ v)).head? ≠ some ')' := by
  rw [text_append, before, List.append_assoc, List.append_assoc, trimStart,
    List.dropWhile_append_of_pos s.lead_blanks.blank]
  cases hname : s.name with
  | nil =>
    rw [List.nil_append, List.dropWhile_append_of_pos s.gap_blanks.blank,
      List.dropWhile_cons_of_neg (by simp [isBlank_quote s.quoted])]
    exact fun heq => s.quote_ne (by decide) (Option.some.inj heq)
  | cons a name =>
    have ha : a ∈ s.name := by simp [hname]
    obtain ⟨hlabel, hne, -⟩ := plain_of_named s.named ha
    simp only [isLabelChar, Bool.and_eq_true, Bool.not_eq_true'] at hlabel
    rw [List.cons_append, List.dropWhile_cons_of_neg (by simp [hlabel.1.1])]
    exact fun heq => hne (Option.some.inj heq)

/-- Is the path read? -/
def isRead : Bool :=
  announces s.before && (!s.path.isEmpty && s.path.all (!isBlank ·))

/-- The path is read alike whatever follows. -/
theorem quotedPath?_eq (v : List Char) :
    quotedPath? (s.text ++ v) =
      if s.isRead then some ⟨s.before, s.quote, s.path, s.quote, s.trail ++ v⟩ else none := by
  rw [text_append]
  exact quotedPath?_quoted s.before_unquoted s.quoted (fun c hc => (s.plain c hc).1) s.quoted

/-- A spec opens no block. -/
theorem opened?_text (v : List Char) (n : Nat) (lead : List Char) :
    opened? ⟨n, lead, s.text ++ v⟩ = none := by
  rw [text_append]
  exact opened?_quoted s.parenthesis_notMem_before s.quoted n lead

end Spec

/-- The code of a line inside a block. -/
inductive Code
  | blank (blanks : List Char) (valid : AreBlanks blanks)
  | spec (s : Spec)

/-- Code as it is written. -/
def Code.text : Code → List Char
  | .blank blanks _ => blanks
  | .spec s => s.text

/-! ## Lines -/

/-- A comment up to the end of its line. What ends the line, such as a carriage return, may be left
out of it. -/
structure Comment where
  text : List Char
  ending : List Char
  feed_notMem : '\n' ∉ text
  ending_blanks : AreBlanks ending

/-- A comment as it is written. -/
def Comment.written (c : Comment) : List Char :=
  '/' :: '/' :: (c.text ++ c.ending)

/-- Is the last character of the comment a closing parenthesis? -/
def Comment.shuts (c : Comment) : Bool :=
  (trimEnd c.text).getLast? == some ')'

/-- A line inside a block: code, then perhaps a comment. -/
structure BlockLine where
  code : Code
  comment : Option Comment

namespace BlockLine

variable (b : BlockLine)

/-- A line as it is written. -/
def text : List Char :=
  b.code.text ++ (b.comment.map Comment.written).getD []

/-- Does the line look as if it closed the block? -/
def shuts : Bool :=
  b.comment.any Comment.shuts

theorem feed_notMem : '\n' ∉ b.text := by
  have hcode : '\n' ∉ b.code.text := by
    cases b.code with
    | blank blanks valid => exact valid.feed_notMem
    | spec s => exact s.feed_notMem_text
  cases hcomment : b.comment with
  | none => simpa [text, hcomment] using hcode
  | some c =>
    have hending := c.ending_blanks.feed_notMem
    simp [text, hcomment, hcode, Comment.written, c.feed_notMem, hending]

/-- A line without code has its comment first. -/
theorem head?_of_blank {blanks : List Char} {valid : AreBlanks blanks} {c : Char}
    (h : b.code = .blank blanks valid) (hc : c ≠ '/') : (trimStart b.text).head? ≠ some c := by
  rw [text, h, Code.text, trimStart, List.dropWhile_append_of_pos valid.blank]
  cases b.comment with
  | none => simp
  | some x =>
    have hslash : isBlank '/' = false := by decide
    simp [Comment.written, hslash, Ne.symm hc]

theorem head?_trim : (trim b.text).head? ≠ some ')' := by
  rw [Text.head?_trim]
  cases hcode : b.code with
  | blank blanks valid => exact b.head?_of_blank hcode (by decide)
  | spec s =>
    rw [text, hcode]
    exact s.head?_trimStart _

theorem getLast?_trim : ((trim b.text).getLast? == some ')') = b.shuts := by
  cases hcomment : b.comment with
  | none =>
    rw [text, shuts, hcomment, Option.map_none, Option.getD_none, List.append_nil]
    cases b.code with
    | blank blanks valid =>
      rw [Code.text, trim, valid.trimStart_eq]
      rfl
    | spec s =>
      have hcut : s.text = (s.before ++ s.quote :: s.path) ++ s.quote :: s.trail := by
        simp [Spec.text]
      have hne : s.quote ≠ ')' := s.quote_ne (by decide)
      rw [Code.text, hcut, trim_append (isBlank_quote s.quoted), s.trail_blanks.trimEnd_eq]
      simp [hne]
  | some c =>
    have hcut : b.text = (b.code.text ++ ['/']) ++ '/' :: (c.text ++ c.ending) := by
      simp [text, hcomment, Comment.written]
    rw [hcut, trim_append (by decide), trimEnd_append_blanks c.ending_blanks.blank, shuts, hcomment,
      Option.any_some, Comment.shuts, List.getLast?_append, List.getLast?_cons]
    cases (trimEnd c.text).getLast? with
    | none => rfl
    | some d => rfl

theorem opened?_text (n : Nat) (lead : List Char) : opened? ⟨n, lead, b.text⟩ = none := by
  cases hcode : b.code with
  | blank blanks valid => exact opened?_of_head (b.head?_of_blank hcode (by decide)) n lead
  | spec s =>
    rw [text, hcode]
    exact s.opened?_text _ n lead

/-- What is seen inside a block from a line on. -/
theorem inBlock_cons (i : Nat) (lead : List Char) (rs : List LineRest) :
    inBlock (⟨i, lead, b.text⟩ :: rs) =
      ((quotedPath? b.text).map (Sighting.mk i lead)).toList ++
        (if b.shuts then [] else inBlock rs) := by
  have hhead : ((trim b.text).head? == some ')') = false := by simpa using b.head?_trim
  simp only [inBlock, hhead, b.getLast?_trim]
  rfl

end BlockLine

/-- The line that closes a block: the parenthesis comes first on it, or stands behind a spec with
nothing after it. -/
inductive Closing
  | alone (blanks rest : List Char) (valid : AreBlanks blanks) (feed : '\n' ∉ rest)
  | behind (s : Spec) (blanks : List Char) (valid : AreBlanks blanks)

namespace Closing

/-- A closing line as it is written. -/
def text : Closing → List Char
  | .alone blanks rest _ _ => blanks ++ ')' :: rest
  | .behind s blanks _ => s.text ++ ')' :: blanks

/-- The path that is seen on a closing line. -/
def seen (i : Nat) (lead : List Char) : Closing → List Sighting
  | .alone _ _ _ _ => []
  | .behind s blanks _ =>
    ((quotedPath? (s.text ++ ')' :: blanks)).map (Sighting.mk i lead)).toList

variable (z : Closing)

theorem feed_notMem : '\n' ∉ z.text := by
  cases z with
  | alone blanks rest valid feed => simp [text, valid.feed_notMem, feed]
  | behind s blanks valid => simp [text, s.feed_notMem_text, valid.feed_notMem]

theorem opened?_text (n : Nat) (lead : List Char) : opened? ⟨n, lead, z.text⟩ = none := by
  cases z with
  | alone blanks rest valid feed =>
    refine opened?_of_head ?_ n lead
    have hclosing : isBlank ')' = false := by decide
    simp [text, trimStart, List.dropWhile_append_of_pos valid.blank, hclosing]
  | behind s blanks valid => exact s.opened?_text _ n lead

/-- A block ends with its closing line. -/
theorem inBlock_closing (i : Nat) (lead : List Char) (rs : List LineRest) :
    inBlock (⟨i, lead, z.text⟩ :: rs) = z.seen i lead := by
  cases z with
  | alone blanks rest valid feed =>
    have htrim : trim (blanks ++ ')' :: rest) = ')' :: trimEnd rest := by
      rw [trim_append (by decide), valid.trimStart_eq, List.nil_append]
    simp only [inBlock, text, htrim, List.head?_cons, BEq.rfl, if_true, seen]
  | behind s blanks valid =>
    have hhead : ((trim (s.text ++ ')' :: blanks)).head? == some ')') = false := by
      rw [Text.head?_trim]
      simpa using s.head?_trimStart _
    have hlast : ((trim (s.text ++ ')' :: blanks)).getLast? == some ')') = true := by
      rw [trim_append (by decide), valid.trimEnd_eq]
      simp
    simp only [inBlock, text, hhead, hlast, if_true, List.append_nil, seen]
    rfl

end Closing

/-! ## Blocks -/

/-- A block of imports: the blanks of its opening line, the lines inside it, the first of which goes on
where the block is opened, and its closing line. -/
structure Block where
  indent : List Char
  gap : List Char
  body : List BlockLine
  closing : Closing
  indent_spaces : ∀ c ∈ indent, isSpace c = true
  gap_spaces : ∀ c ∈ gap, isSpace c = true

/-- What the scan sees on lines inside a block. -/
def seenFrom (z : Closing) : Nat → List Char → List BlockLine → List Sighting
  | i, lead, [] => z.seen i lead
  | i, lead, b :: bs =>
    ((quotedPath? b.text).map (Sighting.mk i lead)).toList ++
      (if b.shuts then [] else seenFrom z (i + 1) [] bs)

/-- The lines inside a block. -/
def inside (z : Closing) (bs : List BlockLine) : List (List Char) :=
  bs.map BlockLine.text ++ [z.text]

theorem feed_notMem_inside (z : Closing) (bs : List BlockLine) : ∀ l ∈ inside z bs, '\n' ∉ l := by
  intro l hl
  obtain hl | hl := List.mem_append.mp hl
  · obtain ⟨b, -, rfl⟩ := List.mem_map.mp hl
    exact b.feed_notMem
  · obtain rfl := List.mem_singleton.mp hl
    exact z.feed_notMem

theorem opened?_inside (z : Closing) (bs : List BlockLine) :
    ∀ l ∈ inside z bs, ∀ n, opened? ⟨n, [], l⟩ = none := by
  intro l hl n
  obtain hl | hl := List.mem_append.mp hl
  · obtain ⟨b, -, rfl⟩ := List.mem_map.mp hl
    exact b.opened?_text n []
  · obtain rfl := List.mem_singleton.mp hl
    exact z.opened?_text n []

theorem inBlock_inside (z : Closing) (bs : List BlockLine) (i : Nat) (rs : List LineRest) :
    inBlock (numbered i (inside z bs) ++ rs) = seenFrom z i [] bs := by
  induction bs generalizing i with
  | nil => exact z.inBlock_closing i [] rs
  | cons b bs ih =>
    have hlines : numbered i (inside z (b :: bs)) =
        ⟨i, [], b.text⟩ :: numbered (i + 1) (inside z bs) := rfl
    rw [hlines, List.cons_append, b.inBlock_cons, ih, seenFrom]

namespace Block

variable (b : Block)

/-- What opens a block. -/
def opening : List Char :=
  b.indent ++ "import".toList ++ b.gap ++ ['(']

/-- The lines of a block. -/
def lines : List (List Char) :=
  (inside b.closing b.body).modifyHead (b.opening ++ ·)

theorem lines_of_nil (h : b.body = []) : b.lines = [b.opening ++ b.closing.text] := by
  rw [lines, h]
  rfl

theorem lines_of_cons {l : BlockLine} {bs : List BlockLine} (h : b.body = l :: bs) :
    b.lines = (b.opening ++ l.text) :: inside b.closing bs := by
  rw [lines, h]
  rfl

theorem length_lines : b.lines.length = b.body.length + 1 := by
  simp [lines, inside]

theorem feed_notMem_opening : '\n' ∉ b.opening := by
  have hindent := (areBlanks_of_isSpace b.indent_spaces).feed_notMem
  have hgap := (areBlanks_of_isSpace b.gap_spaces).feed_notMem
  simp [opening, hindent, hgap]

theorem feed_notMem_lines : ∀ l ∈ b.lines, '\n' ∉ l := by
  have hfirst {l : List Char} (hl : '\n' ∉ l) : '\n' ∉ b.opening ++ l := by
    simp only [List.mem_append, b.feed_notMem_opening, hl, or_self, not_false_eq_true]
  cases hbody : b.body with
  | nil =>
    rw [b.lines_of_nil hbody]
    simpa using hfirst b.closing.feed_notMem
  | cons l bs =>
    rw [b.lines_of_cons hbody]
    exact List.forall_mem_cons.mpr ⟨hfirst l.feed_notMem, feed_notMem_inside b.closing bs⟩

/-- The keyword and the parenthesis open a block. -/
theorem opened?_opening (i : Nat) (l : List Char) :
    opened? ⟨i, [], b.opening ++ l⟩ = some ⟨i, b.opening, l⟩ := by
  have hline : b.opening ++ l = b.indent ++ "import".toList ++ (b.gap ++ '(' :: l) := by
    simp [opening]
  have hstop : isSpace '(' = false := by decide
  have hgap := List.takeWhile_eq_self_iff.mpr b.gap_spaces
  have hrest := List.dropWhile_eq_nil_iff.mpr b.gap_spaces
  simp only [opened?, hline, afterImport?_keyword b.indent_spaces, Option.bind_eq_bind,
    Option.bind_some, drop_takeWhile, takeWhile_append_stop hstop, dropWhile_append_stop hstop,
    hgap, hrest, List.nil_append]
  rfl

/-- **What the scan sees in a block** is told by the lines of the block. -/
theorem inBlocks_block (i : Nat) (rs : List LineRest) :
    inBlocks (numbered i b.lines ++ rs) = seenFrom b.closing i b.opening b.body ++ inBlocks rs := by
  cases hbody : b.body with
  | nil =>
    have hclosing := b.closing.inBlock_closing i b.opening rs
    rw [b.lines_of_nil hbody, numbered_cons, List.cons_append, inBlocks, opened?_opening]
    exact congrArg (· ++ inBlocks rs) hclosing
  | cons l bs =>
    rw [b.lines_of_cons hbody, numbered_cons, List.cons_append, inBlocks, opened?_opening,
      inBlocks_unopened (opened?_inside b.closing bs), seenFrom]
    simp only [l.inBlock_cons, inBlock_inside]

end Block

end DepScope.Scan
