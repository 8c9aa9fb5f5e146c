import DepScope.Proofs.Scan.GoBlocks

/-!
# DepScope.Proofs.Scan.GoComments

Comments inside blocks of imports.

1. With each comment crossed out, a block brings what its code imports (`seenFrom_masked`), and lines
   that import by themselves are the same ones (`singles_masked`).
2. As they are written, comments may change what a block brings in two ways: one without code before it
   may look like an import, and one that ends with a closing parenthesis ends the block. Where neither
   happens before code that imports, they do no harm (`seenFrom_harmless`); where it does, it shows on
   the lines that imports are found on (`harmless_of_lines`).
3. So a text is scanned as if its comments were crossed out exactly if they are harmless in each of its
   blocks (`go_masked_iff_harmless`).
-/

namespace DepScope.Scan

open Text Package

/-! ## Texts with blocks -/

/-- A comment with each of its characters crossed out. -/
def Comment.masked (c : Comment) : Comment where
  text := c.text.map fun _ => 'x'
  ending := c.ending
  feed_notMem := by simp
  ending_blanks := c.ending_blanks

/-- A line of a block with its comment crossed out. -/
def BlockLine.masked (b : BlockLine) : BlockLine :=
  { b with comment := b.comment.map Comment.masked }

/-- A block with the comments of its lines crossed out. -/
def Block.masked (b : Block) : Block :=
  { b with body := b.body.map BlockLine.masked }

/-- A part of a text: a line that opens no block, or a block. -/
inductive TextPart
  | line (text : List Char) (feed : '\n' ∉ text) (unopened : opensBlock? 0 text = none)
  | block (b : Block)

/-- The lines of a part. -/
def TextPart.lines : TextPart → List (List Char)
  | .line text _ _ => [text]
  | .block b => b.lines

/-- A part with the comments of its block crossed out. -/
def TextPart.masked : TextPart → TextPart
  | .line text feed unopened => .line text feed unopened
  | .block b => .block b.masked

/-- The text of some parts. -/
def source (ps : List TextPart) : String :=
  textOf (ps.flatMap TextPart.lines)

variable {z : Closing} {bs : List BlockLine} {ps : List TextPart} {i n : Nat} {lead : List Char}

/-! ## What code imports -/

/-- Where a path is mentioned. -/
def Spec.mention (i : Nat) (lead : List Char) (s : Spec) : Mention :=
  (Sighting.mk i lead ⟨s.before, s.quote, s.path, s.quote, []⟩).mention

/-- The mention that the code of a line is. -/
def Code.mention? (i : Nat) (lead : List Char) : Code → Option Mention
  | .blank _ _ => none
  | .spec s => if s.isRead then some (s.mention i lead) else none

/-- The code of a closing line. -/
def Closing.code : Closing → Code
  | .alone blanks _ valid _ => .blank blanks valid
  | .behind s _ _ => .spec s

/-- What the code of a block imports. -/
def meantFrom (z : Closing) : Nat → List Char → List BlockLine → List Mention
  | i, lead, [] => (z.code.mention? i lead).toList
  | i, lead, b :: bs => (b.code.mention? i lead).toList ++ meantFrom z (i + 1) [] bs

/-- The mention that is seen on a line, in what follows some part of it. -/
def mentionOn (i : Nat) (lead text : List Char) : Option Mention :=
  (quotedPath? text).map fun p => (Sighting.mk i lead p).mention

/-- The path of a spec is mentioned alike whatever follows. -/
theorem Spec.mentionOn_eq (s : Spec) (v : List Char) :
    mentionOn i lead (s.text ++ v) = if s.isRead then some (s.mention i lead) else none := by
  rw [mentionOn, s.quotedPath?_eq]
  split <;> rfl

theorem Closing.map_seen (z : Closing) :
    (z.seen i lead).map Sighting.mention = (z.code.mention? i lead).toList := by
  cases z with
  | alone blanks rest valid feed => rfl
  | behind s blanks valid =>
    rw [code, Code.mention?, ← s.mentionOn_eq (')' :: blanks), seen, mentionOn]
    cases quotedPath? (s.text ++ ')' :: blanks) <;> rfl

theorem map_seenFrom_cons (b : BlockLine) :
    (seenFrom z i lead (b :: bs)).map Sighting.mention =
      (mentionOn i lead b.text).toList ++
        (if b.shuts then [] else (seenFrom z (i + 1) [] bs).map Sighting.mention) := by
  rw [seenFrom, List.map_append, mentionOn]
  congr 1
  · cases quotedPath? b.text <;> rfl
  · split <;> rfl

/-! ## Comments that are crossed out -/

namespace BlockLine

variable (b : BlockLine)

theorem shuts_masked : b.masked.shuts = false := by
  rw [shuts, masked]
  cases b.comment with
  | none => rfl
  | some c =>
    simp only [Option.map_some, Option.any_some, Comment.shuts, Comment.masked]
    by_contra hshuts
    have hlast : (trimEnd (c.text.map fun _ => 'x')).getLast? = some ')' := by simpa using hshuts
    have hmem := (trimEnd_isPrefix _).mem (List.mem_of_getLast? hlast)
    simp at hmem

theorem mentionOn_masked : mentionOn i lead b.masked.text = b.code.mention? i lead := by
  cases hcode : b.code with
  | spec s =>
    have htext : b.masked.text = s.text ++ (b.masked.comment.map Comment.written).getD [] := by
      rw [text, masked, hcode]
      rfl
    rw [htext]
    exact s.mentionOn_eq _
  | blank blanks valid =>
    have hunquoted : ∀ c ∈ b.masked.text, isPathQuote c = false := by
      rw [text, masked, hcode, List.forall_mem_append]
      refine ⟨valid.unquoted, ?_⟩
      cases b.comment with
      | none => simp
      | some c =>
        have hslash : isPathQuote '/' = false := by decide
        have hcrossed : ∀ d ∈ c.masked.text, isPathQuote d = false := by
          intro d hd
          obtain ⟨-, -, rfl⟩ := List.mem_map.mp hd
          decide
        exact List.forall_mem_cons.mpr ⟨hslash, List.forall_mem_cons.mpr ⟨hslash,
          List.forall_mem_append.mpr ⟨hcrossed, c.ending_blanks.unquoted⟩⟩⟩
    rw [mentionOn, quotedPath?_of_unquoted hunquoted]
    rfl

end BlockLine

/-- **A block with its comments crossed out** brings what its code imports. -/
theorem seenFrom_masked :
    (seenFrom z i lead (bs.map BlockLine.masked)).map Sighting.mention = meantFrom z i lead bs := by
  induction bs generalizing i lead with
  | nil => exact z.map_seen
  | cons b bs ih =>
    rw [List.map_cons, map_seenFrom_cons, b.shuts_masked, b.mentionOn_masked, meantFrom, ← ih]
    rfl

/-! ## Comments as they are -/

/-- Does a comment without code before it look like an import? -/
def BlockLine.misleads (b : BlockLine) : Bool :=
  match b.code with
  | .blank _ _ => (quotedPath? b.text).isSome
  | .spec _ => false

/-- Does code import something? -/
def Code.imports : Code → Bool
  | .blank _ _ => false
  | .spec s => s.isRead

/-- Do the comments of some lines do no harm: does none look like an import, and does none that ends with
a parenthesis come before code that imports something? What stands behind such a comment does not
matter. -/
def harmless (z : Closing) : List BlockLine → Bool
  | [] => true
  | b :: bs =>
    !b.misleads &&
      (if b.shuts then bs.all (!·.code.imports) && !z.code.imports else harmless z bs)

theorem Code.mention?_eq_none_iff {c : Code} : c.mention? i lead = none ↔ c.imports = false := by
  cases c with
  | blank blanks valid => simp [mention?, imports]
  | spec s => cases h : s.isRead <;> simp [mention?, imports, h]

theorem meantFrom_eq_nil_iff :
    meantFrom z i lead bs = [] ↔ (bs.all (!·.code.imports) && !z.code.imports) = true := by
  induction bs generalizing i lead with
  | nil => simp [meantFrom, Code.mention?_eq_none_iff]
  | cons b bs ih =>
    rw [meantFrom, List.append_eq_nil_iff, ih, Option.toList_eq_nil_iff, Code.mention?_eq_none_iff]
    simp [and_assoc]

theorem BlockLine.mentionOn_text {b : BlockLine} (h : b.misleads = false) :
    mentionOn i lead b.text = b.code.mention? i lead := by
  cases hcode : b.code with
  | spec s =>
    rw [text, hcode]
    exact s.mentionOn_eq _
  | blank blanks valid =>
    rw [misleads, hcode] at h
    rw [mentionOn, Option.isNone_iff_eq_none.mp (Option.isSome_eq_false_iff.mp h)]
    rfl

/-- **Harmless comments** leave what the code imports. -/
theorem seenFrom_harmless (h : harmless z bs = true) :
    (seenFrom z i lead bs).map Sighting.mention = meantFrom z i lead bs := by
  induction bs generalizing i lead with
  | nil => exact z.map_seen
  | cons b bs ih =>
    rw [harmless, Bool.and_eq_true] at h
    obtain ⟨hmisleads, hrest⟩ := h
    rw [map_seenFrom_cons, BlockLine.mentionOn_text (by simpa using hmisleads), meantFrom]
    split at hrest
    · next hshuts => rw [if_pos hshuts, meantFrom_eq_nil_iff.mpr hrest]
    · next hshuts => rw [if_neg hshuts, ih hrest]

/-! ## Lines -/

theorem line_of_mem_seenFrom {s : Sighting} (h : s ∈ seenFrom z i lead bs) :
    i ≤ s.line ∧ s.line ≤ i + bs.length := by
  have hhere {i : Nat} {lead : List Char} {path : Option QuotedPath}
      (h : s ∈ (path.map (Sighting.mk i lead)).toList) : s.line = i := by
    obtain ⟨p, -, rfl⟩ := Option.map_eq_some_iff.mp (Option.mem_toList.mp h)
    rfl
  induction bs generalizing i lead with
  | nil =>
    cases z with
    | alone blanks rest valid feed => cases h
    | behind spec blanks valid =>
      have hline := hhere h
      simp only [List.length_nil]
      omega
  | cons b bs ih =>
    rw [List.length_cons]
    obtain h | h := List.mem_append.mp h
    · have hline := hhere h
      omega
    · split at h
      · cases h
      · have hlater := ih h
        omega

/-- The lines that packages are mentioned on. -/
def linesOf (ms : List Mention) : List Nat :=
  ms.map (·.range.start.line)

theorem linesOf_append (ms ms' : List Mention) :
    linesOf (ms ++ ms') = linesOf ms ++ linesOf ms' :=
  List.map_append

theorem bounds_of_mem_seenFrom (h : n ∈ linesOf ((seenFrom z i lead bs).map Sighting.mention)) :
    i ≤ n ∧ n ≤ i + bs.length := by
  obtain ⟨m, hm, rfl⟩ := List.mem_map.mp h
  obtain ⟨s, hs, rfl⟩ := List.mem_map.mp hm
  exact line_of_mem_seenFrom hs

theorem bounds_of_mem_meantFrom (h : n ∈ linesOf (meantFrom z i lead bs)) :
    i ≤ n ∧ n ≤ i + bs.length := by
  rw [← seenFrom_masked] at h
  simpa using bounds_of_mem_seenFrom h

theorem eq_of_mem_mentionOn {text : List Char} (h : n ∈ linesOf (mentionOn i lead text).toList) :
    n = i := by
  rw [mentionOn] at h
  cases hpath : quotedPath? text with
  | none => simp [hpath, linesOf] at h
  | some p =>
    rw [hpath] at h
    exact List.mem_singleton.mp h

theorem eq_of_mem_mention? {c : Code} (h : n ∈ linesOf (c.mention? i lead).toList) : n = i := by
  cases c with
  | blank blanks valid => cases h
  | spec s =>
    rw [Code.mention?] at h
    split at h
    · exact List.mem_singleton.mp h
    · cases h

/-- What is the same below and above a number together is the same below and above it. -/
theorem mem_iff_of_bounds {as as' ns ns' : List Nat} {k : Nat} (has : ∀ m ∈ as, m < k)
    (has' : ∀ m ∈ as', m < k) (hns : ∀ m ∈ ns, k ≤ m) (hns' : ∀ m ∈ ns', k ≤ m)
    (h : ∀ m, m ∈ as ++ ns ↔ m ∈ as' ++ ns') :
    (∀ m, m ∈ as ↔ m ∈ as') ∧ ∀ m, m ∈ ns ↔ m ∈ ns' := by
  constructor
  · intro m
    have hm := h m
    grind
  · intro m
    have hm := h m
    grind

theorem BlockLine.misleads_of_lines {b : BlockLine}
    (h : ∀ n, n ∈ linesOf (mentionOn i lead b.text).toList ↔
      n ∈ linesOf (b.code.mention? i lead).toList) : b.misleads = false := by
  rw [misleads]
  split
  · next hcode =>
    rw [Option.isSome_eq_false_iff, Option.isNone_iff_eq_none]
    cases hpath : quotedPath? b.text with
    | none => rfl
    | some p =>
      have hmention : i ∈ linesOf (mentionOn i lead b.text).toList := by
        rw [mentionOn, hpath]
        exact List.mem_singleton.mpr rfl
      rw [h, hcode] at hmention
      cases hmention
  · rfl

/-- **Harm shows on the lines** that packages are mentioned on. -/
theorem harmless_of_lines
    (h : ∀ n, n ∈ linesOf ((seenFrom z i lead bs).map Sighting.mention) ↔
      n ∈ linesOf (meantFrom z i lead bs)) : harmless z bs = true := by
  induction bs generalizing i lead with
  | nil => rfl
  | cons b bs ih =>
    rw [map_seenFrom_cons, meantFrom] at h
    simp only [linesOf_append] at h
    have hseen : ∀ n ∈ linesOf (mentionOn i lead b.text).toList, n < i + 1 := fun n hn => by
      have hline := eq_of_mem_mentionOn hn
      omega
    have hmeant : ∀ n ∈ linesOf (b.code.mention? i lead).toList, n < i + 1 := fun n hn => by
      have hline := eq_of_mem_mention? hn
      omega
    have hlaterSeen : ∀ n ∈ linesOf (if b.shuts then [] else
        (seenFrom z (i + 1) [] bs).map Sighting.mention), i + 1 ≤ n := fun n hn => by
      split at hn
      · cases hn
      · exact (bounds_of_mem_seenFrom hn).1
    have hlaterMeant : ∀ n ∈ linesOf (meantFrom z (i + 1) [] bs), i + 1 ≤ n :=
      fun n hn => (bounds_of_mem_meantFrom hn).1
    -- The number of the first line tells it apart from the later ones.
    obtain ⟨hfirst, hlater⟩ := mem_iff_of_bounds hseen hmeant hlaterSeen hlaterMeant h
    have hmisleads := BlockLine.misleads_of_lines hfirst
    rw [harmless, hmisleads]
    cases hshuts : b.shuts with
    | false =>
      rw [hshuts] at hlater
      exact ih hlater
    | true =>
      rw [hshuts] at hlater
      have hnone : linesOf (meantFrom z (i + 1) [] bs) = [] := by
        refine List.eq_nil_iff_forall_not_mem.mpr fun n hn => ?_
        have hmem := (hlater n).mpr hn
        cases hmem
      exact meantFrom_eq_nil_iff.mp (List.map_eq_nil_iff.mp hnone)

/-! ## Lines that import by themselves -/

/-- What lines mention by themselves. -/
def singles (i : Nat) (ls : List (List Char)) : List Mention :=
  ((numbered i ls).filterMap onLine?).map Sighting.mention

theorem singles_append (i : Nat) (as bs : List (List Char)) :
    singles i (as ++ bs) = singles i as ++ singles (i + as.length) bs := by
  rw [singles, numbered_append, List.filterMap_append, List.map_append]
  rfl

theorem singles_cons (i : Nat) (l : List Char) (ls : List (List Char)) :
    singles i (l :: ls) = ((onLine? ⟨i, [], l⟩).map Sighting.mention).toList ++ singles (i + 1) ls := by
  rw [singles, numbered_cons]
  cases hline : onLine? ⟨i, [], l⟩ with
  | none => rw [List.filterMap_cons_none hline]; rfl
  | some s => rw [List.filterMap_cons_some hline]; rfl

/-- Before a comment a line may end with spaces only. -/
theorem endsImport_comment (c : Comment) {trail : List Char} (h : AreBlanks trail) :
    endsImport (trail ++ c.written) = (trail.dropWhile isSpace).isEmpty := by
  have hslash : isSpace '/' = false := by decide
  rw [endsImport, Comment.written, dropWhile_append_stop hslash]
  cases hrest : trail.dropWhile isSpace with
  | nil => simp [hasPrefix, afterPrefix?]
  | cons d rest =>
    have hmem : d ∈ trail := (List.dropWhile_suffix isSpace).mem (by rw [hrest]; simp)
    have hd : '/' ≠ d := fun heq => h.notMem (by decide) (heq ▸ hmem)
    simp [hasPrefix, afterPrefix?, hd]

theorem BlockLine.onLine?_masked (b : BlockLine) (n : Nat) :
    (onLine? ⟨n, [], b.masked.text⟩).map Sighting.mention =
      (onLine? ⟨n, [], b.text⟩).map Sighting.mention := by
  cases hcode : b.code with
  | blank blanks valid =>
    have hmasked : b.masked.code = .blank blanks valid := hcode
    rw [onLine?_of_head (b.head?_of_blank hcode (by decide)),
      onLine?_of_head (b.masked.head?_of_blank hmasked (by decide))]
  | spec s =>
    cases hcomment : b.comment with
    | none =>
      have hmasked : b.masked.text = b.text := by
        rw [text, text, masked, hcomment]
        rfl
      rw [hmasked]
    | some c =>
      have hline : b.text =
          s.before ++ s.quote :: (s.path ++ s.quote :: (s.trail ++ c.written)) := by
        rw [text, hcode, hcomment]
        exact s.text_append _
      have hmasked : b.masked.text =
          s.before ++ s.quote :: (s.path ++ s.quote :: (s.trail ++ c.masked.written)) := by
        rw [text, masked, hcode, hcomment]
        exact s.text_append _
      have hpath : ∀ c ∈ s.path, isPathQuote c = false := fun c hc => (s.plain c hc).1
      rw [hline, hmasked, onLine?_quoted s.before_unquoted s.quoted hpath s.quoted,
        onLine?_quoted s.before_unquoted s.quoted hpath s.quoted,
        endsImport_comment c s.trail_blanks, endsImport_comment c.masked s.trail_blanks]
      cases afterImport? s.before with
      | none => rfl
      | some x =>
        simp only [Option.bind_some]
        split <;> rfl

theorem singles_inside (z : Closing) (bs : List BlockLine) (i : Nat) :
    singles i (inside z (bs.map BlockLine.masked)) = singles i (inside z bs) := by
  induction bs generalizing i with
  | nil => rfl
  | cons b bs ih =>
    have hcons (b : BlockLine) (bs : List BlockLine) : inside z (b :: bs) = b.text :: inside z bs := rfl
    rw [List.map_cons, hcons, hcons, singles_cons, singles_cons, ih, b.onLine?_masked]

/-- The line that opens a block imports nothing by itself. -/
theorem Block.onLine?_opening (b : Block) (n : Nat) (l : List Char) :
    onLine? ⟨n, [], b.opening ++ l⟩ = none := by
  have hline : b.opening ++ l = b.indent ++ "import".toList ++ (b.gap ++ '(' :: l) := by
    simp [opening]
  rw [onLine?, hline, afterImport?_keyword b.indent_spaces]
  simp [quotedPath?_parenthesis b.gap_spaces]

theorem Block.singles_lines (b : Block) (i : Nat) : singles i b.masked.lines = singles i b.lines := by
  cases hbody : b.body with
  | nil =>
    have hmasked : b.masked.body = [] := by rw [masked, hbody, List.map_nil]
    rw [b.lines_of_nil hbody, b.masked.lines_of_nil hmasked]
    rfl
  | cons l bs =>
    have hmasked : b.masked.body = l.masked :: bs.map BlockLine.masked := by
      rw [masked, hbody, List.map_cons]
    rw [b.lines_of_cons hbody, b.masked.lines_of_cons hmasked, singles_cons, singles_cons,
      b.onLine?_opening, b.masked.onLine?_opening]
    exact congrArg _ (singles_inside b.closing bs (i + 1))

theorem TextPart.length_masked (p : TextPart) : p.masked.lines.length = p.lines.length := by
  cases p with
  | line text feed unopened => rfl
  | block b => simp [masked, lines, Block.length_lines, Block.masked]

theorem singles_masked (ps : List TextPart) (i : Nat) :
    singles i ((ps.map TextPart.masked).flatMap TextPart.lines) = singles i (ps.flatMap TextPart.lines) := by
  induction ps generalizing i with
  | nil => rfl
  | cons p ps ih =>
    have hpart : singles i p.masked.lines = singles i p.lines := by
      cases p with
      | line text feed unopened => rfl
      | block b => exact b.singles_lines i
    rw [List.map_cons, List.flatMap_cons, List.flatMap_cons, singles_append, singles_append, hpart,
      p.length_masked, ih]

/-! ## Whole texts -/

/-- What the scan sees in a block. -/
def Block.seen (i : Nat) (b : Block) : List Mention :=
  (seenFrom b.closing i b.opening b.body).map Sighting.mention

/-- What the code of a block imports. -/
def Block.meant (i : Nat) (b : Block) : List Mention :=
  meantFrom b.closing i b.opening b.body

/-- Do the comments of a block do no harm? -/
def Block.harmless (b : Block) : Bool :=
  Scan.harmless b.closing b.body

/-- What the blocks of some parts bring, if `read` tells it for a block from its first line on. -/
def brought (read : Nat → Block → List Mention) : Nat → List TextPart → List Mention
  | _, [] => []
  | i, .line _ _ _ :: ps => brought read (i + 1) ps
  | i, .block b :: ps => read i b ++ brought read (i + b.lines.length) ps

theorem map_inBlocks (ps : List TextPart) (i : Nat) :
    (inBlocks (numbered i (ps.flatMap TextPart.lines))).map Sighting.mention =
      brought Block.seen i ps := by
  induction ps generalizing i with
  | nil => rfl
  | cons p ps ih =>
    rw [List.flatMap_cons, numbered_append]
    cases p with
    | line text feed unopened =>
      have hunopened : ∀ l ∈ [text], ∀ n, opened? ⟨n, [], l⟩ = none := by
        intro l hl n
        obtain rfl := List.mem_singleton.mp hl
        exact opened?_of_opensBlock? unopened n
      rw [TextPart.lines, inBlocks_unopened hunopened, brought]
      exact ih (i + 1)
    | block b =>
      rw [TextPart.lines, b.inBlocks_block, List.map_append, ih, brought]
      rfl

theorem brought_masked (ps : List TextPart) (i : Nat) :
    brought Block.seen i (ps.map TextPart.masked) = brought Block.meant i ps := by
  induction ps generalizing i with
  | nil => rfl
  | cons p ps ih =>
    cases p with
    | line text feed unopened => exact ih (i + 1)
    | block b =>
      have hseen : b.masked.seen i = b.meant i := seenFrom_masked
      have hlength : b.masked.lines.length = b.lines.length := (TextPart.block b).length_masked
      rw [List.map_cons, TextPart.masked, brought, brought, hseen, hlength, ih]

/-- A text brings what its lines mention by themselves, then what its blocks bring. -/
theorem go_source (ps : List TextPart) :
    go (source ps) =
      .ofMentions (singles 0 (ps.flatMap TextPart.lines) ++ brought Block.seen 0 ps) := by
  have hfeed : ∀ l ∈ ps.flatMap TextPart.lines, '\n' ∉ l := by
    intro l hl
    obtain ⟨p, -, hl⟩ := List.mem_flatMap.mp hl
    cases p with
    | line text feed unopened =>
      obtain rfl := List.mem_singleton.mp hl
      exact feed
    | block b => exact b.feed_notMem_lines l hl
  rw [source, go_join hfeed, sightings, List.map_append, map_inBlocks]
  rfl

theorem brought_harmless (h : ∀ b, .block b ∈ ps → b.harmless = true) (i : Nat) :
    brought Block.seen i ps = brought Block.meant i ps := by
  induction ps generalizing i with
  | nil => rfl
  | cons p ps ih =>
    have hlater := ih fun b hb => h b (List.mem_cons_of_mem _ hb)
    cases p with
    | line text feed unopened => exact hlater (i + 1)
    | block b =>
      have hseen : b.seen i = b.meant i := seenFrom_harmless (h b List.mem_cons_self)
      rw [brought, brought, hseen, hlater]

theorem bounds_of_mem_seen {b : Block} (h : n ∈ linesOf (b.seen i)) :
    i ≤ n ∧ n < i + b.lines.length := by
  have hbounds := bounds_of_mem_seenFrom h
  rw [b.length_lines]
  omega

theorem bounds_of_mem_meant {b : Block} (h : n ∈ linesOf (b.meant i)) :
    i ≤ n ∧ n < i + b.lines.length := by
  have hbounds := bounds_of_mem_meantFrom h
  rw [b.length_lines]
  omega

/-- Parts mention packages from their first line on. -/
theorem le_of_mem_brought {read : Nat → Block → List Mention}
    (hread : ∀ {i n : Nat} {b : Block}, n ∈ linesOf (read i b) → i ≤ n)
    (h : n ∈ linesOf (brought read i ps)) : i ≤ n := by
  induction ps generalizing i with
  | nil => cases h
  | cons p ps ih =>
    cases p with
    | line text feed unopened =>
      have hlater := ih h
      omega
    | block b =>
      rw [brought, linesOf_append] at h
      obtain h | h := List.mem_append.mp h
      · exact hread h
      · have hlater := ih h
        omega

/-- **Harm in a block** shows on the lines of the text. -/
theorem harmless_of_brought
    (h : ∀ n, n ∈ linesOf (brought Block.seen i ps) ↔ n ∈ linesOf (brought Block.meant i ps)) :
    ∀ b, .block b ∈ ps → b.harmless = true := by
  induction ps generalizing i with
  | nil => simp
  | cons p ps ih =>
    intro b hb
    cases p with
    | line text feed unopened =>
      obtain hb | hb := List.mem_cons.mp hb
      · cases hb
      · exact ih h b hb
    | block c =>
      simp only [brought, linesOf_append] at h
      obtain ⟨hhere, hlater⟩ := mem_iff_of_bounds (fun n hn => (bounds_of_mem_seen hn).2)
        (fun n hn => (bounds_of_mem_meant hn).2)
        (fun n hn => le_of_mem_brought (fun hn => (bounds_of_mem_seen hn).1) hn)
        (fun n hn => le_of_mem_brought (fun hn => (bounds_of_mem_meant hn).1) hn) h
      obtain hb | hb := List.mem_cons.mp hb
      · obtain rfl := TextPart.block.inj hb
        exact harmless_of_lines hhere
      · exact ih hlater b hb

/-- If comments may be crossed out, they are harmless. -/
theorem harmless_of_go_eq (h : go (source ps) = go (source (ps.map TextPart.masked))) :
    ∀ b, .block b ∈ ps → b.harmless = true := by
  rw [go_source, go_source, singles_masked, brought_masked] at h
  have hperm := (References.perm_of_ofMentions_eq h).map fun x => x.2.start.line
  -- What lines mention by themselves is the same on both sides, so only the blocks can differ.
  have hlines : (linesOf (brought Block.seen 0 ps)).Perm (linesOf (brought Block.meant 0 ps)) := by
    rw [List.map_map, List.map_map, List.map_append, List.map_append] at hperm
    exact (List.perm_append_left_iff _).mp hperm
  exact harmless_of_brought fun n => hlines.mem_iff

/-- **Comments inside blocks.** A text is scanned as if each of them were crossed out exactly if they are
harmless. -/
theorem go_masked_iff_harmless (ps : List TextPart) :
    go (source ps) = go (source (ps.map TextPart.masked)) ↔
      ∀ b, .block b ∈ ps → b.harmless = true := by
  refine ⟨harmless_of_go_eq, fun hharmless => ?_⟩
  rw [go_source, go_source, singles_masked, brought_masked, brought_harmless hharmless]

/-- A block with a comment on its first line and further code on the next. -/
def commentedBlock (code : Code) (comment : Comment) (later : Code) : Block where
  indent := []
  gap := [' ']
  body := [⟨.blank [] areBlanks_nil, none⟩, ⟨code, some comment⟩, ⟨later, none⟩]
  closing := .alone [] [] areBlanks_nil feed_notMem_nil
  indent_spaces := isSpace_of_mem_nil
  gap_spaces := isSpace_of_mem_space

/-- A comment may hide an import, and may bring one. -/
theorem comments_change_imports :
    (∃ ps : List TextPart,
      source ps = "import (\n\t\"os\" // files (and more)\n\t\"fmt\"\n)\n" ∧
        go (source ps) ≠ go (source (ps.map TextPart.masked))) ∧
    ∃ ps : List TextPart,
      source ps = "import (\n\t// \"net/http\"\n\t\"os\"\n)\n" ∧
        go (source ps) ≠ go (source (ps.map TextPart.masked)) := by
  constructor
  · refine ⟨[.block (commentedBlock
      (.spec ⟨['\t'], [], [], '"', "os".toList, [' '], by decide, .inl rfl, by decide, by decide,
        by decide, by decide⟩)
      ⟨" files (and more)".toList, [], by decide, by decide⟩
      (.spec ⟨['\t'], [], [], '"', "fmt".toList, [], by decide, .inl rfl, by decide, by decide,
        by decide, by decide⟩)), .line [] (by decide) (by decide)], by decide, fun heq => ?_⟩
    have hharmless := harmless_of_go_eq heq _ List.mem_cons_self
    revert hharmless
    decide
  · refine ⟨[.block (commentedBlock (.blank ['\t'] (by decide))
      ⟨" \"net/http\"".toList, [], by decide, by decide⟩
      (.spec ⟨['\t'], [], [], '"', "os".toList, [], by decide, .inl rfl, by decide, by decide,
        by decide, by decide⟩)), .line [] (by decide) (by decide)], by decide, fun heq => ?_⟩
    have hharmless := harmless_of_go_eq heq _ List.mem_cons_self
    revert hharmless
    decide

end DepScope.Scan
