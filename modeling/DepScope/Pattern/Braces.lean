import DepScope.Text.Chars

/-!
# DepScope.Pattern.Braces

Alternatives in braces: `{a,b{c,d}}` stands for `a`, `bc` and `bd`. A backslash and the character
after it are kept as they are; braces without a partner and commas outside of braces are text.

A pattern is read with a stack of the groups that are open. When the pattern ends, the groups still
open turn out to be text: their opening brace, and their alternatives with commas between them.
-/

namespace DepScope.Pattern

open Text

/-- A piece of a pattern. -/
inductive Piece where
  | text (cs : List Char)
  | choice (alternatives : List (List Piece))

/-! ## Reading -/

/-- An open group: its finished alternatives, the last one first, and the pieces of the one being
read, the last one first. -/
structure Group where
  done : List (List Piece)
  current : List Piece

/-- Adds a piece to the alternative being read. -/
def Group.push (g : Group) (p : Piece) : Group :=
  ⟨g.done, p :: g.current⟩

/-- Ends the alternative being read. -/
def Group.next (g : Group) : Group :=
  ⟨g.current.reverse :: g.done, []⟩

/-- The alternatives of a group that closes. -/
def Group.alternatives (g : Group) : List (List Piece) :=
  (g.current.reverse :: g.done).reverse

/-- Pieces with a literal comma between each two alternatives. -/
def joinAlternatives : List (List Piece) → List Piece
  | [] => []
  | [a] => a
  | a :: as => a ++ .text [','] :: joinAlternatives as

/-- The pieces of a group that never closes. -/
def Group.unclosed (g : Group) : List Piece :=
  .text ['\x7b'] :: joinAlternatives g.alternatives

/-- Where the reading stands: the pieces outside of all groups, the last one first, and the open
groups, the innermost first. -/
structure Reading where
  outer : List Piece
  groups : List Group

namespace Reading

/-- Adds a piece where the reading stands. -/
def push (r : Reading) (p : Piece) : Reading :=
  match r.groups with
  | [] => ⟨p :: r.outer, []⟩
  | g :: gs => ⟨r.outer, g.push p :: gs⟩

/-- Opens a group. -/
def openGroup (r : Reading) : Reading :=
  ⟨r.outer, ⟨[], []⟩ :: r.groups⟩

/-- A comma: the next alternative, or text outside of groups. -/
def comma (r : Reading) : Reading :=
  match r.groups with
  | [] => r.push (.text [','])
  | g :: gs => ⟨r.outer, g.next :: gs⟩

/-- A closing brace: the end of a group, or text outside of groups. -/
def closeGroup (r : Reading) : Reading :=
  match r.groups with
  | [] => r.push (.text ['\x7d'])
  | g :: gs => (Reading.mk r.outer gs).push (.choice g.alternatives)

/-- The pieces, once the pattern has ended: the groups still open become text. -/
def finish (r : Reading) : List Piece :=
  r.outer.reverse ++ r.groups.reverse.flatMap Group.unclosed

/-- Reads the characters of a pattern. -/
def run : Reading → List Char → Reading
  | r, [] => r
  | r, '\\' :: c :: cs => run (r.push (.text ['\\', c])) cs
  | r, c :: cs =>
    if c = '\x7b' then run r.openGroup cs
    else if c = ',' then run r.comma cs
    else if c = '\x7d' then run r.closeGroup cs
    else run (r.push (.text [c])) cs

end Reading

/-- The pieces of a pattern. -/
def pieces (pattern : List Char) : List Piece :=
  (Reading.run ⟨[], []⟩ pattern).finish

/-! ## Expanding -/

mutual

/-- The texts a sequence of pieces stands for, the first choice varying slowest. -/
def expandAll : List Piece → List (List Char)
  | [] => [[]]
  | p :: ps => p.expand.flatMap fun a => (expandAll ps).map (a ++ ·)

/-- The texts a piece stands for. -/
def Piece.expand : Piece → List (List Char)
  | .text cs => [cs]
  | .choice alternatives => expandEach alternatives

/-- The texts several alternatives stand for, one after the other. -/
def expandEach : List (List Piece) → List (List Char)
  | [] => []
  | a :: as => expandAll a ++ expandEach as

end

/-- All patterns without alternatives that a pattern stands for. -/
def expand (pattern : List Char) : List (List Char) :=
  expandAll (pieces pattern)

/-- The same pattern with all alternatives in one group, if there are several. -/
def flatten (pattern : List Char) : List Char :=
  match expand pattern with
  | [] => []
  | [p] => p
  | ps => '\x7b' :: joinWith [','] ps ++ ['\x7d']

end DepScope.Pattern
