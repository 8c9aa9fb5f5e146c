import DepScope.Text.Utf8

/-!
# DepScope.Text.Position

Places in a document. Readers work in byte offsets; editors count lines from zero and columns in
UTF-16 code units. `LineIndex` converts the one into the other:

* a line starts at the beginning of the text and after every line feed;
* the column of an offset counts the units of the characters of its line that **start** before
  the offset, so an offset inside a character lies after that character;
* offsets past the end lie at the end.
-/

namespace DepScope.Text

/-- A half-open stretch of a text in byte offsets. -/
structure Span where
  start : Nat
  stop : Nat
deriving DecidableEq, Inhabited

/-- A line and a column of UTF-16 units, both from zero. -/
structure Position where
  line : Nat
  column : Nat
deriving DecidableEq, Inhabited

/-- A stretch of a document between two positions. -/
structure Range where
  start : Position
  stop : Position
deriving DecidableEq, Inhabited

/-- A range from its four coordinates. -/
def Range.ofCoords (startLine startColumn stopLine stopColumn : Nat) : Range :=
  ⟨⟨startLine, startColumn⟩, ⟨stopLine, stopColumn⟩⟩

/-- `line:column-line:column`, counted from one. -/
def Range.render (r : Range) : String :=
  let one (n : Nat) := toString (n + 1)
  one r.start.line ++ ":" ++ one r.start.column ++ "-" ++ one r.stop.line ++ ":" ++ one r.stop.column

/-- The number of UTF-16 code units of a character. -/
def unitSize (c : Char) : Nat :=
  if c.toNat < 0x10000 then 1 else 2

/-- The number of UTF-16 code units of a text. -/
def unitLength : List Char → Nat
  | [] => 0
  | c :: cs => unitSize c + unitLength cs

theorem unitLength_append (a b : List Char) :
    unitLength (a ++ b) = unitLength a + unitLength b := by
  induction a with
  | nil => simp [unitLength]
  | cons c a ih => simp [unitLength, ih, Nat.add_assoc]

/-! ## Lines -/

/-- The byte offsets, counted on from `off`, that follow a line feed. -/
def startsAfterFeeds (off : Nat) : List Char → List Nat
  | [] => []
  | c :: cs =>
    let next := off + c.utf8Size
    if c = '\n' then next :: startsAfterFeeds next cs else startsAfterFeeds next cs

/-- A document and the byte offsets where its lines start. -/
structure LineIndex where
  text : List Char
  starts : List Nat

/-- Indexes a document. -/
def LineIndex.ofText (s : String) : LineIndex :=
  ⟨s.toList, 0 :: startsAfterFeeds 0 s.toList⟩

namespace LineIndex

/-- The size of the document in bytes. -/
def size (ix : LineIndex) : Nat :=
  byteLength ix.text

/-- Where a line starts; the end of the text for a line that is not there. -/
def lineStart (ix : LineIndex) (line : Nat) : Nat :=
  ix.starts[line]?.getD ix.size

/-- The line an offset lies on: the last one that starts at or before it. -/
def lineOf (ix : LineIndex) (offset : Nat) : Nat :=
  (ix.starts.takeWhile (· ≤ offset)).length - 1

/-- The position a number of bytes after the start of a line. -/
def positionAt (ix : LineIndex) (line bytes : Nat) : Position :=
  let start := ix.lineStart line
  let stop := min (start + bytes) ix.size
  ⟨line, unitLength (takeBytes (stop - start) (dropBytes start ix.text))⟩

/-- The position of a byte offset. -/
def position (ix : LineIndex) (offset : Nat) : Position :=
  let offset := min offset ix.size
  let line := ix.lineOf offset
  ix.positionAt line (offset - ix.lineStart line)

/-- The range between two byte offsets. -/
def range (ix : LineIndex) (start stop : Nat) : Range :=
  ⟨ix.position start, ix.position stop⟩

/-- The range of a span. -/
def rangeOf (ix : LineIndex) (s : Span) : Range :=
  ix.range s.start s.stop

end LineIndex

end DepScope.Text
