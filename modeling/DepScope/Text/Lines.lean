import DepScope.Text.Chars
import DepScope.Text.Utf8

/-!
# DepScope.Text.Lines

The lines of a text with the byte offsets where they start. Lines are what stands between line
feeds, so the last one may be empty.
-/

namespace DepScope.Text

/-- Lines that follow each other from a byte offset on. -/
def placed (off : Nat) : List (List Char) → List (Nat × List Char)
  | [] => []
  | l :: ls => (off, l) :: placed (off + byteLength l + 1) ls

/-- The lines of a text that starts at a byte offset. -/
def placedLines (off : Nat) (cs : List Char) : List (Nat × List Char) :=
  placed off (pieces '\n' cs)

/-- The words of a text: runs of characters that are not blank. -/
def firstWord (cs : List Char) : List Char :=
  (cs.dropWhile isBlank).takeWhile fun c => !isBlank c

end DepScope.Text
