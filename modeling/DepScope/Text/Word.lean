import DepScope.Text.Chars

/-!
# DepScope.Text.Word

Characters of words in running text: letters, digits, marks and connectors of any script. Beyond
ASCII the blocks of punctuation, symbols and pictures are left out.
-/

namespace DepScope.Text

/-- Ranges beyond ASCII whose characters do not belong to words. -/
def wordGaps : List (Nat × Nat) :=
  [(0x80, 0xA9), (0xAB, 0xB4), (0xB6, 0xB9), (0xBB, 0xBF), (0xD7, 0xD7), (0xF7, 0xF7),
   (0x2C2, 0x2C5), (0x2D2, 0x2DF), (0x2000, 0x200B), (0x200E, 0x203E), (0x2041, 0x2053),
   (0x2055, 0x2070), (0x2072, 0x207E), (0x2080, 0x208F), (0x20A0, 0x20CF), (0x2100, 0x2101),
   (0x2103, 0x2106), (0x2108, 0x2109), (0x2114, 0x2114), (0x2116, 0x2118), (0x211E, 0x2123),
   (0x2190, 0x24B5), (0x24EA, 0x2BFF), (0x2E00, 0x2E2E), (0x2E30, 0x3004), (0x3008, 0x3020),
   (0x3030, 0x3030), (0x3036, 0x3037), (0x303D, 0x3040), (0xD800, 0xF8FF), (0xFE10, 0xFE1F),
   (0xFE30, 0xFE32), (0xFE35, 0xFE4C), (0xFE50, 0xFE6F), (0xFF00, 0xFF0F), (0xFF1A, 0xFF20),
   (0xFF3B, 0xFF3E), (0xFF40, 0xFF40), (0xFF5B, 0xFF65), (0xFFE0, 0xFFFF), (0x1F000, 0x1F12F),
   (0x1F14A, 0x1F14F), (0x1F16A, 0x1F16F), (0x1F18A, 0x1FBEF), (0xE0000, 0xE00FF),
   (0xF0000, 0x10FFFF)]

/-- Does a character belong to words? -/
def isWordChar (c : Char) : Bool :=
  let n := c.toNat
  if n < 0x80 then isAsciiAlnum c || c = '_'
  else !wordGaps.any fun (low, high) => low ≤ n && n ≤ high

end DepScope.Text
