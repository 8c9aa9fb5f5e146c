/-!
# DepScope.Text.Utf8

Byte lengths of text and the reading of bytes as text, strictly (an ill-formed sequence makes the
whole text unreadable) and leniently (each ill-formed part is replaced by U+FFFD).

An ill-formed part is maximal: the bytes that still begin some well-formed sequence go together.
-/

namespace DepScope.Text

/-- The number of bytes a list of characters takes. -/
def byteLength : List Char → Nat
  | [] => 0
  | c :: cs => c.utf8Size + byteLength cs

theorem byteLength_append (a b : List Char) :
    byteLength (a ++ b) = byteLength a + byteLength b := by
  induction a with
  | nil => simp [byteLength]
  | cons c a ih => simp [byteLength, ih, Nat.add_assoc]

/-- The characters from the given byte offset on; an offset inside a character keeps none of it. -/
def dropBytes : Nat → List Char → List Char
  | 0, cs => cs
  | _, [] => []
  | n + 1, c :: cs => dropBytes (n + 1 - c.utf8Size) cs

/-- The characters that start before the given byte offset. -/
def takeBytes : Nat → List Char → List Char
  | 0, _ => []
  | _, [] => []
  | n + 1, c :: cs => c :: takeBytes (n + 1 - c.utf8Size) cs

/-! ## Reading bytes -/

/-- How a sequence opens: how many bytes must follow, the bits the first byte contributes, and
the range the second byte has to lie in. -/
structure Lead where
  following : Nat
  bits : Nat
  low : UInt8
  high : UInt8

/-- The opening described by a first byte, when it can open a sequence of several bytes. -/
def Lead.ofByte? (b : UInt8) : Option Lead :=
  let n := b.toNat
  if 0xC2 ≤ n ∧ n ≤ 0xDF then some ⟨1, n - 0xC0, 0x80, 0xBF⟩
  else if n = 0xE0 then some ⟨2, 0, 0xA0, 0xBF⟩
  else if n = 0xED then some ⟨2, 13, 0x80, 0x9F⟩
  else if 0xE1 ≤ n ∧ n ≤ 0xEF then some ⟨2, n - 0xE0, 0x80, 0xBF⟩
  else if n = 0xF0 then some ⟨3, 0, 0x90, 0xBF⟩
  else if n = 0xF4 then some ⟨3, 4, 0x80, 0x8F⟩
  else if 0xF1 ≤ n ∧ n ≤ 0xF3 then some ⟨3, n - 0xF0, 0x80, 0xBF⟩
  else none

/-- The state between bytes: at a boundary, or inside a sequence with some bytes still due. -/
inductive DecodeState where
  | boundary
  | inside (due acc : Nat) (low high : UInt8)

/-- What one byte yields at a boundary: a finished character, an ill-formed part, or nothing yet. -/
def DecodeState.start (b : UInt8) : List (Option Char) × DecodeState :=
  if b.toNat < 0x80 then ([some (Char.ofNat b.toNat)], .boundary)
  else match Lead.ofByte? b with
    | some l => ([], .inside l.following l.bits l.low l.high)
    | none => ([none], .boundary)

/-- One byte: the outcomes it completes (`none` for an ill-formed part) and the next state. -/
def DecodeState.step (st : DecodeState) (b : UInt8) : List (Option Char) × DecodeState :=
  match st with
  | .boundary => start b
  | .inside due acc low high =>
    if low ≤ b ∧ b ≤ high then
      let acc := acc * 64 + (b.toNat - 0x80)
      if due ≤ 1 then ([some (Char.ofNat acc)], .boundary)
      else ([], .inside (due - 1) acc 0x80 0xBF)
    else
      let (out, st) := start b
      (none :: out, st)

/-- The outcomes of a byte sequence from a state on. -/
def decodeFrom : DecodeState → List UInt8 → List (Option Char)
  | .boundary, [] => []
  | .inside .., [] => [none]
  | st, b :: bs => (st.step b).1 ++ decodeFrom (st.step b).2 bs

/-- Reads bytes as text, replacing every ill-formed part by U+FFFD. -/
def decodeLossy (bs : List UInt8) : String :=
  String.ofList ((decodeFrom .boundary bs).map (·.getD '\uFFFD'))

/-- Reads bytes as text when all of it is well formed. -/
def decodeStrict? (bs : List UInt8) : Option String :=
  ((decodeFrom .boundary bs).mapM id).map String.ofList

/-- The bytes of a text. -/
def encode (s : String) : List UInt8 :=
  s.toList.flatMap String.utf8EncodeChar

end DepScope.Text
