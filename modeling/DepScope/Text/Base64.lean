/-!
# DepScope.Text.Base64

Bytes as text in 64 characters: three bytes make four characters of six bits each. The last group
may be short; it is filled with `=`, or left short where padding is not wanted.

Reading is strict: padding has to be there, and the bits that a short group does not use have to be
zero, so that each sequence of bytes has one text.
-/

namespace DepScope.Text

/-- The two characters that differ between alphabets, and whether short groups are padded. -/
structure Base64 where
  char62 : Char
  char63 : Char
  padded : Bool

namespace Base64

/-- The usual alphabet, padded. -/
def standard : Base64 := ⟨'+', '/', true⟩

/-- The alphabet for file names and addresses, without padding. -/
def urlSafe : Base64 := ⟨'-', '_', false⟩

/-- The character of six bits. -/
def digit (a : Base64) (n : Nat) : Char :=
  if n < 26 then Char.ofNat (65 + n)
  else if n < 52 then Char.ofNat (97 + (n - 26))
  else if n < 62 then Char.ofNat (48 + (n - 52))
  else if n = 62 then a.char62
  else a.char63

/-- The six bits of a character. -/
def value? (a : Base64) (c : Char) : Option Nat :=
  if 'A' ≤ c ∧ c ≤ 'Z' then some (c.toNat - 65)
  else if 'a' ≤ c ∧ c ≤ 'z' then some (c.toNat - 97 + 26)
  else if '0' ≤ c ∧ c ≤ '9' then some (c.toNat - 48 + 52)
  else if c = a.char62 then some 62
  else if c = a.char63 then some 63
  else none

/-- Padding of a short group. -/
def pad (a : Base64) (n : Nat) : List Char :=
  if a.padded then List.replicate n '=' else []

/-- The text of bytes. -/
def encode (a : Base64) : List UInt8 → List Char
  | [] => []
  | [x] =>
    let x := x.toNat
    a.digit (x / 4) :: a.digit (x % 4 * 16) :: a.pad 2
  | [x, y] =>
    let (x, y) := (x.toNat, y.toNat)
    a.digit (x / 4) :: a.digit (x % 4 * 16 + y / 16) :: a.digit (y % 16 * 4) :: a.pad 1
  | x :: y :: z :: rest =>
    let (x, y, z) := (x.toNat, y.toNat, z.toNat)
    a.digit (x / 4) :: a.digit (x % 4 * 16 + y / 16) :: a.digit (y % 16 * 4 + z / 64)
      :: a.digit (z % 64) :: a.encode rest

/-- The byte of a short group of two characters. -/
def lastOne? (a : Base64) (p q : Char) : Option (List UInt8) := do
  let p ← a.value? p
  let q ← a.value? q
  if q % 16 = 0 then some [UInt8.ofNat (p * 4 + q / 16)] else none

/-- The bytes of a short group of three characters. -/
def lastTwo? (a : Base64) (p q r : Char) : Option (List UInt8) := do
  let p ← a.value? p
  let q ← a.value? q
  let r ← a.value? r
  if r % 4 = 0 then
    some [UInt8.ofNat (p * 4 + q / 16), UInt8.ofNat (q % 16 * 16 + r / 4)]
  else none

/-- The bytes of a full group. -/
def group? (a : Base64) (p q r s : Char) : Option (List UInt8) := do
  let p ← a.value? p
  let q ← a.value? q
  let r ← a.value? r
  let s ← a.value? s
  return [UInt8.ofNat (p * 4 + q / 16), UInt8.ofNat (q % 16 * 16 + r / 4),
    UInt8.ofNat (r % 4 * 64 + s)]

/-- The bytes of a text. -/
def decode? (a : Base64) : List Char → Option (List UInt8)
  | [] => some []
  | [p, q] => if a.padded then none else a.lastOne? p q
  | [p, q, r] => if a.padded then none else a.lastTwo? p q r
  | [p, q, '=', '='] => if a.padded then a.lastOne? p q else none
  | [p, q, r, '='] => if a.padded then a.lastTwo? p q r else none
  | p :: q :: r :: s :: rest => do return (← a.group? p q r s) ++ (← a.decode? rest)
  | [_] => none

end Base64

end DepScope.Text
