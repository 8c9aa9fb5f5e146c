import DepScope.Text.Chars
import DepScope.Text.Units

/-!
# DepScope.Json.Text

String literals: what stands between the quotes, read and written. Reading refuses control
characters, unknown escapes and surrogates that are not part of a pair; writing escapes the quote,
the backslash and control characters and leaves all else as it is.
-/

namespace DepScope.Json

open Text

/-- Four hexadecimal digits. -/
def hexUnit? : List Char → Option (Nat × List Char)
  | a :: b :: c :: d :: cs => (natIn? 16 [a, b, c, d]).map (·, cs)
  | _ => none

/-- The character a one-letter escape stands for. -/
def shortEscape? : Char → Option Char
  | '"' => some '"'
  | '\\' => some '\\'
  | '/' => some '/'
  | 'b' => some '\x08'
  | 'f' => some '\x0c'
  | 'n' => some '\n'
  | 'r' => some '\r'
  | 't' => some '\t'
  | _ => none

/-- The character of an escape by number, after its `u`: one unit, or a pair of them. -/
def unicodeEscape? (cs : List Char) : Option (Char × List Char) := do
  let (u, rest) ← hexUnit? cs
  if isLowSurrogate u then none
  else if isHighSurrogate u then
    match rest with
    | '\\' :: 'u' :: more => do
      let (v, rest) ← hexUnit? more
      if isLowSurrogate v then return (joinSurrogates u v, rest) else none
    | _ => none
  else return (Char.ofNat u, rest)

/-- The text a literal's body stands for, with one step of fuel for each character. -/
def readBody : Nat → List Char → Option (List Char)
  | _, [] => some []
  | 0, _ :: _ => none
  | fuel + 1, c :: cs =>
    if c = '\\' then
      match cs with
      | 'u' :: more => do
        let (x, rest) ← unicodeEscape? more
        return x :: (← readBody fuel rest)
      | e :: rest => do
        let x ← shortEscape? e
        return x :: (← readBody fuel rest)
      | [] => none
    else if c.toNat < 0x20 || c = '"' then none
    else do return c :: (← readBody fuel cs)

/-- The text of a string literal's body. -/
def decodeBody? (body : List Char) : Option String :=
  (readBody body.length body).map String.ofList

/-- A character as it is written inside quotes. -/
def escapeChar (c : Char) : List Char :=
  match c with
  | '"' => ['\\', '"']
  | '\\' => ['\\', '\\']
  | '\x08' => ['\\', 'b']
  | '\x0c' => ['\\', 'f']
  | '\n' => ['\\', 'n']
  | '\r' => ['\\', 'r']
  | '\t' => ['\\', 't']
  | c => if c.toNat < 0x20 then '\\' :: 'u' :: hex4 c.toNat else [c]

/-- A text as a string literal. -/
def quote (s : String) : String :=
  String.ofList ('"' :: s.toList.flatMap escapeChar ++ ['"'])

end DepScope.Json
