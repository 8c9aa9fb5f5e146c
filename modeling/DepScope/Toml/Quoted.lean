import DepScope.Text.Chars

/-!
# DepScope.Toml.Quoted

The text of a string literal in any of its four forms: basic and literal, on one line or on
several. A line break right after the opening of a form on several lines is left out, and in the
basic one a backslash before a blank takes all blanks after it along. Readers differ in what they
take for a blank there.
-/

namespace DepScope.Toml

open Text

/-- The character a one-letter escape stands for. -/
def shortEscape? : Char → Option Char
  | 'b' => some '\x08'
  | 't' => some '\t'
  | 'n' => some '\n'
  | 'f' => some '\x0c'
  | 'r' => some '\r'
  | 'e' => some '\x1b'
  | '"' => some '"'
  | '\\' => some '\\'
  | _ => none

/-- The character with a number that is written in hexadecimal digits. -/
def scalar? (digits : List Char) : Option Char :=
  (hexBelow? 0x110000 digits).bind fun n =>
    if 0xD800 ≤ n ∧ n < 0xE000 then none else some (Char.ofNat n)

/-- The text of a basic string's body, with one step of fuel for each character. A backslash takes
characters along for which `skips` holds. -/
def unescape (skips : Char → Bool) : Nat → List Char → Option (List Char)
  | _, [] => some []
  | 0, _ :: _ => none
  | fuel + 1, c :: cs =>
    if c = '\\' then
      match cs with
      | [] => none
      | 'u' :: more =>
        if more.length < 4 then none
        else do return (← scalar? (more.take 4)) :: (← unescape skips fuel (more.drop 4))
      | 'U' :: more =>
        if more.length < 8 then none
        else do return (← scalar? (more.take 8)) :: (← unescape skips fuel (more.drop 8))
      | e :: more =>
        match shortEscape? e with
        | some x => (unescape skips fuel more).map (x :: ·)
        | none =>
          if skips e then unescape skips fuel (more.dropWhile skips)
          else none
    else (unescape skips fuel cs).map (c :: ·)

/-- Leaves out a line break at the start. -/
def trimBreak : List Char → List Char
  | '\r' :: '\n' :: cs => cs
  | '\n' :: cs => cs
  | cs => cs

/-- What stands between two quotes of a kind. -/
def between? (q cs : List Char) : Option (List Char) :=
  (afterPrefix? q cs).bind (beforeSuffix? q)

/-- The text of a string literal, with what counts as a blank after a backslash. -/
def decodeStringWith? (skips : Char → Bool) (raw : List Char) : Option (List Char) :=
  match between? ['"', '"', '"'] raw with
  | some body => let b := trimBreak body; unescape skips b.length b
  | none =>
    match between? ['\'', '\'', '\''] raw with
    | some body => some (trimBreak body)
    | none =>
      match between? ['"'] raw with
      | some body => unescape (fun _ => false) body.length body
      | none => between? ['\''] raw

/-- The text of a string literal. -/
def decodeString? (raw : List Char) : Option (List Char) :=
  decodeStringWith? isBlank raw

end DepScope.Toml
