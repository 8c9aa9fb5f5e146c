import DepScope.Script.Cursor

/-!
# DepScope.Script.Lexer

The words of a script: names and keywords, signs, numbers, strings, templates and regular
expressions.

Which word starts at a slash or at an angle bracket depends on the syntax around it, so words are
read on demand and not in advance.
-/

namespace DepScope.Script

open Text

/-! ## Words and signs -/

/-- The signs of the language, longer ones before their own beginnings. -/
def signs : List (List Char) :=
  [">>>=", "...", "===", "!==", "**=", "<<=", ">>=", ">>>", "&&=", "||=", "??=", "=>", "==", "!=",
   "<=", ">=", "&&", "||", "??", "?.", "++", "--", "+=", "-=", "*=", "/=", "%=", "&=", "|=", "^=",
   "<<", ">>", "**", "\x7b", "\x7d", "(", ")", "[", "]", ";", ",", "<", ">", "+", "-", "*", "/",
   "%", "&", "|", "^", "!", "~", "?", ":", "=", ".", "@", "#"].map String.toList

/-- The sign at the start, the longest one; `?.` before a digit is a question mark. -/
def signAt? (cs : List Char) : Option (List Char) :=
  match cs with
  | '?' :: '.' :: c :: _ =>
    if isAsciiDigit c then some ['?'] else some ['?', '.']
  | _ => signs.find? fun s => hasPrefix s cs

/-- The sign ahead, empty if there is none. -/
def signAhead : Parse String := do
  return String.ofList ((signAt? (← ahead)).getD [])

/-- Skips what follows a sign. An operand may have ended with a closing bracket or a step, so what
looks like a note after it may be made of operators. -/
def skipAfter (s : String) : Parse Unit :=
  if [")", "]", "\x7d", ">", "++", "--", "!"].contains s then skip else skipNotes

/-- Reads exactly the given sign. -/
def sign (s : String) : Parse Unit := do
  raw fun cs =>
    if cs.head? == some s.front && signAt? cs == some s.toList
    then some ((), s.toList, cs.drop s.length) else none
  skipAfter s

/-- Reads the given characters, even if they begin a longer sign. -/
def opening (s : String) : Parse Unit := do
  raw fun cs => (afterPrefix? s.toList cs).map fun rest => ((), s.toList, rest)
  skipAfter s

/-- Hexadecimal digits. -/
def isHexDigit (c : Char) : Bool :=
  (digitIn? 16 c).isSome

/-- The length of a code point that is spelled out after a backslash: `u` with four digits, or with
digits in braces. -/
def codePointLength? : List Char → Option Nat
  | 'u' :: '\x7b' :: cs =>
    let digits := cs.takeWhile isHexDigit
    if !digits.isEmpty && (cs.drop digits.length).head? == some '\x7d'
    then some (digits.length + 3) else none
  | 'u' :: cs =>
    let digits := (cs.take 4).takeWhile isHexDigit
    if digits.length = 4 then some 5 else none
  | _ => none

/-- The characters of a name; `spelled` more of them belong to a code point that is spelled out. -/
def nameChars (spelled : Nat) : List Char → List Char
  | [] => []
  | c :: cs =>
    match spelled with
    | k + 1 => c :: nameChars k cs
    | 0 =>
      if c = '\\' then
        match codePointLength? cs with
        | some k => c :: nameChars k cs
        | none => []
      else if isNameBreak c then []
      else c :: nameChars 0 cs

/-- A name or keyword. -/
def wordAt? (cs : List Char) : Option (List Char × List Char × List Char) :=
  match cs with
  | [] => none
  | c :: _ =>
    let name := nameChars 0 cs
    if isNameStart c && !name.isEmpty then some (name, name, cs.drop name.length) else none

/-- Reads a name or keyword. -/
def word : Parse (List Char) := do
  let w ← raw wordAt?
  skip
  return w

/-- Words that are values. -/
def valueWords : List String := ["true", "false", "null", "this", "super"]

/-- Reads one of the given keywords. -/
def keywordOf (ss : List String) : Parse String := do
  let first := (← ahead).head?
  ensure (ss.any fun s => first == some s.front)
  let w := String.ofList (← raw wordAt?)
  ensure (ss.contains w)
  if valueWords.contains w then skip else skipNotes
  return w

/-- Reads the given keyword. -/
def keyword (s : String) : Parse Unit := do
  let _ ← keywordOf [s]

/-- Words that start a form of their own where an operand stands. Elsewhere they are names. -/
def operandWords : List String :=
  valueWords ++ ["await", "class", "delete", "function", "import", "new", "typeof", "void", "yield"]

/-- Words that cannot be the name of a statement or of a class. -/
def reserved : List String :=
  operandWords ++ ["break", "case", "catch", "const", "continue", "debugger", "default", "do", "else",
    "enum", "export", "extends", "finally", "for", "if", "in", "instanceof", "return", "switch",
    "throw", "try", "var", "while", "with"]

/-- Reads a word that is none of the given ones. -/
def nameBut (ss : List String) : Parse (List Char) := do
  let w ← word
  ensure (!ss.contains (String.ofList w))
  return w

/-- Reads a name that is not reserved. -/
def name : Parse (List Char) := nameBut reserved

/-! ## Literals -/

/-- Digits with single underscores between them. -/
def separated (p : Char → Bool) : List Char → List Char
  | c :: '_' :: d :: cs =>
    if p c then (if p d then c :: '_' :: separated p (d :: cs) else [c]) else []
  | c :: cs => if p c then c :: separated p cs else []
  | [] => []

/-- An exponent with its mark, or nothing. -/
def exponentAt : List Char → List Char
  | e :: cs =>
    if e = 'e' || e = 'E' then
      match cs with
      | s :: ds =>
        if s = '+' || s = '-' then
          let digits := separated isAsciiDigit ds
          if digits.isEmpty then [] else e :: s :: digits
        else
          let digits := separated isAsciiDigit cs
          if digits.isEmpty then [] else e :: digits
      | [] => []
    else []
  | [] => []

/-- May the digits stand before a point or an exponent? Only one leading zero is allowed there. -/
def isPlainInteger : List Char → Bool
  | ['0'] => true
  | '0' :: c :: _ => '1' ≤ c && c ≤ '9'
  | c :: _ => '1' ≤ c && c ≤ '9'
  | [] => false

/-- The numeric literal at the start, as it is written. -/
def numberAt? (cs : List Char) : Option (List Char) :=
  let based (m : Char) (p : Char → Bool) (ds : List Char) : Option (List Char) :=
    let digits := separated p ds
    if digits.isEmpty then some ['0']
    else
      let text := '0' :: m :: digits
      some (if (cs.drop text.length).head? == some 'n' then text ++ ['n'] else text)
  match cs with
  | '0' :: 'x' :: ds => based 'x' isHexDigit ds
  | '0' :: 'X' :: ds => based 'X' isHexDigit ds
  | '0' :: 'o' :: ds => based 'o' (fun c => (digitIn? 8 c).isSome) ds
  | '0' :: 'O' :: ds => based 'O' (fun c => (digitIn? 8 c).isSome) ds
  | '0' :: 'b' :: ds => based 'b' (fun c => (digitIn? 2 c).isSome) ds
  | '0' :: 'B' :: ds => based 'B' (fun c => (digitIn? 2 c).isSome) ds
  | '.' :: ds =>
    let digits := separated isAsciiDigit ds
    if digits.isEmpty then none
    else some ('.' :: digits ++ exponentAt (ds.drop digits.length))
  | _ =>
    let whole := separated isAsciiDigit cs
    if whole.isEmpty then none
    else
      let rest := cs.drop whole.length
      match rest with
      | 'n' :: _ => some (whole ++ ['n'])
      | '.' :: more =>
        if isPlainInteger whole then
          let digits := separated isAsciiDigit more
          some (whole ++ '.' :: digits ++ exponentAt (more.drop digits.length))
        else some whole
      | _ => some (if isPlainInteger whole then whole ++ exponentAt rest else whole)

/-- Where the reading of a string stands: in its text, after a line that ended in it, or in a comment
after such a line. -/
inductive StringPart where
  | text
  | gap
  | line
  | block

/-- May an escape continue like this? -/
def isEscape : List Char → Bool
  | [] => false
  | 'x' :: cs => ((cs.take 2).takeWhile isHexDigit).length = 2
  | c :: cs => c != 'u' || (codePointLength? (c :: cs)).isSome

/-- Do all escapes make sense? -/
def wellEscaped : List Char → Bool
  | [] => true
  | '\\' :: c :: cs => isEscape (c :: cs) && wellEscaped cs
  | c :: cs => c != '\\' && wellEscaped cs

/-- The body of a string literal up to its closing quote. A line may end inside a string, if nothing
but blanks and comments follow it; after such a comment the text goes on. Escapes have to make
sense, unless any will do. -/
def stringBody (anyEscape : Bool) (quote : Char) : StringPart → List Char → Option (List Char)
  | _, [] => none
  | .text, '\\' :: '\r' :: '\n' :: cs =>
    (stringBody anyEscape quote .text cs).map fun b => '\\' :: '\r' :: '\n' :: b
  | .text, '\\' :: c :: cs =>
    if anyEscape || isEscape (c :: cs) then
      (stringBody anyEscape quote .text cs).map fun b => '\\' :: c :: b
    else none
  | .text, c :: cs =>
    if c = quote then some []
    else if c = '\\' then none
    else (stringBody anyEscape quote (if c = '\n' || c = '\r' then .gap else .text) cs).map (c :: ·)
  | .gap, '/' :: '/' :: cs => (stringBody anyEscape quote .line cs).map fun b => '/' :: '/' :: b
  | .gap, '/' :: '*' :: cs => (stringBody anyEscape quote .block cs).map fun b => '/' :: '*' :: b
  | .gap, c :: cs =>
    if c = quote then some []
    else if isGapChar c then (stringBody anyEscape quote .gap cs).map (c :: ·)
    else none
  | .line, c :: cs =>
    let next := if c = '\n' || c = '\r' then StringPart.gap else if isLineEnd c then .text else .line
    (stringBody anyEscape quote next cs).map (c :: ·)
  | .block, '*' :: '/' :: cs => (stringBody anyEscape quote .text cs).map fun b => '*' :: '/' :: b
  | .block, c :: cs => (stringBody anyEscape quote .block cs).map (c :: ·)

/-- The string literal at the start: its body and the whole of it. -/
def stringAt? (anyEscape : Bool) (cs : List Char) : Option (List Char × List Char × List Char) :=
  match cs with
  | q :: more =>
    if q = '"' || q = '\'' then
      (stringBody anyEscape q .text more).map fun body =>
        (body, q :: body ++ [q], more.drop (body.length + 1))
    else none
  | [] => none

/-- The text of a template up to the next substitution or the end. -/
def templateText : List Char → List Char
  | [] => []
  | '\\' :: c :: cs => '\\' :: c :: templateText cs
  | '$' :: '\x7b' :: _ => []
  | c :: cs => if c = '\x60' then [] else c :: templateText cs

/-- The body of a regular expression up to its closing slash, all on one line. -/
def regexBody (inClass : Bool) : List Char → Option (List Char)
  | [] => none
  | '\\' :: c :: cs =>
    if c = '\n' then none else (regexBody inClass cs).map fun b => '\\' :: c :: b
  | c :: cs =>
    if c = '\n' then none
    else if c = '/' && !inClass then some []
    else (regexBody (c = '[' || (inClass && c != ']')) cs).map (c :: ·)

/-- The regular expression at the start, with its flags. -/
def regexAt? (cs : List Char) : Option (List Char) :=
  match cs with
  | '/' :: more =>
    (regexBody false more).bind fun body =>
      if body.isEmpty then none
      else
        let flags := (more.drop (body.length + 1)).takeWhile fun c => 'a' ≤ c && c ≤ 'z'
        some ('/' :: body ++ '/' :: flags)
  | _ => none

end DepScope.Script
