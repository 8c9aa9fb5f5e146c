import DepScope.References
import DepScope.Text.Lines
import DepScope.Text.Word

/-!
# DepScope.Scan.Python

The packages a Python source imports, found without its syntax tree: first the statements
`import a, b` and `from a import b` at the start of a line, then calls of `__import__` and
`import_module` with a literal anywhere. The package of a module is its name up to the first dot.
-/

namespace DepScope.Scan

open Text Package

/-- A module that is named, and the place that names it. -/
structure Found where
  module : List Char
  span : Span
deriving DecidableEq

/-- Spaces and tabs. -/
def isSpace (c : Char) : Bool := c = ' ' || c = '\t'

/-- What follows a keyword and at least one space. -/
def afterKeyword? (keyword : String) (cs : List Char) : Option (List Char) :=
  match afterPrefix? keyword.toList cs with
  | some (c :: rest) => if isSpace c then some (rest.dropWhile isSpace) else none
  | _ => none

/-- The part of a line before a comment or another statement. -/
def untilStop (cs : List Char) : List Char :=
  cs.takeWhile fun c => c != '#' && c != ';'

/-! ## Statements -/

/-- The modules of an import statement, and the statement. -/
def importStatement? (cs : List Char) : Option (List (List Char) × List Char) :=
  (afterKeyword? "import" cs).map fun rest =>
    let list := untilStop rest
    ((pieces ',' list).map firstWord, cs.take (cs.length - rest.length + list.length))

/-- Does no word go on here? -/
def atWordEnd : List Char → Bool
  | [] => true
  | c :: _ => !isWordChar c

/-- The module of a statement that imports from one, and the statement. -/
def fromStatement? (cs : List Char) : Option (List (List Char) × List Char) := do
  let rest ← afterKeyword? "from" cs
  let module := rest.takeWhile fun c => !isBlank c && c != '#' && c != ';'
  let tail := rest.drop module.length
  let spaces := tail.takeWhile isSpace
  let names ← afterPrefix? "import".toList (tail.drop spaces.length)
  if module.isEmpty || spaces.isEmpty || !atWordEnd names then none
  else
    return ([module], cs.take (cs.length - names.length + (untilStop names).length))

/-- What a line that starts at a byte offset imports. -/
def pythonLine (off : Nat) (line : List Char) : List Found :=
  let indent := line.takeWhile isSpace
  let code := line.drop indent.length
  match (importStatement? code).or (fromStatement? code) with
  | some (modules, statement) =>
    let start := off + byteLength indent
    modules.map fun m => ⟨m, start, start + byteLength (trimEnd statement)⟩
  | none => []

/-! ## Calls -/

/-- A literal in the given quotes that may span lines, up to the first place where the quotes and a
closing parenthesis follow. Its content is not empty. -/
def longLiteral? (ending : List Char) : List Char → Option (List Char)
  | [] => none
  | c :: cs =>
    if hasPrefix ending cs then some [c] else (longLiteral? ending cs).map (c :: ·)

/-- A literal on one line up to its quote, which a closing parenthesis follows. -/
def shortLiteral? (quote : Char) (cs : List Char) : Option (List Char) :=
  let body := cs.takeWhile fun c => c != quote && c != '\n'
  if !body.isEmpty && hasPrefix [quote, ')'] (cs.drop body.length) then some body else none

/-- The argument of a call after its opening parenthesis, and the length of all that follows
there. -/
def literalArgument? (cs : List Char) : Option (List Char × Nat) :=
  let long (q : Char) : Option (List Char × Nat) :=
    (afterPrefix? [q, q, q] cs).bind fun body =>
      (longLiteral? [q, q, q, ')'] body).map fun m => (m, m.length + 7)
  let short (q : Char) : Option (List Char × Nat) :=
    (afterPrefix? [q] cs).bind fun body => (shortLiteral? q body).map fun m => (m, m.length + 3)
  (long '"').or ((long '\'').or ((short '"').or (short '\'')))

/-- A call at the start of a text: the module, and the length of the call. -/
def importCall? (cs : List Char) : Option (List Char × Nat) :=
  let call (name : String) : Option (List Char × Nat) :=
    (afterPrefix? name.toList cs).bind fun rest =>
      (literalArgument? rest).map fun (m, n) => (m, n + name.length)
  (call "__import__(").or (call "import_module(")

/-- The calls of a text from a byte offset on; `skip` characters belong to a call already found. -/
def importCalls (skip off : Nat) : List Char → List Found
  | [] => []
  | c :: cs =>
    match skip with
    | n + 1 => importCalls n (off + c.utf8Size) cs
    | 0 =>
      match importCall? (c :: cs) with
      | some (module, n) =>
        ⟨trim module, off, off + byteLength ((c :: cs).take n)⟩ ::
          importCalls (n - 1) (off + c.utf8Size) cs
      | none => importCalls 0 (off + c.utf8Size) cs

/-! ## Packages -/

/-- The mention of a module, unless it is relative or not a name. -/
def Found.pythonMention? (lines : LineIndex) (f : Found) : Option Mention :=
  let top := f.module.takeWhile (· != '.')
  if top.isEmpty || top.contains '(' then none
  else some (Mention.ofName .pypi (String.ofList top) (lines.rangeOf f.span))

/-- The packages of a Python source. -/
def python (text : String) : References :=
  let cs := text.toList
  let found := (placedLines 0 cs).flatMap (fun (off, line) => pythonLine off line)
    ++ importCalls 0 0 cs
  .ofMentions (found.filterMap (Found.pythonMention? (LineIndex.ofText text)))

end DepScope.Scan
