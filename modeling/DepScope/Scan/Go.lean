import DepScope.Json.Text
import DepScope.Scan.Python

/-!
# DepScope.Scan.Go

The packages a Go source imports, found without its syntax tree: first the lines `import "x"`, then
the lines inside `import ( … )`. A mention is the quoted path.
-/

namespace DepScope.Scan

open Text Package

/-- The two characters that quote a path. -/
def isPathQuote (c : Char) : Bool := c = '"' || c = '\x60'

/-- A path in quotes: what stands before it on its line, the path as it is written with its two
quotes, and what follows. -/
structure QuotedPath where
  before : List Char
  openQuote : Char
  path : List Char
  closeQuote : Char
  after : List Char

/-- The path of an import after the keyword, perhaps after a name for it. -/
def quotedPath? (line : List Char) : Option QuotedPath :=
  let spaces := line.takeWhile isSpace
  let rest := line.drop spaces.length
  let label := rest.takeWhile fun c => !isBlank c && c != '(' && !isPathQuote c
  let gap := (rest.drop label.length).takeWhile isSpace
  let before := spaces ++ label ++ gap
  if !label.isEmpty && gap.isEmpty then none
  else match line.drop before.length with
    | q :: more =>
      if isPathQuote q then
        let path := more.takeWhile fun c => !isBlank c && !isPathQuote c
        match more.drop path.length with
        | q' :: after =>
          if isPathQuote q' && !path.isEmpty then some ⟨before, q, path, q', after⟩ else none
        | [] => none
      else none
    | [] => none

/-- The path itself: escapes count between plain quotes, if they make sense. -/
def QuotedPath.decoded (p : QuotedPath) : List Char :=
  if p.openQuote = '"' && p.closeQuote = '"' then
    ((Json.decodeBody? p.path).map String.toList).getD p.path
  else p.path

/-- The path and its place on a line that starts at a byte offset. -/
def QuotedPath.found (p : QuotedPath) (off : Nat) : Found :=
  let start := off + byteLength p.before
  ⟨p.decoded, start, start + byteLength p.path + 2⟩

/-- May a line end like this after a path: with a comment, or with nothing but blanks? -/
def endsImport (cs : List Char) : Bool :=
  let rest := cs.dropWhile isSpace
  rest.isEmpty || rest == ['\r'] || hasPrefix ['/', '/'] rest

/-- What follows the keyword at the start of a line, and how far in that is. -/
def afterImport? (line : List Char) : Option (List Char × List Char) :=
  let indent := line.takeWhile isSpace
  (afterPrefix? "import".toList (line.drop indent.length)).map fun rest =>
    (indent ++ "import".toList, rest)

/-- The import a line is by itself. -/
def singleImport? (off : Nat) (line : List Char) : Option Found := do
  let (head, rest) ← afterImport? line
  let p ← quotedPath? rest
  if endsImport p.after then return p.found (off + byteLength head) else none

/-- The imports of lines inside a block, up to one that starts or ends with the closing
parenthesis. -/
def blockImports : List (Nat × List Char) → List Found
  | [] => []
  | (off, line) :: rest =>
    let content := trim line
    if content.head? == some ')' then []
    else
      ((quotedPath? line).map (·.found off)).toList ++
        (if content.getLast? == some ')' then [] else blockImports rest)

/-- The text of a block that a line opens, with the offset where it starts. -/
def opensBlock? (off : Nat) (line : List Char) : Option (Nat × List Char) := do
  let (head, rest) ← afterImport? line
  let spaces := rest.takeWhile isSpace
  match rest.drop spaces.length with
  | '(' :: inside => return (off + byteLength (head ++ spaces) + 1, inside)
  | _ => none

/-- The imports of all blocks of some lines. -/
def blocks : List (Nat × List Char) → List Found
  | [] => []
  | (off, line) :: rest =>
    (match opensBlock? off line with
      | some first => blockImports (first :: rest)
      | none => []) ++ blocks rest

/-- The packages of a Go source. -/
def go (text : String) : References :=
  let ls := placedLines 0 text.toList
  let found := ls.filterMap (fun (off, line) => singleImport? off line) ++ blocks ls
  let lines := LineIndex.ofText text
  .ofMentions (found.map fun f =>
    Mention.ofName .golang (String.ofList f.module) (lines.rangeOf f.span))

end DepScope.Scan
