import DepScope.Files.Tree
import DepScope.Pattern.Braces

/-!
# DepScope.Files.Ignore

Rules that leave files out, one on each line:

* blank lines and lines that start with `#` are passed over;
* `!` in front turns a rule around, a backslash takes this meaning away;
* a slash at the end limits a rule to folders;
* a rule with a slash at its start or inside is about paths from its own folder on, any other about
  names at any depth;
* `*` and `?` do not stand for a slash, `**` as a whole step stands for any number of steps, `[…]`
  for one of a set, `{…}` for alternatives.

Of several rules that match, the last one counts.
-/

namespace DepScope.Files

open Text

/-- A part of a rule's pattern. -/
inductive Part where
  | literal (c : Char)
  | any
  | sequence
  | set (negated : Bool) (ranges : List (Char × Char))
  /-- Any number of steps at the start. -/
  | leadingSteps
  /-- A slash, and any number of steps after it. -/
  | innerSteps
  /-- A slash and all that follows. -/
  | trailingSteps
deriving DecidableEq

/-! ## Reading -/

/-- The ranges of a set up to its closing bracket, and the rest. A closing bracket right at the
start belongs to the set; a range that runs backwards is malformed. -/
def readRanges : Nat → Bool → List (Char × Char) → List Char → Option (List (Char × Char) × List Char)
  | 0, _, _, _ => none
  | _, _, _, [] => none
  | fuel + 1, first, acc, c :: cs =>
    if c = ']' && !first then some (acc.reverse, cs)
    else match cs with
      | '-' :: d :: rest =>
        if d = ']' then readRanges fuel false ((c, c) :: acc) cs
        else if c ≤ d then readRanges fuel false ((c, d) :: acc) rest
        else none
      | _ => readRanges fuel false ((c, c) :: acc) cs

/-- A set after its opening bracket. -/
def readSet? (cs : List Char) : Option (Part × List Char) :=
  let (negated, body) := match cs with
    | '!' :: more | '^' :: more => (true, more)
    | _ => (false, cs)
  (readRanges (body.length + 1) true [] body).map fun (ranges, rest) => (.set negated ranges, rest)

/-- Two stars after the parts already read, the last one first: the parts with them, and the
rest. -/
def readStars (before : List Part) (rest : List Char) : List Part × List Char :=
  let plain := (.sequence :: .sequence :: before, rest)
  match before with
  | [] =>
    match rest with
    | [] => ([.leadingSteps], [])
    | '/' :: more => ([.leadingSteps], more)
    | _ => plain
  | .literal '/' :: earlier =>
    match rest with
    | [] => (.trailingSteps :: earlier, [])
    | '/' :: more => (.innerSteps :: earlier, more)
    | _ => plain
  | p :: _ =>
    -- steps after steps add nothing
    if p = .leadingSteps || p = .innerSteps then
      match rest with
      | [] => if p = .innerSteps then (.trailingSteps :: before.drop 1, []) else (before, [])
      | '/' :: more => (before, more)
      | _ => plain
    else plain

/-- The parts of a pattern; malformed ones have none. -/
def readParts : Nat → List Part → List Char → Option (List Part)
  | _, before, [] => some before.reverse
  | 0, _, _ :: _ => none
  | fuel + 1, before, c :: cs =>
    match c, cs with
    | '?', _ => readParts fuel (.any :: before) cs
    | '*', '*' :: rest =>
      let (parts, rest) := readStars before rest
      readParts fuel parts rest
    | '*', _ => readParts fuel (.sequence :: before) cs
    | '[', _ => do
      let (set, rest) ← readSet? cs
      readParts fuel (set :: before) rest
    | '\\', d :: rest => readParts fuel (.literal d :: before) rest
    | '\\', [] => none
    | _, _ => readParts fuel (.literal c :: before) cs

/-- Do the braces of a pattern pair up? -/
def bracesPair : Nat → List Char → Bool
  | depth, [] => depth == 0
  | depth, '\\' :: _ :: cs => bracesPair depth cs
  | depth, c :: cs =>
    if c = '\x7b' then bracesPair (depth + 1) cs
    else if c = '\x7d' then
      match depth with
      | n + 1 => bracesPair n cs
      | 0 => false
    else bracesPair depth cs

/-- A rule: whether it keeps what it matches, whether it is about folders only, and the patterns it
stands for. -/
structure Rule where
  keeps : Bool
  foldersOnly : Bool
  patterns : List (List Part)

/-- The patterns of a text with alternatives. -/
def readPatterns? (text : List Char) : Option (List (List Part)) :=
  if bracesPair 0 text then (Pattern.expand text).mapM fun p => readParts p.length [] p else none

/-- A rule without the marks at its start. -/
def readBody? (keeps anchored : Bool) (line : List Char) : Option Rule :=
  let (foldersOnly, body) := match beforeSuffix? ['/'] line with
    | some body => (true, (beforeSuffix? ['\\'] body).getD body)
    | none => (false, line)
  let anywhere := !anchored && !body.contains '/' && !(body = ['*', '*'])
  let text := if anywhere then "**/".toList ++ body else body
  let text := if hasSuffix "/**".toList text then text ++ "/*".toList else text
  (readPatterns? text).map fun ps => ⟨keeps, foldersOnly, ps⟩

/-- The rule of a line, if it has one. -/
def Rule.ofLine? (line : List Char) : Option Rule :=
  let line := if hasSuffix ['\\', ' '] line then line else trimEnd line
  match line with
  | [] => none
  | '#' :: _ => none
  | '\\' :: '!' :: rest => readBody? false false ('!' :: rest)
  | '\\' :: '#' :: rest => readBody? false false ('#' :: rest)
  | '!' :: '/' :: rest => readBody? true true rest
  | '!' :: rest => readBody? true false rest
  | '/' :: rest => readBody? false true rest
  | _ => readBody? false false line

/-- The rules of a file. -/
def readRules (text : String) : List Rule :=
  let ls := match lines text.toList with
    | l :: ls => l.dropWhile (· == '\uFEFF') :: ls
    | [] => []
  ls.filterMap Rule.ofLine?

/-! ## Matching -/

/-- Tries every rest of a text. -/
def anyRest (p : List Char → Bool) : List Char → Bool
  | [] => p []
  | c :: cs => p (c :: cs) || anyRest p cs

/-- Tries every rest of a text that follows a slash. -/
def afterSlash (p : List Char → Bool) : List Char → Bool
  | [] => false
  | c :: cs => (c = '/' && p cs) || afterSlash p cs

/-- Tries every rest of a text up to the next slash. -/
def withinStep (p : List Char → Bool) : List Char → Bool
  | [] => p []
  | c :: cs => p (c :: cs) || (c != '/' && withinStep p cs)

/-- Does a text match a pattern? -/
def matchesParts : List Part → List Char → Bool
  | [], cs => cs.isEmpty
  | .literal x :: ps, c :: cs => c = x && matchesParts ps cs
  | .any :: ps, c :: cs => c != '/' && matchesParts ps cs
  | .set negated ranges :: ps, c :: cs =>
    (ranges.any fun (low, high) => low ≤ c && c ≤ high) != negated && matchesParts ps cs
  | .sequence :: ps, cs => withinStep (matchesParts ps) cs
  | .leadingSteps :: ps, cs => matchesParts ps cs || afterSlash (matchesParts ps) cs
  | .innerSteps :: ps, '/' :: cs => matchesParts ps cs || afterSlash (matchesParts ps) cs
  | .trailingSteps :: ps, '/' :: cs => anyRest (matchesParts ps) cs
  | _ :: _, _ => false

/-- Does a rule match a path from its own folder on? -/
def Rule.matches (r : Rule) (path : List Char) (isFolder : Bool) : Bool :=
  (!r.foldersOnly || isFolder) && r.patterns.any fun p => matchesParts p path

/-- What rules say about a path: `some true` to keep it, `some false` to leave it out. -/
def decide? (rules : List Rule) (path : List Char) (isFolder : Bool) : Option Bool :=
  (rules.reverse.find? fun r => r.matches path isFolder).map (·.keeps)

end DepScope.Files
