import DepScope.Script.Lexer

/-!
# DepScope.Script.Grammar.Basic

The grammar is written as productions that refer to each other through a parameter: a production
for a `Goal` receives a reader for every goal and builds its own from it. Tying the knot with a
bound on the depth (`DepScope.Script.Parser`) then gives a total parser, and each production can
be read and reasoned about alone.

This module has the goals and what all productions share: nodes, lists, leaves, templates.
-/

namespace DepScope.Script

open Text

/-- What a production can ask for. -/
inductive Goal where
  /-- Expressions separated by commas. -/
  | expression
  /-- One expression. -/
  | assignment
  /-- Operators that bind at least as tightly as the level. -/
  | binary (level : Nat)
  /-- An operand with the operators before and after it, or an assignment to it. -/
  | unary
  /-- An object literal, or an object pattern. -/
  | object
  /-- An array literal, or an array pattern. -/
  | array
  | arguments
  | parameters
  | function
  | classLike
  | decorator
  | type
  | typeArguments
  | typeParameters
  | markup
  | block
  | declaration
  | statement

/-- A number for each goal. -/
def Goal.slot : Goal → Nat
  | expression => 0
  | assignment => 1
  | unary => 2
  | object => 3
  | array => 4
  | arguments => 5
  | parameters => 6
  | function => 7
  | classLike => 8
  | decorator => 9
  | type => 10
  | typeArguments => 11
  | typeParameters => 12
  | markup => 13
  | block => 14
  | declaration => 15
  | statement => 16
  | binary level => 17 + level

/-- A reader for every goal. -/
abbrev Grammar := Goal → Parse Node

/-! ## Nodes -/

/-- The offset of the next word. -/
def here : Parse Nat := do return (← get).pos

/-- A node from an offset to the end of the last word. -/
def close (label : Label) (start : Nat) (children : List Node) : Parse Node := do
  return .mk label ⟨start, (← get).last⟩ children

/-- A node without a role of its own. -/
def bundle (start : Nat) (children : List Node) : Parse Node :=
  close .other start children

/-- Reads children and makes them one node without a role. -/
def bundled (p : Parse (List Node)) : Parse Node := do
  let start ← here
  bundle start (← p)

/-- A leaf from a reader of its label. -/
def leaf (p : Parse Label) : Parse Node := do
  let start ← here
  let label ← p
  close label start []

/-- The children of an optional part. -/
def optional (p : Parse Node) : Parse (List Node) := do
  return (← maybe p).toList

/-- A node for a note right here, which stands in the way of what follows it. -/
def noteHere : Parse (List Node) := do
  let c ← get
  return if c.noted then [.mk .other ⟨c.pos, c.pos⟩ []] else []

/-- What stands between two signs; each item is followed by a comma or the end. -/
def enclosed (left right : String) (item : Parse (List Node)) : Parse (List Node) := nested do
  opening left
  let note ← noteHere
  let items ← many item
  opening right
  return note ++ items.flatten

/-- An item with the comma after it; the last one may stand without. -/
def listed (right : String) (item : Parse Node) : Parse (List Node) := do
  let n ← item
  unless ← would (opening right) do sign ","
  return [n]

/-- What stands between two signs, separated by commas. -/
def commaList (left right : String) (item : Parse Node) : Parse (List Node) :=
  enclosed left right (listed right item)

/-- As `commaList`, but with empty places, which are passed over. -/
def sparseList (left right : String) (item : Parse Node) : Parse (List Node) :=
  enclosed left right (listed right item <|> (do sign ","; return []))

/-- The end of a statement: a semicolon, the end of the line, of the block or of the script. Where
broken places are passed over, it may be missing. -/
def terminator : Parse Unit :=
  sign ";" <|> (do
    let c ← get
    ensure (c.statementEnds false || c.context.lenient))

/-! ## Leaves -/

/-- A string literal. -/
def stringLiteral : Parse Node :=
  leaf do
    let body ← raw (stringAt? (← get).context.lenient)
    skip
    return .string body

/-- A numeric literal. -/
def numberLiteral : Parse Node :=
  leaf do
    let text ← raw fun cs => (numberAt? cs).map fun t => (t, t, cs.drop t.length)
    skip
    return .number text

/-- A regular expression. -/
def regexLiteral : Parse Node :=
  leaf do
    raw fun cs => (regexAt? cs).map fun t => ((), t, cs.drop t.length)
    skip
    return .other

/-- A name where an operand stands. -/
def identifier : Parse Node :=
  leaf do return .identifier (← nameBut operandWords)

/-- Any word, as in the name of a property. -/
def anyWord : Parse Node :=
  leaf do
    let _ ← word
    return .other

/-- A private name with its mark. -/
def privateName : Parse Node :=
  leaf do
    raw fun
      | '#' :: cs => (wordAt? cs).map fun (w, _, rest) => ((), '#' :: w, rest)
      | _ => none
    skip
    return .other

/-- Exactly these characters, with nothing skipped after them. -/
def exactly (s : String) : Parse Unit :=
  raw fun cs => (Text.afterPrefix? s.toList cs).map fun rest => ((), s.toList, rest)

/-- A template whose substitutions are read as the given goal. -/
def template (self : Grammar) (hole : Goal) : Parse Node := do
  let start ← here
  let anyEscape := (← get).context.lenient
  let text : Parse (List Char) :=
    raw fun cs =>
      let t := templateText cs
      if anyEscape || wellEscaped t then some (t, t, cs.drop t.length) else none
  exactly "\x60"
  let (texts, parts) ← loop (([] : List (List Char)), ([] : List Node)) fun (texts, parts) => do
    let t ← text
    let e ← nested do
      exactly "$\x7b"
      skipNotes
      let note ← noteHere
      let e ← self hole
      exactly "\x7d"
      return if note.isEmpty then e else .mk .other e.span (note ++ [e])
    return (t :: texts, e :: parts)
  let final ← text
  exactly "\x60"
  skip
  close (.template (final :: texts).reverse) start parts.reverse

/-- The name of a property: a word, a string, a number, a private name or an expression in
brackets. No operator follows it. -/
def propertyKey (self : Grammar) : Parse Node := do
  let key ← anyWord <|> stringLiteral <|> numberLiteral <|> privateName <|> bundled (nested do
    sign "["
    let e ← self .expression
    sign "]"
    return [e])
  skipNotes
  return key

/-- Does a property name start here? -/
def keyAhead : Parse Unit := do
  match ← ahead with
  | '.' :: c :: _ => ensure (isAsciiDigit c)
  | c :: _ => ensure (isNameStart c || isAsciiDigit c || c = '"' || c = '\'' || c = '[' || c = '#')
  | [] => failure

/-- Words before the name of a member, each followed by another word or name. -/
def modifiers (words : List String) : Parse (List String) :=
  many (do
    let w ← keywordOf words
    goesOn true
    keyAhead <|> peek (opening "*")
    return w)

/-- A type after a colon. -/
def ascription (self : Grammar) : Parse Node := do
  sign ":"
  self .type

/-- A value after an equals sign. -/
def initializer (self : Grammar) : Parse Node := do
  sign "="
  self .assignment

/-- Succeeds unless the statement has to end after a type here. -/
def typeGoesOn : Parse Unit := do
  goesOn (← get).context.operators

/-- The type of a function's result, or a statement about a parameter in place of it. -/
def resultType (self : Grammar) : Parse Node :=
  bundled (do
    keyword "asserts"
    typeGoesOn
    let _ ← word
    optional (do typeGoesOn; keyword "is"; self .type)) <|>
  bundled (do
    let _ ← word
    typeGoesOn
    keyword "is"
    return [← self .type]) <|>
  self .type

/-- The result of a function after a colon. -/
def resultAscription (self : Grammar) : Parse Node := do
  sign ":"
  resultType self

/-- The parts of a function between its name and its body. -/
def signature (self : Grammar) : Parse (List Node) := do
  skipNotes
  let generics ← optional (self .typeParameters)
  let params ← self .parameters
  let result ← optional (resultAscription self)
  return generics ++ params :: result

/-! ## Broken places -/

/-- Passes over one word where nothing can be read. A slash there opens a regular expression; one
that is not closed reaches to the end of its line. -/
def passOver : Parse Unit := do
  (do let _ ← word; pure ()) <|> (do let _ ← regexLiteral; pure ()) <|>
  (do
    exactly "/"
    raw fun cs =>
      let line := cs.takeWhile fun c => !isLineEnd c
      some ((), line, cs.drop line.length)
    skip) <|>
  (do let _ ← numberLiteral; pure ()) <|> (do
    let _ ← inContext (fun x => { x with lenient := true }) stringLiteral
    pure ()) <|>
  (do
    let s ← signAhead
    ensure (!s.isEmpty)
    sign s) <|>
  (do
    raw fun
      | c :: cs => some ((), [c], cs)
      | [] => none
    skip)

/-- Statements or members in braces. Where broken places are passed over, only the closing brace
ends them. -/
def braced (item : Parse Node) : Parse (List Node) := do
  sign "\x7b"
  let items ← inContext Context.sequence (many ((do return some (← item)) <|> (do
    ensure (← get).context.lenient
    refuse (atEnd <|> opening "\x7d")
    passOver
    return none)))
  sign "\x7d"
  return items.filterMap id

end DepScope.Script
