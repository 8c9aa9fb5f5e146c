import DepScope.Script.Grammar.Expressions

/-!
# DepScope.Script.Grammar.Statements

Statements and declarations. Those that load a module (`import … from`, `export … from`,
`import … = require(…)`) become nodes labelled `loads`, with the module's name as first child.
-/

namespace DepScope.Script

open Text

/-! ## Loading and exporting -/

/-- The name of something in a module. -/
def memberName : Parse Unit := do
  (do let _ ← word) <|> (do let _ ← stringLiteral)
  skipNotes

/-- Names in braces, as they are imported or exported, each perhaps under another name. -/
def bracedNames : Parse Unit := do
  let _ ← commaList "\x7b" "\x7d" (bundled do
    let _ ← maybe (do
      let w ← keywordOf ["type", "typeof"]
      refuse (opening "," <|> opening "\x7d")
      if w = "type" then refuse (keyword "as"))
    memberName
    let _ ← maybe (do keyword "as"; memberName)
    return [])
  return ()

/-- Everything under one name. -/
def starName : Parse Unit := do
  sign "*"
  keyword "as"
  (do let _ ← word) <|> (do let _ ← stringLiteral)

/-- The attributes after the name of a module. -/
def moduleAttributes (self : Grammar) : Parse (List Node) :=
  optional (do let _ ← keywordOf ["with", "assert"]; self .object)

/-- What is imported, up to the word `from`. -/
def importClause : Parse Unit := do
  let several : Parse Unit := starName <|> bracedNames
  several <|> (do
    let _ ← word
    let _ ← maybe (do sign ","; several)
    return ())
  keyword "from"

/-- The rest of a declaration that loads a module. -/
def loadsModule (self : Grammar) (start : Nat) : Parse Node := do
  let source ← stringLiteral
  let attributes ← moduleAttributes self
  let n ← close .loads start (source :: attributes)
  terminator
  return n

/-- A name that stands for a module or for a part of one. -/
def importAlias : Parse Node := do
  let start ← here
  let _ ← name
  sign "="
  let required : Parse Node := do
    keyword "require"
    sign "("
    let source ← stringLiteral
    sign ")"
    close .loads start [source]
  let aliased : Parse Node := do
    let _ ← name
    dottedNames
    bundle start []
  let n ← required <|> aliased
  terminator
  return n

/-- An import. -/
def importStatement (self : Grammar) : Parse Node := do
  let start ← here
  keyword "import"
  refuse (opening "(" <|> opening ".")
  let body : Parse Node :=
    loadsModule self start <|> (do importClause; loadsModule self start) <|> importAlias
  (do let _ ← keywordOf ["type", "typeof"]; body) <|> body

/-- An export. -/
def exportStatement (self : Grammar) : Parse Node := do
  let start ← here
  let decorators ← many (self .decorator)
  keyword "export"
  let everything : Parse Node := do
    starName <|> sign "*"
    keyword "from"
    loadsModule self start
  let named : Parse Node := do
    bracedNames
    (do goesOn false; keyword "from"; loadsModule self start) <|> (do terminator; bundle start [])
  let assigned : Parse Node := do
    sign "="
    let e ← self .expression
    terminator
    bundle start [e]
  let global : Parse Node := do
    keyword "as"
    keyword "namespace"
    let _ ← name
    terminator
    bundle start []
  let standard : Parse Node := do
    keyword "default"
    let n ← self .declaration <|> self .function <|> (do
      let e ← self .expression
      terminator
      return e)
    bundle start [n]
  let typed : Parse Node := do keyword "type"; named <|> everything
  let declared : Parse Node := do
    let n ← self .declaration
    bundle start (decorators ++ [n])
  everything <|> named <|> typed <|> assigned <|> global <|> standard <|> declared

/-! ## Declarations -/

/-- What a declaration gives a value to; any word can be a name there. -/
def declaredTarget (self : Grammar) : Parse Node :=
  leaf (do return .identifier (← nameBut ["in", "instanceof"])) <|> self .object <|> self .array

/-- A variable with its type and value. -/
def declarator (self : Grammar) : Parse Node := bundled do
  let target ← declaredTarget self
  let _ ← maybe (do goesOn true; opening "!")
  let type ← optional (ascription self)
  let value ← optional (initializer self)
  return target :: type ++ value

/-- Variables after `var`, `let` or `const`. -/
def bindings (self : Grammar) : Parse Node := bundled do
  (do let _ ← keywordOf ["var", "const"]) <|> (do keyword "let"; goesOn true)
  let parts ← separatedParts (declarator self)
  terminator
  return parts

/-- An enumeration. -/
def enumeration (self : Grammar) : Parse Node := bundled do
  let _ ← maybe (keyword "const")
  keyword "enum"
  let _ ← word
  commaList "\x7b" "\x7d" (bundled do
    let key ← propertyKey self
    return key :: (← optional (initializer self)))

/-- An interface. -/
def interface (self : Grammar) : Parse Node := bundled do
  keyword "interface"
  let _ ← word
  let generics ← optional (self .typeParameters)
  let parents ← (do keyword "extends"; separatedParts (nested (self .type))) <|> pure []
  return generics ++ parents ++ [← objectType self]

/-- A name for a type. -/
def typeAlias (self : Grammar) : Parse Node := bundled do
  keyword "type"
  goesOn true
  let _ ← word
  let generics ← optional (self .typeParameters)
  sign "="
  let type ← self .type
  terminator
  return generics ++ [type]

/-- A namespace or a module that is declared in place. -/
def namespaceLike (self : Grammar) : Parse Node := bundled do
  let _ ← keywordOf ["namespace", "module"]
  goesOn true
  (do let _ ← word; dottedNames) <|> (do let _ ← stringLiteral; pure ())
  (do return [← self .block]) <|> (do terminator; return [])

/-- A declaration of what exists elsewhere. -/
def ambient (self : Grammar) : Parse Node := bundled do
  keyword "declare"
  goesOn true
  (do keyword "global"; return [← self .block]) <|>
    (do
      keyword "module"
      sign "."
      let _ ← word
      let type ← ascription self
      terminator
      return [type]) <|>
    (do return [← self .declaration])

/-- Declarations that a keyword announces. -/
def keywordDeclaration? (self : Grammar) : String → Option (Parse Node)
  | "var" | "let" => some (bindings self)
  | "const" => some (enumeration self <|> bindings self)
  | "function" | "async" => some (do
    ensure (← peek functionHead).isSome
    self .function)
  | "class" | "abstract" => some (self .classLike)
  | "enum" => some (enumeration self)
  | "interface" => some (interface self)
  | "type" => some (typeAlias self)
  | "namespace" | "module" => some (namespaceLike self)
  | "declare" => some (ambient self)
  | _ => none

/-- A declaration. -/
def declarationProduction (self : Grammar) : Parse Node := do
  match ← maybe (peek word) with
  | none => self .classLike
  | some w =>
    match keywordDeclaration? self (String.ofList w) with
    | some p => p
    | none => do keyword "import"; importAlias

/-! ## Statements -/

/-- Statements in braces. -/
def blockProduction (self : Grammar) : Parse Node :=
  bundled (braced (self .statement))

def ifStatement (self : Grammar) : Parse Node := bundled do
  keyword "if"
  let cond ← parenthesized self
  let yes ← self .statement
  let no ← optional (do keyword "else"; self .statement)
  return cond :: yes :: no

/-- The head of a loop over a collection. A variable may have a value before the collection. -/
def collectionHead (self : Grammar) : Parse (List Node) := nested do
  sign "("
  let changing : Parse (List Node) := do
    keyword "var"
    let target ← declaredTarget self
    let type ← optional (ascription self)
    let value ← optional (inContext (fun x => { x with noIn := true }) (initializer self))
    return target :: type ++ value
  let fixed : Parse (List Node) := do
    let w ← keywordOf ["let", "const"]
    if w = "let" then refuse (keyword "of")
    let target ← declaredTarget self
    return target :: (← optional (ascription self))
  let target ← changing <|> fixed <|> (do return [← self .unary])
  let _ ← keywordOf ["in", "of"]
  let source ← self .expression
  sign ")"
  return target ++ [source]

/-- The head of a loop with a start, a test and a step. -/
def steppedHead (self : Grammar) : Parse (List Node) := nested do
  sign "("
  let start ← inContext Context.sequence (bindings self) <|> bundled (do
    let e ← optional (self .expression)
    sign ";"
    return e)
  let test ← optional (self .expression)
  sign ";"
  let step ← optional (self .expression)
  sign ")"
  return start :: test ++ step

def forStatement (self : Grammar) : Parse Node := bundled do
  keyword "for"
  let _ ← maybe (keyword "await")
  let head ← collectionHead self <|> steppedHead self
  return head ++ [← self .statement]

def whileStatement (self : Grammar) : Parse Node := bundled do
  let _ ← keywordOf ["while", "with"]
  let cond ← parenthesized self
  return [cond, ← self .statement]

def doStatement (self : Grammar) : Parse Node := bundled do
  keyword "do"
  let body ← self .statement
  keyword "while"
  let cond ← parenthesized self
  let _ ← maybe terminator
  return [body, cond]

/-- One case of a switch with its statements. -/
def switchCase (self : Grammar) : Parse Node := bundled do
  let value ← (do keyword "default"; return []) <|> (do
    keyword "case"
    return [← nested (self .expression)])
  sign ":"
  let body ← many (self .statement)
  return value ++ body

def switchStatement (self : Grammar) : Parse Node := bundled do
  keyword "switch"
  let value ← parenthesized self
  return value :: (← braced (switchCase self))

def tryStatement (self : Grammar) : Parse Node := bundled do
  keyword "try"
  let body ← self .block
  let handler ← optional (bundled do
    keyword "catch"
    let caught ← optional (bundled (nested do
      sign "("
      let target ← bindingPattern self
      let type ← optional (ascription self)
      sign ")"
      return target :: type))
    return caught ++ [← self .block])
  let final ← optional (do keyword "finally"; self .block)
  return body :: handler ++ final

/-- A jump. A label, or the value that is returned, stands on the same line. -/
def jump (self : Grammar) : Parse Node := bundled do
  let w ← keywordOf ["return", "throw", "break", "continue", "debugger"]
  let value ← match w with
    | "throw" => do pure [← self .expression]
    | "return" => optional (do goesOn false; self .expression)
    | "debugger" => pure []
    | _ => do let _ ← maybe (do goesOn false; word); pure []
  terminator
  return value

/-- A statement with a label. -/
def labelled (self : Grammar) : Parse Node := bundled do
  let _ ← name
  sign ":"
  return [← self .statement]

/-- An expression as a statement. -/
def expressionStatement (self : Grammar) : Parse Node := do
  refuse (keywordOf ["break", "case", "catch", "const", "continue", "debugger", "default", "do",
    "else", "enum", "finally", "for", "if", "return", "switch", "throw", "try", "var", "while",
    "with"])
  let e ← self .expression
  terminator
  return e

/-- Statements that a keyword announces; a word that is a keyword only in some places may also
start an expression. -/
def keywordStatement? (self : Grammar) : String → Option (Parse Node)
  | "import" => some (importStatement self)
  | "export" => some (exportStatement self)
  | "if" => some (ifStatement self)
  | "for" => some (forStatement self)
  | "while" | "with" => some (whileStatement self)
  | "do" => some (doStatement self)
  | "switch" => some (switchStatement self)
  | "try" => some (tryStatement self)
  | "return" | "throw" | "break" | "continue" | "debugger" => some (jump self)
  | w => keywordDeclaration? self w

/-- A statement. -/
def statementProduction (self : Grammar) : Parse Node := inContext Context.sequence do
  skipNotes
  match ← ahead with
  | [] => failure
  | c :: _ =>
    if c = '\x7b' then self .block <|> expressionStatement self
    else if c = ';' then bundled (do sign ";"; return [])
    else if c = '@' then exportStatement self <|> self .classLike
    else
      let plain := labelled self <|> expressionStatement self
      match ← maybe (peek word) with
      | none => plain
      | some w =>
        match keywordStatement? self (String.ofList w) with
        | some p => p <|> plain
        | none => plain

end DepScope.Script
