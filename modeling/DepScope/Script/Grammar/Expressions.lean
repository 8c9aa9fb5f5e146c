import DepScope.Script.Grammar.Types
import DepScope.Script.Grammar.Markup

/-!
# DepScope.Script.Grammar.Expressions

Expressions, with functions, classes and literals. From loose to tight the operators are

    ,   =   ?:   ??   ||   &&   |   ^   &   == …   < … in instanceof as   << …   + -   * / %   **

and then the operators before an operand, which bind more tightly than `**`.
-/

namespace DepScope.Script

open Text

/-! ## Suffixes -/

/-- A property after a dot. -/
def dotSuffix (start : Nat) (n : Node) : Parse Node := do
  sign "."
  let _ ← anyWord <|> privateName
  bundle start [n]

/-- A look-up in brackets. -/
def bracketSuffix (self : Grammar) (start : Nat) (n : Node) : Parse Node := nested do
  sign "["
  let index ← self .expression
  sign "]"
  bundle start [n, index]

/-- A template after a tag. -/
def templateSuffix (self : Grammar) (start : Nat) (n : Node) : Parse Node := do
  let t ← template self .expression
  bundle start [n, t]

/-- A mark that a value is there. -/
def assertedSuffix (start : Nat) (n : Node) : Parse Node := do
  sign "!"
  bundle start [n]

/-! ## Functions -/

/-- A name or a destructuring pattern. -/
def bindingPattern (self : Grammar) : Parse Node :=
  identifier <|> self .object <|> self .array

/-- One parameter with its decorators, modifiers, type and default. Where it may be assigned to, a
property will do. -/
def parameter (self : Grammar) : Parse Node := bundled do
  let decorators ← many (self .decorator)
  let _ ← many (do
    let _ ← keywordOf ["public", "private", "protected", "readonly", "override"]
    let c ← ahead
    ensure (c.head?.any fun c => isNameStart c || c = '\x7b' || c = '['))
  let _ ← maybe (sign "...")
  let start ← here
  let target ← bindingPattern self <|> (do keyword "this"; bundle start [])
  let target ← loop target fun n => dotSuffix start n <|> bracketSuffix self start n
  let _ ← maybe (opening "?")
  let type ← optional (ascription self)
  let value ← optional (initializer self)
  return decorators ++ target :: (type ++ value)

/-- Parameters in parentheses. -/
def parameterList (self : Grammar) : Parse Node :=
  bundled (commaList "(" ")" (parameter self))

/-- The words before the parameters of a function; its name, if it has one. -/
def functionHead : Parse (Option (List Char)) := do
  let _ ← maybe (do keyword "async"; goesOn true)
  keyword "function"
  let _ ← maybe (sign "*")
  maybe word

/-- A function with the word `function`; a mere signature ends like a statement. -/
def functionLike (self : Grammar) : Parse Node := bundled do
  let _ ← functionHead
  let sig ← signature self
  let body ← (do return [← self .block]) <|> (do terminator; return [])
  return sig ++ body

/-- A function written with an arrow. The arrow after a result type may belong to the type or, if
none is left then, to the function. -/
def arrowFunction (self : Grammar) : Parse Node := do
  let start ← here
  let plain := (← get).context.plain
  let head (noArrow : Bool) : Parse (List Node) := do
    let generics ← optional (self .typeParameters)
    let params ← self .parameters
    let result ← if plain then pure []
      else optional (inContext (fun x => { x.nested with noArrow }) (resultAscription self))
    sign "=>"
    return generics ++ params :: result
  let arrow (before : Parse Unit) : Parse (List Node) := do
    before
    (do let a ← identifier; sign "=>"; return [a]) <|> head false <|> head true
  let h ← arrow (pure ()) <|> arrow (do keyword "async"; goesOn true)
  let body ← self .block <|> self .assignment
  bundle start (h ++ [body])

/-! ## Classes -/

/-- A decorator: a name with dots and perhaps a call, or an expression in parentheses. -/
def decoratorProduction (self : Grammar) : Parse Node := bundled do
  sign "@"
  let start ← here
  let parenthesized : Parse Node := bundled (nested do
    sign "("
    let e ← self .expression
    sign ")"
    return [e])
  let named : Parse Node := do
    let callee ← identifier
    let dotted ← loop callee fun n => do
      sign "."
      let _ ← word <|> (do let _ ← privateName; pure [])
      bundle start [n]
    let generics ← optional (self .typeArguments)
    match ← maybe (self .arguments) with
    | some args => close .call start (dotted :: generics ++ [args])
    | none => bundle start (dotted :: generics)
  return [← parenthesized <|> named]

/-- The end of a member: as for a statement, or a comma. -/
def memberEnd : Parse Unit := sign "," <|> terminator

/-- A member of a class. -/
def classMember (self : Grammar) : Parse Node :=
  bundled (do sign ";"; return []) <|>
  bundled (do keyword "static"; return [← self .block]) <|>
  bundled do
    let decorators ← many (self .decorator)
    let words ← modifiers ["static", "public", "private", "protected", "readonly", "abstract",
      "override", "declare", "accessor", "async", "get", "set"]
    let star ← maybe (sign "*")
    let callable := star.isSome || words.any ["async", "get", "set"].contains
    let key ← (do bundle (← here) (← indexBracket self)) <|> propertyKey self
    optionMark
    let _ ← maybe (opening "!")
    let method : Parse (List Node) := do
      let sig ← signature self
      let body ← (do
        let b ← self .block
        let _ ← maybe (sign ";")
        return [b]) <|> (do memberEnd; return [])
      return sig ++ body
    let field : Parse (List Node) := do
      ensure !callable
      let type ← optional (ascription self)
      let value ← optional (initializer self)
      memberEnd
      return type ++ value
    let rest ← method <|> field
    return decorators ++ key :: rest

/-- Parts separated by commas, at least one. -/
def separatedParts (part : Parse Node) : Parse (List Node) := do
  let first ← part
  let more ← many (do sign ","; part)
  return first :: more

/-- A class. -/
def classProduction (self : Grammar) : Parse Node := bundled do
  let decorators ← many (self .decorator)
  let abstracted ← maybe (keyword "abstract")
  keyword "class"
  let named ← maybe (do
    let w ← nameBut ["extends"]
    ensure (w != "implements".toList || (← would (do let _ ← keywordOf ["implements", "extends"]))))
  ensure (abstracted.isNone || named.isSome)
  let generics ← optional (self .typeParameters)
  let parents ← (do
    keyword "extends"
    separatedParts (bundled (nested do
      let base ← self .unary
      return base :: (← optional (self .typeArguments))))) <|> pure []
  let interfaces ← (do
    keyword "implements"
    separatedParts (nested (self .type))) <|> pure []
  let members ← braced (classMember self)
  return decorators ++ generics ++ parents ++ interfaces ++ members

/-! ## Literals with parts -/

/-- One expression, perhaps spread. -/
def spreadable (self : Grammar) : Parse Node :=
  bundled (do sign "..."; return [← self .assignment]) <|> self .assignment

/-- The arguments of a call. -/
def argumentList (self : Grammar) : Parse Node := do
  let start ← here
  let items ← sparseList "(" ")" (spreadable self)
  close .arguments start items

/-- An array literal or pattern. -/
def arrayProduction (self : Grammar) : Parse Node :=
  bundled (sparseList "[" "]" (spreadable self))

/-- A method of an object. -/
def objectMethod (self : Grammar) : Parse Node := bundled do
  let _ ← modifiers ["async", "get", "set", "static", "readonly", "public", "private", "protected",
    "override"]
  let _ ← maybe (sign "*")
  let key ← propertyKey self
  let _ ← maybe (sign "?")
  let sig ← signature self
  return key :: sig ++ [← self .block]

/-- A property of an object literal or pattern. -/
def objectEntry (self : Grammar) : Parse Node :=
  bundled (do sign "..."; return [← self .assignment]) <|>
  objectMethod self <|>
  bundled (do
    let key ← propertyKey self
    sign ":"
    return [key, ← self .assignment]) <|>
  bundled (do
    let short ← identifier
    return short :: (← optional (initializer self)))

/-- An object literal or pattern. -/
def objectProduction (self : Grammar) : Parse Node :=
  bundled (sparseList "\x7b" "\x7d" (objectEntry self))

/-! ## Operands -/

/-- An expression in parentheses. -/
def parenthesized (self : Grammar) : Parse Node := do
  let start ← here
  let inside ← nested do
    sign "("
    let note ← noteHere
    let e ← self .expression
    let type ← optional (ascription self)
    sign ")"
    return note ++ e :: type
  close .wrapper start inside

/-- A keyword that is a value. -/
def valueWord : Parse Node :=
  leaf do
    let w ← keywordOf valueWords
    return match w with
      | "true" => .truth true
      | "false" => .truth false
      | "null" => .null
      | _ => .other

/-- The word `import` before a call, or what it says about the module itself. -/
def importOperand : Parse Node :=
  (do
    let start ← here
    keyword "import"
    sign "."
    let _ ← word
    bundle start []) <|>
  leaf (do
    keyword "import"
    let _ ← peek (opening "(" <|> opening "<")
    return .importWord)

/-- A property or look-up that is skipped when there is no value. -/
def optionalProperty (self : Grammar) (start : Nat) (n : Node) : Parse Node := do
  sign "?."
  bracketSuffix self start n <|> (do
    let _ ← anyWord <|> privateName
    bundle start [n])

/-- May an expression with type arguments end here? Not before what starts an operand, nor where
the closing bracket is part of a longer sign. -/
def endsInstantiation : Parse Unit := do
  let c ← get
  let apart := c.last < c.pos
  match c.rest with
  | [] => pure ()
  | '=' :: _ => ensure apart
  | '!' :: '=' :: _ => pure ()
  | '.' :: d :: _ => ensure (!isAsciiDigit d)
  | x :: _ => ensure (c.newline || ")]\x7d:;,.?&|^*%".toList.contains x)

mutual

/-- The constructor of a `new`: an operand with suffixes, but without calls. -/
def constructorOf (self : Grammar) (operand : Parse Node) : Nat → Parse Node
  | 0 => failure
  | depth + 1 => do
    let start ← here
    let head ← newExpression self operand depth <|> operand
    loop head fun n => do
      goesOn true
      dotSuffix start n <|> bracketSuffix self start n <|> templateSuffix self start n <|>
        optionalProperty self start n <|> assertedSuffix start n

/-- An object made by `new`, with or without arguments. -/
def newExpression (self : Grammar) (operand : Parse Node) : Nat → Parse Node
  | 0 => failure
  | depth + 1 => do
    let start ← here
    keyword "new"
    (do sign "."; let _ ← word; bundle start []) <|> (do
      let made ← constructorOf self operand depth
      let generics ← optional (do
        let args ← self .typeArguments
        let _ ← peek (opening "(") <|> endsInstantiation
        return args)
      let args ← optional (do goesOn true; self .arguments)
      bundle start (made :: generics ++ args))

end

/-- An operand without suffixes. -/
def operand (self : Grammar) : Parse Node := do
  match ← ahead with
  | [] => failure
  | c :: _ =>
    if c = '"' || c = '\'' then stringLiteral
    else if c.toNat = 0x60 then template self .expression
    else if c = '(' then arrowFunction self <|> parenthesized self
    else if c = '[' then self .array
    else if c = '\x7b' then self .object
    else if c = '/' then regexLiteral
    else if c = '@' then self .classLike
    else if c = '#' then do
      let n ← privateName
      let _ ← peek (keyword "in")
      return n
    else if c = '<' then arrowFunction self <|> (do
      ensure (← get).markup
      let e ← self .markup
      skip
      return e)
    else if isAsciiDigit c || c = '.' then numberLiteral
    else
      arrowFunction self <|> valueWord <|> importOperand <|> self .function <|> self .classLike <|>
        identifier

/-- A call with its arguments, or a value with type arguments. -/
def callSuffix (self : Grammar) (start : Nat) (n : Node) : Parse Node :=
  (do close .call start [n, ← self .arguments]) <|> (do
    let generics ← self .typeArguments
    (do close .call start [n, generics, ← self .arguments]) <|>
      (do bundle start [n, generics, ← template self .expression]) <|>
      (do endsInstantiation; bundle start [n, generics]))

/-- A property, look-up or call that is skipped when there is no value. -/
def optionalSuffix (self : Grammar) (start : Nat) (n : Node) : Parse Node :=
  optionalProperty self start n <|> (do
    sign "?."
    callSuffix self start n <|> templateSuffix self start n)

/-- A step up or down. -/
def stepSuffix (start : Nat) (n : Node) : Parse Node := do
  sign "++" <|> sign "--"
  bundle start [n]

/-- An operand with its suffixes. -/
def suffixed (self : Grammar) : Parse Node := do
  let start ← here
  let c ← get
  let head ← newExpression self (operand self) (c.size + 2 - c.pos) <|> operand self
  loop head fun n => do
    goesOn true
    dotSuffix start n <|> callSuffix self start n <|> bracketSuffix self start n <|>
      templateSuffix self start n <|> optionalSuffix self start n <|> assertedSuffix start n <|>
      stepSuffix start n

/-! ## Operators -/

/-- A type assertion in front of an operand. -/
def typeAssertion (self : Grammar) : Parse Node := do
  let start ← here
  ensure !(← get).markup
  let generics ← self .typeArguments
  bundle start [generics, ← self .unary]

/-- A generator's result. -/
def yieldExpression (self : Grammar) : Parse Node := bundled do
  keyword "yield"
  (do
    goesOn false
    let _ ← maybe (sign "*")
    return [← self .assignment]) <|> return []

/-- The signs that assign. -/
def assigning : List String :=
  ["=", "+=", "-=", "*=", "/=", "%=", "**=", "<<=", ">>=", ">>>=", "&=", "|=", "^=", "&&=", "||=",
   "??="]

/-- The value assigned to a target. -/
def assignedValue (self : Grammar) (start : Nat) (target : Node) : Parse Node := do
  let s ← signAhead
  ensure (assigning.contains s)
  sign s
  bundle start [target, ← self .assignment]

/-- An operand with its suffixes, or an assignment to it. The word `using` before an assignment
changes nothing. -/
def assignable (self : Grammar) : Parse Node := do
  let start ← here
  let used : Parse Node := do
    keyword "using"
    let n ← suffixed self
    let _ ← peek (sign "=")
    assignedValue self start n
  used <|> (do
    let n ← suffixed self
    assignedValue self start n <|> return n)

/-- An operand with the operators before it. -/
def unaryProduction (self : Grammar) : Parse Node := do
  skipNotes
  let start ← here
  let prefixed (label : Label) : Parse Node := do close label start [← self .unary]
  match ← signAhead with
  | "-" => do sign "-"; prefixed (.unary "-")
  | "+" => do sign "+"; prefixed (.unary "+")
  | "!" => do sign "!"; prefixed (.unary "!")
  | "~" => do sign "~"; prefixed (.unary "~")
  | "++" => do sign "++"; prefixed .other
  | "--" => do sign "--"; prefixed .other
  | _ =>
    let worded : Parse Node := do
      let w ← keywordOf ["typeof", "void", "delete"]
      prefixed (if w = "delete" then .other else .unary w)
    let awaited : Parse Node := do
      keyword "await"
      let note ← noteHere
      close .wrapper start (note ++ [← self .unary])
    worded <|> awaited <|> yieldExpression self <|> assignable self <|> typeAssertion self

/-- The level of a sign between two operands; a higher level binds more tightly. -/
def signLevel? : String → Option Nat
  | "??" => some 1
  | "||" => some 2
  | "&&" => some 3
  | "|" => some 4
  | "^" => some 5
  | "&" => some 6
  | "==" | "!=" | "===" | "!==" => some 7
  | "<" | "<=" | ">" | ">=" => some 8
  | "<<" | ">>" | ">>>" => some 9
  | "+" | "-" => some 10
  | "*" | "/" | "%" => some 11
  | "**" => some 12
  | _ => none

/-- An operator between two operands, and its level. -/
def operatorAhead : Parse (String × Nat) := do
  let s ← signAhead
  match signLevel? s with
  | some level => do sign s; return (s, level)
  | none => do
    let w ← keywordOf ["in", "instanceof", "as", "satisfies"]
    ensure !(w = "in" && (← get).context.noIn)
    return (w, 8)

/-- Operands joined by operators of at least the given level. Equal levels group to the left, powers
to the right. -/
def binaryProduction (self : Grammar) (least : Nat) : Parse Node := do
  skipNotes
  let start ← here
  loop (← self .unary) fun left => do
    goesOn true
    let (op, level) ← operatorAhead
    ensure (least ≤ level)
    if op = "as" || op = "satisfies" then
      let type ← bundled (do keyword "const"; return []) <|>
        inContext (fun x => { x with operators := true }) (self .type)
      bundle start [left, type]
    else
      let right ← self (.binary (if op = "**" then level else level + 1))
      close (.binary op) start [left, right]

/-- The question mark of a choice; one before a colon, a comma or a closing parenthesis marks a
parameter. -/
def choiceMark : Parse Unit := do
  sign "?"
  match ← ahead with
  | c :: _ => ensure (c != ':' && c != ')' && c != ',')
  | [] => failure

/-- One expression: a choice between two, or its condition alone. What stands between the marks may
look like an arrow function with its result type; if nothing is left for the second mark, it is
none. -/
def assignmentProduction (self : Grammar) : Parse Node := do
  skipNotes
  let start ← here
  let cond ← self (.binary 1)
  let choice (plain : Bool) : Parse Node := do
    choiceMark
    let yes ← inContext (fun x => { x.nested with plain }) (self .assignment)
    sign ":"
    let no ← self .assignment
    bundle start [cond, yes, no]
  if ← would choiceMark then choice false <|> choice true else return cond

/-- Expressions separated by commas. -/
def expressionProduction (self : Grammar) : Parse Node := do
  skipNotes
  let start ← here
  let first ← self .assignment
  let more ← many (do sign ","; self .assignment)
  if more.isEmpty then return first else bundle start (first :: more)

end DepScope.Script
