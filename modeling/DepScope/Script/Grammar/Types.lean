import DepScope.Script.Grammar.Basic

/-!
# DepScope.Script.Grammar.Types

Types. A type matters only for the calls inside it, as in `typeof import('x')`, so its nodes carry
no labels of their own.

Besides the usual forms there are those of an older dialect: `?T`, `*`, `{| … |}`, and a bound after
a colon.
-/

namespace DepScope.Script

open Text

/-- What stands in angle brackets, at least one. -/
def angled (item : Parse Node) : Parse Node := bundled do
  let items ← commaList "<" ">" item
  ensure !items.isEmpty
  return items

/-- Type arguments in angle brackets. -/
def typeArguments (self : Grammar) : Parse Node :=
  angled (self .type)

/-- Type parameters in angle brackets, with their bounds and defaults. -/
def typeParameters (self : Grammar) : Parse Node :=
  angled (bundled do
    let _ ← many (do
      let _ ← keywordOf ["const", "in", "out"]
      keyAhead)
    let _ ← word
    let bound ← optional (do keyword "extends" <|> sign ":"; self .type)
    let default ← optional (do sign "="; self .type)
    return bound ++ default)

/-- The parameters of a function type and its result. -/
def functionType (self : Grammar) : Parse Node := bundled do
  let generics ← optional (self .typeParameters)
  let params ← self .parameters
  sign "=>"
  return generics ++ [params, ← resultType self]

/-- The type of a constructor. -/
def constructorType (self : Grammar) : Parse Node := do
  let _ ← maybe (keyword "abstract")
  keyword "new"
  functionType self

/-- Names after dots. -/
def dottedNames : Parse Unit := do
  let _ ← many (do sign "."; let _ ← word <|> (do let _ ← privateName; pure []); pure ())
  return ()

/-- The loading of a module inside a type. -/
def importCall (self : Grammar) : Parse Node := do
  let start ← here
  let callee ← leaf do keyword "import"; return .importWord
  let args ← self .arguments
  close .call start [callee, args]

/-- The type of a value: a name or a module with properties, look-ups and calls after it. -/
def typeQuery (self : Grammar) : Parse Node := bundled do
  keyword "typeof"
  let start ← here
  let head ← importCall self <|> leaf do return .identifier (← word)
  let lookup (n : Node) : Parse Node := nested do
    sign "["
    let index ← stringLiteral <|> numberLiteral <|> anyWord
    sign "]"
    bundle start [n, index]
  let value ← loop head fun n => do
    typeGoesOn
    (do close .call start [n, ← self .arguments]) <|> lookup n <|>
      (do
        sign "." <|> sign "?."
        let _ ← anyWord <|> privateName
        bundle start [n]) <|>
      (do sign "?."; lookup n)
  let args ← optional (self .typeArguments)
  return value :: args

/-- A name in brackets with the type it ranges over. -/
def indexBracket (self : Grammar) : Parse (List Node) := nested do
  sign "["
  let _ ← word
  let inside ← (do return [← ascription self]) <|> (do
    keyword "in"
    let domain ← self .type
    let renamed ← optional (do keyword "as"; self .type)
    return domain :: renamed)
  sign "]"
  return inside

/-- A mark that something may be absent, or that it no longer may. -/
def optionMark : Parse Unit := do
  let _ ← maybe (do let _ ← maybe (opening "+" <|> opening "-"); opening "?")

/-- A member of an object type or an interface. -/
def typeMember (self : Grammar) : Parse Node := bundled do
  let _ ← maybe (do opening "+" <|> opening "-")
  let _ ← modifiers ["readonly", "get", "set", "static", "public", "private", "protected", "override",
    "abstract", "async"]
  let _ ← maybe (do opening "*"; keyAhead)
  let call : Parse (List Node) := do
    let _ ← maybe (do keyword "new"; let _ ← peek (opening "(" <|> opening "<"); pure ())
    signature self
  let named : Parse (List Node) := do return [← propertyKey self]
  let head ← call <|> indexBracket self <|> named
  optionMark
  let rest ← (do typeGoesOn; signature self) <|> optional (ascription self)
  return head ++ rest

/-- The members of an object type or an interface. -/
def objectType (self : Grammar) : Parse Node := bundled do
  opening "\x7b|" <|> sign "\x7b"
  let closing : Parse Unit := opening "\x7d" <|> opening "|\x7d"
  let members ← inContext Context.sequence do
    let led ← maybe (sign "," <|> sign ";")
    let members ← many (do
      refuse closing
      (do let _ ← peek (keyword "export"); self .statement) <|> (do
        let m ← typeMember self
        unless ← would closing do sign "," <|> terminator
        return m))
    ensure (led.isNone || !members.isEmpty)
    return members
  closing
  return members

/-- A member of a tuple type. -/
def tupleMember (self : Grammar) : Parse Node := bundled do
  let _ ← maybe (sign "...")
  let _ ← maybe (do let _ ← word; let _ ← maybe (opening "?"); sign ":")
  let t ← self .type
  let _ ← maybe (opening "?")
  return [t]

/-- A type without operators. -/
def primaryType (self : Grammar) : Parse Node :=
  bundled (nested do sign "("; let t ← self .type; sign ")"; return [t]) <|>
  bundled (commaList "[" "]" (tupleMember self)) <|>
  objectType self <|>
  stringLiteral <|>
  template self .type <|>
  bundled (do
    let _ ← maybe (sign "-" <|> sign "+")
    return [← numberLiteral]) <|>
  bundled (do sign "*"; return []) <|>
  bundled (do
    let call ← importCall self
    dottedNames
    return call :: (← optional (self .typeArguments))) <|>
  bundled (do
    let _ ← word
    dottedNames
    optional (self .typeArguments))

/-- Type brackets of arrays and look-ups after a type. -/
def bracketedType (self : Grammar) (start : Nat) (t : Node) : Parse Node :=
  loop t fun t => do
    typeGoesOn
    nested do
      sign "["
      let inner ← optional (self .type)
      sign "]"
      bundle start (t :: inner)

/-- A type with the brackets of arrays and look-ups after it. -/
def postfixType (self : Grammar) : Parse Node := do
  let start ← here
  bracketedType self start (← typeQuery self <|> primaryType self)

/-- Does a type start here? -/
def typeAhead : Parse Unit := do
  match ← ahead with
  | c :: _ => ensure (isNameStart c || isAsciiDigit c || "([\x7b<\"'\x60?*+-".toList.contains c)
  | [] => failure

/-- A type to be found out, perhaps with a bound. In the bound of a choice (`inBound`) the question
mark after it belongs to that choice; elsewhere it shows that the bound was none. -/
def inferredType (self : Grammar) (inBound : Bool) : Parse Node := bundled do
  keyword "infer"
  let _ ← word
  optional (do
    typeGoesOn
    keyword "extends"
    let bound ← postfixType self
    unless inBound do refuse (opening "?")
    return bound)

/-- A type with the operators before it. -/
def typeOperand (self : Grammar) (inBound : Bool) : Parse Node := do
  let _ ← many (sign "|" <|> sign "&")
  let _ ← many ((do
    let _ ← keywordOf ["keyof", "unique", "readonly"]
    typeAhead) <|> sign "?")
  let withArrow : Parse Node := do
    ensure !(← get).context.noArrow
    (do let _ ← peek (opening "(" <|> opening "<"); functionType self) <|> constructorType self
  inferredType self inBound <|> withArrow <|> postfixType self

/-- Types joined by bars and ampersands. -/
def joinedType (self : Grammar) (inBound : Bool) : Parse Node := do
  let start ← here
  loop (← typeOperand self inBound) fun t => do
    sign "|" <|> sign "&"
    bundle start [t, ← typeOperand self inBound]

/-- A type, and the notes after it where neither an operator nor the end of a statement can
follow. -/
def typeProduction (self : Grammar) : Parse Node := do
  let start ← here
  let bounded (inBound : Bool) : Parse Node := do
    let bound ← joinedType self inBound
    opening "?"
    return bound
  let choice (t : Node) : Parse Node := do
    typeGoesOn
    keyword "extends"
    let bound ← bounded true <|> bounded false
    let yes ← nested (self .type)
    sign ":"
    let no ← self .type
    bundle start [t, bound, yes, no]
  let t ← joinedType self false
  let type ← choice t <|> return t
  let x := (← get).context
  unless x.ends || x.operators do skipNotes
  return type

end DepScope.Script
