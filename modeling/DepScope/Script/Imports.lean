import DepScope.References
import DepScope.Script.Constant
import DepScope.Script.Escape
import DepScope.Script.Parser

/-!
# DepScope.Script.Imports

The packages a script loads. Declarations count with the string that names the module; calls of
`import` and `require` count as a whole, if their first argument is a constant expression
(`Node.constant?`), whatever type its value has.
-/

namespace DepScope.Script

open Text Package

/-! ## Constant expressions -/

/-- The operator a sign or word before an operand denotes. -/
def UnaryOp.ofSign? : String → Option UnaryOp
  | "-" => some .negate
  | "+" => some .plus
  | "!" => some .not
  | "~" => some .complement
  | "typeof" => some .typeOf
  | "void" => some .void
  | _ => none

/-- The operator a sign between two operands denotes. -/
def BinaryOp.ofSign? : String → Option BinaryOp
  | "+" => some .add
  | "-" => some .sub
  | "*" => some .mul
  | "/" => some .div
  | "%" => some .rem
  | "**" => some .pow
  | "<<" => some .shiftLeft
  | ">>" => some .shiftRight
  | ">>>" => some .shiftRightUnsigned
  | "&" => some .bitAnd
  | "|" => some .bitOr
  | "^" => some .bitXor
  | "==" => some .equal
  | "!=" => some .notEqual
  | "===" => some .strictEqual
  | "!==" => some .strictNotEqual
  | "<" => some .less
  | "<=" => some .lessEqual
  | ">" => some .greater
  | ">=" => some .greaterEqual
  | _ => none

/-- The short-circuit operator a sign denotes. -/
def LogicalOp.ofSign? : String → Option LogicalOp
  | "&&" => some .and
  | "||" => some .or
  | "??" => some .coalesce
  | _ => none

/-- A template from its texts and the expressions between them. -/
def Constant.ofTemplate (first : String) (rest : List (Constant × String)) : Constant :=
  rest.foldl (fun before (value, after) => .splice before value after) (.literal (.string first))

mutual

/-- The constant expression a tree spells out, if its value depends on nothing else. -/
def Node.constant? : Node → Option Constant
  | .mk label _ children =>
    match label, children with
    | .string body, _ => (decodeEscapes? body).map fun s => .literal (.string s)
    | .number text, _ => (numericLiteral? text).map fun n => .literal (.ofNumeric n)
    | .truth b, _ => some (.literal (.truth b))
    | .null, _ => some (.literal .null)
    | .wrapper, inner :: _ => inner.constant?
    | .unary sign, arg :: _ => do
      return .unary (← UnaryOp.ofSign? sign) (← arg.constant?)
    | .binary sign, left :: right :: _ => do
      let l ← left.constant?
      let r ← right.constant?
      match LogicalOp.ofSign? sign with
      | some op => return .logical op l r
      | none => return .binary (← BinaryOp.ofSign? sign) l r
    | .template texts, parts => do
      let cooked ← texts.mapM fun t => decodeEscapes? (foldBreaks t)
      let values ← Node.constants? parts
      return Constant.ofTemplate (cooked.headD "") (values.zip cooked.tail)
    | _, _ => none

/-- The constant expressions of several trees, if all are constant. -/
def Node.constants? : List Node → Option (List Constant)
  | [] => some []
  | n :: ns => do
    let c ← n.constant?
    return c :: (← Node.constants? ns)

end

/-- The value of a tree that spells out a constant. -/
def Node.value? (n : Node) : Option Value :=
  n.constant?.bind Constant.evaluate

/-! ## Places that load modules -/

/-- A place that loads a module: what to mark, and the module's name. -/
structure Site where
  span : Span
  specifier : String
deriving DecidableEq

/-- Is the tree a function that loads modules? -/
def Node.isLoader (n : Node) : Bool :=
  match n.label with
  | .importWord => true
  | .identifier name => name = "require".toList
  | _ => false

/-- The first argument of a call. -/
def Node.firstArgument? (call : Node) : Option Node :=
  match call.children.getLast? with
  | some (.mk .arguments _ (first :: _)) => some first
  | _ => none

/-- The place a node is, if it loads a module. -/
def Node.site? (n : Node) : Option Site :=
  match n.label with
  | .loads => do
    let source ← n.children.head?
    match ← source.value? with
    | .string s => return ⟨source.span, s⟩
    | _ => none
  | .call => do
    let callee ← n.children.head?
    if callee.isLoader then
      let value ← (← n.firstArgument?).value?
      return ⟨n.span, value.toText⟩
    else none
  | _ => none

/-- The mention a place makes; files of the workspace are not packages. -/
def Site.mention? (lines : LineIndex) (s : Site) : Option Mention :=
  match s.specifier.toList with
  | c :: _ =>
    if c = '.' || c = '/' then none
    else some (mention lines s)
  | [] => some (mention lines s)
where
  mention (lines : LineIndex) (s : Site) : Mention :=
    Mention.ofName .npm (ofSpecifier s.specifier) (lines.rangeOf s.span)

/-- The packages a script loads, in the order of the source. -/
def imports (markup : Bool) (text : String) : References :=
  let sites := (Node.visit [parseScript markup text]).filterMap Node.site?
  References.ofMentions (sites.filterMap (Site.mention? (LineIndex.ofText text)))

end DepScope.Script
