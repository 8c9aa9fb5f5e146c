import DepScope.Script.Grammar.Statements

/-!
# DepScope.Script.Parser

The grammar's knot, tied with a bound on the depth, and the reading of a whole script.

A script that is being typed is rarely complete. Where no statement can be read, broken places inside
its braces are passed over; if that is not enough, one word is, and reading goes on behind it. So what
stands before and after a broken place is still found.
-/

namespace DepScope.Script

/-- The production of a goal. -/
def produce (self : Grammar) : Goal → Parse Node
  | .expression => expressionProduction self
  | .assignment => assignmentProduction self
  | .binary level => binaryProduction self level
  | .unary => unaryProduction self
  | .object => objectProduction self
  | .array => arrayProduction self
  | .arguments => argumentList self
  | .parameters => parameterList self
  | .function => functionLike self
  | .classLike => classProduction self
  | .decorator => decoratorProduction self
  | .type => typeProduction self
  | .typeArguments => typeArguments self
  | .typeParameters => typeParameters self
  | .markup => markupElement self
  | .block => blockProduction self
  | .declaration => declarationProduction self
  | .statement => statementProduction self

/-- Reads a goal with productions nested at most so deep. -/
def parseTo : Nat → Grammar
  | 0 => fun _ => failure
  | depth + 1 => fun goal => remember goal.slot (produce (parseTo depth) goal)

/-- Each level of nesting takes at least one character and few productions. -/
def depthFor (cs : List Char) : Nat :=
  16 * (cs.length + 8)

/-- The statements of a script, broken places left out: inside braces if that is enough, else word by
word. -/
def statements (self : Grammar) : Parse (List Node) := do
  let one : Parse Node := self .statement
  let mended : Parse Node := inContext (fun x => { x with lenient := true }) (self .statement)
  let got ← many ((do return some (← one <|> mended)) <|> (do
    refuse atEnd
    passOver
    return none))
  return got.filterMap id

/-- The tree of a script. -/
def parseScript (markup : Bool) (s : String) : Node :=
  match (statements (parseTo (depthFor s.toList))).run (Cursor.ofText markup s) with
  | some (ns, c) => .mk .other ⟨0, c.last⟩ ns
  | none => .mk .other ⟨0, 0⟩ []

/-- The first statement of a script, when it is well formed. -/
def firstStatement? (markup : Bool) (s : String) : Option Node :=
  ((parseTo (depthFor s.toList) .statement).run (Cursor.ofText markup s)).map (·.1)

/-- Can the whole script be read? -/
def isWellFormed (markup : Bool) (s : String) : Bool :=
  match (many (parseTo (depthFor s.toList) .statement)).run (Cursor.ofText markup s) with
  | some (_, c) => c.rest.isEmpty
  | none => false

end DepScope.Script
