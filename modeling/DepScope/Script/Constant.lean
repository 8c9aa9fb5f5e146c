import DepScope.Script.Value

/-!
# DepScope.Script.Constant

Expressions whose value does not depend on the running program, and their evaluation.
-/

namespace DepScope.Script

/-- A constant expression. A template is its first text followed by splices. -/
inductive Constant where
  | literal (v : Value)
  /-- A text, the text of a value after it, and a text after that. -/
  | splice (before value : Constant) (after : String)
  | unary (op : UnaryOp) (arg : Constant)
  | binary (op : BinaryOp) (left right : Constant)
  | logical (op : LogicalOp) (left right : Constant)

/-- The value of a constant expression; `none` where running it would raise an error. -/
def Constant.evaluate : Constant → Option Value
  | literal v => some v
  | splice before value after => do
    let b ← before.evaluate
    let v ← value.evaluate
    return .string (b.toText ++ v.toText ++ after)
  | unary op arg => do op.apply (← arg.evaluate)
  | binary op left right => do op.apply (← left.evaluate) (← right.evaluate)
  | logical op left right => do
    let l ← left.evaluate
    if op.settledBy l then return l else right.evaluate

end DepScope.Script
