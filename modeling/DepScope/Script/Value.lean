import DepScope.Script.Number
import DepScope.Text.Units

/-!
# DepScope.Script.Value

Values a constant expression can have, and the operators on them. An operator gives `none` where
running the script would raise an error: big integers mixed with numbers, a division by zero, a
result that does not fit.
-/

namespace DepScope.Script

open Text Decimal

/-- A value of the script language. -/
inductive Value where
  | undefined
  | null
  | truth (b : Bool)
  | number (x : Float)
  | bigint (n : Int)
  | string (s : String)

/-- Operators in front of one operand. -/
inductive UnaryOp where
  | negate
  | plus
  | not
  | complement
  | typeOf
  | void
deriving DecidableEq

/-- Operators between two operands that are both evaluated. -/
inductive BinaryOp where
  | add | sub | mul | div | rem | pow
  | shiftLeft | shiftRight | shiftRightUnsigned
  | bitAnd | bitOr | bitXor
  | equal | notEqual | strictEqual | strictNotEqual
  | less | lessEqual | greater | greaterEqual
deriving DecidableEq

/-- Operators that may leave their right operand aside. -/
inductive LogicalOp where
  | and
  | or
  | coalesce
deriving DecidableEq

namespace Value

/-- The name of a value's type; `null` counts as an object. -/
def typeName : Value → String
  | undefined => "undefined"
  | null => "object"
  | truth _ => "boolean"
  | number _ => "number"
  | bigint _ => "bigint"
  | string _ => "string"

/-- Does the value count as true in a condition? -/
def isTruthy : Value → Bool
  | undefined | null => false
  | truth b => b
  | number x => x != 0 && !x.isNaN
  | bigint n => n != 0
  | string s => !s.isEmpty

/-- The value as text. -/
def toText : Value → String
  | undefined => "undefined"
  | null => "null"
  | truth b => if b then "true" else "false"
  | number x => numberText x
  | bigint n => toString n
  | string s => s

/-- A truth value as a number. -/
def bit (b : Bool) : Float :=
  if b then 1 else 0

/-- The value as a number; big integers have none. -/
def toNumber? : Value → Option Float
  | undefined => some notANumber
  | null => some 0
  | truth b => some (bit b)
  | number x => some x
  | bigint _ => none
  | string s => some (numberOfText s)

/-- The value as an operand of arithmetic. -/
def toNumeric? : Value → Option Numeric
  | bigint n => some (.bigint n)
  | v => v.toNumber?.map .number

/-- The value of a numeric literal. -/
def ofNumeric : Numeric → Value
  | .number x => number x
  | .bigint n => bigint n

/-! ## Comparison -/

/-- Same type and same value; not-a-number differs from itself. -/
def strictEquals : Value → Value → Bool
  | undefined, undefined => true
  | null, null => true
  | truth a, truth b => a == b
  | number a, number b => a == b
  | bigint a, bigint b => a == b
  | string a, string b => a == b
  | _, _ => false

/-- Equality of a number with a value that is not a truth value. -/
def numberEquals (x : Float) : Value → Bool
  | number y => x == y
  | string s => x == numberOfText s
  | bigint n => (Binary.ofFloat x).isWhole && floatOfInt n == x
  | _ => false

/-- Equality after conversion. -/
def looseEquals : Value → Value → Bool
  | undefined, undefined | undefined, null | null, undefined | null, null => true
  | undefined, _ | null, _ | _, undefined | _, null => false
  | truth a, truth b => a == b
  | truth a, other => numberEquals (bit a) other
  | other, truth b => numberEquals (bit b) other
  | number x, other => numberEquals x other
  | other, number x => numberEquals x other
  | string a, string b => a == b
  | bigint a, bigint b => a == b
  | bigint n, string s => bigintIn? 10 (trim s.toList) == some n
  | string s, bigint n => bigintIn? 10 (trim s.toList) == some n

/-- The order of two numbers; none if one is not a number. -/
def compareFloats (a b : Float) : Option Ordering :=
  if a < b then some .lt
  else if a == b then some .eq
  else if b < a then some .gt
  else none

/-- The value as a number for ordering, where big integers are rounded. -/
def toOrderable : Value → Float
  | bigint n => floatOfInt n
  | v => v.toNumber?.getD notANumber

/-- The order of two values: texts by their code units, all else by number. -/
def compare? : Value → Value → Option Ordering
  | string a, string b => some (compareUnits a.toList b.toList)
  | a, b => compareFloats a.toOrderable b.toOrderable

end Value

/-! ## Arithmetic -/

/-- Arithmetic on numbers. -/
def numberOp (op : BinaryOp) (a b : Float) : Float :=
  match op with
  | .add => a + b
  | .sub => a - b
  | .mul => a * b
  | .div => a / b
  | .rem => ((Binary.ofFloat a).remainder (Binary.ofFloat b)).toFloat
  | .pow =>
    if b.isNaN || (a.abs == 1 && b.isInf) then notANumber else Float.pow a b
  | .shiftLeft => floatOfInt (signed32 (low32 a * 2 ^ (low32 b % 32) % 2 ^ 32))
  | .shiftRight => floatOfInt (signed32 (low32 a) / 2 ^ (low32 b % 32))
  | .shiftRightUnsigned => floatOfInt (low32 a / 2 ^ (low32 b % 32) : Nat)
  | .bitAnd => floatOfInt (signed32 (low32 a &&& low32 b))
  | .bitOr => floatOfInt (signed32 (low32 a ||| low32 b))
  | .bitXor => floatOfInt (signed32 (low32 a ^^^ low32 b))
  | _ => notANumber

/-- The 128 bits of an integer, as a natural number. -/
def bits128 (n : Int) : Nat :=
  (n % 2 ^ 128).toNat

/-- The integer with the given 128 bits. -/
def ofBits128 (n : Nat) : Int :=
  if n < 2 ^ 127 then n else (n : Int) - 2 ^ 128

/-- Repeated squaring is not needed: a power is refused as soon as its exponent is so large that
only the bases 0, 1 and -1 stay in range. -/
def bigintPow (a b : Int) : Option Int :=
  if b < 0 ∨ 2 ^ 32 ≤ b then none
  else if a = 0 ∨ a = 1 then some (if b = 0 then 1 else a)
  else if a = -1 then some (if b % 2 = 0 then 1 else -1)
  else if 127 < b then none
  else checked (a ^ b.toNat)

/-- A shift to the left by `b` bits, to the right for a negative `b`. -/
def bigintShift (a b : Int) : Option Int :=
  if 0 ≤ b then (if b < 127 then checked (a * 2 ^ b.toNat) else none)
  else some (a / 2 ^ (min (-b).toNat 127))

/-- Arithmetic on big integers. -/
def bigintOp (op : BinaryOp) (a b : Int) : Option Int :=
  match op with
  | .add => checked (a + b)
  | .sub => checked (a - b)
  | .mul => checked (a * b)
  | .div => if b = 0 then none else checked (a.tdiv b)
  | .rem => if b = 0 ∨ (a = -(2 ^ 127) ∧ b = -1) then none else checked (a.tmod b)
  | .pow => bigintPow a b
  | .shiftLeft => if b = -(2 ^ 127) then none else bigintShift a b
  | .shiftRight => if b = -(2 ^ 127) then none else bigintShift a (-b)
  | .bitAnd => some (ofBits128 (bits128 a &&& bits128 b))
  | .bitOr => some (ofBits128 (bits128 a ||| bits128 b))
  | .bitXor => some (ofBits128 (bits128 a ^^^ bits128 b))
  | _ => none

/-- Arithmetic on two operands of one kind. -/
def arithmetic (op : BinaryOp) : Numeric → Numeric → Option Value
  | .number a, .number b => some (.number (numberOp op a b))
  | .bigint a, .bigint b => (bigintOp op a b).map .bigint
  | _, _ => none

/-! ## Operators -/

/-- Applies an operator to one operand. -/
def UnaryOp.apply (op : UnaryOp) (v : Value) : Option Value :=
  match op with
  | .void => some .undefined
  | .typeOf => some (.string v.typeName)
  | .not => some (.truth !v.isTruthy)
  | .plus => v.toNumber?.map .number
  | .negate =>
    v.toNumeric?.bind fun
      | .number x => some (.number (-x))
      | .bigint n => (checked (-n)).map .bigint
  | .complement =>
    v.toNumeric?.bind fun
      | .number x => some (.number (floatOfInt (-(signed32 (low32 x)) - 1)))
      | .bigint n => some (.bigint (-n - 1))

/-- Applies an operator to two operands. -/
def BinaryOp.apply (op : BinaryOp) (l r : Value) : Option Value :=
  let ordered (p : Ordering → Bool) := some (Value.truth ((l.compare? r).any p))
  let computed := do arithmetic op (← l.toNumeric?) (← r.toNumeric?)
  match op with
  | .strictEqual => some (.truth (l.strictEquals r))
  | .strictNotEqual => some (.truth !(l.strictEquals r))
  | .equal => some (.truth (l.looseEquals r))
  | .notEqual => some (.truth !(l.looseEquals r))
  | .less => ordered (· == .lt)
  | .greater => ordered (· == .gt)
  | .lessEqual => ordered (· != .gt)
  | .greaterEqual => ordered (· != .lt)
  | .add =>
    match l, r with
    | .string _, _ | _, .string _ => some (.string (l.toText ++ r.toText))
    | _, _ => computed
  | _ => computed

/-- Does the left operand alone settle the result? -/
def LogicalOp.settledBy (op : LogicalOp) (l : Value) : Bool :=
  match op with
  | .and => !l.isTruthy
  | .or => l.isTruthy
  | .coalesce => match l with
    | .null | .undefined => false
    | _ => true

end DepScope.Script
