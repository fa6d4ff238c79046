import FlatScript.Decimal.Arith
import FlatScript.Syntax.Expr
import FlatScript.Text.Case

/-!
# Values of constant expressions

What an expression of literals and constants is worth. Integers wrap into 32 bits. The
quotient of integers goes toward zero and their remainder takes the sign of the dividend.
Dividing by zero gives zero, while a remainder by zero is an error. An integer and a real
are computed with as reals, and compared by value.

* `FlatScript.Value` is the type of values.
* `FlatScript.Expr.eval` is the value of an expression.
-/

namespace FlatScript

/-- **A value.** -/
inductive Value where
  | int (v : Int32)
  | real (v : Decimal)
  | str (s : String)
  | bool (b : Bool)
deriving DecidableEq, Repr, Inhabited

/-- Why an expression has no value. -/
inductive EvalError where
  /-- It is not made of literals and constants only. -/
  | notConstant
  /-- A number is expected, and `found` is there. -/
  | notNumeric (found : String)
  /-- An integer is expected. -/
  | notInteger
  /-- A remainder by zero is asked for. -/
  | divisionByZero
  /-- A real number is too large. -/
  | overflow
deriving DecidableEq, Repr, Inhabited

/-- The text of a fault. -/
def EvalError.message : EvalError → String
  | notConstant => "expression is not constant"
  | notNumeric found => "numeric value expected, found " ++ found
  | notInteger => "integer value expected"
  | divisionByZero => "division by zero"
  | overflow => "arithmetic overflow"

namespace Value

/-- The text of a value. -/
def text : Value → String
  | int v => toString v.toInt
  | real v => v.text
  | str s => s
  | bool b => if b then "True" else "False"

/-- Whether a value counts as true. -/
def truthy : Value → Bool
  | int v => v != 0
  | real v => !v.isZero
  | str s => s != ""
  | bool b => b

/-- The literal for a value at a place; a string has none. -/
def toExpr? (span : Span) : Value → Option Expr
  | int v => some (.int v span)
  | real v => some (.real v span)
  | bool b => some (.bool b span)
  | str _ => none

/-! ### Numbers -/

/-- A number, as an integer or as a real. -/
inductive Number where
  | int (v : Int32)
  | real (v : Decimal)
deriving DecidableEq, Repr

/-- The number as a decimal. -/
def Number.toDecimal : Number → Decimal
  | int v => .ofInt32 v
  | real v => v

/-- The number that a value is. -/
def number : Value → Except EvalError Number
  | int v => .ok (.int v)
  | real v => .ok (.real v)
  | other => .error (.notNumeric other.text)

/-- The integer that a value is. -/
def integer : Value → Except EvalError Int32
  | int v => .ok v
  | real _ => .error .notInteger
  | other => .error (.notNumeric other.text)

/-- A result that may be too large. -/
def ofReal? : Option Decimal → Except EvalError Value
  | some d => .ok (real d)
  | none => .error .overflow

/-- The remainder of integers, with the sign of the dividend. -/
def intRem (a b : Int32) : Int32 := Int32.ofInt (Int.tmod a.toInt b.toInt)

/-- The sum, difference, product or quotient of integers. -/
def intArith (op : BinaryOp) (a b : Int32) : Int32 :=
  match op with
  | .add => a + b
  | .sub => a - b
  | .mul => a * b
  | _ => a / b

/-- The sum, difference, product or quotient of decimals. -/
def realArith (op : BinaryOp) (a b : Decimal) : Option Decimal :=
  match op with
  | .add => a.add? b
  | .sub => a.sub? b
  | .mul => a.mul? b
  | _ => if b.isZero then some .zero else a.div? b

/-- The sum, difference, product or quotient of numbers. -/
def arith (op : BinaryOp) : Number → Number → Except EvalError Value
  | .int a, .int b => .ok (int (intArith op a b))
  | a, b => ofReal? (realArith op a.toDecimal b.toDecimal)

/-- The remainder of numbers. -/
def rem : Number → Number → Except EvalError Value
  | .int a, .int b => if b = 0 then .error .divisionByZero else .ok (int (intRem a b))
  | a, b =>
    if b.toDecimal.isZero then .error .divisionByZero
    else ofReal? (a.toDecimal.rem? b.toDecimal)

/-- Whether a comparison holds between things in a given order. -/
def holds (op : BinaryOp) (o : Ordering) : Bool :=
  match op with
  | .equal => o.isEq
  | .notEqual => o.isNe
  | .less => o.isLT
  | .greater => o.isGT
  | .lessEqual => o.isLE
  | _ => o.isGE

/-! ### Operators -/

/-- The value of an operator in front of a value. -/
def unary : UnaryOp → Value → Except EvalError Value
  | .neg, int v => .ok (int (-v))
  | .neg, real v => .ok (real v.neg)
  | .bitNot, int v => .ok (int (~~~v))
  | .not, bool b => .ok (bool (!b))
  | .not, _ => .error .notConstant
  | _, other => .error (.notNumeric other.text)

/-- The value of an operator between two values. -/
def binary (op : BinaryOp) (a b : Value) : Except EvalError Value :=
  match op with
  | .add | .sub | .mul | .div => do arith op (← a.number) (← b.number)
  | .mod => do rem (← a.number) (← b.number)
  | .equal | .notEqual | .less | .greater | .lessEqual | .greaterEqual => do
    let x ← a.number
    let y ← b.number
    return bool (holds op (x.toDecimal.compareValue y.toDecimal))
  | .bitAnd => do return int ((← a.integer) &&& (← b.integer))
  | .bitOr => do return int ((← a.integer) ||| (← b.integer))
  | .bitXor => do return int ((← a.integer) ^^^ (← b.integer))
  | .concat => .ok (str (a.text ++ b.text))
  | .and => .ok (bool (a.truthy && b.truthy))
  | .or => .ok (bool (a.truthy || b.truthy))
  | .xor => .ok (bool (a.truthy != b.truthy))

end Value

/-- The values of constants, by their names in lower case, the latest first. -/
abbrev Constants := List (String × Value)

/-- **The value of an expression**, given the values of constants. -/
def Expr.eval (constants : Constants) : Expr → Except EvalError Value
  | int v _ => .ok (.int v)
  | real v _ => .ok (.real v)
  | str quoted _ => .ok (.str (contents quoted))
  | bool b _ => .ok (.bool b)
  | var ident [] _ => match constants.lookup (Text.lower ident.full) with
    | some v => .ok v
    | none => .error .notConstant
  | var _ (_ :: _) _ | call _ _ _ _ _ | raw _ _ => .error .notConstant
  | unary op operand _ => do Value.unary op (← operand.eval constants)
  | binary op left right _ => do
    let a ← left.eval constants
    let b ← right.eval constants
    Value.binary op a b

end FlatScript
