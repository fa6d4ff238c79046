import FlatScript.Syntax.Stmt
import FlatScript.Value

/-!
# Folding of expressions

An expression of literals and constants is replaced by its value. Where only one operand is
known, the laws of zero, one and the truth values may still drop the operator. Operands are
folded first, then the laws are applied, and then the expression is evaluated.

An operand that a law drops is never evaluated, so its faults disappear with it. A value that
is a string is not written back.
-/

namespace FlatScript.Folding

/-- Whether there is nothing to evaluate in an expression. -/
def isLiteral : Expr → Bool
  | .int _ _ | .real _ _ | .str _ _ | .bool _ _ | .raw _ _ => true
  | .binary _ _ _ _ | .unary _ _ _ | .var _ _ _ | .call _ _ _ _ _ => false

/-- The truth value that an expression is, if it is one. -/
def truth? : Expr → Option Bool
  | .bool b _ => some b
  | _ => none

/-- The integer that an expression is, if it is one. -/
def int? : Expr → Option Int32
  | .int v _ => some v
  | _ => none

/-- Whether an expression is a given number, as an integer or as a real. -/
def isNumber (n : Int32) : Expr → Bool
  | .int v _ => v == n
  | .real v _ => (v.compareValue (.ofInt32 n)).isEq
  | _ => false

/-- **Two operands and an operator, by the laws** of zero and one for products and sums, and of
the truth values for `or` and `and`. -/
def simplify (op : BinaryOp) (left right : Expr) (span : Span) : Expr :=
  match op with
  | .mul =>
    if isNumber 0 left then left
    else if isNumber 1 left then right
    else if isNumber 0 right then right
    else if isNumber 1 right then left
    else .binary op left right span
  | .add =>
    if isNumber 0 left then right
    else if isNumber 0 right then left
    else .binary op left right span
  | .or => match truth? left, truth? right with
    | some b, _ => if b then left else right
    | none, some b => if b then right else left
    | none, none => .binary op left right span
  | .and => match truth? left, truth? right with
    | some b, _ => if b then right else left
    | none, some b => if b then left else right
    | none, none => .binary op left right span
  | _ => .binary op left right span

/-- The literal for an expression that has a value, and the expression itself otherwise. -/
def evaluated (constants : Constants) (e : Expr) : Expr :=
  if isLiteral e then e
  else match e.eval constants with
    | .ok value => (value.toExpr? e.span).getD e
    | .error _ => e

mutual

/-- **An expression, folded.** -/
def expr (constants : Constants) : Expr → Expr
  | .binary op left right span =>
    evaluated constants (simplify op (expr constants left) (expr constants right) span)
  | .unary op operand span => evaluated constants (.unary op (expr constants operand) span)
  | .var ident subscripts span => evaluated constants (.var ident (exprs constants subscripts) span)
  | .call name args isProcedure usingCall span =>
    .call name (exprs constants args) isProcedure usingCall span
  | .int v span => .int v span
  | .real v span => .real v span
  | .str raw span => .str raw span
  | .bool v span => .bool v span
  | .raw text span => .raw text span

/-- Expressions, folded. -/
def exprs (constants : Constants) : List Expr → List Expr
  | [] => []
  | e :: es => expr constants e :: exprs constants es

end

/-- A target of an assignment, with its subscripts folded. -/
def varRef (constants : Constants) (v : VarRef) : VarRef :=
  { v with subscripts := exprs constants v.subscripts }

/-- A call, with its arguments folded. -/
def call (constants : Constants) (c : Call) : Call := { c with args := exprs constants c.args }

/-- The values of a declaration, folded. -/
def initializer (constants : Constants) : Initializer → Initializer
  | .single e => .single (expr constants e)
  | .list es => .list (exprs constants es)

/-- A declaration, with its expressions folded. -/
def declaration (constants : Constants) (d : Declaration) : Declaration :=
  { d with
    size := d.size.map (expr constants)
    params := exprs constants d.params
    init := d.init.map (initializer constants) }

end FlatScript.Folding
