import FlatScript.Syntax.Stmt

/-!
# Counting loops as plain loops

A counting loop is a plain loop with an assignment in front and a step at the end of its
body. A bound of the form `N - 1` is compared with `N` instead, so that nothing has to be
subtracted every time around.
-/

namespace FlatScript.Lowering

/-- The comparison and the bound of a loop that counts to `stop`. -/
def loopBound (stop : Expr) (downto : Bool) : BinaryOp × Expr :=
  if downto then (.greaterEqual, stop)
  else match stop with
    | .binary .sub left right _ => if right.isInt 1 then (.less, left) else (.lessEqual, stop)
    | _ => (.lessEqual, stop)

/-- **The condition of a counting loop.** -/
def loopCondition (var : VarRef) (stop : Expr) (downto : Bool) : Expr :=
  let (op, bound) := loopBound stop downto
  var.toExpr.op op bound

/-- The step at the end of the body of a counting loop. -/
def loopStep (var : VarRef) (step : Option Expr) (downto : Bool) (span : Span) : StmtKind :=
  match step with
  | none => .call (.plain (.fixed (if downto then "dec" else "inc") span) [var.toExpr] true)
  | some step => .assign var (var.toExpr.op (if downto then .sub else .add) step)

end FlatScript.Lowering
