import FlatScript.Decimal.Basic
import FlatScript.Name.Ident
import FlatScript.Syntax.Operator

/-!
# Expressions

The expressions of a script. Every node keeps its place. A reference to a variable and a
call are also types of their own, `FlatScript.VarRef` and `FlatScript.Call`, because they
occur outside expressions too: as the target of an assignment and as a statement.
-/

namespace FlatScript

/-- **An expression.** -/
inductive Expr where
  /-- Two operands with an operator between them. -/
  | binary (op : BinaryOp) (left right : Expr) (span : Span)
  /-- An operand with an operator in front of it. -/
  | unary (op : UnaryOp) (operand : Expr) (span : Span)
  /-- An integer of 32 bits. -/
  | int (value : Int32) (span : Span)
  /-- A real number. -/
  | real (value : Decimal) (span : Span)
  /-- A string, with its quotes. -/
  | str (raw : String) (span : Span)
  /-- A truth value, which only the evaluation of constants produces. -/
  | bool (value : Bool) (span : Span)
  /-- A variable with its subscripts. -/
  | var (ident : Ident) (subscripts : List Expr) (span : Span)
  /-- A call; `isProcedure` tells statement position, and `usingCall` that the keyword
  `call` is written. -/
  | call (name : Ident) (args : List Expr) (isProcedure usingCall : Bool) (span : Span)
  /-- The text of a list of values that is passed on as it is. -/
  | raw (text : String) (span : Span)
deriving Repr, Inhabited

/-- **A reference to a variable**, with its subscripts. -/
structure VarRef where
  /-- The variable. -/
  ident : Ident
  /-- The subscripts. -/
  subscripts : List Expr
  /-- Where the reference stands. -/
  span : Span
deriving Repr, Inhabited

/-- **A call of a function.** -/
structure Call where
  /-- The function. -/
  name : Ident
  /-- The arguments. -/
  args : List Expr
  /-- Whether the call is a statement. -/
  isProcedure : Bool
  /-- Whether the call is written with the keyword `call`. -/
  usingCall : Bool
  /-- Where the call stands. -/
  span : Span
deriving Repr, Inhabited

namespace VarRef

/-- The reference as an expression. -/
def toExpr (v : VarRef) : Expr := .var v.ident v.subscripts v.span

/-- A reference without subscripts. -/
def plain (ident : Ident) : VarRef := ⟨ident, [], ident.span⟩

end VarRef

namespace Call

/-- The call as an expression. -/
def toExpr (c : Call) : Expr := .call c.name c.args c.isProcedure c.usingCall c.span

/-- A call without the keyword `call`, at the place of its name. -/
def plain (name : Ident) (args : List Expr) (isProcedure : Bool) : Call :=
  ⟨name, args, isProcedure, false, name.span⟩

end Call

namespace Expr

/-- Where an expression stands. -/
def span : Expr → Span
  | binary _ _ _ s | unary _ _ s | int _ s | real _ s | str _ s | bool _ s | var _ _ s
  | call _ _ _ _ s | raw _ s => s

/-- Two operands and an operator, at the place that covers both. -/
def op (left : Expr) (o : BinaryOp) (right : Expr) : Expr :=
  binary o left right (left.span.merge right.span)

/-- The reference that an expression is, if it is one. -/
def asVar? : Expr → Option VarRef
  | var ident subscripts span => some ⟨ident, subscripts, span⟩
  | _ => none

/-- Whether the expression is a given integer literal. -/
def isInt (e : Expr) (n : Int32) : Bool :=
  match e with
  | int v _ => v == n
  | _ => false

/-- The text of a string literal between its quotes; a text of one byte is left alone. -/
def contents (raw : String) : String :=
  if raw.utf8ByteSize < 2 then raw else String.ofList (raw.toList.drop 1).dropLast

end Expr

end FlatScript
