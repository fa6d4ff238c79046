import FlatScript.Decimal.Literal
import FlatScript.Parser.State
import FlatScript.Syntax.Expr

/-!
# Parsing expressions

Expressions are parsed by binding power: an operand is read, and then operators as long as
they bind at least as tightly as the context asks. The operand on the right of an
operator has to bind tighter than the operator, so equal operators group to the left.

The functions call each other along a bound that counts down. It starts above the number
of steps that the tokens ahead are worth; `FlatScript.Parser.expression` hides it.
-/

namespace FlatScript.Parser

/-! ### Literals -/

/-- The value of a digit in base sixteen. -/
def hexValue (c : Char) : Nat :=
  if c.isDigit then c.toNat - '0'.toNat
  else if c.isLower then c.toNat - 'a'.toNat + 10
  else c.toNat - 'A'.toNat + 10

/-- The digits of a hexadecimal literal, without its marks. -/
def hexDigits : List Char → List Char
  | '0' :: 'x' :: digits | '0' :: 'X' :: digits => digits
  | digits => digits.filter fun c => c != 'h' && c != 'H'

/-- The value of an integer literal, before it is cut to 32 bits. -/
def literalValue (kind : TokenKind) (lexeme : List Char) : Nat :=
  if kind = .hex then (hexDigits lexeme).foldl (fun n c => 16 * n + hexValue c) 0
  else Decimal.digitsValue lexeme

/-- The bound that integer literals stay below: two to the power 64. -/
def literalBound : Nat := 18446744073709551616

/-- The integer that a literal stands for. It wraps into 32 bits, but has to fit into 64. -/
def integer (token : Token) : Parse Int32 :=
  let value := literalValue token.kind token.lexeme.toList
  if value < literalBound then return Int32.ofInt value
  else failAt .invalidToken token.span ("integer literal " ++ token.lexeme ++ " is out of range")

/-- The real number that a literal stands for. -/
def realNumber (token : Token) : Parse Decimal :=
  match Decimal.ofLiteral token.lexeme.toList with
  | .ok value => return value
  | .error e => failAt .invalidToken token.span ("invalid real literal: " ++ e.message)

/-! ### Expressions -/

mutual

/-- An expression whose operators bind at least as tightly as `power`. -/
def exprFrom : Nat → Nat → Parse Expr
  | 0, _ => exhausted
  | fuel + 1, power => do
    let left ← operand fuel
    operators fuel power left

/-- The operators that follow an operand, with their operands. -/
def operators : Nat → Nat → Expr → Parse Expr
  | 0, _, _ => exhausted
  | fuel + 1, power, left => do
    match BinaryOp.ofToken? (← peek).kind with
    | none => return left
    | some op =>
      if op.bindingPower < power then return left
      let _ ← advance
      let right ← exprFrom fuel (op.bindingPower + 1)
      operators fuel power (left.op op right)

/-- An operand: a literal, a reference, a call, something in parentheses, or an operator in
front of an operand. -/
def operand : Nat → Parse Expr
  | 0 => exhausted
  | fuel + 1 => do
    let token ← peek
    match UnaryOp.ofToken? token.kind with
    | some op =>
      let _ ← advance
      let e ← exprFrom fuel op.bindingPower
      return .unary op e (token.span.merge e.span)
    | none => match token.kind with
      | .int | .hex => do
        let _ ← advance
        return .int (← integer token) token.span
      | .real => do
        let _ ← advance
        return .real (← realNumber token) token.span
      | .string => do
        let _ ← advance
        return .str token.lexeme token.span
      | .identifier => do
        let _ ← advance
        let ident := Ident.ofText token.lexeme token.span
        if ← check (.sign .leftParen) then
          let (args, close) ← arguments fuel
          return .call ident args false false (token.span.merge close)
        else
          let (subs, span) ← subscripts fuel ident.span
          return .var ident subs span
      | .keyword .callKw => return (← callKeyword fuel false).toExpr
      | .sign .leftParen => do
        let _ ← advance
        let e ← exprFrom fuel 0
        let _ ← expect (.sign .rightParen)
        return e
      | kind =>
        failAt .expectedExpression token.span ("expected expression, found " ++ kind.description)

/-- One or more expressions with commas between them. -/
def exprList : Nat → Parse (List Expr)
  | 0 => exhausted
  | fuel + 1 => do
    let e ← exprFrom fuel 0
    if ← eat (.sign .comma) then return e :: (← exprList fuel) else return [e]

/-- Arguments in parentheses, and the span of the closing one. -/
def arguments : Nat → Parse (List Expr × Span)
  | 0 => exhausted
  | fuel + 1 => do
    let _ ← expect (.sign .leftParen)
    let args ← if ← check (.sign .rightParen) then pure [] else exprList fuel
    let close ← expect (.sign .rightParen)
    return (args, close.span)

/-- The subscripts that follow a name, in one pair of brackets or several, and the span up
to the last of them. -/
def subscripts : Nat → Span → Parse (List Expr × Span)
  | 0, _ => exhausted
  | fuel + 1, span => do
    if ← eat (.sign .leftBracket) then
      let first ← exprList fuel
      let close ← expect (.sign .rightBracket)
      let (more, span) ← subscripts fuel (span.merge close.span)
      return (first ++ more, span)
    else return ([], span)

/-- A call with the keyword `call`. -/
def callKeyword : Nat → Bool → Parse Call
  | 0, _ => exhausted
  | fuel + 1, isProcedure => do
    let start ← expect (.keyword .callKw)
    let name ← expect .identifier
    let (args, close) ←
      if ← check (.sign .leftParen) then arguments fuel else pure ([], name.span)
    return ⟨Ident.ofText name.lexeme name.span, args, isProcedure, true, start.span.merge close⟩

end

/-- An expression whose operators bind at least as tightly as `power`. -/
def expressionFrom (power : Nat) : Parse Expr := do exprFrom (bound (← get)) power

/-- **An expression.** -/
def expression : Parse Expr := expressionFrom 0

/-- Arguments in parentheses, and the span of the closing one. -/
def argumentList : Parse (List Expr × Span) := do arguments (bound (← get))

/-- The reference that starts with a name already taken. -/
def varRefRest (ident : Ident) : Parse VarRef := do
  let (subs, span) ← subscripts (bound (← get)) ident.span
  return ⟨ident, subs, span⟩

/-- A reference to a variable. -/
def varRef : Parse VarRef := do
  let token ← expect .identifier
  varRefRest (Ident.ofText token.lexeme token.span)

/-- A call with the keyword `call`, as a statement or not. -/
def callWithKeyword (isProcedure : Bool) : Parse Call := do
  callKeyword (bound (← get)) isProcedure

end FlatScript.Parser
