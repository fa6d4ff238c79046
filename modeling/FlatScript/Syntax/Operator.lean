import FlatScript.Token.Basic

/-!
# Operators

The binary and the prefix operators of expressions. One table of precedences serves the
parser, through `bindingPower`, and the printer, through `precedence`, so that the printer
puts parentheses exactly where the parser needs them.
-/

namespace FlatScript

/-! ### Binary operators -/

/-- **A binary operator.** All of them associate to the left. -/
inductive BinaryOp where
  | concat | or | xor | and
  | equal | notEqual | less | greater | lessEqual | greaterEqual
  | bitOr | bitXor | bitAnd
  | add | sub | mul | div | mod
deriving DecidableEq, Repr, Inhabited

namespace BinaryOp

/-- The precedence of an operator; a higher one binds tighter. -/
def precedence : BinaryOp → Nat
  | concat => 0
  | or => 1
  | xor => 2
  | and => 3
  | equal | notEqual | less | greater | lessEqual | greaterEqual => 5
  | bitOr => 6
  | bitXor => 7
  | bitAnd => 8
  | add | sub => 10
  | mul | div | mod => 11

/-- How tightly the operator binds what stands on its left; what stands on its right is
bound one step tighter. -/
def bindingPower (op : BinaryOp) : Nat := (op.precedence + 1) * 2

/-- The spelling of an operator. -/
def spelling : BinaryOp → String
  | concat => "&"
  | or => "or"
  | xor => "xor"
  | and => "and"
  | equal => "="
  | notEqual => "#"
  | less => "<"
  | greater => ">"
  | lessEqual => "<="
  | greaterEqual => ">="
  | bitOr => ".or."
  | bitXor => ".xor."
  | bitAnd => ".and."
  | add => "+"
  | sub => "-"
  | mul => "*"
  | div => "/"
  | mod => "mod"

/-- Whether the operator is written without spaces around it. -/
def isTight : BinaryOp → Bool
  | add | sub | mul | div | equal | less | greater | lessEqual | greaterEqual => true
  | concat | or | xor | and | notEqual | bitOr | bitXor | bitAnd | mod => false

/-- The operator that a token stands for between two operands. -/
def ofToken? : TokenKind → Option BinaryOp
  | .sign .amp => some concat
  | .keyword .orKw => some or
  | .keyword .xorKw => some xor
  | .keyword .andKw => some and
  | .sign .equal => some equal
  | .sign .notEqual => some notEqual
  | .sign .less => some less
  | .sign .greater => some greater
  | .sign .lessEqual => some lessEqual
  | .sign .greaterEqual => some greaterEqual
  | .sign .bitOr => some bitOr
  | .sign .bitXor => some bitXor
  | .sign .bitAnd => some bitAnd
  | .sign .plus => some add
  | .sign .minus => some sub
  | .sign .star => some mul
  | .sign .slash => some div
  | .keyword .modKw => some mod
  | _ => none

end BinaryOp

/-! ### Prefix operators -/

/-- **An operator in front of its operand.** -/
inductive UnaryOp where
  | neg | not | bitNot
deriving DecidableEq, Repr, Inhabited

namespace UnaryOp

/-- The precedence of an operator, on the scale of the binary ones. -/
def precedence : UnaryOp → Nat
  | not => 4
  | bitNot => 9
  | neg => 12

/-- How tightly the operator binds its operand. -/
def bindingPower (op : UnaryOp) : Nat := (op.precedence + 1) * 2

/-- The spelling of an operator. -/
def spelling : UnaryOp → String
  | neg => "-"
  | not => "not"
  | bitNot => ".not."

/-- The operator that a token stands for in front of an operand. -/
def ofToken? : TokenKind → Option UnaryOp
  | .sign .minus => some neg
  | .keyword .notKw => some not
  | .sign .bitNot => some bitNot
  | _ => none

end UnaryOp

end FlatScript
