import FlatScript.Builtin.Table
import FlatScript.Options
import FlatScript.Syntax.Script

/-!
# Writing scripts

A script is written one statement a line, either without any indentation or indented by
depth. The expressions get parentheses only where precedence asks for them: around a left
operand that binds looser than its operator, around a right operand that does not bind
tighter, and around an operand of a prefix operator that has an operator of its own, unless
that one is a prefix operator too.

* `FlatScript.Printer.expr` writes an expression.
* `FlatScript.Printer.stmts` gives the lines of statements, each with its depth.
* `FlatScript.Printer.script` writes a script.
-/

namespace FlatScript.Printer

/-! ### Expressions -/

/-- The precedence at which truth values are written, that of a comparison. -/
def boolPrecedence : Nat := 5

/-- The precedence of an expression, if it has an operator at its top. -/
def precedence? : Expr → Option Nat
  | .binary op _ _ _ => some op.precedence
  | .unary op _ _ => some op.precedence
  | .bool _ _ => some boolPrecedence
  | _ => none

/-- A text in parentheses, when `needed` holds of the precedence of its expression. -/
def parenthesized (needed : Nat → Bool) (e : Expr) (text : String) : String :=
  match precedence? e with
  | some p => if needed p then "(" ++ text ++ ")" else text
  | none => text

/-- Whether an expression has a prefix operator at its top. -/
def isUnary : Expr → Bool
  | .unary _ _ _ => true
  | _ => false

/-- The least integer, which has no decimal spelling. -/
def leastInt : String := "080000000h"

/-- An integer, as it is written. -/
def int (value : Int32) : String :=
  if value = Int32.minValue then leastInt else toString value.toInt

/-- A real number, without zeros at its end, but with one digit after the point at least. -/
def real (value : Decimal) : String :=
  let text := value.normalize.text
  if text.toList.contains '.' then text else text ++ ".0"

/-- The operands of a binary operator with the operator between them. -/
def infixed (op : BinaryOp) (left right : String) : String :=
  if op.isTight then left ++ op.spelling ++ right
  else left ++ " " ++ op.spelling ++ " " ++ right

/-- The operand of a prefix operator with the operator in front of it. -/
def prefixed (op : UnaryOp) (operand : String) : String :=
  if op = .neg then "-" ++ operand else op.spelling ++ " " ++ operand

/-- Texts with commas between them. -/
def commas (texts : List String) : String := ", ".intercalate texts

/-- Whether a call is written with parentheses. -/
def hasParentheses (b : Builtins) (name : Ident) (hasArgs isProcedure : Bool) : Bool :=
  hasArgs || !isProcedure || b.forcesParentheses name.name

mutual

/-- **An expression as it is written.** -/
def expr (b : Builtins) : Expr → String
  | .binary op left right _ =>
    infixed op (parenthesized (· < op.precedence) left (expr b left))
      (parenthesized (· ≤ op.precedence) right (expr b right))
  | .unary op operand _ =>
    if op = .neg ∧ operand.isInt Int32.minValue then leastInt
    else if isUnary operand then prefixed op (expr b operand)
    else prefixed op (parenthesized (fun _ => true) operand (expr b operand))
  | .int value _ => int value
  | .real value _ => real value
  | .str raw _ => raw
  | .bool value _ => if value then "9=9" else "9=0"
  | .var ident subscripts _ =>
    if subscripts.isEmpty then ident.full
    else ident.full ++ "[" ++ commas (exprs b subscripts) ++ "]"
  | .call name args isProcedure usingCall _ =>
    (if usingCall then "call " else "") ++ name.full ++
      if hasParentheses b name (!args.isEmpty) isProcedure then
        "(" ++ commas (exprs b args) ++ ")"
      else ""
  | .raw text _ => "(" ++ text ++ ")"

/-- Expressions as they are written. -/
def exprs (b : Builtins) : List Expr → List String
  | [] => []
  | e :: es => expr b e :: exprs b es

end

/-- A reference as it is written. -/
def varRef (b : Builtins) (v : VarRef) : String := expr b v.toExpr

/-- A call as it is written. -/
def call (b : Builtins) (c : Call) : String := expr b c.toExpr

/-! ### Statements -/

/-- The values of a declaration as they are written. -/
def initializer (b : Builtins) : Initializer → String
  | .single (.raw text _) => " := (" ++ text ++ ")"
  | .single value => " := " ++ expr b value
  | .list values => " := (" ++ commas (exprs b values) ++ ")"

/-- A declaration as it is written. -/
def declaration (b : Builtins) (d : Declaration) : String :=
  "declare " ++ String.join (d.modifiers.map (· ++ " ")) ++ d.name.full ++
    (match d.size with
      | some size => "[" ++ expr b size ++ "]"
      | none => "") ++
    (if d.params.isEmpty then "" else "(" ++ commas (exprs b d.params) ++ ")") ++
    (match d.init with
      | some init => initializer b init
      | none => "")

/-- The first line of a counting loop. -/
def forHead (b : Builtins) (var : VarRef) (start stop : Expr) (step : Option Expr)
    (downto : Bool) : String :=
  "for " ++ varRef b var ++ " := " ++ expr b start ++
    (if downto then " downto " else " to ") ++ expr b stop ++
    (match step with
      | some step => " step " ++ expr b step
      | none => "")

/-- The first line of a case. -/
def caseHead (b : Builtins) (start : Expr) (stop : Option Expr) : String :=
  "case " ++ expr b start ++
    (match stop with
      | some stop => " to " ++ expr b stop
      | none => "")

/-- A line of a script: how deep it stands, and what it says. -/
structure Line where
  /-- The number of constructs around the line. -/
  depth : Nat
  /-- The text of the line. -/
  text : String
deriving DecidableEq, Repr, Inhabited

mutual

/-- The lines of a statement. A property has none: nothing of it is left to be run. -/
def stmt (b : Builtins) (depth : Nat) : Stmt → List Line
  | ⟨.property _ _, _, _⟩ | ⟨.synonym _ _ _, _, _⟩ => []
  | ⟨.declare d, _, _⟩ => [⟨depth, declaration b d⟩]
  | ⟨.assign target value, _, _⟩ => [⟨depth, varRef b target ++ " := " ++ expr b value⟩]
  | ⟨.call c, _, _⟩ => [⟨depth, call b c⟩]
  | ⟨.whileLoop cond body, _, _⟩ =>
    ⟨depth, "while (" ++ expr b cond ++ ")"⟩ :: stmts b (depth + 1) body ++
      [⟨depth, "end while"⟩]
  | ⟨.forLoop var start stop step downto body, _, _⟩ =>
    ⟨depth, forHead b var start stop step downto⟩ :: stmts b (depth + 1) body ++
      [⟨depth, "end for"⟩]
  | ⟨.family name body, _, _⟩ =>
    ⟨depth, "family " ++ name.full⟩ :: stmts b (depth + 1) body ++ [⟨depth, "end family"⟩]
  | ⟨.ifChain bs otherwise, _, _⟩ =>
    branches b depth "if" bs ++
      (if otherwise.isEmpty then [] else ⟨depth, "else"⟩ :: stmts b (depth + 1) otherwise) ++
      [⟨depth, "end if"⟩]
  | ⟨.select subject cs, _, _⟩ =>
    ⟨depth, "select (" ++ expr b subject ++ ")"⟩ :: cases b (depth + 1) cs ++
      [⟨depth, "end select"⟩]

/-- The lines of statements. -/
def stmts (b : Builtins) (depth : Nat) : List Stmt → List Line
  | [] => []
  | s :: ss => stmt b depth s ++ stmts b depth ss

/-- The lines of conditions with their bodies; the first one starts with `word`. -/
def branches (b : Builtins) (depth : Nat) (word : String) : List Branch → List Line
  | [] => []
  | ⟨cond, body⟩ :: rest =>
    ⟨depth, word ++ " (" ++ expr b cond ++ ")"⟩ :: stmts b (depth + 1) body ++
      branches b depth "else if" rest

/-- The lines of cases with their bodies. -/
def cases (b : Builtins) (depth : Nat) : List Case → List Line
  | [] => []
  | ⟨start, stop, body⟩ :: rest =>
    ⟨depth, caseHead b start stop⟩ :: stmts b (depth + 1) body ++ cases b depth rest

end

/-! ### Scripts -/

/-- The first line of a callback. -/
def callbackHead (c : Callback) : String :=
  "on " ++ c.name ++
    (match c.control with
      | some control => "(" ++ control.full ++ ")"
      | none => "")

/-- The first line of a function. -/
def functionHead (f : FunctionDef) : String :=
  "function " ++ f.name.full ++
    if f.params.isEmpty then "" else "(" ++ commas (f.params.map (·.name.full)) ++ ")"

/-- The lines of a block. -/
def block (b : Builtins) : Block → List Line
  | .callback c => ⟨0, callbackHead c⟩ :: stmts b 1 c.body ++ [⟨0, "end on"⟩]
  | .function f => ⟨0, functionHead f⟩ :: stmts b 1 f.body ++ [⟨0, "end function"⟩]

/-- A line as it is written: without indentation, or indented by its depth. -/
def line (o : Options) (l : Line) : String :=
  (if o.removeWhitespace then ""
    else String.ofList (List.replicate (l.depth * o.indentWidth) ' ')) ++ l.text ++ "\n"

/-- Lines as they are written. -/
def text (o : Options) (lines : List Line) : String := String.join (lines.map (line o))

/-- **Statements as they are written.** -/
def statements (b : Builtins) (o : Options) (body : List Stmt) : String :=
  text o (stmts b 0 body)

/-- **A script as it is written.** An empty line follows every block, unless white space is
removed. -/
def script (b : Builtins) (o : Options) (s : Script) : String :=
  String.join (s.blocks.map fun bl =>
    text o (block b bl) ++ if o.removeWhitespace then "" else "\n")

end FlatScript.Printer
