import FlatScript.Syntax.Script

/-!
# Renaming

The names in a script can be changed without touching anything else: those of variables and
of called functions wherever they occur, those in declarations, and those of the controls of
callbacks. The names of functions where they are defined are changed by a second map, so that
they can be left alone. Parameters, results, families and properties keep their names.
-/

namespace FlatScript

/-- **How names change.** -/
structure Renaming where
  /-- Names of variables and of called functions. -/
  name : Ident → Ident
  /-- Names of functions where they are defined. -/
  function : Ident → Ident

namespace Renaming

/-! ### Expressions -/

mutual

/-- **An expression, renamed.** -/
def expr (r : Renaming) : Expr → Expr
  | .binary op left right span => .binary op (r.expr left) (r.expr right) span
  | .unary op operand span => .unary op (r.expr operand) span
  | .var ident subscripts span => .var (r.name ident) (r.exprs subscripts) span
  | .call name args isProcedure usingCall span =>
    .call (r.name name) (r.exprs args) isProcedure usingCall span
  | .int v span => .int v span
  | .real v span => .real v span
  | .str raw span => .str raw span
  | .bool v span => .bool v span
  | .raw text span => .raw text span

/-- Expressions, renamed. -/
def exprs (r : Renaming) : List Expr → List Expr
  | [] => []
  | e :: es => r.expr e :: r.exprs es

end

/-- A reference, renamed. -/
def varRef (r : Renaming) (v : VarRef) : VarRef :=
  { v with ident := r.name v.ident, subscripts := r.exprs v.subscripts }

/-- A call, renamed. -/
def call (r : Renaming) (c : Call) : Call :=
  { c with name := r.name c.name, args := r.exprs c.args }

/-- The values of a declaration, renamed. -/
def initializer (r : Renaming) : Initializer → Initializer
  | .single e => .single (r.expr e)
  | .list es => .list (r.exprs es)

/-- A declaration, renamed. -/
def declaration (r : Renaming) (d : Declaration) : Declaration :=
  { d with
    name := r.name d.name
    size := d.size.map r.expr
    params := r.exprs d.params
    init := d.init.map r.initializer }

/-! ### Statements -/

mutual

/-- **A statement, renamed.** -/
def stmt (r : Renaming) : Stmt → Stmt
  | ⟨.property name accessors, span, trace⟩ => ⟨.property name (r.functions accessors), span, trace⟩
  | ⟨.synonym name indices target, span, trace⟩ =>
    ⟨.synonym name indices (r.varRef target), span, trace⟩
  | ⟨.declare d, span, trace⟩ => ⟨.declare (r.declaration d), span, trace⟩
  | ⟨.assign target value, span, trace⟩ => ⟨.assign (r.varRef target) (r.expr value), span, trace⟩
  | ⟨.call c, span, trace⟩ => ⟨.call (r.call c), span, trace⟩
  | ⟨.whileLoop cond body, span, trace⟩ => ⟨.whileLoop (r.expr cond) (r.stmts body), span, trace⟩
  | ⟨.forLoop var start stop step downto body, span, trace⟩ =>
    ⟨.forLoop (r.varRef var) (r.expr start) (r.expr stop) (step.map r.expr) downto (r.stmts body),
      span, trace⟩
  | ⟨.family name body, span, trace⟩ => ⟨.family name (r.stmts body), span, trace⟩
  | ⟨.ifChain branches otherwise, span, trace⟩ =>
    ⟨.ifChain (r.branches branches) (r.stmts otherwise), span, trace⟩
  | ⟨.select subject cases, span, trace⟩ =>
    ⟨.select (r.expr subject) (r.cases cases), span, trace⟩

/-- Statements, renamed. -/
def stmts (r : Renaming) : List Stmt → List Stmt
  | [] => []
  | s :: ss => r.stmt s :: r.stmts ss

/-- Branches, renamed. -/
def branches (r : Renaming) : List Branch → List Branch
  | [] => []
  | ⟨cond, body⟩ :: rest => ⟨r.expr cond, r.stmts body⟩ :: r.branches rest

/-- Cases, renamed. -/
def cases (r : Renaming) : List Case → List Case
  | [] => []
  | ⟨start, stop, body⟩ :: rest =>
    ⟨r.expr start, stop.map r.expr, r.stmts body⟩ :: r.cases rest

/-- Functions, renamed. -/
def functions (r : Renaming) : List FunctionDef → List FunctionDef
  | [] => []
  | ⟨name, params, result, body, isTaskfunc, isOverride, span⟩ :: rest =>
    ⟨r.function name, params, result, r.stmts body, isTaskfunc, isOverride, span⟩ ::
      r.functions rest

end

/-! ### Scripts -/

/-- A block, renamed. -/
def block (r : Renaming) : Block → Block
  | .callback c => .callback { c with control := c.control.map r.name, body := r.stmts c.body }
  | .function f => .function { f with name := r.function f.name, body := r.stmts f.body }

/-- **A script, renamed.** -/
def script (r : Renaming) (s : Script) : Script := ⟨s.blocks.map r.block⟩

end Renaming

end FlatScript
