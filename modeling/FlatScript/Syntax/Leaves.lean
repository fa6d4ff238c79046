import FlatScript.Syntax.Script

/-!
# The leaves of statements

Many steps of a compilation keep the statements of a script and change only what stands in
them: expressions, targets of assignments, calls and declarations. `FlatScript.LeafMap` says
how these leaves change, and `FlatScript.Stmt.mapLeaves` changes all of them, in the order in
which they are written, until one of them fails.

What a leaf becomes may depend on its `FlatScript.Scope`: the parameters of the function
around it, and the calls through which its statement was copied.
-/

namespace FlatScript

/-- Where a leaf stands. -/
structure Scope where
  /-- The parameters of the function around it, and its result. -/
  params : List String
  /-- The calls its statement was copied through. -/
  trace : List Span

/-- **How leaves change.** -/
structure LeafMap (ε : Type) where
  /-- Expressions. -/
  expr : Scope → Expr → Except ε Expr
  /-- Targets of assignments and counting variables. -/
  target : Scope → VarRef → Except ε VarRef
  /-- Calls that are statements. -/
  call : Scope → Call → Except ε Call

namespace LeafMap

variable {ε : Type}

/-- The values of a declaration, changed. -/
def initializer (r : LeafMap ε) (scope : Scope) : Initializer → Except ε Initializer
  | .single e => return .single (← r.expr scope e)
  | .list es => return .list (← es.mapM (r.expr scope))

/-- A declaration with its expressions changed; its name stays. -/
def declaration (r : LeafMap ε) (scope : Scope) (d : Declaration) : Except ε Declaration := do
  let size ← d.size.mapM (r.expr scope)
  let params ← d.params.mapM (r.expr scope)
  let init ← d.init.mapM (r.initializer scope)
  return { d with size, params, init }

end LeafMap

variable {ε : Type}

mutual

/-- **A statement with its leaves changed.** -/
def Stmt.mapLeaves (r : LeafMap ε) (params : List String) : Stmt → Except ε Stmt
  | ⟨.property name functions, span, trace⟩ =>
    return ⟨.property name (← mapLeavesFunctions r functions), span, trace⟩
  | ⟨.synonym name indices target, span, trace⟩ =>
    return ⟨.synonym name indices (← r.target ⟨params, trace⟩ target), span, trace⟩
  | ⟨.declare d, span, trace⟩ =>
    return ⟨.declare (← r.declaration ⟨params, trace⟩ d), span, trace⟩
  | ⟨.assign target value, span, trace⟩ => do
    let target ← r.target ⟨params, trace⟩ target
    return ⟨.assign target (← r.expr ⟨params, trace⟩ value), span, trace⟩
  | ⟨.call c, span, trace⟩ => return ⟨.call (← r.call ⟨params, trace⟩ c), span, trace⟩
  | ⟨.whileLoop cond body, span, trace⟩ => do
    let cond ← r.expr ⟨params, trace⟩ cond
    return ⟨.whileLoop cond (← mapLeavesStmts r params body), span, trace⟩
  | ⟨.forLoop var start stop step downto body, span, trace⟩ => do
    let scope : Scope := ⟨params, trace⟩
    let var ← r.target scope var
    let start ← r.expr scope start
    let stop ← r.expr scope stop
    let step ← step.mapM (r.expr scope)
    return ⟨.forLoop var start stop step downto (← mapLeavesStmts r params body), span, trace⟩
  | ⟨.family name body, span, trace⟩ =>
    return ⟨.family name (← mapLeavesStmts r params body), span, trace⟩
  | ⟨.ifChain branches otherwise, span, trace⟩ => do
    let branches ← mapLeavesBranches r ⟨params, trace⟩ branches
    return ⟨.ifChain branches (← mapLeavesStmts r params otherwise), span, trace⟩
  | ⟨.select subject cases, span, trace⟩ => do
    let subject ← r.expr ⟨params, trace⟩ subject
    return ⟨.select subject (← mapLeavesCases r ⟨params, trace⟩ cases), span, trace⟩

/-- Statements with their leaves changed. -/
def mapLeavesStmts (r : LeafMap ε) (params : List String) : List Stmt → Except ε (List Stmt)
  | [] => .ok []
  | s :: ss => do
    let s ← s.mapLeaves r params
    return s :: (← mapLeavesStmts r params ss)

/-- Branches with their leaves changed. -/
def mapLeavesBranches (r : LeafMap ε) (scope : Scope) : List Branch → Except ε (List Branch)
  | [] => .ok []
  | ⟨cond, body⟩ :: rest => do
    let cond ← r.expr scope cond
    let body ← mapLeavesStmts r scope.params body
    return ⟨cond, body⟩ :: (← mapLeavesBranches r scope rest)

/-- Cases with their leaves changed. -/
def mapLeavesCases (r : LeafMap ε) (scope : Scope) : List Case → Except ε (List Case)
  | [] => .ok []
  | ⟨start, stop, body⟩ :: rest => do
    let start ← r.expr scope start
    let stop ← stop.mapM (r.expr scope)
    let body ← mapLeavesStmts r scope.params body
    return ⟨start, stop, body⟩ :: (← mapLeavesCases r scope rest)

/-- Functions with the leaves of their bodies changed. -/
def mapLeavesFunctions (r : LeafMap ε) : List FunctionDef → Except ε (List FunctionDef)
  | [] => .ok []
  | ⟨name, params, result, body, isTaskfunc, isOverride, span⟩ :: rest => do
    let names := params.map (·.name.full) ++ (result.map Ident.full).toList
    let body ← mapLeavesStmts r names body
    return ⟨name, params, result, body, isTaskfunc, isOverride, span⟩ ::
      (← mapLeavesFunctions r rest)

end

/-- A function with the leaves of its body changed. -/
def FunctionDef.mapLeaves (r : LeafMap ε) (f : FunctionDef) : Except ε FunctionDef :=
  return { f with body := ← mapLeavesStmts r f.paramNames f.body }

/-- **A script with its leaves changed**, and the controls of its callbacks by `control`. -/
def Script.mapLeaves (r : LeafMap ε) (control : Ident → Except ε Ident) (s : Script) :
    Except ε Script := do
  let blocks ← s.blocks.mapM fun
    | .callback c => do
      let bound ← c.control.mapM control
      let body ← mapLeavesStmts r [] c.body
      return .callback { c with control := bound, body }
    | .function f => return .function (← f.mapLeaves r)
  return ⟨blocks⟩

end FlatScript
