import FlatScript.Frame
import FlatScript.Inlining.Substitution

/-!
# Copying functions to their calls

The engine knows functions without parameters only, so a call of a function is replaced by a
copy of its body, with the arguments in the place of the parameters. What is left in the end
are calls of built-in functions and calls with the keyword `call`, which are kept.

* In statement position the body takes the place of the call.
* In `x := f(a)` the result of the function is `x`.
* Inside an expression the body has to be one assignment to the result, and its right side
  takes the place of the call.
* A task function is called with `call`, its arguments being passed on the stack.

Reading a property is a call of the function that reads it, and assigning to it one of the
function that writes it.

A body that is copied may call further functions, which are copied in turn. A function that
is being copied cannot be called again, so the copying nests no deeper than there are
functions; `FlatScript.Inlining.expandAt` counts the nesting down.

Main definitions:

* `FlatScript.Inlining.stmts` expands statements, given how copied bodies are expanded.
* `FlatScript.Inlining.script` expands a script and the functions of the table that can be
  called with `call`.
-/

namespace FlatScript.Inlining

/-! ### Where a call stands -/

/-- The block whose body is expanded. -/
inductive Top where
  /-- A callback, which may be the init callback. -/
  | callback (isInit : Bool)
  /-- A function. -/
  | function (name : String)
deriving DecidableEq, Repr

namespace Top

/-- Whether the block is the init callback. -/
def isInit (t : Top) : Bool := t == .callback true

/-- The caller that calls are recorded for. -/
def caller : Top → Caller
  | .function name => some name
  | .callback _ => none

end Top

/-- **Where a call stands**: the block, the functions that are being copied, outermost first,
and the calls that the statement was copied through. -/
structure Place where
  /-- The block. -/
  top : Top
  /-- The functions that are being copied. -/
  stack : List String
  /-- The calls that the statement was copied through. -/
  trace : List Span

namespace Place

/-- A fault at a span. -/
def error (at' : Place) (env : Env) (fault : Fault) (span : Span) : CompileError :=
  env.errorAt fault span at'.trace

/-- A statement with the calls that the one at hand was copied through. -/
def stmt (at' : Place) (kind : StmtKind) (span : Span) : Stmt := ⟨kind, span, at'.trace⟩

end Place

/-- What a call is used for. -/
inductive Use where
  /-- It is a statement. -/
  | statement
  /-- It is the whole right side of an assignment to the target. -/
  | assign (target : VarRef)
  /-- It is part of an expression. -/
  | expression

/-- Whether a call is a statement. -/
def Use.isStatement : Use → Bool
  | statement => true
  | assign _ | expression => false

/-- Whether a call is part of an expression. -/
def Use.isExpression : Use → Bool
  | expression => true
  | statement | assign _ => false

/-- The target that takes the result of a call, if there is one. -/
def Use.target? : Use → Option VarRef
  | assign target => some target
  | statement | expression => none

/-- The use of a call that is a statement, or the whole right side of an assignment to a
target. -/
def Use.ofTarget : Option VarRef → Use
  | some target => assign target
  | none => statement

/-- **What a call is replaced by.** -/
inductive Expanded where
  /-- Statements. -/
  | stmts (ss : List Stmt)
  /-- An expression. -/
  | expr (e : Expr)

/-- The statements that a call is replaced by. -/
def Expanded.toStmts : Expanded → Except CompileError (List Stmt)
  | .stmts ss => .ok ss
  | .expr _ => .error (.internal "statement call expanded to an expression")

/-- The expression that a call is replaced by. -/
def Expanded.toExpr : Expanded → Except CompileError Expr
  | .expr e => .ok e
  | .stmts _ => .error (.internal "expression call expanded to statements")

/-- **An argument of a call**: as it is written, expanded as an expression, and, when it is a
reference, expanded as a target. -/
structure Argument where
  /-- The argument as it is written. -/
  written : Expr
  /-- The argument, expanded as an expression. -/
  value : Compile Expr
  /-- The reference that the argument is, with its subscripts expanded. -/
  target? : Option (Compile VarRef)

/-- A call with its arguments. -/
structure CallSite where
  /-- The function. -/
  name : Ident
  /-- The arguments. -/
  args : List Argument
  /-- Whether the call is a statement. -/
  isProcedure : Bool
  /-- Whether the call is written with the keyword `call`. -/
  usingCall : Bool
  /-- Where the call stands. -/
  span : Span

/-! ### Names -/

/-- Whether a reference is to a property. -/
def isPropertyRef (p : Program) (i : Ident) : Bool :=
  i.sigil.isNone && p.symbols.isProperty i.name

/-- Whether a reference without subscripts is the name of a function. -/
def namesFunction (p : Program) (i : Ident) : Bool :=
  i.sigil.isNone && p.isUserFunction i.name

/-- The call that reads a property. -/
def getterSite (env : Env) (at' : Place) (p : Program) (i : Ident) (args : List Argument)
    (span : Span) : Except CompileError CallSite :=
  let getter := i.name ++ ".get"
  if p.isUserFunction getter then .ok ⟨.fixed getter i.span, args, false, false, span⟩
  else .error (at'.error env (.propertyNotReadable i.name) span)

/-- The call that writes a property. -/
def setterSite (env : Env) (at' : Place) (p : Program) (target : VarRef) (args : List Argument)
    (span : Span) : Except CompileError CallSite :=
  let setter := target.ident.name ++ ".set"
  if p.isUserFunction setter then
    .ok ⟨.fixed setter target.ident.span, args, true, false, span⟩
  else .error (at'.error env (.propertyReadOnly target.ident.name) target.span)

/-! ### Checks -/

/-- **The fault of a call** of a function of the script, if it has one. -/
def callFault? (at' : Place) (f : FunctionDef) (c : CallSite) (use : Use) : Option Fault :=
  let name := c.name.name
  if at'.stack.contains name then
    some (.recursiveCall (" -> ".intercalate (at'.stack ++ [name])))
  else if c.args.length ≠ f.params.length then
    some (.argumentCountMismatch name f.params.length c.args.length)
  else if !use.isStatement && f.result.isNone then some (.noReturnValue name)
  else if f.isTaskfunc && use.isExpression then some (.taskfuncInExpression name)
  else if at'.top.isInit && (c.usingCall || f.isTaskfunc) then some (.callInInit name)
  else if c.usingCall && !f.isTaskfunc then
    if !c.args.isEmpty then some (.callWithParameters name)
    else if !use.isStatement then some (.callInExpression name)
    else none
  else none

/-- The function that a call reaches. The call is recorded and checked, and a function that a
callback calls is used. -/
def enterCall (env : Env) (at' : Place) (c : CallSite) (use : Use) : Compile FunctionEntry := do
  let name := c.name.name
  match (← get).function? name with
  | none => throw (at'.error env (.unknownFunction name) c.span)
  | some entry =>
    modify fun p => { p with calls := p.calls.addCall at'.top.caller name }
    if c.usingCall then modify fun p => { p with calls := p.calls.markExplicit name }
    if let some fault := callFault? at' entry.fn c use then
      throw (at'.error env fault c.span)
    if at'.top.caller.isNone then modify (·.updateFunction name ({ · with used := true }))
    return entry

/-! ### Built-in functions -/

/-- The arguments of a built-in function, expanded; the first one may have to stay. -/
def builtinArgs (name : String) (args : List Argument) : Compile (List Expr) :=
  match args with
  | [] => return []
  | first :: rest => do
    let first ← if Builtins.keepsFirstArgument name then pure first.written else first.value
    return first :: (← rest.mapM (·.value))

/-- The call of a built-in function. A function that waits is noted. -/
def builtinCall (at' : Place) (c : CallSite) : Compile Call := do
  if c.name.name == "wait" then
    if let .function name := at'.top then
      modify fun p => { p with waiting := Name.insertNew p.waiting name }
  return ⟨c.name, ← builtinArgs c.name.name c.args, c.isProcedure, c.usingCall, c.span⟩

/-! ### Task functions -/

/-- The cell of the `i`-th of `count` values on the stack, as the caller sees it. -/
def argumentSlot (count i : Nat) (span : Span) : VarRef :=
  Frame.slot Frame.stackPointer .sub (count - i) span

/-- The stores of the arguments that are copied in. -/
def storeArgs (at' : Place) (count : Nat) (span : Span) :
    Nat → List (Argument × ParamKind) → Compile (List Stmt)
  | _, [] => return []
  | i, (arg, kind) :: rest => do
    let first ← if kind.copiesIn then
        pure [at'.stmt (.assign (argumentSlot count i span) (← arg.value)) span]
      else pure []
    return first ++ (← storeArgs at' count span (i + 1) rest)

/-- The loads of the parameters that are copied out, to the arguments that are references. -/
def loadArgs (at' : Place) (count : Nat) (span : Span) :
    Nat → List (Argument × ParamKind) → Compile (List Stmt)
  | _, [] => return []
  | i, (arg, kind) :: rest => do
    let first ← match kind.copiesOut, arg.target? with
      | true, some target =>
        pure [at'.stmt (.assign (← target) (argumentSlot count i span).toExpr) span]
      | _, _ => pure []
    return first ++ (← loadArgs at' count span (i + 1) rest)

/-- The target that takes the result of the call of a task function. No such call is part of an
expression. -/
def Use.captured : Use → Except CompileError (Option VarRef)
  | statement => .ok none
  | assign target => .ok (some target)
  | expression => .error (.internal "taskfunc call in expression position")

/-- **The call of a task function**: its arguments are stored on the stack, the function is
called with `call`, and results are loaded from the stack. The result of the function comes
behind its parameters, also when nobody wants it. The offsets have to be integers of the
engine. -/
def taskfuncCall (at' : Place) (f : FunctionDef) (c : CallSite) (captured : Option VarRef) :
    Compile (List Stmt) := do
  let args := c.args.zip (f.params.map (·.kind)) ++
    (captured.map fun v => (⟨v.toExpr, pure v.toExpr, some (pure v)⟩, ParamKind.out)).toList
  let count := args.length + if f.result.isSome && captured.isNone then 1 else 0
  if 2147483648 ≤ count then throw (.internal "taskfunc frame offset out of range")
  modify fun p => { p with calls := p.calls.markExplicit c.name.name }
  let stores ← storeArgs at' count c.span 0 args
  let loads ← loadArgs at' count c.span 0 args
  return stores ++ [at'.stmt (.call ⟨c.name, [], true, true, c.span⟩) c.span] ++ loads

/-! ### Copying -/

/-- How the bodies that are copied are expanded. -/
abbrev Expander := Place → List Stmt → Compile (List Stmt)

/-- The arguments in the place of the parameters. A reference stays as it is written, since
it may become a target or the name of a function; anything else is expanded where the call
stands. -/
def argumentSubstitution : List (Param × Argument) → Compile Substitution
  | [] => return []
  | (param, arg) :: rest => do
    let value ← match arg.written with
      | .var _ _ _ => pure arg.written
      | _ => arg.value
    -- A later parameter of the same name wins.
    return (← argumentSubstitution rest) ++ [(Name.firstPart param.name.name, value)]

/-- The first part of the name of the result of a function. -/
def resultKey? (f : FunctionDef) : Option String :=
  f.result.map fun r => Name.firstPart r.name

/-- Take the declarations of a function that belong into the init callback, if that is where
the call stands. -/
def takeDeclarations (at' : Place) (entry : FunctionEntry) : Compile (List Stmt) := do
  if at'.top.isInit then
    modify (·.updateFunction entry.name ({ · with globals := [], locals := [] }))
    return entry.globals ++ entry.locals
  else return []

/-- **A copy of the body of a function at a call**, expanded, with the declarations that move to
the init callback in front. -/
def inlineBody (env : Env) (inner : Expander) (at' : Place) (entry : FunctionEntry)
    (c : CallSite) (result : Option VarRef) : Compile (List Stmt) := do
  let decls ← takeDeclarations at' entry
  let decls ← inner at' decls
  let params ← argumentSubstitution (entry.fn.params.zip c.args)
  let results := match resultKey? entry.fn, result with
    | some key, some target => [(key, target.toExpr)]
    | _, _ => []
  let body ← Substitution.stmts env (results ++ params) (stmtsCopiedTo c.span entry.fn.body)
  return decls ++ (← inner { at' with stack := at'.stack ++ [entry.name] } body)

/-- The right side of a single assignment to the result of a function. -/
def resultOf? (f : FunctionDef) : List Stmt → Option Expr
  | [⟨.assign target value, _, _⟩] =>
    if target.subscripts.isEmpty ∧ resultKey? f = some (Name.firstPart target.ident.name) then
      some value
    else none
  | _ => none

/-! ### Calls -/

/-- Whether a call reaches a built-in function. -/
def reachesBuiltin (env : Env) (p : Program) (c : CallSite) : Bool :=
  !c.usingCall && p.isBuiltinCall env.builtins c.name.name

/-- What a copied body is, as the call is used. Inside an expression only its value is. -/
def copyExpanded (env : Env) (at' : Place) (c : CallSite) (f : FunctionDef) (body : List Stmt) :
    Use → Except CompileError Expanded
  | .expression => match resultOf? f body with
    | some value => .ok (.expr value)
    | none => .error (at'.error env (.notSingleAssignment c.name.name) c.span)
  | .statement | .assign _ => .ok (.stmts body)

/-- **A call in the place of which the body of the function comes**, or its value. -/
def inlineCall (env : Env) (inner : Expander) (at' : Place) (c : CallSite) (use : Use) :
    Compile Expanded := do
  let name := c.name.name
  match (← get).function? name with
  | none => throw (.internal ("function " ++ name ++ " vanished during expansion"))
  | some entry =>
    let body ← inlineBody env inner at' entry c use.target?
    copyExpanded env at' c entry.fn body use

/-- The call of a built-in function, as it is used. -/
def builtinExpanded (at' : Place) (call : Call) (span : Span) : Use → Expanded
  | .statement => .stmts [at'.stmt (.call call) span]
  | .assign target => .stmts [at'.stmt (.assign target call.toExpr) span]
  | .expression => .expr call.toExpr

/-- **What becomes of a call**, as it is used. -/
def expandCall (env : Env) (inner : Expander) (at' : Place) (c : CallSite) (use : Use) :
    Compile Expanded := do
  if reachesBuiltin env (← get) c then
    return builtinExpanded at' (← builtinCall at' c) c.span use
  let entry ← enterCall env at' c use
  if entry.fn.isTaskfunc then
    let captured ← use.captured
    return .stmts (← taskfuncCall at' entry.fn c captured)
  else if c.usingCall then
    let args := c.args.map (·.written)
    return .stmts [at'.stmt (.call ⟨c.name, args, c.isProcedure, c.usingCall, c.span⟩) c.span]
  else inlineCall env inner at' c use

/-- What becomes of a call that is a statement, or the whole right side of an assignment to
`target`. -/
def callStmts (env : Env) (inner : Expander) (at' : Place) (c : CallSite)
    (target : Option VarRef) : Compile (List Stmt) := do
  (← expandCall env inner at' c (.ofTarget target)).toStmts

/-- What becomes of a call inside an expression. -/
def callExpr (env : Env) (inner : Expander) (at' : Place) (c : CallSite) : Compile Expr := do
  (← expandCall env inner at' c .expression).toExpr

/-! ### Expressions -/

mutual

/-- **An expression, expanded.** -/
def expr (env : Env) (inner : Expander) (at' : Place) : Expr → Compile Expr
  | .binary op left right span => do
    let left ← expr env inner at' left
    return .binary op left (← expr env inner at' right) span
  | .unary op operand span => return .unary op (← expr env inner at' operand) span
  | .var i subscripts span => do
    let p ← get
    if isPropertyRef p i then
      callExpr env inner at' (← getterSite env at' p i (arguments env inner at' subscripts) span)
    else if subscripts.isEmpty && namesFunction p i then
      callExpr env inner at' ⟨i, [], false, false, i.span⟩
    else return .var i (← exprs env inner at' subscripts) span
  | .call name args isProcedure usingCall span =>
    callExpr env inner at'
      ⟨name, arguments env inner at' args, isProcedure, usingCall, span⟩
  | .int v span => return .int v span
  | .real v span => return .real v span
  | .str raw span => return .str raw span
  | .bool v span => return .bool v span
  | .raw text span => return .raw text span

/-- Expressions, expanded. -/
def exprs (env : Env) (inner : Expander) (at' : Place) : List Expr → Compile (List Expr)
  | [] => return []
  | e :: es => do
    let e ← expr env inner at' e
    return e :: (← exprs env inner at' es)

/-- The reference that an expression is, with its subscripts expanded. -/
def targetOf? (env : Env) (inner : Expander) (at' : Place) : Expr → Option (Compile VarRef)
  | .var i subscripts span => some (return ⟨i, ← exprs env inner at' subscripts, span⟩)
  | _ => none

/-- Expressions as the arguments of a call. -/
def arguments (env : Env) (inner : Expander) (at' : Place) : List Expr → List Argument
  | [] => []
  | e :: es =>
    ⟨e, expr env inner at' e, targetOf? env inner at' e⟩ :: arguments env inner at' es

end

/-- A target of an assignment, with its subscripts expanded. -/
def varRef (env : Env) (inner : Expander) (at' : Place) (v : VarRef) : Compile VarRef :=
  return { v with subscripts := ← exprs env inner at' v.subscripts }

/-- A call as a call site. -/
def siteOf (env : Env) (inner : Expander) (at' : Place) (c : Call) : CallSite :=
  ⟨c.name, arguments env inner at' c.args, c.isProcedure, c.usingCall, c.span⟩

/-- The call that the whole right side of an assignment is, if it is one: a call, a property
that is read, or the name of a function. -/
def siteOfValue? (env : Env) (inner : Expander) (at' : Place) (p : Program) :
    Expr → Except CompileError (Option CallSite)
  | .call name args isProcedure usingCall span =>
    return some ⟨name, arguments env inner at' args, isProcedure, usingCall, span⟩
  | .var i subscripts span =>
    if isPropertyRef p i then
      return some (← getterSite env at' p i (arguments env inner at' subscripts) span)
    else if subscripts.isEmpty && namesFunction p i then
      return some ⟨i, [], false, false, i.span⟩
    else return none
  | _ => return none

/-- **An assignment, expanded.** -/
def assignment (env : Env) (inner : Expander) (at' : Place) (target : VarRef) (value : Expr)
    (span : Span) : Compile (List Stmt) := do
  let p ← get
  if isPropertyRef p target.ident then
    let args := arguments env inner at' (target.subscripts ++ [value])
    callStmts env inner at' (← setterSite env at' p target args span) none
  else match ← siteOfValue? env inner at' p value with
    | some site =>
      if reachesBuiltin env p site then
        let target ← varRef env inner at' target
        return [at'.stmt (.assign target (← callExpr env inner at' site)) span]
      else
        let target ← varRef env inner at' target
        callStmts env inner at' site (some target)
    | none =>
      let target ← varRef env inner at' target
      return [at'.stmt (.assign target (← expr env inner at' value)) span]

/-- The values of a declaration, expanded. -/
def initializer (env : Env) (inner : Expander) (at' : Place) : Initializer → Compile Initializer
  | .single e => return .single (← expr env inner at' e)
  | .list es => return .list (← exprs env inner at' es)

/-- A declaration with its expressions expanded. -/
def declaration (env : Env) (inner : Expander) (at' : Place) (d : Declaration) :
    Compile Declaration := do
  let size ← d.size.mapM (expr env inner at')
  let params ← exprs env inner at' d.params
  let init ← d.init.mapM (initializer env inner at')
  return { d with size, params, init }

/-! ### Statements -/

mutual

/-- A statement, expanded. -/
def stmt (env : Env) (inner : Expander) (outer : Place) : Stmt → Compile (List Stmt)
  | ⟨.call c, _, trace⟩ =>
    let at' := { outer with trace }
    callStmts env inner at' (siteOf env inner at' c) none
  | ⟨.assign target value, span, trace⟩ =>
    assignment env inner { outer with trace } target value span
  | ⟨.declare d, span, trace⟩ =>
    return [⟨.declare (← declaration env inner { outer with trace } d), span, trace⟩]
  | ⟨.whileLoop cond body, span, trace⟩ => do
    let at' := { outer with trace }
    let cond ← expr env inner at' cond
    return [⟨.whileLoop cond (← stmts env inner at' body), span, trace⟩]
  | ⟨.forLoop var start stop step downto body, span, trace⟩ => do
    let at' := { outer with trace }
    let var ← varRef env inner at' var
    let start ← expr env inner at' start
    let stop ← expr env inner at' stop
    let step ← step.mapM (expr env inner at')
    let body ← stmts env inner at' body
    return [⟨.forLoop var start stop step downto body, span, trace⟩]
  | ⟨.family name body, span, trace⟩ =>
    return [⟨.family name (← stmts env inner { outer with trace } body), span, trace⟩]
  | ⟨.ifChain bs otherwise, span, trace⟩ => do
    let at' := { outer with trace }
    let bs ← branches env inner at' bs
    return [⟨.ifChain bs (← stmts env inner at' otherwise), span, trace⟩]
  | ⟨.select subject cs, span, trace⟩ => do
    let at' := { outer with trace }
    let subject ← expr env inner at' subject
    return [⟨.select subject (← cases env inner at' cs), span, trace⟩]
  | ⟨.property name fs, span, trace⟩ =>
    return [⟨.property name (← functions env inner { outer with trace } fs), span, trace⟩]
  | ⟨.synonym name indices target, span, trace⟩ =>
    return [⟨.synonym name indices (← varRef env inner { outer with trace } target), span,
      trace⟩]

/-- **Statements, expanded.** -/
def stmts (env : Env) (inner : Expander) (outer : Place) : List Stmt → Compile (List Stmt)
  | [] => return []
  | s :: ss => do
    let first ← stmt env inner outer s
    return first ++ (← stmts env inner outer ss)

/-- Branches, expanded. -/
def branches (env : Env) (inner : Expander) (at' : Place) : List Branch → Compile (List Branch)
  | [] => return []
  | ⟨cond, body⟩ :: rest => do
    let cond ← expr env inner at' cond
    let body ← stmts env inner at' body
    return ⟨cond, body⟩ :: (← branches env inner at' rest)

/-- Cases, expanded. -/
def cases (env : Env) (inner : Expander) (at' : Place) : List Case → Compile (List Case)
  | [] => return []
  | ⟨start, stop, body⟩ :: rest => do
    let start ← expr env inner at' start
    let stop ← stop.mapM (expr env inner at')
    let body ← stmts env inner at' body
    return ⟨start, stop, body⟩ :: (← cases env inner at' rest)

/-- Functions of a property, expanded. -/
def functions (env : Env) (inner : Expander) (at' : Place) :
    List FunctionDef → Compile (List FunctionDef)
  | [] => return []
  | ⟨name, params, result, body, isTaskfunc, isOverride, span⟩ :: rest => do
    let body ← stmts env inner at' body
    return ⟨name, params, result, body, isTaskfunc, isOverride, span⟩ ::
      (← functions env inner at' rest)

end

/-! ### Levels -/

/-- **Statements, expanded, with copies nested at most `n` deep.** -/
def expandAt (env : Env) : Nat → Expander
  | 0 => stmts env fun _ _ => throw (.internal "functions nested too deeply")
  | n + 1 => stmts env (expandAt env n)

/-- A bound on the nesting of copies. A function that is being copied is not copied again, and
it gives up its declarations once. -/
def depthBound (p : Program) : Nat := 2 * p.functions.length + 2

/-- Statements, expanded at a place. -/
def expand (env : Env) : Expander := fun at' body => do
  expandAt env (depthBound (← get)) at' body

/-! ### Scripts -/

/-- Whether a function can be called with `call`: a task function, or one without parameters
and result. -/
def isStandalone (f : FunctionDef) : Bool :=
  f.isTaskfunc || (f.params.isEmpty && f.result.isNone)

/-- A callback of a script, its body expanded by `ex`. -/
def block (ex : Expander) : Block → Compile Block
  | .callback c =>
    return .callback { c with body := ← ex ⟨.callback c.isInit, [], []⟩ c.body }
  | .function f =>
    throw (.internal ("function " ++ f.name.name ++ " left in the module after lowering"))

/-- The bodies of the functions that can be called with `call`, expanded by `ex`, by name. The
functions of the table are taken from the `i`-th on, `n` of them. -/
def standaloneBodies (ex : Expander) (i : Nat) : Nat → Compile (List (String × List Stmt))
  | 0 => return []
  | n + 1 => do
    match (← get).functions[i]? with
    | none => throw (.internal "function table changed during expansion")
    | some e =>
      if isStandalone e.fn then
        let body ← ex ⟨.function e.name, [e.name], []⟩ e.fn.body
        return (e.name, body) :: (← standaloneBodies ex (i + 1) n)
      else standaloneBodies ex (i + 1) n

/-- The function with its expanded body, if it has one. -/
def withBody (bodies : List (String × List Stmt)) (e : FunctionEntry) : FunctionEntry :=
  match bodies.lookup e.name with
  | some body => { e with fn := { e.fn with body } }
  | none => e

/-- A script, its bodies expanded by `ex`. The init callback comes first, so that the
declarations of the functions it copies move into it; then the functions that can be called
with `call`; then the other callbacks. All bodies that are copied are the ones before
expansion. -/
def scriptBy (ex : Expander) (s : Script) : Compile Script := do
  let first ← (s.blocks.take 1).mapM (block ex)
  let bodies ← standaloneBodies ex 0 (← get).functions.length
  let rest ← (s.blocks.drop 1).mapM (block ex)
  modify fun p => { p with functions := p.functions.map (withBody bodies) }
  return ⟨first ++ rest⟩

/-- **A script, expanded.** -/
def script (env : Env) (s : Script) : Compile Script := scriptBy (expand env) s

end FlatScript.Inlining
