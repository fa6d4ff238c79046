import FlatScript.Program
import FlatScript.Syntax.Leaves

/-!
# Arguments in the place of parameters

A body that is copied to a call gets the arguments in the place of the parameters. A
reference to a parameter `x`, or to a field `x.f` of it, takes the name of the argument,
keeps the field and its own subscripts, and gets those of the argument behind them. An
argument that is no reference can only stand where the whole reference stood, and not as a
target or as the name of a function.
-/

namespace FlatScript

/-- What stands in the place of parameters, by their first part without sigil. -/
abbrev Substitution := List (String × Expr)

namespace Substitution

/-- What stands in the place of a name, or of what it is a field of. -/
def find? (s : Substitution) (name : String) : Option Expr := s.lookup (Name.firstPart name)

/-- The reference `i` with the argument named `rep` in the place of its first part. -/
def mergeIdent (i rep : Ident) : Ident :=
  ⟨rep.sigil <|> i.sigil, rep.name ++ Name.lastPart i.name, i.span, true⟩

/-- The name of a function that is called through a parameter. -/
def functionName (env : Env) (s : Substitution) (trace : List Span) (name : Ident)
    (span : Span) : Except CompileError Ident :=
  match s.find? name.name with
  | none => .ok name
  | some (.var rep _ _) => .ok ⟨none, rep.name ++ Name.lastPart name.name, name.span, true⟩
  | some _ =>
    .error (env.errorAt (.functionNameExpected (Name.firstPart name.name)) span trace)

mutual

/-- **An expression with arguments in the place of parameters.** -/
def expr (env : Env) (s : Substitution) (trace : List Span) : Expr → Except CompileError Expr
  | .binary op left right span => do
    let left ← expr env s trace left
    return .binary op left (← expr env s trace right) span
  | .unary op operand span => return .unary op (← expr env s trace operand) span
  | .var i subscripts span =>
    match s.find? i.name with
    | none => return .var i (← exprs env s trace subscripts) span
    | some (.var rep own _) =>
      return .var (mergeIdent i rep) ((← exprs env s trace subscripts) ++ own) span
    | some value => .ok value
  | .call name args isProcedure usingCall span => do
    let name ← functionName env s trace name span
    return .call name (← exprs env s trace args) isProcedure usingCall span
  | .int v span => .ok (.int v span)
  | .real v span => .ok (.real v span)
  | .str raw span => .ok (.str raw span)
  | .bool v span => .ok (.bool v span)
  | .raw text span => .ok (.raw text span)

/-- Expressions with arguments in the place of parameters. -/
def exprs (env : Env) (s : Substitution) (trace : List Span) :
    List Expr → Except CompileError (List Expr)
  | [] => .ok []
  | e :: es => do
    let e ← expr env s trace e
    return e :: (← exprs env s trace es)

end

/-- A target of an assignment with arguments in the place of parameters. -/
def target (env : Env) (s : Substitution) (trace : List Span) (v : VarRef) :
    Except CompileError VarRef :=
  match s.find? v.ident.name with
  | none => return { v with subscripts := ← exprs env s trace v.subscripts }
  | some (.var rep own _) =>
    return ⟨mergeIdent v.ident rep, (← exprs env s trace v.subscripts) ++ own, v.span⟩
  | some _ => .error (env.errorAt .assignTargetNotVariable v.span trace)

/-- A call with arguments in the place of parameters. -/
def call (env : Env) (s : Substitution) (trace : List Span) (c : Call) :
    Except CompileError Call := do
  let name ← functionName env s trace c.name c.span
  return { c with name, args := ← exprs env s trace c.args }

/-- The leaves of statements get arguments in the place of parameters. -/
def leafMap (env : Env) (s : Substitution) : LeafMap CompileError where
  expr scope := expr env s scope.trace
  target scope := target env s scope.trace
  call scope := call env s scope.trace

/-- **Statements with arguments in the place of parameters.** -/
def stmts (env : Env) (s : Substitution) (body : List Stmt) : Except CompileError (List Stmt) :=
  mapLeavesStmts (leafMap env s) [] body

end Substitution

/-! ### Call sites -/

mutual

/-- A statement that is copied to one more call site. -/
def Stmt.copiedTo (site : Span) : Stmt → Stmt
  | ⟨.property name functions, span, trace⟩ =>
    ⟨.property name (functionsCopiedTo site functions), span, trace ++ [site]⟩
  | ⟨.whileLoop cond body, span, trace⟩ =>
    ⟨.whileLoop cond (stmtsCopiedTo site body), span, trace ++ [site]⟩
  | ⟨.forLoop var start stop step downto body, span, trace⟩ =>
    ⟨.forLoop var start stop step downto (stmtsCopiedTo site body), span, trace ++ [site]⟩
  | ⟨.family name body, span, trace⟩ =>
    ⟨.family name (stmtsCopiedTo site body), span, trace ++ [site]⟩
  | ⟨.ifChain branches otherwise, span, trace⟩ =>
    ⟨.ifChain (branchesCopiedTo site branches) (stmtsCopiedTo site otherwise), span,
      trace ++ [site]⟩
  | ⟨.select subject cases, span, trace⟩ =>
    ⟨.select subject (casesCopiedTo site cases), span, trace ++ [site]⟩
  | ⟨.synonym name indices target, span, trace⟩ =>
    ⟨.synonym name indices target, span, trace ++ [site]⟩
  | ⟨.declare d, span, trace⟩ => ⟨.declare d, span, trace ++ [site]⟩
  | ⟨.assign target value, span, trace⟩ => ⟨.assign target value, span, trace ++ [site]⟩
  | ⟨.call c, span, trace⟩ => ⟨.call c, span, trace ++ [site]⟩

/-- **Statements that are copied to one more call site**: it is the outermost of the calls that
each of them was copied through. -/
def stmtsCopiedTo (site : Span) : List Stmt → List Stmt
  | [] => []
  | s :: ss => s.copiedTo site :: stmtsCopiedTo site ss

/-- Branches that are copied to one more call site. -/
def branchesCopiedTo (site : Span) : List Branch → List Branch
  | [] => []
  | ⟨cond, body⟩ :: rest => ⟨cond, stmtsCopiedTo site body⟩ :: branchesCopiedTo site rest

/-- Cases that are copied to one more call site. -/
def casesCopiedTo (site : Span) : List Case → List Case
  | [] => []
  | ⟨start, stop, body⟩ :: rest =>
    ⟨start, stop, stmtsCopiedTo site body⟩ :: casesCopiedTo site rest

/-- Functions that are copied to one more call site. -/
def functionsCopiedTo (site : Span) : List FunctionDef → List FunctionDef
  | [] => []
  | ⟨name, params, result, body, isTaskfunc, isOverride, span⟩ :: rest =>
    ⟨name, params, result, stmtsCopiedTo site body, isTaskfunc, isOverride, span⟩ ::
      functionsCopiedTo site rest

end

end FlatScript
