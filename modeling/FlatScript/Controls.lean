import FlatScript.Program
import FlatScript.Syntax.Leaves

/-!
# Identifiers of controls

The functions that read and write the parameters of a control want its identifier and not
its variable. Where a script passes the variable, a call of `get_ui_id` is put around it; the
same goes for the panel that a control is put on.

The last checks on references and calls are made here too: a reference takes one subscript at
most, and the event that the parameters of events are read from must not be the result of a
function that may change.
-/

namespace FlatScript.Controls

/-- Whether a text starts with a word. -/
def startsWith (word text : String) : Bool := word.toList.isPrefixOf text.toList

/-- Whether a text ends with a word. -/
def endsWith (word text : String) : Bool := word.toList.isSuffixOf text.toList

/-- Whether an expression is the variable of a control. -/
def isControl (symbols : Symbols) (e : Expr) : Bool :=
  e.asVar?.any fun v => symbols.isUiVariable v.ident.full

/-- The identifier of a control. -/
def idOf (control : Expr) : Expr :=
  .call (.fixed "get_ui_id" control.span) [control] false false control.span

/-- Whether an expression names the parameter that holds the panel of a control. -/
def isPanelParameter (e : Expr) : Bool :=
  e.asVar?.any fun v => endsWith "PARENT_PANEL" v.ident.name

/-- The argument, as an identifier if it is a control. -/
def withId (symbols : Symbols) (e : Expr) : Expr := if isControl symbols e then idOf e else e

/-- **The arguments of a function on parameters of controls**, with identifiers in the place
of controls. -/
def withIds (symbols : Symbols) (isSetter : Bool) : List Expr → List Expr
  | control :: args =>
    if isControl symbols control then
      idOf control :: match args with
        | parameter :: panel :: rest =>
          parameter ::
            (if isSetter && isPanelParameter parameter then withId symbols panel else panel) ::
            rest
        | args => args
    else control :: args
  | [] => []

/-- The call in the place of an event that may change, if there is one. -/
def changingEvent? (b : Builtins) : List Expr → Option (Ident × Span)
  | .call name _ _ _ span :: _ => if b.hasConstantReturn name.name then none else some (name, span)
  | _ => none

/-- **The arguments of a call**, checked and with identifiers in the place of controls. -/
def arguments (env : Env) (symbols : Symbols) (trace : List Span) (name : String)
    (usingCall : Bool) (args : List Expr) : Except CompileError (List Expr) :=
  if usingCall || !env.builtins.isFunction name then .ok args
  else if startsWith "set_event_par" name || startsWith "get_event_par" name then
    match changingEvent? env.builtins args with
    | some (inner, span) =>
      .error (env.errorAt (.invalidEventParArgument inner.name name) span trace)
    | none => .ok args
  else if startsWith "set_control_par" name then .ok (withIds symbols true args)
  else if startsWith "get_control_par" name then .ok (withIds symbols false args)
  else .ok args

/-- A fault when a reference has more than one subscript. -/
def checkSubscripts (env : Env) (trace : List Span) (ident : Ident) (subscripts : List Expr)
    (span : Span) : Except CompileError Unit :=
  if 1 < subscripts.length then .error (env.errorAt (.tooManySubscripts ident.full) span trace)
  else .ok ()

mutual

/-- **An expression**, checked and with identifiers in the place of controls. -/
def expr (env : Env) (symbols : Symbols) (trace : List Span) : Expr → Except CompileError Expr
  | .binary op left right span => do
    let left ← expr env symbols trace left
    return .binary op left (← expr env symbols trace right) span
  | .unary op operand span => return .unary op (← expr env symbols trace operand) span
  | .var ident subscripts span => do
    checkSubscripts env trace ident subscripts span
    return .var ident (← exprs env symbols trace subscripts) span
  | .call name args isProcedure usingCall span => do
    let args ← exprs env symbols trace args
    let args ← arguments env symbols trace name.name usingCall args
    return .call name args isProcedure usingCall span
  | .int v span => .ok (.int v span)
  | .real v span => .ok (.real v span)
  | .str raw span => .ok (.str raw span)
  | .bool v span => .ok (.bool v span)
  | .raw text span => .ok (.raw text span)

/-- Expressions, checked and with identifiers in the place of controls. -/
def exprs (env : Env) (symbols : Symbols) (trace : List Span) :
    List Expr → Except CompileError (List Expr)
  | [] => .ok []
  | e :: es => do
    let e ← expr env symbols trace e
    return e :: (← exprs env symbols trace es)

end

/-- A reference, checked. -/
def varRef (env : Env) (symbols : Symbols) (trace : List Span) (v : VarRef) :
    Except CompileError VarRef := do
  checkSubscripts env trace v.ident v.subscripts v.span
  return { v with subscripts := ← exprs env symbols trace v.subscripts }

/-- A call, checked and with identifiers in the place of controls. -/
def call (env : Env) (symbols : Symbols) (trace : List Span) (c : Call) :
    Except CompileError Call := do
  let args ← exprs env symbols trace c.args
  return { c with args := ← arguments env symbols trace c.name.name c.usingCall args }

/-- The leaves of statements are checked and get identifiers in the place of controls. -/
def leafMap (env : Env) (symbols : Symbols) : LeafMap CompileError where
  expr scope := expr env symbols scope.trace
  target scope := varRef env symbols scope.trace
  call scope := call env symbols scope.trace

/-- **A script**, checked and with identifiers in the place of controls. -/
def script (env : Env) (s : Script) : Compile Script := do
  let symbols := (← get).symbols
  (s.mapLeaves (leafMap env symbols) .ok : Except CompileError Script)

end FlatScript.Controls
