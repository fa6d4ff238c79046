import FlatScript.Program
import FlatScript.Syntax.Leaves

/-!
# Finding the sigils of references

A reference without a sigil is looked up among the declared and the built-in variables under
every sigil. Exactly one of them has to fit; with a subscript only arrays are considered. A
reference with a sigil has to be declared with it.

Names of functions, families and properties, and the parameters of the function around a
reference, are no variables and stay as they are.
-/

namespace FlatScript.Sigils

/-- Whether a name is one of the parameters, or a field of one. -/
def isParam (params : List String) (name : String) : Bool :=
  params.contains (Name.firstPart name)

/-- Whether a variable with a sigil is declared or built in. -/
def isDeclared (b : Builtins) (p : Program) (full : String) : Bool :=
  p.symbols.hasVariable full || b.isBuiltin full

/-- Whether a name without sigil is of something that has none. -/
def isSigilFree (b : Builtins) (p : Program) (params : List String) (name : String) : Bool :=
  p.isUserFunction name || b.isFunction name || p.symbols.isFamily name ||
    p.symbols.isProperty name || isParam params name

/-- The sigils under which a name is declared; with a subscript, those of arrays. -/
def candidates (b : Builtins) (p : Program) (name : String) (subscripted : Bool) : List Sigil :=
  Sigil.all.filter fun s => (!subscripted || s.isArray) && isDeclared b p (s.text ++ name)

/-- **A name with its sigil**, or the reason why it has none. -/
def resolve (b : Builtins) (p : Program) (params : List String) (i : Ident)
    (subscripted : Bool) : Except Fault Ident :=
  match i.sigil with
  | none =>
    if isSigilFree b p params i.name then .ok i
    else match candidates b p i.name subscripted with
      | [] => .error (.undeclaredName i.full)
      | [sigil] => .ok { i with sigil := some sigil }
      | several => .error (.ambiguousType i.name
          (", ".intercalate (several.map fun s => s.text ++ i.name)))
  | some used =>
    if isDeclared b p i.full || isParam params i.full then .ok i
    else match Sigil.all.find? fun s => s != used && p.symbols.hasVariable (s.text ++ i.name) with
      | some declared => .error (.sigilConflict i.name declared used)
      | none => .error (.undeclaredName i.full)

/-- A name with its sigil, in a place of the script. -/
def ident (env : Env) (p : Program) (scope : Scope) (i : Ident) (subscripted : Bool) :
    Except CompileError Ident :=
  (resolve env.builtins p scope.params i subscripted).mapError fun fault =>
    env.errorAt fault i.span scope.trace

mutual

/-- **An expression with the sigils of its references.** -/
def expr (env : Env) (p : Program) (scope : Scope) : Expr → Except CompileError Expr
  | .binary op left right span => do
    let left ← expr env p scope left
    return .binary op left (← expr env p scope right) span
  | .unary op operand span => return .unary op (← expr env p scope operand) span
  | .var i subscripts span => do
    let subscripts ← exprs env p scope subscripts
    return .var (← ident env p scope i (!subscripts.isEmpty)) subscripts span
  | .call name args isProcedure usingCall span => do
    let args ← arguments env p scope (Builtins.keepsFirstArgument name.name) args
    return .call name args isProcedure usingCall span
  | .int v span => .ok (.int v span)
  | .real v span => .ok (.real v span)
  | .str raw span => .ok (.str raw span)
  | .bool v span => .ok (.bool v span)
  | .raw text span => .ok (.raw text span)

/-- Expressions with the sigils of their references. -/
def exprs (env : Env) (p : Program) (scope : Scope) : List Expr → Except CompileError (List Expr)
  | [] => .ok []
  | e :: es => do
    let e ← expr env p scope e
    return e :: (← exprs env p scope es)

/-- Arguments with the sigils of their references; the first one may have to stay. -/
def arguments (env : Env) (p : Program) (scope : Scope) (keepFirst : Bool) :
    List Expr → Except CompileError (List Expr)
  | [] => .ok []
  | e :: es => do
    let e ← if keepFirst then pure e else expr env p scope e
    return e :: (← exprs env p scope es)

end

/-- A reference with its sigil and those of its subscripts. -/
def varRef (env : Env) (p : Program) (scope : Scope) (v : VarRef) : Except CompileError VarRef := do
  let subscripts ← exprs env p scope v.subscripts
  return ⟨← ident env p scope v.ident (!subscripts.isEmpty), subscripts, v.span⟩

/-- A call with the sigils of its arguments. -/
def call (env : Env) (p : Program) (scope : Scope) (c : Call) : Except CompileError Call := do
  let args ← arguments env p scope (Builtins.keepsFirstArgument c.name.name) c.args
  return { c with args }

/-- The leaves of statements get their sigils. -/
def leafMap (env : Env) (p : Program) : LeafMap CompileError where
  expr := expr env p
  target := varRef env p
  call := call env p

/-- A function of the table with other statements. -/
def withStmts (e : FunctionEntry) (body globals locals : List Stmt) : FunctionEntry :=
  { e with fn := { e.fn with body }, globals, locals }

/-- A function of the table with the sigils of all its statements. -/
def entry (env : Env) (p : Program) (e : FunctionEntry) : Except CompileError FunctionEntry := do
  let params := e.fn.paramNames
  let body ← mapLeavesStmts (leafMap env p) params e.fn.body
  let globals ← mapLeavesStmts (leafMap env p) params e.globals
  let locals ← mapLeavesStmts (leafMap env p) params e.locals
  return withStmts e body globals locals

/-- The functions of the table from the `i`-th on, `n` of them, with their sigils. While those of
a function are found, its statements are taken out of the table. -/
def entries (env : Env) (i : Nat) : Nat → Compile Unit
  | 0 => return
  | n + 1 => do
    let changed : CompileError := .internal "function table changed during sigil resolution"
    match (← get).functions[i]? with
    | none => throw changed
    | some e =>
      modify fun p => { p with functions := p.functions.set i (withStmts e [] [] []) }
      let found ← entry env (← get) e
      match (← get).functions[i]? with
      | none => throw changed
      | some now =>
        let e := withStmts now found.fn.body found.globals found.locals
        modify fun p => { p with functions := p.functions.set i e }
        entries env (i + 1) n

/-- **A script with the sigils of all its references**; those of the functions in the table
are found too. -/
def script (env : Env) (s : Script) : Compile Script := do
  let p ← get
  let s ← s.mapLeaves (leafMap env p) (fun i => ident env p ⟨[], []⟩ i false)
  entries env 0 p.functions.length
  return s

end FlatScript.Sigils
